import Unjump.Block
import Unjump.Simulation

/-! Straight runs of instructions, and the blocks that they become. -/

namespace Unjump

/-- Instructions of which only the first can be jumped to and only the last can jump. -/
structure Run where
  head : Instruction
  tail : List Instruction
deriving DecidableEq, Inhabited, Repr

namespace Run

/-- The instructions of a run. -/
def code (run : Run) : List Instruction := run.head :: run.tail

/-- The last instruction of a run. -/
def last (run : Run) : Instruction := run.tail.getLast?.getD run.head

/-- Cuts code into runs before every leader. -/
def split (leaders : List Offset) : List Instruction → List Run
  | [] => []
  | head :: rest =>
    match split leaders rest with
    | [] => [⟨head, []⟩]
    | run :: runs =>
      if run.head.offset ∈ leaders then ⟨head, []⟩ :: run :: runs else ⟨head, run.code⟩ :: runs

end Run

/-- The offsets of the instructions that follow the end of a block. -/
def followers : List Instruction → List Offset
  | first :: second :: rest =>
    if first.opcode.endsBlock then second.offset :: followers (second :: rest)
      else followers (second :: rest)
  | _ => []

namespace Method

/-- The offsets at which a block has to start: jump targets, code after a jump,
and the bounds of protection. -/
def leaders (m : Method) : List Offset :=
  m.code.flatMap Instruction.jumpTargets ++ followers m.code ++ m.exceptions.map (·.start) ++
    m.exceptions.map (·.handler) ++ (m.exceptions.map (·.finish)).filter (· < m.codeLength)

/-- The runs of a method in the order of its code. -/
def runs (m : Method) : List Run := Run.split m.leaders m.code

/-- The value on the stack where a handler starts: what was thrown, of the class
that the first row for it names. -/
def thrown? (m : Method) (head : Instruction) : Option Expr :=
  (m.exceptions.find? (·.handler == head.offset)).map fun row =>
    .leaf head.origin (.caught row.catchType)

end Method

/-- The type of a block by its last opcode. -/
def RawType.ofLast (opcode : Opcode) : RawType :=
  match opcode.operation? with
  | some (.ifZero _) | some (.ifCompare _) | some (.ifNull _) => .conditional
  | some .goto => .goto
  | some .jsr => .jsr
  | some .switch => .switch
  | some .ret => .ret
  | some .returnVoid => .returnVoid
  | some .returnValue => .returnValue
  | some .throw => .throw
  | _ => .statements

/-- The block that starts at an offset, when the runs are numbered from one. -/
def blockAt? (runs : List Run) (offset : Offset) : Option BlockId :=
  (runs.findIdx? (·.head.offset == offset)).map (· + 1)

/-- The target of a jump to an offset. -/
def Instruction.targetAt (jump : Instruction) (blockAt : Offset → Option BlockId)
    (offset : Offset) : Except Malformed Target :=
  match blockAt offset with
  | some id => .ok (.block id)
  | none => .error (.danglingBranch jump.offset offset)

/-- Adds to a block the edges that its last instruction makes. -/
def Block.linked (b : Block) (last : Instruction) (through : Option BlockId)
    (blockAt : Offset → Option BlockId) : Except Malformed Block :=
  let target := last.targetAt blockAt
  match RawType.ofLast last.opcode, last.operand with
  | .goto, .branch offset => do
    return { b with next := some (← target offset) }
  | .conditional, .branch offset | .jsr, .branch offset => do
    return { b with next := through.map .block, branch := some (← target offset) }
  | .switch, .switch default keyed => do
    let cases ← keyed.mapM fun (key, offset) => do return ⟨key, false, ← target offset⟩
    return { b with cases := cases ++ [⟨0, true, ← target default⟩] }
  | .statements, _ => .ok { b with next := through.map .block }
  | _, _ => .ok b

namespace Run

/-- The block of a run, and the number of the next duplicated value. -/
def toBlock (run : Run) (m : Method) (pool : Option Pool) (finish : Offset)
    (through : Option BlockId) (blockAt : Offset → Option BlockId) (nextDup : Nat) :
    Except Malformed (Block × Nat) := do
  let frame ← Frame.run { stack := (m.thrown? run.head).toList, nextDup } pool run.code
  let b : Block :=
    { type := .raw (RawType.ofLast run.last.opcode)
      start := run.head.offset
      finish
      firstLine := run.code.findSome? (·.line)
      lastLine := run.code.reverse.findSome? (·.line)
      code := frame.expressions }
  return (← b.linked run.last through blockAt, frame.nextDup)

/-- The blocks of runs that are numbered on from a given one. -/
def toBlocks (m : Method) (pool : Option Pool) (blockAt : Offset → Option BlockId) :
    List Run → (id : BlockId) → (nextDup : Nat) → Except Malformed (List Block)
  | [], _, _ => .ok []
  | run :: rest, id, nextDup => do
    let finish := (rest.head?.map (·.head.offset)).getD m.codeLength
    let through := rest.head?.map fun _ => id + 1
    let (b, nextDup) ← run.toBlock m pool finish through blockAt nextDup
    return b :: (← toBlocks m pool blockAt rest (id + 1) nextDup)

end Run

end Unjump
