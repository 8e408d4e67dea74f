import Unjump.Flow

/-! Arms: straight chains of settled blocks that can become the body of a construct. -/

namespace Unjump

/-- How a chain of blocks continues. -/
inductive ArmEnd where
  /-- With a block that is not part of the chain. -/
  | join (id : BlockId)
  /-- With an exit. -/
  | jump (way : Exit)
  /-- Not at all: it returns, throws or jumps. -/
  | terminal
deriving DecidableEq, Inhabited, Repr

namespace ArmEnd

/-- The block that a chain continues with. -/
def join? : ArmEnd → Option BlockId
  | .join id => some id
  | _ => none

/-- Whether control never reaches the block after the construct around the chain. -/
def isExit (finish : ArmEnd) : Bool := finish.join?.isNone

end ArmEnd

/-- A straight chain of settled blocks. -/
structure Arm where
  blocks : List BlockId
  finish : ArmEnd
deriving DecidableEq, Inhabited, Repr

/-- Which blocks a chain may take. -/
structure ArmBounds where
  /-- The blocks that may lead to the first one. -/
  entry : IdSet
  /-- The offset after which the first one has to start. -/
  after : Option Offset := none
  /-- The offset before which all have to start. -/
  before : Option Offset := none
deriving DecidableEq, Inhabited, Repr

namespace Arm

/-- Whether no block could be taken. -/
def isEmpty (arm : Arm) : Bool := arm.blocks.isEmpty

/-- The last block of the chain. -/
def last? (arm : Arm) : Option BlockId := arm.blocks.getLast?

/-- Whether the chain hands a value to the block after it. -/
def leavesValue (arm : Arm) (g : Graph) : Bool :=
  arm.last?.any fun last => (g.block last).leavesValue

end Arm

namespace Graph

/-- The predecessors of a block in the flow, those that are literal jumps apart. -/
def straightPreds (g : Graph) (id : BlockId) : IdSet :=
  (g.flowPreds id).filter fun pred => !(g.block pred).type.isGoto

/-- Whether a block is entered only by the block before it in a chain,
or by the chain's allowed entries. -/
def isEnteredBy (g : Graph) (bounds : ArmBounds) (previous : Option BlockId) (id : BlockId) :
    Bool :=
  let preds := g.straightPreds id
  match previous with
  | none => !preds.isEmpty && preds.subset bounds.entry
  | some previous => preds == IdSet.insert ∅ previous

/-- Whether a block covers code and starts where a chain may go on. -/
def isWithin (g : Graph) (bounds : ArmBounds) (previous : Option BlockId) (id : BlockId) : Bool :=
  let start := (g.block id).start
  let lower := match previous with
    | none => bounds.after
    | some previous => some (g.block previous).start
  start != syntheticOffset && lower.all (· < start) && bounds.before.all (start < ·)

/-- Whether a chain can take a block. -/
def admits (g : Graph) (flow : Flow) (bounds : ArmBounds) (previous : Option BlockId)
    (id : BlockId) : Bool :=
  (g.block id).isSettled && g.isEnteredBy bounds previous id && g.isWithin bounds previous id &&
    !flow.headers.contains id

/-- Follows a chain on from the blocks that it has already taken. -/
def walkFrom (g : Graph) (flow : Flow) (bounds : ArmBounds) (previous : Option BlockId)
    (seen : IdSet) (cursor : Target) : Arm :=
  match cursor with
  | .exit way => ⟨[], .jump way⟩
  | .block id =>
    if new : id ∉ seen ∧ id < g.size then
      have := IdSet.missing_insert_lt new.1 new.2
      if g.admits flow bounds previous id then
        let b := g.block id
        match if b.type.isGoto then none else b.next with
        | none => ⟨[id], .terminal⟩
        | some next =>
          let rest := g.walkFrom flow bounds (some id) (seen.insert id) next
          ⟨id :: rest.blocks, rest.finish⟩
      else ⟨[], .join id⟩
    else ⟨[], .join id⟩
termination_by seen.missing g.size

/-- The longest chain from a target within bounds. -/
def walk (g : Graph) (flow : Flow) (bounds : ArmBounds) (cursor : Target) : Arm :=
  g.walkFrom flow bounds none ∅ cursor

/-- Ends a chain that runs on into a block with another target instead. -/
def closeArm (g : Graph) (arm : Arm) (target : Target) : Graph :=
  match arm.finish, arm.last? with
  | .join _, some last => g.setEdge last .next (some target)
  | _, _ => g

/-- Blocks in the order of their code: for each offset at which one of them starts,
those that do. -/
def byOffset (g : Graph) (ids : IdSet) : List BlockId :=
  let offset := fun id => (g.block id).start.toNat
  (IdSet.ofList (ids.toList.map offset)).toList.flatMap fun start =>
    ids.toList.filter (offset · == start)

end Graph

end Unjump
