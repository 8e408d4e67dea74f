import Unjump.Method

/-! The demands on decoded bytecode that do not concern the operand stack,
and the reasons why it is no method. -/

namespace Unjump

/-- The operand that an instruction has to carry. -/
inductive OperandNeed where
  | branchTarget | switchTable | poolIndex | immediate | localVariable | increment | arrayType
    | arrayDimensions
deriving DecidableEq, Inhabited, Repr

/-- The written form of a needed operand. -/
def OperandNeed.text : OperandNeed → String
  | .branchTarget => "branch target"
  | .switchTable => "switch table"
  | .poolIndex => "constant pool index"
  | .immediate => "immediate"
  | .localVariable => "local variable"
  | .increment => "increment"
  | .arrayType => "array type"
  | .arrayDimensions => "array dimensions"

/-- Why a method cannot be turned into a graph. -/
inductive Malformed where
  | emptyCode
  | unorderedOffsets (offset : Offset)
  | offsetOutOfRange (offset : Offset) (codeLength : UInt32)
  | danglingBranch (offset target : Offset)
  | fallsOffEnd (offset : Offset)
  | invalidExceptionRange (start finish : Offset)
  | danglingHandler (handler : Offset)
  | unresolvedConstant (offset : Offset) (index : PoolIndex)
  | unsupportedOpcode (offset : Offset) (opcode : Opcode)
  | missingOperand (offset : Offset) (need : OperandNeed)
deriving DecidableEq, Inhabited, Repr

/-- The complaint about a method. -/
def Malformed.message : Malformed → String
  | .emptyCode => "method has no code"
  | .unorderedOffsets offset =>
    s!"instruction offsets are not strictly increasing at {offset.toNat}"
  | .offsetOutOfRange offset codeLength =>
    s!"instruction at {offset.toNat} lies outside the code length {codeLength.toNat}"
  | .danglingBranch offset target =>
    s!"branch at {offset.toNat} targets {target.toNat}, which is not an instruction boundary"
  | .fallsOffEnd offset => s!"control falls off the end of the code after {offset.toNat}"
  | .invalidExceptionRange start finish =>
    s!"exception range {start.toNat}..{finish.toNat} is not a valid instruction range"
  | .danglingHandler handler => s!"exception handler {handler.toNat} is not an instruction boundary"
  | .unresolvedConstant offset index =>
    s!"instruction at {offset.toNat} refers to constant #{index.toNat}, which cannot be resolved"
  | .unsupportedOpcode offset opcode => s!"unsupported opcode {opcode.code.toNat} at {offset.toNat}"
  | .missingOperand offset need => s!"instruction at {offset.toNat} lacks its {need.text} operand"

/-- The first instruction whose offset does not exceed the one before
it or lies outside the code. -/
def orderFault? (codeLength : UInt32) :
    (previous : Option Offset) → List Instruction → Option Malformed
  | _, [] => none
  | previous, instruction :: rest =>
    if previous.any (instruction.offset ≤ ·) then some (.unorderedOffsets instruction.offset)
    else if codeLength ≤ instruction.offset
      then some (.offsetOutOfRange instruction.offset codeLength)
    else orderFault? codeLength (some instruction.offset) rest

/-- Whether an operand is a jump target. -/
def Operand.isBranch : Operand → Bool
  | .branch _ => true
  | _ => false

/-- Whether an operand is a switch table. -/
def Operand.isSwitch : Operand → Bool
  | .switch _ _ => true
  | _ => false

/-- What is wrong with the jumps of an instruction, in code with the given offsets. -/
def Instruction.jumpFault? (offsets : List Offset) (instruction : Instruction) : Option Malformed :=
  let opcode := instruction.opcode
  if (opcode.isConditional || opcode.isGoto || opcode.isJsr) && !instruction.operand.isBranch then
    some (.missingOperand instruction.offset .branchTarget)
  else if opcode.isSwitch && !instruction.operand.isSwitch then
    some (.missingOperand instruction.offset .switchTable)
  else (instruction.jumpTargets.find? (· ∉ offsets)).map (.danglingBranch instruction.offset)

/-- What is wrong with a row of an exception table, over code with the given offsets and length. -/
def ExceptionRow.fault? (offsets : List Offset) (codeLength : UInt32) (row : ExceptionRow) :
    Option Malformed :=
  if row.finish ≤ row.start ∨ row.start ∉ offsets ∨
    (row.finish ∉ offsets ∧ row.finish ≠ codeLength) then
    some (.invalidExceptionRange row.start row.finish)
  else if row.handler ∉ offsets then some (.danglingHandler row.handler)
  else none

/-- The offsets of the instructions. -/
def Method.offsets (m : Method) : List Offset := m.code.map (·.offset)

/-- What is wrong with the layout of a method: its offsets, then its jumps, its end,
and its exception table. -/
def Method.fault? (m : Method) : Option Malformed :=
  match m.code.getLast? with
  | none => some .emptyCode
  | some last =>
    let offsets := m.offsets
    (orderFault? m.codeLength none m.code).or <|
      (m.code.findSome? (·.jumpFault? offsets)).or <|
        if last.opcode.endsFlow then m.exceptions.findSome? (·.fault? offsets m.codeLength)
        else some (.fallsOffEnd last.offset)

end Unjump
