import Unjump.Opcode

/-!
Methods as decoded bytecode: instructions with their operands, and the exception table. Beside them
stands the local variable table, which tells which variable a slot holds in which part of the code.
-/

namespace Unjump

/-- What follows an opcode. -/
inductive Operand where
  | absent
  | int (value : Int32)
  | slot (slot : Slot)
  | increment (slot : Slot) (delta : Int16)
  | pool (index : PoolIndex)
  | multiArray (index : PoolIndex) (dimensions : UInt8)
  | arrayType (code : UInt8)
  | branch (target : Offset)
  | switch (default : Offset) (cases : List (Int32 × Offset))
deriving DecidableEq, Inhabited, Repr

namespace Operand

/-- The offsets that control may jump to, the default of a switch first. -/
def jumpTargets : Operand → List Offset
  | .branch target => [target]
  | .switch default cases => default :: cases.map (·.2)
  | _ => []

/-- The text that follows the mnemonic in a listing. -/
def text : Operand → String
  | .absent => ""
  | .int value => s!" {value.toInt}"
  | .slot number => s!" {number.toNat}"
  | .increment number delta => s!" {number.toNat} {delta.toInt}"
  | .pool index => s!" #{index.toNat}"
  | .multiArray index dimensions => s!" #{index.toNat} {dimensions.toNat}"
  | .arrayType code => s!" {code.toNat}"
  | .branch target => s!" {target.toNat}"
  | .switch default cases =>
    cases.foldl (fun text (key, target) => text ++ s!" {key.toInt}:{target.toNat}")
      s!" {default.toNat}"

end Operand

/-- A decoded instruction. -/
structure Instruction where
  offset : Offset
  opcode : Opcode
  operand : Operand := .absent
  line : Option Line := none
deriving DecidableEq, Inhabited, Repr

namespace Instruction

/-- The offsets that control may jump to. -/
def jumpTargets (instruction : Instruction) : List Offset := instruction.operand.jumpTargets

/-- The instruction as a line of a listing. -/
def text (instruction : Instruction) : String :=
  let mnemonic := instruction.opcode.mnemonic?.getD "<invalid>"
  s!"{instruction.offset.toNat}: {mnemonic}" ++ instruction.operand.text

end Instruction

/-- A row of the exception table, where no catch type means that everything is caught. -/
structure ExceptionRow where
  start : Offset
  finish : Offset
  handler : Offset
  catchType : Option PoolIndex
deriving DecidableEq, Inhabited, Repr

/-- Whether a row's range holds its own handler. -/
def ExceptionRow.coversHandler (row : ExceptionRow) : Bool :=
  row.start ≤ row.handler && row.handler < row.finish

/-- The code of a method. -/
structure Method where
  code : List Instruction := []
  exceptions : List ExceptionRow := []
  /-- The offset just past the last instruction. -/
  codeLength : UInt32 := 0
deriving DecidableEq, Inhabited, Repr

/-- A row of the table, naming a variable over a range of code. -/
structure LocalVariable where
  slot : Slot
  start : Offset
  length : UInt32
  name : PoolIndex
  descriptor : PoolIndex
  /-- The generic type, or zero. -/
  signature : PoolIndex
deriving DecidableEq, Inhabited, Repr

namespace LocalVariable

/-- Whether the variable is live at an offset, its range ending no later than the last offset. -/
def covers (row : LocalVariable) (offset : Offset) : Bool :=
  let finish := min (row.start.toNat + row.length.toNat) (UInt32.size - 1)
  row.start ≤ offset && offset.toNat < finish

/-- The index of the variable's type, its generic type if it has one. -/
def typeIndex? (row : LocalVariable) : Option PoolIndex :=
  [row.signature, row.descriptor].find? (· != 0)

end LocalVariable

/-- The rows of a local variable table. -/
abbrev Locals := List LocalVariable

/-- The first variable that a slot holds at an offset. -/
def Locals.lookup? (locals : Locals) (slot : Slot) (offset : Offset) : Option LocalVariable :=
  locals.find? fun row => row.slot == slot && row.covers offset

end Unjump
