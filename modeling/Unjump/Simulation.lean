import Unjump.Expr.Typing
import Unjump.Method
import Unjump.Validity

/-! Expressions from instructions: the operand stack of one block is simulated
with expressions as its values. -/

namespace Unjump

/-- The state of a simulated block. -/
structure Frame where
  /-- The simulated values, top first. -/
  stack : List Expr := []
  /-- The statements so far, in order. -/
  statements : List Expr := []
  terminator : Option Expr := none
  /-- How many values were taken from below the block's own. -/
  inherited : Nat := 0
  /-- The number of the next duplicated value, counted through the whole method. -/
  nextDup : Nat := 0
deriving Inhabited, Repr

namespace Frame

/-- Pushes a value. -/
def push (frame : Frame) (value : Expr) : Frame := { frame with stack := value :: frame.stack }

/-- Pushes values, the last of which ends on top. -/
def pushAll (frame : Frame) (values : List Expr) : Frame := values.foldl push frame

/-- Adds a statement. -/
def emit (frame : Frame) (statement : Expr) : Frame :=
  { frame with statements := frame.statements ++ [statement] }

/-- Ends the block with an expression. -/
def terminate (frame : Frame) (terminator : Expr) : Frame :=
  { frame with terminator := some terminator }

/-- Pops a value, which on an empty stack is one that an earlier block left behind. -/
def pop (frame : Frame) (origin : Origin) : Expr × Frame :=
  match frame.stack with
  | value :: rest => (value, { frame with stack := rest })
  | [] =>
    (.leaf origin (.stackEntry frame.inherited), { frame with inherited := frame.inherited + 1 })

/-- Pops a number of values and returns them in the order of their pushing. -/
def popMany (origin : Origin) : (count : Nat) → Frame → List Expr × Frame
  | 0, frame => ([], frame)
  | count + 1, frame =>
    let (value, frame) := frame.pop origin
    let (values, frame) := popMany origin count frame
    (values ++ [value], frame)

/-- Pops one wide value or two others, in the order of their pushing. -/
def popPair (pool : Option Pool) (frame : Frame) (origin : Origin) : List Expr × Frame :=
  let (top, frame) := frame.pop origin
  if top.isWide pool then ([top], frame)
  else
    let (below, frame) := frame.pop origin
    ([below, top], frame)

/-- Makes two copies of a value, storing first what is not free to evaluate twice. -/
def duplicate (frame : Frame) (origin : Origin) (value : Expr) : Expr × Frame :=
  if value.isTrivial then (value, frame)
  else
    let id := frame.nextDup
    let stored := frame.emit (.unary origin (.dupStore id) value)
    (.unary origin (.dupLoad id) value, { stored with nextDup := id + 1 })

/-- Makes two copies of each of several values. -/
def duplicateAll (origin : Origin) : List Expr → Frame → List Expr × Frame
  | [], frame => ([], frame)
  | value :: rest, frame =>
    let (copy, frame) := frame.duplicate origin value
    let (copies, frame) := duplicateAll origin rest frame
    (copy :: copies, frame)

/-- Pushes values twice, once below others and once on top of them. -/
def pushAround (frame : Frame) (origin : Origin) (values buried : List Expr) : Frame :=
  let (copies, frame) := duplicateAll origin values frame
  frame.pushAll (copies ++ buried ++ copies)

/-- Discards one wide value or two others, the lower one first. -/
def pop2 (pool : Option Pool) (frame : Frame) (origin : Origin) : Frame :=
  let (values, frame) := frame.popPair pool origin
  values.foldl (fun frame value => frame.emit (.unary origin .pop value)) frame

/-- Duplicates the top value. -/
def dup (frame : Frame) (origin : Origin) : Frame :=
  let (top, frame) := frame.pop origin
  frame.pushAround origin [top] []

/-- Duplicates the top value and puts the copy below the next one. -/
def dupX1 (frame : Frame) (origin : Origin) : Frame :=
  let (top, frame) := frame.pop origin
  let (below, frame) := frame.pop origin
  frame.pushAround origin [top] [below]

/-- Duplicates the top value and puts the copy below the next wide value or the next two. -/
def dupX2 (pool : Option Pool) (frame : Frame) (origin : Origin) : Frame :=
  let (top, frame) := frame.pop origin
  let (buried, frame) := frame.popPair pool origin
  frame.pushAround origin [top] buried

/-- Duplicates the top wide value or the top two. -/
def dup2 (pool : Option Pool) (frame : Frame) (origin : Origin) : Frame :=
  let (values, frame) := frame.popPair pool origin
  frame.pushAround origin values []

/-- Duplicates the top wide value or the top two and puts the copies below the next value. -/
def dup2X1 (pool : Option Pool) (frame : Frame) (origin : Origin) : Frame :=
  let (values, frame) := frame.popPair pool origin
  let (below, frame) := frame.pop origin
  frame.pushAround origin values [below]

/-- Duplicates the top wide value or the top two and puts the copies below the next wide value or
the next two. -/
def dup2X2 (pool : Option Pool) (frame : Frame) (origin : Origin) : Frame :=
  let (values, frame) := frame.popPair pool origin
  let (buried, frame) := frame.popPair pool origin
  frame.pushAround origin values buried

/-- Exchanges the top two values. -/
def swap (frame : Frame) (origin : Origin) : Frame :=
  let (top, frame) := frame.pop origin
  let (below, frame) := frame.pop origin
  frame.pushAll [top, below]

/-- Pops the operand of an expression. -/
def popUnary (frame : Frame) (origin : Origin) (head : Unary) : Expr × Frame :=
  let (value, frame) := frame.pop origin
  (.unary origin head value, frame)

/-- Pops the operands of an expression, the right one first. -/
def popBinary (frame : Frame) (origin : Origin) (head : Binary) : Expr × Frame :=
  let (right, frame) := frame.pop origin
  let (left, frame) := frame.pop origin
  (.binary origin head left right, frame)

/-- Pushes an expression over the top value. -/
def pushUnary (frame : Frame) (origin : Origin) (head : Unary) : Frame :=
  let (e, frame) := frame.popUnary origin head
  frame.push e

/-- Adds a statement over the top value. -/
def emitUnary (frame : Frame) (origin : Origin) (head : Unary) : Frame :=
  let (e, frame) := frame.popUnary origin head
  frame.emit e

/-- Ends the block with an expression over the top value. -/
def terminateUnary (frame : Frame) (origin : Origin) (head : Unary) : Frame :=
  let (e, frame) := frame.popUnary origin head
  frame.terminate e

/-- Pushes an expression over the top two values. -/
def pushBinary (frame : Frame) (origin : Origin) (head : Binary) : Frame :=
  let (e, frame) := frame.popBinary origin head
  frame.push e

/-- Adds a statement over the top two values. -/
def emitBinary (frame : Frame) (origin : Origin) (head : Binary) : Frame :=
  let (e, frame) := frame.popBinary origin head
  frame.emit e

/-- Ends the block with an expression over the top two values. -/
def terminateBinary (frame : Frame) (origin : Origin) (head : Binary) : Frame :=
  let (e, frame) := frame.popBinary origin head
  frame.terminate e

/-- Stores the top value into an array below it. -/
def arrayStore (frame : Frame) (origin : Origin) (element : ElementKind) : Frame :=
  let (value, frame) := frame.pop origin
  let (index, frame) := frame.pop origin
  let (array, frame) := frame.pop origin
  frame.emit (.arrayStore origin element array index value)

/-- Pushes a new array with the top values as its dimensions. -/
def newMultiArray (frame : Frame) (origin : Origin) (type : PoolIndex) (dimensions : UInt8) :
    Frame :=
  let (lengths, frame) := popMany origin dimensions.toNat frame
  frame.push (.variadic origin (.newMultiArray type) lengths)

/-- Pushes the result of a call, or adds the call as a statement when it returns nothing. -/
def pushCall (frame : Frame) (call : Expr) (returnsValue : Bool) : Frame :=
  if returnsValue then frame.push call else frame.emit call

/-- Replaces the second reference to a fresh object by its creation, or adds the creation
as a statement. -/
def pushCreation (frame : Frame) (origin : Origin) (type constructor : PoolIndex)
    (arguments : List Expr) : Frame :=
  let creation := Expr.variadic origin (.create type constructor) arguments
  match frame.stack with
  | .leaf _ (.new top) :: rest =>
    if top = type then { frame with stack := creation :: rest } else frame.emit creation
  | _ => frame.emit creation

/-- Calls a method with the top values as its arguments. -/
def call (frame : Frame) (origin : Origin) (kind : CallKind) (index : PoolIndex)
    (descriptor : MethodDescriptor) (isConstructor : Bool) : Frame :=
  let (arguments, frame) := popMany origin descriptor.parameters.length frame
  if kind.isReceiverless then
    frame.pushCall (.variadic origin (.call kind index) arguments) descriptor.returnsValue
  else
    let (object, frame) := frame.pop origin
    match isConstructor, object with
    | true, .leaf _ (.new type) => frame.pushCreation origin type index arguments
    | _, _ => frame.pushCall (.callOn origin kind index object arguments) descriptor.returnsValue

/-- The expressions of the finished block: statements, values left on the stack
from the bottom up, terminator. -/
def expressions (frame : Frame) : List Expr :=
  frame.statements ++ frame.stack.reverse.map (fun value => .unary value.origin .leave value) ++
    frame.terminator.toList

end Frame

namespace Instruction

/-- The origin of the expressions that stem from an instruction. -/
def origin (instruction : Instruction) : Origin :=
  ⟨instruction.opcode, instruction.offset, instruction.line⟩

/-- The pool index that an instruction carries. -/
def poolIndex (instruction : Instruction) : Except Malformed PoolIndex :=
  match instruction.operand with
  | .pool index | .multiArray index _ => .ok index
  | _ => .error (.missingOperand instruction.offset .poolIndex)

/-- The local variable that an instruction names in its opcode or in its operand. -/
def slotOr (instruction : Instruction) (implied : Option Slot) : Except Malformed Slot :=
  match implied, instruction.operand with
  | some slot, _ => .ok slot
  | none, .slot slot => .ok slot
  | none, _ => .error (.missingOperand instruction.offset .localVariable)

/-- The effect of a call, whose member has to resolve to a method. -/
def callEffect (instruction : Instruction) (pool : Option Pool) (kind : CallKind) :
    Except Malformed (Frame → Frame) := do
  let index ← instruction.poolIndex
  let resolved := do
    let pool ← pool
    let descriptor ← MethodDescriptor.parse? (← pool.memberDescriptor? index)
    return (descriptor, kind == CallKind.special && pool.memberName? index == some "<init>")
  match resolved with
  | some (descriptor, isConstructor) =>
    return fun frame => frame.call instruction.origin kind index descriptor isConstructor
  | none => throw (Malformed.unresolvedConstant instruction.offset index)

/-- What an instruction does to a frame, which fails only for want of its operand
or of its method. -/
def effect (instruction : Instruction) (pool : Option Pool) : Except Malformed (Frame → Frame) :=
  let origin := instruction.origin
  let missing := fun need => Except.error (.missingOperand instruction.offset need)
  match instruction.opcode.operation? with
  | none => .error (.unsupportedOpcode instruction.offset instruction.opcode)
  | some operation => match operation with
    | .nothing | .goto => .ok id
    | .null => .ok (·.push (.leaf origin .null))
    | .int value => .ok (·.push (.leaf origin (.int value)))
    | .long value => .ok (·.push (.leaf origin (.long value)))
    | .float value => .ok (·.push (.leaf origin (.float value)))
    | .double value => .ok (·.push (.leaf origin (.double value)))
    | .immediate => match instruction.operand with
      | .int value => .ok (·.push (.leaf origin (.int value)))
      | _ => missing .immediate
    | .constant => do
      let index ← instruction.poolIndex
      return (·.push (.leaf origin (.constant index)))
    | .load kind implied => do
      let slot ← instruction.slotOr implied
      return (·.push (.leaf origin (.load kind slot)))
    | .store kind implied => do
      let slot ← instruction.slotOr implied
      return (·.emitUnary origin (.store kind slot))
    | .arrayLoad element => .ok (·.pushBinary origin (.arrayLoad element))
    | .arrayStore element => .ok (·.arrayStore origin element)
    | .pop => .ok (·.emitUnary origin .pop)
    | .pop2 => .ok (·.pop2 pool origin)
    | .dup => .ok (·.dup origin)
    | .dupX1 => .ok (·.dupX1 origin)
    | .dupX2 => .ok (·.dupX2 pool origin)
    | .dup2 => .ok (·.dup2 pool origin)
    | .dup2X1 => .ok (·.dup2X1 pool origin)
    | .dup2X2 => .ok (·.dup2X2 pool origin)
    | .swap => .ok (·.swap origin)
    | .arith op kind => .ok (·.pushBinary origin (.arith op kind))
    | .negate kind => .ok (·.pushUnary origin (.negate kind))
    | .increment => match instruction.operand with
      | .increment slot delta => .ok (·.emit (.leaf origin (.increment slot delta)))
      | _ => missing .increment
    | .convert target => .ok (·.pushUnary origin (.convert target))
    | .compare => .ok (·.pushBinary origin .compare)
    | .ifZero comparison => .ok (·.terminateUnary origin (.ifZero comparison))
    | .ifCompare comparison => .ok (·.terminateBinary origin (.ifCompare comparison))
    | .ifNull comparison => .ok (·.terminateUnary origin (.ifNull comparison))
    | .jsr => match instruction.operand with
      | .branch target => .ok (·.terminate (.leaf origin (.jsr target)))
      | _ => missing .branchTarget
    | .ret => do
      let slot ← instruction.slotOr none
      return (·.terminate (.leaf origin (.ret slot)))
    | .switch => .ok (·.terminateUnary origin .switch)
    | .returnValue => .ok (·.terminateUnary origin .returnValue)
    | .returnVoid => .ok (·.terminate (.leaf origin .returnVoid))
    | .throw => .ok (·.terminateUnary origin .throw)
    | .getStatic => do
      let index ← instruction.poolIndex
      return (·.push (.leaf origin (.getStatic index)))
    | .putStatic => do
      let index ← instruction.poolIndex
      return (·.emitUnary origin (.putStatic index))
    | .getField => do
      let index ← instruction.poolIndex
      return (·.pushUnary origin (.getField index))
    | .putField => do
      let index ← instruction.poolIndex
      return (·.emitBinary origin (.putField index))
    | .invoke kind => instruction.callEffect pool kind
    | .new => do
      let type ← instruction.poolIndex
      return (·.push (.leaf origin (.new type)))
    | .newArray => match instruction.operand with
      | .arrayType code => .ok (·.pushUnary origin (.newArray code))
      | _ => missing .arrayType
    | .newObjectArray => do
      let type ← instruction.poolIndex
      return (·.pushUnary origin (.newObjectArray type))
    | .newMultiArray => match instruction.operand with
      | .multiArray type dimensions => .ok (·.newMultiArray origin type dimensions)
      | _ => missing .arrayDimensions
    | .arrayLength => .ok (·.pushUnary origin .arrayLength)
    | .checkCast => do
      let type ← instruction.poolIndex
      return (·.pushUnary origin (.checkCast type))
    | .instanceOf => do
      let type ← instruction.poolIndex
      return (·.pushUnary origin (.instanceOf type))
    | .monitor action => .ok (·.emitUnary origin (.monitor action))

end Instruction

/-- Simulates a run of instructions from a frame. -/
def Frame.run (frame : Frame) (pool : Option Pool) : List Instruction → Except Malformed Frame
  | [] => .ok frame
  | instruction :: rest => do
    let effect ← instruction.effect pool
    (effect frame).run pool rest

end Unjump
