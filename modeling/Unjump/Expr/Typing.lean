import Unjump.Expr.Basic
import Unjump.Method
import Unjump.Pool

/-! The type that an expression produces, as far as the constant pool
and the local variables tell. -/

namespace Unjump

/-- The declared type of a local variable, with a fallback for those that no row
of the table types. -/
def declaredType? (pool : Option Pool) (locals : Option Locals) (slot : Slot) (offset : Offset)
    (fallback : Signature) : Option Signature := do
  let pool ← pool
  let locals ← locals
  let declared := do pool.utf8? (← (← locals.lookup? slot offset).typeIndex?)
  return (declared.map Signature.mk).getD fallback

/-- The type of a local variable of a kind. -/
def ValueKind.localType? (pool : Option Pool) (locals : Option Locals) (slot : Slot)
    (offset : Offset) : ValueKind → Option Signature
  | .reference => declaredType? pool locals slot offset .object
  | .int => declaredType? pool locals slot offset .int
  | kind => kind.signature?

/-- The type of an array element, given the type of the array. -/
def ElementKind.loadedType? (array : Option Signature) : ElementKind → Option Signature
  | .reference => array.bind Signature.element?
  -- Byte accesses also serve boolean arrays, so the array decides when its type is known.
  | .byte => (array.bind Signature.element?).or (some .byte)
  | .int => some .int
  | .long => some .long
  | .float => some .float
  | .double => some .double
  | .char => some .char
  | .short => some .short

/-- The type that a call of the member at an index returns, if it returns a value. -/
def Pool.returnType? (pool : Pool) (index : PoolIndex) : Option Signature := do
  let descriptor ← MethodDescriptor.parse? (← pool.memberDescriptor? index)
  if descriptor.returnsValue then some descriptor.returnType else none

/-- The type of an expression without operands. -/
def Leaf.type? (pool : Option Pool) (locals : Option Locals) (offset : Offset) :
    Leaf → Option Signature
  | .int _ | .increment _ _ => some .int
  | .long _ => some .long
  | .float _ => some .float
  | .double _ => some .double
  | .constant index => pool.bind (·.loadableType? index)
  | .load kind slot => kind.localType? pool locals slot offset
  | .getStatic index => pool.bind fun pool => (pool.memberDescriptor? index).map Signature.mk
  | .new type => pool.bind (·.classType? type)
  | .caught (some type) => pool.bind (·.classType? type)
  | .caught none => some .throwable
  | .null | .returnVoid | .jsr _ | .ret _ | .stackEntry _ => none

/-- The type of an expression with any number of operands. -/
def Variadic.type? (pool : Option Pool) : Variadic → Option Signature
  | .newMultiArray type | .create type _ => pool.bind (·.classType? type)
  | .call _ index => pool.bind (·.returnType? index)

namespace Expr

/-- The type that an expression produces, where it is known. -/
def type? (pool : Option Pool) (locals : Option Locals) : Expr → Option Signature
  | .leaf origin head => head.type? pool locals origin.offset
  | .unary origin head value => match head with
    | .store kind slot => kind.localType? pool locals slot origin.offset
    | .convert target => some target
    | .negate .int => (value.type? pool locals).or (some .int)
    | .negate kind => kind.signature?
    | .arrayLength => some .int
    | .newArray code => (Signature.ofArrayCode? code).map Signature.arrayOf
    | .newObjectArray type => (pool.bind (·.classType? type)).map Signature.arrayOf
    | .getField index => pool.bind fun pool => (pool.memberDescriptor? index).map Signature.mk
    | .checkCast type => pool.bind (·.classType? type)
    | .instanceOf _ | .ifZero _ | .ifNull _ => some .boolean
    | .returnValue | .dupStore _ | .dupLoad _ | .leave => value.type? pool locals
    | .putStatic _ | .switch | .throw | .pop | .monitor _ => none
  | .binary _ head left right => match head with
    | .arith _ .int =>
      -- A narrow literal has no type of its own to offer, so the other operand decides.
      if left.origin.opcode.isNarrowLiteral
        then (right.type? pool locals).or (left.type? pool locals)
      else (left.type? pool locals).or (right.type? pool locals)
    | .arith _ kind => kind.signature?
    | .compare => some .int
    | .arrayLoad element => element.loadedType? (left.type? pool locals)
    | .putField _ => none
    | .ifCompare _ => some .boolean
  | .arrayStore _ _ _ _ _ => none
  | .variadic _ head _ => head.type? pool
  | .callOn _ _ index _ _ => pool.bind (·.returnType? index)

/-- Whether the value takes two stack slots. -/
def isWide (pool : Option Pool) (e : Expr) : Bool := (e.type? pool none).any Signature.isWide

end Expr

end Unjump
