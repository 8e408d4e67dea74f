import Unjump.Opcode

/-! Expression trees: what a run of instructions computes,
each node knowing the instruction it stems from. -/

namespace Unjump

/-- The instruction that an expression stems from. -/
structure Origin where
  opcode : Opcode := ⟨0⟩
  offset : Offset := 0
  line : Option Line := none
deriving DecidableEq, Inhabited, Repr

/-- Expressions without operands. -/
inductive Leaf where
  | int (value : Int32)
  | long (value : Int64)
  | float (value : Single)
  | double (value : Double)
  | null
  /-- A constant of the pool. -/
  | constant (index : PoolIndex)
  | load (kind : ValueKind) (slot : Slot)
  | increment (slot : Slot) (delta : Int16)
  | getStatic (index : PoolIndex)
  | new (type : PoolIndex)
  | returnVoid
  | jsr (target : Offset)
  | ret (slot : Slot)
  /-- A value that an earlier block left on the stack, counted from its top. -/
  | stackEntry (depth : Nat)
  /-- The exception that a handler starts with, of any class if none is named. -/
  | caught (type : Option PoolIndex)
deriving DecidableEq, Inhabited, Repr

/-- Expressions with one operand. -/
inductive Unary where
  | store (kind : ValueKind) (slot : Slot)
  | convert (target : Signature)
  | negate (kind : ValueKind)
  | arrayLength
  | newArray (code : UInt8)
  | newObjectArray (type : PoolIndex)
  | getField (index : PoolIndex)
  | putStatic (index : PoolIndex)
  | checkCast (type : PoolIndex)
  | instanceOf (type : PoolIndex)
  | ifZero (comparison : Comparison)
  | ifNull (comparison : Comparison)
  | switch
  | returnValue
  | throw
  | pop
  | monitor (action : MonitorAction)
  /-- Evaluates a duplicated value once, under a number by which it is read back. -/
  | dupStore (id : Nat)
  /-- Reads a duplicated value, and carries the expression that it was stored from. -/
  | dupLoad (id : Nat)
  /-- Leaves a value on the stack for the next block. -/
  | leave
deriving DecidableEq, Inhabited, Repr

/-- Expressions with two operands. -/
inductive Binary where
  | arith (op : ArithOp) (kind : ValueKind)
  | compare
  | arrayLoad (element : ElementKind)
  | putField (index : PoolIndex)
  | ifCompare (comparison : Comparison)
deriving DecidableEq, Inhabited, Repr

/-- Expressions with any number of operands. -/
inductive Variadic where
  | newMultiArray (type : PoolIndex)
  /-- A call without a receiver. -/
  | call (kind : CallKind) (index : PoolIndex)
  /-- The creation of an object together with the call of its constructor. -/
  | create (type : PoolIndex) (constructor : PoolIndex)
deriving DecidableEq, Inhabited, Repr

/-- An expression tree. -/
inductive Expr where
  | leaf (origin : Origin) (head : Leaf)
  | unary (origin : Origin) (head : Unary) (value : Expr)
  | binary (origin : Origin) (head : Binary) (left right : Expr)
  | arrayStore (origin : Origin) (element : ElementKind) (array index value : Expr)
  | variadic (origin : Origin) (head : Variadic) (arguments : List Expr)
  /-- A call on a receiver. -/
  | callOn (origin : Origin) (kind : CallKind) (index : PoolIndex) (object : Expr)
    (arguments : List Expr)
deriving Inhabited, Repr

namespace Expr

/-- The instruction that the root stems from. -/
def origin : Expr → Origin
  | .leaf origin _ | .unary origin _ _ | .binary origin _ _ _ | .arrayStore origin _ _ _ _
  | .variadic origin _ _ | .callOn origin _ _ _ _ => origin

/-- The direct operands, in the order of their evaluation. -/
def operands : Expr → List Expr
  | .leaf _ _ => []
  | .unary _ _ value => [value]
  | .binary _ _ left right => [left, right]
  | .arrayStore _ _ array index value => [array, index, value]
  | .variadic _ _ arguments => arguments
  | .callOn _ _ _ object arguments => object :: arguments

/-- Whether the expression is the test of a branch. -/
def isCondition : Expr → Bool
  | .unary _ (.ifZero _) _ | .unary _ (.ifNull _) _ | .binary _ (.ifCompare _) _ _ => true
  | _ => false

/-- Whether the expression ends its block. -/
def isTerminator (e : Expr) : Bool :=
  e.isCondition || match e with
    | .unary _ .switch _ | .unary _ .returnValue _ | .unary _ .throw _
    | .leaf _ .returnVoid | .leaf _ (.jsr _) | .leaf _ (.ret _) => true
    | _ => false

/-- Whether the expression is evaluated for its effect alone. -/
def isStatement (e : Expr) : Bool :=
  e.isTerminator || match e with
    | .unary _ (.store _ _) _ | .leaf _ (.increment _ _) | .arrayStore _ _ _ _ _
    | .unary _ (.putStatic _) _ | .binary _ (.putField _) _ _ | .unary _ .pop _
    | .unary _ (.monitor _) _ | .unary _ (.dupStore _) _ => true
    | _ => false

/-- Whether the expression hands its value to the next block. -/
def leavesValue : Expr → Bool
  | .unary _ .leave _ => true
  | _ => false

/-- Whether the expression can be evaluated twice at no cost and to no effect. -/
def isTrivial : Expr → Bool
  | .leaf _ head => match head with
    | .int _ | .long _ | .float _ | .double _ | .null | .constant _ | .load _ _ | .new _
    | .stackEntry _ | .caught _ => true
    | _ => false
  | .unary _ (.dupLoad _) _ => true
  | _ => false

/-- Whether the expression is a value taken from the stack of an earlier block. -/
def isStackEntry : Expr → Bool
  | .leaf _ (.stackEntry _) => true
  | _ => false

mutual

/-- Whether some node of the tree satisfies a test. -/
def any (test : Expr → Bool) : Expr → Bool
  | e@(.leaf _ _) => test e
  | e@(.unary _ _ value) => test e || any test value
  | e@(.binary _ _ left right) => test e || any test left || any test right
  | e@(.arrayStore _ _ array index value) =>
    test e || any test array || any test index || any test value
  | e@(.variadic _ _ arguments) => test e || anyOf test arguments
  | e@(.callOn _ _ _ object arguments) => test e || any test object || anyOf test arguments

/-- Whether some node of a list of trees satisfies a test. -/
def anyOf (test : Expr → Bool) : List Expr → Bool
  | [] => false
  | e :: rest => any test e || anyOf test rest

end

end Expr

end Unjump
