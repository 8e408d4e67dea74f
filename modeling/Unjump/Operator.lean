import Unjump.Descriptor

/-! The value kinds and operators that instructions and expressions are made of. -/

namespace Unjump

/-- The kind of value that an instruction works on. -/
inductive ValueKind where
  | int | long | float | double | reference
deriving DecidableEq, Inhabited, Repr

/-- The type that a kind fixes, which references leave open. -/
def ValueKind.signature? : ValueKind → Option Signature
  | .int => some .int
  | .long => some .long
  | .float => some .float
  | .double => some .double
  | .reference => none

/-- The kind of element that an array access works on, where bytes also stand for booleans. -/
inductive ElementKind where
  | int | long | float | double | reference | byte | char | short
deriving DecidableEq, Inhabited, Repr

/-- An arithmetic, shift or bitwise operator. -/
inductive ArithOp where
  | add | sub | mul | div | rem | shl | shr | ushr | and | or | xor
deriving DecidableEq, Inhabited, Repr

/-- The written form of an operator. -/
def ArithOp.symbol : ArithOp → String
  | .add => "+"
  | .sub => "-"
  | .mul => "*"
  | .div => "/"
  | .rem => "%"
  | .shl => "<<"
  | .shr => ">>"
  | .ushr => ">>>"
  | .and => "&"
  | .or => "|"
  | .xor => "^"

/-- The precedence level of an operator, where lower levels bind tighter. -/
def ArithOp.priority : ArithOp → Nat
  | .mul | .div | .rem => 3
  | .add | .sub => 4
  | .shl | .shr | .ushr => 5
  | .and => 8
  | .xor => 9
  | .or => 10

/-- A comparison that a conditional branch tests. -/
inductive Comparison where
  | eq | ne | lt | ge | gt | le
deriving DecidableEq, Inhabited, Repr

/-- The written form of a comparison. -/
def Comparison.symbol : Comparison → String
  | .eq => "=="
  | .ne => "!="
  | .lt => "<"
  | .ge => ">="
  | .gt => ">"
  | .le => "<="

/-- The comparison that holds exactly when this one fails. -/
def Comparison.negate : Comparison → Comparison
  | .eq => .ne
  | .ne => .eq
  | .lt => .ge
  | .ge => .lt
  | .gt => .le
  | .le => .gt

/-- The precedence level of a comparison. -/
def Comparison.priority : Comparison → Nat
  | .eq | .ne => 7
  | _ => 6

/-- How a call finds its method. -/
inductive CallKind where
  | virtual | special | static | interface | dynamic
deriving DecidableEq, Inhabited, Repr

/-- Whether a call takes no receiver from the stack. -/
def CallKind.isReceiverless : CallKind → Bool
  | .static | .dynamic => true
  | _ => false

/-- What an instruction does to the lock of an object. -/
inductive MonitorAction where
  | enter | exit
deriving DecidableEq, Inhabited, Repr

end Unjump
