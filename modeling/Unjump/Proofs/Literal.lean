import Mathlib.Logic.Relation
import Unjump.Expr.Typing

/-!
Int literals do not decide the type of what they are added to.

An int operator takes the type of one operand and falls back on the other. A literal is asked last
on either side, so an expression keeps its type under any nest of int operators
whose other operands are literals.
-/

namespace Unjump

open Relation (ReflTransGen TransGen)

/-- The mnemonics of the instructions that push an int of their own. -/
def intPushes : List String :=
  ["iconst_m1", "iconst_0", "iconst_1", "iconst_2", "iconst_3", "iconst_4", "iconst_5", "bipush",
    "sipush"]

namespace Opcode

/-- Whether an opcode spells the push of an int. -/
def PushesInt (opcode : Opcode) : Prop := ∃ name ∈ intPushes, opcode.mnemonic? = some name

/-- Whether an opcode is that of an operator, with one operand or two. -/
def IsOperator (opcode : Opcode) : Prop :=
  (∃ op kind, opcode.operation? = some (.arith op kind)) ∨
  ∃ kind, opcode.operation? = some (.negate kind)

/-- The opcodes whose literals are asked last are those that push an int. -/
theorem isNarrowLiteral_iff {opcode : Opcode} :
    opcode.isNarrowLiteral = true ↔ opcode.PushesInt := by
  -- The table spells these opcodes so, and no others.
  have spelled : ∀ entry ∈ table, entry.2.isNarrowLiteral = true ↔ entry.1 ∈ intPushes := by
    decide +kernel
  rw [isNarrowLiteral, satisfies, operation?, PushesInt, mnemonic?]
  cases found : table[opcode.code.toNat]? with
  | none => simp
  | some entry => simpa using spelled entry (List.mem_of_getElem? found)

/-- An operator pushes no literal. -/
theorem IsOperator.not_isNarrowLiteral {opcode : Opcode} (isOperator : opcode.IsOperator) :
    opcode.isNarrowLiteral = false := by
  rw [isNarrowLiteral, satisfies]
  -- Neither kind of operator is among the operations that push.
  rcases isOperator with ⟨op, kind, found⟩ | ⟨kind, found⟩
  · rw [found]
    rfl
  · rw [found]
    rfl

end Opcode

namespace Expr

/-- One expression is another one under an int operator that has a literal
as its other operand, or under an int negation. -/
inductive OperatesOn : Expr → Expr → Prop
  | literalLeft {origin literal : Origin} {op : ArithOp} {value : Int32} {e : Expr}
      (isOperator : origin.opcode.IsOperator) (pushes : literal.opcode.PushesInt) :
      OperatesOn e (.binary origin (.arith op .int) (.leaf literal (.int value)) e)
  | literalRight {origin literal : Origin} {op : ArithOp} {value : Int32} {e : Expr}
      (isOperator : origin.opcode.IsOperator) (pushes : literal.opcode.PushesInt) :
      OperatesOn e (.binary origin (.arith op .int) e (.leaf literal (.int value)))
  | negate {origin : Origin} {e : Expr} (isOperator : origin.opcode.IsOperator) :
      OperatesOn e (.unary origin (.negate .int) e)

variable {pool : Option Pool} {locals : Option Locals} {e next last : Expr} {type : Signature}

/-- An operator with a literal is no literal itself. -/
theorem OperatesOn.not_isNarrowLiteral (operates : e.OperatesOn next) :
    next.origin.opcode.isNarrowLiteral = false := by
  cases operates with
  | literalLeft isOperator | literalRight isOperator | negate isOperator =>
    exact isOperator.not_isNarrowLiteral

/-- An operator with a literal has the type of its other operand, and is an int if that has none. -/
theorem OperatesOn.type?_eq (operates : e.OperatesOn next)
    (asked : e.origin.opcode.isNarrowLiteral = false ∨ e.type? pool locals = none) :
    next.type? pool locals = (e.type? pool locals).or (some .int) := by
  -- A literal is an int whatever the pool and the variables are.
  have literal : ∀ {origin value}, (leaf origin (.int value)).type? pool locals = some .int := rfl
  cases operates with
  | literalLeft isOperator pushes =>
    -- A literal on the left is seen to be one, so the right operand is asked first.
    simp only [type?, origin, Opcode.isNarrowLiteral_iff.mpr pushes, if_true]
    rfl
  | @literalRight _ _ _ value _ isOperator pushes =>
    rcases asked with typed | untyped
    · -- The left operand is asked first, since it does not pass for a literal.
      rw [type?, if_neg (Bool.eq_false_iff.mp typed), literal]
    · -- Without a type of its own it does not matter whether the left operand passes for a literal.
      rw [type?, literal, untyped]
      split <;> rfl
  | negate => rw [type?]

/-- An expression that is no literal keeps its type under operators with literals. -/
theorem type?_of_operations (operates : ReflTransGen OperatesOn e last)
    (typed : e.type? pool locals = some type) (asked : e.origin.opcode.isNarrowLiteral = false) :
    last.type? pool locals = some type ∧ last.origin.opcode.isNarrowLiteral = false := by
  -- Both are carried along: what is under an operator must not pass for a literal in the next step.
  induction operates with
  | refl => exact ⟨typed, asked⟩
  | tail _ step ih =>
    refine ⟨?_, step.not_isNarrowLiteral⟩
    rw [step.type?_eq (.inl ih.2), ih.1]
    rfl

/-- Literals leave the type of an expression alone under any number of int operators, and make an
int of one without a type. -/
theorem literals_never_decide (pool : Option Pool) (locals : Option Locals) (e last : Expr) :
    (∀ type, e.type? pool locals = some type → ¬ e.origin.opcode.PushesInt →
      ReflTransGen OperatesOn e last → last.type? pool locals = some type) ∧
    (e.type? pool locals = none → TransGen OperatesOn e last →
      last.type? pool locals = some .int) := by
  constructor
  · -- The expression does not pass for a literal, and neither does any operator above it.
    intro type typed noLiteral operates
    have asked : e.origin.opcode.isNarrowLiteral = false :=
      Bool.eq_false_iff.mpr fun narrow => noLiteral (Opcode.isNarrowLiteral_iff.mp narrow)
    exact (type?_of_operations operates typed asked).1
  · intro untyped operates
    -- The first operator makes an int, which is no literal, and the others keep it.
    obtain ⟨next, step, later⟩ := TransGen.head'_iff.mp operates
    have isInt : next.type? pool locals = some .int := by
      rw [step.type?_eq (.inr untyped), untyped]; rfl
    exact (type?_of_operations later isInt step.not_isNarrowLiteral).1

/-- An expression under three operators, as in `-(7 + (x - 1))`. -/
def negatedSum (e : Expr) : Expr :=
  .unary ⟨⟨116⟩, 16, none⟩ (.negate .int)
    (.binary ⟨⟨96⟩, 15, none⟩ (.arith .add .int) (.leaf ⟨⟨16⟩, 10, none⟩ (.int 7))
    (.binary ⟨⟨100⟩, 14, none⟩ (.arith .sub .int) e (.leaf ⟨⟨4⟩, 13, none⟩ (.int 1))))

/-- The expression stands under the three operators of that one. -/
theorem negatedSum_operates (e : Expr) : TransGen OperatesOn e (negatedSum e) := by
  have isSub : Opcode.IsOperator ⟨100⟩ := .inl ⟨.sub, .int, rfl⟩
  have isAdd : Opcode.IsOperator ⟨96⟩ := .inl ⟨.add, .int, rfl⟩
  have isNegate : Opcode.IsOperator ⟨116⟩ := .inr ⟨.int, rfl⟩
  -- From the inside out: a literal to the right, one to the left, and the negation.
  refine .tail (.tail (.single (.literalRight isSub ?_)) (.literalLeft isAdd ?_)) (.negate isNegate)
  · exact ⟨"iconst_1", by decide, rfl⟩
  · exact ⟨"bipush", by decide, rfl⟩

/-- A pool that names the type of a byte. -/
def bytePool : Pool := (({} : Pool).internUtf8 "B").2

/-- A local variable that is a byte. -/
def byteVariable : LocalVariable where
  slot := 1
  start := 0
  length := 100
  name := 0
  descriptor := 1
  signature := 0

/-- Under the same operators a byte stays a byte and a value of unknown type becomes an int. -/
theorem negatedSum_keeps_byte :
    (leaf ⟨⟨27⟩, 11, none⟩ (.load .int 1)).type? (some bytePool) (some [byteVariable]) =
      some .byte ∧
      (negatedSum (leaf ⟨⟨27⟩, 11, none⟩ (.load .int 1))).type? (some bytePool)
        (some [byteVariable]) = some .byte ∧
      (leaf ⟨⟨100⟩, 14, none⟩ (.stackEntry 0)).type? (some bytePool) (some [byteVariable]) = none ∧
      (negatedSum (leaf ⟨⟨100⟩, 14, none⟩ (.stackEntry 0))).type? (some bytePool)
        (some [byteVariable]) = some .int := by
  have isByte : (leaf ⟨⟨27⟩, 11, none⟩ (.load .int 1)).type? (some bytePool) (some [byteVariable]) =
      some .byte := by
    decide +kernel
  have noLiteral : ¬ Opcode.PushesInt ⟨27⟩ := fun pushes => by
    cases Opcode.isNarrowLiteral_iff.mpr pushes
  exact ⟨isByte, (literals_never_decide _ _ _ _).1 _ isByte noLiteral
    (negatedSum_operates _).to_reflTransGen, rfl,
    (literals_never_decide _ _ _ _).2 rfl (negatedSum_operates _)⟩

end Expr

end Unjump
