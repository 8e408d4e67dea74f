import Unjump.Proofs.Grammar

/-!
What the text of arithmetic says.

An operand is put in parentheses if it binds looser than the operator around it, on either side. To
the left that is all the grammar asks for. To the right it is not, since an operand of the same
level is read as part of the left one. So the text says the arithmetic that leans to the left
throughout, and that is the printed one only if no operator has a right operand of its own level.
-/

namespace Unjump

/-- The arithmetic that an expression is, if it is made of loads and operators only. -/
def Expr.arith? : Expr → Option Arith
  | .leaf _ (.load _ slot) => some (.load slot)
  | .binary _ (.arith op _) left right => do return .node op (← left.arith?) (← right.arith?)
  | _ => none

namespace Arith

/-- The level of arithmetic as an operand. -/
def level : Arith → Nat
  | .load _ => 0
  | .node op _ _ => op.priority

/-- Puts parentheses around the tokens of an operand that binds looser than a level. -/
def bracket (level : Nat) (operand : Arith) (tokens : List Token) : List Token :=
  if level < operand.level then .opening :: (tokens ++ [.closing]) else tokens

/-- The tokens that arithmetic is printed with. -/
def tokens : Arith → List Token
  | .load slot => [.load slot]
  | .node op left right =>
    bracket op.priority left left.tokens ++ .operator op :: bracket op.priority right right.tokens

/-- Applies an operator to a left operand and to the leftmost part of a right one
that is an operand of its own level. -/
def graft (op : ArithOp) (left : Arith) : Arith → Arith
  | .load slot => .node op left (.load slot)
  | .node other first second =>
    if other.priority = op.priority then .node other (graft op left first) second
    else .node op left (.node other first second)

/-- The same operands and operators in the same order, with operators of one level grouped
to the left. -/
def leftLeaning : Arith → Arith
  | .load slot => .load slot
  | .node op left right => graft op left.leftLeaning right.leftLeaning

/-- No operator has a right operand of its own level. -/
def LeansLeft : Arith → Prop
  | .load _ => True
  | .node op left right => left.LeansLeft ∧ right.LeansLeft ∧ right.level ≠ op.priority

section Leaning

variable {op other : ArithOp} {tree left right : Arith}

/-- An operator between operands of other levels is just put between them. -/
theorem graft_eq_node (differs : right.level ≠ op.priority) :
    graft op left right = .node op left right := by
  -- Only operands of the operator's own level are gone into.
  cases right with
  | load slot => rfl
  | node inner first second => exact if_neg differs

/-- Putting in an operator makes arithmetic of its level. -/
@[simp] theorem level_graft (op : ArithOp) (left right : Arith) :
    (graft op left right).level = op.priority := by
  -- The root is the operator or one of its level.
  cases right with
  | load slot => rfl
  | node inner first second =>
    rw [graft]
    split
    · next same => exact same
    · rfl

/-- Grouping to the left keeps the level. -/
@[simp] theorem level_leftLeaning (tree : Arith) : tree.leftLeaning.level = tree.level := by
  cases tree with
  | load slot => rfl
  | node op left right => exact level_graft _ _ _

/-- Operators of one level can be put in from either end. -/
theorem graft_graft (same : other.priority = op.priority) (first second third : Arith) :
    graft op first (graft other second third) = graft other (graft op first second) third := by
  -- Only the left edge of the third operand is gone down, so only its left operands are needed.
  induction third with
  | load slot => rw [graft, graft, graft, if_pos same]
  | node inner left right ihLeft _ =>
    by_cases equal : inner.priority = other.priority
    · rw [graft, if_pos equal, graft, if_pos (equal.trans same), ihLeft, graft, if_pos equal]
    · rw [graft, if_neg equal, graft, if_pos same, graft, if_neg equal]

/-- Putting in an operator between arithmetic that leans to the left keeps it leaning so. -/
theorem leansLeft_graft (leansLeft : left.LeansLeft) (leansRight : right.LeansLeft) :
    (graft op left right).LeansLeft := by
  -- By induction along the left spine of the right operand, down to where the level changes.
  induction right with
  | load slot => exact ⟨leansLeft, trivial, Nat.ne_of_lt op.priority_pos⟩
  | node inner first second ihFirst _ =>
    obtain ⟨leansFirst, leansSecond, differs⟩ := leansRight
    rw [graft]
    split
    · exact ⟨ihFirst leansFirst, leansSecond, differs⟩
    · next other => exact ⟨leansLeft, ⟨leansFirst, leansSecond, differs⟩, other⟩

/-- What is grouped to the left leans to the left. -/
theorem leansLeft_leftLeaning (tree : Arith) : tree.leftLeaning.LeansLeft := by
  -- From the operands to the operator.
  induction tree with
  | load slot => trivial
  | node op left right ihLeft ihRight => exact leansLeft_graft ihLeft ihRight

/-- Arithmetic that leans to the left already is left as it is, and no other is. -/
theorem leftLeaning_eq_self_iff : tree.leftLeaning = tree ↔ tree.LeansLeft := by
  -- Grafting changes nothing where the right operand has another level.
  refine ⟨fun same => same ▸ leansLeft_leftLeaning tree, fun leans => ?_⟩
  induction tree with
  | load slot => rfl
  | node op left right ihLeft ihRight =>
    obtain ⟨leansFirst, leansSecond, differs⟩ := leans
    rw [leftLeaning, ihLeft leansFirst, ihRight leansSecond, graft_eq_node differs]

end Leaning

section Printing

variable {op : ArithOp} {tree : Arith}

/-- An operand that binds tightly enough stands without parentheses. -/
theorem bracket_of_le {limit : Nat} (tighter : tree.level ≤ limit) (tokens : List Token) :
    bracket limit tree tokens = tokens := if_neg (Nat.not_lt.mpr tighter)

/-- Grouping to the left changes no token: an operand of the same level stands without parentheses
on either side. -/
theorem tokens_graft (op : ArithOp) (left right : Arith) :
    (graft op left right).tokens =
      bracket op.priority left left.tokens ++
        .operator op :: bracket op.priority right right.tokens := by
  -- Along the left spine of the right operand, as far as operators have the level.
  induction right with
  | load slot => rfl
  | node inner first second ihFirst _ =>
    rw [graft]
    split
    · next same =>
      -- Neither the grafted operand nor the whole one stands in parentheses,
      -- for both have the level of the operators.
      have grafted : (graft op left first).level ≤ inner.priority :=
        level_graft op left first ▸ Nat.le_of_eq same.symm
      have whole : (node inner first second).level ≤ op.priority := Nat.le_of_eq same
      rw [tokens, bracket_of_le grafted, ihFirst, bracket_of_le whole, tokens, same]
      simp
    · rw [tokens]

/-- Grouping to the left keeps the tokens. -/
theorem tokens_leftLeaning (tree : Arith) : tree.leftLeaning.tokens = tree.tokens := by
  -- The levels stay, so that parentheses are where they were.
  induction tree with
  | load slot => rfl
  | node op left right ihLeft ihRight =>
    rw [leftLeaning, tokens_graft, tokens, ihLeft, ihRight, bracket, bracket, level_leftLeaning,
      level_leftLeaning]
    rfl

/-- No arithmetic is looser than the loosest operator. -/
theorem level_le_loosest (tree : Arith) : tree.level ≤ ArithOp.loosest := by
  cases tree with
  | load slot => exact Nat.zero_le _
  | node op left right => exact op.priority_le_loosest

/-- What is printed in parentheses may stand anywhere. -/
theorem reads_parens (reads : Reads tree.level tree.tokens tree.leftLeaning) (limit : Nat) :
    Reads limit (.opening :: (tree.tokens ++ [.closing])) tree.leftLeaning :=
  .parens (reads.mono tree.level_le_loosest)

/-- An operand prints as tokens that may stand to the left of an operator. -/
theorem reads_bracket (reads : Reads tree.level tree.tokens tree.leftLeaning) (limit : Nat) :
    Reads limit (bracket limit tree tree.tokens) tree.leftLeaning := by
  -- Parentheses can stand anywhere; without them the operand binds tightly enough.
  rw [bracket]
  split
  · exact reads_parens reads limit
  · next tighter => exact reads.mono (Nat.not_lt.mp tighter)

/-- An operand of another level prints as tokens that may stand to the right of an operator too. -/
theorem reads_node_bracket (reads : Reads tree.level tree.tokens tree.leftLeaning)
    (differs : tree.level ≠ op.priority) {before : List Token} {left : Arith}
    (readsLeft : Reads op.priority before left) :
    Reads op.priority (before ++ .operator op :: bracket op.priority tree tree.tokens)
      (.node op left tree.leftLeaning) := by
  rcases Nat.lt_or_gt_of_ne differs with tighter | looser
  · -- It binds tighter, so it may stand as it is.
    rw [bracket_of_le (Nat.le_of_lt tighter)]
    exact .node (Nat.le_refl _) tighter readsLeft reads
  · -- It binds looser, so it stands in parentheses.
    rw [bracket, if_pos looser]
    exact .node (Nat.le_refl _) op.priority_pos readsLeft (reads_parens reads 0)

/-- The tokens of arithmetic read as what leans to the left, by themselves and to the right
of an operator. -/
theorem reads_tokens (tree : Arith) :
    Reads tree.level tree.tokens tree.leftLeaning ∧
      ∀ (op : ArithOp) (before : List Token) (left : Arith), Reads op.priority before left →
        Reads op.priority (before ++ .operator op :: bracket op.priority tree tree.tokens)
          (graft op left tree.leftLeaning) := by
  -- Both facts are carried, since an operand of the same level is read on with what stands
  -- to the left of it.
  induction tree with
  | load slot => exact ⟨.load slot, fun op before left readsLeft =>
      .node (Nat.le_refl _) op.priority_pos readsLeft (.load slot)⟩
  | node inner first second ihFirst ihSecond =>
    have whole : Reads (node inner first second).level (node inner first second).tokens
        (node inner first second).leftLeaning :=
      ihSecond.2 inner _ _ (reads_bracket ihFirst.1 inner.priority)
    refine ⟨whole, fun op before left readsLeft => ?_⟩
    by_cases same : inner.priority = op.priority
    · -- The outer operator takes the first operand only,
      -- and the result becomes the left operand of the inner one.
      have readsFirst := ihFirst.2 op before left readsLeft
      rw [← same] at readsFirst
      have readsBoth := ihSecond.2 inner _ _ readsFirst
      have unbracketed : (node inner first second).level ≤ op.priority := Nat.le_of_eq same
      rw [bracket_of_le unbracketed, leftLeaning, graft_graft same, ← same, tokens]
      simpa using readsBoth
    · -- An operand of another level is read by itself.
      have differs : (node inner first second).leftLeaning.level ≠ op.priority := by
        rw [level_leftLeaning]
        exact same
      rw [graft_eq_node differs]
      exact reads_node_bracket whole same readsLeft

end Printing

/-- What the tokens of arithmetic spell reads as what leans to the left, and as nothing else. -/
theorem denotes_spell_iff {tree read : Arith} :
    Denotes (spell tree.tokens) read ↔ read = tree.leftLeaning := by
  -- A text reads as one thing at most.
  have denotes : Denotes (spell tree.tokens) tree.leftLeaning :=
    ⟨tree.tokens, rfl, (reads_tokens tree).1.mono tree.level_le_loosest⟩
  exact ⟨fun denotesToo => denotesToo.unique denotes, fun same => same ▸ denotes⟩

end Arith

open Arith

namespace Expr

/-- Arithmetic that is one load is a load. -/
theorem arith?_eq_load {e : Expr} {slot : Slot} (made : e.arith? = some (.load slot)) :
    ∃ origin kind, e = .leaf origin (.load kind slot) := by
  -- No operator makes a load.
  unfold arith? at made
  split at made
  · cases made
    exact ⟨_, _, rfl⟩
  · simp [bind, Option.bind_eq_some_iff] at made
  · cases made

/-- Arithmetic with an operator at its root is an operator over arithmetic. -/
theorem arith?_eq_node {e : Expr} {op : ArithOp} {first second : Arith}
    (made : e.arith? = some (.node op first second)) :
    ∃ origin kind left right, e = .binary origin (.arith op kind) left right ∧
      left.arith? = some first ∧ right.arith? = some second := by
  -- No load has an operator.
  unfold arith? at made
  split at made
  · cases made
  · next origin op' kind left right =>
    obtain ⟨a, isFirst, made⟩ := Option.bind_eq_some_iff.mp made
    obtain ⟨b, isSecond, made⟩ := Option.bind_eq_some_iff.mp made
    cases made
    exact ⟨origin, kind, left, right, rfl, isFirst, isSecond⟩
  · cases made

/-- An expression that is arithmetic binds as that arithmetic does. -/
theorem priority_eq_level {e : Expr} {tree : Arith} (made : e.arith? = some tree) :
    e.priority = tree.level := by
  -- Both are read off the root.
  cases tree with
  | load slot =>
    obtain ⟨origin, kind, rfl⟩ := arith?_eq_load made
    rfl
  | node op first second =>
    obtain ⟨origin, kind, left, right, rfl, -, -⟩ := arith?_eq_node made
    rfl

/-- An operand is put in parentheses where its tokens are. -/
theorem wrap_eq_spell_bracket {e : Expr} {tree : Arith} (made : e.arith? = some tree)
    (limit : Nat) : wrap limit e (spell tree.tokens) = spell (bracket limit tree tree.tokens) := by
  -- The two decide by the same level.
  rw [wrap, bracket, priority_eq_level made]
  split
  · refine String.toList_inj.mp ?_
    simp [spell, Token.chars]
  · rfl

/-- An expression that is arithmetic is printed with the tokens of that arithmetic. -/
theorem text_eq_spell {e : Expr} {tree : Arith} (made : e.arith? = some tree) :
    e.text = spell tree.tokens := by
  -- By induction on the arithmetic, whose operands are printed before the operator
  -- is put between them.
  induction tree generalizing e with
  | load slot =>
    obtain ⟨origin, kind, rfl⟩ := arith?_eq_load made
    have printed : Expr.text (.leaf origin (.load kind slot)) = "local" ++ toString slot.toNat := by
      rw [Expr.text]; rfl
    rw [printed]
    refine String.toList_inj.mp ?_
    simp [spell, tokens, Token.chars]
  | node op first second ihFirst ihSecond =>
    obtain ⟨origin, kind, left, right, rfl, isFirst, isSecond⟩ := arith?_eq_node made
    have printed : Expr.text (.binary origin (.arith op kind) left right) =
        wrap op.priority left left.text ++ " " ++ op.symbol ++ " " ++
          wrap op.priority right right.text := by
      rw [Expr.text]
      rfl
    rw [printed, ihFirst isFirst, ihSecond isSecond, wrap_eq_spell_bracket isFirst,
      wrap_eq_spell_bracket isSecond]
    refine String.toList_inj.mp ?_
    simp [spell, tokens, Token.chars]

/-- The text of arithmetic reads as the arithmetic that leans to the left throughout, with the same
operands and operators in the same order, and as nothing else. So it reads as what was printed
exactly when no operator has a right operand of its own level, and two arithmetics have the same
text exactly when they become the same by grouping to the left. -/
theorem text_denotes_leftLeaning {e : Expr} {tree : Arith} (made : e.arith? = some tree) :
    (∀ read, Denotes e.text read ↔ read = tree.leftLeaning) ∧
      (Denotes e.text tree ↔ tree.LeansLeft) ∧
    ∀ (other : Expr) (otherTree : Arith), other.arith? = some otherTree →
      (e.text = other.text ↔ tree.leftLeaning = otherTree.leftLeaning) := by
  -- The text is that of the tokens, and the tokens say what leans to the left.
  rw [text_eq_spell made]
  refine ⟨fun read => denotes_spell_iff, ?_, fun other otherTree madeToo => ?_⟩
  · rw [denotes_spell_iff, eq_comm, leftLeaning_eq_self_iff]
  · rw [text_eq_spell madeToo]
    constructor
    · intro same
      -- Both readings are readings of the one text.
      exact denotes_spell_iff.mp (same ▸ denotes_spell_iff.mpr rfl)
    · intro same
      rw [← tokens_leftLeaning tree, same, tokens_leftLeaning]

/-- A load of a local variable, as an integer. -/
def loadOf (slot : Slot) : Expr := .leaf {} (.load .int slot)

/-- A difference of integers. -/
def minus (left right : Expr) : Expr := .binary {} (.arith .sub .int) left right

/-- A difference with a difference to its right has the text of one with a difference
to its left. -/
theorem minus_minus_denotes_leftLeaning :
    (minus (loadOf 1) (minus (loadOf 2) (loadOf 3))).arith? =
      some (.node .sub (.load 1) (.node .sub (.load 2) (.load 3))) ∧
    Denotes (minus (loadOf 1) (minus (loadOf 2) (loadOf 3))).text
      (.node .sub (.node .sub (.load 1) (.load 2)) (.load 3)) :=
  ⟨rfl, ((text_denotes_leftLeaning (e := minus (loadOf 1) (minus (loadOf 2) (loadOf 3))) rfl).1
    _).mpr rfl⟩

/-- Not all arithmetic reads back as what was printed,
and different arithmetic can have the same text. -/
theorem exists_text_misread :
    ∃ (e other : Expr) (tree otherTree : Arith), e.arith? = some tree ∧
      other.arith? = some otherTree ∧ tree ≠ otherTree ∧ e.text = other.text ∧
      ¬Denotes e.text tree := by
  refine ⟨minus (loadOf 1) (minus (loadOf 2) (loadOf 3)),
    minus (minus (loadOf 1) (loadOf 2)) (loadOf 3), _, _, rfl, rfl, by decide, ?_,
    fun denotes => ?_⟩
  · -- Both texts are one and the same.
    rw [text_eq_spell rfl, text_eq_spell rfl]
    rfl
  · -- Read back, the text leans to the left, which what was printed does not.
    rw [text_eq_spell rfl, denotes_spell_iff] at denotes
    exact absurd denotes (by decide)

end Expr

end Unjump
