import Unjump.Expr.Printer
import Unjump.Proofs.Reading

/-!
How the text of arithmetic is read: operators of a lower level bind tighter, and those
of one level group to the left.

The grammar says which texts read as which arithmetic, level by level. It gives no text two
meanings. The tokens can be told from the text, since each kind of token starts with a character of
its own. What they mean is found by a reader that goes through them once, puts operators aside with
their left operands, and takes them up again when one comes that binds looser.
-/

namespace Unjump

/-- The level of the operators that bind loosest. -/
def ArithOp.loosest : Nat := 10

/-- No operator is looser than the loosest. -/
theorem ArithOp.priority_le_loosest (op : ArithOp) : op.priority ≤ loosest := by cases op <;> decide

/-- Every operator is looser than an operand by itself. -/
theorem ArithOp.priority_pos (op : ArithOp) : 0 < op.priority := by cases op <;> decide

/-- Operators are told apart by their symbols. -/
theorem ArithOp.symbol_inj {op other : ArithOp} : op.symbol = other.symbol ↔ op = other := by
  cases op <;> cases other <;> simp [symbol]

/-- No symbol holds a blank. -/
theorem ArithOp.blank_notMem_symbol (op : ArithOp) : ' ' ∉ op.symbol.toList := by
  cases op <;> simp [symbol]

/-- Arithmetic without its text: loads of local variables, and operators over them. -/
inductive Arith where
  | load (slot : Slot)
  | node (op : ArithOp) (left right : Arith)
deriving DecidableEq, Repr

namespace Arith

/-- The parts that the text of arithmetic is made of. -/
inductive Token where
  | load (slot : Slot)
  | opening
  | closing
  | operator (op : ArithOp)
deriving DecidableEq, Repr

/-- The characters of a token, where operators stand between blanks. -/
def Token.chars : Token → List Char
  | .load slot => ['l', 'o', 'c', 'a', 'l'] ++ (toString slot.toNat).toList
  | .opening => ['(']
  | .closing => [')']
  | .operator op => ' ' :: (op.symbol.toList ++ [' '])

/-- The text that tokens spell. -/
def spell (tokens : List Token) : String := String.ofList (tokens.flatMap Token.chars)

/-- What tokens read as where only operators up to a level may stand outside of parentheses. The
left operand of an operator may hold operators of the same level,
the right one only tighter ones. -/
inductive Reads : Nat → List Token → Arith → Prop where
  | load {level : Nat} (slot : Slot) : Reads level [.load slot] (.load slot)
  | parens {level : Nat} {tokens : List Token} {tree : Arith}
      (inner : Reads ArithOp.loosest tokens tree) :
      Reads level (.opening :: (tokens ++ [.closing])) tree
  | node {level tighter : Nat} {op : ArithOp} {left right : List Token} {first second : Arith}
      (fits : op.priority ≤ level) (isTighter : tighter < op.priority)
      (readsFirst : Reads op.priority left first) (readsSecond : Reads tighter right second) :
      Reads level (left ++ .operator op :: right) (.node op first second)

/-- What a text reads as. -/
def Denotes (text : String) (tree : Arith) : Prop :=
  ∃ tokens, spell tokens = text ∧ Reads ArithOp.loosest tokens tree

/-- Tokens that may stand where operators up to a level may, may also stand
where looser ones may. -/
theorem Reads.mono {level looser : Nat} {tokens : List Token} {tree : Arith}
    (reads : Reads level tokens tree) (le : level ≤ looser) : Reads looser tokens tree := by
  -- Only an operator at the root asks for a level.
  cases reads with
  | load slot => exact .load slot
  | parens inner => exact .parens inner
  | node fits isTighter readsFirst readsSecond =>
    exact .node (Nat.le_trans fits le) isTighter readsFirst readsSecond

section Spelling

/-- No token starts with a digit. -/
theorem head?_spelled_not_isDigit (tokens : List Token) :
    ∀ c ∈ (tokens.flatMap Token.chars).head?, c.isDigit = false := by
  -- Loads start with a letter, and operators with a blank.
  cases tokens with
  | nil => exact fun c none => by cases none
  | cons token rest =>
    intro c isHead
    cases token <;> cases isHead <;> rfl

/-- Text is spelled by one list of tokens at most. -/
theorem flatMap_chars_inj {tokens others : List Token}
    (same : tokens.flatMap Token.chars = others.flatMap Token.chars) : tokens = others := by
  -- By induction on the tokens, each of which is told by how it starts.
  induction tokens generalizing others with
  | nil =>
    cases others with
    | nil => rfl
    | cons other _ => cases other <;> simp [Token.chars] at same
  | cons token rest ih =>
    cases others with
    | nil => cases token <;> simp [Token.chars] at same
    | cons other later =>
      -- The first character tells the kind of the first token.
      cases token <;> cases other <;> simp only [Token.chars, List.flatMap_cons, List.cons_append,
        List.nil_append, List.append_assoc, List.cons.injEq, true_and, Char.reduceEq, false_and]
          at same
      · -- The digits of a load end where the next token starts.
        obtain ⟨digits, restSame⟩ := append_inj_of_span (fun _ => isDigit_of_mem_toString)
          (fun _ => isDigit_of_mem_toString) (head?_spelled_not_isDigit rest)
          (head?_spelled_not_isDigit later) same
        rw [UInt16.toNat_inj.mp (toList_toString_inj digits), ih restSame]
      · rw [ih same]
      · rw [ih same]
      · -- A symbol ends at the blank behind it.
        have blankless : ∀ op : ArithOp, ∀ c ∈ op.symbol.toList, (c != ' ') = true :=
          fun op c listed => bne_iff_ne.mpr fun isBlank => op.blank_notMem_symbol (isBlank ▸ listed)
        obtain ⟨symbols, restSame⟩ :=
          append_inj_of_span (blankless _) (blankless _) (by simp) (by simp) same
        rw [ArithOp.symbol_inj.mp (String.toList_inj.mp symbols), ih (List.cons.inj restSame).2]

/-- Tokens are told apart by what they spell. -/
theorem spell_inj {tokens others : List Token} (same : spell tokens = spell others) :
    tokens = others :=
  flatMap_chars_inj (String.ofList_injective same)

end Spelling

section Reader

/-- What a reader has put aside: an opening parenthesis, or an operator with its left operand. -/
inductive Frame where
  | opening
  | pending (left : Arith) (op : ArithOp)
deriving DecidableEq, Repr

/-- Takes up the operators that were put aside last, as far as they bind at least as tight
as a level. -/
def takeUp (level : Nat) : List Frame → Arith → List Frame × Arith
  | .pending left op :: frames, tree =>
    if op.priority ≤ level then takeUp level frames (.node op left tree)
      else (.pending left op :: frames, tree)
  | frames, tree => (frames, tree)

/-- Reads tokens on from what was put aside and the operand that was read last, if an operator
is to come next. -/
def readOn : List Token → List Frame → Option Arith → Option Arith
  | [], frames, some tree =>
    match takeUp ArithOp.loosest frames tree with
    | ([], whole) => some whole
    | _ => none
  | .load slot :: rest, frames, none => readOn rest frames (some (.load slot))
  | .opening :: rest, frames, none => readOn rest (.opening :: frames) none
  | .closing :: rest, frames, some tree =>
    match takeUp ArithOp.loosest frames tree with
    | (.opening :: frames, inner) => readOn rest frames (some inner)
    | _ => none
  | .operator op :: rest, frames, some tree =>
    let (frames, left) := takeUp op.priority frames tree
    readOn rest (.pending left op :: frames) none
  | _, _, _ => none

/-- No operator that was put aside last binds as tight as a level. -/
def Frame.Apart (level : Nat) (frames : List Frame) : Prop :=
  ∀ left op, frames.head? = some (.pending left op) → level < op.priority

/-- Nothing is taken up if what was put aside last binds looser. -/
theorem takeUp_of_apart {level : Nat} {frames : List Frame} (apart : Frame.Apart level frames)
    (tree : Arith) : takeUp level frames tree = (frames, tree) := by
  -- Only what was put aside last is looked at.
  cases frames with
  | nil => rfl
  | cons frame rest =>
    cases frame with
    | opening => rfl
    | pending left op => exact if_neg (Nat.not_le.mpr (apart left op rfl))

/-- The reader comes through tokens that read as arithmetic, and what it has then put aside is the
same to every operator that may follow as if it held that arithmetic as its last operand. -/
theorem Reads.readOn_append {level : Nat} {tokens : List Token} {tree : Arith}
    (reads : Reads level tokens tree) {frames : List Frame} (apart : Frame.Apart level frames) :
    ∃ left operand,
      (∀ rest, readOn (tokens ++ rest) frames none = readOn rest left (some operand)) ∧
      ∀ looser, level ≤ looser → takeUp looser left operand = takeUp looser frames tree := by
  -- On how the tokens are read. What was put aside before them has no operator that one
  -- of theirs could take up.
  induction reads generalizing frames with
  | load slot => exact ⟨frames, .load slot, fun _ => rfl, fun _ _ => rfl⟩
  | @parens level tokens tree inner ih =>
    -- The closing parenthesis takes up all that was put aside behind the opening one.
    have apartInside : Frame.Apart ArithOp.loosest (.opening :: frames) := fun _ _ impossible => by
      cases impossible
    obtain ⟨left, operand, reaches, sameTo⟩ := ih apartInside
    refine ⟨frames, tree, fun rest => ?_, fun _ _ => rfl⟩
    calc readOn (.opening :: (tokens ++ [.closing]) ++ rest) frames none
      _ = readOn (tokens ++ .closing :: rest) (.opening :: frames) none := by simp [readOn]
      _ = readOn (.closing :: rest) left (some operand) := reaches _
      _ = readOn rest frames (some tree) := by
        rw [readOn, sameTo _ (Nat.le_refl _)]
        rfl
  | @node level tighter op left right first second fits isTighter readsFirst readsSecond ihFirst
      ihSecond =>
    -- What was put aside binds looser than the operator, which binds looser than its right operand.
    have apartFirst : Frame.Apart op.priority frames := fun left other isTop =>
      Nat.lt_of_le_of_lt fits (apart left other isTop)
    obtain ⟨leftFrames, leftOperand, reachesFirst, sameToFirst⟩ := ihFirst apartFirst
    have apartSecond : Frame.Apart tighter (.pending first op :: frames) := by
      intro left other isTop
      cases isTop
      exact isTighter
    obtain ⟨rightFrames, rightOperand, reachesSecond, sameToSecond⟩ := ihSecond apartSecond
    refine ⟨rightFrames, rightOperand, fun rest => ?_, fun looser le => ?_⟩
    · -- The operator takes up what its left operand left behind, and is put aside with it.
      calc readOn (left ++ .operator op :: right ++ rest) frames none
        _ = readOn (left ++ .operator op :: (right ++ rest)) frames none := by
          rw [List.append_assoc, List.cons_append]
        _ = readOn (.operator op :: (right ++ rest)) leftFrames (some leftOperand) := reachesFirst _
        _ = readOn (right ++ rest) (.pending first op :: frames) none := by
          rw [readOn, sameToFirst _ (Nat.le_refl _), takeUp_of_apart apartFirst]
        _ = readOn rest rightFrames (some rightOperand) := reachesSecond rest
    · -- What comes next takes up the right operand first, and then the operator itself.
      rw [sameToSecond looser (by omega), takeUp, if_pos (Nat.le_trans fits le)]

/-- The reader finds what tokens read as. -/
theorem Reads.readOn_eq {tokens : List Token} {tree : Arith}
    (reads : Reads ArithOp.loosest tokens tree) : readOn tokens [] none = some tree := by
  -- Nothing follows the tokens, so that what is still open is closed at the loosest level.
  have apart : Frame.Apart ArithOp.loosest [] := fun _ _ impossible => by cases impossible
  obtain ⟨left, operand, reaches, sameTo⟩ := reads.readOn_append apart
  have finished := reaches []
  rw [List.append_nil] at finished
  rw [finished, readOn, sameTo _ (Nat.le_refl _)]
  rfl

end Reader

/-- A text reads as one arithmetic at most. -/
theorem Denotes.unique {text : String} {tree other : Arith} (denotes : Denotes text tree)
    (denotesToo : Denotes text other) : tree = other := by
  -- The tokens are the same, and the reader finds one arithmetic.
  obtain ⟨tokens, spells, reads⟩ := denotes
  obtain ⟨others, spellsToo, readsToo⟩ := denotesToo
  cases spell_inj (spells.trans spellsToo.symm)
  exact Option.some.inj (reads.readOn_eq.symm.trans readsToo.readOn_eq)

end Arith

end Unjump
