import Unjump.Text.Lines

/-! Numbers, words and lines that were written read back as what they were written from. -/

namespace Unjump

/-- Where a class of characters ends at the first one that is not in it, what stands before
that one can be told. -/
theorem append_inj_of_span {test : Char → Bool} {first second rest others : List Char}
    (inFirst : ∀ c ∈ first, test c = true) (inSecond : ∀ c ∈ second, test c = true)
    (ends : ∀ c ∈ rest.head?, test c = false) (endsToo : ∀ c ∈ others.head?, test c = false)
    (same : first ++ rest = second ++ others) : first = second ∧ rest = others := by
  -- Taking characters of the class from either side gives back what stands before the rest.
  have span : ∀ {inside outside : List Char}, (∀ c ∈ inside, test c = true) →
      (∀ c ∈ outside.head?, test c = false) → (inside ++ outside).takeWhile test = inside := by
    intro inside outside all stops
    rw [List.takeWhile_append_of_pos all]
    cases outside with
    | nil => simp
    | cons c _ => simp [stops c rfl]
  have firsts : first = second := by rw [← span inFirst ends, same, span inSecond endsToo]
  exact ⟨firsts, List.append_cancel_left (firsts ▸ same)⟩

/-! ### Numbers -/

/-- The digits of a number are digits. -/
theorem isDigit_of_mem_toString {n : Nat} {c : Char} (listed : c ∈ (toString n).toList) :
    c.isDigit = true := by
  -- The library writes a number as its digits to base ten.
  rw [Nat.toString_eq_ofList_toDigits, String.toList_ofList] at listed
  exact Nat.isDigit_of_mem_toDigits (by decide) (by decide) listed

/-- A number can be told from its digits. -/
theorem toList_toString_inj {n m : Nat} (same : (toString n).toList = (toString m).toList) :
    n = m := by
  -- The digits are read back as a number, from the highest on.
  have digits := congrArg (Nat.ofDigitChars 10 · 0) same
  simpa [Nat.toString_eq_ofList_toDigits] using digits

/-- A number as it is written. -/
def decimal (n : Nat) : List Char := (toString n).toList

/-- A number with its sign as it is written. -/
def signedDecimal (value : Int) : List Char := (toString value).toList

/-- A written number has nothing but digits. -/
theorem isDigit_of_mem_decimal {n : Nat} {c : Char} (listed : c ∈ decimal n) : c.isDigit = true :=
  isDigit_of_mem_toString listed

/-- A written number has at least one digit. -/
theorem decimal_ne_nil (n : Nat) : decimal n ≠ [] := by
  -- Even zero is written as a digit.
  rw [decimal, Nat.toString_eq_ofList_toDigits, String.toList_ofList]
  exact Nat.toDigits_ne_nil

/-- Digits read back as the number that they were written from. -/
theorem readDigits?_decimal (n : Nat) : readDigits? (decimal n) = some n := by
  have nonempty : (decimal n).isEmpty = false := List.isEmpty_eq_false_iff.mpr (decimal_ne_nil n)
  have digits : (decimal n).all Char.isDigit = true :=
    List.all_eq_true.mpr fun _ listed => isDigit_of_mem_decimal listed
  -- The digits count from the highest on, as the library reads them.
  have value : digitsValue (decimal n) = n := by
    rw [digitsValue, decimal, Nat.toString_eq_ofList_toDigits, String.toList_ofList]
    simp only [Nat.mul_comm _ 10]
    exact Nat.ofDigitChars_toDigits (by decide) (by decide)
  rw [readDigits?, nonempty, digits, value]
  rfl

/-- A number below the limit reads back as itself. -/
theorem readUnsigned?_decimal {limit n : Nat} (within : n < limit) :
    readUnsigned? limit (decimal n) = some n := by
  unfold readUnsigned?
  dsimp only
  split
  · next signed =>
    -- A written number has no plus sign.
    have digit := isDigit_of_mem_decimal (signed ▸ List.mem_cons_self : '+' ∈ decimal n)
    cases digit
  · rw [readDigits?_decimal]
    simp [within]

/-- A byte reads back as itself. -/
theorem readUInt8?_decimal (n : UInt8) : readUInt8? (decimal n.toNat) = some n := by
  -- All values of the type lie below its limit.
  rw [readUInt8?, readUnsigned?_decimal n.toNat_lt]
  simp

/-- A half word reads back as itself. -/
theorem readUInt16?_decimal (n : UInt16) : readUInt16? (decimal n.toNat) = some n := by
  -- All values of the type lie below its limit.
  rw [readUInt16?, readUnsigned?_decimal n.toNat_lt]
  simp

/-- A word reads back as itself. -/
theorem readUInt32?_decimal (n : UInt32) : readUInt32? (decimal n.toNat) = some n := by
  -- All values of the type lie below its limit.
  rw [readUInt32?, readUnsigned?_decimal n.toNat_lt]
  simp

/-- A negative number is written as its distance from zero after a minus sign. -/
theorem signedDecimal_cases (value : Int) :
    (∃ n : Nat, value = n ∧ signedDecimal value = decimal n) ∨
      ∃ n : Nat, value = -n ∧ signedDecimal value = '-' :: decimal n := by
  -- The library writes the sign itself, and what follows is a number.
  cases value with
  | ofNat n => exact .inl ⟨n, rfl, rfl⟩
  | negSucc n =>
    refine .inr ⟨n + 1, rfl, ?_⟩
    have written : toString (Int.negSucc n) = "-" ++ toString (n + 1) := rfl
    rw [signedDecimal, written, String.toList_append]
    rfl

/-- A number within the limits reads back as itself, with its sign. -/
theorem readSigned?_signedDecimal {limit : Nat} {value : Int} (above : -(limit : Int) ≤ value)
    (below : value < limit) : readSigned? limit (signedDecimal value) = some value := by
  have inside : decide (-(limit : Int) ≤ value ∧ value < limit) = true := by simp [above, below]
  unfold readSigned?
  dsimp only
  rcases signedDecimal_cases value with ⟨n, rfl, written⟩ | ⟨n, rfl, written⟩
  · rw [written]
    split
    -- The reader looks for a sign first, and digits are none.
    · next signed =>
      cases isDigit_of_mem_decimal (signed ▸ List.mem_cons_self : '-' ∈ decimal n)
    · next signed =>
      cases isDigit_of_mem_decimal (signed ▸ List.mem_cons_self : '+' ∈ decimal n)
    · rw [readDigits?_decimal]
      exact (Option.filter_some ..).trans (if_pos inside)
  · -- Behind a minus sign the digits are read and negated.
    rw [written]
    simp only [readDigits?_decimal]
    exact (Option.filter_some ..).trans (if_pos inside)

/-- A signed half word reads back as itself. -/
theorem readInt16?_signedDecimal (value : Int16) :
    readInt16? (signedDecimal value.toInt) = some value := by
  -- The limits of the type are those of the reader.
  rw [readInt16?, readSigned?_signedDecimal value.le_toInt value.toInt_lt]
  simp

/-- A signed word reads back as itself. -/
theorem readInt32?_signedDecimal (value : Int32) :
    readInt32? (signedDecimal value.toInt) = some value := by
  -- The limits of the type are those of the reader.
  rw [readInt32?, readSigned?_signedDecimal value.le_toInt value.toInt_lt]
  simp

/-- A number is written with digits and a minus sign. -/
theorem isDigit_or_eq_of_mem_signedDecimal {value : Int} {c : Char}
    (listed : c ∈ signedDecimal value) : c.isDigit = true ∨ c = '-' := by
  -- The sign stands in front of the digits, if there is one.
  rcases signedDecimal_cases value with ⟨n, -, written⟩ | ⟨n, -, written⟩
  · rw [written] at listed
    exact .inl (isDigit_of_mem_decimal listed)
  · rw [written] at listed
    rcases List.mem_cons.mp listed with rfl | digit
    · exact .inr rfl
    · exact .inl (isDigit_of_mem_decimal digit)

/-! ### Words -/

/-- A text of one word: not empty and without blanks. -/
structure Solid (text : List Char) : Prop where
  nonempty : text ≠ []
  dense : ∀ c ∈ text, isBlank c = false

/-- Words with a blank in front of each. -/
def spaced (words : List (List Char)) : List Char := words.flatMap (' ' :: ·)

/-- Digits are no blanks. -/
theorem not_isBlank_of_isDigit {c : Char} (digit : c.isDigit = true) : isBlank c = false := by
  -- The digits lie between 48 and 57, where there is no blank.
  simp only [Char.isDigit, Bool.and_eq_true, decide_eq_true_eq] at digit
  have low : 48 ≤ c.toNat := digit.1
  have high : c.toNat ≤ 57 := digit.2
  simp only [isBlank, Bool.or_eq_false_iff, Bool.and_eq_false_iff, decide_eq_false_iff_not,
    beq_eq_false_iff_ne]
  omega

/-- A written number is one word. -/
theorem solid_decimal (n : Nat) : Solid (decimal n) :=
  ⟨decimal_ne_nil n, fun _ listed => not_isBlank_of_isDigit (isDigit_of_mem_decimal listed)⟩

/-- A written number with its sign is one word. -/
theorem solid_signedDecimal (value : Int) : Solid (signedDecimal value) := by
  -- There is at least one digit, and the sign is no blank either.
  refine ⟨?_, fun c listed => ?_⟩
  · rcases signedDecimal_cases value with ⟨n, -, written⟩ | ⟨n, -, written⟩
    · exact written ▸ decimal_ne_nil n
    · exact written ▸ List.cons_ne_nil _ _
  · rcases isDigit_or_eq_of_mem_signedDecimal listed with digit | rfl
    · exact not_isBlank_of_isDigit digit
    · rfl

/-- A word goes on with characters that are no blanks. -/
theorem Solid.append {text more : List Char} (solid : Solid text)
    (dense : ∀ c ∈ more, isBlank c = false) : Solid (text ++ more) := by
  -- It is not empty, and each of its characters is from one of the two parts.
  refine ⟨fun empty => solid.nonempty (List.append_eq_nil_iff.mp empty).1, fun c listed => ?_⟩
  exact (List.mem_append.mp listed).elim (solid.dense c) (dense c)

/-- The last character of a word starts an entry of its own. -/
theorem consWord_last {c : Char} {rest : List Char} {words : List (List Char)}
    (dense : isBlank c = false) (ends : ∀ d ∈ rest.head?, isBlank d = true) :
    consWord c rest words = [c] :: words := by
  -- Neither the end of the text nor a blank goes on with the word.
  unfold consWord
  rw [dense]
  cases rest with
  | nil => rfl
  | cons next rest =>
    have blank := ends next rfl
    cases words with
    | nil => rfl
    | cons word words =>
      simp only [blank]
      rfl

/-- Any other character of a word goes in front of it. -/
theorem consWord_inner {c next : Char} {rest word : List Char} {words : List (List Char)}
    (dense : isBlank c = false) (denseToo : isBlank next = false) :
    consWord c (next :: rest) (word :: words) = (c :: word) :: words := by
  -- The character after it belongs to the word too.
  unfold consWord
  rw [dense]
  simp only [denseToo]
  rfl

/-- A word ends where a blank or nothing follows. -/
theorem splitWords_append {word rest : List Char} (solid : Solid word)
    (ends : ∀ c ∈ rest.head?, isBlank c = true) :
    splitWords (word ++ rest) = word :: splitWords rest := by
  -- The word is read from its end: its last character starts an entry, which the others
  -- are put in front of.
  obtain ⟨nonempty, dense⟩ := solid
  induction word with
  | nil => exact absurd rfl nonempty
  | cons c word ih =>
    have isDense := dense c List.mem_cons_self
    cases word with
    | nil => exact consWord_last isDense ends
    | cons next word =>
      have later := ih (List.cons_ne_nil _ _) fun d listed =>
        dense d (List.mem_cons_of_mem _ listed)
      rw [List.cons_append, splitWords, later]
      exact consWord_inner isDense (dense next (by simp))

/-- Words with a blank in front of each start with a blank. -/
theorem isBlank_of_mem_head?_spaced (words : List (List Char)) :
    ∀ c ∈ (spaced words).head?, isBlank c = true := by
  -- Without words there is no first character.
  cases words with
  | nil => exact nofun
  | cons word words =>
    intro c isHead
    cases isHead
    rfl

/-- Words can be told apart by the blanks in front of them. -/
theorem splitWords_spaced {words : List (List Char)} (solid : ∀ word ∈ words, Solid word) :
    splitWords (spaced words) = words := by
  -- The first word ends where the rest starts, which is with a blank or not at all.
  induction words with
  | nil => rfl
  | cons word words ih =>
    have rest :=
      splitWords_append (solid word List.mem_cons_self) (isBlank_of_mem_head?_spaced words)
    rw [ih fun other listed => solid other (List.mem_cons_of_mem _ listed)] at rest
    exact rest

/-- Among words that follow a word, the only blanks are those in front of them. -/
theorem eq_of_mem_append_spaced {word : List Char} {words : List (List Char)} (solid : Solid word)
    (solids : ∀ other ∈ words, Solid other) {c : Char} (listed : c ∈ word ++ spaced words)
    (blank : isBlank c = true) : c = ' ' := by
  -- No word has a blank, so that what is left is the character in front of one.
  have inside : ∀ {other : List Char}, Solid other → c ∉ other := fun isSolid isChar => by
    rw [isSolid.dense c isChar] at blank
    cases blank
  obtain ⟨other, isWord, isChar⟩ :=
    List.mem_flatMap.mp ((List.mem_append.mp listed).resolve_left (inside solid))
  exact (List.mem_cons.mp isChar).resolve_right (inside (solids other isWord))

/-! ### Blanks around a text -/

/-- Nothing is trimmed off a text that neither starts nor ends with a blank. -/
theorem trim_eq_self {text : List Char} (starts : ∀ c ∈ text.head?, isBlank c = false)
    (ends : ∀ c ∈ text.getLast?, isBlank c = false) : trim text = text := by
  -- Both sides drop while there are blanks; the end is the start of the reversed text.
  have kept : ∀ {chars : List Char}, (∀ c ∈ chars.head?, isBlank c = false) →
      chars.dropWhile isBlank = chars := by
    intro chars starts
    cases chars with
    | nil => rfl
    | cons c rest => rw [List.dropWhile_cons_of_neg (by simp [starts c rfl])]
  rw [trim, kept starts, trimEnd, kept (by simpa using ends), List.reverse_reverse]

/-- After a word, the words behind it leave no blank at the end. -/
theorem not_isBlank_of_mem_getLast? {word : List Char} {words : List (List Char)}
    (solid : Solid word) (solids : ∀ other ∈ words, Solid other) :
    ∀ c ∈ (word ++ spaced words).getLast?, isBlank c = false := by
  -- By induction on the words behind it, since the last of them ends the text.
  induction words generalizing word with
  | nil =>
    intro c isLast
    exact solid.dense c (List.mem_of_getLast? (by simpa [spaced] using isLast))
  | cons other words ih =>
    have later := ih (solids other List.mem_cons_self) fun third listed =>
      solids third (List.mem_cons_of_mem _ listed)
    intro c isLast
    refine later c ?_
    -- The last character is among what follows the first blank.
    have split : word ++ spaced (other :: words) = (word ++ [' ']) ++ (other ++ spaced words) := by
      simp [spaced]
    have nonempty : other ++ spaced words ≠ [] := fun empty =>
      (solids other List.mem_cons_self).nonempty (List.append_eq_nil_iff.mp empty).1
    rw [split, List.getLast?_append] at isLast
    rw [List.getLast?_eq_some_getLast nonempty] at isLast ⊢
    exact isLast

/-- Nothing is trimmed off words when no blank is in front of the first. -/
theorem trim_append_spaced {word : List Char} {words : List (List Char)} (solid : Solid word)
    (solids : ∀ other ∈ words, Solid other) :
    trim (word ++ spaced words) = word ++ spaced words := by
  -- The first character is that of a word, and so is the last.
  refine trim_eq_self (fun c isHead => ?_) (not_isBlank_of_mem_getLast? solid solids)
  cases word with
  | nil => exact absurd rfl solid.nonempty
  | cons =>
    cases isHead
    exact solid.dense c List.mem_cons_self

/-- Trimming takes the first blank off words. -/
theorem trim_spaced {word : List Char} {words : List (List Char)} (solid : Solid word)
    (solids : ∀ other ∈ words, Solid other) :
    trim (spaced (word :: words)) = word ++ spaced words := by
  -- The one blank in front is dropped either way.
  have first : (spaced (word :: words)).dropWhile isBlank =
      (word ++ spaced words).dropWhile isBlank :=
    List.dropWhile_cons_of_pos rfl
  have same : trim (spaced (word :: words)) = trim (word ++ spaced words) := by
    rw [trim, first, trim]
  rw [same]
  exact trim_append_spaced solid solids

/-- Trimming takes all blanks in front of a text off. -/
theorem trim_append_of_blank {indent : List Char} (blank : ∀ c ∈ indent, isBlank c = true)
    (text : List Char) : trim (indent ++ text) = trim text := by
  -- Trimming starts with dropping blanks from the front.
  rw [trim, List.dropWhile_append_of_pos blank, trim]

/-- A character that is not blank stays at the start of a text. -/
theorem head?_trim_cons {c : Char} (dense : isBlank c = false) (text : List Char) :
    (trim (c :: text)).head? = some c := by
  rw [trim, List.dropWhile_cons_of_neg (by simp [dense]), trimEnd, List.reverse_cons,
    List.dropWhile_append]
  -- Either all of the rest is blank and goes, or the trimming from the end stops
  -- before it comes to the first character.
  split
  · rw [List.dropWhile_cons_of_neg (by simp [dense])]
    rfl
  · rw [List.reverse_append]
    rfl

/-! ### Lines -/

/-- A text without the separator is one part. -/
theorem splitAtChar_of_notMem {separator : Char} {part : List Char} (absent : separator ∉ part) :
    splitAtChar separator part = [part] := by
  -- By induction on the text; no character of it splits.
  induction part with
  | nil => rfl
  | cons c part ih =>
    have other : c ≠ separator := fun same => absent (same ▸ List.mem_cons_self)
    have rest := ih fun later => absent (List.mem_cons_of_mem _ later)
    rw [splitAtChar] at rest ⊢
    rw [List.foldr_cons, rest, if_neg other]
    rfl

/-- A part ends at the first separator. -/
theorem splitAtChar_append {separator : Char} {part : List Char} (absent : separator ∉ part)
    (rest : List Char) :
    splitAtChar separator (part ++ separator :: rest) = part :: splitAtChar separator rest := by
  -- By induction on the part; its characters gather in front of the separator.
  induction part with
  | nil => exact if_pos rfl
  | cons c part ih =>
    have other : c ≠ separator := fun same => absent (same ▸ List.mem_cons_self)
    have later := ih fun later => absent (List.mem_cons_of_mem _ later)
    rw [splitAtChar] at later ⊢
    rw [List.cons_append, List.foldr_cons, later, if_neg other]
    rfl

/-- Parts can be told apart by what stands between them. -/
theorem splitAtChar_intercalate {separator : Char} {parts : List (List Char)}
    (nonempty : parts ≠ []) (absent : ∀ part ∈ parts, separator ∉ part) :
    splitAtChar separator (List.intercalate [separator] parts) = parts := by
  -- By induction on the parts, from the first to the last.
  induction parts with
  | nil => exact absurd rfl nonempty
  | cons part parts ih =>
    -- A last part has nothing behind it; all others end at a separator.
    cases parts with
    | nil =>
      rw [List.intercalate_singleton]
      exact splitAtChar_of_notMem (absent part List.mem_cons_self)
    | cons other parts =>
      rw [List.intercalate_cons_cons, List.append_assoc, List.singleton_append,
        splitAtChar_append (absent part List.mem_cons_self),
        ih (List.cons_ne_nil _ _) fun third listed => absent third (List.mem_cons_of_mem _ listed)]

end Unjump
