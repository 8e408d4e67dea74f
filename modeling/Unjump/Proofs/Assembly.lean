import Unjump.Listing
import Unjump.Proofs.Reading

/-!
Assembling a printed listing gives the code back.

A line of a listing is an offset, a mnemonic and the words of an operand, each word with a blank in
front of it. The assembler takes the same parts off the line again. Lines that are blank or hold a
comment change nothing, wherever they stand.
-/

namespace Unjump

/-! ### Operands -/

namespace Operand

/-- The words that an operand is written with. -/
def words : Operand → List (List Char)
  | .absent => []
  | .int value => [signedDecimal value.toInt]
  | .slot number => [decimal number.toNat]
  | .increment number delta => [decimal number.toNat, signedDecimal delta.toInt]
  | .pool index => ['#' :: decimal index.toNat]
  | .multiArray index dimensions => ['#' :: decimal index.toNat, decimal dimensions.toNat]
  | .arrayType code => [decimal code.toNat]
  | .branch target => [decimal target.toNat]
  | .switch default cases => decimal default.toNat :: cases.map fun entry =>
      signedDecimal entry.1.toInt ++ ':' :: decimal entry.2.toNat

/-- The text of an operand is its words with a blank in front of each. -/
theorem toList_text (operand : Operand) : operand.text.toList = spaced operand.words := by
  have plain : ∀ text : String, toString text = text := fun _ => rfl
  -- All operands but those of switches have a fixed number of words.
  cases operand with
  | switch default cases =>
    -- The text grows by one case at a time.
    have grows : ∀ (cases : List (Int32 × Offset)) (text : String),
        (cases.foldl (fun text entry => text ++ s!" {entry.1.toInt}:{entry.2.toNat}") text).toList =
          text.toList ++ spaced (cases.map fun entry =>
            signedDecimal entry.1.toInt ++ ':' :: decimal entry.2.toNat) := by
      intro cases
      induction cases with
      | nil => simp [spaced]
      | cons entry cases ih =>
        intro text
        rw [List.foldl_cons, ih]
        simp [spaced, plain, decimal, signedDecimal]
    refine (grows cases _).trans ?_
    simp [words, spaced, plain, decimal]
  | _ => simp [text, words, spaced, plain, decimal, signedDecimal]

/-- Operands are written with words that hold no blanks. -/
theorem solid_words (operand : Operand) : ∀ word ∈ operand.words, Solid word := by
  -- The mark of an entry of the pool is no blank.
  have marked : ∀ n : Nat, Solid ('#' :: decimal n) := fun n =>
    Solid.append ⟨List.cons_ne_nil '#' [], List.forall_mem_singleton.mpr rfl⟩
      (solid_decimal n).dense
  intro word listed
  -- Numbers, marked or not, are all that operands are written with.
  cases operand with
  | absent => cases listed
  | int value =>
    obtain rfl := List.mem_singleton.mp listed
    exact solid_signedDecimal _
  | slot | arrayType | branch =>
    obtain rfl := List.mem_singleton.mp listed
    exact solid_decimal _
  | pool =>
    obtain rfl := List.mem_singleton.mp listed
    exact marked _
  | increment number delta =>
    rcases List.mem_cons.mp listed with rfl | listed
    · exact solid_decimal _
    · obtain rfl := List.mem_singleton.mp listed
      exact solid_signedDecimal _
  | multiArray index dimensions =>
    rcases List.mem_cons.mp listed with rfl | listed
    · exact marked _
    · obtain rfl := List.mem_singleton.mp listed
      exact solid_decimal _
  | switch default cases =>
    rcases List.mem_cons.mp listed with rfl | listed
    · exact solid_decimal _
    · obtain ⟨entry, -, rfl⟩ := List.mem_map.mp listed
      refine (solid_signedDecimal _).append fun c listed => ?_
      rcases List.mem_cons.mp listed with rfl | digit
      · rfl
      · exact (solid_decimal _).dense c digit

/-- Whether an operand is of a form that a listing can write. The members of a class are written by
their names and not by their indexes, so no operand is of their forms. -/
def HasForm : Operand → OperandForm → Prop
  | .absent, .absent | .int _, .int | .slot _, .slot | .increment _ _, .increment
  | .pool _, .constant | .arrayType _, .arrayType | .branch _, .branch
  | .switch _ _, .switch => True
  | _, _ => False

end Operand

/-- A switch case is read back. -/
theorem readCase?_words (entry : Int32 × Offset) :
    readCase? (signedDecimal entry.1.toInt ++ ':' :: decimal entry.2.toNat) = some entry := by
  -- Neither number holds a character that the reader splits at or refuses.
  have absent : ∀ c, c.isDigit = false → c ≠ '-' → c ∉ signedDecimal entry.1.toInt := by
    intro c noDigit noSign listed
    rcases isDigit_or_eq_of_mem_signedDecimal listed with digit | isSign
    · rw [digit] at noDigit
      cases noDigit
    · exact noSign isSign
  have absentToo : ∀ c, c.isDigit = false → c ∉ decimal entry.2.toNat := fun c noDigit listed => by
    rw [isDigit_of_mem_decimal listed] at noDigit
    cases noDigit
  have noPlus :
      (signedDecimal entry.1.toInt ++ ':' :: decimal entry.2.toNat).contains '+' = false := by
    simp [absent '+' (by decide) (by decide), absentToo '+' (by decide)]
  have split : splitAtChar ':' (signedDecimal entry.1.toInt ++ ':' :: decimal entry.2.toNat) =
      [signedDecimal entry.1.toInt, decimal entry.2.toNat] := by
    rw [splitAtChar_append (absent ':' (by decide) (by decide)),
      splitAtChar_of_notMem (absentToo ':' (by decide))]
  unfold readCase?
  rw [noPlus, split]
  simp [readInt32?_signedDecimal, readUInt32?_decimal]

/-- An element type is read back from its number. -/
theorem readArrayType?_decimal (code : UInt8) :
    readArrayType? (decimal code.toNat) = some code := by
  -- The names of the element types start with letters.
  have other : ∀ {name : String}, name.toList.head?.any Char.isDigit = false →
      String.ofList (decimal code.toNat) ≠ name := by
    rintro name noDigit rfl
    rw [String.toList_ofList] at noDigit
    cases isDecimal : decimal code.toNat with
    | nil => exact decimal_ne_nil _ isDecimal
    | cons c rest =>
      have digit := isDigit_of_mem_decimal (isDecimal ▸ List.mem_cons_self : c ∈ decimal code.toNat)
      rw [isDecimal] at noDigit
      exact Bool.false_ne_true (noDigit.symm.trans digit)
  unfold readArrayType?
  -- No name of an element type can be met, so the text is read as a number.
  split
  · next same => exact absurd same (other rfl)
  · next same => exact absurd same (other rfl)
  · next same => exact absurd same (other rfl)
  · next same => exact absurd same (other rfl)
  · next same => exact absurd same (other rfl)
  · next same => exact absurd same (other rfl)
  · next same => exact absurd same (other rfl)
  · next same => exact absurd same (other rfl)
  · exact readUInt8?_decimal code

/-- The switch cases of a listing are read back one by one. -/
theorem mapM_readCase?_words (cases : List (Int32 × Offset)) :
    (cases.map fun entry => signedDecimal entry.1.toInt ++ ':' :: decimal entry.2.toNat).mapM
      readCase? = some cases := by
  -- By induction on the cases.
  induction cases with
  | nil => rfl
  | cons entry cases ih =>
    rw [List.map_cons, List.mapM_cons, readCase?_words, ih]
    rfl

/-- An operand is read back from its words by the notation it is of, which adds nothing
to the pool. -/
theorem readOperand?_words (pool : Pool) {operand : Operand} {form : OperandForm}
    (hasForm : operand.HasForm form) :
    readOperand? pool form (trim (spaced operand.words)) = some (operand, pool) := by
  -- A single word is what trimming leaves.
  have solid := operand.solid_words
  have single : ∀ {word : List Char}, operand.words = [word] →
      trim (spaced operand.words) = word := by
    intro word isWords
    rw [isWords] at solid ⊢
    rw [trim_spaced (solid word List.mem_cons_self) (by simp)]
    exact List.append_nil word
  -- One case for each form that an operand can have.
  unfold Operand.HasForm at hasForm
  split at hasForm
  · -- No operand.
    rfl
  · rw [single rfl, readOperand?, readInt32?_signedDecimal]
    rfl
  · rw [single rfl, readOperand?, readUInt16?_decimal]
    rfl
  · next number delta =>
    -- The two words are told apart again by the blank that trimming leaves between them.
    have words : splitWords (trim (spaced (Operand.increment number delta).words)) =
        [decimal number.toNat, signedDecimal delta.toInt] := by
      rw [Operand.words, trim_spaced (solid_decimal _) (by simp [solid_signedDecimal]),
        splitWords_append (solid_decimal _) (isBlank_of_mem_head?_spaced _),
        splitWords_spaced (by simp [solid_signedDecimal])]
    simp only [readOperand?, words, readUInt16?_decimal, readInt16?_signedDecimal]
    rfl
  · -- An entry of the pool, by its index.
    next index =>
    rw [single rfl]
    simp only [readOperand?, readLoadable?, readUInt16?_decimal]
    rfl
  · rw [single rfl, readOperand?, readArrayType?_decimal]
    rfl
  · rw [single rfl, readOperand?, readUInt32?_decimal]
    rfl
  · -- A switch, whose words are told apart by blanks.
    next default cases =>
    have solids : ∀ word ∈ (cases.map fun entry =>
        signedDecimal entry.1.toInt ++ ':' :: decimal entry.2.toNat), Solid word :=
      fun word listed => solid word (List.mem_cons_of_mem _ listed)
    have words : splitWords (trim (spaced (Operand.switch default cases).words)) =
        decimal default.toNat :: cases.map fun entry =>
          signedDecimal entry.1.toInt ++ ':' :: decimal entry.2.toNat := by
      rw [Operand.words, trim_spaced (solid_decimal _) solids,
        splitWords_append (solid_decimal _) (isBlank_of_mem_head?_spaced _),
        splitWords_spaced solids]
    simp only [readOperand?, readSwitch?, words, readUInt32?_decimal, mapM_readCase?_words]
    rfl
  · -- No other operand is of a form that a listing can write.
    exact hasForm.elim

/-! ### Mnemonics -/

namespace Opcode

/-- The bytes of a text as the digits of one number, which is fast to compare. -/
def bytesValue (text : String) : Nat :=
  text.toByteArray.data.toList.foldl (fun value byte => value * 256 + byte.toNat) 0

/-- No two opcodes have the same mnemonic. -/
theorem nodup_mnemonics : (table.map (·.1)).Nodup := by
  -- Numbers are compared in the place of texts.
  have differ : ((table.map (·.1)).map bytesValue).Pairwise fun a b => Nat.beq a b = false := by
    decide +kernel
  refine List.Pairwise.of_map bytesValue (fun first second differs same => ?_) differ
  rw [same, Nat.beq_refl] at differs
  cases differs

/-- An opcode is found by its mnemonic. -/
theorem ofMnemonic?_of_mnemonic? {opcode : Opcode} {mnemonic : String}
    (named : opcode.mnemonic? = some mnemonic) : ofMnemonic? mnemonic = some opcode := by
  -- The table is searched from its first entry on.
  obtain ⟨entry, isEntry, rfl⟩ := Option.map_eq_some_iff.mp named
  obtain ⟨inside, rfl⟩ := List.getElem?_eq_some_iff.mp isEntry
  have found : table.findIdx? (fun other => other.1 == table[opcode.code.toNat].1) =
      some opcode.code.toNat := by
    -- The opcode's own entry is the first with its mnemonic, as no earlier one has the same.
    refine List.findIdx?_eq_some_iff_getElem.mpr
      ⟨inside, beq_self_eq_true _, fun earlier before => ?_⟩
    have distinct :=
      List.pairwise_iff_getElem.mp nodup_mnemonics earlier opcode.code.toNat (by simp; omega)
        (by simpa using inside) before
    simpa using distinct
  rw [ofMnemonic?]
  exact (congrArg _ found).trans (by simp)

/-- An opcode with an operation has a mnemonic. -/
theorem exists_mnemonic {opcode : Opcode} {operation : Operation}
    (isOperation : opcode.operation? = some operation) :
    ∃ mnemonic, opcode.mnemonic? = some mnemonic := by
  -- Both stand in the same entry of the table.
  obtain ⟨entry, isEntry, -⟩ := Option.map_eq_some_iff.mp isOperation
  exact ⟨entry.1, by rw [mnemonic?, isEntry, Option.map_some]⟩

/-- A mnemonic is a word of lower case letters, digits and underscores. -/
theorem mnemonic_isWord {opcode : Opcode} {mnemonic : String}
    (named : opcode.mnemonic? = some mnemonic) :
    mnemonic.toList ≠ [] ∧ ∀ c ∈ mnemonic.toList, Assembly.isMnemonicChar c = true := by
  -- The table is finite, and all of its names are checked.
  obtain ⟨entry, isEntry, rfl⟩ := Option.map_eq_some_iff.mp named
  have spelled :
      table.all (fun entry =>
        !entry.1.toList.isEmpty && entry.1.toList.all Assembly.isMnemonicChar) = true := by
    decide +kernel
  have this := List.all_eq_true.mp spelled entry (List.mem_of_getElem? isEntry)
  simpa using this

end Opcode

/-! ### Lines -/

namespace Instruction

/-- Whether an instruction can be written in a listing: its opcode is assigned
and takes an operand of this form. -/
def Listable (instruction : Instruction) : Prop :=
  ∃ operation, instruction.opcode.operation? = some operation ∧
  instruction.operand.HasForm operation.operandForm

/-- The line of an instruction is its offset with a colon, followed by its mnemonic
and the words of its operand. -/
theorem toList_text {instruction : Instruction} {mnemonic : String}
    (named : instruction.opcode.mnemonic? = some mnemonic) :
    instruction.text.toList =
      decimal instruction.offset.toNat ++
        ':' :: spaced (mnemonic.toList :: instruction.operand.words) := by
  -- The parts are put together one by one.
  have plain : ∀ text : String, toString text = text := fun _ => rfl
  simp [text, named, Operand.toList_text, plain, decimal, spaced]

end Instruction

/-- A run ends where the test first fails. -/
theorem splitRun?_append {test : Char → Bool} {run rest : List Char} (nonempty : run ≠ [])
    (passes : ∀ c ∈ run, test c = true) (ends : ∀ c ∈ rest.head?, test c = false) :
    splitRun? test (run ++ rest) = some (String.ofList run, rest) := by
  -- The run is taken whole, and nothing of what follows.
  have stops : rest.takeWhile test = [] ∧ rest.dropWhile test = rest := by
    cases rest with
    | nil => exact ⟨rfl, rfl⟩
    | cons c rest => simp [ends c rfl]
  have isRun : (run ++ rest).takeWhile test = run := by
    rw [List.takeWhile_append_of_pos passes, stops.1, List.append_nil]
  rw [splitRun?, isRun, List.dropWhile_append_of_pos passes, stops.2]
  simp [nonempty]

namespace Assembly

/-- No character of a mnemonic is a blank. -/
theorem not_isBlank_of_isMnemonicChar {c : Char} (spelled : isMnemonicChar c = true) :
    isBlank c = false := by
  -- Letters, digits and the underscore.
  simp only [isMnemonicChar, Bool.or_eq_true, Bool.and_eq_true, decide_eq_true_eq, beq_iff_eq]
    at spelled
  rcases spelled with (letter | digit) | rfl
  · have low : 97 ≤ c.toNat := letter.1
    have high : c.toNat ≤ 122 := letter.2
    simp only [isBlank, Bool.or_eq_false_iff, Bool.and_eq_false_iff, decide_eq_false_iff_not,
      beq_eq_false_iff_ne]
    omega
  · exact not_isBlank_of_isDigit digit
  · rfl

/-- An instruction line splits into the parts it was written from. -/
theorem splitInstruction?_line {mnemonic : String} (nonempty : mnemonic.toList ≠ [])
    (spelled : ∀ c ∈ mnemonic.toList, isMnemonicChar c = true) (offset : Offset)
    (words : List (List Char)) :
    splitInstruction? (decimal offset.toNat ++ ':' :: spaced (mnemonic.toList :: words)) =
      some (offset, mnemonic, trim (spaced words)) := by
  -- The blank in front of the mnemonic is dropped, and nothing of the mnemonic.
  have unspaced : (spaced (mnemonic.toList :: words)).dropWhile isBlank =
      mnemonic.toList ++ spaced words := by
    refine (List.dropWhile_cons_of_pos rfl).trans ?_
    cases isList : mnemonic.toList with
    | nil => exact absurd isList nonempty
    | cons c rest =>
      have dense := not_isBlank_of_isMnemonicChar (spelled c (isList ▸ List.mem_cons_self))
      exact List.dropWhile_cons_of_neg (by simp [dense])
  -- After the mnemonic comes a blank or nothing, which is what ends it.
  have blankNext : ((spaced words).head?.map isBlank).getD true = true := by
    cases words with
    | nil => rfl
    | cons => rfl
  have ends : ∀ c ∈ (spaced words).head?, isMnemonicChar c = false := by
    cases words with
    | nil => exact nofun
    | cons =>
      intro c isHead
      cases isHead
      rfl
  -- The reader takes digits up to the colon, and then the mnemonic up to a blank.
  rw [splitInstruction?, splitRun?_append (decimal_ne_nil _) (fun _ => isDigit_of_mem_decimal)
    (by simp)]
  simp only [bind, Option.bind, unspaced, splitRun?_append nonempty spelled ends, blankNext,
    String.toList_ofList, readUInt32?_decimal, String.ofList_toList]
  rfl

/-- The state after instructions were added, at the source line that it stands at. -/
def append (state : Assembly) (code : List Instruction) : Assembly :=
  let method := state.listing.method
  let code := method.code ++ code.map ({ · with line := state.line })
  { state with listing := { state.listing with method := { method with code } } }

/-- Adding some instructions and then others adds all of them. -/
theorem append_append (state : Assembly) (code more : List Instruction) :
    (state.append code).append more = state.append (code ++ more) := by
  simp [append]

/-- A line that starts with a digit is no comment and no directive. -/
theorem addLine_of_isDigit {c : Char} (digit : c.isDigit = true) (state : Assembly) (number : Nat)
    (rest : List Char) :
    state.addLine number (c :: rest) = state.addInstruction number (c :: rest) := by
  -- The mark of a comment is no digit.
  have noComment : c ≠ '#' := by
    rintro rfl
    cases digit
  -- Nor is the mark of a directive.
  have noDirective : splitDirective? (c :: rest) = none := by
    unfold splitDirective?
    split
    · next isDirective =>
      cases isDirective
      cases digit
    · rfl
  rw [addLine, noDirective]
  simp [noComment]

/-- The line of an instruction is words with one blank between them. -/
theorem exists_words_text {instruction : Instruction} {mnemonic : String}
    (named : instruction.opcode.mnemonic? = some mnemonic) :
    ∃ word words, Solid word ∧ (∀ other ∈ words, Solid other) ∧
      instruction.text.toList = word ++ spaced words := by
  -- The first word is the offset with its colon; the mnemonic and the operand are the others.
  refine ⟨decimal instruction.offset.toNat ++ [':'], mnemonic.toList :: instruction.operand.words,
    (solid_decimal _).append (List.forall_mem_singleton.mpr rfl), fun word listed => ?_, ?_⟩
  · rcases List.mem_cons.mp listed with rfl | listed
    · obtain ⟨nonempty, spelled⟩ := Opcode.mnemonic_isWord named
      exact ⟨nonempty, fun c isChar => not_isBlank_of_isMnemonicChar (spelled c isChar)⟩
    · exact instruction.operand.solid_words word listed
  · rw [Instruction.toList_text named, List.append_cons]

/-- The line of an instruction adds this instruction and nothing else. -/
theorem addLine_text {instruction : Instruction} (listable : instruction.Listable)
    (state : Assembly) (number : Nat) :
    state.addLine number (trim instruction.text.toList) = .ok (state.append [instruction]) := by
  obtain ⟨operation, isOperation, hasForm⟩ := listable
  obtain ⟨mnemonic, named⟩ := Opcode.exists_mnemonic isOperation
  obtain ⟨nonempty, spelled⟩ := Opcode.mnemonic_isWord named
  -- The line is its own trimmed form.
  have isText := Instruction.toList_text named
  have trimmed : trim instruction.text.toList = instruction.text.toList := by
    obtain ⟨word, words, solid, solids, isWords⟩ := exists_words_text named
    rw [isWords, trim_append_spaced solid solids]
  -- The parts of the line are read back one by one.
  have added : state.addInstruction number instruction.text.toList =
      .ok (state.append [instruction]) := by
    rw [addInstruction, isText, splitInstruction?_line nonempty spelled]
    simp only [Opcode.ofMnemonic?_of_mnemonic? named, isOperation, Option.map_some,
      Option.getD_some, readOperand?_words _ hasForm]
    rfl
  -- The offset comes first, so the line starts with a digit.
  rw [trimmed, ← added, isText]
  cases isDecimal : decimal instruction.offset.toNat with
  | nil => exact absurd isDecimal (decimal_ne_nil _)
  | cons digit rest =>
    exact addLine_of_isDigit (isDigit_of_mem_decimal (isDecimal ▸ List.mem_cons_self))
      state number _

end Assembly

/-! ### Listings -/

/-- Whether a line of a listing adds nothing: it is blank, or it is a comment with blanks
at most in front of it. -/
def IsIdle (line : String) : Prop :=
  '\n' ∉ line.toList ∧ ∃ indent comment, line.toList = indent ++ comment ∧
    (∀ c ∈ indent, isBlank c = true) ∧ (comment = [] ∨ comment.head? = some '#')

/-- The listings of some code, with one instruction a line and any idle lines in between. -/
inductive Printed : List Instruction → List String → Prop where
  | done : Printed [] []
  | idle {line : String} {code : List Instruction} {lines : List String} (isIdle : IsIdle line)
      (later : Printed code lines) : Printed code (line :: lines)
  | instruction {instruction : Instruction} {code : List Instruction} {lines : List String}
      (later : Printed code lines) : Printed (instruction :: code) (instruction.text :: lines)

/-- An idle line adds nothing. -/
theorem addLine_of_isIdle {line : String} (isIdle : IsIdle line) (state : Assembly) (number : Nat) :
    state.addLine number (trim line.toList) = .ok state := by
  obtain ⟨-, indent, comment, isLine, blank, isComment⟩ := isIdle
  rw [isLine, trim_append_of_blank blank, Assembly.addLine]
  refine if_pos ?_
  -- Trimming leaves nothing of a blank line, and the mark in front of a comment.
  rcases isComment with rfl | isHead
  · rfl
  · cases comment with
    | nil => cases isHead
    | cons c comment =>
      cases isHead
      simp [head?_trim_cons (c := '#') rfl]

/-- The lines of a listing add its code to whatever was assembled before. -/
theorem addLines_of_printed {code : List Instruction} {lines : List String}
    (printed : Printed code lines) (listable : ∀ instruction ∈ code, instruction.Listable)
    (state : Assembly) (number : Nat) :
    state.addLines number (lines.map String.toList) = .ok (state.append code) := by
  -- By induction on the listing; the state and the line number move along.
  induction printed generalizing state number with
  | done => simp [Assembly.addLines, Assembly.append]
  | idle isIdle later ih =>
    rw [List.map_cons, Assembly.addLines, addLine_of_isIdle isIdle]
    exact ih listable state (number + 1)
  | @instruction instruction code lines later ih =>
    rw [List.map_cons, Assembly.addLines,
      Assembly.addLine_text (listable instruction List.mem_cons_self)]
    have rest :=
      ih (fun other listed => listable other (List.mem_cons_of_mem _ listed))
        (state.append [instruction]) (number + 1)
    rw [Assembly.append_append] at rest
    exact rest

/-- No line of a listing holds a line break. -/
theorem notMem_of_printed {code : List Instruction} {lines : List String}
    (printed : Printed code lines) (listable : ∀ instruction ∈ code, instruction.Listable) :
    ∀ line ∈ lines, '\n' ∉ line.toList := by
  -- By induction on the listing; comments are free of line breaks by definition.
  induction printed with
  | done => exact nofun
  | idle isIdle later ih =>
    intro line listed
    rcases List.mem_cons.mp listed with rfl | listed
    · exact isIdle.1
    · exact ih listable line listed
  | @instruction instruction code lines later ih =>
    intro line listed
    rcases List.mem_cons.mp listed with rfl | listed
    · obtain ⟨operation, isOperation, -⟩ := listable instruction List.mem_cons_self
      obtain ⟨mnemonic, named⟩ := Opcode.exists_mnemonic isOperation
      obtain ⟨word, words, solid, solids, isWords⟩ := Assembly.exists_words_text named
      -- A line break is a blank, and all blanks of the line are spaces.
      intro isBreak
      rw [isWords] at isBreak
      cases eq_of_mem_append_spaced solid solids isBreak rfl
    · exact ih (fun other isCode => listable other (List.mem_cons_of_mem _ isCode)) line listed

/-- Assembling a listing of some code gives this code back, with a length of one past its last
offset, and nothing else. -/
theorem assemble_printed {code : List Instruction} {lines : List String} {last : Instruction}
    (listable : ∀ instruction ∈ code, instruction.Listable) (printed : Printed code lines)
    (isLast : code.getLast? = some last) (below : last.offset.toNat + 1 < UInt32.size) :
    ∃ listing, Listing.assemble ("\n".intercalate lines) = .ok listing ∧
      listing.method.code = code.map ({ · with line := none }) ∧ listing.method.exceptions = [] ∧
      listing.locals = [] ∧ listing.pool = {} ∧
      listing.method.codeLength.toNat = last.offset.toNat + 1 := by
  -- No line of a listing has a line break in it, so that splitting gives the lines back;
  -- they are then added in order.
  have nonempty : lines.map String.toList ≠ [] := by
    intro empty
    obtain rfl := List.map_eq_nil_iff.mp empty
    cases printed
    cases isLast
  have isLines : splitAtChar '\n' ("\n".intercalate lines).toList = lines.map String.toList := by
    rw [String.toList_intercalate]
    refine splitAtChar_intercalate nonempty fun part listed => ?_
    obtain ⟨line, isLine, rfl⟩ := List.mem_map.mp listed
    exact notMem_of_printed printed listable line isLine
  have added := addLines_of_printed printed listable {} 1
  -- The last instruction tells the length of the code.
  have isEnd : (code.map fun instruction => { instruction with line := none }).getLast? =
      some { last with line := none } := by
    rw [List.getLast?_map, isLast]
    rfl
  have next : (last.offset + 1).toNat = last.offset.toNat + 1 := by
    rw [UInt32.toNat_add]
    exact Nat.mod_eq_of_lt below
  let made : Method :=
    { code := code.map ({ · with line := none }), codeLength := last.offset + 1 }
  refine ⟨{ method := made }, ?_, rfl, rfl, rfl, rfl, next⟩
  rw [Listing.assemble, isLines, added]
  simp only [bind, Except.bind, Assembly.append, List.nil_append, isEnd]
  rfl

/-- A comment, a blank line, a negative key and a reference into the pool. -/
theorem switch_assemble_printed :
    ∃ listing, Listing.assemble
      "  # by key\n0: ldc2_w #7\n\t\n3: lookupswitch 40 -5:12 7:3\n40: iinc 3 -1" = .ok listing ∧
      listing.method.code =
        [⟨0, ⟨0x14⟩, .pool 7, none⟩, ⟨3, ⟨0xab⟩, .switch 40 [(-5, 12), (7, 3)], none⟩,
        ⟨40, ⟨0x84⟩, .increment 3 (-1), none⟩] ∧
      listing.method.exceptions = [] ∧ listing.locals = [] ∧ listing.pool = {} ∧
      listing.method.codeLength.toNat = 41 := by
  let load : Instruction := ⟨0, ⟨0x14⟩, .pool 7, none⟩
  let switch : Instruction := ⟨3, ⟨0xab⟩, .switch 40 [(-5, 12), (7, 3)], some 9⟩
  let step : Instruction := ⟨40, ⟨0x84⟩, .increment 3 (-1), none⟩
  have isText : "  # by key\n0: ldc2_w #7\n\t\n3: lookupswitch 40 -5:12 7:3\n40: iinc 3 -1" =
      "\n".intercalate ["  # by key", load.text, "\t", switch.text, step.text] := by decide +kernel
  have comment : IsIdle "  # by key" := ⟨by decide, [' ', ' '], _, rfl, by simp [isBlank], .inr rfl⟩
  have blank : IsIdle "\t" := ⟨by decide, ['\t'], [], rfl, by simp [isBlank], .inl rfl⟩
  have listable : ∀ instruction ∈ [load, switch, step], instruction.Listable := by
    simp only [List.forall_mem_cons]
    exact ⟨⟨_, rfl, trivial⟩, ⟨_, rfl, trivial⟩, ⟨_, rfl, trivial⟩,
      fun _ listed => absurd listed List.not_mem_nil⟩
  have printed : Printed [load, switch, step]
      ["  # by key", load.text, "\t", switch.text, step.text] :=
    .idle comment (.instruction (.idle blank (.instruction (.instruction .done))))
  rw [isText]
  exact assemble_printed listable printed rfl (by decide)

end Unjump
