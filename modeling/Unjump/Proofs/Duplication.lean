import Mathlib.Data.List.GetD
import Mathlib.Data.List.Nodup
import Unjump.Proofs.Occurrence

/-!
Duplicated values are stored once, before they are read.

A block numbers the values that it stores from where the block before it stopped. A value is read
back only after its store was added to the statements, and the stack starts anew with every block,
so no reading leaves the block of its store.
-/

namespace Unjump

namespace Expr

/-- The number under which a statement stores a duplicated value. -/
def storeNumber? : Expr → Option Nat
  | .unary _ (.dupStore number) _ => some number
  | _ => none

/-- Whether an expression stands somewhere in a tree, also within what a reading carries along. -/
inductive StandsIn (e : Expr) : Expr → Prop
  | root : StandsIn e e
  | under {operand tree : Expr} (listed : operand ∈ tree.operands) (stands : StandsIn e operand) :
      StandsIn e tree

/-- A tree that stores nothing and reads back only what some statements store,
from the same expression. -/
structure ReadsFrom (statements : List Expr) (e : Expr) : Prop where
  loads : ∀ origin number value, (unary origin (.dupLoad number) value).StandsIn e →
    ∃ other, unary other (.dupStore number) value ∈ statements
  storeFree : ∀ origin number value, ¬ (unary origin (.dupStore number) value).StandsIn e

/-- A tree that may come after some statements: it is no reading itself,
and its operands read from them. -/
structure MayFollow (statements : List Expr) (e : Expr) : Prop where
  notLoad : ∀ origin number value, e ≠ unary origin (.dupLoad number) value
  operands : ∀ operand ∈ e.operands, operand.ReadsFrom statements

variable {statements others : List Expr} {e value : Expr} {origin : Origin} {number : Nat}

/-- What reads from some statements reads from more of them. -/
theorem ReadsFrom.mono (reads : e.ReadsFrom statements) (more : statements ⊆ others) :
    e.ReadsFrom others where
  loads := fun origin number value stands =>
    (reads.loads origin number value stands).imp fun _ stored => more stored
  storeFree := reads.storeFree

/-- What may come after some statements may come after more of them. -/
theorem MayFollow.mono (follows : e.MayFollow statements) (more : statements ⊆ others) :
    e.MayFollow others :=
  ⟨follows.notLoad, fun operand listed => (follows.operands operand listed).mono more⟩

/-- A node of an instruction may come after what its operands read from. -/
theorem MayFollow.of_isMarker (work : e.isMarker = false)
    (operands : ∀ operand ∈ e.operands, operand.ReadsFrom statements) : e.MayFollow statements := by
  refine ⟨?_, operands⟩
  -- A reading is no node of an instruction.
  rintro origin number value rfl
  cases work

/-- A node of an instruction stores nothing. -/
theorem storeNumber?_of_isMarker (work : e.isMarker = false) : e.storeNumber? = none := by
  -- The only heads that store are markers.
  cases e with
  | unary origin head value => cases head <;> first | rfl | cases work
  | _ => rfl

/-- What a tree reads back is stored before it. -/
theorem MayFollow.loads (follows : e.MayFollow statements)
    (stands : (unary origin (.dupLoad number) value).StandsIn e) :
    ∃ other, unary other (.dupStore number) value ∈ statements := by
  -- The tree itself is no reading, so the reading stands in an operand.
  cases stands with
  | root => exact absurd rfl (follows.notLoad origin number value)
  | under listed stands => exact (follows.operands _ listed).loads origin number value stands

/-- A tree holds a store only if it is one. -/
theorem MayFollow.eq_store (follows : e.MayFollow statements)
    (stands : (unary origin (.dupStore number) value).StandsIn e) :
    e = unary origin (.dupStore number) value := by
  -- The operands hold no stores.
  cases stands with
  | root => rfl
  | under listed stands =>
    exact absurd stands ((follows.operands _ listed).storeFree origin number value)

/-- A tree that may follow some statements and stores nothing reads from them. -/
theorem MayFollow.readsFrom (follows : e.MayFollow statements) (plain : e.storeNumber? = none) :
    e.ReadsFrom statements where
  loads := fun _ _ _ stands => follows.loads stands
  storeFree := by
    intro origin number value stands
    rw [follows.eq_store stands] at plain
    cases plain

/-- A leaf reads nothing back. -/
theorem readsFrom_leaf {head : Leaf} : (leaf origin head).ReadsFrom statements :=
  MayFollow.readsFrom
    ⟨by rintro origin number value ⟨⟩, fun operand listed => absurd listed List.not_mem_nil⟩ rfl

/-- A node over a value may come after the statements that the value reads from,
unless it is a reading. -/
theorem mayFollow_unary {head : Unary} (reads : value.ReadsFrom statements)
    (notLoad : ∀ number, head ≠ .dupLoad number) :
    (unary origin head value).MayFollow statements := by
  refine ⟨?_, List.forall_mem_singleton.mpr reads⟩
  rintro other number stored same
  cases same
  exact notLoad number rfl

/-- A reading of a stored value reads from the statements, if the value does. -/
theorem ReadsFrom.load {other : Origin} (reads : value.ReadsFrom statements)
    (stored : unary other (.dupStore number) value ∈ statements) :
    (unary origin (.dupLoad number) value).ReadsFrom statements where
  loads := by
    intro origin number value stands
    -- The reading is the root or stands in the value.
    cases stands with
    | root => exact ⟨other, stored⟩
    | under listed stands =>
      -- A reading further down belongs to the value that is carried along.
      cases List.mem_singleton.mp listed
      exact reads.loads origin number value stands
  storeFree := by
    intro origin number value stands
    -- The root is no store, so a store would stand in the value.
    cases stands with
    | under listed stands =>
      cases List.mem_singleton.mp listed
      exact reads.storeFree origin number value stands

end Expr

/-! ### Statements in order -/

/-- Whether every statement may come after those before it. -/
def Ordered (code : List Expr) : Prop :=
  ∀ (k : Nat) (e : Expr), code[k]? = some e → e.MayFollow (code.take k)

/-- No statements are in order. -/
theorem ordered_nil : Ordered [] := fun _ _ found => by cases found

/-- Statements stay in order when others come after all of them. -/
theorem Ordered.append {code more : List Expr} (ordered : Ordered code)
    (follow : ∀ e ∈ more, e.MayFollow code) : Ordered (code ++ more) := by
  intro k e found
  -- What stands before a position is the same as before, or more.
  rcases Nat.lt_or_ge k code.length with inside | behind
  · rw [List.getElem?_append_left inside] at found
    exact (ordered k e found).mono
      (List.take_append_of_le_length (Nat.le_of_lt inside) ▸ List.Subset.refl _)
  · rw [List.getElem?_append_right behind] at found
    refine (follow e (List.mem_of_getElem? found)).mono fun statement listed => ?_
    rw [List.take_append, List.take_of_length_le behind]
    exact List.mem_append_left _ listed

namespace Frame

/-- A frame whose statements store values under consecutive numbers and in order,
and whose values read from them. -/
structure Numbered (base : Nat) (frame : Frame) : Prop where
  numbers : ∃ count, frame.nextDup = base + count ∧
    frame.statements.filterMap Expr.storeNumber? = List.range' base count
  ordered : Ordered frame.statements
  stack : ∀ e ∈ frame.stack, e.ReadsFrom frame.statements
  terminator : ∀ e, frame.terminator = some e → e.MayFollow frame.statements ∧ e.storeNumber? = none

variable {base : Nat} {frame rest : Frame} {origin : Origin} {values buried : List Expr}
    {e value : Expr}

/-- Statements stay when another one is added. -/
theorem subset_emit (frame : Frame) (e : Expr) : frame.statements ⊆ (frame.emit e).statements :=
  List.subset_append_left _ _

namespace Numbered

/-- Values on top of the stack may read from the statements. -/
theorem pushed (numbered : frame.Numbered base)
    (reads : ∀ e ∈ values, e.ReadsFrom frame.statements) : (frame.pushed values).Numbered base :=
  { numbered with stack := List.forall_mem_append.mpr ⟨reads, numbered.stack⟩ }

/-- A statement that stores nothing keeps the numbers. -/
theorem emit (numbered : frame.Numbered base) (follows : e.MayFollow frame.statements)
    (plain : e.storeNumber? = none) : (frame.emit e).Numbered base where
  numbers := by
    obtain ⟨count, next, numbers⟩ := numbered.numbers
    exact ⟨count, next, by simp [Frame.emit, numbers, plain]⟩
  ordered := numbered.ordered.append (List.forall_mem_singleton.mpr follows)
  stack := fun value listed => (numbered.stack value listed).mono (frame.subset_emit e)
  terminator := fun last isLast => (numbered.terminator last isLast).imp_left fun follows =>
    follows.mono (frame.subset_emit e)

/-- A terminator that stores nothing keeps the numbers. -/
theorem terminate (numbered : frame.Numbered base) (follows : e.MayFollow frame.statements)
    (plain : e.storeNumber? = none) : (frame.terminate e).Numbered base :=
  { numbered with terminator := fun last isLast => by cases isLast; exact ⟨follows, plain⟩ }

/-- What is taken from a frame reads from its statements. -/
theorem of_takes (numbered : frame.Numbered base) (takes : frame.Takes origin values rest) :
    rest.Numbered base ∧ ∀ value ∈ values, value.ReadsFrom rest.statements := by
  -- The values come from the stack or stand for those that earlier blocks have left.
  obtain ⟨statements, terminator⟩ := takes.kept
  obtain ⟨left, taken⟩ := takes.forall_mem numbered.stack fun _ => Expr.readsFrom_leaf
  -- Taking values adds no statements and numbers nothing.
  rw [← statements] at left taken
  refine ⟨⟨?_, ?_, left, ?_⟩, taken⟩
  · rw [takes.nextDup_eq, statements]
    exact numbered.numbers
  · exact statements ▸ numbered.ordered
  · rw [statements, terminator]
    exact numbered.terminator

/-- Storing a value takes the next number. -/
theorem store (numbered : frame.Numbered base) (reads : value.ReadsFrom frame.statements) :
    Numbered base
      { frame.emit (.unary origin (.dupStore frame.nextDup) value) with
        nextDup := frame.nextDup + 1 } where
  numbers := by
    -- The new number follows those that have been given.
    obtain ⟨count, next, numbers⟩ := numbered.numbers
    refine ⟨count + 1, by simp only [next, Nat.add_assoc], ?_⟩
    simp [Frame.emit, numbers, next, Expr.storeNumber?, List.range'_1_concat]
  ordered :=
    numbered.ordered.append
      (List.forall_mem_singleton.mpr (Expr.mayFollow_unary reads fun _ same => by cases same))
  stack := fun e listed => (numbered.stack e listed).mono (frame.subset_emit _)
  terminator := fun last isLast => (numbered.terminator last isLast).imp_left fun follows =>
    follows.mono (frame.subset_emit _)

/-- A duplicated value is stored before its copies can be read. -/
theorem duplicate (numbered : frame.Numbered base) (origin : Origin)
    (reads : value.ReadsFrom frame.statements) :
    (frame.duplicate origin value).2.Numbered base ∧
      (frame.duplicate origin value).1.ReadsFrom (frame.duplicate origin value).2.statements ∧
      frame.statements ⊆ (frame.duplicate origin value).2.statements := by
  rw [Frame.duplicate]
  -- A trivial value is its own copy and is not stored.
  split
  · exact ⟨numbered, reads, List.Subset.refl _⟩
  · -- The copy reads what the new statement stores.
    have more := frame.subset_emit (.unary origin (.dupStore frame.nextDup) value)
    exact ⟨numbered.store reads,
      (reads.mono more).load (List.mem_append_right _ (List.mem_singleton_self _)), more⟩

/-- Duplicated values are stored before their copies can be read. -/
theorem duplicateAll (numbered : frame.Numbered base) (origin : Origin)
    (reads : ∀ value ∈ values, value.ReadsFrom frame.statements) :
    (Frame.duplicateAll origin values frame).2.Numbered base ∧
      (∀ copy ∈ (Frame.duplicateAll origin values frame).1,
        copy.ReadsFrom (Frame.duplicateAll origin values frame).2.statements) ∧
      frame.statements ⊆ (Frame.duplicateAll origin values frame).2.statements := by
  -- By induction on the values, with the statements that store the earlier ones in the frame.
  induction values generalizing frame with
  | nil => exact ⟨numbered, fun copy listed => absurd listed List.not_mem_nil, List.Subset.refl _⟩
  | cons value values ih =>
    obtain ⟨stored, copied, more⟩ := numbered.duplicate origin (reads value List.mem_cons_self)
    -- The statements only grow, so earlier copies are still read from them.
    obtain ⟨storedAll, copiedAll, moreAll⟩ := ih stored fun other listed =>
      (reads other (List.mem_cons_of_mem _ listed)).mono more
    exact ⟨storedAll, List.forall_mem_cons.mpr ⟨copied.mono moreAll, copiedAll⟩,
      List.Subset.trans more moreAll⟩

/-- Values that are copied read from the statements, and so do those they are copied around. -/
theorem pushAround (numbered : frame.Numbered base) (origin : Origin)
    (reads : ∀ value ∈ values.reverse ++ buried.reverse, value.ReadsFrom frame.statements) :
    (frame.pushAround origin values buried).Numbered base := by
  -- The copies are made first, and only then is anything pushed.
  simp only [List.mem_append, List.mem_reverse] at reads
  obtain ⟨stored, copied, more⟩ :=
    numbered.duplicateAll origin fun value listed => reads value (.inl listed)
  simp only [Frame.pushAround, Frame.pushAll_eq]
  refine stored.pushed fun value listed => ?_
  rw [List.mem_reverse, List.append_assoc] at listed
  -- The copies stand above and below of what they are buried under.
  rcases List.mem_append.mp listed with isCopy | listed
  · exact copied value isCopy
  · rcases List.mem_append.mp listed with isBuried | isCopy
    · exact (reads value (.inr isBuried)).mono more
    · exact copied value isCopy

/-- Values may be discarded one after the other. -/
theorem discard (numbered : frame.Numbered base)
    (reads : ∀ value ∈ values, value.ReadsFrom frame.statements) :
    (values.foldl (fun frame value => frame.emit (.unary origin .pop value))
      frame).Numbered base := by
  -- By induction on the values; a discarded one is a statement that stores nothing.
  induction values generalizing frame with
  | nil => exact numbered
  | cons value values ih =>
    have first : (Expr.unary origin .pop value).MayFollow frame.statements :=
      Expr.mayFollow_unary (reads value List.mem_cons_self) fun _ same => by cases same
    exact ih (numbered.emit first rfl) fun other listed =>
      (reads other (List.mem_cons_of_mem _ listed)).mono (frame.subset_emit _)

end Numbered

end Frame

/-! ### Runs of instructions -/

/-- What an instruction makes of values that read from some statements may come after these. -/
theorem Expr.Over.mayFollow {statements values : List Expr} {e : Expr} {origin : Origin}
    (node : e.Over origin values) (reads : ∀ value ∈ values, value.ReadsFrom statements) :
    e.MayFollow statements := by
  -- The operands of the node are among the values.
  obtain ⟨dropped, rfl, -⟩ := node.taken
  exact .of_isMarker node.work fun operand listed =>
    reads operand (List.mem_append_left _ (List.mem_reverse.mpr listed))

/-- One instruction stores under the next numbers, if at all, and reads back what is stored. -/
theorem Instruction.Acts.numbered {j : Instruction} {frame after : Frame} {base : Nat}
    (acts : j.Acts frame after) (numbered : frame.Numbered base) : after.Numbered base := by
  -- Only copying adds a store; all else is built from what is taken.
  cases acts with
  | nothing => exact numbered
  | push takes node =>
    obtain ⟨left, reads⟩ := numbered.of_takes takes
    have follows := node.mayFollow reads
    rw [Frame.push_eq_pushed]
    exact left.pushed (List.forall_mem_singleton.mpr
      (follows.readsFrom (Expr.storeNumber?_of_isMarker node.work)))
  | emit takes node =>
    obtain ⟨left, reads⟩ := numbered.of_takes takes
    exact left.emit (node.mayFollow reads) (Expr.storeNumber?_of_isMarker node.work)
  | terminate takes node =>
    obtain ⟨left, reads⟩ := numbered.of_takes takes
    exact left.terminate (node.mayFollow reads) (Expr.storeNumber?_of_isMarker node.work)
  | discard idle takes =>
    obtain ⟨left, reads⟩ := numbered.of_takes takes
    exact left.discard fun value listed => reads value (List.mem_reverse.mpr listed)
  | copy values buried idle takes =>
    obtain ⟨left, reads⟩ := numbered.of_takes takes
    exact left.pushAround j.origin reads
  | swap idle takes =>
    obtain ⟨left, reads⟩ := numbered.of_takes takes
    rw [Frame.pushAll_eq]
    exact left.pushed fun value listed => reads value (by simpa [or_comm] using listed)

namespace Frame

variable {base : Nat} {frame after : Frame} {pool : Option Pool} {code : List Instruction}

/-- Running instructions keeps the numbers. -/
theorem Numbered.run (numbered : frame.Numbered base) (ran : frame.run pool code = .ok after) :
    after.Numbered base := by
  -- By induction on the instructions.
  induction code generalizing frame with
  | nil =>
    cases ran
    exact numbered
  | cons j rest ih =>
    obtain ⟨f, isEffect, ran⟩ := bind_eq_ok.mp ran
    -- What each instruction does is one of a few kinds of action, and all
    -- of these keep the numbering.
    have acts : j.Acts frame (f frame) := Instruction.acts_effect isEffect
    exact ih (acts.numbered numbered) ran

/-- The expressions of a block are in order, and store what its statements store. -/
theorem Numbered.expressions (numbered : frame.Numbered base) :
    Ordered frame.expressions ∧ ∃ count, frame.nextDup = base + count ∧
      frame.expressions.filterMap Expr.storeNumber? = List.range' base count := by
  -- The values left on the stack are wrapped in statements of their own.
  have left : ∀ e ∈ frame.stack.reverse.map (fun value => Expr.unary value.origin .leave value),
      e.MayFollow frame.statements ∧ e.storeNumber? = none := by
    intro e listed
    obtain ⟨value, isValue, rfl⟩ := List.mem_map.mp listed
    have reads := numbered.stack value (List.mem_reverse.mp isValue)
    refine ⟨Expr.mayFollow_unary reads ?_, rfl⟩
    rintro number ⟨⟩
  have last : ∀ e ∈ frame.terminator.toList, e.MayFollow frame.statements ∧ e.storeNumber? = none :=
    fun e listed => numbered.terminator e (Option.mem_toList.mp listed)
  -- Neither the values left on the stack nor the terminator are stores, and all
  -- of them come after the statements.
  have behind := List.forall_mem_append.mpr ⟨left, last⟩
  rw [Frame.expressions, List.append_assoc]
  refine ⟨numbered.ordered.append fun e listed => (behind e listed).1, ?_⟩
  obtain ⟨count, next, numbers⟩ := numbered.numbers
  refine ⟨count, next, ?_⟩
  rw [List.filterMap_append, numbers, List.filterMap_eq_nil_iff.mpr fun e listed =>
    (behind e listed).2, List.append_nil]

/-- A block starts with nothing stored and nothing to read back. -/
theorem numbered_entered (m : Method) (head : Instruction) (nextDup : Nat) :
    Numbered nextDup { stack := (m.thrown? head).toList, nextDup } where
  numbers := ⟨0, rfl, rfl⟩
  ordered := ordered_nil
  -- A handler starts with what was thrown, which is a leaf.
  stack := by
    intro e listed
    obtain ⟨row, -, rfl⟩ := Option.map_eq_some_iff.mp (Option.mem_toList.mp listed)
    exact Expr.readsFrom_leaf
  terminator := fun e isLast => by cases isLast

end Frame

/-- The blocks of runs are in order, and store under numbers that go on from block to block. -/
theorem Run.ordered_toBlocks {m : Method} {pool : Option Pool} {blockAt : Offset → Option BlockId}
    {runs : List Run} {id nextDup : Nat} {blocks : List Block}
    (made : Run.toBlocks m pool blockAt runs id nextDup = .ok blocks) :
    (∀ b ∈ blocks, Ordered b.code) ∧
      ∃ count, blocks.flatMap (fun b => b.code.filterMap Expr.storeNumber?) =
        List.range' nextDup count := by
  -- By induction on the runs, with the next number to give.
  induction runs generalizing id nextDup blocks with
  | nil =>
    cases made
    exact ⟨fun b listed => absurd listed List.not_mem_nil, 0, rfl⟩
  | cons first rest ih =>
    obtain ⟨b, frame, others, rfl, ran, linked, later⟩ := toBlocks_cons_eq_ok made
    -- Linking a block leaves its code alone, and the next block goes on with the number
    -- that the frame has come to.
    have isCode : b.code = frame.expressions := (Block.linked_kept linked).2.2.2
    obtain ⟨ordered, count, isNext, numbers⟩ :=
      ((Frame.numbered_entered m first.head nextDup).run ran).expressions
    obtain ⟨orderedLater, more, numbersLater⟩ := ih later
    refine ⟨List.forall_mem_cons.mpr ⟨isCode ▸ ordered, orderedLater⟩, count + more, ?_⟩
    rw [List.flatMap_cons, isCode, numbers, numbersLater, isNext, List.range'_append_1]

/-! ### The graph of a method -/

/-- Elements that are related neither way stand at one position of a list in which all earlier ones
are related to the later ones. -/
theorem index_eq_of_pairwise {α : Type*} {R : α → α → Prop} {l : List α} {i j : Nat} {a b : α}
    (apart : l.Pairwise R) (found : l[i]? = some a) (foundToo : l[j]? = some b)
    (unrelated : ¬ R a b) (unrelatedToo : ¬ R b a) : i = j := by
  -- At two positions, the earlier element would be related to the later one.
  obtain ⟨boundI, rfl⟩ := List.getElem?_eq_some_iff.mp found
  obtain ⟨boundJ, rfl⟩ := List.getElem?_eq_some_iff.mp foundToo
  rcases Nat.lt_trichotomy i j with less | same | greater
  · exact absurd (List.pairwise_iff_getElem.mp apart i j boundI boundJ less) unrelated
  · exact same
  · exact absurd (List.pairwise_iff_getElem.mp apart j i boundJ boundI greater) unrelatedToo

/-- Two stores under one number are the same statement of the same list, where numbers
are given once. -/
theorem position_eq_of_nodup {codes : List (List Expr)} {i j k l number : Nat}
    {code other : List Expr} {e d : Expr}
    (distinct : (codes.flatMap fun code => code.filterMap Expr.storeNumber?).Nodup)
    (isCode : codes[i]? = some code) (found : code[k]? = some e)
    (stores : e.storeNumber? = some number) (isOther : codes[j]? = some other)
    (foundToo : other[l]? = some d) (storesToo : d.storeNumber? = some number) : i = j ∧ k = l := by
  -- The numbers of one list are distinct, and two lists share none.
  obtain ⟨each, apart⟩ := List.nodup_flatMap.mp distinct
  have listed : number ∈ code.filterMap Expr.storeNumber? :=
    List.mem_filterMap.mpr ⟨e, List.mem_of_getElem? found, stores⟩
  have listedToo : number ∈ other.filterMap Expr.storeNumber? :=
    List.mem_filterMap.mpr ⟨d, List.mem_of_getElem? foundToo, storesToo⟩
  -- Lists at different positions have no number in common, nor have different statements
  -- of one list.
  obtain rfl : i = j :=
    index_eq_of_pairwise apart isCode isOther (fun disjoint => disjoint listed listedToo)
      fun disjoint => disjoint listedToo listed
  obtain rfl := Option.some.inj (isCode.symm.trans isOther)
  have once := List.pairwise_filterMap.mp (each code (List.mem_of_getElem? isCode))
  exact ⟨rfl, index_eq_of_pairwise once found foundToo
    (fun differ => differ number stores number storesToo rfl)
    fun differ => differ number storesToo number stores rfl⟩

/-- A list that has an element is not the default for one that is missing. -/
theorem getElem?_of_getD {codes : List (List Expr)} {k position : Nat} {e : Expr}
    (found : (codes.getD k [])[position]? = some e) : codes[k]? = some (codes.getD k []) := by
  -- A list that is missing counts as empty.
  rw [List.getD_eq_getElem?_getD] at found ⊢
  cases isCode : codes[k]? with
  | none =>
    rw [isCode] at found
    cases found
  | some code => rfl

namespace Graph

variable {g h : Graph} {m : Method} {pool : Option Pool} {options : BuildOptions}

/-- Whether a block stores a duplicated value at a position of its code. -/
def StoresAt (g : Graph) (id : BlockId) (position number : Nat) (value : Expr) : Prop :=
  ∃ origin, (g.block id).code[position]? = some (.unary origin (.dupStore number) value)

/-- A graph in which duplicated values are stored once, before they are read. -/
structure StoresOnce (g : Graph) : Prop where
  /-- No number is used twice in the whole graph. -/
  distinct : ∀ {id other position place number value stored}, g.StoresAt id position number value →
    g.StoresAt other place number stored → id = other ∧ position = place
  /-- A store is a statement, and not part of one. -/
  outermost : ∀ {id} {position : Nat} {tree origin number value},
    (g.block id).code[position]? = some tree →
    (Expr.unary origin (.dupStore number) value).StandsIn tree →
    tree = .unary origin (.dupStore number) value
  /-- A value is read back where the same block has stored it before, from the same expression. -/
  defined : ∀ {id} {position : Nat} {tree origin number value},
    (g.block id).code[position]? = some tree →
    (Expr.unary origin (.dupLoad number) value).StandsIn tree →
    ∃ place < position, g.StoresAt id place number value

/-- The entry of a protected range comes after all blocks and has no code. -/
theorem Protects.codes {range : ProtectedRange} {first : BlockId} {handlers : List Handler}
    {accept : BlockId → Bool} {codes : List (List Expr)}
    (protects : Protects g first (rangeEntry range first handlers) accept h)
    (kept : codes.length ≤ g.size ∧ ∀ id, (g.bare id).code = codes.getD id []) :
    codes.length ≤ h.size ∧ ∀ id, (h.bare id).code = codes.getD id [] := by
  -- All blocks but the entry of the range are as they were.
  refine ⟨protects.size ▸ Nat.le_succ_of_le kept.1, fun id => ?_⟩
  by_cases isEntry : id = g.size
  · -- The list of codes ends before the new block, so its default is what the block has.
    rw [isEntry, protects.entry, List.getD_eq_default _ _ kept.1]
    rfl
  · rw [protects.others id isEntry, ← kept.2 id]
    split <;> rfl

/-- The blocks of a graph have the code of the blocks that the runs
of its method become, or none. -/
theorem code_eq_of_build (made : build m pool options = .ok g) : ∃ blocks,
    Run.toBlocks m pool (blockAt? m.runs) m.runs 1 0 = .ok blocks ∧
      ∀ id, (g.block id).code = ([] :: blocks.map Block.code).getD id [] := by
  -- Blocks are made of the runs first, then protected, and then pruned.
  obtain ⟨faultless, blocks, h, isBlocks, isProtected, rfl⟩ := build_cases made
  obtain ⟨length, regular⟩ := regular_of_toBlocks faultless isBlocks
  -- The entry block has no code, and the block of each run comes after it.
  have entered : ∀ id, ((ofBlocks blocks).bare id).code =
      ([] :: blocks.map Block.code).getD id [] := by
    intro id
    cases id with
    | zero =>
      rw [ofBlocks, bare_relink]
      rfl
    | succ k =>
      rw [bare_ofBlocks_succ, List.getD_cons_succ, List.getD_eq_getElem?_getD, List.getElem?_map]
      cases blocks[k]? <;> rfl
  obtain ⟨-, -, kept⟩ := foldlM_protect_induction
    (motive := fun mid => ([] :: blocks.map Block.code).length ≤ mid.size ∧
      ∀ id, (mid.bare id).code = ([] :: blocks.map Block.code).getD id [])
    regular.toLinked (fun offset id => blockAt?_lt_size length)
      ⟨by simp [ofBlocks, Graph.size, relink], entered⟩
    (fun _ kept _ protects => protects.codes kept) isProtected
  refine ⟨blocks, isBlocks, fun id => ?_⟩
  -- Pruning takes edges away and nothing else.
  show (h.prune.bare id).code = _
  rw [bare_prune]
  split <;> exact kept id

/-- In the graph of a method every duplicated value has a number of its own, under which it is
stored once, and is read back in the same block after that. -/
theorem storesOnce_of_build (made : build m pool options = .ok g) : g.StoresOnce := by
  obtain ⟨blocks, isBlocks, isCode⟩ := code_eq_of_build made
  -- Numbers are given block by block, without gaps.
  obtain ⟨ordered, count, numbers⟩ := Run.ordered_toBlocks isBlocks
  -- The numbers of all stores together are an interval.
  have distinct : (([] :: blocks.map Block.code).flatMap fun code =>
      code.filterMap Expr.storeNumber?).Nodup := by
    rw [List.flatMap_cons, List.filterMap_nil, List.nil_append, List.flatMap_map, numbers]
    exact List.nodup_range'
  have orderedAll : ∀ code ∈ [] :: blocks.map Block.code, Ordered code :=
    List.forall_mem_cons.mpr ⟨ordered_nil, List.forall_mem_map.mpr ordered⟩
  -- Only the blocks of the runs have statements.
  have isRun : ∀ {id} {position : Nat} {tree}, (g.block id).code[position]? = some tree →
      ([] :: blocks.map Block.code)[id]? = some (g.block id).code := by
    intro id position tree found
    rw [isCode] at found ⊢
    exact getElem?_of_getD found
  have follows : ∀ {id} {position : Nat} {tree}, (g.block id).code[position]? = some tree →
      tree.MayFollow ((g.block id).code.take position) := fun found =>
    orderedAll _ (List.mem_of_getElem? (isRun found)) _ _ found
  constructor
  -- Two stores under one number are one statement.
  case distinct =>
    rintro id other position place number value stored ⟨_, found⟩ ⟨_, foundToo⟩
    exact position_eq_of_nodup distinct (isRun found) found rfl (isRun foundToo) foundToo rfl
  case outermost => exact fun found stands => (follows found).eq_store stands
  case defined =>
    intro id position tree origin number value found stands
    -- The store is among the statements before the reading, and so at an earlier position.
    obtain ⟨other, stored⟩ := (follows found).loads stands
    obtain ⟨place, bound, isStore⟩ := List.mem_take_iff_getElem.mp stored
    have inside := Nat.lt_min.mp bound
    exact ⟨place, inside.1, other, List.getElem?_eq_some_iff.mpr ⟨inside.2, isStore⟩⟩

/-- Doubles a field into two variables, and once more in the next block. -/
def doubling : Method where
  code := [⟨0, ⟨178⟩, .pool 1, none⟩, ⟨3, ⟨89⟩, .absent, none⟩, ⟨4, ⟨96⟩, .absent, none⟩,
    ⟨5, ⟨89⟩, .absent, none⟩, ⟨6, ⟨60⟩, .absent, none⟩, ⟨7, ⟨61⟩, .absent, none⟩,
    ⟨8, ⟨167⟩, .branch 11, none⟩, ⟨11, ⟨178⟩, .pool 1, none⟩, ⟨14, ⟨89⟩, .absent, none⟩,
    ⟨15, ⟨96⟩, .absent, none⟩, ⟨16, ⟨60⟩, .absent, none⟩, ⟨17, ⟨177⟩, .absent, none⟩]
  codeLength := 18

/-- The sum of the first block is stored as well, with two readings of the field in it,
and the numbers go on. -/
theorem doubling_storesOnce : ∃ g, build doubling none {} = .ok g ∧
    (g.blocks.toList.map fun b => b.code.filterMap Expr.storeNumber?) = [[], [0, 1], [2]] ∧
      g.StoresOnce := by
  have stores : (build doubling none {}).toOption.map
      (fun g => g.blocks.toList.map fun b => b.code.filterMap Expr.storeNumber?) =
      some [[], [0, 1], [2]] := by decide +kernel
  cases made : build doubling none {} with
  | error fault =>
    rw [made] at stores
    cases stores
  | ok g =>
    rw [made] at stores
    exact ⟨g, rfl, Option.some.inj stores, storesOnce_of_build made⟩

end Graph

end Unjump
