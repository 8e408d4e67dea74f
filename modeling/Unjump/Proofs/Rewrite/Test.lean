import Unjump.Construct.Test
import Unjump.Proofs.Rewrite

/-! Making one test of several. -/

namespace Unjump.Graph

variable {g h : Graph} {flow : Flow} {id : BlockId}

/-- A test that takes the place of its first operand, with the operands closed
and perhaps negated. -/
def combine (g : Graph) (id : BlockId) (construct : Construct) (operands : List (BlockId × Bool))
    (fields : Block → Block) : Graph :=
  (operands.foldl (fun g operand => g.closeTest operand.1 operand.2)
    (g.absorb id construct (operands.map (·.1)))).update g.size fields

/-- Closing several tests keeps the number of blocks. -/
theorem size_foldl_closeTest {operands : List (BlockId × Bool)} :
    (operands.foldl (fun g operand => g.closeTest operand.1 operand.2) g).size = g.size := by
  -- By induction on the operands.
  induction operands generalizing g with
  | nil => rfl
  | cons operand rest ih => rw [List.foldl_cons, ih, size_closeTest]

/-- Closing several tests closes each of them. -/
theorem bare_foldl_closeTest {operands : List (BlockId × Bool)}
    (distinct : (operands.map (·.1)).Nodup) (known : ∀ operand ∈ operands, operand.1 < g.size)
    (i : BlockId) :
    (operands.foldl (fun g operand => g.closeTest operand.1 operand.2) g).bare i =
      match operands.lookup i with
      | some invert => (g.bare i).closed invert
      | none => g.bare i := by
  -- By induction on the operands; they are distinct, so each is closed once.
  induction operands generalizing g with
  | nil => rfl
  | cons operand rest ih =>
    obtain ⟨test, invert⟩ := operand
    obtain ⟨fresh, distinct⟩ := List.nodup_cons.mp distinct
    have first : test < g.size := known _ List.mem_cons_self
    rw [List.foldl_cons, ih distinct ?later, bare_closeTest first, List.lookup_cons]
    case later =>
      intro other listed
      simpa using known other (List.mem_cons_of_mem _ listed)
    by_cases same : i = test
    · subst same
      have absent : rest.lookup i = none := by
        rw [List.lookup_eq_none_iff]
        intro other listed
        simpa using fun equal : i = other.1 => fresh (List.mem_map.mpr ⟨other, listed, equal.symm⟩)
      simp [absent]
    · simp [beq_eq_false_iff_ne.mpr same, if_neg same]

/-- Closing several tests keeps a graph confined. -/
theorem Confined.foldl_closeTest {entered : Prop} (confined : g.Confined entered)
    {operands : List (BlockId × Bool)} :
    (operands.foldl (fun g operand => g.closeTest operand.1 operand.2) g).Confined entered :=
  List.foldlRecOn operands _ confined fun _ before _ _ => before.closeTest

/-- Closing several tests keeps a graph linked. -/
theorem Linked.foldl_closeTest (linked : g.Linked) {operands : List (BlockId × Bool)} :
    (operands.foldl (fun g operand => g.closeTest operand.1 operand.2) g).Linked :=
  ⟨linked.toConfined.foldl_closeTest⟩

section Combine

variable {construct : Construct} {operands : List (BlockId × Bool)} {fields : Block → Block}

/-- There is one block more, that of the new test. -/
@[simp] theorem size_combine : (g.combine id construct operands fields).size = g.size + 1 := by
  simp [combine, size_foldl_closeTest]

/-- The blocks of a graph after some of its tests have become one. -/
theorem bare_combine (mirrored : g.Mirrored) (distinct : (operands.map (·.1)).Nodup)
    (known : ∀ operand ∈ operands, operand.1 < g.size) (pure : ∀ b, (fields b).bare = fields b.bare)
    (i : BlockId) :
    (g.combine id construct operands fields).bare i =
      if i = g.size then fields (Block.covering construct ((operands.map (·.1)).map g.block))
      else match operands.lookup i with
        | some invert => ((g.bare i).replaceTarget (.block id) (.block g.size)).closed invert
        | none => (g.bare i).replaceTarget (.block id) (.block g.size) := by
  -- All operands are blocks also once the new test is there.
  have inside : ∀ operand ∈ operands, operand.1 <
      (g.absorb id construct (operands.map (·.1))).size := by
    intro operand listed
    simpa using Nat.lt_succ_of_lt (known operand listed)
  -- No operand has the number of the new test.
  have absent : operands.lookup g.size = none := by
    rw [List.lookup_eq_none_iff]
    intro operand listed
    simpa using Nat.ne_of_gt (known operand listed)
  rw [combine, bare_update fields (by simp [size_foldl_closeTest]) pure]
  simp only [bare_foldl_closeTest distinct inside, bare_absorb mirrored, absent, if_true]
  split
  · rfl
  · rfl

/-- Making one test of several keeps a graph linked, if the new test leads
to blocks behind the entry. -/
theorem Linked.combine (linked : g.Linked) (known : ∀ operand ∈ operands, operand.1 < g.size)
    (distinct : (operands.map (·.1)).Nodup) (pure : ∀ b, (fields b).bare = fields b.bare)
    (kept : ∀ b, (fields b).preds = b.preds)
    (behind : ∀ kind target,
      (fields (Block.covering construct ((operands.map (·.1)).map g.block))).edge? kind =
      some (.block target) → start < target ∧ target < g.size) :
    (g.combine id construct operands fields).Linked := by
  -- The operands are blocks, and none of them is the new test.
  have inside : ∀ operand ∈ operands, operand.1 <
      (g.absorb id construct (operands.map (·.1))).size := by
    intro operand listed
    simpa using Nat.lt_succ_of_lt (known operand listed)
  have absent : operands.lookup g.size = none := by
    rw [List.lookup_eq_none_iff]
    intro operand listed
    simpa using Nat.ne_of_gt (known operand listed)
  -- Closing tests adds no edges, so only those of the new test are left to check.
  refine linked.absorb.foldl_closeTest.update fields pure kept ?_ ?_
  · intro kind target edge
    rw [bare_foldl_closeTest distinct inside, absent] at edge
    simp only [bare_absorb linked.toMirrored, if_true] at edge
    have bounds := behind kind target edge
    exact ⟨bounds.1, by simpa [size_foldl_closeTest] using Nat.lt_succ_of_lt bounds.2⟩
  · intro same
    exact absurd same.symm (Nat.ne_of_lt linked.nonempty)

/-- Tests can be made one if the new one leads where the first of them leads. -/
theorem rewrite_combine (sound : g.Sound) (pure : ∀ b, (fields b).bare = fields b.bare)
    (kept : ∀ b, (fields b).preds = b.preds) (distinct : (operands.map (·.1)).Nodup)
    (tests : ∀ operand ∈ operands, operand.1 < g.size ∧ (g.bare operand.1).type.isCondition)
    (isTest : (g.bare id).type.isCondition)
    (edges : ∀ {allow : EdgeFilter}, allow.Lenient →
      ∀ kind target,
        (fields (Block.covering construct ((operands.map (·.1)).map g.block))).edge? kind =
          some (.block target) → g.Walk allow id target)
    (shaped : (fields (Block.covering construct ((operands.map (·.1)).map g.block))).Shaped)
    (blank : (fields (Block.covering construct ((operands.map (·.1)).map g.block))).code = [])
    (reached : g.Reached id) :
    Rewrite g (g.combine id construct operands fields) (g.standsFor id) := by
  have known : ∀ operand ∈ operands, operand.1 < g.size :=
    fun operand listed => (tests operand listed).1
  have inside := reached.lt_size sound.toLinked
  -- A test is not the entry.
  have notStart : id ≠ start := by
    rintro rfl
    rw [sound.rooted] at isTest
    cases isTest
  have blocks : ∀ i, (g.combine id construct operands fields).bare i = _ :=
    bare_combine sound.toMirrored distinct known pure
  -- An old block is renamed and, if it is an operand, closed.
  have inherits : ∀ u < g.size, g.Reached u →
      Inherits g id u ((g.combine id construct operands fields).bare u) := by
    intro u old isReached
    have renamed :=
      @inherits_replaceTarget _ sound.toLinked id u _ (Nat.le_refl _) (sound.shaped isReached)
    rw [blocks, if_neg (Nat.ne_of_lt old)]
    split
    · next invert found =>
      obtain ⟨before, after, listed, -⟩ := List.lookup_eq_some_iff.mp found
      have isOperand : (u, invert) ∈ operands := by simp [listed]
      exact renamed.closed (tests _ isOperand).2 invert
    · exact renamed
  -- The new test is the only new block.
  have new : ∀ u, g.size ≤ u → u < g.size + 1 → (g.combine id construct operands fields).bare u =
      fields (Block.covering construct ((operands.map (·.1)).map g.block)) := by
    intro u isNew bounded
    rw [blocks, if_pos (Nat.le_antisymm (Nat.le_of_lt_succ bounded) isNew)]
  refine .form ?_ (by simp) (fun u old _ => inherits u old) ?_ ?_ ?_ ?_
  · refine sound.toLinked.combine known distinct pure kept fun kind target edge => ?_
    -- The new test leads only to what could be reached from the first operand.
    rcases (edges EdgeFilter.all_lenient kind target edge).cases_tail
      with same | ⟨previous, -, step⟩
    · exact same ▸ ⟨Nat.pos_of_ne_zero notStart, inside⟩
    · exact sound.toLinked.behind step.leads
  -- An edge of the first test is one that it had, and one of the new test leads on from the first.
  · rintro allow lenient u (rfl | isNew) kind target allowed edge
    · obtain ⟨type, before, edge, stands⟩ := (inherits u inside reached).edges kind target edge
      exact stands.symm ▸ .single ⟨kind, type ▸ allowed, edge⟩
    · have bounded := lt_size_of_edge edge
      rw [size_combine] at bounded
      rw [new u isNew bounded] at edge
      have walk := edges lenient kind target edge
      rwa [standsFor_old id ((reached.walk walk).lt_size sound.toLinked)]
  · rintro u bounded (rfl | isNew) -
    · exact (inherits u inside reached).shaped
    · rw [new u isNew (by simpa using bounded)]
      exact shaped
  · -- The operands keep their code.
    intro u old
    rw [blocks, if_neg (Nat.ne_of_lt old)]
    split <;> rfl
  · -- The new test has none.
    intro u isNew bounded
    rw [new u isNew (by simpa using bounded)]
    exact blank

end Combine

/-- A test that decides when another one fails, as an operand of both. -/
theorem isOperandOf_iff {owner : BlockId} : g.isOperandOf flow owner id = true ↔
    (g.bare id).isOpenCondition = true ∧ id ∉ flow.headers ∧
      g.flowPreds id = IdSet.insert ∅ owner := by
  -- The three conditions are tested one after the other.
  simp only [isOperandOf, Bool.and_eq_true, Bool.not_eq_true', ← Bool.not_eq_true,
    IdSet.contains_iff, beq_iff_eq, and_assoc]
  rfl

/-- What two tests become that are made one. -/
theorem mergeTests_cases (applied : g.mergeTests flow id = some h) :
    ∃ second construct invert, (g.bare id).isOpenCondition = true ∧
      (g.bare id).next = some (.block second) ∧ second ≠ id ∧
      g.isOperandOf flow id second = true ∧
      joint? (g.block id) (g.block second) = some (construct, invert) ∧
      (g.combine id construct [(id, invert), (second, false)] fun b =>
        { b with
          sub1 := some (.block id), sub2 := some (.block second)
          next := (g.block second).next, branch := (g.block second).branch }) = h := by
  simp only [mergeTests] at applied
  -- The first test is open and falls through to the second, which no other block enters.
  split at applied
  · next second isOpen next =>
    split at applied
    · next fits =>
      obtain ⟨⟨construct, invert⟩, joint, made⟩ := Option.map_eq_some_iff.mp applied
      refine ⟨second, construct, invert, isOpen, next, fits.1, fits.2, joint, ?_⟩
      simp only [combine, List.foldl_cons, List.foldl_nil, List.map_cons, List.map_nil]
      exact made
    · cases applied
  · cases applied

/-- What three tests become that are made one. -/
theorem selectTest_cases (applied : g.selectTest flow id = some h) :
    ∃ failed held, (g.bare id).isOpenCondition = true ∧ (g.bare id).next = some (.block failed) ∧
      (g.bare id).branch = some (.block held) ∧ failed ≠ held ∧ failed ≠ id ∧ held ≠ id ∧
      g.isOperandOf flow id failed = true ∧ g.isOperandOf flow id held = true ∧
      (g.bare failed).next = (g.bare held).next ∧ (g.bare failed).branch = (g.bare held).branch ∧
      (g.combine id .conditionTernary [(id, false), (failed, false), (held, false)] fun b =>
        { b with
          condition := some (.block id), sub1 := some (.block held), sub2 := some (.block failed)
          next := (g.block failed).next, branch := (g.block failed).branch }) = h := by
  simp only [selectTest] at applied
  -- Both successors of the test are tests, and lead to the same two blocks.
  split at applied
  · next failed held isOpen next branch =>
    split at applied
    · next fits =>
      obtain ⟨differ, notFailed, notHeld, isFailed, isHeld, nexts, branches⟩ := fits
      exact ⟨failed, held, isOpen, next, branch, differ, notFailed, notHeld, isFailed, isHeld,
        nexts, branches, Option.some.inj applied⟩
    · cases applied
  · cases applied

/-- Two tests are joined by or, or by and. -/
theorem joint?_construct {first second : Block} {construct : Construct} {invert : Bool}
    (joint : joint? first second = some (construct, invert)) :
    construct = .conditionOr ∨ construct = .conditionAnd := by
  -- Where the first test branches tells which it is.
  simp only [joint?] at joint
  split at joint
  · cases joint
    exact .inl rfl
  · split at joint
    · cases joint
      exact .inr rfl
    · cases joint

/-- Making one test of two keeps walks and shapes, where the new test stands for the first one. -/
theorem rewrite_mergeTests (sound : g.Sound) (reached : g.Reached id)
    (applied : g.mergeTests flow id = some h) : Rewrite g h (g.standsFor id) := by
  -- The new test has the two as its parts, and the successors of the second one.
  obtain ⟨second, construct, invert, isOpen, next, other, operand, joint, rfl⟩ :=
    mergeTests_cases applied
  obtain ⟨opens, -, -⟩ := isOperandOf_iff.mp operand
  have isTest := (isOpenCondition_iff.mp isOpen).1
  have isSecond := (isOpenCondition_iff.mp opens).1
  have leads : g.Leads id second := ⟨.next, next⟩
  have reachedSecond := reached.step leads
  have falls := (sound.shaped reachedSecond).falls opens
  refine rewrite_combine sound (fun _ => rfl) (fun _ => rfl) ?_ ?_ isTest ?_
    (.ofChildren rfl ?_ (fun _ => falls) ?_ ?_) rfl reached
  · -- The two tests are different blocks, both of the graph.
    simpa using Ne.symm other
  · simp only [List.mem_cons, List.not_mem_nil, or_false]
    rintro operand (rfl | rfl)
    · exact ⟨leads.lt_size, isTest⟩
    · exact ⟨sound.bounded leads, isSecond⟩
  · -- The second test decides where the joint one leads, and the first one leads to it.
    intro allow lenient kind target edge
    have toSecond : g.Walk allow id second := .single ⟨.next, lenient.next _, next⟩
    cases kind with
    | next => exact toSecond.tail ⟨.next, lenient.next _, edge⟩
    | branch => exact toSecond.tail ⟨.branch, lenient.branch _ isSecond, edge⟩
    | sub1 => cases edge; exact .refl
    | sub2 => cases edge; exact toSecond
    | condition | case i | handler i => cases edge
  · -- The new test is a structured one, with both of its parts.
    rcases joint?_construct joint with rfl | rfl <;> rfl
  · rcases joint?_construct joint with rfl | rfl <;> exact fun _ => rfl
  · intro kind required
    rcases joint?_construct joint with rfl | rfl <;>
      simp only [Construct.requiredEdges, List.mem_cons, List.not_mem_nil, or_false] at required <;>
      rcases required with rfl | rfl <;> rfl

/-- Making one test of three keeps walks and shapes, where the new test stands for the first one. -/
theorem rewrite_selectTest (sound : g.Sound) (reached : g.Reached id)
    (applied : g.selectTest flow id = some h) : Rewrite g h (g.standsFor id) := by
  -- The new test has the three as its parts, and the successors of those that it selects from.
  obtain ⟨failed, held, isOpen, next, branch, differ, notFailed, notHeld, operandFailed,
      operandHeld, -, -, rfl⟩ :=
    selectTest_cases applied
  obtain ⟨opensFailed, -, -⟩ := isOperandOf_iff.mp operandFailed
  obtain ⟨opensHeld, -, -⟩ := isOperandOf_iff.mp operandHeld
  have isTest := (isOpenCondition_iff.mp isOpen).1
  have isFailed := (isOpenCondition_iff.mp opensFailed).1
  have isHeld := (isOpenCondition_iff.mp opensHeld).1
  have leadsFailed : g.Leads id failed := ⟨.next, next⟩
  have leadsHeld : g.Leads id held := ⟨.branch, branch⟩
  have falls := (sound.shaped (reached.step leadsFailed)).falls opensFailed
  refine rewrite_combine sound (fun _ => rfl) (fun _ => rfl) ?_ ?_ isTest ?_
    (.ofChildren rfl ?_ (fun _ => falls) ?_ ?_) rfl reached
  · -- The three tests are different blocks, all of the graph.
    simp [Ne.symm notFailed, Ne.symm notHeld, differ]
  · simp only [List.mem_cons, List.not_mem_nil, or_false]
    rintro operand (rfl | rfl | rfl)
    · exact ⟨leadsFailed.lt_size, isTest⟩
    · exact ⟨sound.bounded leadsFailed, isFailed⟩
    · exact ⟨sound.bounded leadsHeld, isHeld⟩
  · -- The selected tests agree on where they lead, so either of them can stand for both.
    intro allow lenient kind target edge
    have toFailed : g.Walk allow id failed := .single ⟨.next, lenient.next _, next⟩
    cases kind with
    | next => exact toFailed.tail ⟨.next, lenient.next _, edge⟩
    | branch => exact toFailed.tail ⟨.branch, lenient.branch _ isFailed, edge⟩
    | condition => cases edge; exact .refl
    | sub1 => cases edge; exact .single ⟨.branch, lenient.branch _ isTest, branch⟩
    | sub2 => cases edge; exact toFailed
    | case i | handler i => cases edge
  · -- The new test is a structured one, with all of its parts.
    rfl
  · exact fun _ => rfl
  · intro kind required
    simp only [Construct.requiredEdges, List.mem_cons, List.not_mem_nil, or_false] at required
    rcases required with rfl | rfl | rfl <;> rfl

end Unjump.Graph
