import Mathlib.Data.List.Nodup
import Mathlib.Data.List.Perm.Subperm
import Unjump.Proofs.Build
import Unjump.Proofs.SharedEntry

/-!
The check of a structured graph decides whether its blocks are properly nested, and structuring
leaves a graph that it has once structured as it is.
-/

namespace Unjump

open Relation (TransGen)

/-- A block is settled if it is neither raw code nor a test with a branch. -/
theorem Block.isPending_eq_false_iff {b : Block} : b.isPending = false ↔
    b.type.isRaw = false ∧ (b.type.isCondition = true → b.branch = none) := by
  -- A test without a branch is not open.
  rw [Block.isPending, Bool.or_eq_false_iff, Block.isOpenCondition]
  cases b.branch <;> simp

namespace Graph

variable {g h : Graph} {id : BlockId}

/-- Whether a block has an edge to another one that is no jump to a label. -/
def Enters (g : Graph) (source target : BlockId) : Prop :=
  ∃ kind, kind ≠ .branch ∧ (g.block source).edge? kind = some (.block target)

/-- A graph whose predecessor sets mirror its edges, whose entry is not entered, and whose reachable
constructs have the children that they cannot do without. -/
structure Consistent (g : Graph) : Prop where
  mirror : ∀ source target, source ∈ (g.block target).preds ↔ g.Leads source target
  unentered : ∀ source, source ∉ (g.block start).preds
  children : ∀ id construct, g.Reached id → (g.block id).type = .structured construct →
    ∀ kind ∈ construct.requiredEdges, ((g.block id).edge? kind).isSome = true

/-- A consistent graph whose reachable blocks are settled and lie inside or after each other: each
of them is entered from one place at most, and none of them enters itself, directly
or through others. -/
structure ProperlyNested (g : Graph) : Prop extends g.Consistent where
  settled : ∀ id, g.Reached id → (g.block id).type.isRaw = false ∧
    ((g.block id).type.isCondition = true → (g.block id).branch = none)
  single : ∀ id a b, g.Reached id → g.Enters a id → g.Enters b id → a = b
  acyclic : ∀ id, ¬ TransGen (fun a b => g.Reached a ∧ g.Reached b ∧ g.Enters a b) id id

section Cycles

/-- A way backwards need not pass a block twice. -/
theorem Trail.exists_nodup {preds : BlockId → List BlockId} {a c : BlockId} {passed : List BlockId}
    (trail : Trail preds a passed c) : ∃ short, short.Nodup ∧ Trail preds a short c := by
  -- By induction on the way, the rest of which need not pass a block twice.
  induction trail with
  | last single => exact ⟨_, List.nodup_singleton _, .last single⟩
  | @step a b c rest single trail ih =>
    obtain ⟨short, distinct, way⟩ := ih
    by_cases again : a ∈ short
    · -- What comes before the second visit is left out.
      obtain ⟨before, after, rfl, -, goesOn⟩ := way.split again
      exact ⟨after, (List.nodup_append.mp distinct).2.1, goesOn⟩
    · exact ⟨a :: short, List.nodup_cons.mpr ⟨again, distinct⟩, .step single way⟩

/-- A set with at most one member lists it alone. -/
theorem toList_of_size_le_one {s : IdSet} {i : Nat} (single : s.size ≤ 1) (member : i ∈ s) :
    s.toList = [i] := by
  -- A set with a member has one at least, and so exactly one.
  have listed := IdSet.mem_toList.mpr member
  obtain ⟨only, entries⟩ :=
    List.length_eq_one_iff.mp (Nat.le_antisymm single (List.length_pos_of_mem listed))
  rw [entries, List.mem_singleton] at listed
  rw [entries, listed]

/-- A set has at most one member if any two of its members are the same. -/
theorem size_le_one_iff {s : IdSet} : s.size ≤ 1 ↔ ∀ i ∈ s, ∀ j ∈ s, i = j := by
  constructor
  · intro single i isMember j isOther
    have alone := toList_of_size_le_one single isMember
    have listed := IdSet.mem_toList.mpr isOther
    rw [alone, List.mem_singleton] at listed
    exact listed.symm
  · intro same
    -- Two listed numbers would be equal, and the list is strictly ascending.
    have ascending := s.ascending
    rw [IdSet.size]
    rcases entries : s.toList with _ | ⟨first, _ | ⟨second, rest⟩⟩
    · simp
    · simp
    · have below : first < second :=
        (List.pairwise_cons.mp (entries ▸ ascending)).1 second (by simp)
      have equal :=
        same first (IdSet.mem_toList.mp (by simp [entries])) second
          (IdSet.mem_toList.mp (by simp [entries]))
      omega

variable (mirrored : g.Mirrored)

include mirrored

/-- The entering predecessors of a block are the blocks that enter it. -/
theorem mem_enteringPreds_iff {owner : BlockId} : owner ∈ g.enteringPreds id ↔ g.Enters owner id :=
  mem_enteringPreds mirrored

/-- A cycle of entries is found from each of its members. -/
theorem entryCycle?_isSome_iff :
    (g.entryCycle? id).isSome = true ↔
      ∃ passed, Trail (fun id => (g.enteringPreds id).toList) id passed id := by
  -- The search follows the way backwards.
  constructor
  · intro closes
    obtain ⟨cycle, found⟩ := Option.isSome_iff_exists.mp closes
    exact ⟨cycle, (trail_of_cycleFrom found).1⟩
  · rintro ⟨passed, trail⟩
    obtain ⟨short, distinct, trail⟩ := trail.exists_nodup
    -- The way passes blocks of the graph, each of them once, so the search has steps enough.
    have known : short ⊆ List.range g.size := by
      intro k listed
      obtain ⟨pred, single⟩ := trail.single listed
      have leads : g.Leads pred k :=
        leads_of_enteringPreds mirrored (by rw [single]; exact List.mem_singleton_self _)
      exact List.mem_range.mpr (mirrored.bounded leads)
    have enough : short.length ≤ g.size := by
      simpa using (distinct.subperm known).length_le
    obtain ⟨cycle, found, -⟩ := trail.cycleFrom_isSome g.size enough
    rw [entryCycle?, found]
    rfl

/-- Blocks that enter each other are a way backwards where each is entered once. -/
theorem trail_of_enters (single : ∀ {id}, g.Reached id → (g.enteringPreds id).size ≤ 1)
    {owner : BlockId}
    (enters : TransGen (fun a b => g.Reached a ∧ g.Reached b ∧ g.Enters a b) owner id) :
    ∃ passed, Trail (fun id => (g.enteringPreds id).toList) id passed owner := by
  -- By induction on the way; the only block that enters another is the one
  -- that its trail steps back to.
  have only : ∀ {a b}, g.Reached b → g.Enters a b → (g.enteringPreds b).toList = [a] :=
    fun reached enters =>
      toList_of_size_le_one (single reached) ((mem_enteringPreds_iff mirrored).mpr enters)
  induction enters with
  | single enters => exact ⟨_, .last (only enters.2.1 enters.2.2)⟩
  | tail _ enters ih =>
    obtain ⟨passed, trail⟩ := ih
    exact ⟨_, .step (only enters.2.1 enters.2.2) trail⟩

/-- The blocks of a way backwards from a reachable block enter each other. -/
theorem Trail.enters {a b : BlockId} {passed : List BlockId}
    (trail : Trail (fun id => (g.enteringPreds id).toList) a passed b) (reached : g.Reached b) :
    TransGen (fun a b => g.Reached a ∧ g.Reached b ∧ g.Enters a b) b a := by
  -- A single entering predecessor enters.
  have enters : ∀ {a b}, (g.enteringPreds b).toList = [a] → g.Enters a b := fun single =>
    (mem_enteringPreds_iff mirrored).mp
    (IdSet.mem_toList.mp (by rw [single]; exact List.mem_singleton_self _))
  -- By induction on the way, whose last block is the reachable one.
  induction trail with
  | last single =>
    have leads := leads_of_enteringPreds mirrored (by rw [single]; exact List.mem_singleton_self _)
    exact .single ⟨reached, reached.step leads, enters single⟩
  | @step a b c rest single trail ih =>
    have reachedNext := trail.reached mirrored reached
    have leads := leads_of_enteringPreds mirrored (by rw [single]; exact List.mem_singleton_self _)
    exact (ih reached).tail ⟨reachedNext, reachedNext.step leads, enters single⟩

/-- Where every reachable block is entered once, the search from each
of them finds every cycle of entries. -/
theorem entryCycle?_eq_none_iff (single : ∀ {id}, g.Reached id → (g.enteringPreds id).size ≤ 1) :
    (∀ id, g.Reached id → g.entryCycle? id = none) ↔
      ∀ id, ¬ TransGen (fun a b => g.Reached a ∧ g.Reached b ∧ g.Enters a b) id id := by
  constructor
  -- With one entry each, walking back along the entries can only follow the cycle.
  · intro none id circle
    obtain ⟨_, -, last⟩ := TransGen.tail'_iff.mp circle
    have found := (entryCycle?_isSome_iff mirrored).mpr (trail_of_enters mirrored single circle)
    rw [none id last.2.1] at found
    cases found
  · intro acyclic id reached
    rw [← Option.not_isSome_iff_eq_none]
    intro found
    obtain ⟨passed, trail⟩ := (entryCycle?_isSome_iff mirrored).mp found
    exact acyclic id (trail.enters mirrored reached)

end Cycles

section Checks

/-- A block passes the check of its targets if each of them exists and lists the block
as a predecessor. -/
theorem targetViolation?_eq_none_iff :
    g.targetViolation? id = none ↔ ∀ target, g.Leads id target →
      target < g.size ∧ id ∈ (g.block target).preds := by
  -- The check asks each target in turn.
  rw [targetViolation?, List.findSome?_eq_none_iff]
  refine forall_congr' fun target => ?_
  rw [IdSet.mem_toList, mem_targets]
  refine imp_congr_right fun _ => ?_
  by_cases known : target < g.size
  · simp [known, Nat.not_le.mpr known]
  · simp [known, Nat.not_lt.mp known]

/-- A block passes the check of its predecessors if each of them leads to it. -/
theorem predecessorViolation?_eq_none_iff :
    g.predecessorViolation? id = none ↔ ∀ pred ∈ (g.block id).preds, g.Leads pred id := by
  -- The check asks each predecessor in turn.
  rw [predecessorViolation?, List.findSome?_eq_none_iff]
  refine forall_congr' fun pred => ?_
  rw [IdSet.mem_toList]
  refine imp_congr_right fun _ => ?_
  rw [← mem_targets, ite_eq_right_iff]
  -- Only blocks of the graph have targets.
  have known : id ∈ (g.block pred).targets → pred < g.size :=
    fun isTarget => (mem_targets.mp isTarget).lt_size
  simp only [Bool.or_eq_true, decide_eq_true_eq, Bool.not_eq_true', reduceCtorEq, imp_false, not_or,
    Bool.not_eq_false, IdSet.contains_iff, Nat.not_le]
  exact ⟨And.right, fun isTarget => ⟨known isTarget, isTarget⟩⟩

/-- A block passes the check of its children if it has all that its type asks for. -/
theorem childViolation?_eq_none_iff :
    g.childViolation? id = none ↔
      ∀ kind ∈ (g.block id).type.requiredEdges, ((g.block id).edge? kind).isSome = true := by
  simp [childViolation?, Option.isSome_iff_ne_none]

/-- A block passes the check of its state if nothing is left to be structured. -/
theorem pendingViolation?_eq_none_iff :
    g.pendingViolation? id = none ↔ (g.block id).isPending = false := by
  simp [pendingViolation?]

/-- A block passes the check of its entries if there is at most one and it closes no cycle. -/
theorem entryViolation?_eq_none_iff :
    g.entryViolation? id = none ↔ (g.enteringPreds id).size ≤ 1 ∧ g.entryCycle? id = none := by
  -- Entries are counted before cycles are looked for.
  by_cases several : 1 < (g.enteringPreds id).size
  · simp [entryViolation?, several, Nat.not_le.mpr several]
  · simp [entryViolation?, several, Nat.not_lt.mp several]

variable (bounded : ∀ {source target}, g.Leads source target → target < g.size)

include bounded

/-- What is checked of every block that the search finds holds of every reachable block. -/
theorem forall_mem_reachable {P : BlockId → Prop} (blank : g.size ≤ start → P start) :
    (∀ id ∈ g.reachable, P id) ↔ ∀ id, g.Reached id → P id := by
  -- Where there are blocks, the search finds all that can be reached.
  by_cases nonempty : start < g.size
  · exact forall_congr' fun id => imp_congr_left (mem_reachable_of_bounded bounded nonempty)
  · -- A graph without blocks has no edges, and the search finds nothing there.
    have absent : g.size ≤ start := Nat.not_lt.mp nonempty
    constructor
    · intro _ id reached
      cases reached with
      | refl => exact blank absent
      | tail _ leads =>
        exact absurd (bounded leads) (Nat.not_lt.mpr (Nat.le_trans absent (Nat.zero_le _)))
    · intro _ id found
      exact absurd (lt_of_mem_explore found) (Nat.not_lt.mpr (Nat.le_trans absent (Nat.zero_le _)))

/-- The check of links and children decides whether a graph is consistent. -/
theorem violation?_eq_none_iff : g.violation? = none ↔ g.Consistent := by
  -- A set without a least member is empty.
  have unentered : (g.block start).preds.min? = none ↔
      ∀ source, source ∉ (g.block start).preds := by
    rw [IdSet.min?, List.head?_eq_none_iff, List.eq_nil_iff_forall_not_mem]
    exact forall_congr' fun source => not_congr IdSet.mem_toList
  have children : (∀ id ∈ g.reachable, g.childViolation? id = none) ↔ ∀ id, g.Reached id →
      g.childViolation? id = none :=
    forall_mem_reachable bounded fun absent => by
      rw [childViolation?, block_of_size_le absent]
      rfl
  simp only [violation?, Option.or_eq_none_iff, List.findSome?_eq_none_iff, Option.map_eq_none_iff,
    unentered, IdSet.mem_toList, children, ids, List.mem_range]
  simp only [targetViolation?_eq_none_iff, predecessorViolation?_eq_none_iff,
    childViolation?_eq_none_iff]
  -- The check asks every block of the graph, and a number without a block
  -- has neither edges nor predecessors.
  constructor
  · rintro ⟨linked, unentered, children⟩
    refine ⟨fun source target =>
      ⟨fun isPred => ?_, fun leads => ?_⟩, unentered, fun id construct reached type => ?_⟩
    · -- A number without a block has no predecessors.
      have known : target < g.size := by
        apply Nat.lt_of_not_le
        intro absent
        rw [block_of_size_le absent] at isPred
        exact IdSet.not_mem_empty source isPred
      exact (linked target known).2 source isPred
    · exact ((linked source leads.lt_size).1 target leads).2
    · have required := children id reached
      rw [type] at required
      exact required
  · intro consistent
    refine ⟨fun id _ => ⟨fun target leads => ?_, fun pred => (consistent.mirror pred id).mp⟩,
      consistent.unentered, fun id reached kind required => ?_⟩
    · exact ⟨bounded leads, (consistent.mirror id target).mpr leads⟩
    · cases type : (g.block id).type with
      | structured construct =>
        rw [type] at required
        exact consistent.children id construct reached type kind required
      | start | raw =>
        rw [type] at required
        cases required

/-- The check of a structured graph is that of its consistency,
and those of every reachable block. -/
theorem nestingViolation?_eq_none_iff : g.nestingViolation? = none ↔
    g.Consistent ∧ (∀ id, g.Reached id → (g.block id).isPending = false) ∧
      ∀ id, g.Reached id → (g.enteringPreds id).size ≤ 1 ∧ g.entryCycle? id = none := by
  -- The checks run over the blocks the search lists; a block out of range violates nothing.
  have settled : (∀ id ∈ g.reachable, g.pendingViolation? id = none) ↔
      ∀ id, g.Reached id → g.pendingViolation? id = none :=
    forall_mem_reachable bounded fun absent => by
      rw [pendingViolation?, block_of_size_le absent]
      rfl
  have entered : (∀ id ∈ g.reachable, g.entryViolation? id = none) ↔ ∀ id, g.Reached id →
      g.entryViolation? id = none :=
    forall_mem_reachable bounded fun absent => by
      rw [entryViolation?_eq_none_iff, entryCycle?, Nat.le_zero.mp absent, enteringPreds,
        block_of_size_le absent]
      exact ⟨Nat.zero_le _, rfl⟩
  simp only [nestingViolation?, Option.or_eq_none_iff, List.findSome?_eq_none_iff, IdSet.mem_toList,
    settled, entered, violation?_eq_none_iff bounded]
  simp only [pendingViolation?_eq_none_iff, entryViolation?_eq_none_iff]

/-- The check of a structured graph decides whether it is properly nested. -/
theorem nestingViolation?_eq_none_iff_properlyNested :
    g.nestingViolation? = none ↔ g.ProperlyNested := by
  -- Single entries are needed to tell what the search for cycles finds.
  rw [nestingViolation?_eq_none_iff bounded]
  constructor
  · rintro ⟨consistent, settled, entered⟩
    have mirrored : g.Mirrored := ⟨bounded, consistent.mirror _ _⟩
    refine { consistent with
      settled := fun id reached => ?_
      single := fun id a b reached isA isB => ?_
      acyclic := ?_ }
    · exact Block.isPending_eq_false_iff.mp (settled id reached)
    · exact size_le_one_iff.mp (entered id reached).1 a ((mem_enteringPreds_iff mirrored).mpr isA) b
        ((mem_enteringPreds_iff mirrored).mpr isB)
    · -- With a single entry to every reachable block, the searches miss no cycle.
      exact (entryCycle?_eq_none_iff mirrored fun reached => (entered _ reached).1).mp
        fun id reached => (entered id reached).2
  · intro nested
    have mirrored : g.Mirrored := ⟨bounded, nested.mirror _ _⟩
    have single : ∀ {id}, g.Reached id → (g.enteringPreds id).size ≤ 1 := fun reached =>
      size_le_one_iff.mpr fun a isA b isB =>
        nested.single _ a b reached ((mem_enteringPreds_iff mirrored).mp isA)
        ((mem_enteringPreds_iff mirrored).mp isB)
    refine ⟨nested.toConsistent, fun id reached => ?_, fun id reached => ⟨single reached, ?_⟩⟩
    · exact Block.isPending_eq_false_iff.mpr (nested.settled id reached)
    · exact (entryCycle?_eq_none_iff mirrored single).mpr nested.acyclic id reached

end Checks

/-- The links and children of a sound graph are in order. -/
theorem Sound.consistent (sound : g.Sound) : g.Consistent where
  mirror _ _ := sound.mirror
  unentered source isPred := sound.unentered source (sound.mirror.mp isPred)
  children id _ reached type kind required := (sound.shaped reached).children kind <| by
    rw [show (g.bare id).type = _ from type]
    exact required

/-- A sound graph passes the check of its links and children. -/
theorem Sound.violation?_eq_none (sound : g.Sound) : g.violation? = none :=
  (violation?_eq_none_iff sound.bounded).mpr sound.consistent

/-- Two statements behind a literal jump, the second of which may go back to the first. -/
def behindJump (goesBack : Bool) : Graph :=
  relink ⟨#[{ blankBlock with next := some (.block 3) },
    { type := .structured .statements, start := 0, finish := 4, next := some (.block 2) },
    { type := .structured .statements, start := 4, finish := 8,
      next := if goesBack then some (.block 1) else none },
    { type := .structured .goto, start := 0, finish := 0, branch := some (.block 1) }]⟩

/-- Statements behind a literal jump are properly nested, but not if they run in a circle. -/
theorem behindJump_properlyNested :
    (behindJump false).ProperlyNested ∧ ¬ (behindJump true).ProperlyNested := by
  -- The graph has four blocks, and its edges lead to them.
  have inside : ∀ goesBack, ∀ source < 4,
      ∀ target ∈ ((behindJump goesBack).block source).targets.toList, target < 4 := by
    decide +kernel
  have size : ∀ goesBack, (behindJump goesBack).size = 4 := fun _ => rfl
  have bounded : ∀ goesBack {source target}, (behindJump goesBack).Leads source target →
      target < (behindJump goesBack).size := by
    intro goesBack source target leads
    rw [size]
    exact inside goesBack source (size goesBack ▸ leads.lt_size) target
      (IdSet.mem_toList.mpr (mem_targets.mpr leads))
  constructor
  · exact (nestingViolation?_eq_none_iff_properlyNested (bounded false)).mp (by decide +kernel)
  · intro nested
    have passes := (nestingViolation?_eq_none_iff_properlyNested (bounded true)).mpr nested
    exact absurd passes (by decide +kernel)

section Again

variable {options : Options}

/-- There is nothing to split at a settled block. -/
theorem splitTest_of_settled (settled : (g.block id).isPending = false) : g.splitTest id = g := by
  -- Only a raw test is split.
  simp only [splitTest]
  split
  · next isRaw _ =>
    rw [Block.isPending_eq_false_iff, isRaw] at settled
    cases settled.1
  · rfl

/-- There is no return to share at a settled block. -/
theorem shareReturn_of_settled (settled : (g.block id).isPending = false) :
    g.shareReturn id = g := by
  -- Only a raw return is shared.
  simp only [shareReturn]
  split
  · next isReturn =>
    rw [Block.isPending_eq_false_iff, isReturn.1] at settled
    cases settled.1
  · rfl

/-- A graph of settled blocks is as the rules expect it. -/
theorem prepare_of_settled (settled : ∀ id ∈ g.reachable, (g.block id).isPending = false) :
    g.prepare options = g := by
  -- Each pass finds the same graph at every block and leaves it as it is.
  have split : g.reachable.toList.foldl splitTest g = g :=
    List.foldlRecOn (motive := (· = g)) _ splitTest rfl fun _ same id listed => by
      rw [same]
      exact splitTest_of_settled (settled id (IdSet.mem_toList.mp listed))
  have shared : g.reachable.toList.foldl shareReturn g = g :=
    List.foldlRecOn (motive := (· = g)) _ shareReturn rfl fun _ same id listed => by
      rw [same]
      exact shareReturn_of_settled (settled id (IdSet.mem_toList.mp listed))
  simp only [prepare, split, shared, ite_self]

/-- A successful run leaves a graph behind that has reached its goal and passes the check. -/
theorem goal_of_structureFor {limit rounds : Nat} {applied : List Rule} {outcome : Outcome}
    {report : Report}
    (run : structureFor options limit rounds g (Flow.ofGraph g)
      (Distance.ofGraph g (Flow.ofGraph g)) applied = outcome)
    (done : outcome.result = .ok report) :
    (Distance.ofGraph outcome.graph (Flow.ofGraph outcome.graph)).isZero = true ∧
      outcome.graph.nestingViolation? = none := by
  -- By induction on the rounds that are left: a round ends the run or leaves
  -- it to the remaining ones.
  induction rounds generalizing g applied with
  | zero =>
    rw [structureFor] at run
    split at run
    · next goal =>
      split at run <;> subst run
      · cases done
      · next passes => exact ⟨goal, passes⟩
    · subst run
      cases done
  | succ rounds ih =>
    rw [structureFor] at run
    split at run
    · next goal =>
      split at run <;> subst run
      · cases done
      · next passes => exact ⟨goal, passes⟩
    · cases step : g.step? (Flow.ofGraph g) with
      | none =>
        simp only [step] at run
        subst run
        cases done
      | some made =>
        simp only [step] at run
        split at run
        · subst run
          cases done
        · split at run
          · exact ih run
          · subst run
            cases done

/-- A graph that has reached its goal is left as it is. -/
theorem structured_of_goal (goal : (Distance.ofGraph g (Flow.ofGraph g)).isZero = true)
    (passes : g.nestingViolation? = none) : g.structured options = ⟨g, .ok ⟨[]⟩⟩ := by
  -- Without open blocks the preparation does nothing, and the check of a step is part
  -- of that of the result.
  have checks := passes
  simp only [nestingViolation?, Option.or_eq_none_iff, List.findSome?_eq_none_iff, IdSet.mem_toList,
    pendingViolation?_eq_none_iff] at checks
  obtain ⟨consistent, settled, -⟩ := checks
  have noViolation : g.stepViolation? options = none := by rw [stepViolation?, consistent, ite_self]
  simp only [structured, prepare_of_settled settled, noViolation]
  rw [structureFor, if_pos goal, passes]

/-- Structuring a graph again, with whatever settings, succeeds without a step
and changes nothing. -/
theorem structured_structured (first second : Options) {report : Report}
    (done : (g.structured first).result = .ok report) :
    ∃ again, (g.structured first).graph.structured second =
      ⟨(g.structured first).graph, .ok again⟩ ∧
      again.applied = [] ∧ again.steps = 0 ∧ again.escapes = 0 := by
  -- Structuring succeeds only at the goal and after the last check.
  have ended : (Distance.ofGraph (g.structured first).graph
      (Flow.ofGraph (g.structured first).graph)).isZero = true ∧
      (g.structured first).graph.nestingViolation? = none := by
    generalize run : g.structured first = outcome at done ⊢
    simp only [structured] at run
    split at run
    · subst run
      cases done
    · exact goal_of_structureFor run done
  exact ⟨⟨[]⟩, structured_of_goal ended.1 ended.2, rfl, rfl, rfl⟩

end Again

/-- A method that waits in a loop with two exits to one return. -/
def waiting : Method where
  code := [⟨0, ⟨26⟩, .absent, none⟩, ⟨1, ⟨154⟩, .branch 9, none⟩, ⟨4, ⟨132⟩, .increment 1 1, none⟩,
    ⟨5, ⟨27⟩, .absent, none⟩, ⟨6, ⟨154⟩, .branch 0, none⟩, ⟨9, ⟨177⟩, .absent, none⟩]
  codeLength := 10

/-- The structured graph of the waiting method stays as it is, even where returns
are shared and every step is checked. -/
theorem waiting_structured_again : ∃ g report, Graph.build waiting none {} = .ok g ∧
    (g.structured {}).result = .ok report ∧ report.steps = 5 ∧
      ∃ again, (g.structured {}).graph.structured { shareReturns := true, verifyEachStep := true } =
        ⟨(g.structured {}).graph, .ok again⟩ ∧ again.applied = [] ∧ again.steps = 0 ∧
        again.escapes = 0 := by
  -- The run is evaluated, and that nothing happens the second time follows from it.
  have evaluated : (Graph.build waiting none {}).toOption.any
      (fun g => (g.structured {}).result.toOption.any fun report => report.steps == 5) = true := by
    decide +kernel
  obtain ⟨g, made, evaluated⟩ := exists_eq_ok_of_any evaluated
  obtain ⟨report, done, evaluated⟩ := exists_eq_ok_of_any evaluated
  exact ⟨g, report, made, done, beq_iff_eq.mp evaluated, structured_structured {} _ done⟩

end Graph

end Unjump
