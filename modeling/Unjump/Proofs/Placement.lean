import Mathlib.Order.WellFoundedSet
import Unjump.Proofs.Ending
import Unjump.Proofs.Nesting

/-!
The blocks of a structured method form nests.

Every reachable block is entered from at most one place. Going from a block to the one that enters
it, and so on, ends at the entry of the method or at a label. A label is where a literal jump or the
call of a subroutine leads, and code that is reached in no other way belongs to the nest of its
label and not to that of the entry.
-/

namespace Unjump

open Relation

namespace Graph

variable {g h : Graph} {id : BlockId}

/-- Whether a block is where a literal jump or the call of a subroutine leads. -/
def IsLabel (g : Graph) (id : BlockId) : Prop :=
  ∃ source ∈ g.reachable, ((g.block source).type.isGoto = true ∨
    (g.block source).type = .structured .jsr) ∧ (g.block source).branch = some (.block id)

/-- Whether a reachable block places another one in the nest. -/
def Places (g : Graph) (owner id : BlockId) : Prop :=
  owner ∈ g.reachable ∧ owner ∈ g.enteringPreds id

/-- Whether going from a block to the one that places it, as long as there is one, ends
at the entry or at a label. -/
def IsPlaced (g : Graph) (id : BlockId) : Prop :=
  ∃ root, ReflTransGen g.Places root id ∧ (∀ owner, ¬ g.Places owner root) ∧
  (root = start ∨ g.IsLabel root)

/-- A graph whose reachable blocks are settled, and entered at most once and never in a circle. -/
structure Finished (g : Graph) : Prop extends g.Sound where
  settled : ∀ {id}, g.Reached id → (g.block id).isPending = false
  single : ∀ {id}, g.Reached id → (g.enteringPreds id).size ≤ 1
  acyclic : ∀ {id}, g.Reached id → g.entryCycle? id = none

/-- A run that succeeds has reached its goal. -/
theorem Ends.goal {outcome : Outcome} {report : Report} (ends : g.Ends outcome)
    (result : outcome.result = .ok report) :
    g.Steps outcome.graph ∧
      (Distance.ofGraph outcome.graph (Flow.ofGraph outcome.graph)).isZero = true := by
  -- All other ends are failures.
  cases ends with
  | done steps goal => exact ⟨steps, goal⟩
  | unfinished steps => cases result
  | shared steps next => cases result
  | bypassed steps next bypasses => cases result

/-- The blocks that are listed as reachable are those that can be reached. -/
theorem Sound.mem_reachable (sound : g.Sound) : id ∈ g.reachable ↔ g.Reached id :=
  Graph.mem_reachable sound.toMirrored sound.nonempty

/-- A sound graph without violations is finished. -/
theorem Sound.finished (sound : g.Sound) (passes : g.nestingViolation? = none) : g.Finished := by
  -- The last check has looked at every block within reach.
  obtain ⟨-, settled, entered⟩ := (nestingViolation?_eq_none_iff sound.bounded).mp passes
  exact ⟨sound, fun reached => settled _ reached, fun reached => (entered _ reached).1,
    fun reached => (entered _ reached).2⟩

/-- The graph of a method that could be structured comes from that of its code by steps
that reach the goal. -/
theorem steps_of_structured {m : Method} {pool : Option Pool} {options : Options} {report : Report}
    (done : m.structured pool options = .ok (h, report)) :
    ∃ g, Graph.build m pool options.build = .ok g ∧
      (g.prepare options).Steps h ∧ (Distance.ofGraph h (Flow.ofGraph h)).isZero = true := by
  -- The graph could be built, and the run on it has succeeded.
  rw [Method.structured] at done
  cases made : Graph.build m pool options.build with
  | error fault =>
    rw [made] at done
    cases done
  | ok g =>
    simp only [made] at done
    cases result : (g.structured options).result with
    | error fault =>
      rw [result] at done
      cases done
    | ok report =>
      rw [result] at done
      cases done
      exact ⟨g, rfl, (ends_structured (sound_of_build made) options).goal result⟩

/-- The graph of a method that could be structured is finished. -/
theorem finished_of_structured {m : Method} {pool : Option Pool} {options : Options}
    {report : Report} (done : m.structured pool options = .ok (h, report)) : h.Finished := by
  -- The steps keep the graph sound, and the goal leaves no violation.
  obtain ⟨g, made, steps, goal⟩ := steps_of_structured done
  have sound := steps.sound ((sound_of_build made).prepare options)
  exact sound.finished (sound.nestingViolation?_eq_none goal)

namespace Finished

variable (finished : g.Finished)

include finished

/-- A block that places another leads to it. -/
theorem leads_of_places {owner : BlockId} (places : g.Places owner id) : g.Leads owner id := by
  -- An edge that enters is an edge.
  obtain ⟨kind, -, edge⟩ := (mem_enteringPreds finished.toMirrored).mp places.2
  exact ⟨kind, edge⟩

/-- A block that is placed can be reached. -/
theorem reached_of_places {owner : BlockId} (places : g.Places owner id) : g.Reached id :=
  (finished.toSound.mem_reachable.mp places.1).step (finished.leads_of_places places)

/-- No block places itself, directly or through others. -/
theorem not_places_self : ¬ TransGen g.Places id id := by
  -- A circle of placements would be a circle of entries, which the last check has ruled out.
  intro circle
  have acyclic := (entryCycle?_eq_none_iff finished.toMirrored finished.single).mp fun _ reached =>
    finished.acyclic reached
  refine acyclic id (TransGen.mono (fun owner inner places => ?_) id id circle)
  exact ⟨finished.toSound.mem_reachable.mp places.1, finished.reached_of_places places,
    (mem_enteringPreds_iff finished.toMirrored).mp places.2⟩

/-- A reachable block that no block places is the entry or a label. -/
theorem start_or_label (reached : g.Reached id) (alone : ∀ owner, ¬ g.Places owner id) :
    id = start ∨ g.IsLabel id := by
  -- The last step of a path to the block comes from a label or places the block.
  rcases reached.cases_tail with same | ⟨source, reachedSource, kind, edge⟩
  · exact .inl same
  · have listed := finished.toSound.mem_reachable.mpr reachedSource
    by_cases isBranch : kind = .branch
    · subst isBranch
      have branch : (g.block source).branch = some (.block id) := edge
      refine .inr ⟨source, listed, ?_, branch⟩
      -- A settled block with a branch is neither raw code nor an open test.
      have may :=
        (finished.shaped reachedSource).branches
          (by rw [show (g.bare source).branch = _ from edge]; rfl)
      have settled := finished.settled reachedSource
      rw [Block.isPending, Bool.or_eq_false_iff, Block.isOpenCondition, branch, Option.isSome_some,
        Bool.and_true] at settled
      simpa [BlockType.mayBranch, show (g.bare source).type = (g.block source).type from rfl,
        settled] using may
    · exact absurd ⟨listed, (mem_enteringPreds finished.toMirrored).mpr ⟨kind, isBranch, edge⟩⟩
        (alone source)

/-- Every reachable block is placed. -/
theorem isPlaced (reached : g.Reached id) : g.IsPlaced id := by
  -- Since no block places itself, going to the block that places one goes down an order.
  have : IsStrictOrder BlockId (TransGen g.Places) :=
    { irrefl := fun _ => finished.not_places_self, trans := fun _ _ _ => TransGen.trans }
  have founded : {k : BlockId | k < g.size}.WellFoundedOn (TransGen g.Places) :=
    (Set.finite_lt_nat g.size).wellFoundedOn
  -- By induction on the nest: a block is its own root, or has the root of the block that places it.
  refine founded.induction (P := fun id => g.Reached id → g.IsPlaced id)
    (reached.lt_size finished.toLinked) (fun id _ ih reached => ?_) reached
  by_cases alone : ∀ owner, ¬ g.Places owner id
  · exact ⟨id, .refl, alone, finished.start_or_label reached alone⟩
  · obtain ⟨owner, places⟩ := Classical.not_forall.mp alone
    have places := Classical.not_not.mp places
    have reachedOwner := finished.toSound.mem_reachable.mp places.1
    obtain ⟨root, way, top⟩ :=
      ih owner (reachedOwner.lt_size finished.toLinked) (.single places) reachedOwner
    exact ⟨root, way.tail places, top⟩

end Finished

/--
Every reachable block of a structured method is entered from at most one place, and going from a
block to the one that enters it, as long as there is one, ends at the entry or at a label.
-/
theorem placed_of_structured {m : Method} {pool : Option Pool} {options : Options} {report : Report}
    (done : m.structured pool options = .ok (h, report)) :
    ∀ id ∈ h.reachable, (h.enteringPreds id).size ≤ 1 ∧ h.IsPlaced id := by
  -- The graph is finished when the run has succeeded.
  intro id listed
  have finished := finished_of_structured done
  have reached := finished.toSound.mem_reachable.mp listed
  exact ⟨finished.single reached, finished.isPlaced reached⟩

/-- A method with a protected return, whose handler is the loop in front of it. -/
def guardedReturn : Method where
  code := [⟨0, ⟨26⟩, .absent, none⟩, ⟨1, ⟨154⟩, .branch 0, none⟩, ⟨4, ⟨177⟩, .absent, none⟩]
  codeLength := 5
  exceptions := [⟨4, 5, 0, none⟩]

/-- What becomes of the method with the protected return, by running the program. -/
private theorem guardedReturn_structured :
    ∃ h report, guardedReturn.structured none {} = .ok (h, report) ∧
    2 ∈ h.reachable ∧ (h.enteringPreds 2).toList = [] := by
  -- The structured method is evaluated once, and the facts are read off it.
  have evaluated : (guardedReturn.structured none {}).toOption.any (fun done =>
      decide (2 ∈ done.1.reachable ∧ (done.1.enteringPreds 2).toList = [])) = true := by
    decide +kernel
  obtain ⟨result, done, evaluated⟩ := exists_eq_ok_of_any evaluated
  exact ⟨result.1, result.2, done, of_decide_eq_true evaluated⟩

/-- The blocks of the method with the protected return are placed, the return at a label. -/
theorem guardedReturn_placed : ∃ h report, guardedReturn.structured none {} = .ok (h, report) ∧
    2 ∈ h.reachable ∧ h.IsPlaced 2 := by
  -- The return is within reach, so that it is placed.
  obtain ⟨h, report, done, listed, -⟩ := guardedReturn_structured
  exact ⟨h, report, done, listed, (placed_of_structured done 2 listed).2⟩

/-- A reachable block of a structured method need not be entered from anywhere. -/
theorem exists_unplaced_return : ∃ h report, guardedReturn.structured none {} = .ok (h, report) ∧
    ∃ id ∈ h.reachable, id ≠ start ∧ (h.enteringPreds id).toList = [] := by
  -- The return is within reach and has no entering predecessor.
  obtain ⟨h, report, done, listed, alone⟩ := guardedReturn_structured
  exact ⟨h, report, done, 2, listed, by decide, alone⟩

end Graph

end Unjump
