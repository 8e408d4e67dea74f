import Unjump.Graph.Basic
import Unjump.Marks

/-! Reachability in a block graph, and the exhaustive search behind it. -/

namespace Unjump

/-- Searches on from a work list for a number of rounds, each of which marks one more block. -/
def exploreFor (next : BlockId → List BlockId) :
    (rounds : Nat) → (work : List BlockId) → (marks : Marks) → Marks
  | 0, _, marks => marks
  | rounds + 1, work, marks =>
    match work.dropWhile marks.has with
    | [] => marks
    | id :: work => exploreFor next rounds (next id ++ work) (marks.mark id)

/-- The blocks below a bound that a search finds from a work list, on top
of those it has already seen. -/
def explore (next : BlockId → List BlockId) (bound : Nat) (work : List BlockId) (seen : IdSet) :
    IdSet :=
  -- Every round finds another block, so there are no more rounds than blocks.
  (exploreFor next bound work (.ofIdSet seen bound)).toIdSet

/-- A search keeps the bound of its marks. -/
@[simp] theorem bound_exploreFor {next : BlockId → List BlockId} {rounds : Nat}
    {work : List BlockId} {marks : Marks} :
    (exploreFor next rounds work marks).bound = marks.bound := by
  induction rounds generalizing work marks with
  | zero => rfl
  | succ rounds ih =>
    rw [exploreFor]
    split
    · rfl
    · rw [ih, Marks.bound_mark]

/-- The next block of a search has no mark yet. -/
theorem not_has_of_dropWhile {marks : Marks} {work later : List BlockId} {id : BlockId}
    (rest : work.dropWhile marks.has = id :: later) : marks.has id = false := by
  have first := List.head?_dropWhile_not marks.has work
  rw [rest] at first
  simpa using first

/-- With a round for every block without a mark, a search keeps its marks, marks its work list and
is closed under the next blocks of all that it adds. -/
theorem exploreFor_complete (next : BlockId → List BlockId) :
    ∀ (rounds : Nat) (work : List BlockId) (marks : Marks), marks.blanks ≤ rounds →
      (∀ id, marks.has id = true → (exploreFor next rounds work marks).has id = true) ∧
      (∀ id ∈ work, (exploreFor next rounds work marks).has id = true) ∧
      ∀ id, (exploreFor next rounds work marks).has id = true →
        marks.has id = true ∨
        ∀ target ∈ next id, (exploreFor next rounds work marks).has target = true := by
  intro rounds
  induction rounds with
  | zero =>
    intro work marks enough
    -- No block is left to be marked.
    refine ⟨fun id old => old, fun id _ => ?_, fun id old => .inl old⟩
    show marks.has id = true
    cases blank : marks.has id with
    | true => rfl
    | false =>
      have := Marks.blanks_mark_lt blank
      omega
  | succ rounds ih =>
    intro work marks enough
    -- What the search passes over at the front of the work list has its mark already.
    have skipped : ∀ id ∈ work, marks.has id = true ∨ id ∈ work.dropWhile marks.has := by
      intro id listed
      rw [← List.takeWhile_append_dropWhile (p := marks.has) (l := work), List.mem_append] at listed
      exact listed.imp_left (List.all_eq_true.mp List.all_takeWhile id)
    rw [exploreFor]
    split
    · next rest =>
      -- The whole work list was marked before.
      rw [rest] at skipped
      refine ⟨fun id old => old, fun id listed => ?_, fun id old => .inl old⟩
      exact (skipped id listed).elim (fun old => old) fun none => nomatch none
    · next id later rest =>
      rw [rest] at skipped
      have blank := not_has_of_dropWhile rest
      -- The block that is marked now was blank, so one round less does for the rest.
      have fewer : (marks.mark id).blanks ≤ rounds := by
        have := Marks.blanks_mark_lt blank
        omega
      obtain ⟨kept, found, closed⟩ := ih (next id ++ later) (marks.mark id) fewer
      refine ⟨fun old isOld =>
        kept old (by simp [isOld]), fun listed isListed => ?_, fun member isMember => ?_⟩
      -- A listed block was passed over, is the one marked now, or stays on the work list.
      · rcases skipped listed isListed with old | late
        · exact kept listed (by simp [old])
        · rcases List.mem_cons.mp late with rfl | last
          · exact kept listed (by simp)
          · exact found listed (by simp [last])
      -- Only the block marked now is new, and its next blocks were put on the work list.
      · rcases closed member isMember with old | follows
        · rw [Marks.has_mark, Bool.or_eq_true, beq_iff_eq] at old
          rcases old with before | rfl
          · exact .inl before
          · exact .inr fun target isNext => found target (by simp [isNext])
        · exact .inr follows

/-- A round for every block below the bound is enough. -/
theorem blanks_ofIdSet_le (seen : IdSet) (bound : Nat) :
    (Marks.ofIdSet seen bound).blanks ≤ bound := by
  simpa using (Marks.ofIdSet seen bound).blanks_le

/-- A search keeps what it has seen. -/
theorem mem_explore_of_seen {next : BlockId → List BlockId} {bound : Nat} {work : List BlockId}
    {seen : IdSet} {id : BlockId} (old : id ∈ seen) (below : id < bound) :
    id ∈ explore next bound work seen := by
  have kept := (exploreFor_complete next bound work _ (blanks_ofIdSet_le seen bound)).1 id
    (Marks.has_ofIdSet.mpr (.inl old))
  simpa [explore, below] using kept

/-- A search finds what lies on its work list. -/
theorem mem_explore_of_work {next : BlockId → List BlockId} {bound : Nat} {work : List BlockId}
    {seen : IdSet} {id : BlockId} (listed : id ∈ work) (below : id < bound) :
    id ∈ explore next bound work seen := by
  have found := (exploreFor_complete next bound work _ (blanks_ofIdSet_le seen bound)).2.1 id listed
  simpa [explore, below] using found

/-- A search goes on from all that it adds. -/
theorem mem_explore_of_next {next : BlockId → List BlockId} {bound : Nat} {work : List BlockId}
    {seen : IdSet} {id target : BlockId} (found : id ∈ explore next bound work seen)
    (new : id ∉ seen) (follows : target ∈ next id) (below : target < bound) :
    target ∈ explore next bound work seen := by
  simp only [explore, Marks.mem_toIdSet, bound_exploreFor, Marks.bound_ofIdSet] at found ⊢
  rcases (exploreFor_complete next bound work _ (blanks_ofIdSet_le seen bound)).2.2 id found.2
    with old | closed
  · rcases Marks.has_ofIdSet.mp old with member | beyond
    · exact absurd member new
    · exact absurd found.1 (Nat.not_lt.mpr beyond)
  · exact ⟨below, closed target follows⟩

namespace Graph

/-- The targets of every block, in ascending order. -/
def successors (g : Graph) : Array (List BlockId) := g.blocks.map fun b => b.targets.toList

/-- The blocks that can be reached from the entry along edges of any kind. -/
def reachable (g : Graph) : IdSet :=
  let successors := g.successors
  explore (successors.getD · []) g.size [start] ∅

end Graph

end Unjump
