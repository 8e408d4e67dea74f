import Mathlib.Logic.Relation
import Unjump.Flow
import Unjump.Proofs.Links

/-! Reachability as a statement about paths, and the search that decides it. -/

namespace Unjump

/-- A search finds nothing outside a set that holds what it starts
from and is closed under its steps. -/
theorem has_exploreFor (next : BlockId → List BlockId) (seen : IdSet) (Member : BlockId → Prop) :
    ∀ (rounds : Nat) (work : List BlockId) (marks : Marks),
      (∀ id ∈ seen, marks.has id = true) →
      (∀ id < marks.bound, marks.has id = true → Member id) →
      (∀ id ∈ work, id < marks.bound → Member id) →
      (∀ id, Member id → id ∉ seen → ∀ target ∈ next id, target < marks.bound → Member target) →
      ∀ id < marks.bound, (exploreFor next rounds work marks).has id = true → Member id := by
  -- By induction on the rounds, with the four assumptions about the marks and the work list
  -- as the invariant.
  intro rounds
  induction rounds with
  | zero => exact fun work marks _ old _ _ => old
  | succ rounds ih =>
    intro work marks seenMarked old listed closed
    rw [exploreFor]
    split
    · exact old
    · next id later rest =>
      -- The search takes the first block of its work list that has no mark.
      have isListed : ∀ other ∈ id :: later, other ∈ work := fun other member =>
        (List.dropWhile_sublist _).subset (rest ▸ member)
      have blank := not_has_of_dropWhile rest
      have below := Marks.lt_bound_of_not_has blank
      have found : Member id := listed id (isListed id List.mem_cons_self) below
      have unseen : id ∉ seen := fun member => by
        rw [seenMarked id member] at blank
        cases blank
      -- Only the marked block joins, and its next blocks lie in the set by closure.
      intro other inside marked
      refine ih (next id ++ later) (marks.mark id) ?_ ?_ ?_ ?_ other (by simpa using inside) marked
      · -- What was seen has marks still.
        intro member isSeen
        simp [seenMarked member isSeen]
      · -- A mark is an old one or the new one.
        intro member inside isMarked
        rw [Marks.has_mark, Bool.or_eq_true, beq_iff_eq] at isMarked
        rcases isMarked with before | rfl
        · exact old member (by simpa using inside) before
        · exact found
      · -- The work that is left is the new block's next blocks and the rest of the list.
        intro member isWork inside
        rcases List.mem_append.mp isWork with isNext | isLater
        · exact closed id found unseen member isNext (by simpa using inside)
        · exact listed member (isListed member (List.mem_cons_of_mem _ isLater))
            (by simpa using inside)
      · simpa using closed

/-- A search finds nothing outside a set that holds what it starts
from and is closed under its steps. -/
theorem explore_subset {next : BlockId → List BlockId} {bound : Nat} {work : List BlockId}
    {seen : IdSet} (Member : BlockId → Prop) (old : ∀ id ∈ seen, Member id)
    (listed : ∀ id ∈ work, id < bound → Member id)
    (closed : ∀ id, Member id → id ∉ seen → ∀ target ∈ next id, target < bound → Member target)
    {id : BlockId} (found : id ∈ explore next bound work seen) : Member id := by
  simp only [explore, Marks.mem_toIdSet, bound_exploreFor, Marks.bound_ofIdSet] at found
  -- Everything below the bound that has a mark at the start was seen before.
  refine has_exploreFor next seen Member bound work (.ofIdSet seen bound) ?_ ?_
    (by simpa using listed) (by simpa using closed) id (by simpa using found.1) found.2
  · exact fun member isSeen => Marks.has_ofIdSet.mpr (.inl isSeen)
  · intro member inside marked
    rcases Marks.has_ofIdSet.mp marked with isSeen | beyond
    · exact old member isSeen
    · exact absurd beyond (by simpa using inside)

/-- What a search finds lies below its bound. -/
theorem lt_of_mem_explore {next : BlockId → List BlockId} {bound : Nat} {work : List BlockId}
    {seen : IdSet} {id : BlockId} (found : id ∈ explore next bound work seen) : id < bound := by
  -- Only marks below the bound are collected.
  simp only [explore, Marks.mem_toIdSet, bound_exploreFor, Marks.bound_ofIdSet] at found
  exact found.1

namespace Graph

open Relation (ReflTransGen)

/-- Whether a block can be reached from the entry. -/
def Reached (g : Graph) (id : BlockId) : Prop := ReflTransGen g.Leads start id

/-- Whether a block can be reached from the entry on a path that avoids a given block. -/
def ReachedAvoiding (g : Graph) (avoided id : BlockId) : Prop :=
  start ≠ avoided ∧
    ReflTransGen (fun source target => g.Leads source target ∧ target ≠ avoided) start id

/-- The entry can be reached. -/
theorem reached_start (g : Graph) : g.Reached start := .refl

/-- What a block leads to can be reached if the block can. -/
theorem Reached.step {g : Graph} {source target : BlockId} (reached : g.Reached source)
    (leads : g.Leads source target) : g.Reached target := reached.tail leads

/-- The blocks that can be reached are blocks of the graph. -/
theorem Reached.lt_size {g : Graph} (linked : g.Linked) {id : BlockId} (reached : g.Reached id) :
    id < g.size := by
  -- The entry is a block of the graph, and so is whatever an edge leads to.
  cases reached with
  | refl => exact linked.nonempty
  | tail _ leads => exact linked.bounded leads

/-- The listed successors of a block are the blocks that it leads to. -/
theorem mem_successors {g : Graph} {source target : BlockId} :
    target ∈ g.successors.getD source [] ↔ g.Leads source target := by
  -- Beyond the graph there are no successors and no edges.
  by_cases known : source < g.size
  · have listed : g.successors.getD source [] = (g.block source).targets.toList := by
      simp [successors, Array.getD_eq_getD_getElem?, getElem?_blocks known]
    rw [listed, IdSet.mem_toList, mem_targets]
  · have absent : g.successors.getD source [] = [] := by
      have beyond : g.blocks.size ≤ source := Nat.le_of_not_lt known
      simp [successors, Array.getD_eq_getD_getElem?, Array.getElem?_eq_none beyond]
    rw [absent]
    exact ⟨fun listed => absurd listed List.not_mem_nil, fun leads => absurd leads.lt_size known⟩

/-- The paths along edges of every kind from the entry to a block, as lists of the blocks that they
pass, the last one first. -/
inductive Path (g : Graph) : BlockId → List BlockId → Prop
  | entry (known : start < g.size) : Path g start [start]
  | step {id next : BlockId} {passed : List BlockId} (path : Path g id passed)
      (leads : g.Leads id next) (known : next < g.size) : Path g next (next :: passed)

/-- A path passes the block that it leads to. -/
theorem Path.mem {g : Graph} {id : BlockId} {passed : List BlockId} (path : g.Path id passed) :
    id ∈ passed := by
  cases path <;> exact List.mem_cons_self

/-- What a path leads to can be reached. -/
theorem Path.reached {g : Graph} {id : BlockId} {passed : List BlockId} (path : g.Path id passed) :
    g.Reached id := by
  -- Along the path, one edge after the other.
  induction path with
  | entry => exact g.reached_start
  | step _ leads _ ih => exact ih.step leads

/-- The search from the entry finds exactly the blocks that a path leads to. -/
theorem mem_reachable_iff_path {g : Graph} {id : BlockId} :
    id ∈ g.reachable ↔ ∃ passed, g.Path id passed := by
  -- The search goes on with the successors inside the graph, as paths do.
  constructor
  · intro found
    refine explore_subset (fun id => ∃ passed, g.Path id passed)
      (fun id old => absurd old (IdSet.not_mem_empty id)) ?_ ?_ found
    · -- The search starts from the entry.
      intro id listed known
      obtain rfl := List.mem_singleton.mp listed
      exact ⟨_, .entry known⟩
    · -- It goes on along edges.
      rintro id ⟨passed, path⟩ - target listed known
      exact ⟨_, path.step (mem_successors.mp listed) known⟩
  · -- The other way round, along the path.
    rintro ⟨passed, path⟩
    induction path with
    | entry known => exact mem_explore_of_work (List.mem_singleton.mpr rfl) known
    | step _ leads known ih =>
      exact mem_explore_of_next ih (IdSet.not_mem_empty _) (mem_successors.mpr leads) known

section Bounded

variable {g : Graph} (bounded : ∀ {source target}, g.Leads source target → target < g.size)
    (nonempty : start < g.size)

include bounded nonempty

/-- The search from the entry finds exactly the blocks that can be reached, where edges stay
in the graph. -/
theorem mem_reachable_of_bounded {id : BlockId} : id ∈ g.reachable ↔ g.Reached id := by
  rw [mem_reachable_iff_path]
  refine ⟨fun ⟨_, path⟩ => path.reached, fun reached => ?_⟩
  -- Along the edges, each of which stays in the graph.
  induction reached with
  | refl => exact ⟨_, .entry nonempty⟩
  | tail _ leads ih =>
    obtain ⟨passed, path⟩ := ih
    exact ⟨_, path.step leads (bounded leads)⟩

/-- Where edges stay in the graph, a block can be reached around another
if a path leads there that does not pass the other. -/
theorem reachedAvoiding_iff_path {avoided id : BlockId} :
    g.ReachedAvoiding avoided id ↔ ∃ passed, g.Path id passed ∧ avoided ∉ passed := by
  -- By induction on either way, one block after the other.
  constructor
  · rintro ⟨differs, steps⟩
    induction steps with
    | refl => exact ⟨_, .entry nonempty, by simpa using Ne.symm differs⟩
    | tail _ last ih =>
      obtain ⟨passed, path, apart⟩ := ih
      exact ⟨_, path.step last.1 (bounded last.1), by simpa [apart] using Ne.symm last.2⟩
  · rintro ⟨passed, path, apart⟩
    induction path with
    | entry => exact ⟨fun same => apart (by simp [same]), .refl⟩
    | step path leads _ ih =>
      obtain ⟨differs, steps⟩ := ih fun member => apart (List.mem_cons_of_mem _ member)
      exact ⟨differs, steps.tail ⟨leads, fun same => apart (by simp [same])⟩⟩

end Bounded

/-- What the search finds can be reached. -/
theorem reached_of_mem_reachable {g : Graph} {id : BlockId} (found : id ∈ g.reachable) :
    g.Reached id :=
  let ⟨_, path⟩ := mem_reachable_iff_path.mp found
  path.reached

/-- In a mirrored graph, the search finds exactly the blocks that can be reached. -/
theorem mem_reachable {g : Graph} (mirrored : g.Mirrored) (nonempty : start < g.size)
    {id : BlockId} : id ∈ g.reachable ↔ g.Reached id :=
  mem_reachable_of_bounded mirrored.bounded nonempty

end Graph

/-- Which edges a walk may take, by the type of their source and by their kind. -/
abbrev EdgeFilter := BlockType → EdgeKind → Prop

/-- What is asked of a walk whose edges have to survive the forming of constructs: it may take the
edges that become the inside of a construct, and one that may follow literal jumps may follow
everything. -/
structure EdgeFilter.Lenient (allow : EdgeFilter) : Prop where
  next : ∀ type, allow type .next
  branch : ∀ type, type.isCondition → allow type .branch
  case : ∀ i, allow (.raw .switch) (.case i)
  handler : ∀ i, allow (.raw .tryBlock) (.handler i)
  call : allow (.structured .jsr) .branch → allow (.raw .jsr) .branch
  jump : ∀ type, type.isGoto → allow type .branch → ∀ type kind, allow type kind

/-- The walk along edges of every kind. -/
def EdgeFilter.all : EdgeFilter := fun _ _ => True

/-- The walk along edges of every kind meets all that is asked. -/
theorem EdgeFilter.all_lenient : EdgeFilter.all.Lenient := by
  constructor <;> intros <;> trivial

namespace Graph

open Relation (ReflTransGen)

/-- Whether an edge that a walk may take leads from one block to another. -/
def Step (g : Graph) (allow : EdgeFilter) (source target : BlockId) : Prop :=
  ∃ kind, allow (g.bare source).type kind ∧ (g.bare source).edge? kind = some (.block target)

/-- Whether a walk can go from one block to another. -/
abbrev Walk (g : Graph) (allow : EdgeFilter) : BlockId → BlockId → Prop :=
  ReflTransGen (g.Step allow)

/-- A step of a walk goes along an edge. -/
theorem Step.leads {g : Graph} {allow : EdgeFilter} {source target : BlockId}
    (step : g.Step allow source target) : g.Leads source target := by
  obtain ⟨kind, -, edge⟩ := step
  exact ⟨kind, edge⟩

/-- The walk along edges of every kind may take any edge. -/
theorem step_all {g : Graph} {source target : BlockId} :
    g.Step .all source target ↔ g.Leads source target :=
  ⟨Step.leads, fun ⟨kind, edge⟩ => ⟨kind, trivial, edge⟩⟩

/-- A block can be reached if a walk along edges of every kind leads there from the entry. -/
theorem reached_iff_walk {g : Graph} {id : BlockId} : g.Reached id ↔ g.Walk .all start id := by
  -- Both take the same steps.
  have same : g.Leads = g.Step .all := funext₂ fun _ _ => propext step_all.symm
  rw [Reached, same]

/-- A walk from a block that can be reached stays among those. -/
theorem Reached.walk {g : Graph} {allow : EdgeFilter} {source target : BlockId}
    (reached : g.Reached source) (walk : g.Walk allow source target) : g.Reached target := by
  -- Along the walk, one step after the other.
  induction walk with
  | refl => exact reached
  | tail _ step ih => exact ih.step step.leads

end Graph

end Unjump
