import Unjump.Proofs.Flow

/-!
Dominance is dominance along paths.

One block dominates another if both can be reached and every path from the entry to the second
passes the first. The back edges are the edges that may close a loop and lead to a dominating block,
each listed as often as there are such edges.
-/

namespace Unjump

/-- A list put together piece by piece holds a pair as often as the one piece does
that can hold it. -/
theorem count_flatMap_of_nodup {ids : List BlockId} (distinct : ids.Nodup)
    {pieces : BlockId → List (BlockId × BlockId)} {pair : BlockId × BlockId}
    (apart : ∀ id ≠ pair.1, pair ∉ pieces id) :
    (ids.flatMap pieces).count pair = if pair.1 ∈ ids then (pieces pair.1).count pair else 0 := by
  -- By induction on the blocks, of which at most one is the source.
  induction ids with
  | nil => rfl
  | cons id rest ih =>
    obtain ⟨fresh, distinct⟩ := List.nodup_cons.mp distinct
    rw [List.flatMap_cons, List.count_append, ih distinct]
    by_cases here : pair.1 = id
    · -- The piece is this one, and it does not come again.
      rw [if_neg (here ▸ fresh), if_pos (here ▸ List.mem_cons_self), here, Nat.add_zero]
    · rw [List.count_eq_zero.mpr (apart id (Ne.symm here)), Nat.zero_add]
      simp only [List.mem_cons, here, false_or]

/-- The inner edges to a block are the flow edges there that lead to no handler. -/
theorem Block.countP_innerEdges (b : Block) (target : BlockId) :
    b.innerEdges.countP (·.2 == target) =
      b.flowEdges.countP fun edge => !edge.1.isHandler && edge.2 == .block target := by
  -- An inner edge is a flow edge to a block, of whatever kind but to a handler.
  rw [innerEdges, List.countP_filterMap]
  refine List.countP_congr fun edge _ => ?_
  obtain ⟨kind, way⟩ := edge
  cases kind <;> cases way <;> simp [EdgeKind.isHandler]

namespace Graph

variable {g : Graph} {a b : BlockId}

/-- The edges from a block to another that may close a loop are its flow edges there, unless
it is a literal jump. -/
theorem count_loopEdges (g : Graph) (reachable : IdSet) (source target : BlockId) :
    (g.loopEdges reachable).count (source, target) =
    if source ∈ reachable ∧ (g.block source).type.isGoto = false then
      (g.block source).flowEdges.countP fun edge => !edge.1.isHandler && edge.2 == .block target
    else 0 := by
  have distinct : reachable.toList.Nodup := reachable.ascending.imp Nat.ne_of_lt
  rw [loopEdges, count_flatMap_of_nodup distinct]
  -- Of the piece of the source, the edges to the target are counted.
  · simp only [IdSet.mem_toList]
    cases isGoto : (g.block source).type.isGoto with
    | true => simp
    | false =>
      have own :
          ((g.block source).innerEdges.map fun edge => (source, edge.2)).count (source, target) =
            (g.block source).innerEdges.countP (·.2 == target) := by
        rw [List.count_eq_countP, List.countP_map]
        exact List.countP_congr fun edge _ => by simp
      simp only [Bool.false_eq_true, if_false, and_true, own, Block.countP_innerEdges]
  · -- Every piece holds edges of its own block alone.
    intro id other listed
    dsimp only at listed
    split at listed
    · cases listed
    · obtain ⟨edge, -, made⟩ := List.mem_map.mp listed
      exact other (congrArg Prod.fst made)

/--
Dominance is dominance along paths.

The climb from a block passes another one if both can be reached and every path to the first passes
the second, and above every block within reach stands its immediate dominator. The back edges are,
each as often as it occurs, the flow edges to no handler whose source is no literal jump and whose
target dominates the source.
-/
theorem dominates_iff_path_and_count_backEdges (g : Graph) :
    (∀ a b, (Flow.ofGraph g).dominates a b = true ↔ (∃ passed, g.Path a passed) ∧
      (∃ passed, g.Path b passed) ∧ ∀ passed, g.Path b passed → a ∈ passed) ∧
    (∀ b ≠ start, (∃ passed, g.Path b passed) →
      ∃ above, (b, above) ∈ (Flow.ofGraph g).dominators.rows ∧ g.IsImmediate above b) ∧
    ∀ source target, (Flow.ofGraph g).backEdges.count (source, target) =
      if (g.block source).type.isGoto = false ∧ (Flow.ofGraph g).dominates target source = true then
        (g.block source).flowEdges.countP fun edge => !edge.1.isHandler && edge.2 == .block target
      else 0 := by
  -- The climb is about paths, and so is what stands above a block.
  refine ⟨fun a b => dominates_iff_path, ?_, fun source target => ?_⟩
  · intro b notStart path
    obtain ⟨above, row⟩ := Dominators.exists_row (mem_reachable_iff_path.mpr path)
    exact ⟨above, row, Dominators.isImmediate_of_row row notStart⟩
  -- A target that dominates a source is one that the source is reached through.
  have counted := g.count_loopEdges g.reachable source target
  by_cases dominates : (Flow.ofGraph g).dominates target source = true
  · have isReachable : source ∈ g.reachable :=
      mem_reachable_iff_path.mpr (dominates_iff_path.mp dominates).2.1
    simp only [isReachable, true_and] at counted
    simp only [dominates, and_true, ← counted]
    -- The filter keeps every copy of the edge.
    exact List.count_filter dominates
  · rw [if_neg fun both => dominates both.2, List.count_eq_zero]
    intro isBack
    exact dominates (mem_backEdges_iff_dominates.mp isBack).2

end Graph

end Unjump
