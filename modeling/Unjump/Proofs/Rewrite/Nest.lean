import Unjump.Construct.Jump
import Unjump.Proofs.Rewrite.Plain

/-! Chains nested in the block that leads to them, and literal jumps where they cannot be. -/

namespace Unjump.Graph

variable {g h : Graph} {flow : Flow} {id : BlockId}

/-- The graph in which a block has changed and some chains that ran
on into blocks end with exits. -/
structure Nested (ways : Exit → Prop) (arms : List Arm) (g : Graph) (id : BlockId) (c : Block)
    (h : Graph) : Prop where
  linked : h.Linked
  size : h.size = g.size
  own : h.bare id = c
  others : ∀ i, i ≠ id → h.bare i = g.bare i ∨ (∃ arm ∈ arms, joining? arm = some i) ∧
    ∃ way, ways way ∧ h.bare i = { g.bare i with next := some (.exit way) }

/-- Chains end before a block that changes so that it leads to blocks behind the entry. -/
theorem Ended.nested {ways : Exit → Prop} {arms : List Arm} (ended : Ended ways arms g h)
    (linked : g.Linked) (known : id < g.size) (notStart : id ≠ start)
    (lasts : ∀ arm ∈ arms, joining? arm ≠ some id) (change : Block → Block)
    (pure : ∀ b, (change b).bare = change b.bare) (kept : ∀ b, (change b).preds = b.preds)
    (behind : ∀ kind target, (change (g.bare id)).edge? kind = some (.block target) →
      start < target ∧ target < g.size) :
    Nested ways arms g id (change (g.bare id)) (h.update id change) := by
  have inside : id < h.size := ended.size ▸ known
  -- No chain ends at the block itself, so it is as it was until it changes.
  have same : h.bare id = g.bare id :=
    (ended.blocks id).resolve_right fun ⟨⟨arm, listed, joins⟩, _⟩ => lasts arm listed joins
  have blocks := bare_update change inside pure
  refine ⟨?_, ?_, ?_, ?_⟩
  · -- The block leads behind the entry, as the graph did before.
    refine (ended.linked linked).update change pure kept ?_ fun isStart => absurd isStart notStart
    intro kind target edge
    rw [same] at edge
    have bounds := behind kind target edge
    exact ⟨bounds.1, ended.size ▸ bounds.2⟩
  · rw [size_update, ended.size]
  · rw [blocks, if_pos rfl, same]
  · intro i other
    rw [blocks, if_neg other]
    exact ended.blocks i

/-- Chains can be nested in a block that then leads where it could lead before. -/
theorem Nested.rewrite {ways : Exit → Prop} {arms : List Arm} {c : Block}
    (nested : Nested ways arms g id c h) (sound : g.Sound) (known : id < g.size)
    (lasts : ∀ arm ∈ arms, ∀ last, joining? arm = some last → (g.bare last).next.isSome)
    (edges : ∀ {allow : EdgeFilter}, allow.Lenient → ∀ kind target, allow c.type kind →
      c.edge? kind = some (.block target) → g.Walk allow id target)
    (shaped : g.Reached id → c.Shaped) (code : c.code = (g.bare id).code) :
    Rewrite g h (g.standsFor id) := by
  -- No block is new, so the cases of new blocks are void.
  refine .form nested.linked (Nat.le_of_eq nested.size.symm) ?_ ?_ ?_ ?_ ?_
  · -- A block beside the one that changes is as it was, or ends with an exit.
    intro u old other reached
    rcases nested.others u other with same | ⟨⟨arm, listed, joins⟩, way, -, ended⟩
    · exact same ▸ inherits_self sound.toLinked (sound.shaped reached)
    · exact ended ▸ (inherits_self sound.toLinked (sound.shaped reached)).ended
        (lasts arm listed u joins) way
  · -- The block that changes leads where it could lead.
    rintro allow lenient u (rfl | isNew) kind target allowed edge
    · have inside := nested.size ▸ nested.linked.bounded ⟨kind, edge⟩
      rw [nested.own] at allowed edge
      rw [standsFor_old u inside]
      exact edges lenient kind target allowed edge
    · exact absurd (lt_size_of_edge edge) (Nat.not_lt.mpr (nested.size ▸ isNew))
  · rintro u bounded (rfl | isNew) reached
    · exact nested.own ▸ shaped reached
    · exact absurd bounded (Nat.not_lt.mpr (nested.size ▸ isNew))
  · -- Code stays where it is.
    intro u old
    by_cases same : u = id
    · rw [same, nested.own, code]
    · rcases nested.others u same with kept | ⟨-, way, -, ended⟩
      · rw [kept]
      · rw [ended]
  · exact fun u isNew bounded => absurd bounded (Nat.not_lt.mpr (nested.size ▸ isNew))

/-- The blocks that literal jumps result in are new. -/
theorem Jumps.fresh {base : Graph} {construct : Construct} {offset : Offset}
    {targets results : List Target} (jumps : Jumps construct offset targets results base g)
    {v : BlockId} (listed : .block v ∈ results) : base.size ≤ v ∧ v < g.size := by
  -- An exit results in itself, so a block among the results is that of a literal jump.
  obtain ⟨i, bound, isResult⟩ := List.mem_iff_getElem.mp listed
  have bound' : i < targets.length := jumps.results.length_eq ▸ bound
  rcases jumps.results.get bound' bound with ⟨way, isExit, same⟩ | ⟨w, j, -, isNew,
    bounded, same, -⟩
  · simp only [List.get_eq_getElem, isResult] at same
    simp only [List.get_eq_getElem] at isExit
    rw [isExit] at same
    cases same
  · simp only [List.get_eq_getElem, isResult] at same
    cases same
    exact ⟨isNew, bounded⟩

/-- A block can lead to literal jumps instead of the blocks that it led to. -/
theorem Jumps.rewrite {base : Graph} {construct : Construct} {offset : Offset}
    {targets results : List Target} (jumps : Jumps construct offset targets results base g)
    (isGoto : (BlockType.structured construct).isGoto) (sound : base.Sound) (known : id < base.size)
    (notStart : id ≠ start) (change : Block → Block) (pure : ∀ b, (change b).bare = change b.bare)
    (kept : ∀ b, (change b).preds = b.preds) (leads : ∀ v, .block v ∈ targets → base.Leads id v)
    (edges : ∀ kind target, (change (base.bare id)).edge? kind = some target → target ∈ results)
    (shaped : base.Reached id → (change (base.bare id)).Shaped)
    (code : (change (base.bare id)).code = (base.bare id).code) :
    Rewrite base (g.update id change) (base.standsFor id) := by
  -- The block goes to new jumps only, and each of them leads where an edge of the block led.
  have inside : id < g.size := Nat.lt_of_lt_of_le known jumps.grows
  have blocks := bare_update change inside pure
  have own : (g.update id change).bare id = change (base.bare id) := by
    rw [blocks, if_pos rfl, jumps.old id known]
  refine .detour sound ?_ (by simpa using jumps.grows) isGoto ?_ ?_ ?_
    (fun reached => own ▸ shaped reached) (own ▸ code)
  · -- The graph stays linked, since the block leads to new blocks behind the entry.
    refine jumps.linked.update change pure kept ?_ fun isStart => absurd isStart notStart
    intro kind target edge
    rw [jumps.old id known] at edge
    obtain ⟨isNew, bounded⟩ := jumps.fresh (edges kind _ edge)
    exact ⟨Nat.lt_of_lt_of_le sound.nonempty isNew, bounded⟩
  · intro u old other
    rw [blocks, if_neg other, jumps.old u old]
  · -- A new block is a literal jump to where the block led.
    intro u isNew bounded
    obtain ⟨v, listed, same⟩ := jumps.gotos u isNew (by simpa using bounded)
    exact ⟨offset, v, leads v listed,
      by rw [blocks, if_neg (Nat.ne_of_gt (Nat.lt_of_lt_of_le known isNew)), same]⟩
  · intro allow lenient kind target allowed edge
    rw [own] at edge
    exact .inr (jumps.fresh (edges kind _ edge)).1

end Unjump.Graph
