import Unjump.Construct.Jump
import Unjump.Proofs.Rewrite

/-! Turning one of several entries of a block into a literal jump. -/

namespace Unjump.Graph

variable {g h : Graph} {flow : Flow} {id : BlockId}

/-- Entering predecessors are the blocks with an edge to a block that is no jump to a label. -/
theorem mem_enteringPreds (mirrored : g.Mirrored) {pred : BlockId} :
    pred ∈ g.enteringPreds id ↔
      ∃ kind, kind ≠ .branch ∧ (g.bare pred).edge? kind = some (.block id) := by
  -- A predecessor counts if one of its edges to the block is no jump to a label.
  rw [enteringPreds, IdSet.mem_filter, mirrored.mirror, List.any_eq_true]
  constructor
  · rintro ⟨-, ⟨kind, target⟩, listed, fits⟩
    simp only [Bool.and_eq_true, bne_iff_ne, beq_iff_eq] at fits
    exact ⟨kind, fits.1, Block.mem_edges.mp (fits.2 ▸ listed)⟩
  · rintro ⟨kind, other, edge⟩
    exact ⟨⟨kind, edge⟩, (kind, .block id), Block.mem_edges.mpr edge, by simpa using other⟩

/-- A surplus entry is an entry. -/
theorem surplusSource?_mem {source : BlockId} (found : g.surplusSource? id = some source) :
    source ∈ g.enteringPreds id := by
  simp only [surplusSource?] at found
  -- Among several entries the last is found, and otherwise the one that closes a cycle.
  split at found
  · have listed := List.mem_of_getLast? found
    exact mem_byOffset.mp (List.mem_filter.mp listed).1
  · split at found
    · split at found
      · exact mem_byOffset.mp (List.mem_of_head? found)
      · cases found
    · cases found

/-- What becomes of a block whose surplus entry is turned into a literal jump. -/
theorem unshareEntry_cases (applied : g.unshareEntry flow id = some h) : ∃ source construct,
    (∀ id ∈ flow.reachable, (g.bare id).isPending = false) ∧ g.surplusSource? id = some source ∧
      (construct = .goto ∨ construct = .infiniteGoto) ∧
      (g.addGoto construct (g.block source).finish (.block id)).2.update source
        (·.replaceEntry (.block id) (.block g.size)) = h := by
  -- As long as any block is pending, entries are left alone.
  simp only [unshareEntry] at applied
  split at applied
  · cases applied
  · next settled =>
    obtain ⟨source, found, made⟩ := Option.map_eq_some_iff.mp applied
    refine ⟨source, _, fun id isReachable => ?_, found, ?_, made⟩
    · simp only [List.any_eq_true, not_exists, not_and, Bool.not_eq_true] at settled
      exact settled id (IdSet.mem_toList.mpr isReachable)
    · split
      · exact .inr rfl
      · exact .inl rfl

/-- The blocks of a graph after one entry of a block has become a literal jump. -/
theorem bare_unshare {source : BlockId} (known : source < g.size) (construct : Construct)
    (offset : Offset) (i : BlockId) :
    ((g.addGoto construct offset (.block id)).2.update source
      (·.replaceEntry (.block id) (.block g.size))).bare i =
      if i = source then (g.bare source).replaceEntry (.block id) (.block g.size)
      else if i = g.size then gotoBlock construct offset (.block id)
      else g.bare i := by
  -- The source is among the blocks from before.
  have inside : source < (g.addGoto construct offset (.block id)).2.size := by
    simpa using Nat.lt_succ_of_lt known
  rw [bare_update (·.replaceEntry (.block id) (.block g.size)) inside fun _ => rfl, bare_addGoto,
    bare_addGoto, if_neg (Nat.ne_of_lt known)]

/-- An entry that is no jump now leads to the literal jump, and all other edges stay. -/
theorem edge_replaceEntry {b : Block} {old new target : Target} {kind : EdgeKind}
    (edge : (b.replaceEntry old new).edge? kind = some target) :
    b.edge? kind = some target ∨ target = new := by
  -- All edges but jumps to a label are renamed.
  rw [Block.edge?_replaceEntry] at edge
  split at edge
  · exact .inl edge
  · obtain ⟨before, edge, renamed⟩ := Option.map_eq_some_iff.mp edge
    -- Of the renamed edges, those to the old target now lead to the new one.
    by_cases same : before = old
    · rw [same, Target.renamed_self] at renamed
      exact .inr renamed.symm
    · rw [Target.renamed_ne same] at renamed
      exact .inl (renamed ▸ edge)

/-- Blocks are added behind all others, so the graph stays linked when an entry leads
to the literal jump. -/
theorem Linked.unshare (linked : g.Linked) {source : BlockId} (leads : g.Leads source id)
    (construct : Construct) (offset : Offset) :
    ((g.addGoto construct offset (.block id)).2.update source
      (·.replaceEntry (.block id) (.block g.size))).Linked := by
  have known := leads.lt_size
  refine (linked.addGoto fun v same => by cases same; exact linked.behind leads).update
    (·.replaceEntry (.block id) (.block g.size)) (fun _ => rfl) (fun _ => rfl) ?_ ?_
  -- The edges of the source lead where they did or to the new block, which is behind the entry.
  · intro kind target edge
    rw [bare_addGoto, if_neg (Nat.ne_of_lt known)] at edge
    rcases edge_replaceEntry edge with before | isNew
    · have bounds := linked.behind ⟨kind, before⟩
      exact ⟨bounds.1, by simpa using Nat.lt_succ_of_lt bounds.2⟩
    · cases isNew
      exact ⟨linked.nonempty, by simp⟩
  · rintro rfl
    rw [bare_addGoto, if_neg (Nat.ne_of_lt known)]
    exact linked.rooted

/-- Turning an entry into a literal jump keeps walks and shapes, where both stand for its source. -/
theorem rewrite_unshareEntry (sound : g.Sound) (applied : g.unshareEntry flow id = some h) :
    ∃ source, Rewrite g h (g.standsFor source) := by
  obtain ⟨source, construct, -, found, isGoto, rfl⟩ := unshareEntry_cases applied
  obtain ⟨entering, -, enters⟩ := (mem_enteringPreds sound.toMirrored).mp (surplusSource?_mem found)
  -- The literal jump leads where the source did, so all that is asked of a detour holds.
  have leads : g.Leads source id := ⟨entering, enters⟩
  have known := leads.lt_size
  have goto : (BlockType.structured construct).isGoto = true := by
    rcases isGoto with rfl | rfl <;> rfl
  have blocks := @bare_unshare g id source known construct (g.block source).finish
  have own := (blocks source).trans (if_pos rfl)
  refine ⟨source, .detour sound (sound.toLinked.unshare leads construct _) (by simp) goto
    ?_ ?_ ?_ ?_ ?_⟩
  · intro u old other
    rw [blocks, if_neg other, if_neg (Nat.ne_of_lt old)]
  · intro u isNew bounded
    have same : u = g.size := Nat.le_antisymm (Nat.le_of_lt_succ (by simpa using bounded)) isNew
    refine ⟨(g.block source).finish, id, leads, ?_⟩
    rw [blocks, if_neg (same ▸ Nat.ne_of_gt known), if_pos same]
  · intro allow lenient kind target allowed edge
    rw [own] at allowed edge
    rcases edge_replaceEntry edge with before | isNew
    · exact .inl ⟨kind, allowed, before⟩
    · cases isNew
      exact .inr (Nat.le_refl _)
  · intro reached
    rw [own]
    refine (sound.shaped reached).congr rfl fun kind => ?_
    rw [Block.edge?_replaceEntry]
    split <;> simp
  · rw [own]
    rfl

end Unjump.Graph
