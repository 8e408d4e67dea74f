import Mathlib.Data.List.Perm.Subperm
import Unjump.Proofs.Rewrite.Loop

/-!
Making a loop leaves fewer back edges, as long as no code behind the exits of the loop leads
to its header.

The back edges to the header end their round inside the loop. Of the others each is kept at its
source, and the block after the loop is a header only if it was one.
-/

namespace Unjump

/-- A list without repetitions is shorter than another one if its elements take different places
there and leave one empty. -/
theorem length_lt_of_place {α : Type} [DecidableEq α] {l m : List α} {x : α} (place : α → α)
    (distinct : l.Nodup) (into : ∀ i ∈ l, place i ∈ m)
    (apart : ∀ i ∈ l, ∀ j ∈ l, place i = place j → i = j) (listed : x ∈ m)
    (gone : ∀ i ∈ l, place i ≠ x) : l.length < m.length := by
  -- The places are distinct, and all of them are among the elements other than the one left empty.
  have nodup : (l.map place).Nodup :=
    distinct.map_on fun i first j second same => apart i first j second same
  have inside : l.map place ⊆ m.erase x := by
    intro placed isPlaced
    obtain ⟨i, isElement, rfl⟩ := List.mem_map.mp isPlaced
    exact (List.mem_erase_of_ne (gone i isElement)).mpr (into i isElement)
  have shorter := (nodup.subperm inside).length_le
  rw [List.length_map, List.length_erase_of_mem listed] at shorter
  exact Nat.lt_of_le_of_lt shorter (Nat.sub_one_lt (Nat.ne_of_gt (List.length_pos_of_mem listed)))

/-- Along which edges control leaves a block depends on its type and on whether it has a branch. -/
theorem Block.flows_congr {b c : Block} (type : c.type = b.type)
    (branch : c.branch.isSome = b.branch.isSome) (kind : EdgeKind) :
    c.flows kind = b.flows kind := by
  -- Whether a block is an open test depends on no more.
  have opens : c.isOpenCondition = b.isOpenCondition := by
    rw [isOpenCondition, isOpenCondition, type, branch]
  unfold flows
  rw [type, opens]

namespace Graph

variable {g h : Graph} {header : BlockId} {core body : IdSet} {after : Option BlockId}

section Arcs

/-- The back edges with their sources and kinds. -/
def backArcs (g : Graph) : List (BlockId × EdgeKind × BlockId) :=
  (g.innerEdgesOf (g.reachable.filter fun id => !(g.block id).type.isGoto)).filter fun arc =>
    (Flow.ofGraph g).backEdges.contains (arc.1, arc.2.2)

/-- The edges that may close a loop, with their kinds. -/
theorem loopEdges_eq (g : Graph) (reachable : IdSet) : g.loopEdges reachable =
    (g.innerEdgesOf (reachable.filter fun id => !(g.block id).type.isGoto)).map fun arc =>
      (arc.1, arc.2.2) := by
  -- Both skip literal jumps, one block after the other.
  simp only [loopEdges, innerEdgesOf, IdSet.filter, List.map_flatMap, List.map_map]
  induction reachable.toList with
  | nil => rfl
  | cons id rest ih =>
    rw [List.flatMap_cons, ih, List.filter_cons]
    cases isGoto : (g.block id).type.isGoto with
    | true => simp
    | false => simp [Function.comp_def]

/-- There are as many back edges with their kinds as there are back edges. -/
theorem length_backEdges (g : Graph) : (Flow.ofGraph g).backEdges.length = g.backArcs.length := by
  -- Back edges are edges that pass a test.
  obtain ⟨test, filtered⟩ :
      ∃ test, (Flow.ofGraph g).backEdges = (g.loopEdges g.reachable).filter test := ⟨_, rfl⟩
  rw [backArcs, filtered, loopEdges_eq, List.filter_map, List.length_map]
  refine congrArg List.length (List.filter_congr fun arc listed => ?_)
  -- An edge that may close a loop is listed as a back edge exactly if it passes the test.
  have isEdge : (arc.1, arc.2.2) ∈
      (g.innerEdgesOf (g.reachable.filter fun id => !(g.block id).type.isGoto)).map fun arc =>
        (arc.1, arc.2.2) :=
    List.mem_map.mpr ⟨arc, listed, rfl⟩
  rw [Bool.eq_iff_iff, List.contains_iff_mem, ← List.filter_map, List.mem_filter]
  exact ⟨fun passes => ⟨isEdge, passes⟩, fun both => both.2⟩

/-- A back edge under its kind. -/
theorem mem_backArcs (linked : g.Linked) {source target : BlockId} {kind : EdgeKind} :
    (source, kind, target) ∈ g.backArcs ↔ g.Reached source ∧ (g.bare source).type.isGoto = false ∧
      (kind, target) ∈ (g.bare source).innerEdges ∧ g.Dominates target source := by
  rw [backArcs, List.mem_filter, mem_innerEdgesOf, IdSet.mem_filter, List.contains_iff_mem,
    mem_backEdges linked.toMirrored, mem_reachable linked.toMirrored linked.nonempty,
    Bool.not_eq_true']
  -- What is asked of the edge without its kind follows from what is asked of it with its kind.
  constructor
  · rintro ⟨⟨⟨reached, notGoto⟩, inner⟩, -, -, -, dominates⟩
    exact ⟨reached, notGoto, inner, dominates⟩
  · rintro ⟨reached, notGoto, inner, dominates⟩
    exact ⟨⟨⟨reached, notGoto⟩, inner⟩, reached, notGoto, ⟨kind, inner⟩, dominates⟩

/-- The back edges by their sources and kinds, which tell them apart. -/
def backPlaces (g : Graph) : List (BlockId × EdgeKind) := g.backArcs.map fun arc => (arc.1, arc.2.1)

/-- There are as many places as back edges. -/
theorem length_backPlaces (g : Graph) :
    g.backPlaces.length = (Flow.ofGraph g).backEdges.length := by
  -- Each edge has its place.
  rw [backPlaces, List.length_map, length_backEdges]

/-- No two back edges have the same place. -/
theorem nodup_backPlaces (g : Graph) : g.backPlaces.Nodup :=
  (nodup_innerEdgesOf g _).sublist (List.filter_sublist.map _)

/-- The places of back edges are those that some back edge has. -/
theorem mem_backPlaces {source : BlockId} {kind : EdgeKind} :
    (source, kind) ∈ g.backPlaces ↔ ∃ target, (source, kind, target) ∈ g.backArcs := by
  -- The target is left out of the place.
  simp [backPlaces]

end Arcs

section Paths

variable (wrapped : Wrapped g header body after h) (isBody : LoopBody g core after body)
    (sealed : ∀ id ∈ body, id ∉ core → ¬ g.Leads id header)
    (notStart : header ≠ start) (dominated : ∀ id ∈ core, ¬ g.ReachedAvoiding header id)

include wrapped

include isBody in
/-- The edges of code behind the exits of a loop stay as they are if they do not lead
to the header. -/
theorem Wrapped.tail_kept {source target : BlockId} (member : source ∈ body)
    (outside : source ∉ core) (leads : g.Leads source target) (notHeader : target ≠ header) :
    h.Leads source target := by
  obtain ⟨kind, edge⟩ := leads
  refine ⟨kind, ?_⟩
  by_cases inner : (kind, target) ∈ (g.bare source).innerEdges
  · -- The code flows on inside the body only, so the edge is not rerouted.
    have stays :=
      isBody.closed source member outside kind target (Block.mem_innerEdges.mp inner).1 edge
    have notAfter : some target ≠ after := isBody.apart target stays.1 stays.2
    have result := wrapped.rerouted source member kind target inner
    simpa [RerouteTo, Rerouting.ofEdge, notHeader, notAfter, stays.1] using result
  -- An edge that control does not follow is not looked at.
  · rw [wrapped.kept source member kind, edge]
    intro other isInner
    have same := (Block.mem_innerEdges.mp isInner).2.2
    rw [edge] at same
    cases same
    exact inner isInner

include isBody sealed in
/-- The edges of code behind the exits of a loop stay as they are, and none leads to the header. -/
theorem Wrapped.tail_leads {source target : BlockId} (member : source ∈ body)
    (outside : source ∉ core) (leads : g.Leads source target) :
    h.Leads source target ∧ target ≠ header := by
  -- By assumption no such edge leads to the header.
  have notHeader : target ≠ header := fun same => sealed source member outside (same ▸ leads)
  exact ⟨wrapped.tail_kept isBody member outside leads notHeader, notHeader⟩

/-- The edges of a block outside a loop stay as they are unless they lead to the header. -/
theorem Wrapped.outer_leads {source target : BlockId} (outside : source ∉ body)
    (leads : g.Leads source target) :
    h.Leads source (if target = header then g.size else target) := by
  -- In the place of the header stands the loop, which is the first new block.
  have known := leads.lt_size
  obtain ⟨kind, edge⟩ := leads
  refine ⟨kind, ?_⟩
  rw [wrapped.outside source known outside, edge, Option.map_some]
  split
  · next same => rw [same, Target.renamed_self]
  · next other => rw [Target.renamed_ne (by simpa using other)]

/-- Where an edge of the loop led, the loop leads, or the block itself, perhaps
by a literal jump. -/
theorem Wrapped.core_leads {source target : BlockId} (member : source ∈ body)
    (leads : g.Leads source target) :
    target = header ∨ some target = after ∨ h.Leads source target ∨
      ∃ goto, g.size < goto ∧ h.Leads source goto ∧ h.Leads goto target := by
  -- The edge is one along which the loop runs, or another one.
  obtain ⟨kind, edge⟩ := leads
  by_cases inner : (kind, target) ∈ (g.bare source).innerEdges
  -- The four ways a jump of the body is rerouted, in the order `Rerouting.ofEdge` tries them.
  · have result := wrapped.rerouted source member kind target inner
    unfold RerouteTo Rerouting.ofEdge at result
    by_cases isHeader : target = header
    · exact .inl isHeader
    · by_cases isAfter : some target = after
      · exact .inr (.inl isAfter)
      · simp only [isHeader, isAfter, if_false] at result
        by_cases stays : target ∈ body
        · simp only [stays, if_true] at result
          exact .inr (.inr (.inl ⟨kind, result⟩))
        · simp only [stays, if_false] at result
          obtain ⟨goto, offset, isNew, result, isGoto⟩ := result
          refine .inr (.inr (.inr ⟨goto, isNew, ⟨kind, result⟩, .branch, ?_⟩))
          rw [isGoto]
          rfl
  -- An edge that is not one of the body's inner edges is left as it stands.
  · refine .inr (.inr (.inl ⟨kind, ?_⟩))
    rw [wrapped.kept source member kind, edge]
    intro other isInner
    have same := (Block.mem_innerEdges.mp isInner).2.2
    rw [edge] at same
    cases same
    exact inner isInner

/-- A loop leads to its header, and to the block after it. -/
theorem Wrapped.loop_leads :
    h.Leads g.size header ∧ ∀ last, some last = after → h.Leads g.size last := by
  -- These are the two edges that the loop is made with.
  refine ⟨⟨.sub1, ?_⟩, fun last isLast => ⟨.next, ?_⟩⟩
  · rw [wrapped.loopEdges, if_pos rfl]
  · rw [wrapped.loopEdges, if_neg (by simp), if_pos rfl, ← isLast]
    rfl

include isBody sealed dominated

include notStart in
/-- A path around an old block is one in the new graph,
and if it passes the header then it passes the loop. -/
theorem Wrapped.around {avoided id : BlockId} (known : avoided < g.size)
    (around : g.ReachedAvoiding avoided id) :
    h.ReachedAvoiding avoided id ∧
      (g.ReachedAvoiding header id ∨ h.ReachedAvoiding avoided g.size) := by
  have apart : ∀ {new}, g.size ≤ new → new ≠ avoided :=
    fun isNew => Nat.ne_of_gt (Nat.lt_of_lt_of_le known isNew)
  obtain ⟨entersHeader, entersAfter⟩ := wrapped.loop_leads
  -- By induction on the path: either it has avoided the header so far, or the loop is reached too.
  refine around.induction (fun id => h.ReachedAvoiding avoided id ∧
    (g.ReachedAvoiding header id ∨ h.ReachedAvoiding avoided g.size)) ?_ ?_
  · intro differs
    exact ⟨⟨differs, .refl⟩, .inl ⟨Ne.symm notStart, .refl⟩⟩
  · intro source target before ⟨reached, past⟩ leads other
    by_cases inCore : source ∈ core
    · -- The path has passed the header, so it passes the loop in the new graph.
      have loop : h.ReachedAvoiding avoided g.size := past.resolve_left (dominated source inCore)
      refine ⟨?_, .inr loop⟩
      rcases wrapped.core_leads (isBody.holds source inCore) leads
        with rfl | isAfter | kept | ⟨goto, isNew, first, last⟩
      · exact loop.step entersHeader other
      · exact loop.step (entersAfter target isAfter) other
      · exact reached.step kept other
      · exact (reached.step first (apart (Nat.le_of_lt isNew))).step last other
    · by_cases inBody : source ∈ body
      -- Code behind the exits keeps its edges, of which none leads to the header.
      · obtain ⟨kept, notHeader⟩ := wrapped.tail_leads isBody sealed inBody inCore leads
        exact ⟨reached.step kept other, past.imp_left (·.step leads notHeader)⟩
      · have renamed := wrapped.outer_leads inBody leads
        split at renamed
        · next same =>
          have loop := reached.step renamed (apart (Nat.le_refl _))
          exact ⟨loop.step (same ▸ entersHeader) other, .inr loop⟩
        · next differs => exact ⟨reached.step renamed other, past.imp_left (·.step leads differs)⟩

/-- A path around the header is a path around the loop. -/
theorem Wrapped.around_loop {id : BlockId}
    (bounded : ∀ {source target}, g.Leads source target → target < g.size)
    (nonempty : start < g.size) (around : g.ReachedAvoiding header id) :
    h.ReachedAvoiding g.size id := by
  -- Along the path, which comes to no block of the core.
  refine around.induction (fun id => h.ReachedAvoiding g.size id) ?_ ?_
  · exact fun _ => ⟨Nat.ne_of_lt nonempty, .refl⟩
  · intro source target before reached leads other
    have old : target ≠ g.size := Nat.ne_of_lt (bounded leads)
    -- No block of the core lies on the path.
    have outside : source ∉ core := fun member => dominated source member before
    by_cases inBody : source ∈ body
    · exact reached.step (wrapped.tail_leads isBody sealed inBody outside leads).1 old
    · have kept := wrapped.outer_leads inBody leads
      rw [if_neg other] at kept
      exact reached.step kept old

end Paths

section WrapLoop

variable (sound : g.Sound) (isHeader : header ∈ (Flow.ofGraph g).headers)

include sound isHeader

/-- If the block after a loop dominates the header, then it is entered from the loop
by an edge that is no literal jump. -/
theorem exists_exit_of_dominates {last : BlockId} (found : g.loopAfter header = some last)
    (dominates : g.Dominates last header) :
    ∃ id ∈ g.loopCore header, (g.bare id).type.isGoto = false ∧
      ∃ kind, (kind, last) ∈ (g.bare id).innerEdges := by
  -- The block after a loop is one of its exits.
  obtain ⟨⟨id, member, kind, inner⟩, outside⟩ := loopAfter_cases found
  have linked := sound.toLinked
  have reached := (header_reached linked isHeader).1
  have inCore : header ∈ g.loopCore header := header_mem_naturalLoop (reached.lt_size linked)
  have differ : header ≠ last := fun same => outside (same ▸ inCore)
  -- A member of the loop other than the header flows on to it, so it is no literal jump.
  rcases naturalLoop_cases linked.toMirrored member with rfl | ⟨-, notGoto, -⟩
  · refine ⟨id, member, ?_, kind, inner⟩
    refine Bool.eq_false_iff.mpr fun isGoto => ?_
    -- A literal jump as a header leads to the block after the loop only.
    have only : ∀ target, g.Leads id target → target = last := by
      rintro target ⟨other, edge⟩
      have isBranch := (sound.shaped reached).jumps isGoto
      have edge' := (Block.mem_innerEdges.mp inner).2.2
      rw [isBranch other (by simp [edge])] at edge
      rw [isBranch kind (by simp [edge'])] at edge'
      cases edge.symm.trans edge'
      rfl
    have around : g.ReachedAvoiding id last :=
      (reached.around_or_around differ).resolve_left (dominates.resolve_left (Ne.symm differ))
    -- So everything can be reached around the header, and nothing leads back to it.
    have everything : ∀ other, g.Reached other → other = id ∨ g.ReachedAvoiding id other := by
      intro other path
      induction path with
      | refl => exact .inr ⟨Ne.symm (header_reached linked isHeader).2, .refl⟩
      | @tail source target _ leads ih =>
        by_cases same : target = id
        · exact .inl same
        · rcases ih with rfl | before
          · exact .inr (only target leads ▸ around)
          · exact .inr (before.step leads same)
    obtain ⟨source, isBack⟩ := mem_headers.mp isHeader
    obtain ⟨reachedSource, notGoto, -, dominated⟩ := (mem_backEdges linked.toMirrored).mp isBack
    rcases everything source reachedSource with rfl | before
    · exact Bool.false_ne_true (notGoto.symm.trans isGoto)
    · rcases dominated with rfl | never
      · exact before.ne rfl
      · exact never before
  · exact ⟨id, member, notGoto, kind, inner⟩

end WrapLoop

/-- The inner edges of an old block in the new graph are inner edges
of the old graph under the same kind. -/
theorem Wrapped.old_innerEdge (wrapped : Wrapped g header body after h) (linked : g.Linked)
    {source target : BlockId} {kind : EdgeKind} (known : source < g.size)
    (inner : (kind, target) ∈ (h.bare source).innerEdges) :
    (kind, g.loopBack header h target) ∈ (g.bare source).innerEdges := by
  -- What the edge leads to stands for what it led to before.
  obtain ⟨flows, notHandler, edge⟩ := Block.mem_innerEdges.mp inner
  rw [Block.flows_congr (wrapped.type source known) (wrapped.isSome_edge? known .branch)] at flows
  exact Block.mem_innerEdges.mpr ⟨flows, notHandler, wrapped.old_edge linked.toMirrored known edge⟩

/-- A literal jump is entered from its source only, so that it does not dominate the source. -/
theorem Wrapped.not_dominates_goto (wrapped : Wrapped g header body after h)
    (nonempty : start < g.size) {source goto : BlockId} {kind : EdgeKind} (old : source < g.size)
    (isNew : g.size < goto) (reached : h.Reached source)
    (edge : (h.bare source).edge? kind = some (.block goto)) : ¬ h.Dominates goto source := by
  -- A path to the source would have to pass the jump, which only the source enters.
  intro dominates
  obtain ⟨_, -, _, _, _, -, -, -, -, only⟩ :=
    wrapped.gotos goto isNew (wrapped.mirrored.bounded ⟨kind, edge⟩)
  have differ : source ≠ goto := Nat.ne_of_lt (Nat.lt_trans old isNew)
  rcases reached.around_or_around differ with around | ⟨differs, path⟩
  · exact absurd around (dominates.resolve_left (Ne.symm differ))
  · -- The last step of a path to the jump around its source would start at its source.
    rcases path.cases_tail with isStart | ⟨previous, before, ⟨other, enters⟩, -⟩
    · exact absurd (isStart ▸ nonempty) (Nat.not_lt_of_gt isNew)
    · have around : h.ReachedAvoiding source previous := ⟨differs, before⟩
      exact absurd ((only previous other enters).1.trans (only source kind edge).1.symm) around.ne

/-- A back edge of a graph with a new loop is a back edge of the old graph at the same place, or
leads from the loop to the block after it. -/
theorem backArc_cases (sound : g.Sound) (applied : g.wrapLoop (Flow.ofGraph g) header = some h)
    (sealed : ∀ id ∈ g.bodyOfLoop header, id ∉ g.loopCore header → ¬ g.Leads id header)
    {source target : BlockId} {kind : EdgeKind} (isBack : (source, kind, target) ∈ h.backArcs) :
    (source < g.size ∧ target < g.size ∧ (source, kind, target) ∈ g.backArcs) ∨
      (source = g.size ∧ kind = .next ∧ g.loopAfter header = some target ∧
        g.Dominates target header) := by
  have linked := sound.toLinked
  have wrapped := wrapped_wrapLoop sound.toMirrored applied
  have rewrite := rewrite_wrapLoop sound applied
  obtain ⟨isHeader, -⟩ := wrapLoop_cases applied
  have isBody := loopBody_bodyOfLoop sound.toMirrored isHeader
  obtain ⟨reachedHeader, notStart⟩ := header_reached linked isHeader
  have dominated : ∀ id ∈ g.loopCore header, ¬ g.ReachedAvoiding header id := fun id member =>
    naturalLoop_dominated linked.toMirrored member
  have covered : ∀ last, g.loopAfter header = some last → g.Walk .all header last :=
    fun last found => walk_loopAfter sound.toMirrored isHeader found
  obtain ⟨reached, notGoto, inner, dominates⟩ := (mem_backArcs (wrapped.linked linked)).mp isBack
  obtain ⟨flows, notHandler, edge⟩ := Block.mem_innerEdges.mp inner
  -- The source is an old block, the loop, or a literal jump, which has no back edges.
  rcases Nat.lt_trichotomy source g.size with old | isLoop | isGoto
  · have reachedOld := rewrite.reached_old covered sound.nonempty old reached
    have innerOld := wrapped.old_innerEdge linked old inner
    rw [wrapped.type source old] at notGoto
    rcases Nat.lt_trichotomy target g.size with oldTarget | isLoop | isNew
    · refine .inl ⟨old, oldTarget, (mem_backArcs linked).mpr ⟨reachedOld, notGoto, ?_, ?_⟩⟩
      · rwa [Wrapped.loopBack_old oldTarget] at innerOld
      · exact dominates.imp_right fun never around =>
          never (wrapped.around isBody sealed notStart dominated oldTarget around).1
    · -- What led back to the header is part of the loop, and does not lead there any more.
      subst isLoop
      rw [wrapped.loopBack_loop] at innerOld
      have never := dominates.resolve_left (Nat.ne_of_gt old)
      have isBack : (source, header) ∈ (Flow.ofGraph g).backEdges :=
        (mem_backEdges linked.toMirrored).mpr ⟨reachedOld, notGoto, ⟨kind, innerOld⟩,
          .inr fun around => never
            (wrapped.around_loop isBody sealed dominated linked.bounded linked.nonempty around)⟩
      have member := isBody.holds source (source_mem_naturalLoop linked.toMirrored isBack)
      have result := wrapped.rerouted source member kind header innerOld
      rw [edge] at result
      simp [RerouteTo, Rerouting.ofEdge] at result
    · exact absurd dominates (wrapped.not_dominates_goto sound.nonempty old isNew reached edge)
  · subst isLoop
    -- Control leaves the loop for the block after it only.
    have isNext : kind = .next := by
      cases kind <;> simp [Block.flows, wrapped.loopType, Block.isOpenCondition,
        BlockType.isCondition, BlockType.isGoto] at flows ⊢
    subst isNext
    rw [wrapped.loopEdges] at edge
    obtain ⟨last, found, same⟩ := Option.map_eq_some_iff.mp ((if_neg (by simp)).symm.trans edge)
    cases same
    have known := wrapped.ends _ found
    have never := dominates.resolve_left (Nat.ne_of_lt known)
    refine .inr ⟨rfl, rfl, found, .inr fun around => ?_⟩
    rcases (wrapped.around isBody sealed notStart dominated known around).2 with impossible | loop
    · exact impossible.ne rfl
    · exact never loop
  · obtain ⟨_, -, _, _, _, -, -, isJump, -, -⟩ := wrapped.gotos source isGoto (lt_size_of_edge edge)
    rw [isJump] at notGoto
    cases notGoto

section Fewer

variable (sound : g.Sound) (applied : g.wrapLoop (Flow.ofGraph g) header = some h)

include sound applied

/-- An edge of the core to the header or to the block after the loop has become an exit. -/
theorem not_mem_backPlaces_of_leaves {id target : BlockId} {kind : EdgeKind}
    (member : id ∈ g.loopCore header) (inner : (kind, target) ∈ (g.bare id).innerEdges)
    (leaves : target = header ∨ g.loopAfter header = some target) : (id, kind) ∉ h.backPlaces := by
  -- A back edge of the new graph at this place would be an edge to a block.
  intro listed
  obtain ⟨other, isBack⟩ := mem_backPlaces.mp listed
  have wrapped := wrapped_wrapLoop sound.toMirrored applied
  have isBody := loopBody_bodyOfLoop sound.toMirrored (wrapLoop_cases applied).1
  have result := wrapped.rerouted id (isBody.holds id member) kind target inner
  obtain ⟨-, -, innerNew, -⟩ := (mem_backArcs (wrapped.linked sound.toLinked)).mp isBack
  rw [(Block.mem_innerEdges.mp innerNew).2.2] at result
  -- Such an edge has become a way out of the body, and leads to no block.
  by_cases same : target = header
  · simp [RerouteTo, Rerouting.ofEdge, same] at result
  · simp [RerouteTo, Rerouting.ofEdge, same, leaves.resolve_left same] at result

variable (sealed : ∀ id ∈ g.bodyOfLoop header, id ∉ g.loopCore header → ¬ g.Leads id header)

include sealed

/-- A back edge from the loop can take the place of one that led from the core
to the block after the loop. -/
theorem exists_place_of_loop {kind : EdgeKind} (listed : (g.size, kind) ∈ h.backPlaces) :
    ∃ id ∈ g.loopCore header, ∃ kind last, last ≠ header ∧ (id, kind, last) ∈ g.backArcs ∧
      (id, kind) ∉ h.backPlaces := by
  have linked := sound.toLinked
  obtain ⟨isHeader, -⟩ := wrapLoop_cases applied
  obtain ⟨last, isBack⟩ := mem_backPlaces.mp listed
  -- A back arc of the loop block is its way on, in the place of a jump of the body
  -- that was a back arc before.
  rcases backArc_cases sound applied sealed isBack with ⟨old, -⟩ | ⟨-, -, found, dominates⟩
  · exact absurd old (Nat.lt_irrefl _)
  · obtain ⟨id, member, notGoto, kind', inner⟩ :=
      exists_exit_of_dominates sound isHeader found dominates
    refine ⟨id, member, kind', last, ?_, (mem_backArcs linked).mpr ⟨?_, notGoto, inner, ?_⟩, ?_⟩
    · rintro rfl
      have reached := (header_reached linked isHeader).1
      exact (loopAfter_cases found).2 (header_mem_naturalLoop (reached.lt_size linked))
    · exact naturalLoop_reached linked.toMirrored isHeader member
    · exact dominates.trans (.inr (naturalLoop_dominated linked.toMirrored member))
    · exact not_mem_backPlaces_of_leaves sound applied member inner (.inr found)

/-- Making a loop leaves fewer back edges if no code behind its exits leads to its header. -/
theorem length_backPlaces_lt : h.backPlaces.length < g.backPlaces.length := by
  -- The header has a back edge, whose place is lost.
  have linked := sound.toLinked
  obtain ⟨source, isBack⟩ := mem_headers.mp (wrapLoop_cases applied).1
  obtain ⟨reached, notGoto, ⟨kind, inner⟩, dominates⟩ := (mem_backEdges linked.toMirrored).mp isBack
  have isArc : (source, kind, header) ∈ g.backArcs :=
    (mem_backArcs linked).mpr ⟨reached, notGoto, inner, dominates⟩
  have lost : (source, kind) ∉ h.backPlaces :=
    not_mem_backPlaces_of_leaves sound applied (source_mem_naturalLoop linked.toMirrored isBack)
      inner (.inl rfl)
  -- The place of the back edge from the loop, if there is one.
  obtain ⟨exit, fits⟩ : ∃ exit, (g.size, .next) ∈ h.backPlaces →
      exit ∈ g.backPlaces ∧ exit ∉ h.backPlaces ∧ exit ≠ (source, kind) := by
    by_cases present : (g.size, .next) ∈ h.backPlaces
    · obtain ⟨id, -, kind', last, other, isBack, isFree⟩ :=
        exists_place_of_loop sound applied sealed present
      refine ⟨(id, kind'), fun _ => ⟨mem_backPlaces.mpr ⟨last, isBack⟩, isFree, ?_⟩⟩
      rintro same
      cases same
      have edge := (Block.mem_innerEdges.mp inner).2.2
      rw [(Block.mem_innerEdges.mp ((mem_backArcs linked).mp isBack).2.2.1).2.2] at edge
      cases edge
      exact other rfl
    · exact ⟨(source, kind), fun isPresent => absurd isPresent present⟩
  let place : BlockId × EdgeKind → BlockId × EdgeKind :=
    fun old => if old = (g.size, .next) then exit else old
  -- Every other back edge was one before, at the same place.
  have cases : ∀ old ∈ h.backPlaces, (old = (g.size, .next) ∧ place old = exit) ∨
      (place old = old ∧ old ∈ g.backPlaces) := by
    rintro ⟨u, k⟩ listed
    obtain ⟨v, isBack⟩ := mem_backPlaces.mp listed
    rcases backArc_cases sound applied sealed isBack with ⟨old, -, before⟩ | ⟨rfl, rfl, -, -⟩
    · exact .inr ⟨if_neg fun same => Nat.ne_of_lt old (congrArg Prod.fst same),
        mem_backPlaces.mpr ⟨v, before⟩⟩
    · exact .inl ⟨rfl, if_pos rfl⟩
  -- The places are those of old back edges, they differ, and the lost one is free.
  refine length_lt_of_place place (nodup_backPlaces h) ?_ ?_ (mem_backPlaces.mpr ⟨header, isArc⟩) ?_
  · intro old listed
    rcases cases old listed with ⟨rfl, placed⟩ | ⟨placed, before⟩
    · exact placed ▸ (fits listed).1
    · exact placed.symm ▸ before
  · intro i first j second same
    rcases cases i first with ⟨rfl, placed⟩ | ⟨placed, before⟩ <;>
      rcases cases j second with ⟨isLoop, placed'⟩ | ⟨placed', before'⟩
    · exact isLoop.symm
    all_goals rw [placed, placed'] at same
    · exact absurd (same ▸ second) (fits first).2.1
    · subst isLoop
      exact absurd (same ▸ first) (fits second).2.1
    · exact same
  · intro old listed same
    rcases cases old listed with ⟨rfl, placed⟩ | ⟨placed, -⟩
    · exact (fits listed).2.2 (placed.symm.trans same)
    · exact lost ((placed.symm.trans same) ▸ listed)

end Fewer

end Graph

end Unjump
