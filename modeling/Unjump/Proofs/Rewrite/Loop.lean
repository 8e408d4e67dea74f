import Unjump.Proofs.Rewrite.LoopBody

/-! Loops: what the graph looks like once the blocks of a loop have become the body of one block. -/

namespace Unjump.Graph

variable {g h : Graph} {flow : Flow} {header : BlockId} {core body : IdSet} {after : Option BlockId}

/-- The graph in which a block of its own, numbered next, holds a loop: what led to the header from
outside leads to that block, and what leaves the body ends its round, leaves the loop, or jumps. -/
structure Wrapped (g : Graph) (header : BlockId) (body : IdSet) (after : Option BlockId)
    (h : Graph) : Prop where
  mirrored : h.Mirrored
  linked : g.Linked → h.Linked
  grows : g.size < h.size
  known : header < g.size
  ends : ∀ last, after = some last → last < g.size
  type : ∀ i < g.size, (h.bare i).type = (g.bare i).type
  code : ∀ i < g.size, (h.bare i).code = (g.bare i).code
  loopType : (h.bare g.size).type = .structured .loop
  loopCode : (h.bare g.size).code = []
  loopEdges : ∀ kind, (h.bare g.size).edge? kind =
    if kind = .sub1 then some (.block header) else if kind = .next then after.map .block else none
  outside : ∀ i < g.size, i ∉ body → ∀ kind,
    (h.bare i).edge? kind =
    ((g.bare i).edge? kind).map ((Target.block header).renamed (.block g.size))
  kept : ∀ i ∈ body, ∀ kind, (∀ target, (kind, target) ∉ (g.bare i).innerEdges) →
    (h.bare i).edge? kind = (g.bare i).edge? kind
  rerouted : ∀ i ∈ body, ∀ kind target, (kind, target) ∈ (g.bare i).innerEdges →
    RerouteTo h (g.size + 1) header body after kind target ((h.bare i).edge? kind)
  gotos : ∀ goto, g.size < goto → goto < h.size → ∃ i ∈ body, ∃ kind target offset,
    (kind, target) ∈ (g.bare i).innerEdges ∧
    Rerouting.ofEdge header body after kind target = .jumps ∧
    h.bare goto = gotoBlock .goto offset (.block target) ∧
    (h.bare i).edge? kind = some (.block goto) ∧
    ∀ u k, (h.bare u).edge? k = some (.block goto) → u = i ∧ k = kind

/-- The graph with a block for a loop, which what leads to the header from outside leads to. -/
def withLoop (g : Graph) (header : BlockId) (body : IdSet) : Graph :=
  g.precedeFrom header (Block.covering .loop (body.toList.map g.block)) (!body.contains ·)

/-- The graph with a block for a loop, after the edges of the body are rerouted. -/
def withBody (g : Graph) (header : BlockId) (body : IdSet) (after : Option BlockId) : Graph :=
  (g.innerEdgesOf body).foldl (·.reroute header body after ·) (g.withLoop header body)

/-- There is one block more, that of the loop. -/
theorem size_withLoop : (g.withLoop header body).size = g.size + 1 := size_precedeFrom

/-- Putting a block for a loop in front of its header keeps edges and their records in step. -/
theorem Mirrored.withLoop (mirrored : g.Mirrored) : (g.withLoop header body).Mirrored :=
  mirrored.precedeFrom (edge?_covering _ _) rfl

/-- Putting a block for a loop in front of its header keeps a graph linked. -/
theorem Linked.withLoop (linked : g.Linked) : (g.withLoop header body).Linked :=
  linked.precedeFrom (edge?_covering _ _) rfl

/-- The new block has no edges yet. -/
theorem bare_withLoop_new (mirrored : g.Mirrored) :
    (g.withLoop header body).bare g.size = Block.covering .loop (body.toList.map g.block) :=
  (bare_precedeFrom mirrored (edge?_covering _ _) rfl g.size).trans (if_pos rfl)

/-- Before its edges are rerouted, the body of a loop is as it was, and only the way
to the header has changed. -/
theorem bare_withLoop_old (mirrored : g.Mirrored) {i : BlockId} (known : i < g.size) :
    (g.withLoop header body).bare i =
      if i ∈ body then g.bare i else (g.bare i).replaceTarget (.block header) (.block g.size) := by
  -- The new block precedes the header from outside of the body only.
  rw [withLoop, bare_precedeFrom mirrored (edge?_covering _ _) rfl, if_neg (Nat.ne_of_lt known)]
  by_cases member : i ∈ body
  · rw [if_pos member, if_neg]
    simpa using member
  · rw [if_neg member, if_pos]
    simpa [← IdSet.contains_iff] using member

/-- The edges of the body are rerouted one by one, none of them twice. -/
theorem rerouted_withBody (mirrored : g.Mirrored) (inside : ∀ id ∈ body, id < g.size) :
    Rerouted (g.withLoop header body) header body after (g.innerEdgesOf body)
      (g.withBody header body after) := by
  refine rerouted_foldl mirrored.withLoop (nodup_innerEdgesOf g body) fun i kind target listed => ?_
  -- The body itself was left alone by the step before.
  obtain ⟨member, inner⟩ := mem_innerEdgesOf.mp listed
  rw [bare_withLoop_old mirrored (inside i member), if_pos member]
  exact (Block.mem_innerEdges.mp inner).2.2

section Wrap

variable (header after) (mirrored : g.Mirrored) (inside : ∀ id ∈ body, id < g.size)

include mirrored inside

/-- The loop is a block of the graph. -/
theorem lt_size_withBody : g.size < (g.withBody header body after).size :=
  Nat.lt_of_lt_of_le (size_withLoop ▸ Nat.lt_succ_self _) (rerouted_withBody mirrored inside).grows

/-- The last step of making a loop gives its block the edges to the header
and to the block after the loop. -/
theorem bare_wrap (i : BlockId) : (g.wrap header body after).bare i =
    if i = g.size then
      { (g.withBody header body after).bare g.size with
        sub1 := some (.block header), next := after.map .block }
    else (g.withBody header body after).bare i :=
  bare_update (fun b => { b with sub1 := some (.block header), next := after.map .block })
    (lt_size_withBody header after mirrored inside) (fun _ => rfl) i

/-- The last step of making a loop leaves all other blocks alone. -/
theorem bare_wrap_other {i : BlockId} (other : i ≠ g.size) :
    (g.wrap header body after).bare i = (g.withBody header body after).bare i :=
  (bare_wrap header after mirrored inside i).trans (if_neg other)

/-- A loop leads to its header and to the block after it. -/
theorem edge?_wrap_loop (kind : EdgeKind) : ((g.wrap header body after).bare g.size).edge? kind =
    if kind = .sub1 then some (.block header) else if kind = .next then after.map .block
      else none := by
  -- The edges of the new block are set last; rerouting the body gives it none.
  have done : Rerouted (g.withLoop header body) header body after (g.innerEdgesOf body)
      (g.withBody header body after) :=
    rerouted_withBody mirrored inside
  have noEdge : ((g.withBody header body after).bare g.size).edge? kind = none := by
    rw [done.kept g.size (size_withLoop ▸ Nat.lt_succ_self _) kind, bare_withLoop_new mirrored,
      edge?_covering]
    exact fun target listed => Nat.lt_irrefl _ (inside _ (mem_innerEdgesOf.mp listed).1)
  rw [bare_wrap header after mirrored inside, if_pos rfl, ← noEdge]
  cases kind <;> rfl

/-- A loop leads where edges led before. -/
theorem leads_of_wrap_loop {entrance target : BlockId} {kind : EdgeKind}
    (enters : g.Leads entrance header) (ends : ∀ last, after = some last → ∃ id, g.Leads id last)
    (edge : ((g.wrap header body after).bare g.size).edge? kind = some (.block target)) :
    ∃ id, g.Leads id target := by
  rw [edge?_wrap_loop header after mirrored inside] at edge
  -- The edges are the one to the header and the one to the block after the loop.
  split at edge
  · cases edge
    exact ⟨entrance, enters⟩
  · split at edge
    · obtain ⟨last, isLast, same⟩ := Option.map_eq_some_iff.mp edge
      cases same
      exact ends _ isLast
    · cases edge

end Wrap

/-- What making a loop does to the graph. -/
theorem wrapped_wrap (mirrored : g.Mirrored) (inside : ∀ id ∈ body, id < g.size)
    {entrance : BlockId} (enters : g.Leads entrance header)
    (ends : ∀ last, after = some last → ∃ id, g.Leads id last) :
    Wrapped g header body after (g.wrap header body after) := by
  have done : Rerouted (g.withLoop header body) header body after (g.innerEdgesOf body)
      (g.withBody header body after) :=
    rerouted_withBody mirrored inside
  have size : (g.withLoop header body).size = g.size + 1 := size_withLoop
  have known := lt_size_withBody header after mirrored inside
  have loop := (bare_wrap header after mirrored inside g.size).trans (if_pos rfl)
  have others : ∀ {i}, i ≠ g.size →
      (g.wrap header body after).bare i = (g.withBody header body after).bare i :=
    bare_wrap_other header after mirrored inside
  have entered : ∀ {kind target},
      ((g.wrap header body after).bare g.size).edge? kind = some (.block target) →
        ∃ id, g.Leads id target :=
    leads_of_wrap_loop header after mirrored inside enters ends
  have old : ∀ {i}, i < g.size → (g.withLoop header body).bare i =
      if i ∈ body then g.bare i else (g.bare i).replaceTarget (.block header) (.block g.size) :=
    bare_withLoop_old mirrored
  have below : ∀ {i}, i < g.size → i < (g.withLoop header body).size :=
    fun less => size ▸ Nat.lt_succ_of_lt less
  have isLoop : g.size < (g.withLoop header body).size := size ▸ Nat.lt_succ_self _
  -- The last step changes the loop alone; what the other blocks are was settled
  -- when the body was rerouted.
  refine ⟨?_, ?_, (size_update ..).symm ▸ known, mirrored.bounded enters, ?_, ?_, ?_, ?_, ?_,
    edge?_wrap_loop header after mirrored inside, ?_, ?_, ?_, ?_⟩
  · -- The edges of the loop lead to blocks of the graph.
    refine done.mirrored.update rfl fun {kind target} edge => ?_
    obtain ⟨id, leads⟩ := entered ((congrArg (·.edge? kind) loop).trans edge)
    exact Nat.lt_trans (mirrored.bounded leads) known
  · -- They lead where edges may lead, as edges led there before.
    intro linked
    refine (done.linked linked.withLoop).update _ (fun _ => rfl) (fun _ => rfl) ?_ ?_
    · intro kind target edge
      obtain ⟨id, leads⟩ := entered ((congrArg (·.edge? kind) loop).trans edge)
      exact (linked.behind leads).imp_right fun less => Nat.lt_trans less known
    · intro isStart
      exact absurd isStart (Nat.ne_of_gt linked.nonempty)
  · -- The block after the loop is one that was there.
    intro last isLast
    obtain ⟨_, leads⟩ := ends last isLast
    exact mirrored.bounded leads
  · -- The types of the old blocks.
    intro i less
    rw [others (Nat.ne_of_lt less), done.type i (below less), old less]
    split <;> rfl
  · -- Their code.
    intro i less
    rw [others (Nat.ne_of_lt less), done.code i (below less), old less]
    split <;> rfl
  · -- The loop itself, which was made with its type and without code.
    rw [loop]
    exact (done.type g.size isLoop).trans (by rw [bare_withLoop_new mirrored]; rfl)
  · rw [loop]
    exact (done.code g.size isLoop).trans (by rw [bare_withLoop_new mirrored]; rfl)
  · -- Blocks outside the body.
    intro i less apart kind
    rw [others (Nat.ne_of_lt less), done.kept i (below less), old less, if_neg apart,
      Block.edge?_replaceTarget]
    exact fun target listed => apart (mem_innerEdgesOf.mp listed).1
  · -- Edges of the body that stay.
    intro i member kind absent
    have less := inside i member
    rw [others (Nat.ne_of_lt less), done.kept i (below less), old less, if_pos member]
    exact fun target listed => absent target (mem_innerEdgesOf.mp listed).2
  · -- Edges of the body that are rerouted.
    intro i member kind target inner
    have result := done.rerouted i kind target (mem_innerEdgesOf.mpr ⟨member, inner⟩)
    rw [others (Nat.ne_of_lt (inside i member)), ← size]
    exact result.congr fun goto isNew _ => others (Nat.ne_of_gt (Nat.lt_of_lt_of_le isLoop isNew))
  · intro goto isNew less
    -- A literal jump was made for one edge, and the loop does not lead to it.
    rw [wrap, size_update] at less
    obtain ⟨i, kind, target, offset, listed, jumps, isGoto, edge, only⟩ :=
      done.gotos goto (size ▸ isNew) less
    obtain ⟨member, inner⟩ := mem_innerEdgesOf.mp listed
    refine ⟨i, member, kind, target, offset, inner, jumps,
      (others (Nat.ne_of_gt isNew)).trans isGoto, ?_, ?_⟩
    · rw [others (Nat.ne_of_lt (inside i member)), edge]
    · intro u k leads
      by_cases same : u = g.size
      · -- The loop leads where edges led before, so not to a literal jump.
        subst same
        obtain ⟨_, before⟩ := entered leads
        exact absurd (mirrored.bounded before) (Nat.not_lt.mpr (Nat.le_of_lt isNew))
      · rw [others same] at leads
        exact only u k leads

/-- The old block that a block stands for once a loop is made: the loop stands for its header, and a
literal jump for the block that it leads to. -/
def loopBack (g : Graph) (header : BlockId) (h : Graph) (i : BlockId) : BlockId :=
  if i < g.size then i
  else match (h.bare i).branch with
    | some (.block target) => target
    | _ => header

namespace Wrapped

variable (wrapped : Wrapped g header body after h)

include wrapped

/-- A loop stands for its header. -/
theorem loopBack_loop : g.loopBack header h g.size = header := by
  -- It has no branch, which is how a literal jump would be told.
  have noBranch : (h.bare g.size).branch = none := (wrapped.loopEdges .branch).trans rfl
  rw [loopBack, if_neg (Nat.lt_irrefl _), noBranch]

omit wrapped in
/-- A literal jump stands for the block that it leads to. -/
theorem loopBack_goto {goto target : BlockId} {offset : Offset} (isNew : g.size < goto)
    (isGoto : h.bare goto = gotoBlock .goto offset (.block target)) :
    g.loopBack header h goto = target := by
  have branch : (h.bare goto).branch = some (.block target) := by
    rw [isGoto]
    rfl
  rw [loopBack, if_neg (Nat.not_lt_of_gt isNew), branch]

omit wrapped in
/-- An old block stands for itself. -/
theorem loopBack_old {i : BlockId} (known : i < g.size) : g.loopBack header h i = i := if_pos known

/-- An edge of an old block leads where it did, or to a block that stands for where it did. -/
theorem old_edge (mirrored : g.Mirrored) {u v : BlockId} {kind : EdgeKind} (known : u < g.size)
    (edge : (h.bare u).edge? kind = some (.block v)) :
    (g.bare u).edge? kind = some (.block (g.loopBack header h v)) := by
  -- Edges inside the body may be rerouted, and those from outside are renamed
  -- where they lead to the header.
  by_cases member : u ∈ body
  · by_cases inner : ∃ target, (kind, target) ∈ (g.bare u).innerEdges
    · -- A rerouted edge stays, is an exit or goes over a literal jump.
      obtain ⟨target, inner⟩ := inner
      have before := (Block.mem_innerEdges.mp inner).2.2
      have result := wrapped.rerouted u member kind target inner
      rw [edge] at result
      unfold RerouteTo at result
      split at result
      · cases result
        rw [before, loopBack_old (mirrored.bounded ⟨kind, before⟩)]
      · cases result
      · obtain ⟨goto, offset, isNew, same, isGoto⟩ := result
        cases same
        rw [before, loopBack_goto isNew isGoto]
    · -- Another edge of the body stays.
      have same := wrapped.kept u member kind fun target isInner => inner ⟨target, isInner⟩
      rw [edge] at same
      rw [← same, loopBack_old (mirrored.bounded ⟨kind, same.symm⟩)]
  · have same := wrapped.outside u known member kind
    rw [edge, eq_comm, Option.map_eq_some_iff] at same
    obtain ⟨before, same, renamed⟩ := same
    -- Outside, an edge to the header leads to the loop now, which stands for the header.
    by_cases isHeader : before = .block header
    · subst isHeader
      rw [Target.renamed_self] at renamed
      cases renamed
      rw [same, wrapped.loopBack_loop]
    · rw [Target.renamed_ne isHeader] at renamed
      subst renamed
      rw [same, loopBack_old (mirrored.bounded ⟨kind, same⟩)]

/-- An old block keeps its edges, wherever they lead. -/
theorem isSome_edge? {u : BlockId} (known : u < g.size) (kind : EdgeKind) :
    ((h.bare u).edge? kind).isSome = ((g.bare u).edge? kind).isSome := by
  -- Inner edges of the body are rerouted, its other edges stay, and outside there is only renaming.
  by_cases member : u ∈ body
  · by_cases inner : ∃ target, (kind, target) ∈ (g.bare u).innerEdges
    · obtain ⟨target, inner⟩ := inner
      have result := wrapped.rerouted u member kind target inner
      rw [(Block.mem_innerEdges.mp inner).2.2]
      exact result.isSome
    · rw [wrapped.kept u member kind fun target isInner => inner ⟨target, isInner⟩]
  · rw [wrapped.outside u known member, Option.isSome_map]

/-- A step after a loop is made was a walk before between the blocks stood for,
if the header led to the block after it. -/
theorem steps (mirrored : g.Mirrored) {allow : EdgeFilter}
    (covered : ∀ last, after = some last → g.Walk allow header last) {u v : BlockId}
    (step : h.Step allow u v) : g.Walk allow (g.loopBack header h u) (g.loopBack header h v) := by
  -- The step is along one edge.
  obtain ⟨kind, allowed, edge⟩ := step
  have inside := lt_size_of_edge edge
  -- The source is an old block, the loop itself, or a literal jump.
  rcases Nat.lt_trichotomy u g.size with old | same | new
  · rw [wrapped.type u old] at allowed
    rw [loopBack_old old]
    exact .single ⟨kind, allowed, wrapped.old_edge mirrored old edge⟩
  · -- The loop leads to its header or to the block after it.
    subst same
    rw [wrapped.loopBack_loop]
    rw [wrapped.loopEdges] at edge
    split at edge
    · cases edge
      rw [loopBack_old wrapped.known]
    · split at edge
      · obtain ⟨last, isLast, same⟩ := Option.map_eq_some_iff.mp edge
        cases same
        rw [loopBack_old (wrapped.ends _ isLast)]
        exact covered _ isLast
      · cases edge
  · -- A literal jump stands for the block that it leads to.
    obtain ⟨i, member, _, target, offset, inner, -, isGoto, -, -⟩ := wrapped.gotos u new inside
    rw [isGoto, edge?_gotoBlock] at edge
    split at edge
    · cases edge
      have old : v < g.size := mirrored.bounded ⟨_, (Block.mem_innerEdges.mp inner).2.2⟩
      rw [loopBack_goto new isGoto, loopBack_old old]
    · cases edge

/-- Making a loop keeps the walks along which the header leads to the block after the loop. -/
theorem rewrite (sound : g.Sound) :
    RewriteFor (fun allow => ∀ last, after = some last → g.Walk allow header last) g h
      (g.loopBack header h) where
  linked := wrapped.linked sound.toLinked
  grows := Nat.le_of_lt wrapped.grows
  old := fun i known => loopBack_old known
  steps := fun _ covered _ _ _ step => wrapped.steps sound.toMirrored covered step
  shaped := by
    intro i inside reached
    -- Old blocks keep their shape, the loop has its body, and a literal jump its target.
    rcases Nat.lt_trichotomy i g.size with old | same | new
    · rw [loopBack_old old] at reached
      exact (sound.shaped reached).congr (wrapped.type i old) (wrapped.isSome_edge? old)
    · subst same
      refine .ofChildren wrapped.loopType rfl ?_ ?_ ?_
      · intro isOpen
        rw [isOpenCondition_iff, wrapped.loopType] at isOpen
        cases isOpen.1
      · intro has
        have present : ((h.bare g.size).edge? .branch).isSome := has
        rw [wrapped.loopEdges] at present
        cases present
      · intro kind required
        obtain rfl : kind = .sub1 := by simpa [Construct.requiredEdges] using required
        rw [wrapped.loopEdges, if_pos rfl]
        rfl
    · obtain ⟨_, -, _, _, offset, -, -, isGoto, -, -⟩ := wrapped.gotos i new inside
      rw [isGoto]
      exact shaped_gotoBlock rfl _ _
  code := wrapped.code
  blank := by
    intro i absent
    -- Neither the loop nor a literal jump has code.
    rcases Nat.eq_or_lt_of_le absent with same | new
    · exact same ▸ wrapped.loopCode
    · by_cases inside : i < h.size
      · obtain ⟨_, -, _, _, offset, -, -, isGoto, -, -⟩ := wrapped.gotos i new inside
        rw [isGoto]
        rfl
      · exact code_of_size_le (Nat.le_of_not_lt inside)

end Wrapped

section WrapLoop

variable (mirrored : g.Mirrored) (applied : g.wrapLoop (Flow.ofGraph g) header = some h)

/-- The blocks of a natural loop. -/
def loopCore (g : Graph) (header : BlockId) : IdSet := (Flow.ofGraph g).naturalLoop g header

/-- The block after a natural loop. -/
def loopAfter (g : Graph) (header : BlockId) : Option BlockId :=
  g.loopEnd? (g.loopCore header) (g.loopExits (g.loopCore header))

/-- The body that a natural loop is given. -/
def bodyOfLoop (g : Graph) (header : BlockId) : IdSet :=
  g.loopBody (Flow.ofGraph g) (g.loopCore header) (g.loopExits (g.loopCore header))
    (g.loopAfter header)

include applied in
/-- A loop is made of a header and its natural loop. -/
theorem wrapLoop_cases : header ∈ (Flow.ofGraph g).headers ∧
    g.wrap header (g.bodyOfLoop header) (g.loopAfter header) = h := by
  -- The rule only applies to headers whose loops are ripe.
  simp only [wrapLoop] at applied
  split at applied
  · next isRipe =>
      exact ⟨mem_ripeHeaders (List.contains_iff_mem.mp isRipe), Option.some.inj applied⟩
  · cases applied

include mirrored

/-- The body that a natural loop is given holds the loop and what is behind its exits. -/
theorem loopBody_bodyOfLoop (isHeader : header ∈ (Flow.ofGraph g).headers) :
    LoopBody g (g.loopCore header) (g.loopAfter header) (g.bodyOfLoop header) :=
  loopBody_loopBody mirrored fun _ member => naturalLoop_reached mirrored isHeader member

omit mirrored in
/-- The block after a loop is entered by an inner edge of the natural loop,
from which it lies outside. -/
theorem loopAfter_cases {last : BlockId} (found : g.loopAfter header = some last) :
    (∃ id ∈ g.loopCore header, ∃ kind, (kind, last) ∈ (g.bare id).innerEdges) ∧
      last ∉ g.loopCore header :=
  mem_loopExits.mp (loopEnd?_mem found)

/-- The block after a loop can be reached from the header. -/
theorem walk_loopAfter (isHeader : header ∈ (Flow.ofGraph g).headers) {last : BlockId}
    (found : g.loopAfter header = some last) : g.Walk .all header last := by
  -- From the header to the block that leaves the loop, and from there along its edge.
  obtain ⟨⟨id, member, kind, inner⟩, -⟩ := loopAfter_cases found
  have reached := naturalLoop_reached mirrored isHeader member
  -- No path around the header leads into its loop.
  have walk := (reached.around_or_walk header).resolve_left (naturalLoop_dominated mirrored member)
  exact walk.tail (step_all.mpr ⟨kind, (Block.mem_innerEdges.mp inner).2.2⟩)

include applied

/-- What the rule for loops does to the graph. -/
theorem wrapped_wrapLoop : Wrapped g header (g.bodyOfLoop header) (g.loopAfter header) h := by
  -- The header is entered and the block after the loop is left to, so that both are blocks
  -- of the graph.
  obtain ⟨isHeader, rfl⟩ := wrapLoop_cases applied
  have isBody := loopBody_bodyOfLoop mirrored isHeader
  obtain ⟨source, -, leads⟩ := header_entered mirrored isHeader
  have nonempty : start < g.size := Nat.zero_lt_of_lt leads.lt_size
  refine wrapped_wrap mirrored (fun id member => ?_) leads fun last found => ?_
  · -- Blocks of the body are within reach.
    exact lt_of_mem_explore ((mem_reachable mirrored nonempty).mpr (isBody.reached id member))
  · obtain ⟨⟨id, -, kind, inner⟩, -⟩ := loopAfter_cases found
    exact ⟨id, kind, (Block.mem_innerEdges.mp inner).2.2⟩

end WrapLoop

/-- Making a loop keeps the walks along which the header leads to the block after the loop, and so
all walks along edges of every kind. -/
theorem rewrite_wrapLoop (sound : g.Sound) (applied : g.wrapLoop (Flow.ofGraph g) header = some h) :
    RewriteFor (fun allow => ∀ last, g.loopAfter header = some last → g.Walk allow header last) g h
      (g.loopBack header h) :=
  (wrapped_wrapLoop sound.toMirrored applied).rewrite sound

end Unjump.Graph
