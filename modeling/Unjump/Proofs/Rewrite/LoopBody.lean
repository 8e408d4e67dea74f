import Mathlib.Data.List.Nodup
import Unjump.Construct.Loop
import Unjump.Proofs.Flow
import Unjump.Proofs.Rewrite

/-! Loops: which blocks become the body of a loop, and what becomes of the edges out of it. -/

namespace Unjump

namespace Block

/-- A block has at most one edge of each kind. -/
theorem nodup_edges (b : Block) : (b.edges.map (·.1)).Nodup := by
  -- The entries of a list are edges of different kinds, and of the kinds that the list is for.
  have indexed : ∀ {α : Type} (kind : Nat → EdgeKind) (target : α → Target) (list : List α),
    kind.Injective →
      ((list.mapIdx fun i a => (kind i, target a)).map (·.1)).Nodup ∧
        ∀ edge ∈ (list.mapIdx fun i a => (kind i, target a)).map (·.1), ∃ i, edge = kind i := by
    intro α kind target list injective
    constructor
    · rw [List.Nodup, List.pairwise_iff_getElem]
      intro i j inside inside' less
      simpa using fun same => Nat.ne_of_lt less (injective same)
    · intro edge listed
      obtain ⟨_, made, rfl⟩ := List.mem_map.mp listed
      obtain ⟨i, _, rfl⟩ := List.mem_mapIdx.mp made
      exact ⟨i, rfl⟩
  obtain ⟨cases, isCase⟩ := indexed .case SwitchCase.target b.cases fun _ _ => EdgeKind.case.inj
  obtain ⟨handlers, isHandler⟩ :=
    indexed .handler Handler.target b.handlers fun _ _ => EdgeKind.handler.inj
  -- Of the single edges each kind occurs once, whichever of them are there.
  have single :
    (([(EdgeKind.next, b.next), (.branch, b.branch), (.condition, b.condition), (.sub1, b.sub1),
      (.sub2, b.sub2)].filterMap fun edge => edge.2.map (edge.1, ·)).map (·.1)).Nodup := by
    cases b.next <;> cases b.branch <;> cases b.condition <;> cases b.sub1 <;> cases b.sub2 <;> simp
  rw [edges, List.map_append, List.map_append, List.nodup_append, List.nodup_append]
  refine ⟨⟨single, cases, ?_⟩, handlers, ?_⟩
  -- An edge of a list is of another kind than the single ones.
  · rintro kind first _ second rfl
    obtain ⟨i, rfl⟩ := isCase kind second
    simp at first
  · rintro kind first _ second rfl
    obtain ⟨i, rfl⟩ := isHandler kind second
    simp [List.mem_mapIdx] at first

/-- Control leaves a block along at most one edge of each kind. -/
theorem nodup_flowEdges (b : Block) : (b.flowEdges.map (·.1)).Nodup := by
  unfold flowEdges
  -- The edges along which control leaves are some of the edges, or the next one alone.
  split
  · exact (List.filter_sublist.map _).nodup b.nodup_edges
  · split
    · exact (List.filter_sublist.map _).nodup b.nodup_edges
    · cases b.next <;> simp

/-- A block has at most one inner edge of each kind. -/
theorem nodup_innerEdges (b : Block) : (b.innerEdges.map (·.1)).Nodup := by
  -- Leaving out edges keeps the kinds of the others.
  have kept : ∀ (keep : EdgeKind × Target → Option (EdgeKind × BlockId)),
      (∀ edge made, keep edge = some made → made.1 = edge.1) →
      ∀ edges : List (EdgeKind × Target),
        ((edges.filterMap keep).map (·.1)).Sublist (edges.map (·.1)) := by
    intro keep same edges
    induction edges with
    | nil => exact .slnil
    | cons edge rest ih =>
      rw [List.filterMap_cons]
      split
      · exact ih.cons edge.1
      · next made isMade =>
        rw [List.map_cons, List.map_cons, same edge made isMade]
        exact ih.cons_cons _
  -- The inner edges are such a selection of the edges along which control leaves.
  refine (kept _ ?_ b.flowEdges).nodup b.nodup_flowEdges
  rintro ⟨kind, target⟩ made isMade
  cases kind <;> cases target <;> cases isMade <;> rfl

/-- Pointing an edge elsewhere does not touch the predecessors of a block. -/
theorem bare_setEdge (b : Block) (kind : EdgeKind) (target : Option Target) :
    (b.setEdge kind target).bare = b.bare.setEdge kind target := by
  cases kind <;> cases target <;> rfl

end Block

namespace Graph

variable {g h : Graph} {flow : Flow} {header : BlockId} {core body : IdSet} {after : Option BlockId}

/-- The inner edges of a set of blocks are those of its members. -/
theorem mem_innerEdgesOf {ids : IdSet} {id target : BlockId} {kind : EdgeKind} :
    (id, kind, target) ∈ g.innerEdgesOf ids ↔
      id ∈ ids ∧ (kind, target) ∈ (g.bare id).innerEdges := by
  rw [innerEdgesOf, List.mem_flatMap]
  -- The list is made block by block and tags each edge with its source.
  constructor
  · rintro ⟨other, member, made⟩
    obtain ⟨edge, inner, same⟩ := List.mem_map.mp made
    cases same
    exact ⟨IdSet.mem_toList.mp member, inner⟩
  · rintro ⟨member, inner⟩
    exact ⟨id, IdSet.mem_toList.mpr member, List.mem_map.mpr ⟨(kind, target), inner, rfl⟩⟩

/-- A set of blocks has one inner edge at most for a block and a kind. -/
theorem nodup_innerEdgesOf (g : Graph) (ids : IdSet) :
    ((g.innerEdgesOf ids).map fun edge => (edge.1, edge.2.1)).Nodup := by
  -- The keys of the edges are listed block by block.
  have keys : ((g.innerEdgesOf ids).map fun edge => (edge.1, edge.2.1)) =
      ids.toList.flatMap fun id => ((g.block id).innerEdges.map (·.1)).map (id, ·) := by
    simp [innerEdgesOf, List.map_flatMap, Function.comp_def]
  rw [keys, List.nodup_flatMap]
  refine ⟨fun id _ => (Block.nodup_innerEdges _).map fun _ _ same => (Prod.mk.inj same).2, ?_⟩
  -- Edges of different blocks differ in their source.
  refine ids.ascending.imp fun {a b} less => ?_
  intro pair first second
  obtain ⟨_, -, rfl⟩ := List.mem_map.mp first
  obtain ⟨_, -, same⟩ := List.mem_map.mp second
  exact Nat.ne_of_lt less (congrArg Prod.fst same).symm

/-- The body of a loop: its core, and code behind the exits of the core that flows neither back into
the core nor to the block after the loop. -/
structure LoopBody (g : Graph) (core : IdSet) (after : Option BlockId) (body : IdSet) : Prop where
  holds : ∀ id ∈ core, id ∈ body
  reached : ∀ id ∈ body, g.Reached id
  apart : ∀ id ∈ body, id ∉ core → some id ≠ after
  closed : ∀ id ∈ body, id ∉ core → ∀ kind target, (g.bare id).flows kind = true →
    (g.bare id).edge? kind = some (.block target) → target ∈ body ∧ target ∉ core
  entered : ∀ id ∈ body, id ∉ core → ∀ pred ∈ g.flowPreds id, pred ∈ body

/-- What is asked of the code behind an exit that becomes part of a loop. -/
theorem tailRegion?_cases {exit : BlockId} {region : IdSet}
    (found : g.tailRegion? flow body after exit = some region) :
    region = explore (fun id => (g.block id).flowTargets) g.size [exit] ∅ ∧
      ∀ id ∈ region, id ∉ body ∧ some id ≠ after ∧
        ∀ pred ∈ g.flowPreds id, pred ∈ region ∨ pred ∈ body := by
  -- The region is what the search finds, if it passes the tests.
  simp only [tailRegion?] at found
  split at found
  · next fits =>
    cases found
    simp only [Bool.and_eq_true, List.all_eq_true, IdSet.mem_toList, Bool.not_eq_true',
      bne_iff_ne, ne_eq, IdSet.subset_iff, IdSet.mem_union] at fits
    obtain ⟨⟨staysOut, -⟩, isPrivate⟩ := fits
    refine ⟨rfl, fun id member => ⟨?_, (staysOut id member).1.2, isPrivate id member⟩⟩
    exact fun inside => Bool.false_ne_true ((staysOut id member).1.1.symm.trans inside)
  · cases found

/-- Code behind an exit that ends without rejoining the loop extends its body. -/
theorem LoopBody.extend (mirrored : g.Mirrored) (isBody : LoopBody g core after body)
    {exit : BlockId} (reached : g.Reached exit) :
    LoopBody g core after (body ∪ (g.tailRegion? flow body after exit).getD ∅) := by
  -- Code that is shared with others is left outside, and the body stays as it is.
  cases found : g.tailRegion? flow body after exit with
  | none =>
    have same : body ∪ (none : Option IdSet).getD ∅ = body := IdSet.ext fun i => by simp
    exact same ▸ isBody
  | some region =>
    obtain ⟨rfl, fits⟩ := tailRegion?_cases found
    simp only [Option.getD_some]
    constructor
    · exact fun id member => IdSet.mem_union.mpr (.inl (isBody.holds id member))
    · -- What the body had before can be reached already.
      intro id member
      rcases IdSet.mem_union.mp member with old | new
      · exact isBody.reached id old
      · -- The search follows edges from the exit.
        refine explore_subset g.Reached (fun id seen => absurd seen (IdSet.not_mem_empty id))
          ?_ ?_ new
        · exact fun id listed _ => List.mem_singleton.mp listed ▸ reached
        · intro id isReached _ target listed _
          obtain ⟨kind, -, edge⟩ := Block.mem_flowTargets.mp listed
          exact isReached.step ⟨kind, edge⟩
    · intro id member outside
      rcases IdSet.mem_union.mp member with old | new
      · exact isBody.apart id old outside
      · exact (fits id new).2.1
    · -- The old part stays closed, and what the search finds holds what follows.
      intro id member outside kind target flows edge
      rcases IdSet.mem_union.mp member with old | new
      · have stays := isBody.closed id old outside kind target flows edge
        exact ⟨IdSet.mem_union.mpr (.inl stays.1), stays.2⟩
      · have next : target ∈ explore (fun id => (g.block id).flowTargets) g.size [exit] ∅ :=
          mem_explore_of_next new (IdSet.not_mem_empty id)
            (Block.mem_flowTargets.mpr ⟨kind, flows, edge⟩)
            (mirrored.bounded ⟨kind, edge⟩)
        exact ⟨IdSet.mem_union.mpr (.inr next),
          fun inside => (fits target next).1 (isBody.holds target inside)⟩
    · -- The old part is entered as before, and the region from itself or from the old part.
      intro id member outside pred isPred
      rcases IdSet.mem_union.mp member with old | new
      · exact IdSet.mem_union.mpr (.inl (isBody.entered id old outside pred isPred))
      · exact IdSet.mem_union.mpr ((fits id new).2.2 pred isPred).symm

/-- The exits of a loop are the blocks outside that its inner edges lead to. -/
theorem mem_loopExits {exit : BlockId} : exit ∈ g.loopExits core ↔
    (∃ id ∈ core, ∃ kind, (kind, exit) ∈ (g.bare id).innerEdges) ∧ exit ∉ core := by
  rw [loopExits, IdSet.mem_diff, IdSet.mem_ofList, innerEdgesOf, List.mem_map]
  -- What is left is to read the sources of edges off the list.
  refine and_congr_left fun _ => ⟨?_, ?_⟩
  · rintro ⟨edge, listed, rfl⟩
    obtain ⟨id, member, made⟩ := List.mem_flatMap.mp listed
    obtain ⟨⟨kind, target⟩, inner, rfl⟩ := List.mem_map.mp made
    exact ⟨id, IdSet.mem_toList.mp member, kind, inner⟩
  · rintro ⟨id, member, kind, inner⟩
    refine ⟨(id, kind, exit), List.mem_flatMap.mpr ⟨id, IdSet.mem_toList.mpr member, ?_⟩, rfl⟩
    exact List.mem_map.mpr ⟨(kind, exit), inner, rfl⟩

/-- The body of a loop whose core can be reached. -/
theorem loopBody_loopBody (mirrored : g.Mirrored) (reached : ∀ id ∈ core, g.Reached id) :
    LoopBody g core after (g.loopBody flow core (g.loopExits core) after) := by
  -- The exits can be reached, since the core can.
  have exits : ∀ exit ∈ (g.loopExits core).toList.filter (some · != after), g.Reached exit := by
    intro exit listed
    obtain ⟨⟨id, member, kind, inner⟩, -⟩ :=
      mem_loopExits.mp (IdSet.mem_toList.mp (List.mem_filter.mp listed).1)
    exact (reached id member).step ⟨kind, (Block.mem_innerEdges.mp inner).2.2⟩
  -- The core alone is a body: it has nothing behind its exits yet.
  have first : LoopBody g core after core :=
    ⟨fun _ member => member, reached, fun _ member outside => absurd member outside,
      fun _ member outside => absurd member outside, fun _ member outside => absurd member outside⟩
  rw [loopBody]
  generalize (g.loopExits core).toList.filter (some · != after) = list at exits
  suffices ∀ body, LoopBody g core after body → LoopBody g core after
      (list.foldl (fun body exit => body ∪ (g.tailRegion? flow body after exit).getD ∅) body)
      from this core first
  -- By induction on the exits, of which each may extend the body that the ones before have made.
  induction list with
  | nil => exact fun body isBody => isBody
  | cons exit rest ih =>
    intro body isBody
    exact ih (fun other listed => exits other (List.mem_cons_of_mem _ listed)) _
      (isBody.extend mirrored (exits exit List.mem_cons_self))

/-- What an edge of a loop's body leads to once the loop is made, where new blocks
are numbered from a bound. -/
def RerouteTo (h : Graph) (bound : Nat) (header : BlockId) (body : IdSet) (after : Option BlockId)
    (kind : EdgeKind) (target : BlockId) (result : Option Target) : Prop :=
  match Rerouting.ofEdge header body after kind target with
  | .stays => result = some (.block target)
  | .exits way => result = some (.exit way)
  | .jumps => ∃ goto offset, bound ≤ goto ∧ result = some (.block goto) ∧
      h.bare goto = gotoBlock .goto offset (.block target)

namespace RerouteTo

variable {bound : Nat} {kind : EdgeKind} {target : BlockId} {result : Option Target}

/-- An edge of a loop's body does not get lost. -/
theorem isSome (made : RerouteTo h bound header body after kind target result) : result.isSome := by
  -- The edge stays, leaves the loop or goes through a literal jump, and is an edge each time.
  unfold RerouteTo at made
  split at made
  · rw [made]
    rfl
  · rw [made]
    rfl
  · obtain ⟨_, _, -, same, -⟩ := made
    rw [same]
    rfl

/-- Where an edge of a loop's body leads depends on no block but the literal jump
that it may lead to. -/
theorem congr {h' : Graph} (made : RerouteTo h bound header body after kind target result)
    (same : ∀ goto, bound ≤ goto → result = some (.block goto) → h'.bare goto = h.bare goto) :
    RerouteTo h' bound header body after kind target result := by
  -- Only a rerouting through a literal jump mentions the graph.
  unfold RerouteTo at made ⊢
  split
  · next isStays => simpa [isStays] using made
  · next isExits => simpa [isExits] using made
  · next isJumps =>
    simp only [isJumps] at made
    obtain ⟨goto, offset, isNew, leads, isGoto⟩ := made
    exact ⟨goto, offset, isNew, leads, (same goto isNew leads).trans isGoto⟩

/-- An edge that leads to another block than before leads to a literal jump. -/
theorem jumps {v : BlockId}
    (made : RerouteTo h bound header body after kind target (some (.block v)))
    (other : v ≠ target) : Rerouting.ofEdge header body after kind target = .jumps := by
  -- Only a rerouting through a literal jump leads to another block.
  unfold RerouteTo at made
  split at made
  · cases made
    exact absurd rfl other
  · cases made
  · assumption

/-- An edge that becomes an exit led to the header or to the block after the loop. -/
theorem exits {way : Exit}
    (made : RerouteTo h bound header body after kind target (some (.exit way))) :
    (target = header ∨ some target = after) ∧ way ≠ .switchBreak := by
  -- An edge to the header continues the loop, and one to the block after it leaves the loop.
  unfold RerouteTo Rerouting.ofEdge at made
  by_cases toHeader : target = header
  · rw [if_pos toHeader] at made
    cases made
    exact ⟨.inl toHeader, by split <;> simp⟩
  rw [if_neg toHeader] at made
  by_cases toAfter : some target = after
  · rw [if_pos toAfter] at made
    cases made
    exact ⟨.inr toAfter, by simp⟩
  -- Every other edge leads to a block.
  rw [if_neg toAfter] at made
  split at made
  · cases made
  · next isExits => split at isExits <;> cases isExits
  · obtain ⟨_, _, -, same, -⟩ := made
    cases same

end RerouteTo

/-- The graph in which the given edges of a loop's body have been rerouted. -/
structure Rerouted (base : Graph) (header : BlockId) (body : IdSet) (after : Option BlockId)
    (edges : List (BlockId × EdgeKind × BlockId)) (h : Graph) : Prop where
  mirrored : h.Mirrored
  linked : base.Linked → h.Linked
  grows : base.size ≤ h.size
  type : ∀ i < base.size, (h.bare i).type = (base.bare i).type
  code : ∀ i < base.size, (h.bare i).code = (base.bare i).code
  kept : ∀ i < base.size, ∀ kind, (∀ target, (i, kind, target) ∉ edges) →
    (h.bare i).edge? kind = (base.bare i).edge? kind
  rerouted : ∀ i kind target, (i, kind, target) ∈ edges →
    RerouteTo h base.size header body after kind target ((h.bare i).edge? kind)
  gotos : ∀ goto, base.size ≤ goto → goto < h.size →
    ∃ i kind target offset, (i, kind, target) ∈ edges ∧
      Rerouting.ofEdge header body after kind target = .jumps ∧
      h.bare goto = gotoBlock .goto offset (.block target) ∧
      (h.bare i).edge? kind = some (.block goto) ∧
      ∀ u k, (h.bare u).edge? k = some (.block goto) → u = i ∧ k = kind

/-- The blocks of a graph in which an edge of one block leads elsewhere. -/
theorem bare_setEdge_graph {id : BlockId} {kind : EdgeKind} {target : Target} (known : id < g.size)
    (i : BlockId) :
    (g.setEdge id kind (some target)).bare i =
      if i = id then (g.bare id).setEdge kind (some target) else g.bare i :=
  bare_update (·.setEdge kind (some target)) known (fun b => Block.bare_setEdge b kind _) i

/-- Pointing an existing edge of a block elsewhere. -/
theorem edge?_setEdge_graph {id : BlockId} {kind : EdgeKind} {target : Target} (known : id < g.size)
    (present : ((g.bare id).edge? kind).isSome) (i : BlockId) (other : EdgeKind) :
    ((g.setEdge id kind (some target)).bare i).edge? other =
      if i = id ∧ other = kind then some target else (g.bare i).edge? other := by
  -- The blocks other than the source do not change.
  rw [bare_setEdge_graph known]
  by_cases same : i = id
  · subst same
    rw [if_pos rfl, Block.edge?_setEdge target other present]
    simp
  · rw [if_neg same, if_neg fun both => same both.1]

/-- Pointing an edge elsewhere changes neither the type nor the code of a block. -/
theorem type_setEdge_graph {id : BlockId} {kind : EdgeKind} {target : Target} (known : id < g.size)
    (i : BlockId) :
    ((g.setEdge id kind (some target)).bare i).type = (g.bare i).type ∧
      ((g.setEdge id kind (some target)).bare i).code = (g.bare i).code := by
  rw [bare_setEdge_graph known]
  split
  · next same =>
    subst same
    simp
  · exact ⟨rfl, rfl⟩

/-- Pointing an edge at a block behind the entry keeps the links. -/
theorem Linked.setEdge (linked : g.Linked) {id : BlockId} {kind : EdgeKind} {target : Target}
    (behind : ∀ v, target = .block v → start < v ∧ v < g.size) :
    (g.setEdge id kind (some target)).Linked :=
  ⟨linked.toConfined.setEdge fun way same => by
    cases same
    exact .of_behind behind⟩

/-- The graph in which one edge of a block leads elsewhere,
where a new block may only be a literal jump in its place. -/
structure Pointed (h : Graph) (i : BlockId) (kind : EdgeKind) (target : BlockId) (result : Target)
    (h' : Graph) : Prop where
  mirrored : h'.Mirrored
  grows : h.size ≤ h'.size
  type : ∀ j < h.size, (h'.bare j).type = (h.bare j).type ∧ (h'.bare j).code = (h.bare j).code
  others : ∀ j < h.size, j ≠ i → h'.bare j = h.bare j
  edge : ∀ j < h.size, ∀ k,
    (h'.bare j).edge? k = if j = i ∧ k = kind then some result else (h.bare j).edge? k
  gotos : ∀ goto, h.size ≤ goto → goto < h'.size → result = .block goto ∧
    ∃ offset, h'.bare goto = gotoBlock .goto offset (.block target)
  result : ∀ v, result = .block v → v = target ∨ h.size ≤ v

section Pointed

variable {h' : Graph} {i target : BlockId} {kind : EdgeKind} {result : Target}

/-- An edge is the one that leads elsewhere, one from before, or that of a new literal jump. -/
theorem Pointed.edge_cases (pointed : Pointed h i kind target result h') {u v : BlockId}
    {other : EdgeKind} (edge : (h'.bare u).edge? other = some (.block v)) :
    ((u = i ∧ other = kind) ∧ result = .block v) ∨
      (h.bare u).edge? other = some (.block v) ∨ v = target := by
  -- A new block is a literal jump, whose one edge leads where the edge led before.
  by_cases old : u < h.size
  · rw [pointed.edge u old] at edge
    split at edge
    · next same => exact .inl ⟨same, Option.some.inj edge⟩
    · exact .inr (.inl edge)
  · obtain ⟨-, _, isGoto⟩ := pointed.gotos u (Nat.le_of_not_lt old) (lt_size_of_edge edge)
    rw [isGoto, edge?_gotoBlock] at edge
    split at edge
    · cases edge
      exact .inr (.inr rfl)
    · cases edge

/-- Leaving an edge as it is. -/
theorem pointed_self (mirrored : h.Mirrored)
    (present : (h.bare i).edge? kind = some (.block target)) :
    Pointed h i kind target (.block target) h := by
  -- Nothing changes at all.
  refine ⟨mirrored, Nat.le_refl _, fun _ _ => ⟨rfl, rfl⟩, fun _ _ _ => rfl, fun j _ k => ?_,
    fun goto isNew old => absurd old (Nat.not_lt.mpr isNew),
    fun v same => .inl (by cases same; rfl)⟩
  split
  · next same => rw [same.1, same.2, present]
  · rfl

/-- Turning an edge into an exit. -/
theorem pointed_exit (mirrored : h.Mirrored)
    (present : (h.bare i).edge? kind = some (.block target)) (way : Exit) :
    Pointed h i kind target (.exit way) (h.setEdge i kind (some (.exit way))) := by
  -- The edge is there, so that it can be pointed elsewhere.
  have inside : i < h.size := lt_size_of_edge present
  have isPresent : ((h.bare i).edge? kind).isSome := by rw [present]; rfl
  refine ⟨mirrored.setEdge fun v same => ?_,
    by simp [setEdge], fun j _ => type_setEdge_graph inside j, ?_,
    fun j _ k => edge?_setEdge_graph inside isPresent j k, ?_, fun v same => ?_⟩
  · cases same
  · intro j _ other
    exact (bare_setEdge_graph inside j).trans (if_neg other)
  · intro goto isNew old
    exact absurd (by simpa [setEdge] using old) (Nat.not_lt.mpr isNew)
  · cases same

/-- The blocks other than the source of an edge that is led through a new literal jump. -/
theorem bare_setEdge_addGoto (inside : i < h.size) (offset : Offset) {j : BlockId} (other : j ≠ i) :
    ((h.addGoto .goto offset (.block target)).2.setEdge i kind (some (.block h.size))).bare j =
      if j = h.size then gotoBlock .goto offset (.block target) else h.bare j := by
  -- The edge is changed after the jump is added.
  have known : i < (h.addGoto .goto offset (.block target)).2.size := by
    simpa using Nat.lt_succ_of_lt inside
  calc ((h.addGoto .goto offset (.block target)).2.setEdge i kind (some (.block h.size))).bare j
    _ = (h.addGoto .goto offset (.block target)).2.bare j :=
      (bare_setEdge_graph known j).trans (if_neg other)
    _ = _ := bare_addGoto j

/-- Leading an edge through a new literal jump. -/
theorem pointed_goto (mirrored : h.Mirrored)
    (present : (h.bare i).edge? kind = some (.block target)) (offset : Offset) :
    Pointed h i kind target (.block h.size)
      ((h.addGoto .goto offset (.block target)).2.setEdge i kind (some (.block h.size))) := by
  -- The jump is numbered behind all blocks.
  have inside : i < h.size := lt_size_of_edge present
  let jumped := (h.addGoto .goto offset (.block target)).2
  have size : jumped.size = h.size + 1 := size_addGoto
  have insideJumped : i < jumped.size := size ▸ Nat.lt_succ_of_lt inside
  have old : ∀ j < h.size, jumped.bare j = h.bare j := fun j below =>
    (bare_addGoto j).trans (if_neg (Nat.ne_of_lt below))
  have isPresent : ((jumped.bare i).edge? kind).isSome := by rw [old i inside, present]; rfl
  have mirroredJumped : jumped.Mirrored := mirrored.addGoto fun v same => by
    cases same
    exact mirrored.bounded ⟨kind, present⟩
  -- The jump is added first; then the edge is pointed at it, as at any block.
  refine ⟨mirroredJumped.setEdge fun v same => ?_,
    by simp [setEdge], fun j below => ?_, fun j below other => ?_,
    fun j below k => ?_, fun goto isNew below => ?_, fun v same => ?_⟩
  · cases same
    exact size ▸ Nat.lt_succ_self _
  · have same := @type_setEdge_graph jumped i kind (.block h.size) insideJumped j
    rwa [old j below] at same
  · rw [bare_setEdge_addGoto inside offset other, if_neg (Nat.ne_of_lt below)]
  · rw [edge?_setEdge_graph insideJumped isPresent, old j below]
  · obtain rfl : goto = h.size :=
      Nat.le_antisymm (Nat.le_of_lt_succ (by simpa [setEdge] using below)) isNew
    exact ⟨rfl, offset,
      by rw [bare_setEdge_addGoto inside offset (Nat.ne_of_gt inside), if_pos rfl]⟩
  · cases same
    exact .inr (Nat.le_refl _)

namespace Rerouted

variable {base : Graph} {edges : List (BlockId × EdgeKind × BlockId)}

/-- A literal jump that one edge leads to and no other. -/
theorem gotos_point (done : Rerouted base header body after edges h)
    (pointed : Pointed h i kind target result h') (fresh : ∀ target, (i, kind, target) ∉ edges)
    (known : i < base.size) (bound : target < base.size)
    (made : RerouteTo h' base.size header body after kind target (some result)) {goto : BlockId}
    (isNew : base.size ≤ goto) (inside : goto < h'.size) :
    ∃ j k t offset, (j, k, t) ∈ edges ++ [(i, kind, target)] ∧
      Rerouting.ofEdge header body after k t = .jumps ∧
      h'.bare goto = gotoBlock .goto offset (.block t) ∧ (h'.bare j).edge? k = some (.block goto) ∧
      ∀ u l, (h'.bare u).edge? l = some (.block goto) → u = j ∧ l = k := by
  -- Either the jump was there before, and the edge that leads elsewhere does not lead
  -- to it, or that edge is its own.
  have notTarget : goto ≠ target := fun same => absurd bound (Nat.not_lt.mpr (same ▸ isNew))
  by_cases old : goto < h.size
  · obtain ⟨j, k, t, offset, listed, jumps, isGoto, leads, unique⟩ := done.gotos goto isNew old
    have earlier : ¬(j = i ∧ k = kind) := fun same => fresh t (same.1 ▸ same.2 ▸ listed)
    have other : goto ≠ i := Nat.ne_of_gt (Nat.lt_of_lt_of_le known isNew)
    refine ⟨j, k, t, offset, List.mem_append_left _ listed, jumps,
      (pointed.others goto old other).trans isGoto, ?_, ?_⟩
    · rw [pointed.edge j (lt_size_of_edge leads), if_neg earlier, leads]
    · intro u l edge
      rcases pointed.edge_cases edge with ⟨-, same⟩ | before | same
      · rcases pointed.result goto same with same | beyond
        · exact absurd same notTarget
        · exact absurd old (Nat.not_lt.mpr beyond)
      · exact unique u l before
      · exact absurd same notTarget
  · obtain ⟨rfl, offset, isGoto⟩ := pointed.gotos goto (Nat.le_of_not_lt old) inside
    refine ⟨i, kind, target, offset, List.mem_append_right _ List.mem_cons_self,
      made.jumps notTarget, isGoto, ?_, ?_⟩
    · rw [pointed.edge i (Nat.lt_of_lt_of_le known done.grows), if_pos ⟨rfl, rfl⟩]
    · intro u l edge
      rcases pointed.edge_cases edge with ⟨same, -⟩ | before | same
      · exact same
      · exact absurd (done.mirrored.bounded ⟨l, before⟩) old
      · exact absurd same notTarget

/-- One more edge of a loop's body is rerouted by pointing it at the target that is made for it. -/
theorem point (done : Rerouted base header body after edges h)
    (pointed : Pointed h i kind target result h') (linked : base.Linked → h'.Linked)
    (fresh : ∀ target, (i, kind, target) ∉ edges) (known : i < base.size)
    (bound : target < base.size)
    (made : RerouteTo h' base.size header body after kind target (some result)) :
    Rerouted base header body after (edges ++ [(i, kind, target)]) h' := by
  -- An edge that is not the new one is as it was before.
  have below : ∀ {j}, j < base.size → j < h.size := fun less => Nat.lt_of_lt_of_le less done.grows
  refine ⟨pointed.mirrored, linked, Nat.le_trans done.grows pointed.grows, ?_, ?_, ?_, ?_,
    fun goto isNew inside => done.gotos_point pointed fresh known bound made isNew inside⟩
  · exact fun j less => (pointed.type j (below less)).1.trans (done.type j less)
  · exact fun j less => (pointed.type j (below less)).2.trans (done.code j less)
  · intro j less k absent
    rw [pointed.edge j (below less), if_neg,
      done.kept j less k fun t listed => absent t (List.mem_append_left _ listed)]
    rintro ⟨rfl, rfl⟩
    exact absent target (List.mem_append_right _ List.mem_cons_self)
  · intro j k t listed
    rcases List.mem_append.mp listed with before | last
    · -- An edge that was rerouted before is another one, and its literal jump has not changed.
      have result := done.rerouted j k t before
      have earlier : ¬(j = i ∧ k = kind) := fun same => fresh t (same.1 ▸ same.2 ▸ before)
      obtain ⟨_, leads⟩ := Option.isSome_iff_exists.mp result.isSome
      rw [pointed.edge j (lt_size_of_edge leads), if_neg earlier]
      refine result.congr fun goto isNew edge => ?_
      exact pointed.others goto (done.mirrored.bounded ⟨k, edge⟩)
        (Nat.ne_of_gt (Nat.lt_of_lt_of_le known isNew))
    · -- The last edge is the one that leads elsewhere.
      cases List.mem_singleton.mp last
      rw [pointed.edge i (below known), if_pos ⟨rfl, rfl⟩]
      exact made

/-- Rerouting one more edge of a loop's body. -/
theorem reroute (done : Rerouted base header body after edges h)
    (fresh : ∀ target, (i, kind, target) ∉ edges) (known : i < base.size)
    (leads : (base.bare i).edge? kind = some (.block target)) (bound : target < base.size) :
    Rerouted base header body after (edges ++ [(i, kind, target)])
      (h.reroute header body after (i, kind, target)) := by
  -- The edge has not been touched so far.
  have inside : i < h.size := Nat.lt_of_lt_of_le known done.grows
  have present : (h.bare i).edge? kind = some (.block target) :=
    (done.kept i known kind fresh).trans leads
  -- An edge is left, turned into a loop exit, or led through a new jump; `point`
  -- is the step the three share.
  cases rerouting : Rerouting.ofEdge header body after kind target with
  | stays =>
    simp only [Graph.reroute, rerouting]
    exact done.point (pointed_self done.mirrored present) done.linked fresh known bound
      (by simp [RerouteTo, rerouting])
  | exits way =>
    simp only [Graph.reroute, rerouting]
    exact done.point (pointed_exit done.mirrored present way)
      (fun before => (done.linked before).setEdge fun v same => by cases same) fresh known bound
      (by simp [RerouteTo, rerouting])
  | jumps =>
    simp only [Graph.reroute, rerouting]
    refine done.point (pointed_goto done.mirrored present (h.block i).finish) (fun before => ?_)
      fresh known bound ?_
    · have behind : start < target ∧ target < h.size :=
        ⟨(before.behind ⟨kind, leads⟩).1, Nat.lt_of_lt_of_le bound done.grows⟩
      refine ((done.linked before).addGoto fun v same => ?_).setEdge fun v same => ?_
      · cases same
        exact behind
      · cases same
        exact ⟨(done.linked before).nonempty, by simp⟩
    · simp only [RerouteTo, rerouting]
      exact ⟨h.size, (h.block i).finish, done.grows, rfl,
        (bare_setEdge_addGoto inside _ (Nat.ne_of_gt inside)).trans (if_pos rfl)⟩

end Rerouted

end Pointed

/-- Rerouting the edges of a loop's body one after the other. -/
theorem rerouted_foldl {base : Graph} (mirrored : base.Mirrored)
    {edges : List (BlockId × EdgeKind × BlockId)}
    (distinct : (edges.map fun edge => (edge.1, edge.2.1)).Nodup)
    (leads : ∀ i kind target, (i, kind, target) ∈ edges →
      (base.bare i).edge? kind = some (.block target)) :
    Rerouted base header body after edges (edges.foldl (·.reroute header body after ·) base) := by
  suffices ∀ (rest done : List (BlockId × EdgeKind × BlockId)) (h : Graph), done ++ rest = edges →
      Rerouted base header body after done h →
      Rerouted base header body after edges (rest.foldl (·.reroute header body after ·) h) from
    this edges [] base rfl ⟨mirrored, id, Nat.le_refl _, fun _ _ => rfl, fun _ _ => rfl,
      fun _ _ _ _ => rfl, fun _ _ _ listed => absurd listed List.not_mem_nil,
      fun _ isNew old => absurd old (Nat.not_lt.mpr isNew)⟩
  intro rest
  -- By induction on the edges that are left, with the graph after those that are done.
  induction rest with
  | nil =>
    rintro done h rfl isDone
    simpa using isDone
  | cons edge rest ih =>
    rintro done h rfl isDone
    obtain ⟨i, kind, target⟩ := edge
    have leads' := leads i kind target (List.mem_append_right _ List.mem_cons_self)
    refine ih (done ++ [(i, kind, target)]) _ (by simp)
      (isDone.reroute ?_ (lt_size_of_edge leads') leads' (mirrored.bounded ⟨kind, leads'⟩))
    -- Edges are told apart by their source and kind.
    intro other listed
    rw [List.map_append, List.map_cons, List.nodup_append] at distinct
    exact distinct.2.2 (i, kind) (List.mem_map.mpr ⟨_, listed, rfl⟩)
      (i, kind) List.mem_cons_self rfl

/-- The block after a loop is one of its exits. -/
theorem loopEnd?_mem {exits : IdSet} {last : BlockId} (found : g.loopEnd? core exits = some last) :
    last ∈ exits := by
  simp only [loopEnd?] at found
  -- The end is an exit that fits, or else the first exit.
  rcases Option.or_eq_some_iff.mp found with first | ⟨-, head⟩
  · exact mem_byOffset.mp (List.mem_of_find?_eq_some first)
  · exact mem_byOffset.mp (List.mem_of_head? head)

end Graph

end Unjump
