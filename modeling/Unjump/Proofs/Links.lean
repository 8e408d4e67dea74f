import Unjump.Graph.Basic
import Unjump.Proofs.Edge

/-!
Predecessor sets mirror edges, and every change of a graph keeps them so.

A mirrored graph is known by its blocks without their predecessor sets, so the changes
are described on those.
-/

namespace Unjump

/-- Whether an edge may lead to a target: to one of a number of blocks,
and to the entry only if that may be entered. -/
def Target.Fits (entered : Prop) (size : Nat) : Target → Prop
  | .block id => id < size ∧ (id = Graph.start → entered)
  | .exit _ => True

/-- Whether every edge of a block leads where it may. -/
structure Block.Fits (entered : Prop) (size : Nat) (b : Block) : Prop where
  next : ∀ target, b.next = some target → target.Fits entered size
  branch : ∀ target, b.branch = some target → target.Fits entered size
  condition : ∀ target, b.condition = some target → target.Fits entered size
  sub1 : ∀ target, b.sub1 = some target → target.Fits entered size
  sub2 : ∀ target, b.sub2 = some target → target.Fits entered size
  cases : ∀ entry ∈ b.cases, entry.target.Fits entered size
  handlers : ∀ handler ∈ b.handlers, handler.target.Fits entered size

section Fits

variable {entered : Prop} {size larger : Nat} {target : Target} {b : Block}

/-- A target that fits still fits if there are more blocks. -/
theorem Target.Fits.mono (fits : target.Fits entered size) (grows : size ≤ larger) :
    target.Fits entered larger := by
  -- An exit fits anywhere.
  cases target with
  | block id => exact ⟨Nat.lt_of_lt_of_le fits.1 grows, fits.2⟩
  | exit way => trivial

/-- Edges may lead to blocks behind the entry. -/
theorem Target.Fits.of_behind (behind : ∀ id, target = .block id → Graph.start < id ∧ id < size) :
    target.Fits entered size := by
  cases target with
  | block id => exact ⟨(behind id rfl).2, fun same => absurd same (Nat.ne_of_gt (behind id rfl).1)⟩
  | exit way => trivial

/-- A block fits if all of its edges do. -/
theorem Block.fits_iff :
    b.Fits entered size ↔ ∀ kind target, b.edge? kind = some target → target.Fits entered size := by
  constructor
  · intro fits kind target edge
    -- Cases and handlers are read by position, so their edges come from the entries of a list.
    cases kind with
    | next => exact fits.next target edge
    | branch => exact fits.branch target edge
    | condition => exact fits.condition target edge
    | sub1 => exact fits.sub1 target edge
    | sub2 => exact fits.sub2 target edge
    | case i =>
      obtain ⟨entry, listed, same⟩ := edge?_case_mem edge
      exact same ▸ fits.cases entry listed
    | handler i =>
      obtain ⟨handler, listed, same⟩ := edge?_handler_mem edge
      exact same ▸ fits.handlers handler listed
  · intro fits
    refine ⟨fits .next, fits .branch, fits .condition, fits .sub1, fits .sub2,
      fun entry listed => ?_, fun handler listed => ?_⟩
    · obtain ⟨i, edge⟩ := edge?_of_mem_cases listed
      exact fits (.case i) _ edge
    · obtain ⟨i, edge⟩ := edge?_of_mem_handlers listed
      exact fits (.handler i) _ edge

/-- A block without edges fits anywhere. -/
theorem Block.Fits.of_blank (blank : ∀ kind, b.edge? kind = none) : b.Fits entered size :=
  Block.fits_iff.mpr fun kind _ edge => by cases (blank kind).symm.trans edge

/-- What holds of all elements and of what becomes of one holds after that change. -/
private theorem forall_mem_modify {α : Type} {P : α → Prop} {items : List α} {i : Nat}
    {change : α → α} (all : ∀ item ∈ items, P item) (changed : ∀ item ∈ items, P (change item)) :
    ∀ item ∈ items.modify i change, P item := by
  intro item listed
  -- One position holds the changed element, and all others what they held.
  obtain ⟨j, bound, rfl⟩ := List.mem_iff_getElem.mp listed
  rw [List.getElem_modify]
  split
  · exact changed _ (List.getElem_mem _)
  · exact all _ (List.getElem_mem _)

/-- Pointing an edge at a target that fits. -/
theorem Block.Fits.setEdge (fits : b.Fits entered size) {kind : EdgeKind} {target : Option Target}
    (fitsTarget : ∀ way, target = some way → way.Fits entered size) :
    (b.setEdge kind target).Fits entered size := by
  -- A field takes the target itself; a case or a handler is changed in its place,
  -- and stays without one.
  cases kind with
  | next => exact { fits with next := fitsTarget }
  | branch => exact { fits with branch := fitsTarget }
  | condition => exact { fits with condition := fitsTarget }
  | sub1 => exact { fits with sub1 := fitsTarget }
  | sub2 => exact { fits with sub2 := fitsTarget }
  | case i =>
    cases target with
    | none => exact fits
    | some way =>
      exact { fits with cases := forall_mem_modify fits.cases fun _ _ => fitsTarget way rfl }
  | handler i =>
    cases target with
    | none => exact fits
    | some way =>
      exact { fits with handlers := forall_mem_modify fits.handlers fun _ _ => fitsTarget way rfl }

end Fits

/-- The block without its predecessor set. -/
def Block.bare (b : Block) : Block := { b with preds := ∅ }

namespace Graph

/-- The block of a number without its predecessor set. -/
def bare (g : Graph) (id : BlockId) : Block := (g.block id).bare

/-- Whether some edge leads from one block to another. -/
def Leads (g : Graph) (source target : BlockId) : Prop :=
  ∃ kind, (g.bare source).edge? kind = some (.block target)

/-- There are no edges at numbers without a block. -/
theorem edge?_of_size_le {g : Graph} {id : BlockId} (absent : g.size ≤ id) (kind : EdgeKind) :
    (g.bare id).edge? kind = none := by
  -- The block in the place of a missing one is blank.
  rw [bare, block_of_size_le absent]
  cases kind <;> rfl

/-- Only blocks of the graph have edges. -/
theorem lt_size_of_edge {g : Graph} {id : BlockId} {kind : EdgeKind} {target : Target}
    (leads : (g.bare id).edge? kind = some target) : id < g.size := by
  -- A missing block has no edges.
  apply Nat.lt_of_not_le
  intro absent
  rw [edge?_of_size_le absent] at leads
  cases leads

/-- A block that is no entry is a block of the graph. -/
theorem lt_size_of_type {g : Graph} {id : BlockId} (notEntry : (g.bare id).type ≠ .start) :
    id < g.size := by
  -- The block in the place of a missing one is an entry.
  apply Nat.lt_of_not_le
  intro absent
  exact notEntry (by rw [bare, block_of_size_le absent]; rfl)

/-- Raw code is found at blocks of the graph alone. -/
theorem lt_size_of_raw {g : Graph} {id : BlockId} {type : RawType}
    (isRaw : (g.bare id).type = .raw type) : id < g.size :=
  lt_size_of_type (by simp [isRaw])

/-- What leads somewhere is a block of the graph. -/
theorem Leads.lt_size {g : Graph} {source target : BlockId} (leads : g.Leads source target) :
    source < g.size := by
  obtain ⟨kind, edge⟩ := leads
  exact lt_size_of_edge edge

/-- The targets of a block are the blocks that it leads to. -/
theorem mem_targets {g : Graph} {source target : BlockId} :
    target ∈ (g.block source).targets ↔ g.Leads source target := Block.mem_targets

/-- Edges lead to blocks of the graph, and the predecessor sets hold exactly the sources
of edges. -/
structure Mirrored (g : Graph) : Prop where
  bounded : ∀ {source target : BlockId}, g.Leads source target → target < g.size
  mirror : ∀ {source target : BlockId}, source ∈ (g.block target).preds ↔ g.Leads source target

/-- Nothing leads to a block without predecessors. -/
theorem Mirrored.not_leads {g : Graph} (mirrored : g.Mirrored) {id : BlockId}
    (alone : (g.block id).preds = ∅) (source : BlockId) : ¬ g.Leads source id :=
  fun leads => IdSet.not_mem_empty source (alone ▸ mirrored.mirror.mpr leads)

/-- A new block takes the next number. -/
theorem bare_add (g : Graph) (b : Block) (id : BlockId) :
    (g.add b).2.bare id = if id = g.size then b.bare else g.bare id := by
  -- All other blocks stay where they are.
  simp only [bare, block_add]
  split <;> rfl

/-- A change sets its own block, and of all others at most the predecessor sets. -/
theorem bare_update_block {g : Graph} {id : BlockId} (change : Block → Block) (known : id < g.size)
    (i : BlockId) :
    (g.update id change).bare i = if i = id then (change (g.block id)).bare else g.bare i := by
  simp only [bare, update, getElem?_blocks known]
  generalize g.block id = old
  by_cases below : i < g.size
  -- Beside the changed block only predecessor sets differ, and these are left out.
  · rw [block, Array.getD_eq_getD_getElem?, Array.getElem?_mapIdx, getElem?_blocks below]
    simp only [Option.map_some, Option.getD_some]
    split <;> split <;> (try split) <;> rfl
  · have absent : g.blocks[i]? = none := Array.getElem?_eq_none (Nat.not_lt.mp below)
    have other : i ≠ id := fun same => below (same ▸ known)
    simp [block, Array.getD_eq_getD_getElem?, absent, other]

/-- A change that does not look at predecessor sets is known by what it does
to blocks without them. -/
theorem bare_update {g : Graph} {id : BlockId} (change : Block → Block) (known : id < g.size)
    (pure : ∀ b, (change b).bare = change b.bare) (i : BlockId) :
    (g.update id change).bare i = if i = id then change (g.bare id) else g.bare i := by
  rw [bare_update_block change known, pure]
  rfl

/-- A change moves its block in and out of the predecessor sets of the targets
that it gains and loses. -/
theorem mem_preds_update {g : Graph} {id : BlockId} {change : Block → Block} (mirrored : g.Mirrored)
    (known : id < g.size) (kept : (change (g.block id)).preds = (g.block id).preds)
    {source target : BlockId} (below : target < g.size) :
    source ∈ ((g.update id change).block target).preds ↔
      if source = id then target ∈ (change (g.block id)).targets
        else source ∈ (g.block target).preds := by
  -- In a mirrored graph the old predecessor set says what the old targets were.
  have before : id ∈ (g.block target).preds ↔ target ∈ (g.block id).targets :=
    mirrored.mirror.trans mem_targets.symm
  -- The changed block keeps its own set, too.
  have unchanged : (if target = id then change (g.block id) else g.block target).preds =
      (g.block target).preds := by
    split
    · next same => rw [same, kept]
    · rfl
  rw [update, getElem?_blocks known, block, Array.getD_eq_getD_getElem?, Array.getElem?_mapIdx,
    getElem?_blocks below]
  simp only [Option.map_some, Option.getD_some]
  -- The two sets of targets decide between leaving, joining and staying.
  split
  · -- The block has lost the target.
    next lost =>
    simp only [unchanged, IdSet.mem_erase]
    by_cases same : source = id
    · subst same
      simp [lost.2]
    · simp [same]
  · split
    · -- The block has gained the target.
      next gained =>
      simp only [unchanged, IdSet.mem_insert]
      by_cases same : source = id
      · subst same
        simp [gained.1]
      · simp [same]
    · -- Otherwise nothing has changed about it.
      next notLost notGained =>
      rw [unchanged]
      by_cases same : source = id
      · subst same
        rw [if_pos rfl, before]
        constructor
        · intro old
          exact Classical.byContradiction fun gone => notLost ⟨old, gone⟩
        · intro new
          exact Classical.byContradiction fun fresh => notGained ⟨new, fresh⟩
      · rw [if_neg same]

/-- A change whose new edges stay in the graph keeps the predecessor sets in step. -/
theorem Mirrored.update {g : Graph} {id : BlockId} {change : Block → Block} (mirrored : g.Mirrored)
    (kept : (change (g.block id)).preds = (g.block id).preds)
    (inside : ∀ {kind target}, (change (g.block id)).edge? kind = some (.block target) →
      target < g.size) :
    (g.update id change).Mirrored := by
  by_cases known : id < g.size
  -- The changed block has its new edges, and every other block those that it had.
  · have edges : ∀ source target, (g.update id change).Leads source target ↔
        if source = id then target ∈ (change (g.block id)).targets else g.Leads source target := by
      intro source target
      simp only [Leads, bare_update_block change known]
      split
      · exact Block.mem_targets.symm
      · rfl
    have bounded : ∀ source target, (g.update id change).Leads source target → target < g.size := by
      intro source target leads
      rw [edges] at leads
      split at leads
      · obtain ⟨kind, edge⟩ := Block.mem_targets.mp leads
        exact inside edge
      · exact mirrored.bounded leads
    refine ⟨fun leads => by simpa using bounded _ _ leads, fun {source target} => ?_⟩
    by_cases below : target < g.size
    · rw [mem_preds_update mirrored known kept below, edges]
      split
      · rfl
      · exact mirrored.mirror
    · -- Beyond the graph there are neither predecessors nor edges.
      rw [block_of_size_le (by simpa using below)]
      constructor
      · intro member
        exact absurd member (IdSet.not_mem_empty source)
      · intro leads
        exact absurd (bounded _ _ leads) below
  · rwa [update_of_size_le (Nat.not_lt.mp known)]

/-- A new block without edges keeps the predecessor sets in step. -/
theorem Mirrored.add {g : Graph} {b : Block} (mirrored : g.Mirrored)
    (blank : ∀ kind, b.edge? kind = none) (alone : b.preds = ∅) : (g.add b).2.Mirrored := by
  -- A block without edges adds none, and its number had none before.
  have edges : ∀ source target, (g.add b).2.Leads source target ↔ g.Leads source target := by
    intro source target
    simp only [Leads, bare_add]
    split
    · next same =>
      subst same
      constructor
      · rintro ⟨kind, edge⟩
        cases (blank kind).symm.trans edge
      · rintro ⟨kind, edge⟩
        rw [edge?_of_size_le (Nat.le_refl _)] at edge
        cases edge
    · rfl
  refine ⟨fun leads => ?_, fun {source target} => ?_⟩
  · rw [edges] at leads
    simpa using Nat.lt_succ_of_lt (mirrored.bounded leads)
  · rw [edges, block_add]
    split
    · next same =>
      -- No edge leads to a number that was not there before.
      subst same
      rw [alone]
      constructor
      · intro member
        exact absurd member (IdSet.not_mem_empty source)
      · intro leads
        exact absurd (mirrored.bounded leads) (Nat.lt_irrefl _)
    · exact mirrored.mirror

/-- The same change at several blocks sets each of them once. -/
theorem bare_foldl_update (change : Block → Block) (pure : ∀ b, (change b).bare = change b.bare)
    {ids : List BlockId} (distinct : ids.Nodup) {g : Graph} (known : ∀ id ∈ ids, id < g.size)
    (i : BlockId) :
    (ids.foldl (fun g id => g.update id change) g).bare i = if i ∈ ids then change (g.bare i)
      else g.bare i := by
  -- By induction on the blocks that are changed.
  induction ids generalizing g with
  | nil => simp
  | cons id rest ih =>
    obtain ⟨fresh, distinct⟩ := List.nodup_cons.mp distinct
    have first := known id List.mem_cons_self
    rw [List.foldl_cons, ih distinct fun other listed =>
      by simpa using known other (List.mem_cons_of_mem _ listed)]
    simp only [bare_update change first pure, List.mem_cons]
    -- The identifiers are distinct, so the head is not changed a second time by the rest.
    by_cases same : i = id
    · subst same
      simp [fresh]
    · simp [same]

/-- The same change at several blocks keeps the number of blocks. -/
@[simp] theorem size_foldl_update {change : Block → Block} {ids : List BlockId} {g : Graph} :
    (ids.foldl (fun g id => g.update id change) g).size = g.size := by
  -- By induction on the blocks that are changed.
  induction ids generalizing g with
  | nil => rfl
  | cons id rest ih => rw [List.foldl_cons, ih, size_update]

/-- The same change at several blocks keeps the predecessor sets in step if its edges stay
in the graph. -/
theorem Mirrored.foldl_update {ids : List BlockId} {g : Graph} (mirrored : g.Mirrored)
    (change : Block → Block) (kept : ∀ b, (change b).preds = b.preds)
    (inside : ∀ b : Block, (∀ kind target, b.edge? kind = some (.block target) → target < g.size) →
      ∀ kind target, (change b).edge? kind = some (.block target) → target < g.size) :
    (ids.foldl (fun g id => g.update id change) g).Mirrored := by
  -- By induction on the blocks that are changed.
  induction ids generalizing g with
  | nil => exact mirrored
  | cons id rest ih =>
    -- One step keeps the sets in step, and the rest of the list starts from there.
    have step : (g.update id change).Mirrored :=
      mirrored.update (kept _) fun edge =>
        inside (g.block id) (fun kind target old => mirrored.bounded ⟨kind, old⟩) _ _ edge
    exact ih step (by simpa using inside)

section Redirect

variable {g : Graph} {old : BlockId} {new : Target} {accept : BlockId → Bool}

/-- The predecessors of a block are blocks of the graph. -/
theorem Mirrored.lt_size_of_mem_preds (mirrored : g.Mirrored) {source target : BlockId}
    (member : source ∈ (g.block target).preds) : source < g.size :=
  (mirrored.mirror.mp member).lt_size

/-- Redirecting some edges keeps the number of blocks. -/
@[simp] theorem size_redirectFrom : (g.redirectFrom old new accept).size = g.size :=
  size_foldl_update

/-- Redirecting all edges keeps the number of blocks. -/
@[simp] theorem size_redirect : (g.redirect old new).size = g.size := size_redirectFrom

/-- A redirection renames the target in every block that passes the test. -/
theorem bare_redirectFrom (mirrored : g.Mirrored) (i : BlockId) :
    (g.redirectFrom old new accept).bare i =
      if accept i then (g.bare i).replaceTarget (.block old) new else g.bare i := by
  -- A predecessor stands once in its set, so it is changed once.
  have distinct : ((g.block old).preds.toList.filter accept).Nodup :=
    ((g.block old).preds.ascending.imp Nat.ne_of_lt).filter accept
  rw [redirectFrom, bare_foldl_update (·.replaceTarget (.block old) new) (fun _ => rfl) distinct]
  · have listed : i ∈ (g.block old).preds.toList.filter accept ↔
        g.Leads i old ∧ accept i = true := by
      rw [List.mem_filter, IdSet.mem_toList, mirrored.mirror]
    by_cases leads : g.Leads i old
    · by_cases passes : accept i = true
      · rw [if_pos (listed.mpr ⟨leads, passes⟩), if_pos passes]
      · rw [if_neg fun member => passes (listed.mp member).2, if_neg passes]
    · -- A block without an edge to the old target is not changed by renaming it.
      have same : (g.bare i).replaceTarget (.block old) new = g.bare i :=
        Block.replaceTarget_eq_self new fun kind edge => leads ⟨kind, edge⟩
      rw [same, if_neg fun member => leads (listed.mp member).1, ite_self]
  · intro id listed
    exact mirrored.lt_size_of_mem_preds (IdSet.mem_toList.mp (List.mem_filter.mp listed).1)

/-- A redirection renames the target everywhere. -/
theorem bare_redirect (mirrored : g.Mirrored) (i : BlockId) :
    (g.redirect old new).bare i = (g.bare i).replaceTarget (.block old) new := by
  rw [redirect, bare_redirectFrom mirrored]
  exact if_pos rfl

/-- A redirection to a block of the graph, or to an exit, keeps the predecessor sets in step. -/
theorem Mirrored.redirectFrom (mirrored : g.Mirrored)
    (inside : ∀ id, new = .block id → id < g.size) : (g.redirectFrom old new accept).Mirrored := by
  refine mirrored.foldl_update (·.replaceTarget (.block old) new) (fun _ => rfl) ?_
  intro b bounded kind target edge
  rw [Block.edge?_replaceTarget, Option.map_eq_some_iff] at edge
  obtain ⟨before, edge, renamed⟩ := edge
  -- An edge that led to the old target leads to the new one, and any other edge to where it led.
  by_cases same : before = .block old
  · rw [same, Target.renamed_self] at renamed
    exact inside target renamed
  · rw [Target.renamed_ne same] at renamed
    exact bounded kind target (renamed ▸ edge)

end Redirect

section Relink

variable {g : Graph}

/-- Reading the predecessor sets off the edges changes nothing else. -/
theorem bare_relink (g : Graph) (id : BlockId) : g.relink.bare id = g.bare id := by
  -- Beyond the graph there is nothing to read off.
  by_cases known : id < g.size
  · rw [bare, block, relink, Array.getD_eq_getD_getElem?, Array.getElem?_mapIdx,
      getElem?_blocks known]
    rfl
  · have absent : g.blocks[id]? = none := Array.getElem?_eq_none (Nat.le_of_not_lt known)
    simp [bare, block, relink, Array.getD_eq_getD_getElem?, absent]

/-- Reading off the predecessor sets keeps the number of blocks. -/
@[simp] theorem size_relink (g : Graph) : g.relink.size = g.size := by simp [relink, size]

/-- Edges stay in the graph if the targets of its blocks do. -/
theorem bounded_of_targets
    (inside : ∀ source < g.size, ∀ target ∈ (g.block source).targets.toList, target < g.size)
    {source target : BlockId} (leads : g.Leads source target) : target < g.size :=
  inside source leads.lt_size target (IdSet.mem_toList.mpr (mem_targets.mpr leads))

/-- Reading the predecessor sets off edges that stay in the graph makes them mirror the edges. -/
theorem mirrored_relink (bounded : ∀ {source target}, g.Leads source target → target < g.size) :
    g.relink.Mirrored := by
  -- The edges stay the same, and only the sets are read anew.
  have leads : ∀ source target, g.relink.Leads source target ↔ g.Leads source target := by
    intro source target
    simp only [Leads, bare_relink]
  refine ⟨fun isEdge => ?_, fun {source target} => ?_⟩
  · rw [size_relink]
    exact bounded ((leads _ _).mp isEdge)
  · rw [leads]
    by_cases known : target < g.size
    · have preds : (g.relink.block target).preds =
          IdSet.ofList (g.ids.filter fun pred =>
            target ∈ (g.blocks.map Block.targets).getD pred ∅) := by
        rw [block, relink, Array.getD_eq_getD_getElem?, Array.getElem?_mapIdx,
          getElem?_blocks known]
        rfl
      rw [preds, IdSet.mem_ofList, List.mem_filter, decide_eq_true_eq, ids, List.mem_range]
      -- The set lists the blocks whose targets the block is among.
      constructor
      · rintro ⟨inside, isTarget⟩
        simp only [Array.getD_eq_getD_getElem?, Array.getElem?_map, getElem?_blocks inside,
          Option.map_some, Option.getD_some] at isTarget
        exact mem_targets.mp isTarget
      · intro isEdge
        refine ⟨isEdge.lt_size, ?_⟩
        simp only [Array.getD_eq_getD_getElem?, Array.getElem?_map, getElem?_blocks isEdge.lt_size,
          Option.map_some, Option.getD_some]
        exact mem_targets.mpr isEdge
    · -- Beyond the graph there are neither predecessors nor edges.
      have blank : g.relink.block target = blankBlock := by
        have absent : g.relink.size ≤ target := by simpa using known
        simp [block, Array.getD_eq_getD_getElem?, Array.getElem?_eq_none absent]
      rw [blank]
      exact ⟨fun member => absurd member (IdSet.not_mem_empty source),
        fun isEdge => absurd (bounded isEdge) known⟩

end Relink

/-- A mirrored graph with an entry block to which edges lead only if that is allowed. -/
structure Confined (entered : Prop) (g : Graph) : Prop extends g.Mirrored where
  entry : ∀ source, g.Leads source start → entered
  rooted : (g.bare start).type = .start
  nonempty : start < g.size

namespace Confined

variable {g : Graph} {entered : Prop} (confined : g.Confined entered)

include confined

/-- The edges of every block lead where they may. -/
theorem fits (id : BlockId) : (g.block id).Fits entered g.size := by
  -- An exit fits anywhere, and a block by what the graph is.
  refine Block.fits_iff.mpr fun kind target edge => ?_
  cases target with
  | block target =>
    exact ⟨confined.bounded ⟨kind, edge⟩, fun same => confined.entry id ⟨kind, same ▸ edge⟩⟩
  | exit way => trivial

/-- Edges may lead to blocks to which edges lead. -/
theorem fits_of_leads {source target : BlockId} (leads : g.Leads source target) :
    (Target.block target).Fits entered g.size := by
  -- An edge that is there leads where it may.
  obtain ⟨kind, edge⟩ := leads
  exact Block.fits_iff.mp (confined.fits source) kind _ edge

/-- Edges may lead to a new block. -/
theorem fits_size : (Target.block g.size).Fits entered (g.size + 1) :=
  ⟨Nat.lt_succ_self _, fun same => absurd same (Nat.ne_of_gt confined.nonempty)⟩

/-- A change whose new edges lead where they may keeps a graph confined. -/
theorem update {id : BlockId} (change : Block → Block)
    (kept : (change (g.block id)).preds = (g.block id).preds)
    (fits : (change (g.block id)).Fits entered g.size)
    (root : id = start → (change (g.block id)).type = .start) :
    (g.update id change).Confined entered := by
  have fits := Block.fits_iff.mp fits
  by_cases known : id < g.size
  -- An edge to the entry is a new one, which is allowed, or one that was there before.
  · refine ⟨confined.toMirrored.update kept fun edge => (fits _ _ edge).1, ?_, ?_,
      by simpa using confined.nonempty⟩
    · rintro source ⟨kind, edge⟩
      rw [bare_update_block change known] at edge
      split at edge
      · exact (fits _ _ edge).2 rfl
      · exact confined.entry source ⟨kind, edge⟩
    · -- The entry keeps its type, even if it is the block that changes.
      rw [bare_update_block change known]
      split
      · next same => exact root same.symm
      · exact confined.rooted
  · rwa [update_of_size_le (Nat.not_lt.mp known)]

/-- A new block without edges keeps a graph confined. -/
theorem add (b : Block) (blank : ∀ kind, b.edge? kind = none) (alone : b.preds = ∅) :
    (g.add b).2.Confined entered := by
  refine ⟨confined.toMirrored.add blank alone, ?_, ?_,
    by simpa using Nat.lt_succ_of_lt confined.nonempty⟩
  · -- The new block leads nowhere, not to the entry either.
    rintro source ⟨kind, edge⟩
    rw [bare_add] at edge
    split at edge
    · cases (blank kind).symm.trans edge
    · exact confined.entry source ⟨kind, edge⟩
  · rw [bare_add, if_neg (Nat.ne_of_lt confined.nonempty)]
    exact confined.rooted

/-- A redirection to a target where edges may lead keeps a graph confined. -/
theorem redirectFrom {old : BlockId} {new : Target} {accept : BlockId → Bool}
    (fits : new.Fits entered g.size) : (g.redirectFrom old new accept).Confined entered := by
  refine ⟨confined.toMirrored.redirectFrom ?_, ?_, ?_, by simpa using confined.nonempty⟩
  · rintro id rfl
    exact fits.1
  · rintro source ⟨kind, edge⟩
    rw [bare_redirectFrom confined.toMirrored] at edge
    split at edge
    · rw [Block.edge?_replaceTarget, Option.map_eq_some_iff] at edge
      obtain ⟨before, edge, renamed⟩ := edge
      -- Only an edge to the old target is new, and it leads to where edges may lead.
      by_cases same : before = .block old
      · rw [same, Target.renamed_self] at renamed
        subst renamed
        exact fits.2 rfl
      · rw [Target.renamed_ne same] at renamed
        exact confined.entry source ⟨kind, renamed ▸ edge⟩
    · exact confined.entry source ⟨kind, edge⟩
  · rw [bare_redirectFrom confined.toMirrored]
    split <;> exact confined.rooted

end Confined

/-- A mirrored graph whose entry block no edge leads to. -/
structure Linked (g : Graph) : Prop extends g.Confined False

namespace Linked

variable {g : Graph} (linked : g.Linked)

include linked

/-- No edge leads to the entry. -/
theorem unentered (source : BlockId) : ¬ g.Leads source start := linked.entry source

/-- The targets of edges lie behind the entry. -/
theorem behind {source target : BlockId} (leads : g.Leads source target) :
    start < target ∧ target < g.size :=
  ⟨Nat.pos_of_ne_zero fun same =>
    linked.unentered source (by rwa [same] at leads), linked.bounded leads⟩

/-- A change whose new edges lead behind the entry keeps the links. -/
theorem update {id : BlockId} (change : Block → Block) (pure : ∀ b, (change b).bare = change b.bare)
    (kept : ∀ b, (change b).preds = b.preds)
    (behind : ∀ kind target, (change (g.bare id)).edge? kind = some (.block target) →
      start < target ∧ target < g.size)
    (root : id = start → (change (g.bare id)).type = .start) : (g.update id change).Linked := by
  -- Predecessor sets do not matter for where edges lead.
  have bare : change (g.bare id) = (change (g.block id)).bare := (pure _).symm
  rw [bare] at behind root
  refine ⟨linked.toConfined.update change (kept _)
    (Block.fits_iff.mpr fun kind target edge => ?_) root⟩
  exact .of_behind fun other same => behind kind other (same ▸ edge)

/-- A redirection to a block behind the entry, or to an exit, keeps the links. -/
theorem redirectFrom {old : BlockId} {new : Target} {accept : BlockId → Bool}
    (behind : ∀ id, new = .block id → start < id ∧ id < g.size) :
    (g.redirectFrom old new accept).Linked :=
  ⟨linked.toConfined.redirectFrom (.of_behind behind)⟩

/-- A redirection of all edges keeps the links as well. -/
theorem redirect {old : BlockId} {new : Target}
    (behind : ∀ id, new = .block id → start < id ∧ id < g.size) : (g.redirect old new).Linked :=
  linked.redirectFrom behind

end Linked

end Graph

end Unjump
