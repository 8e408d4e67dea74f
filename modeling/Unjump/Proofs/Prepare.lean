import Unjump.Proofs.Build
import Unjump.Structuring

/-! Preparing a graph for the rules keeps it sound: tests stand alone, and returns may be shared. -/

namespace Unjump.Graph

variable {g h : Graph} {id : BlockId}

section Split

/-- The graph in which the statements before a test have become a block of their own. -/
structure TestSplit (g : Graph) (id : BlockId) (h : Graph) : Prop where
  linked : h.Linked
  size : h.size = g.size + 1
  known : id < g.size
  isTest : (g.bare id).type = .raw .conditional
  type : ∀ i < g.size, (h.bare i).type = (g.bare i).type
  edges : ∀ i < g.size, ∀ kind,
    (h.bare i).edge? kind = ((g.bare i).edge? kind).map ((Target.block id).renamed (.block g.size))
  newType : (h.bare g.size).type = .raw .statements
  newEdges : ∀ kind, (h.bare g.size).edge? kind = if kind = .next then some (.block id) else none
  code : ∀ i < g.size, i ≠ id → (h.bare i).code = (g.bare i).code
  moved : (h.bare g.size).code ++ (h.bare id).code = (g.bare id).code

/-- The empty block in front of a test. -/
private def headBlock (b : Block) (test : Expr) : Block :=
  { type := .raw .statements, start := b.start, finish := test.origin.offset }

/-- The block in front of a test, with the statements that it takes over. -/
private def fillHead (b : Block) (id : BlockId) (last : Expr) (before : List Expr) (head : Block) :
    Block :=
  { head with
    firstLine := b.firstLine
    lastLine := (last :: before).findSome? (·.origin.line)
    code := (last :: before).reverse
    next := some (.block id) }

/-- A block that keeps its test alone. -/
private def keepTest (test : Expr) (b : Block) : Block :=
  { b with
    start := test.origin.offset, firstLine := test.origin.line.or b.lastLine, code := [test] }

/-- The empty block in front of a test has no edges. -/
private theorem edge?_headBlock (b : Block) (test : Expr) (kind : EdgeKind) :
    (headBlock b test).edge? kind = none := by
  cases kind <;> rfl

/-- The block in front of a test leads to the test. -/
private theorem edge?_fillHead (b : Block) (id : BlockId) (last : Expr) (before : List Expr)
    (test : Expr) (kind : EdgeKind) :
    (fillHead b id last before (headBlock b test)).edge? kind =
      if kind = .next then some (.block id) else none := by
  cases kind <;> rfl

/-- A block that keeps its test alone keeps its edges. -/
private theorem edge?_keepTest (test : Expr) (b : Block) (kind : EdgeKind) :
    (keepTest test b).edge? kind = b.edge? kind := by
  cases kind <;> rfl

/-- The graph with a block in front of a test, which takes over the statements before the test. -/
private def withHead (g : Graph) (id : BlockId) (test last : Expr) (before : List Expr) : Graph :=
  (g.precede id (headBlock (g.block id) test)).update g.size (fillHead (g.block id) id last before)

section Head

variable {test last : Expr} {before : List Expr}

/-- There is one block more, that in front of the test. -/
private theorem size_withHead : (g.withHead id test last before).size = g.size + 1 := by
  rw [withHead, size_update, size_precede]

/-- The block in front of a test is the new one, and what led to the test leads there. -/
private theorem bare_withHead (linked : g.Linked) (i : BlockId) :
    (g.withHead id test last before).bare i =
      if i = g.size then fillHead (g.block id) id last before (headBlock (g.block id) test)
      else (g.bare i).replaceTarget (.block id) (.block g.size) := by
  -- The block is added in front first, which redirects the others to it, and filled after that.
  have blocks := @bare_precede g id _ linked.toMirrored (edge?_headBlock (g.block id) test) rfl
  have inside : g.size < (g.precede id (headBlock (g.block id) test)).size :=
    size_precede ▸ Nat.lt_succ_self _
  rw [withHead, bare_update (fillHead (g.block id) id last before) inside fun _ => rfl]
  split
  · rw [blocks, if_pos rfl]
  · next other => rw [blocks, if_neg other]

/-- Putting a block in front of a test keeps a graph linked. -/
private theorem Linked.withHead (linked : g.Linked)
    (isTest : (g.bare id).type = .raw .conditional) : (g.withHead id test last before).Linked := by
  -- The only edge of the new block leads to the test.
  refine (linked.precede (edge?_headBlock (g.block id) test) rfl).update _ (fun _ => rfl)
    (fun _ => rfl) ?_ ?_
  · intro kind target edge
    rw [bare_precede linked.toMirrored (edge?_headBlock (g.block id) test) rfl, if_pos rfl,
      edge?_fillHead] at edge
    split at edge
    · cases edge
      rw [size_precede]
      exact ⟨Nat.pos_of_ne_zero (linked.ne_start_of_raw isTest),
        Nat.lt_succ_of_lt (lt_size_of_raw isTest)⟩
    · cases edge
  · intro isStart
    exact absurd isStart (Nat.ne_of_gt linked.nonempty)

/-- Once the block in front of it has taken its statements over, the test keeps only itself. -/
private theorem testSplit_withHead (linked : g.Linked)
    (isTest : (g.bare id).type = .raw .conditional)
    (reversed : (g.bare id).code.reverse = test :: last :: before) :
    TestSplit g id ((g.withHead id test last before).update id (keepTest test)) := by
  -- The test itself, the other blocks and the new one.
  have known := lt_size_of_raw isTest
  have inside : id < (g.withHead id test last before).size := by
    rw [size_withHead]
    exact Nat.lt_succ_of_lt known
  have blocks := bare_update (keepTest test) inside fun _ => rfl
  have own : ((g.withHead id test last before).update id (keepTest test)).bare id =
      keepTest test ((g.bare id).replaceTarget (.block id) (.block g.size)) := by
    rw [blocks, if_pos rfl, bare_withHead linked, if_neg (Nat.ne_of_lt known)]
  have others : ∀ i < g.size, i ≠ id →
      ((g.withHead id test last before).update id (keepTest test)).bare i =
        (g.bare i).replaceTarget (.block id) (.block g.size) := by
    intro i old other
    rw [blocks, if_neg other, bare_withHead linked, if_neg (Nat.ne_of_lt old)]
  have isNew : ((g.withHead id test last before).update id (keepTest test)).bare g.size =
      fillHead (g.block id) id last before (headBlock (g.block id) test) := by
    rw [blocks, if_neg (Nat.ne_of_gt known), bare_withHead linked, if_pos rfl]
  refine
    { linked := (linked.withHead isTest).narrow _ (fun _ => rfl) (fun _ => rfl) ?_ ?_
      size := by rw [size_update, size_withHead]
      known, isTest
      type := ?_, edges := ?_, newType := by rw [isNew]; rfl
      newEdges := by rw [isNew]; exact edge?_fillHead _ _ _ _ _
      code := fun i old other => by rw [others i old other]; rfl
      moved := ?_ }
  · -- The test has the edges that it had.
    intro kind target edge
    rw [edge?_keepTest] at edge
    exact ⟨kind, edge⟩
  · intro isStart
    exact absurd isStart (linked.ne_start_of_raw isTest)
  · intro i old
    by_cases same : i = id
    · subst same
      rw [own]
      rfl
    · rw [others i old same]
      rfl
  · intro i old kind
    by_cases same : i = id
    · subst same
      rw [own, edge?_keepTest, Block.edge?_replaceTarget]
    · rw [others i old same, Block.edge?_replaceTarget]
  · -- The statements and the test are the code of the old block, last to first.
    rw [isNew, own]
    have code := congrArg List.reverse reversed
    rw [List.reverse_reverse, List.reverse_cons] at code
    exact code.symm

end Head

/-- Splitting a test off leaves the graph alone where there is nothing to split. -/
theorem splitTest_cases (linked : g.Linked) (id : BlockId) :
    g.splitTest id = g ∨ TestSplit g id (g.splitTest id) := by
  -- A raw test is split off if a statement comes before it.
  simp only [splitTest]
  split
  · next test last before isTest reversed => exact .inr (testSplit_withHead linked isTest reversed)
  · exact .inl rfl

/-- The block in front of a test is the only new one. -/
theorem TestSplit.eq_size (split : TestSplit g id h) {i : BlockId} (isNew : ¬ i < g.size)
    (inside : i < h.size) : i = g.size := by
  -- One block is added.
  rw [split.size] at inside
  exact Nat.le_antisymm (Nat.lt_succ_iff.mp inside) (Nat.le_of_not_lt isNew)

/-- The block in front of a test stands for the test. -/
theorem TestSplit.simulates (split : TestSplit g id h) (sound : g.Sound) :
    Simulates (fun _ => True) g h (g.standsFor id) := by
  -- The old blocks keep their edges but for the new name of the test.
  have inherits : ∀ u < g.size, g.Reached u → Inherits g id u (h.bare u) := by
    intro u known reached
    have renamed : Inherits g id u ((g.bare u).replaceTarget (.block id) (.block g.size)) :=
      inherits_replaceTarget sound.toLinked (Nat.le_refl g.size) (sound.shaped reached)
    refine ⟨fun kind target edge => ?_, renamed.shaped.congr (split.type u known) fun kind => ?_⟩
    · rw [split.edges u known, ← Block.edge?_replaceTarget] at edge
      exact ⟨split.type u known, (renamed.edges kind target edge).2⟩
    · rw [split.edges u known, ← Block.edge?_replaceTarget]
  refine
    { linked := split.linked
      grows := split.size ▸ Nat.le_succ _
      old := fun i known => standsFor_old id known
      steps := ?_, shaped := ?_ }
  · rintro allow lenient - u v reached ⟨kind, allowed, edge⟩
    by_cases known : u < g.size
    · rw [standsFor_old id known] at reached ⊢
      obtain ⟨type, before, edge, stands⟩ := (inherits u known reached).edges kind v edge
      exact stands.symm ▸ .single ⟨kind, type ▸ allowed, edge⟩
    · -- The new block leads to the test that it stands for.
      obtain rfl := split.eq_size known (lt_size_of_edge edge)
      rw [split.newEdges] at edge
      split at edge
      · cases edge
        rw [standsFor_new id (Nat.le_refl _), standsFor_old id split.known]
      · cases edge
  · intro i inside reached
    by_cases known : i < g.size
    · rw [standsFor_old id known] at reached
      exact (inherits i known reached).shaped
    · obtain rfl := split.eq_size known inside
      refine .ofRaw split.newType (fun kind required => by cases required) fun kind present => ?_
      rw [split.newEdges] at present
      split at present
      · next isNext => rw [isNext]; rfl
      · cases present

/-- Splitting a test off keeps a graph sound. -/
theorem Sound.splitTest (sound : g.Sound) (id : BlockId) : (g.splitTest id).Sound := by
  -- There is nothing to split, or the block in front stands for the test.
  rcases splitTest_cases sound.toLinked id with same | split
  · rwa [same]
  · exact (split.simulates sound).sound trivial sound.nonempty

end Split

section Share

/-- The graph in which the jumps to a return have become returns of their own. -/
structure ReturnShared (g : Graph) (id : BlockId) (h : Graph) : Prop where
  linked : h.Linked
  size : h.size = g.size
  isReturn : (g.bare id).type = .raw .returnVoid
  own : h.bare id = (g.bare id).detached
  others : ∀ i ≠ id, h.bare i = (g.bare i).replaceTarget (.block id) (.exit .methodReturn)

/-- Sharing a return leaves the graph alone where there is nothing to share. -/
theorem shareReturn_cases (linked : g.Linked) (id : BlockId) :
    g.shareReturn id = g ∨ ReturnShared g id (g.shareReturn id) := by
  -- The ways to the return become exits, and the block is left without edges.
  simp only [shareReturn]
  split
  · next shared =>
    have isReturn : (g.bare id).type = .raw .returnVoid := shared.1
    have known := lt_size_of_raw isReturn
    have redirected : (g.redirect id (.exit .methodReturn)).Linked :=
      linked.redirect fun _ same => nomatch same
    have knownRedirected : id < (g.redirect id (.exit .methodReturn)).size := by simpa using known
    have blocks := bare_update Block.detached knownRedirected fun _ => rfl
    -- Detaching takes edges away and nothing else.
    refine .inr ⟨?_, by simp [detach], isReturn, ?_, fun i other => ?_⟩
    · refine redirected.update _ (fun _ => rfl) (fun _ => rfl) (fun kind target edge => ?_)
        fun isStart => absurd isStart (linked.ne_start_of_raw isReturn)
      rw [Block.edge?_detached] at edge
      cases edge
    · rw [detach, blocks, if_pos rfl, bare_redirect linked.toMirrored]
      rfl
    · rw [detach, blocks, if_neg other, bare_redirect linked.toMirrored]
  · exact .inl rfl

/-- The edges of a graph with a shared return are those of the old graph that do not lead to it. -/
theorem ReturnShared.edge (shared : ReturnShared g id h) {i target : BlockId} {kind : EdgeKind}
    (edge : (h.bare i).edge? kind = some (.block target)) :
    i ≠ id ∧ target ≠ id ∧ (g.bare i).edge? kind = some (.block target) := by
  -- The return itself has no edges any more.
  by_cases same : i = id
  · rw [same, shared.own, Block.edge?_detached] at edge
    cases edge
  · refine ⟨same, ?_⟩
    rw [shared.others i same, Block.edge?_replaceTarget, Option.map_eq_some_iff] at edge
    obtain ⟨before, edge, renamed⟩ := edge
    -- What led to the return leaves the graph now.
    by_cases isReturn : before = .block id
    · rw [isReturn, Target.renamed_self] at renamed
      cases renamed
    · rw [Target.renamed_ne isReturn] at renamed
      subst renamed
      exact ⟨fun same => isReturn (congrArg Target.block same), edge⟩

/-- Sharing a return makes no new edges. -/
theorem ReturnShared.simulates (shared : ReturnShared g id h) (sound : g.Sound) :
    Simulates (fun _ => True) g h fun i => i where
  linked := shared.linked
  grows := Nat.le_of_eq shared.size.symm
  old := fun _ _ => rfl
  steps := by
    -- An edge that is left was there before, under the same kind.
    rintro allow lenient - u v - ⟨kind, allowed, edge⟩
    obtain ⟨other, -, before⟩ := shared.edge edge
    rw [shared.others u other] at allowed
    exact .single ⟨kind, allowed, before⟩
  shaped := by
    intro i inside reached
    -- The return still has the shape of one.
    by_cases same : i = id
    · rw [same, shared.own]
      refine .ofRaw shared.isReturn (fun kind required => nomatch required) fun kind present => ?_
      simp at present
    · rw [shared.others i same]
      exact (sound.shaped reached).congr rfl fun kind => by simp

/-- Sharing a return keeps a graph sound. -/
theorem Sound.shareReturn (sound : g.Sound) (id : BlockId) : (g.shareReturn id).Sound := by
  -- There is nothing to share, or edges have become exits.
  rcases shareReturn_cases sound.toLinked id with same | shared
  · rwa [same]
  · exact (shared.simulates sound).sound trivial sound.nonempty

/-- Preparing a sound graph keeps it sound. -/
theorem Sound.prepare (sound : g.Sound) (options : Options) : (g.prepare options).Sound := by
  -- Every test is split off, one after the other.
  have split : (g.reachable.toList.foldl Graph.splitTest g).Sound :=
    List.foldlRecOn g.reachable.toList Graph.splitTest sound fun _ sound id _ => sound.splitTest id
  simp only [Graph.prepare]
  split
  · exact List.foldlRecOn _ Graph.shareReturn split fun _ sound id _ => sound.shareReturn id
  · exact split

end Share

end Unjump.Graph
