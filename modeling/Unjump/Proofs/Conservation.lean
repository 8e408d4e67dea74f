import Mathlib.Data.List.Flatten
import Mathlib.Data.List.Perm.Subperm
import Unjump.Proofs.ControlFlow
import Unjump.Proofs.Ending
import Unjump.Proofs.Kept

/-!
What becomes of the code of a method.

Structuring never duplicates code, and never loses any either as long as no step leaves what it
makes out of reach. The blocks that get out of reach are then raw jumps without code.
-/

namespace Unjump.Graph

open scoped List

variable {g h : Graph} {rule : Rule} {id : BlockId}

/-- The code of all blocks that can be reached. -/
def heldCode (g : Graph) : List Expr := g.reachable.toList.flatMap fun id => (g.block id).code

/-- Blocks without code add nothing to the code that is held. -/
theorem heldCode_eq_flatMap_filter (g : Graph) :
    g.heldCode = (g.reachable.toList.filter fun id => !(g.block id).code.isEmpty).flatMap fun id =>
      (g.block id).code := by
  rw [heldCode]
  -- By induction on the blocks in reach.
  induction g.reachable.toList with
  | nil => rfl
  | cons id rest ih =>
    rw [List.flatMap_cons, ih, List.filter_cons]
    split
    · rw [List.flatMap_cons]
    · next isEmpty =>
      have empty : (g.block id).code = [] := by simpa using isEmpty
      rw [empty, List.nil_append]

/-- A graph in which all code stands where it stood before holds no more code. -/
theorem heldCode_subperm (linked : g.Linked) (linkedAfter : h.Linked)
    (holds : ∀ id, h.Reached id → (h.bare id).code ≠ [] →
      g.Reached id ∧ (g.bare id).code = (h.bare id).code) :
    h.heldCode <+~ g.heldCode := by
  rw [heldCode_eq_flatMap_filter h, heldCode]
  -- A block with code could be reached before and held the same.
  have member : ∀ id ∈ h.reachable.toList.filter fun id => !(h.block id).code.isEmpty,
      id ∈ g.reachable.toList ∧ (h.block id).code = (g.block id).code := by
    intro id listed
    obtain ⟨isReachable, hasCode⟩ := List.mem_filter.mp listed
    have reached :=
      (mem_reachable linkedAfter.toMirrored linkedAfter.nonempty).mp
        (IdSet.mem_toList.mp isReachable)
    have notEmpty : (h.block id).code ≠ [] := by simpa using hasCode
    obtain ⟨reachedBefore, same⟩ := holds id reached notEmpty
    exact ⟨IdSet.mem_toList.mpr
      ((mem_reachable linked.toMirrored linked.nonempty).mpr reachedBefore), same.symm⟩
  -- The blocks with code are among those that could be reached before, so their code is as well.
  have distinct : (h.reachable.toList.filter fun id => !(h.block id).code.isEmpty).Nodup :=
    (h.reachable.ascending.imp Nat.ne_of_lt).filter _
  obtain ⟨same, perm, sublist⟩ := distinct.subperm fun id listed => (member id listed).1
  rw [List.flatMap_congr fun id listed => (member id listed).2]
  exact ⟨same.flatMap fun id => (g.block id).code, perm.flatMap_right _, sublist.flatMap _⟩

/-- A change that moves no code, and brings no block within reach. -/
structure Unmoved (g h : Graph) : Prop where
  grows : g.size ≤ h.size
  code : ∀ id < g.size, (h.bare id).code = (g.bare id).code
  blank : ∀ id, g.size ≤ id → (h.bare id).code = []
  reached : ∀ id < g.size, h.Reached id → g.Reached id

namespace Unmoved

variable {mid : Graph}

/-- Leaving a graph as it is moves no code. -/
theorem refl (g : Graph) : Unmoved g g where
  grows := Nat.le_refl _
  code := fun _ _ => rfl
  blank := fun _ absent => code_of_size_le absent
  reached := fun _ _ reached => reached

/-- Changes that move no code can be made one after the other. -/
theorem trans (first : Unmoved g mid) (second : Unmoved mid h) : Unmoved g h where
  grows := Nat.le_trans first.grows second.grows
  code := fun id known =>
    (second.code id (Nat.lt_of_lt_of_le known first.grows)).trans (first.code id known)
  blank := by
    intro id absent
    -- A block that is new in the second step has no code there, and an older one had none before.
    by_cases known : id < mid.size
    · rw [second.code id known, first.blank id absent]
    · exact second.blank id (Nat.not_lt.mp known)
  reached := fun id known reached =>
    first.reached id known (second.reached id (Nat.lt_of_lt_of_le known first.grows) reached)

/-- No code is duplicated. -/
theorem heldCode_subperm (unmoved : Unmoved g h) (linked : g.Linked) (linkedAfter : h.Linked) :
    h.heldCode <+~ g.heldCode := by
  -- Blocks with code are old ones, which could be reached before.
  refine Graph.heldCode_subperm linked linkedAfter fun id reached hasCode => ?_
  have known : id < g.size := by
    by_contra isNew
    exact hasCode (unmoved.blank id (Nat.not_lt.mp isNew))
  exact ⟨unmoved.reached id known reached, (unmoved.code id known).symm⟩

/-- No code is lost either if only jumps without code get out of reach. -/
theorem heldCode_perm (unmoved : Unmoved g h) (keeps : Keeps g h) (linked : g.Linked)
    (linkedAfter : h.Linked) : h.heldCode ~ g.heldCode := by
  -- Each of the two holds no more than the other.
  refine (unmoved.heldCode_subperm linked linkedAfter).antisymm
    (Graph.heldCode_subperm linkedAfter linked ?_)
  intro id reached hasCode
  -- A block with code is no jump without code.
  have stays : h.Reached id :=
    (keeps.reached reached).resolve_right fun bareJump => hasCode bareJump.2
  exact ⟨stays, unmoved.code id (reached.lt_size linked)⟩

/-- What two changes keep, one after the other, both together keep. -/
theorem keeps_trans (unmoved : Unmoved g mid) (linked : g.Linked) (first : Keeps g mid)
    (second : Keeps mid h) : Keeps g h := by
  -- A block that one of the changes puts out of reach is a jump without code,
  -- before either of them.
  refine ⟨fun {id} reached => ?_, fun isRaw => first.raw (second.raw isRaw)⟩
  refine (first.reached reached).elim
    (fun reachedMid => (second.reached reachedMid).imp_right ?_) .inr
  rintro ⟨isJump, empty⟩
  rw [unmoved.code id (reached.lt_size linked)] at empty
  exact ⟨isJump.imp first.raw first.raw, empty⟩

end Unmoved

section Run

/-- A step moves no code. -/
theorem Next.unmoved (next : g.Next rule h) (sound : g.Sound) : Unmoved g h := by
  -- A step rewrites the graph, which keeps the code of every block.
  obtain ⟨site, isSite, applied⟩ := next.applied
  obtain ⟨covers, back, covered, rewrite⟩ :=
    rewrite_apply sound (reached_of_mem_sites sound isSite) applied
  exact ⟨rewrite.grows, rewrite.code, rewrite.blank, fun id known =>
    rewrite.reached_old covered sound.nonempty known⟩

/-- A step keeps all code within reach, or else it leaves what it makes out of reach. -/
theorem Next.keeps_or_strands (next : g.Next rule h) (sound : g.Sound) :
    Keeps g h ∨ g.Strands h := by
  -- What each of the rules keeps is said where the rules are rewritten.
  obtain ⟨site, isSite, applied⟩ := next.applied
  exact Graph.keeps_or_strands sound (reached_of_mem_sites sound isSite) applied

/-- Steps move no code. -/
theorem Steps.unmoved (steps : g.Steps h) (sound : g.Sound) : Unmoved g h := by
  -- The graph stays sound on the way, which every step needs.
  induction steps with
  | refl => exact .refl g
  | tail before next ih =>
    obtain ⟨rule, next⟩ := next
    exact ih.trans (next.unmoved (Steps.sound before sound))

/-- Steps keep all code within reach, unless one of them leaves what it makes out of reach. -/
theorem Steps.keeps_or_strands (steps : g.Steps h) (sound : g.Sound) :
    Keeps g h ∨ ∃ before rule after, g.Steps before ∧ before.Next rule after ∧ after.Steps h ∧
      before.Strands after := by
  -- By induction on the steps: once a step has stranded code, the later ones do not matter.
  induction steps with
  | refl => exact .inl ⟨.inl, fun isRaw => isRaw⟩
  | @tail mid h steps next ih =>
    obtain ⟨rule, next⟩ := next
    have soundMid := Steps.sound steps sound
    rcases ih with keeps | ⟨before, earlier, after, first, strand, rest, strands⟩
    · rcases next.keeps_or_strands soundMid with keepsLast | strands
      · exact .inl ((Steps.unmoved steps sound).keeps_trans sound.toLinked keeps keepsLast)
      · exact .inr ⟨mid, rule, h, steps, next, .refl, strands⟩
    · exact .inr ⟨before, earlier, after, first, strand, rest.tail ⟨rule, next⟩, strands⟩

end Run

section Prepare

/-- Splitting a test off keeps every block within reach, and the new block is within reach
where the test is. -/
theorem TestSplit.reached (split : TestSplit g id h) (linked : g.Linked) {i : BlockId}
    (reached : g.Reached i) : h.Reached i ∧ (i = id → h.Reached g.size) := by
  -- The new block leads to the test.
  have toTest : h.Leads g.size id := ⟨.next, by rw [split.newEdges, if_pos rfl]⟩
  -- By induction on the path, in which the new block takes the place of a step to the test.
  induction reached with
  | refl => exact ⟨.refl, fun same => absurd same.symm (linked.ne_start_of_raw split.isTest)⟩
  | @tail u v _ leads ih =>
    obtain ⟨kind, edge⟩ := leads
    have renamed := split.edges u (lt_size_of_edge edge) kind
    rw [edge, Option.map_some] at renamed
    by_cases same : v = id
    · -- Whoever led to the test leads to the block in front of it.
      subst same
      rw [Target.renamed_self] at renamed
      have reached : h.Reached g.size := ih.1.step ⟨kind, renamed⟩
      exact ⟨reached.step toTest, fun _ => reached⟩
    · rw [Target.renamed_ne (by simpa using same)] at renamed
      exact ⟨ih.1.step ⟨kind, renamed⟩, fun isTest => absurd isTest same⟩

/-- The blocks that can be reached after splitting a test off are the old ones
and the block in front of the test. -/
theorem TestSplit.reached_iff (split : TestSplit g id h) (sound : g.Sound) (reached : g.Reached id)
    {i : BlockId} : h.Reached i ↔ i = g.size ∨ g.Reached i := by
  -- The block in front takes the place of the test and leads to it,
  -- so that the old ways go through it.
  constructor
  · intro reachedAfter
    by_cases known : i < g.size
    · exact .inr ((split.simulates sound).reached_old trivial sound.nonempty known reachedAfter)
    · exact .inl (split.eq_size known (reachedAfter.lt_size split.linked))
  · rintro (rfl | reachedBefore)
    · exact (split.reached sound.toLinked reached).2 rfl
    · exact (split.reached sound.toLinked reachedBefore).1

/-- Splitting a test off moves code, and neither duplicates nor loses any. -/
theorem TestSplit.heldCode_perm (split : TestSplit g id h) (sound : g.Sound)
    (reached : g.Reached id) : h.heldCode ~ g.heldCode := by
  -- Reachable blocks are listed once each.
  have isReachable : ∀ {g : Graph}, g.Linked → ∀ {i}, i ∈ g.reachable.toList ↔ g.Reached i :=
    fun linked => IdSet.mem_toList.trans (mem_reachable linked.toMirrored linked.nonempty)
  have distinct : ∀ g : Graph, g.reachable.toList.Nodup :=
    fun g => g.reachable.ascending.imp Nat.ne_of_lt
  have apart : g.size ∉ g.reachable.toList := fun listed =>
    Nat.lt_irrefl _ (((isReachable sound.toLinked).mp listed).lt_size sound.toLinked)
  have oneMore : h.reachable.toList ~ g.size :: g.reachable.toList := by
    rw [List.perm_ext_iff_of_nodup (distinct h) (List.nodup_cons.mpr ⟨apart, distinct g⟩)]
    intro i
    rw [isReachable split.linked, split.reached_iff sound reached, List.mem_cons,
      isReachable sound.toLinked]
  -- The new block and the test come first, since they hold together what the test held.
  have front := List.perm_cons_erase ((isReachable sound.toLinked).mpr reached)
  -- All blocks but the test hold what they held.
  have others : ∀ i ∈ g.reachable.toList.erase id, (h.block i).code = (g.block i).code := by
    intro i listed
    obtain ⟨other, listed⟩ := ((distinct g).mem_erase_iff).mp listed
    exact split.code i (((isReachable sound.toLinked).mp listed).lt_size sound.toLinked) other
  have moved : (h.block g.size).code ++ (h.block id).code = (g.block id).code := split.moved
  calc h.heldCode
    _ ~ (g.size :: id :: g.reachable.toList.erase id).flatMap fun i => (h.block i).code :=
      (oneMore.trans (front.cons _)).flatMap_right _
    _ = (id :: g.reachable.toList.erase id).flatMap fun i => (g.block i).code := by
      rw [List.flatMap_cons, List.flatMap_cons, List.flatMap_cons, ← List.append_assoc, moved,
        List.flatMap_congr others]
    _ ~ g.heldCode := front.symm.flatMap_right _

/-- What preparing a graph for the rules keeps. -/
structure Prepared (g h : Graph) : Prop where
  sound : h.Sound
  code : h.heldCode ~ g.heldCode
  reached : ∀ {id}, g.Reached id → h.Reached id
  jumps : ∀ {id}, g.Reached id → (h.bare id).IsBareJump → (g.bare id).IsBareJump

/-- Splitting one more test off. -/
theorem Prepared.splitTest (prepared : Prepared g h) (reached : g.Reached id) :
    Prepared g (h.splitTest id) := by
  -- The block may be no test, or one without code in front.
  rcases splitTest_cases prepared.sound.toLinked id with same | split
  · rwa [same]
  · refine
      { sound := prepared.sound.splitTest id
        code := (split.heldCode_perm prepared.sound (prepared.reached reached)).trans prepared.code
        reached := fun before => (split.reached prepared.sound.toLinked (prepared.reached before)).1
        jumps := fun {i} before bareJump => ?_ }
    have known := (prepared.reached before).lt_size prepared.sound.toLinked
    obtain ⟨isJump, empty⟩ := bareJump
    rw [split.type i known] at isJump
    -- A test is no jump, so the block is not the one that was split.
    have other : i ≠ id := by
      rintro rfl
      rw [split.isTest] at isJump
      rcases isJump with isJump | isJump <;> cases isJump
    rw [split.code i known other] at empty
    exact prepared.jumps before ⟨isJump, empty⟩

/-- Preparing a graph moves code only, if returns are not shared. -/
theorem prepared_prepare (sound : g.Sound) {options : Options}
    (unshared : options.shareReturns = false) : Prepared g (g.prepare options) := by
  -- What remains is to split tests off, at each of the blocks in turn.
  rw [prepare, unshared]
  refine List.foldlRecOn g.reachable.toList Graph.splitTest ⟨sound, .refl _, fun reached =>
    reached, fun _ jump => jump⟩ ?_
  intro h prepared id listed
  exact prepared.splitTest
    ((mem_reachable sound.toMirrored sound.nonempty).mp (IdSet.mem_toList.mp listed))

end Prepare

section Build

variable {m : Method} {pool : Option Pool} {build : BuildOptions}

/-- The type of a block is read off its last instruction. -/
theorem type_toBlocks {blockAt : Offset → Option BlockId} {runs : List Run} {id nextDup : Nat}
    {blocks : List Block} (made : Run.toBlocks m pool blockAt runs id nextDup = .ok blocks)
    {b : Block} (listed : b ∈ blocks) : ∃ opcode, b.type = .raw (RawType.ofLast opcode) := by
  -- By induction on the runs, each of which becomes one block.
  induction runs generalizing id nextDup blocks with
  | nil =>
    cases made
    cases listed
  | cons run rest ih =>
    obtain ⟨first, frame, others, rfl, -, linked, later⟩ := Run.toBlocks_cons_eq_ok made
    rcases List.mem_cons.mp listed with rfl | isOther
    · exact ⟨run.last.opcode, (Block.linked_kept linked).1⟩
    · exact ih later isOther

/-- No run becomes a jump without an instruction. -/
theorem type_ofBlocks_ne_jump {blockAt : Offset → Option BlockId} {runs : List Run} {nextDup : Nat}
    {blocks : List Block} (made : Run.toBlocks m pool blockAt runs 1 nextDup = .ok blocks)
    (id : BlockId) : ((ofBlocks blocks).bare id).type ≠ .raw .jump := by
  -- The entry has a type of its own, and so has a number without a block.
  cases id with
  | zero =>
    rw [ofBlocks, bare_relink]
    intro isJump
    cases isJump
  | succ k =>
    rw [bare_ofBlocks_succ]
    cases found : blocks[k]? with
    | none =>
      intro isJump
      cases isJump
    | some b =>
      obtain ⟨opcode, type⟩ := type_toBlocks made (List.mem_of_getElem? found)
      intro isJump
      have same : RawType.ofLast opcode = .jump := BlockType.raw.inj (type.symm.trans isJump)
      rw [RawType.ofLast] at same
      split at same <;> cases same

/-- Entering a protected range makes no jumps. -/
theorem Protects.type_ne_jump {range : ProtectedRange} {first : BlockId} {handlers : List Handler}
    {accept : BlockId → Bool}
    (protects : Protects g first (rangeEntry range first handlers) accept h)
    (noJump : ∀ id, (g.bare id).type ≠ .raw .jump) (id : BlockId) :
    (h.bare id).type ≠ .raw .jump := by
  -- The new block is the entry, and the others keep their types.
  by_cases isEntry : id = g.size
  · rw [isEntry, protects.entry]
    intro isJump
    cases isJump
  · rw [protects.others id isEntry]
    split <;> exact noJump id

/-- The graph of a method has no jumps but those that are instructions. -/
theorem type_ne_jump_of_build (made : Graph.build m pool build = .ok g) (id : BlockId) :
    (g.bare id).type ≠ .raw .jump := by
  -- An opcode never makes one, so that there is none among the runs,
  -- and neither ranges nor pruning add one.
  obtain ⟨faultless, blocks, h, isBlocks, isProtected, rfl⟩ := build_cases made
  obtain ⟨length, regular⟩ := regular_of_toBlocks faultless isBlocks
  obtain ⟨-, noJump⟩ :=
    foldlM_protect_induction (motive := fun mid => ∀ id, (mid.bare id).type ≠ .raw .jump)
      regular.toLinked (fun offset id => blockAt?_lt_size length) (type_ofBlocks_ne_jump isBlocks)
      (fun _ noJump _ protects => protects.type_ne_jump noJump) isProtected
  rw [bare_prune]
  split <;> exact noJump id

/-- Structuring duplicates no code of a method, and loses none as long
as no step leaves what it makes out of reach. -/
theorem heldCode_structured (made : Graph.build m pool build = .ok g) (options : Options)
    (unshared : options.shareReturns = false) :
    (g.structured options).graph.heldCode <+~ g.heldCode ∧
      (((g.structured options).graph.heldCode ~ g.heldCode ∧
        ∀ id ∈ g.reachable, id ∉ (g.structured options).graph.reachable →
          (g.block id).type = .raw .goto ∧ (g.block id).code = []) ∨
      ∃ before rule after, (g.prepare options).Steps before ∧ before.Next rule after ∧
        after.Steps (g.structured options).graph ∧ before.Strands after) := by
  -- The steps start from the graph that is prepared.
  have sound := sound_of_build made
  have prepared := prepared_prepare sound unshared
  have steps := (ends_structured sound options).steps
  have soundAfter := steps.sound prepared.sound
  have unmoved := steps.unmoved prepared.sound
  -- Nothing is ever added; what is lost is only lost at a step that strands blocks.
  refine ⟨(unmoved.heldCode_subperm prepared.sound.toLinked soundAfter.toLinked).trans
    prepared.code.subperm, ?_⟩
  refine (steps.keeps_or_strands prepared.sound).imp_left fun keeps =>
    ⟨?_, fun id isReachable lost => ?_⟩
  · exact (unmoved.heldCode_perm keeps prepared.sound.toLinked soundAfter.toLinked).trans
      prepared.code
  · have reached : g.Reached id := (mem_reachable sound.toMirrored sound.nonempty).mp isReachable
    have bareJump := (keeps.reached (prepared.reached reached)).resolve_left fun stays =>
      lost ((mem_reachable soundAfter.toMirrored soundAfter.nonempty).mpr stays)
    obtain ⟨isJump, empty⟩ := prepared.jumps reached bareJump
    exact ⟨isJump.resolve_right (type_ne_jump_of_build made id), empty⟩

end Build

/-- A method whose loop starts at the handler of a range inside the loop: `0: goto 3; 1: iinc 1; 2:
iinc 2; 3: goto 1`, with instruction 2 guarded by the handler at 3. -/
def handledLoop : Method where
  code := [⟨0, ⟨167⟩, .branch 3, none⟩, ⟨1, ⟨132⟩, .increment 1 1, none⟩,
    ⟨2, ⟨132⟩, .increment 2 1, none⟩, ⟨3, ⟨167⟩, .branch 1, none⟩]
  codeLength := 4
  exceptions := [⟨2, 3, 3, none⟩]

/-- Of the three statements of the loop, one is within reach in the end. -/
theorem handledLoop_evaluated :
    ∃ g, Graph.build handledLoop none {} = .ok g ∧ g.heldCode.length = 3 ∧
    (g.structured {}).graph.heldCode.length = 1 ∧ (g.structured {}).result.isOk = true := by
  -- The lengths of the code are evaluated.
  have evaluated : (Graph.build handledLoop none {}).toOption.any
      (fun g => decide (g.heldCode.length = 3 ∧ (g.structured {}).graph.heldCode.length = 1 ∧
        (g.structured {}).result.isOk = true)) = true := by
    decide +kernel
  obtain ⟨g, made, evaluated⟩ := exists_eq_ok_of_any evaluated
  exact ⟨g, made, of_decide_eq_true evaluated⟩

/-- Structuring the loop leaves the range inside it out of reach. -/
theorem handledLoop_strands : ∃ g, Graph.build handledLoop none {} = .ok g ∧
    (g.structured {}).graph.heldCode <+~ g.heldCode ∧
    ∃ before rule after, (g.prepare {}).Steps before ∧ before.Next rule after ∧
      after.Steps (g.structured {}).graph ∧ before.Strands after := by
  -- Three statements have become one, so the first alternative is out.
  obtain ⟨g, made, held, left, -⟩ := handledLoop_evaluated
  obtain ⟨notMore, kept | strands⟩ := heldCode_structured made {} rfl
  · -- Code is lost, so it is not what it was.
    have same := kept.1.length_eq
    rw [held, left] at same
    cases same
  · exact ⟨g, made, notMore, strands⟩

/-- A method whose structuring succeeds can lose code. -/
theorem exists_lost_code :
    ∃ m g, Graph.build m none {} = .ok g ∧ (g.structured {}).result.isOk = true ∧
    ¬ (g.structured {}).graph.heldCode ~ g.heldCode := by
  -- Three statements have become one.
  obtain ⟨g, made, held, left, isOk⟩ := handledLoop_evaluated
  refine ⟨handledLoop, g, made, isOk, fun perm => ?_⟩
  have same := perm.length_eq
  rw [held, left] at same
  cases same

end Unjump.Graph
