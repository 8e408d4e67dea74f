import Unjump.Proofs.Kept

/-!
What becomes of edges and of reachability when a loop is made.

Every edge of the body that led to a block still means that block: it stays, ends the round, leaves
the loop for the block after it, or becomes a literal jump. What led to the header from outside
leads to the loop. The blocks within reach stay the same unless code that the loop takes in behind
its exits is reached around the header and leads there: such code is part of the body, so it enters
the header and not the loop, and what follows the loop can be lost.
-/

namespace Unjump.Graph

variable {g h : Graph} {header : BlockId} {body : IdSet} {after : Option BlockId}

/-- What an edge of a loop's body to a block becomes once the loop is made as the next block. -/
def BecomesInLoop (g : Graph) (header : BlockId) (h : Graph) (kind : EdgeKind) (target : BlockId)
    (way : Target) : Prop :=
  if target = header then way = .exit (if kind = .next then .loopStart else .loopContinue)
  else if target ∈ g.bodyOfLoop header then way = .block target
  else if (h.block g.size).next = some (.block target) then way = .exit .loopEnd
  else ∃ goto, g.size < goto ∧ way = .block goto ∧ (h.block goto).type = .structured .goto ∧
    (h.block goto).branch = some (.block target)

/-- The block after a loop is no part of its body. -/
theorem loopAfter_not_mem_bodyOfLoop (mirrored : g.Mirrored)
    (isHeader : header ∈ (Flow.ofGraph g).headers) {last : BlockId}
    (found : g.loopAfter header = some last) : last ∉ g.bodyOfLoop header := by
  -- Neither the core nor what the body takes in is the block after the loop.
  intro inBody
  have apart := (loopAfter_cases found).2
  exact (loopBody_bodyOfLoop mirrored isHeader).apart last inBody apart found.symm

/-- The inner edges of a loop's body end the round, stay inside, leave the loop
or become literal jumps. -/
theorem becomesInLoop (mirrored : g.Mirrored)
    (applied : g.wrapLoop (Flow.ofGraph g) header = some h) {i target : BlockId} {kind : EdgeKind}
    (member : i ∈ g.bodyOfLoop header) (inner : (kind, target) ∈ (g.bare i).innerEdges) :
    ∃ way, (h.block i).edge? kind = some way ∧ g.BecomesInLoop header h kind target way := by
  -- The loop goes on with the block after it.
  have wrapped := wrapped_wrapLoop mirrored applied
  have isHeader := (wrapLoop_cases applied).1
  have next : (h.block g.size).next = (g.loopAfter header).map .block := wrapped.loopEdges .next
  have result := wrapped.rerouted i member kind target inner
  unfold RerouteTo Rerouting.ofEdge at result
  unfold BecomesInLoop
  -- Both sides ask the same questions, but the body comes before the block after the loop
  -- on one of them.
  by_cases toHeader : target = header
  · simp only [toHeader, if_true] at result ⊢
    exact ⟨_, result, rfl⟩
  by_cases toAfter : some target = g.loopAfter header
  · -- The block after the loop is no member, so it does not matter which is asked first.
    have apart := loopAfter_not_mem_bodyOfLoop mirrored isHeader toAfter.symm
    simp only [toHeader, toAfter, if_true, if_false] at result
    refine ⟨_, result, ?_⟩
    rw [if_neg toHeader, if_neg apart, if_pos (by rw [next, ← toAfter]; rfl)]
  · have notNext : (h.block g.size).next ≠ some (.block target) := by
      rw [next]
      intro same
      obtain ⟨last, isLast, same⟩ := Option.map_eq_some_iff.mp same
      cases same
      exact toAfter isLast.symm
    by_cases inBody : target ∈ g.bodyOfLoop header
    · simp only [toHeader, toAfter, inBody, if_true, if_false] at result
      refine ⟨_, result, ?_⟩
      rw [if_neg toHeader, if_pos inBody]
    · simp only [toHeader, toAfter, inBody, if_false] at result
      obtain ⟨goto, offset, isNew, edge, isGoto⟩ := result
      refine ⟨_, edge, ?_⟩
      rw [if_neg toHeader, if_neg inBody, if_neg notNext]
      exact ⟨goto, isNew, rfl, congrArg Block.type isGoto, congrArg Block.branch isGoto⟩

/-- What can be reached once a loop is made stands for what could be reached before. -/
theorem Wrapped.reached_before (wrapped : Wrapped g header body after h) (mirrored : g.Mirrored)
    (covered : ∀ last, after = some last → g.Walk .all header last) {id : BlockId}
    (reached : h.Reached id) : g.Reached (g.loopBack header h id) := by
  -- By induction on the way; an edge stands for a walk from before.
  induction reached with
  | refl =>
    have nonempty : start < g.size := Nat.zero_lt_of_lt wrapped.known
    rw [loopBack_old nonempty]
    exact g.reached_start
  | tail _ leads ih => exact ih.walk (wrapped.steps mirrored covered (step_all.mpr leads))

/-- The blocks within reach before a loop is made are so afterwards, unless the loop itself is out
of reach because code that it takes in behind its exits is reached around the header
and leads there. -/
theorem reachable_wrapLoop (mirrored : g.Mirrored) (unentered : ∀ source, ¬ g.Leads source start)
    (applied : g.wrapLoop (Flow.ofGraph g) header = some h) :
    (∀ id < g.size, id ∈ h.reachable ↔ id ∈ g.reachable) ∨
      g.size ∉ h.reachable ∧ (∀ id < g.size, id ∈ h.reachable → id ∈ g.reachable) ∧
      ∃ id ∈ g.bodyOfLoop header, id ∉ g.loopCore header ∧ g.ReachedAvoiding header id ∧
      g.Leads id header := by
  have wrapped := wrapped_wrapLoop mirrored applied
  have isHeader := (wrapLoop_cases applied).1
  have nonempty : start < g.size := Nat.zero_lt_of_lt wrapped.known
  -- What is within reach afterwards was so before.
  have before : ∀ id < g.size, id ∈ h.reachable → id ∈ g.reachable := by
    intro id known reached
    have walked := wrapped.reached_before mirrored (fun last => walk_loopAfter mirrored isHeader)
      (reached_of_mem_reachable reached)
    rw [Wrapped.loopBack_old known] at walked
    exact (mem_reachable mirrored nonempty).mpr walked
  have found : ∀ {id}, id ∈ h.reachable ↔ h.Reached id :=
    mem_reachable wrapped.mirrored (Nat.lt_trans nonempty wrapped.grows)
  by_cases loop : h.Reached g.size
  · -- The loop leads on to where its body led.
    refine .inl fun id known => ⟨before id known, fun reached => found.mpr ?_⟩
    exact wrapped.anchored.reached loop (reached_of_mem_reachable reached)
  -- If no such code led to the header around it, the loop would be reached where the header was.
  · refine .inr ⟨fun member => loop (found.mp member), before, ?_⟩
    refine Classical.byContradiction fun none => loop ?_
    refine reached_wrapLoop mirrored unentered applied fun id inBody outside around leads => ?_
    exact none ⟨id, inBody, outside, around, leads⟩

/--
Making a loop keeps the meaning of edges and closes the body.

The loop is a new block around the header. An edge of the body to a block becomes what it means
inside the loop, the other edges of the body stay as they are, and outside only the edges to the
header change, to lead to the loop. The blocks within reach stay the same, unless the loop is out of
reach because code that it takes in is reached around the header.
-/
theorem wrapLoop_keeps_meaning (mirrored : g.Mirrored)
    (unentered : ∀ source, ¬ g.Leads source start)
    (applied : g.wrapLoop (Flow.ofGraph g) header = some h) :
    ((h.block g.size).type = .structured .loop ∧ (h.block g.size).sub1 = some (.block header)) ∧
    (∀ i ∈ g.bodyOfLoop header, ∀ kind target,
      (kind, .block target) ∈ (g.block i).flowEdges → kind.isHandler = false →
      ∃ way, (h.block i).edge? kind = some way ∧ g.BecomesInLoop header h kind target way) ∧
    (∀ i ∈ g.bodyOfLoop header, ∀ kind target, (g.block i).edge? kind = some target →
      (kind, target) ∉ (g.block i).flowEdges ∨ kind.isHandler = true →
        (h.block i).edge? kind = some target) ∧
    (∀ i < g.size, i ∉ g.bodyOfLoop header → ∀ kind target, (g.block i).edge? kind = some target →
      (h.block i).edge? kind = some (if target = .block header then .block g.size else target)) ∧
    ((∀ id < g.size, id ∈ h.reachable ↔ id ∈ g.reachable) ∨
      g.size ∉ h.reachable ∧ (∀ id < g.size, id ∈ h.reachable → id ∈ g.reachable) ∧
      ∃ id ∈ g.bodyOfLoop header, id ∉ g.loopCore header ∧ g.ReachedAvoiding header id ∧
      g.Leads id header) := by
  -- The loop is as it is made, and reachability has been settled above.
  have wrapped := wrapped_wrapLoop mirrored applied
  refine ⟨⟨wrapped.loopType, wrapped.loopEdges .sub1⟩, ?_, ?_, ?_,
    reachable_wrapLoop mirrored unentered applied⟩
  · intro i member kind target flow notHandler
    obtain ⟨flows, edge⟩ := Block.mem_flowEdges.mp flow
    exact becomesInLoop mirrored applied member (Block.mem_innerEdges.mpr ⟨flows, notHandler, edge⟩)
  · -- An edge that control does not take, or one to a handler, is not rerouted.
    intro i member kind target edge aside
    refine (wrapped.kept i member kind fun other inner => ?_).trans edge
    obtain ⟨flows, notHandler, isEdge⟩ := Block.mem_innerEdges.mp inner
    rcases aside with notFlow | isHandler
    · exact notFlow (Block.mem_flowEdges.mpr ⟨flows, edge⟩)
    · exact Bool.false_ne_true (notHandler.symm.trans isHandler)
  · -- Outside the body only the edges to the header are renamed.
    intro i known outside kind target edge
    have kept := wrapped.outside i known outside kind
    rw [show (g.bare i).edge? kind = some target from edge] at kept
    exact kept

/-- A loop of the blocks 1 to 3 that is left for block 4, and from its last block for block 5. -/
def twiceLeft : Graph :=
  relink ⟨#[{ blankBlock with next := some (.block 1) },
    { type := .raw .conditional, start := 0, finish := 2, next := some (.block 2),
      branch := some (.block 4) },
    { type := .raw .conditional, start := 2, finish := 4, next := some (.block 3),
      branch := some (.block 1) },
    { type := .raw .conditional, start := 4, finish := 6, next := some (.block 1),
      branch := some (.block 5) },
    { type := .structured .returnVoid, start := 6, finish := 7 },
    { type := .structured .statements, start := 7, finish := 8, next := some (.block 4) }]⟩

/-- The loop is the new block 6. The last block starts the next round or jumps to block 5, and
nothing gets out of reach. -/
theorem twiceLeft_keeps_meaning : twiceLeft.Mirrored ∧ (∀ source, ¬ twiceLeft.Leads source start) ∧
    ∃ h, twiceLeft.wrapLoop (Flow.ofGraph twiceLeft) 1 = some h ∧
      (h.block 6).sub1 = some (.block 1) ∧
      (h.block 3).next = some (.exit .loopStart) ∧ (h.block start).next = some (.block 6) ∧
      (∃ goto, (h.block 3).branch = some (.block goto) ∧ (h.block goto).branch = some (.block 5)) ∧
      ∀ id < 6, id ∈ h.reachable ↔ id ∈ twiceLeft.reachable := by
  -- The facts about the graph are evaluated, and the theorem tells what becomes of it.
  have mirrored : twiceLeft.Mirrored := mirrored_relink (bounded_of_targets (by decide +kernel))
  have unentered := mirrored.not_leads (show (twiceLeft.block start).preds = ∅ by decide +kernel)
  have applies : (twiceLeft.wrapLoop (Flow.ofGraph twiceLeft) 1).isSome = true := by decide +kernel
  have after : twiceLeft.loopAfter 1 = some 4 := by decide +kernel
  have body : twiceLeft.bodyOfLoop 1 = twiceLeft.loopCore 1 := by decide +kernel
  have inBody : 3 ∈ twiceLeft.bodyOfLoop 1 := by decide +kernel
  obtain ⟨h, applied⟩ := Option.isSome_iff_exists.mp applies
  obtain ⟨⟨-, sub⟩, inner, -, outer, reachable⟩ := wrapLoop_keeps_meaning mirrored unentered applied
  refine ⟨mirrored, unentered, h, applied, sub, ?_, ?_, ?_, ?_⟩
  · obtain ⟨way, edge, becomes⟩ := inner 3 inBody .next 1 (by decide +kernel) rfl
    rw [BecomesInLoop, if_pos rfl, if_pos rfl] at becomes
    exact becomes ▸ edge
  · exact outer start (by decide) (by decide +kernel) .next (.block 1) rfl
  · obtain ⟨way, edge, becomes⟩ := inner 3 inBody .branch 5 (by decide +kernel) rfl
    have next : (h.block twiceLeft.size).next ≠ some (.block 5) := by
      rw [show (h.block twiceLeft.size).next = _
        from (wrapped_wrapLoop mirrored applied).loopEdges .next, after]
      decide
    rw [BecomesInLoop, if_neg (by decide), if_neg (by decide +kernel), if_neg next] at becomes
    obtain ⟨goto, -, rfl, -, branch⟩ := becomes
    exact ⟨goto, edge, branch⟩
  · -- The loop takes nothing in, so nothing can be reached around its header.
    refine reachable.resolve_right ?_
    rintro ⟨-, -, id, member, outside, -⟩
    exact outside (body ▸ member)

/-- A loop of the tests 5 and 6, left for block 7, that takes in the blocks 3 and 4. Calls enter
these from before the loop, and block 4 calls the header. -/
def enteredTail : Graph :=
  relink ⟨#[{ blankBlock with next := some (.block 1) },
    { type := .structured .jsr, start := 0, finish := 1, next := some (.block 2),
      branch := some (.block 3) },
    { type := .structured .jsr, start := 1, finish := 2, branch := some (.block 4) },
    { type := .structured .statements, start := 2, finish := 3, next := some (.block 4) },
    { type := .structured .jsr, start := 3, finish := 4, branch := some (.block 5) },
    { type := .raw .conditional, start := 4, finish := 6, next := some (.block 6),
      branch := some (.block 7) },
    { type := .raw .conditional, start := 6, finish := 8, next := some (.block 3),
      branch := some (.block 5) },
    { type := .structured .returnVoid, start := 8, finish := 9 }]⟩

/-- Making a loop can put a block out of reach. -/
theorem exists_wrapLoop_lost_block : ∃ (g h : Graph) (header : BlockId), g.Mirrored ∧
    (∀ source, ¬ g.Leads source start) ∧ g.wrapLoop (Flow.ofGraph g) header = some h ∧
    ∃ id < g.size, id ∈ g.reachable ∧ id ∉ h.reachable := by
  -- The loop is made, and the last block is looked for before and after.
  have mirrored : enteredTail.Mirrored := mirrored_relink (bounded_of_targets (by decide +kernel))
  have unentered := mirrored.not_leads (show (enteredTail.block start).preds = ∅ by decide +kernel)
  have evaluated : (enteredTail.wrapLoop (Flow.ofGraph enteredTail) 5).any (fun h => decide
      (7 ∈ enteredTail.reachable ∧ 7 ∉ h.reachable)) = true := by decide +kernel
  cases applied : enteredTail.wrapLoop (Flow.ofGraph enteredTail) 5 with
  | none =>
    rw [applied] at evaluated
    cases evaluated
  | some h =>
    rw [applied, Option.any_some, decide_eq_true_eq] at evaluated
    exact ⟨enteredTail, h, 5, mirrored, unentered, applied, 7, by decide, evaluated⟩

end Unjump.Graph
