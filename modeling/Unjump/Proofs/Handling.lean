import Unjump.Proofs.Rewrite.Try

/-!
What nesting the chains of a try keeps: the block that it protects, its handlers and
where control goes on after it.

The protected chain and the chains of the handlers are walked apart from each other. Those that run
on all do so into one block, with which the try goes on. Their last blocks come to say so by the end
of their body, and nothing else changes.
-/

namespace Unjump.Graph

variable {g h : Graph} {flow : Flow} {id : BlockId}

/-- The chains of a try: the one that it protects, and those of its handlers in the order
of the code. -/
def tryArms (g : Graph) (flow : Flow) (id : BlockId) : List Arm :=
  ((g.block id).next.map (g.tryBody flow id)).toList ++ g.handlerArms flow id (g.tryHeads id)

/-- A try with a next block protects the chain there. -/
theorem tryArms_eq {next : Target} (isNext : (g.block id).next = some next) :
    g.tryArms flow id = g.tryBody flow id next :: g.handlerArms flow id (g.tryHeads id) := by
  rw [tryArms, isNext]
  rfl

/-- A try with the body, the handlers and the continuation of the declaration that it stems from. A
chain that ran on into a block has ended since, and the try goes on with that block. -/
structure KeepsTry (g : Graph) (flow : Flow) (id : BlockId) (h : Graph) : Prop where
  body : (h.block id).sub1 = (g.block id).next
  handlers : (h.block id).handlers =
    (g.block id).handlers.filter (!·.isFinally) ++ (g.block id).handlers.filter (·.isFinally)
  next : ∀ target, (h.block id).next = some target ↔
    ∃ join, target = .block join ∧ ∃ arm ∈ g.tryArms flow id, arm.finish = .join join
  ended : ∀ arm ∈ g.tryArms flow id, ∀ last join, arm.last? = some last → arm.finish = .join join →
    (g.block last).next = some (.block join) ∧ (h.block last).next = some .bodyEnd ∧
      (h.block id).next = some (.block join)
  own : ∀ kind, kind ≠ .next → kind ≠ .sub1 → (∀ i, kind ≠ .handler i) →
    (h.block id).edge? kind = (g.block id).edge? kind
  others : ∀ u ≠ id, ∀ kind, (h.block u).edge? kind = (g.block u).edge? kind ∨
    kind = .next ∧ ∃ arm ∈ g.tryArms flow id, arm.last? = some u ∧ ∃ join, arm.finish = .join join

/-- Ending several chains changes where their last blocks go on, if they run on into blocks. -/
theorem bare_foldl_closeArm {arms : List Arm}
    (known : ∀ arm ∈ arms, ∀ last, joining? arm = some last → last < g.size) (i : BlockId) :
    (arms.foldl (·.closeArm · .bodyEnd) g).bare i =
      if arms.any (joining? · == some i) then { g.bare i with next := some .bodyEnd }
        else g.bare i := by
  -- By induction on the chains, each of which is ended in the graph that the earlier ones leave.
  induction arms generalizing g with
  | nil => rfl
  | cons arm rest ih =>
    have inside := known arm List.mem_cons_self
    rw [List.foldl_cons, ih fun other listed last joins => ?_, bare_closeArm inside, List.any_cons]
    · -- A block that ends two chains is changed twice in the same way.
      by_cases joins : joining? arm = some i
      · simp [joins]
      · simp [joins]
    · rw [size_closeArm]
      exact known other (List.mem_cons_of_mem _ listed) last joins

/-- What nesting the chains of a try leaves of every block. -/
theorem nestTry_blocks (applied : g.nestTry flow id = some h) : ∃ next join construct,
    (g.block id).next = some next ∧ tryJoin? (g.tryArms flow id) = some join ∧
      h.bare id = { g.bare id with
        type := .structured construct, handlers := finallyLast (g.bare id).handlers
        sub1 := some next, next := join.map .block } ∧
      ∀ u ≠ id, h.bare u = if (g.tryArms flow id).any (joining? · == some u) then
        { g.bare u with next := some .bodyEnd } else g.bare u := by
  obtain ⟨next, join, construct, isTry, arms, isJoin, -, -, rfl⟩ := nestTry_eq applied
  have isNext : (g.block id).next = some next := arms.isNext
  rw [← tryArms_eq isNext] at isJoin ⊢
  have lasts : ∀ arm ∈ g.tryArms flow id, ∀ last, joining? arm = some last →
      last < g.size ∧ last ≠ id :=
    fun arm listed last joins => arms.joining isTry (tryArms_eq isNext ▸ listed) joins
  have ended := bare_foldl_closeArm fun arm listed last joins => (lasts arm listed last joins).1
  -- The try is none of the blocks that are changed before it.
  have untouched : ((g.tryArms flow id).foldl (·.closeArm · .bodyEnd) g).bare id = g.bare id := by
    rw [ended, if_neg]
    simpa using fun arm listed joins => (lasts arm listed id joins).2 rfl
  have known : id < ((g.tryArms flow id).foldl (·.closeArm · .bodyEnd) g).size := by
    rw [(ended_foldl_closeArm fun arm listed last joins => (lasts arm listed last joins).1).size]
    exact lt_size_of_raw isTry
  have blocks := bare_update (fun b : Block => { b with
    type := .structured construct, handlers := finallyLast b.handlers, sub1 := some next,
    next := join.map .block }) known fun _ => rfl
  refine ⟨next, join, construct, isNext, isJoin, ?_, fun u other => ?_⟩
  · rw [blocks, if_pos rfl, untouched]
  · rw [blocks, if_neg other, ended]

/-- A try goes on with a block exactly when one of its chains ran on into it. -/
theorem next_nestTry_iff (applied : g.nestTry flow id = some h) (target : Target) :
    (h.block id).next = some target ↔
    ∃ join, target = .block join ∧ ∃ arm ∈ g.tryArms flow id, arm.finish = .join join := by
  obtain ⟨next, found, construct, -, isJoin, own, -⟩ := nestTry_blocks applied
  -- The join that was found is that of some chain, and every chain that runs on has it.
  have goesOn : (h.block id).next = found.map .block := congrArg Block.next own
  rw [goesOn, Option.map_eq_some_iff]
  constructor
  · rintro ⟨join, rfl, rfl⟩
    exact ⟨join, rfl, tryJoin?_join isJoin⟩
  · rintro ⟨join, rfl, arm, listed, finish⟩
    exact ⟨join, tryJoin?_of_join isJoin listed finish, rfl⟩

/-- A chain of a try that ran on into a block has ended, and its last block led there. -/
theorem ended_nestTry (applied : g.nestTry flow id = some h) {arm : Arm}
    (listed : arm ∈ g.tryArms flow id) {last join : BlockId} (ends : arm.last? = some last)
    (finish : arm.finish = .join join) :
    (g.block last).next = some (.block join) ∧ (h.block last).next = some .bodyEnd := by
  -- What ends is a chain that was walked, and its last block is changed.
  obtain ⟨next, -, -, isTry, arms, -⟩ := nestTry_eq applied
  obtain ⟨-, -, -, -, -, -, blocks⟩ := nestTry_blocks applied
  have isArm := tryArms_eq arms.isNext ▸ listed
  obtain ⟨bounds, head, -, walked, -⟩ := arms.walked arm isArm
  have joins : joining? arm = some last := by
    simp [joining?, finish, ArmEnd.isExit, ArmEnd.join?, ends]
  have isLast : (g.tryArms flow id).any (joining? · == some last) = true :=
    List.any_eq_true.mpr ⟨arm, listed, by simp [joins]⟩
  -- The last block of a chain is settled, so it is not the try and has the end of the body now.
  have closed := blocks last (arms.joining isTry isArm joins).2
  rw [if_pos isLast] at closed
  exact ⟨(walked.joins finish ends).1, congrArg Block.next closed⟩

/-- Beside the try, only the last blocks of chains that ran on lead elsewhere. -/
theorem edge?_nestTry (applied : g.nestTry flow id = some h) {u : BlockId} (other : u ≠ id)
    (kind : EdgeKind) :
    (h.block u).edge? kind = (g.block u).edge? kind ∨
      kind = .next ∧ ∃ arm ∈ g.tryArms flow id, arm.last? = some u ∧
      ∃ join, arm.finish = .join join := by
  -- All blocks but the try are as they were or end a chain.
  obtain ⟨-, -, -, -, -, -, blocks⟩ := nestTry_blocks applied
  have edge : (h.block u).edge? kind = (h.bare u).edge? kind := rfl
  rw [edge, blocks u other]
  split
  · next isLast =>
    obtain ⟨arm, listed, joins⟩ := List.any_eq_true.mp isLast
    by_cases isNext : kind = .next
    · exact .inr ⟨isNext, arm, listed, joining?_eq_some (beq_iff_eq.mp joins)⟩
    · -- The end of the chain is its next block alone.
      refine .inl ?_
      cases kind with
      | next => exact absurd rfl isNext
      | _ => rfl
  · exact .inl rfl

/-- Nesting the chains of a try in it keeps its body, its handlers and where control goes on. The
handlers stand as before but for those that catch everything, which come last. The try goes on with
the block that its chains ran on into, if any did, and only the last blocks of such chains are
changed, to end a body instead. -/
theorem nestTry_keeps_arms (applied : g.nestTry flow id = some h) : KeepsTry g flow id h := by
  -- The block of the try says what becomes of it, and the others follow from their own lemmas.
  obtain ⟨next, found, construct, isNext, -, own, -⟩ := nestTry_blocks applied
  refine ⟨(congrArg Block.sub1 own).trans isNext.symm,
    (congrArg Block.handlers own).trans (finallyLast_eq _),
    next_nestTry_iff applied, ?_, ?_, fun u other kind => edge?_nestTry applied other kind⟩
  · intro arm listed last join ends finish
    obtain ⟨led, ended⟩ := ended_nestTry applied listed ends finish
    exact ⟨led, ended, (next_nestTry_iff applied _).mpr ⟨join, rfl, arm, listed, finish⟩⟩
  · intro kind notNext notBody notHandler
    have edge : (h.block id).edge? kind = (h.bare id).edge? kind := rfl
    rw [edge, own]
    cases kind with
    | next => exact absurd rfl notNext
    | sub1 => exact absurd rfl notBody
    | handler i => exact absurd rfl (notHandler i)
    | _ => rfl

/-- A try whose protected block and whose catch go on with block 5, and whose `finally` throws. -/
def caughtAndThrown : Graph :=
  relink ⟨#[{ blankBlock with next := some (.block 1) },
    { type := .raw .tryBlock, start := 0, finish := 0, next := some (.block 2)
      handlers := [⟨none, [], .block 4⟩, ⟨some "E", ["F"], .block 3⟩] },
    { type := .structured .statements, start := 0, finish := 4, next := some (.block 5) },
    { type := .structured .statements, start := 4, finish := 8, next := some (.block 5) },
    { type := .structured .throw, start := 8, finish := 12 },
    { type := .structured .returnVoid, start := 12, finish := 13 }]⟩

/-- That try goes on with block 5 and has its `finally` last, and block 4
has no next block as before. -/
theorem caughtAndThrown_keeps_arms :
    ∃ h, caughtAndThrown.nestTry (.ofGraph caughtAndThrown) 1 = some h ∧
    caughtAndThrown.tryArms (.ofGraph caughtAndThrown) 1 =
      [⟨[2], .join 5⟩, ⟨[3], .join 5⟩, ⟨[4], .terminal⟩] ∧
    (h.block 1).handlers = [⟨some "E", ["F"], .block 3⟩, ⟨none, [], .block 4⟩] ∧
      (h.block 1).next = some (.block 5) ∧
    (h.block 3).next = some .bodyEnd ∧ KeepsTry caughtAndThrown (.ofGraph caughtAndThrown) 1 h := by
  -- The chains are evaluated, and the theorem says what becomes of the try.
  have evaluated : (caughtAndThrown.nestTry (.ofGraph caughtAndThrown) 1).isSome = true := by
    decide +kernel
  have chains : caughtAndThrown.tryArms (.ofGraph caughtAndThrown) 1 =
      [⟨[2], .join 5⟩, ⟨[3], .join 5⟩, ⟨[4], .terminal⟩] := by decide +kernel
  have listed : ⟨[3], .join 5⟩ ∈ caughtAndThrown.tryArms (.ofGraph caughtAndThrown) 1 := by
    rw [chains]
    decide
  obtain ⟨h, applied⟩ := Option.isSome_iff_exists.mp evaluated
  have keeps := nestTry_keeps_arms applied
  obtain ⟨-, ended, goesOn⟩ := keeps.ended _ listed 3 5 rfl rfl
  exact ⟨h, applied, chains, keeps.handlers.trans (by decide +kernel), goesOn, ended, keeps⟩

end Unjump.Graph
