import Unjump.Construct.Plain
import Unjump.Proofs.Rewrite

/-! Settling straight code and calls, and removing jumps. -/

namespace Unjump.Graph

variable {g h : Graph} {flow : Flow} {id : BlockId}

/-- A reachable block that a rule settles as it stands, by a construct that asks
for no edges but those that it has. -/
theorem rewrite_settle {type : RawType} {construct : Construct} (sound : g.Sound)
    (reached : g.Reached id) (isRaw : (g.bare id).type = .raw type)
    (noTest : (BlockType.structured construct).isCondition = false)
    (noJump : (BlockType.structured construct).isGoto = false)
    (branches : type.mayHave .branch → (BlockType.structured construct).mayBranch)
    (required : ∀ kind ∈ construct.requiredEdges, ((g.bare id).edge? kind).isSome)
    (allowed : ∀ {allow : EdgeFilter}, allow.Lenient → ∀ kind, type.mayHave kind →
      allow (.structured construct) kind → allow (.raw type) kind) :
    Rewrite g (g.settle id construct) fun i => i := by
  -- Only the type of the block changes.
  have known := reached.lt_size sound.toLinked
  have edges : ∀ kind, ({ g.bare id with type := .structured construct } : Block).edge? kind =
      (g.bare id).edge? kind :=
    fun kind => by cases kind <;> rfl
  -- The block keeps its edges, so what is asked of its new type is asked of the old one.
  refine .single sound (sound.toLinked.settle (sound.toLinked.ne_start_of_raw isRaw)) size_settle
    (bare_settle known) ?_ (.ofChildren rfl noJump ?_ ?_ ?_) rfl
  · intro allow lenient kind target isAllowed edge
    rw [edges] at edge
    have own := (sound.shaped reached).own type isRaw kind (by simp [edge])
    exact ⟨isRaw ▸ allowed lenient kind own isAllowed, edge⟩
  · intro isOpen
    simp [Block.isOpenCondition, noTest] at isOpen
  · intro has
    exact branches ((sound.shaped reached).own type isRaw .branch has)
  · intro kind listed
    rw [edges]
    exact required kind listed

/-- Settling straight code keeps walks and shapes, and every block stands for itself. -/
theorem rewrite_settlePlain (sound : g.Sound) (reached : g.Reached id)
    (applied : g.settlePlain flow id = some h) : Rewrite g h fun i => i := by
  unfold settlePlain at applied
  split at applied
  · next type isRaw =>
    obtain ⟨construct, plain, rfl⟩ := Option.map_eq_some_iff.mp applied
    -- Only straight code and code that leads nowhere has a plain construct.
    refine rewrite_settle sound reached isRaw ?_ ?_ (fun branches => ?_) ?_ ?_ <;>
      cases type <;> cases plain
    all_goals first
      | rfl
      | cases branches
      | exact fun kind listed => absurd listed List.not_mem_nil
      | skip
    all_goals
      intro allow lenient kind own _
      cases kind <;> cases own
      try exact lenient.next _
  · cases applied

/-- The edges of a call, of which the one to the subroutine is always there. -/
theorem rewrite_settle_jsr (sound : g.Sound) (reached : g.Reached id)
    (isCall : (g.bare id).type = .raw .jsr) : Rewrite g (g.settle id .jsr) fun i => i := by
  -- A call may have two edges, and both are followed as before.
  refine rewrite_settle sound reached isCall rfl rfl (fun _ => rfl) ?_ ?_
  · exact (sound.shaped reached).raw .jsr isCall
  · intro allow lenient kind own isAllowed
    cases kind <;> cases own
    · exact lenient.next _
    · exact lenient.call isAllowed

/-- A call is settled as it stands. -/
theorem settleCall_cases (applied : g.settleCall flow id = some h) :
    (g.bare id).type = .raw .jsr ∧ g.settle id .jsr = h := by
  simp only [settleCall] at applied
  -- A call waits for its subroutine, and then changes its type alone.
  split at applied
  · next isCall =>
    refine ⟨isCall, ?_⟩
    split at applied
    · split at applied
      · exact Option.some.inj applied
      · cases applied
    · exact Option.some.inj applied
  · cases applied

/-- A call that is forced is settled as it stands. -/
theorem forceCall_cases (applied : g.forceCall flow id = some h) :
    (g.bare id).type = .raw .jsr ∧ g.settle id .jsr = h := by
  -- The code asks for no more than a call.
  unfold forceCall at applied
  split at applied
  · next isCall => exact ⟨isCall, Option.some.inj applied⟩
  · cases applied

/-- Settling a call keeps walks and shapes. -/
theorem rewrite_settleCall (sound : g.Sound) (reached : g.Reached id)
    (applied : g.settleCall flow id = some h) : Rewrite g h fun i => i := by
  -- The call is settled as it stands.
  obtain ⟨isCall, rfl⟩ := settleCall_cases applied
  exact rewrite_settle_jsr sound reached isCall

/-- Forcing a call keeps walks and shapes. -/
theorem rewrite_forceCall (sound : g.Sound) (reached : g.Reached id)
    (applied : g.forceCall flow id = some h) : Rewrite g h fun i => i := by
  obtain ⟨isCall, rfl⟩ := forceCall_cases applied
  exact rewrite_settle_jsr sound reached isCall

/-- What becomes of a jump: one to itself never ends, one without code makes way for its target, and
any other is straight code. -/
theorem dropGoto_cases (applied : g.dropGoto flow id = some h) :
    ((g.bare id).type = .raw .goto ∨ (g.bare id).type = .raw .jump) ∧
      (((g.bare id).code = [] ∧ (g.bare id).next = some (.block id) ∧
          g.update id ({ · with type := .structured .infiniteGoto, next := none }) = h) ∨
        (∃ target, (g.bare id).code = [] ∧ (g.bare id).next = some target ∧ target ≠ .block id ∧
          (g.redirect id target).detach id = h) ∨
        g.settle id .statements = h) := by
  simp only [dropGoto] at applied
  -- Only jumps are dropped, and those with code keep it.
  split at applied
  · next isJump =>
    refine ⟨isJump, ?_⟩
    split at applied
    · next target empty leads =>
      split at applied
      · next same => exact .inl ⟨empty, same ▸ leads, Option.some.inj applied⟩
      · next other => exact .inr (.inl ⟨target, empty, leads, other, Option.some.inj applied⟩)
    · exact .inr (.inr (Option.some.inj applied))
  · cases applied

/-- Where a jump without code has made way for its target. -/
theorem bare_bypass (linked : g.Linked) (known : id < g.size) (target : Target) (i : BlockId) :
    ((g.redirect id target).detach id).bare i =
      if i = id then (g.bare id).detached else (g.bare i).replaceTarget (.block id) target := by
  -- The edges are led past the jump, which then loses its own.
  have inside : id < (g.redirect id target).size := by simpa using known
  refine (bare_update Block.detached inside (fun _ => rfl) i).trans ?_
  simp only [bare_redirect linked.toMirrored]
  rfl

/-- Raw code of a jump may have only the edge to its target. -/
theorem jump_own {type : RawType} {kind : EdgeKind} (isJump : type = .goto ∨ type = .jump)
    (own : type.mayHave kind) : kind = .next := by
  -- Both kinds of jump are looked at, with each kind of edge.
  rcases isJump with rfl | rfl <;> cases kind <;> first | rfl | cases own

/-- A jump to itself loses its only edge. -/
theorem rewrite_dropSelf (sound : g.Sound) (reached : g.Reached id) {type : RawType}
    (isRaw : (g.bare id).type = .raw type) (isJump : type = .goto ∨ type = .jump) :
    Rewrite g (g.update id ({ · with type := .structured .infiniteGoto, next := none }))
      fun i => i := by
  have known := reached.lt_size sound.toLinked
  let c : Block := { g.bare id with type := .structured .infiniteGoto, next := none }
  -- A jump has no edge but the next one, which goes.
  have noEdges : ∀ kind, c.edge? kind = none := by
    intro kind
    cases edge : c.edge? kind with
    | none => rfl
    | some target =>
      have before : (g.bare id).edge? kind = some target ∧ kind ≠ .next := by
        cases kind <;> first | cases edge | exact ⟨edge, by simp⟩
      have own := (sound.shaped reached).own type isRaw kind (by simp [before.1])
      exact absurd (jump_own isJump own) before.2
  refine @Rewrite.single _ _ id c sound ?_ (size_update _ _ _) ?_ ?_
    ⟨?_, ?_, ?_, ?_, ?_, fun _ => rfl⟩ rfl
  · refine sound.toLinked.narrow ({ · with type := .structured .infiniteGoto, next := none })
      (fun _ => rfl) (fun _ => rfl) ?_
      fun same => absurd same (sound.toLinked.ne_start_of_raw isRaw)
    intro kind target edge
    cases (noEdges kind).symm.trans edge
  · exact bare_update ({ · with type := .structured .infiniteGoto, next := none }) known
      fun _ => rfl
  · intro allow lenient kind target allowed edge
    cases (noEdges kind).symm.trans edge
  · exact fun kind listed => absurd listed List.not_mem_nil
  · intro type isRaw
    cases isRaw
  · intro type isRaw
    cases isRaw
  · intro isOpen
    simp [Block.isOpenCondition, c, BlockType.isCondition] at isOpen
  · intro _ kind has
    rw [noEdges] at has
    cases has

/-- A jump that has lost its edges still has all that its type asks for. -/
theorem shaped_detached {b : Block} {type : RawType} (isRaw : b.type = .raw type)
    (isJump : type = .goto ∨ type = .jump) : b.detached.Shaped := by
  -- Without edges nothing is asked for that might be missing.
  refine ⟨fun kind listed => ?_, fun other isOther kind listed => ?_,
    fun other isOther kind has => ?_, fun isOpen => ?_,
    fun _ kind has => ?_, fun has => by cases has⟩
  · simp [Block.detached, isRaw, BlockType.requiredEdges] at listed
  · rw [BlockType.raw.inj (isOther.symm.trans isRaw)] at listed
    rcases isJump with rfl | rfl <;> cases listed
  · simp at has
  · simp [Block.isOpenCondition, Block.detached] at isOpen
  · simp at has

/-- A jump without code makes way for its target. -/
theorem rewrite_bypass (sound : g.Sound) (known : id < g.size) {type : RawType}
    (isRaw : (g.bare id).type = .raw type) (isJump : type = .goto ∨ type = .jump) {target : Target}
    (leads : (g.bare id).next = some target) :
    Rewrite g ((g.redirect id target).detach id) fun i => i := by
  have blocks := bare_bypass sound.toLinked known target
  refine ⟨⟨?_, by simp [detach], fun i _ => rfl, ?_, ?_⟩, ?_, ?_⟩
  · refine (sound.toLinked.redirect fun v same => ?_).detach
    exact sound.toLinked.behind ⟨.next, same ▸ leads⟩
  · -- What led to the jump now leads where the jump led, which the old graph does in two steps.
    rintro allow lenient - u v - ⟨kind, allowed, edge⟩
    rw [blocks] at allowed edge
    split at edge
    · simp at edge
    · next differs =>
      rw [if_neg differs] at allowed
      rw [Block.edge?_replaceTarget, Option.map_eq_some_iff] at edge
      obtain ⟨before, edge, renamed⟩ := edge
      by_cases same : before = .block id
      · subst same
        rw [Target.renamed_self] at renamed
        subst renamed
        have first : g.Step allow u id := ⟨kind, allowed, edge⟩
        exact (Relation.ReflTransGen.single first).tail ⟨.next, lenient.next _, leads⟩
      · rw [Target.renamed_ne same] at renamed
        exact .single ⟨kind, allowed, renamed ▸ edge⟩
  · -- The jump has lost its edges, and every other block has one for each that it had.
    intro i inside isReached
    rw [blocks]
    split
    · exact shaped_detached isRaw isJump
    · exact (sound.shaped isReached).congr rfl fun kind => by simp
  · intro i inside
    rw [blocks]
    split
    · next same => rw [same]; rfl
    · rfl
  · exact fun i absent => code_of_size_le (by simpa [detach] using absent)

/-- Dropping a jump keeps walks and shapes. -/
theorem rewrite_dropGoto (sound : g.Sound) (reached : g.Reached id)
    (applied : g.dropGoto flow id = some h) : Rewrite g h fun i => i := by
  -- The three ways in which a jump goes are treated one by one.
  obtain ⟨either, made⟩ := dropGoto_cases applied
  obtain ⟨type, isRaw, isJump⟩ : ∃ type, (g.bare id).type = .raw type ∧
      (type = .goto ∨ type = .jump) := by
    rcases either with isGoto | isJump
    · exact ⟨.goto, isGoto, .inl rfl⟩
    · exact ⟨.jump, isJump, .inr rfl⟩
  rcases made with ⟨-, -, rfl⟩ | ⟨target, -, leads, -, rfl⟩ | rfl
  · exact rewrite_dropSelf sound reached isRaw isJump
  · exact rewrite_bypass sound (reached.lt_size sound.toLinked) isRaw isJump leads
  · -- A jump with code has no edge but the one to its target, as straight code has.
    refine rewrite_settle sound reached isRaw rfl rfl (fun own => ?_)
      (fun kind listed => absurd listed List.not_mem_nil) ?_
    · cases jump_own isJump own
    · intro allow lenient kind own _
      rw [jump_own isJump own]
      exact lenient.next _

end Unjump.Graph
