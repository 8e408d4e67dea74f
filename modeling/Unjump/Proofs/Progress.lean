import Unjump.Proofs.Nesting
import Unjump.Proofs.Pending

/-!
Rules keep graphs sound, one of them always applies before the goal is reached, and all but the one
for shared entries bring the graph closer to it, unless code behind the exits of a loop leads
to its header.
-/

namespace Unjump.Graph

variable {g h : Graph} {rule : Rule} {id : BlockId}

/-- One step of structuring: the first rule that applies has been applied. -/
def Next (g : Graph) (rule : Rule) (h : Graph) : Prop := g.step? (Flow.ofGraph g) = some (rule, h)

/-- A step applies its rule to one of the blocks on which the rule is tried. -/
theorem Next.applied (next : g.Next rule h) :
    ∃ id ∈ rule.sites g (Flow.ofGraph g), rule.apply g (Flow.ofGraph g) id = some h := by
  -- The search goes through the rules, and for each rule through its sites.
  obtain ⟨found, -, atRule⟩ := List.exists_of_findSome?_eq_some next
  obtain ⟨id, isSite, made⟩ := List.exists_of_findSome?_eq_some atRule
  obtain ⟨made, applied, same⟩ := Option.map_eq_some_iff.mp made
  cases same
  exact ⟨id, isSite, applied⟩

/-- A rule that applies somewhere makes a step possible. -/
theorem isSome_step? {flow : Flow} (rule : Rule) (isRule : rule ∈ Rule.all)
    (isSite : id ∈ rule.sites g flow) (applies : (rule.apply g flow id).isSome) :
    (g.step? flow).isSome := by
  -- The rules are tried in turn, each at its sites in turn.
  obtain ⟨made, applied⟩ := Option.isSome_iff_exists.mp applies
  rw [step?, List.findSome?_isSome_iff]
  refine ⟨rule, isRule, ?_⟩
  rw [List.findSome?_isSome_iff]
  exact ⟨id, isSite, by simp [applied]⟩

/-- Rules are tried on reachable blocks. -/
theorem reached_of_mem_sites (sound : g.Sound) (isSite : id ∈ rule.sites g (Flow.ofGraph g)) :
    g.Reached id := by
  -- Loops are made at headers, and all other rules go through the reachable blocks.
  have listed : ∀ {id}, id ∈ (Flow.ofGraph g).reachable.toList → g.Reached id := fun isReachable =>
    (mem_flow_reachable sound.toLinked).mp (IdSet.mem_toList.mp isReachable)
  cases rule with
  | wrapLoop => exact (header_reached sound.toLinked (mem_ripeHeaders isSite)).1
  | jumpTest => exact listed (List.mem_reverse.mp isSite)
  | _ => exact listed isSite

/-- Every rule rewrites the graph so that the walks along edges of every kind are kept. -/
theorem rewrite_apply (sound : g.Sound) (reached : g.Reached id)
    (applied : rule.apply g (Flow.ofGraph g) id = some h) :
    ∃ covers back, covers .all ∧ RewriteFor covers g h back := by
  -- A loop keeps all walks, because one leads from its header to the block after it.
  cases rule <;> dsimp only [Rule.apply] at applied
  case dropGoto => exact ⟨_, _, trivial, rewrite_dropGoto sound reached applied⟩
  case settlePlain => exact ⟨_, _, trivial, rewrite_settlePlain sound reached applied⟩
  case selectTest => exact ⟨_, _, trivial, rewrite_selectTest sound reached applied⟩
  case mergeTests => exact ⟨_, _, trivial, rewrite_mergeTests sound reached applied⟩
  case wrapLoop =>
    refine ⟨_, _, fun last found => ?_, rewrite_wrapLoop sound applied⟩
    exact walk_loopAfter sound.toMirrored (wrapLoop_cases applied).1 found
  case nestIf => exact ⟨_, _, trivial, rewrite_nestIf sound reached applied⟩
  case nestSwitch => exact ⟨_, _, trivial, rewrite_nestSwitch sound reached applied⟩
  case nestTry => exact ⟨_, _, trivial, rewrite_nestTry sound reached applied⟩
  case settleCall => exact ⟨_, _, trivial, rewrite_settleCall sound reached applied⟩
  case jumpTest => exact ⟨_, _, trivial, rewrite_jumpTest sound reached applied⟩
  case jumpSwitch => exact ⟨_, _, trivial, rewrite_jumpSwitch sound reached applied⟩
  case jumpTry => exact ⟨_, _, trivial, rewrite_jumpTry sound reached applied⟩
  case forceCall => exact ⟨_, _, trivial, rewrite_forceCall sound reached applied⟩
  case unshareEntry =>
    obtain ⟨source, rewrite⟩ := rewrite_unshareEntry sound applied
    exact ⟨_, _, trivial, rewrite⟩

/-- A step keeps a graph sound. -/
theorem Next.sound (next : g.Next rule h) (sound : g.Sound) : h.Sound := by
  -- Rules apply to blocks within reach, where they rewrite the graph.
  obtain ⟨id, isSite, applied⟩ := next.applied
  obtain ⟨covers, back, covered, rewrite⟩ :=
    rewrite_apply sound (reached_of_mem_sites sound isSite) applied
  exact rewrite.sound covered sound.nonempty

section Stuck

/-- Some rule settles every block that is left to be structured. -/
theorem isSome_step?_of_isPending (sound : g.Sound) (reached : g.Reached id)
    (pending : (g.bare id).isPending = true) : (g.step? (Flow.ofGraph g)).isSome := by
  have isSite : id ∈ (Flow.ofGraph g).reachable.toList :=
    IdSet.mem_toList.mpr ((mem_flow_reachable sound.toLinked).mpr reached)
  have shaped := sound.shaped reached
  -- An open test can always jump.
  have jumps : (g.bare id).isOpenCondition = true → (g.step? (Flow.ofGraph g)).isSome := by
    intro isOpen
    refine isSome_step? .jumpTest (by decide) (List.mem_reverse.mpr isSite) ?_
    obtain ⟨branch, isBranch⟩ := Option.isSome_iff_exists.mp (isOpenCondition_iff.mp isOpen).2
    obtain ⟨next, isNext⟩ := Option.isSome_iff_exists.mp (shaped.falls isOpen)
    have opens : (g.block id).isOpenCondition = true := isOpen
    have isNext' : (g.block id).next = some next := isNext
    have isBranch' : (g.block id).branch = some branch := isBranch
    simp [Rule.apply, jumpTest, opens, isNext', isBranch']
  -- A block that is left is an open test or raw code, and for every kind of raw code some rule
  -- needs nothing but its type.
  cases type : (g.bare id).type with
  | start | structured =>
    exact jumps (by simpa [Block.isPending, type, BlockType.isRaw] using pending)
  | raw raw =>
    have isRaw : (g.block id).type = .raw raw := type
    cases raw with
    | statements | returnVoid | returnValue | throw | ret =>
      refine isSome_step? .settlePlain (by decide) isSite ?_
      simp [Rule.apply, settlePlain, isRaw, RawType.plain?]
    | goto | jump =>
      refine isSome_step? .dropGoto (by decide) isSite ?_
      simp only [Rule.apply, dropGoto, isRaw, true_or, or_true, if_true]
      split
      · split <;> rfl
      · rfl
    | jsr =>
      refine isSome_step? .forceCall (by decide) isSite ?_
      simp [Rule.apply, forceCall, isRaw]
    | switch =>
      refine isSome_step? .jumpSwitch (by decide) isSite ?_
      simp [Rule.apply, jumpSwitch, isRaw]
    | tryBlock =>
      refine isSome_step? .jumpTry (by decide) isSite ?_
      simp [Rule.apply, jumpTry, isRaw]
    | conditional =>
      refine jumps (isOpenCondition_iff.mpr ⟨by rw [type]; rfl, ?_⟩)
      exact shaped.raw .conditional type .branch (by decide)

/-- A loop can be made as long as there is a back edge. -/
theorem isSome_step?_of_backEdge {source : BlockId}
    (isBack : (source, id) ∈ (Flow.ofGraph g).backEdges) : (g.step? (Flow.ofGraph g)).isSome := by
  -- Of the headers that are left some innermost one is ripe.
  have ripe := ripeHeaders_ne_nil (g := g) (mem_headers.mpr ⟨source, isBack⟩)
  obtain ⟨header, isRipe⟩ := List.exists_mem_of_ne_nil _ ripe
  refine isSome_step? .wrapLoop (by decide) isRipe ?_
  simpa [Rule.apply, wrapLoop] using isRipe

/-- An entry can be turned into a jump once nothing is left to be structured. -/
theorem isSome_step?_of_isShared (sound : g.Sound)
    (settled : ∀ id, g.Reached id → (g.bare id).isPending = false) (reached : g.Reached id)
    (shared : g.isShared id = true) : (g.step? (Flow.ofGraph g)).isSome := by
  obtain ⟨other, isReached, spare⟩ := exists_surplusEntry sound.toLinked reached shared
  refine isSome_step? .unshareEntry (by decide)
    (IdSet.mem_toList.mpr ((mem_flow_reachable sound.toLinked).mpr isReached)) ?_
  -- The rule waits until no block is left to be structured.
  have nothing : ¬ ((Flow.ofGraph g).reachable.toList.any fun id =>
      (g.block id).isPending) = true := by
    intro some
    obtain ⟨id, isReachable, pending⟩ := List.any_eq_true.mp some
    have isReached := (mem_flow_reachable sound.toLinked).mp (IdSet.mem_toList.mp isReachable)
    exact Bool.false_ne_true ((settled id isReached).symm.trans pending)
  simp only [Rule.apply, unshareEntry]
  rw [if_neg nothing, Option.isSome_map]
  exact spare

/-- Structuring is never stuck before its goal. -/
theorem isSome_step?_of_distance (sound : g.Sound)
    (short : (Distance.ofGraph g (Flow.ofGraph g)).isZero = false) :
    (g.step? (Flow.ofGraph g)).isSome := by
  -- What is left is a block, a back edge or a shared entry.
  by_cases settled : ∀ id, g.Reached id → (g.bare id).isPending = false
  · by_cases straight : (Flow.ofGraph g).backEdges = []
    · -- Only shared entries are left.
      have noPending : (Distance.ofGraph g (Flow.ofGraph g)).pending = 0 := by
        rw [pending_eq_length, List.length_eq_zero_iff, List.eq_nil_iff_forall_not_mem]
        intro id listed
        obtain ⟨reached, pending⟩ := (mem_pendingBlocks sound.toLinked).mp listed
        exact Bool.false_ne_true ((settled id reached).symm.trans pending)
      have noBack : (Distance.ofGraph g (Flow.ofGraph g)).backEdges = 0 :=
        List.length_eq_zero_iff.mpr straight
      have shared : (Distance.ofGraph g (Flow.ofGraph g)).sharedEntries ≠ 0 := by
        simpa [Distance.isZero, noPending, noBack] using short
      rw [sharedEntries_eq] at shared
      obtain ⟨id, isReachable, isShared⟩ := List.countP_pos_iff.mp (Nat.pos_of_ne_zero shared)
      have reached := (mem_flow_reachable sound.toLinked).mp (IdSet.mem_toList.mp isReachable)
      exact isSome_step?_of_isShared sound settled reached isShared
    · obtain ⟨⟨source, header⟩, isBack⟩ := List.exists_mem_of_ne_nil _ straight
      exact isSome_step?_of_backEdge isBack
  · simp only [not_forall, Bool.not_eq_false] at settled
    obtain ⟨id, reached, pending⟩ := settled
    exact isSome_step?_of_isPending sound reached pending

end Stuck

section Closer

/-- Whether code that a loop takes in behind its exits leads to the header of the loop. -/
def HasBypass (g : Graph) (header : BlockId) : Prop :=
  ∃ id ∈ g.bodyOfLoop header, id ∉ g.loopCore header ∧ g.Leads id header

/-- Every rule that settles something leaves fewer blocks to be structured. -/
theorem pending_lt_apply (sound : g.Sound) (reached : g.Reached id)
    (applied : rule.apply g (Flow.ofGraph g) id = some h) (notLoop : rule ≠ .wrapLoop)
    (notEntry : rule ≠ .unshareEntry) : h.pendingBlocks.length < g.pendingBlocks.length := by
  -- A loop and a jump to an entry are judged by other parts of the distance.
  cases rule <;> dsimp only [Rule.apply] at applied
  case wrapLoop => exact absurd rfl notLoop
  case unshareEntry => exact absurd rfl notEntry
  case dropGoto => exact pending_lt_dropGoto sound reached applied
  case settlePlain => exact pending_lt_settlePlain sound reached applied
  case selectTest => exact pending_lt_selectTest sound reached applied
  case mergeTests => exact pending_lt_mergeTests sound reached applied
  case nestIf => exact pending_lt_nestIf sound reached applied
  case nestSwitch => exact pending_lt_nestSwitch sound reached applied
  case nestTry => exact pending_lt_nestTry sound reached applied
  case settleCall => exact pending_lt_settleCall sound reached applied
  case jumpTest => exact pending_lt_jumpTest sound reached applied
  case jumpSwitch => exact pending_lt_jumpSwitch sound reached applied
  case jumpTry => exact pending_lt_jumpTry sound reached applied
  case forceCall => exact pending_lt_forceCall sound reached applied

/-- A step that does not turn an entry into a jump brings the graph closer to its goal, unless it
makes a loop with a bypass. -/
theorem Next.lt_or_bypass (next : g.Next rule h) (sound : g.Sound)
    (notEntry : rule ≠ .unshareEntry) :
    (Distance.ofGraph h (Flow.ofGraph h)).lt (Distance.ofGraph g (Flow.ofGraph g)) = true ∨
      rule = .wrapLoop ∧ ∃ header, g.wrapLoop (Flow.ofGraph g) header = some h ∧
      g.HasBypass header := by
  obtain ⟨id, isSite, applied⟩ := next.applied
  have reached := reached_of_mem_sites sound isSite
  by_cases isLoop : rule = .wrapLoop
  · subst isLoop
    by_cases bypass : g.HasBypass id
    · exact .inr ⟨rfl, id, applied, bypass⟩
    · -- The blocks to be structured stay the same at worst, and there are fewer back edges.
      have fewer := length_backPlaces_lt sound applied fun other inBody outside leads =>
        bypass ⟨other, inBody, outside, leads⟩
      have noMore := pending_le_wrapLoop sound applied
      rw [length_backPlaces, length_backPlaces] at fewer
      rw [← pending_eq_length, ← pending_eq_length] at noMore
      refine .inl ?_
      simp only [Distance.lt, Bool.or_eq_true, decide_eq_true_eq, Bool.and_eq_true, beq_iff_eq]
      exact (Nat.lt_or_eq_of_le noMore).imp_right fun same => ⟨same, .inl fewer⟩
  · -- Every other rule settles a block, which the distance counts first.
    have fewer := pending_lt_apply sound reached applied isLoop notEntry
    rw [← pending_eq_length, ← pending_eq_length] at fewer
    refine .inl ?_
    simp only [Distance.lt, Bool.or_eq_true, decide_eq_true_eq]
    exact .inl fewer

end Closer

section Checks

/-- A sound graph at its goal is properly nested. -/
theorem Sound.nestingViolation?_eq_none (sound : g.Sound)
    (done : (Distance.ofGraph g (Flow.ofGraph g)).isZero = true) : g.nestingViolation? = none := by
  simp only [Distance.isZero, Bool.and_eq_true, beq_iff_eq, pending_eq_length, sharedEntries_eq,
    List.length_eq_zero_iff, List.countP_eq_zero] at done
  obtain ⟨⟨settled, -⟩, unshared⟩ := done
  have listed : ∀ {id}, g.Reached id → id ∈ g.reachable.toList := fun reached =>
    IdSet.mem_toList.mpr ((mem_reachable sound.toMirrored sound.nonempty).mpr reached)
  -- The consistency half holds at every step; distance zero gives the other two.
  refine (nestingViolation?_eq_none_iff sound.bounded).mpr
    ⟨sound.consistent, fun id reached => ?_, fun id reached => ?_⟩
  · rw [← Bool.not_eq_true]
    intro pending
    have isPending : id ∈ g.pendingBlocks := List.mem_filter.mpr ⟨listed reached, pending⟩
    exact List.not_mem_nil (settled ▸ isPending)
  · have single := unshared id (listed reached)
    rw [isShared, Bool.or_eq_true, not_or, decide_eq_true_eq, Option.isSome_iff_ne_none, ne_eq,
      Classical.not_not] at single
    exact ⟨Nat.not_lt.mp single.1, single.2⟩

end Checks

end Unjump.Graph
