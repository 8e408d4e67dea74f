import Unjump.Proofs.BackEdges
import Unjump.Proofs.Rewrite.Choice
import Unjump.Proofs.Rewrite.Entry
import Unjump.Proofs.Rewrite.Switch
import Unjump.Proofs.Rewrite.Test
import Unjump.Proofs.Rewrite.Try
import Unjump.Structuring

/-! Every rule but the one for loops and the one for shared entries leaves fewer blocks
to be structured. -/

namespace Unjump

/-- Whether a block has to be structured depends on its type and on whether it has a branch. -/
theorem Block.isPending_congr {b c : Block} (type : c.type = b.type)
    (branch : c.branch.isSome = b.branch.isSome) : c.isPending = b.isPending := by
  -- The two fields are all that the test looks at.
  rw [isPending, isPending, isOpenCondition, isOpenCondition, type, branch]

/-- Where the edges of a block lead does not matter for whether it has to be structured. -/
@[simp] theorem Block.isPending_replaceTarget (b : Block) (old new : Target) :
    (b.replaceTarget old new).isPending = b.isPending :=
  isPending_congr rfl (by simp [replaceTarget])

/-- A closed test is settled. -/
theorem Block.isPending_closed {b : Block} (isTest : b.type.isCondition) (invert : Bool) :
    (b.closed invert).isPending = false := by
  -- A raw test becomes a structured one, and a structured test is open only as long
  -- as it has a branch.
  have notRaw : (b.closed invert).type.isRaw = false := by
    simp only [closed]
    split
    · rfl
    · next other =>
      cases type : b.type with
      | start | structured => rfl
      | raw raw => cases raw <;> simp_all [BlockType.isCondition]
  rw [isPending, notRaw, isOpenCondition]
  exact Bool.and_false _

namespace Graph

variable {g h : Graph} {flow : Flow} {id : BlockId}

/-- A literal jump is settled. -/
theorem isPending_gotoBlock {construct : Construct}
    (isGoto : (BlockType.structured construct).isGoto) (offset : Offset) (target : Target) :
    (gotoBlock construct offset target).isPending = false := by
  -- Both kinds of literal jumps are structured and no tests.
  cases construct <;> first | rfl | cases isGoto

/-- The reachable blocks that still have to be structured. -/
def pendingBlocks (g : Graph) : List BlockId :=
  g.reachable.toList.filter fun id => (g.block id).isPending

/-- The distance counts the reachable blocks that still have to be structured. -/
theorem pending_eq_length (g : Graph) :
    (Distance.ofGraph g (Flow.ofGraph g)).pending = g.pendingBlocks.length :=
  List.countP_eq_length_filter

/-- A block is left to be structured if it can be reached and is pending. -/
theorem mem_pendingBlocks (linked : g.Linked) :
    id ∈ g.pendingBlocks ↔ g.Reached id ∧ (g.bare id).isPending = true := by
  -- The list is cut out of the reachable blocks.
  rw [pendingBlocks, List.mem_filter, IdSet.mem_toList,
    mem_reachable linked.toMirrored linked.nonempty]
  rfl

/-- Each block that is left to be structured is listed once. -/
theorem nodup_pendingBlocks (g : Graph) : g.pendingBlocks.Nodup :=
  (g.reachable.ascending.imp Nat.ne_of_lt).filter _

/-- A change that settles a block and leaves nothing else to be structured that was not before. -/
structure Settles (g : Graph) (id : BlockId) (h : Graph) : Prop where
  old : ∀ i < g.size, i ≠ id → (h.bare i).isPending = true → (g.bare i).isPending = true
  new : ∀ i, g.size ≤ i → i < h.size → (h.bare i).isPending = false
  own : h.Reached id → (h.bare id).isPending = false

/-- A rule that settles a block leaves fewer blocks to be structured. -/
theorem Settles.pending_lt {covers : EdgeFilter → Prop} {back : BlockId → BlockId}
    (settles : Settles g id h) (sound : g.Sound) (rewrite : Simulates covers g h back)
    (covered : covers .all) (reached : g.Reached id) (pending : (g.bare id).isPending = true) :
    h.pendingBlocks.length < g.pendingBlocks.length := by
  -- Every block pending after the step was pending before it, and the settled one
  -- is no longer among them.
  have before : ∀ i ∈ h.pendingBlocks, i ∈ g.pendingBlocks ∧ i ≠ id := by
    intro i listed
    obtain ⟨isReached, isPending⟩ := (mem_pendingBlocks rewrite.linked).mp listed
    have bounded := isReached.lt_size rewrite.linked
    -- A new block is settled from the start.
    have known : i < g.size := by
      refine Nat.lt_of_not_le fun isNew => ?_
      rw [settles.new i isNew bounded] at isPending
      cases isPending
    -- The settled block is no longer pending, if it can still be reached.
    have other : i ≠ id := by
      rintro rfl
      rw [settles.own isReached] at isPending
      cases isPending
    exact ⟨(mem_pendingBlocks sound.toLinked).mpr
      ⟨rewrite.reached_old covered sound.nonempty known isReached,
        settles.old i known other isPending⟩, other⟩
  exact length_lt_of_place (fun i => i) (nodup_pendingBlocks h)
    (fun i listed => (before i listed).1)
    (fun _ _ _ _ same => same) ((mem_pendingBlocks sound.toLinked).mpr ⟨reached, pending⟩)
    fun i listed => (before i listed).2

/-- A block with a raw type has to be structured. -/
theorem isPending_of_raw {b : Block} {type : RawType} (isRaw : b.type = .raw type) :
    b.isPending = true := by
  -- Being raw is one of the two reasons.
  rw [Block.isPending, isRaw]
  rfl

/-- An open test has to be structured. -/
theorem isPending_of_isOpenCondition {b : Block} (isOpen : b.isOpenCondition = true) :
    b.isPending = true := by
  -- Being open is the other one.
  rw [Block.isPending, isOpen, Bool.or_true]

/-- A construct that is no test is settled. -/
theorem isPending_of_structured {b : Block} (construct : Construct)
    (type : b.type = .structured construct)
    (noTest : (BlockType.structured construct).isCondition = false) : b.isPending = false := by
  -- Neither of the two reasons applies.
  rw [Block.isPending, Block.isOpenCondition, type, noTest]
  rfl

section Rules

/-- Settling a block settles it and leaves the others as they are. -/
theorem settles_settle {construct : Construct} (known : id < g.size)
    (noTest : (BlockType.structured construct).isCondition = false) :
    Settles g id (g.settle id construct) := by
  -- No block is added, and none but the one changes.
  refine ⟨fun i _ other pending => ?_, fun i isNew bounded => ?_, fun _ => ?_⟩
  · rwa [bare_settle known, if_neg other] at pending
  · exact absurd (size_settle ▸ bounded) (Nat.not_lt.mpr isNew)
  · rw [bare_settle known, if_pos rfl]
    exact isPending_of_structured construct rfl noTest

/-- Nesting chains in a construct settles its block. -/
theorem Nested.settles {ways : Exit → Prop} {arms : List Arm} {c : Block}
    (nested : Nested ways arms g id c h) (settled : c.isPending = false) : Settles g id h := by
  -- Other blocks lose at most an edge, which does not open them.
  refine ⟨fun i _ other pending => ?_, fun i isNew bounded => ?_, fun _ => nested.own ▸ settled⟩
  · rcases nested.others i other with same | ⟨-, way, -, ended⟩
    · rwa [same] at pending
    · rw [ended] at pending
      rwa [Block.isPending_congr rfl rfl] at pending
  · exact absurd (nested.size ▸ bounded) (Nat.not_lt.mpr isNew)

/-- Jumping from a block to its targets settles it. -/
theorem Jumps.settles {base : Graph} {construct : Construct} {offset : Offset}
    {targets results : List Target} (jumps : Jumps construct offset targets results base g)
    (isGoto : (BlockType.structured construct).isGoto) (known : id < base.size)
    (change : Block → Block) (pure : ∀ b, (change b).bare = change b.bare)
    (settled : ∀ b, (change b).isPending = false) : Settles base id (g.update id change) := by
  -- The new blocks are literal jumps, which are never open.
  have blocks := bare_update change (Nat.lt_of_lt_of_le known jumps.grows) pure
  refine ⟨fun i old other pending => ?_, fun i isNew bounded => ?_, fun _ => ?_⟩
  · -- An old block is as it was before the jumps.
    rwa [blocks, if_neg other, jumps.old i old] at pending
  · obtain ⟨v, -, same⟩ := jumps.gotos i isNew (by simpa using bounded)
    rw [blocks, if_neg (Nat.ne_of_gt (Nat.lt_of_lt_of_le known isNew)), same]
    exact isPending_gotoBlock isGoto _ _
  · -- The block itself is changed into a settled one.
    rw [blocks, if_pos rfl]
    exact settled _

/-- Making a choice settles its test. -/
theorem Chosen.settles {base : Graph} {choice : Choice} (chosen : Chosen g id choice h)
    (known : id < base.size) (isTest : (base.bare id).type.isCondition)
    (jumped : Jumped base id choice g) : Settles base id h := by
  -- Apart from the test, an old block keeps its type and its branch.
  have others : ∀ i < g.size, i ≠ id → (h.bare i).isPending = (g.bare i).isPending := by
    intro i inside other
    rw [← Block.isPending_replaceTarget (g.bare i) (.block id) (.block g.size)]
    -- A block that ends a chain gets another next block, which is no branch.
    rcases chosen.others i inside other with same | ⟨-, ended⟩
    · rw [same]
    · rw [ended]
      exact Block.isPending_congr rfl rfl
  refine ⟨fun i inside other pending => ?_, fun i isNew bounded => ?_, fun _ => ?_⟩
  · -- An old block is as it was before the choice and before the jump.
    rwa [others i (Nat.lt_of_lt_of_le inside jumped.grows) other, jumped.old i inside] at pending
  · by_cases inside : i < g.size
    · -- A block that the jump has added is a literal jump.
      rw [others i inside (Nat.ne_of_gt (Nat.lt_of_lt_of_le known isNew))]
      obtain ⟨construct, offset, v, same, isGoto, -⟩ := jumped.gotos i isNew inside
      exact same ▸ isPending_gotoBlock isGoto _ _
    · -- The last block is the choice itself, which has no branch.
      rw [chosen.eq_size bounded (Nat.le_of_not_lt inside), chosen.composite, Block.isPending,
        Block.isOpenCondition]
      exact Bool.and_false _
  · -- The test is closed.
    rw [chosen.closed]
    refine Block.isPending_closed ?_ _
    exact (congrArg (·.type.isCondition) (jumped.old id known)).trans isTest

/-- Settling a raw block as something that is no test leaves fewer blocks to be structured. -/
theorem pending_lt_settle {type : RawType} {construct : Construct} {back : BlockId → BlockId}
    (sound : g.Sound) (reached : g.Reached id) (isRaw : (g.bare id).type = .raw type)
    (noTest : (BlockType.structured construct).isCondition = false)
    (rewrite : Rewrite g (g.settle id construct) back) :
    (g.settle id construct).pendingBlocks.length < g.pendingBlocks.length :=
  (settles_settle (reached.lt_size sound.toLinked) noTest).pending_lt sound rewrite.toSimulates
    trivial reached (isPending_of_raw isRaw)

/-- Settling plain code leaves fewer blocks to be structured. -/
theorem pending_lt_settlePlain (sound : g.Sound) (reached : g.Reached id)
    (applied : g.settlePlain flow id = some h) :
    h.pendingBlocks.length < g.pendingBlocks.length := by
  -- None of the plain constructs is a test.
  have rewrite := rewrite_settlePlain sound reached applied
  unfold settlePlain at applied
  split at applied
  · next type isRaw =>
    obtain ⟨construct, plain, rfl⟩ := Option.map_eq_some_iff.mp applied
    refine pending_lt_settle sound reached isRaw ?_ rewrite
    cases type <;> cases plain <;> rfl
  · cases applied

/-- Settling a call leaves fewer blocks to be structured. -/
theorem pending_lt_settleCall (sound : g.Sound) (reached : g.Reached id)
    (applied : g.settleCall flow id = some h) :
    h.pendingBlocks.length < g.pendingBlocks.length := by
  -- A call is raw, and settled it is no test.
  obtain ⟨isCall, rfl⟩ := settleCall_cases applied
  exact pending_lt_settle sound reached isCall rfl (rewrite_settle_jsr sound reached isCall)

/-- Settling a call by force leaves fewer blocks to be structured. -/
theorem pending_lt_forceCall (sound : g.Sound) (reached : g.Reached id)
    (applied : g.forceCall flow id = some h) : h.pendingBlocks.length < g.pendingBlocks.length := by
  -- The block becomes the same as without force.
  obtain ⟨isCall, rfl⟩ := forceCall_cases applied
  exact pending_lt_settle sound reached isCall rfl (rewrite_settle_jsr sound reached isCall)

/-- A jump without code is out of reach once it has made way for its target. -/
theorem not_reached_bypass (linked : g.Linked) (known : id < g.size) (notStart : id ≠ start)
    {target : Target} (other : target ≠ .block id) :
    ¬ ((g.redirect id target).detach id).Reached id := by
  intro reached
  -- A last edge into the block would have been renamed away.
  rcases reached.cases_tail with same | ⟨previous, -, kind, edge⟩
  · exact notStart same
  · rw [bare_bypass linked known] at edge
    split at edge
    · simp at edge
    · rw [Block.edge?_replaceTarget, Option.map_eq_some_iff] at edge
      obtain ⟨before, -, renamed⟩ := edge
      by_cases same : before = .block id
      · rw [same, Target.renamed_self] at renamed
        exact other renamed
      · rw [Target.renamed_ne same] at renamed
        exact same renamed

/-- Dropping a jump leaves fewer blocks to be structured. -/
theorem pending_lt_dropGoto (sound : g.Sound) (reached : g.Reached id)
    (applied : g.dropGoto flow id = some h) : h.pendingBlocks.length < g.pendingBlocks.length := by
  have rewrite := rewrite_dropGoto sound reached applied
  obtain ⟨either, made⟩ := dropGoto_cases applied
  have known := reached.lt_size sound.toLinked
  obtain ⟨type, isRaw⟩ : ∃ type, (g.bare id).type = .raw type := either.elim (⟨_, ·⟩) (⟨_, ·⟩)
  suffices Settles g id h from this.pending_lt sound rewrite.toSimulates trivial reached
    (isPending_of_raw isRaw)
  -- A jump to itself is settled as one, an empty jump elsewhere is bypassed, and one
  -- that holds code keeps it.
  rcases made with ⟨-, -, rfl⟩ | ⟨target, -, -, other, rfl⟩ | rfl
  · -- A jump to itself changes in its type and its next edge.
    have blocks :=
      bare_update (g := g) ({ · with type := .structured .infiniteGoto, next := none }) known
        fun _ => rfl
    refine ⟨fun i _ differs pending => ?_, fun i isNew bounded => ?_, fun _ => ?_⟩
    · rwa [blocks, if_neg differs] at pending
    · exact absurd (size_update .. ▸ bounded) (Nat.not_lt.mpr isNew)
    · rw [blocks, if_pos rfl]
      exact isPending_of_structured .infiniteGoto rfl rfl
  · -- A bypassed jump is as raw as before, but nothing leads to it any more.
    refine ⟨fun i _ differs pending => ?_, fun i isNew bounded => ?_, fun isReached => ?_⟩
    · rw [bare_bypass sound.toLinked known, if_neg differs] at pending
      rwa [Block.isPending_replaceTarget] at pending
    · exact absurd (by simpa [detach] using bounded) (Nat.not_lt.mpr isNew)
    · exact absurd isReached
        (not_reached_bypass sound.toLinked known (sound.toLinked.ne_start_of_raw isRaw) other)
  · -- A jump with code is settled as it stands.
    exact settles_settle known rfl

/-- An old block that is still open after tests have become one was open before
and is none of them. -/
theorem pending_before_combine {construct : Construct} {operands : List (BlockId × Bool)}
    {fields : Block → Block} (mirrored : g.Mirrored) (pure : ∀ b, (fields b).bare = fields b.bare)
    (distinct : (operands.map (·.1)).Nodup)
    (tests : ∀ operand ∈ operands, operand.1 < g.size ∧ (g.bare operand.1).type.isCondition)
    {i : BlockId} (inside : i < g.size)
    (pending : ((g.combine id construct operands fields).bare i).isPending = true) :
    (g.bare i).isPending = true ∧ operands.lookup i = none := by
  -- The operands are closed, so that an open block is not one of them.
  rw [bare_combine mirrored distinct (fun operand listed => (tests operand listed).1) pure,
    if_neg (Nat.ne_of_lt inside)] at pending
  -- An operand is closed, and any other block is as pending as before.
  split at pending
  · next invert found =>
    obtain ⟨before, after, listed, -⟩ := List.lookup_eq_some_iff.mp found
    have isTest : ((g.bare i).replaceTarget (.block id) (.block g.size)).type.isCondition :=
      (tests (i, invert) (by simp [listed])).2
    rw [Block.isPending_closed isTest] at pending
    cases pending
  · next absent => exact ⟨by rwa [Block.isPending_replaceTarget] at pending, absent⟩

/-- Tests that become one are all settled, and only the new one is left open. -/
theorem pending_lt_combine {construct : Construct} {operands : List (BlockId × Bool)}
    {fields : Block → Block} (sound : g.Sound) (reached : g.Reached id)
    (isOpen : (g.bare id).isOpenCondition = true) (pure : ∀ b, (fields b).bare = fields b.bare)
    (distinct : (operands.map (·.1)).Nodup)
    (tests : ∀ operand ∈ operands, operand.1 < g.size ∧ (g.bare operand.1).type.isCondition)
    (isOperand : (operands.lookup id).isSome) {other : BlockId} (differs : other ≠ id)
    (isOther : (operands.lookup other).isSome) (leads : g.Leads id other)
    (opens : (g.bare other).isOpenCondition = true)
    (rewrite : Rewrite g (g.combine id construct operands fields) (g.standsFor id)) :
    (g.combine id construct operands fields).pendingBlocks.length < g.pendingBlocks.length := by
  have size : (g.combine id construct operands fields).size = g.size + 1 := size_combine
  -- What is still open is the new test, in place of the first one, or a block
  -- that is no operand, in its own place.
  have cases : ∀ i ∈ (g.combine id construct operands fields).pendingBlocks,
      (i = g.size ∧ g.standsFor id i = id) ∨
      (i ∈ g.pendingBlocks ∧ operands.lookup i = none ∧ g.standsFor id i = i) := by
    intro i listed
    obtain ⟨isReached, pending⟩ := (mem_pendingBlocks rewrite.linked).mp listed
    by_cases inside : i < g.size
    · obtain ⟨pending, absent⟩ :=
        pending_before_combine sound.toMirrored pure distinct tests inside pending
      refine .inr ⟨(mem_pendingBlocks sound.toLinked).mpr ⟨?_, pending⟩, absent,
        standsFor_old id inside⟩
      exact rewrite.reached_old trivial sound.nonempty inside isReached
    · have isNew := Nat.le_of_not_lt inside
      have bounded := isReached.lt_size rewrite.linked
      rw [size] at bounded
      exact .inl ⟨Nat.le_antisymm (Nat.le_of_lt_succ bounded) isNew, standsFor_new id isNew⟩
  have ownPending : id ∈ g.pendingBlocks :=
    (mem_pendingBlocks sound.toLinked).mpr ⟨reached, isPending_of_isOpenCondition isOpen⟩
  refine length_lt_of_place (g.standsFor id) (nodup_pendingBlocks _) ?_ ?_
    ((mem_pendingBlocks sound.toLinked).mpr
      ⟨reached.step leads, isPending_of_isOpenCondition opens⟩) ?_
  · -- Each place is that of a block that was pending before: the first test or the block itself.
    intro i listed
    rcases cases i listed with ⟨-, place⟩ | ⟨pending, -, place⟩
    · rwa [place]
    · rwa [place]
  · -- Different blocks have different places, as the new test takes that of an operand.
    intro i first j second same
    rcases cases i first with ⟨isNew, place⟩ | ⟨-, absent, place⟩ <;>
      rcases cases j second with ⟨isNew', place'⟩ | ⟨-, absent', place'⟩
    · rw [isNew, isNew']
    · rw [place, place'] at same
      rw [← same] at absent'
      simp [absent'] at isOperand
    · rw [place, place'] at same
      rw [same] at absent
      simp [absent] at isOperand
    · rwa [place, place'] at same
  · -- The place of the other operand is left free, as it is neither new nor still open.
    intro i listed same
    rcases cases i listed with ⟨-, place⟩ | ⟨-, absent, place⟩
    · exact differs (same.symm.trans place)
    · rw [place.symm.trans same] at absent
      simp [absent] at isOther

/-- Merging two tests leaves fewer blocks to be structured. -/
theorem pending_lt_mergeTests (sound : g.Sound) (reached : g.Reached id)
    (applied : g.mergeTests flow id = some h) :
    h.pendingBlocks.length < g.pendingBlocks.length := by
  -- Two open tests become one.
  have rewrite := rewrite_mergeTests sound reached applied
  obtain ⟨second, construct, invert, isOpen, next, other, operand, -, rfl⟩ :=
    mergeTests_cases applied
  have opens := (isOperandOf_iff.mp operand).1
  have leads : g.Leads id second := ⟨.next, next⟩
  refine pending_lt_combine sound reached isOpen (fun _ => rfl) ?_ ?_ ?_ other ?_ leads
    opens rewrite
  · simpa using Ne.symm other
  · simp only [List.mem_cons, List.not_mem_nil, or_false]
    rintro operand (rfl | rfl)
    · exact ⟨leads.lt_size, (isOpenCondition_iff.mp isOpen).1⟩
    · exact ⟨sound.bounded leads, (isOpenCondition_iff.mp opens).1⟩
  · simp
  · simp [List.lookup_cons, beq_eq_false_iff_ne.mpr other]

/-- Selecting a test by another one leaves fewer blocks to be structured. -/
theorem pending_lt_selectTest (sound : g.Sound) (reached : g.Reached id)
    (applied : g.selectTest flow id = some h) :
    h.pendingBlocks.length < g.pendingBlocks.length := by
  -- Three open tests become one.
  have rewrite := rewrite_selectTest sound reached applied
  obtain ⟨failed, held, isOpen, next, branch, differ, notFailed, notHeld, operandFailed,
      operandHeld, -, -, rfl⟩ :=
    selectTest_cases applied
  have opensFailed := (isOperandOf_iff.mp operandFailed).1
  have opensHeld := (isOperandOf_iff.mp operandHeld).1
  have leadsFailed : g.Leads id failed := ⟨.next, next⟩
  have leadsHeld : g.Leads id held := ⟨.branch, branch⟩
  refine pending_lt_combine sound reached isOpen (fun _ => rfl) ?_ ?_ ?_ notFailed ?_ leadsFailed
    opensFailed rewrite
  · simp [Ne.symm notFailed, Ne.symm notHeld, differ]
  · simp only [List.mem_cons, List.not_mem_nil, or_false]
    rintro operand (rfl | rfl | rfl)
    · exact ⟨leadsFailed.lt_size, (isOpenCondition_iff.mp isOpen).1⟩
    · exact ⟨sound.bounded leadsFailed, (isOpenCondition_iff.mp opensFailed).1⟩
    · exact ⟨sound.bounded leadsHeld, (isOpenCondition_iff.mp opensHeld).1⟩
  · simp
  · simp [List.lookup_cons, beq_eq_false_iff_ne.mpr notFailed]

/-- Nesting an `if` leaves fewer blocks to be structured. -/
theorem pending_lt_nestIf (sound : g.Sound) (reached : g.Reached id)
    (applied : g.nestIf flow id = some h) : h.pendingBlocks.length < g.pendingBlocks.length := by
  -- The test is closed by its choice, and nothing is added.
  have rewrite := rewrite_nestIf sound reached applied
  obtain ⟨next, branch, choice, isOpen, isNext, isBranch, -, chooses, rfl⟩ := nestIf_cases applied
  have known := reached.lt_size sound.toLinked
  have settles :=
    (chosen_nestIf sound.toMirrored isOpen chooses).settles known (isOpenCondition_iff.mp isOpen).1
      (chooses.jumped isOpen)
  exact settles.pending_lt sound rewrite.toSimulates trivial reached
    (isPending_of_isOpenCondition isOpen)

/-- Turning a test into a conditional jump leaves fewer blocks to be structured. -/
theorem pending_lt_jumpTest (sound : g.Sound) (reached : g.Reached id)
    (applied : g.jumpTest flow id = some h) : h.pendingBlocks.length < g.pendingBlocks.length := by
  -- The test is closed by its choice, and what is added is a literal jump.
  have rewrite := rewrite_jumpTest sound reached applied
  obtain ⟨next, branch, isOpen, isNext, isBranch, rfl⟩ := jumpTest_cases applied
  have known := reached.lt_size sound.toLinked
  have chosen :=
    chosen_jumpTest sound.toMirrored next isBranch (g.testJump id branch) (g.block id).finish
  have settles := chosen.settles known (isOpenCondition_iff.mp isOpen).1
    (jumped_jumpTest sound.toLinked next isBranch (g.testJump id branch) testJump_isGoto _)
  exact settles.pending_lt sound rewrite.toSimulates trivial reached
    (isPending_of_isOpenCondition isOpen)

/-- Nesting the bodies of a switch leaves fewer blocks to be structured. -/
theorem pending_lt_nestSwitch (sound : g.Sound) (reached : g.Reached id)
    (applied : g.nestSwitch flow id = some h) :
    h.pendingBlocks.length < g.pendingBlocks.length := by
  have rewrite := rewrite_nestSwitch sound reached applied
  -- The switch is settled, and its bodies only change where they end.
  obtain ⟨join, trim, isSwitch, -, arms, cases, rfl⟩ := nestSwitch_cases applied
  have settles :=
    (nested_nestSwitch sound reached isSwitch arms cases).settles
      (isPending_of_structured .switch rfl rfl)
  exact settles.pending_lt sound rewrite.toSimulates trivial reached (isPending_of_raw isSwitch)

/-- Jumping to the cases of a switch leaves fewer blocks to be structured. -/
theorem pending_lt_jumpSwitch (sound : g.Sound) (reached : g.Reached id)
    (applied : g.jumpSwitch flow id = some h) :
    h.pendingBlocks.length < g.pendingBlocks.length := by
  have rewrite := rewrite_jumpSwitch sound reached applied
  -- The switch is settled, and what is added are literal jumps.
  obtain ⟨isSwitch, rfl⟩ := jumpSwitch_cases applied
  refine Settles.pending_lt ?_ sound rewrite.toSimulates trivial reached (isPending_of_raw isSwitch)
  refine (jumps_cases sound.toLinked id _).settles rfl (reached.lt_size sound.toLinked) _
    (fun _ => rfl) fun _ => ?_
  exact isPending_of_structured .switch rfl rfl

/-- Nesting the parts of a try leaves fewer blocks to be structured. -/
theorem pending_lt_nestTry (sound : g.Sound) (reached : g.Reached id)
    (applied : g.nestTry flow id = some h) : h.pendingBlocks.length < g.pendingBlocks.length := by
  -- None of the constructs with handlers is a test.
  have rewrite := rewrite_nestTry sound reached applied
  obtain ⟨next, heads, body, handlers, join, construct, isTry, arms, isJoin, -, isConstruct, rfl⟩ :=
    nestTry_cases applied
  have noTest : (BlockType.structured construct).isCondition = false := by
    rcases isConstruct with rfl | rfl | rfl <;> rfl
  have settles :=
    (nested_nestTry sound reached isTry arms isJoin).settles
      (isPending_of_structured construct rfl noTest)
  exact settles.pending_lt sound rewrite.toSimulates trivial reached (isPending_of_raw isTry)

/-- Jumping to the parts of a try leaves fewer blocks to be structured. -/
theorem pending_lt_jumpTry (sound : g.Sound) (reached : g.Reached id)
    (applied : g.jumpTry flow id = some h) : h.pendingBlocks.length < g.pendingBlocks.length := by
  have rewrite := rewrite_jumpTry sound reached applied
  -- The try is settled, and what is added are literal jumps.
  obtain ⟨isTry, body, targets, made, jumped, rfl⟩ := jumpTry_cases applied
  have jumps := jumps_tryTargets sound.toLinked id (g.block id).start
  rw [jumped] at jumps
  refine Settles.pending_lt ?_ sound rewrite.toSimulates trivial reached (isPending_of_raw isTry)
  refine jumps.settles rfl (reached.lt_size sound.toLinked) _ (fun _ => rfl) fun _ => ?_
  exact isPending_of_structured .tryBlock rfl rfl

/-- Making a loop leaves nothing to be structured that was not before. -/
theorem pending_le_wrapLoop (sound : g.Sound) (applied : g.wrapLoop (Flow.ofGraph g) id = some h) :
    h.pendingBlocks.length ≤ g.pendingBlocks.length := by
  have wrapped := wrapped_wrapLoop sound.toMirrored applied
  have rewrite := rewrite_wrapLoop sound applied
  have covered : ∀ last, g.loopAfter id = some last → g.Walk .all id last := fun last found =>
    walk_loopAfter sound.toMirrored (wrapLoop_cases applied).1 found
  -- No block is left afterwards that was not left before.
  refine ((nodup_pendingBlocks h).subperm fun i listed => ?_).length_le
  obtain ⟨reached, pending⟩ := (mem_pendingBlocks (wrapped.linked sound.toLinked)).mp listed
  -- Old blocks keep their type; the loop block and the new jumps are settled from the start.
  rcases Nat.lt_trichotomy i g.size with old | rfl | new
  · rw [Block.isPending_congr (wrapped.type i old) (wrapped.isSome_edge? old .branch)] at pending
    exact (mem_pendingBlocks sound.toLinked).mpr
      ⟨rewrite.reached_old covered sound.nonempty old reached, pending⟩
  · rw [isPending_of_structured .loop wrapped.loopType rfl] at pending
    cases pending
  · obtain ⟨_, -, _, _, _, -, -, isGoto, -, -⟩ :=
      wrapped.gotos i new (reached.lt_size (wrapped.linked sound.toLinked))
    rw [isGoto, isPending_gotoBlock rfl] at pending
    cases pending

end Rules

end Graph

end Unjump
