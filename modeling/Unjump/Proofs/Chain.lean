import Mathlib.Data.List.Chain
import Mathlib.Data.List.Perm.Subperm
import Unjump.Proofs.Arm

/-!
The chain that a walk takes is the longest private one.

A chain is private when it is entered at its head only, and there by the blocks that may: every
later block is entered by the one before it. Its blocks follow each other in the order of their
code, so a walk along it never comes back and ends.
-/

namespace Unjump

/-- Whether code at an offset lies within the bounds of a chain. -/
structure ArmBounds.Allow (bounds : ArmBounds) (offset : Offset) : Prop where
  covers : offset ≠ syntheticOffset
  after : ∀ lower, bounds.after = some lower → lower < offset
  before : ∀ upper, bounds.before = some upper → offset < upper

/-- Where a chain with an end leads. -/
def ArmEnd.onward? : ArmEnd → Option Target
  | .join id => some (.block id)
  | .jump way => some (.exit way)
  | .terminal => none

/-- No two ends lead to the same place. -/
theorem ArmEnd.onward?_injective : Function.Injective onward? := by
  intro finish other same
  -- Ends of different kinds lead to different kinds of places.
  cases finish <;> cases other <;> cases same <;> rfl

namespace Graph

/-- Whether control passes from one block to another in the flow, and not by a literal jump. -/
def PassesTo (g : Graph) (pred id : BlockId) : Prop :=
  pred ∈ g.flowPreds id ∧ (g.block pred).type.isGoto = false

/-- Whether a block goes on with another one that nothing else passes to. -/
structure Continues (g : Graph) (id next : BlockId) : Prop where
  straight : (g.block id).type.isGoto = false
  follows : (g.block id).next = some (.block next)
  entered : ∀ pred, g.PassesTo pred next ↔ pred = id

/-- A private chain of settled blocks within bounds. -/
structure PrivateChain (g : Graph) (flow : Flow) (bounds : ArmBounds) (first : Target)
    (blocks : List BlockId) : Prop where
  distinct : blocks.Nodup
  settled : ∀ id ∈ blocks, (g.block id).isSettled = true
  inner : ∀ id ∈ blocks, id ∉ flow.headers
  within : ∀ id ∈ blocks, bounds.Allow (g.block id).start
  increasing : blocks.Pairwise fun id later => (g.block id).start < (g.block later).start
  /-- The head is the block that the chain is asked to start with,
  and only allowed blocks pass to it. -/
  head : ∀ id, blocks.head? = some id →
    first = .block id ∧ (∃ pred, g.PassesTo pred id) ∧
      ∀ pred, g.PassesTo pred id → pred ∈ bounds.entry
  links : blocks.IsChain g.Continues

/-- Where control goes on after some blocks: where it was to start if there are none,
and nowhere after a literal jump. -/
def onward (g : Graph) (first : Target) (blocks : List BlockId) : Option Target :=
  match blocks.getLast? with
  | none => some first
  | some last => if (g.block last).type.isGoto then none else (g.block last).next

/-- A private chain that says how it continues, and ends only where it has to. -/
structure IsArm (g : Graph) (flow : Flow) (bounds : ArmBounds) (first : Target) (arm : Arm) :
    Prop where
  chain : g.PrivateChain flow bounds first arm.blocks
  terminal_iff : arm.finish = .terminal ↔ g.onward first arm.blocks = none
  jump_iff : ∀ way, arm.finish = .jump way ↔ g.onward first arm.blocks = some (.exit way)
  join_iff : ∀ id, arm.finish = .join id ↔ g.onward first arm.blocks = some (.block id)
  /-- The block that it runs on into would not continue it. -/
  full : ∀ id, arm.finish = .join id → ¬ g.PrivateChain flow bounds first (arm.blocks ++ [id])

variable {g : Graph} {flow : Flow} {bounds : ArmBounds} {first : Target} {blocks : List BlockId}
    {id : BlockId}

/-- Control goes on from the last of some blocks, unless that is a literal jump. -/
theorem onward_append : g.onward first (blocks ++ [id]) =
    if (g.block id).type.isGoto then none else (g.block id).next := by
  -- The last block is the one that was added.
  simp only [onward, List.getLast?_concat]

/-! ### What a walk tests -/

/-- The straight predecessors of a block are the blocks that control passes from. -/
theorem mem_straightPreds_iff {pred : BlockId} :
    pred ∈ g.straightPreds id ↔ g.PassesTo pred id := by
  -- Literal jumps are left out on both sides.
  rw [straightPreds, IdSet.mem_filter, Bool.not_eq_true']
  rfl

/-- The head of a chain has to be entered, and by allowed blocks only. -/
theorem isEnteredBy_none_iff : g.isEnteredBy bounds none id = true ↔
    (∃ pred, g.PassesTo pred id) ∧ ∀ pred, g.PassesTo pred id → pred ∈ bounds.entry := by
  -- A head without any way in is refused, so inclusion alone does not do.
  have nonempty : (!(g.straightPreds id).isEmpty) = true ↔ ∃ pred, pred ∈ g.straightPreds id := by
    rw [IdSet.isEmpty, Bool.not_eq_true', List.isEmpty_eq_false_iff_exists_mem]
    simp only [IdSet.mem_toList]
  simp only [isEnteredBy, Bool.and_eq_true, nonempty, IdSet.subset_iff, mem_straightPreds_iff]

/-- A later block of a chain has to be entered by the one before it alone. -/
theorem isEnteredBy_some_iff {before : BlockId} : g.isEnteredBy bounds (some before) id = true ↔
    ∀ pred, g.PassesTo pred id ↔ pred = before := by
  -- The set that is asked for has one member.
  have single : ∀ pred, pred ∈ IdSet.insert ∅ before ↔ pred = before := by simp
  rw [isEnteredBy, beq_iff_eq, IdSet.ext_iff]
  simp only [mem_straightPreds_iff, single]

/-- The first block of a chain has to start within the bounds. -/
theorem isWithin_none_iff : g.isWithin bounds none id = true ↔ bounds.Allow (g.block id).start := by
  -- The bounds are tested one by one.
  simp only [isWithin, Bool.and_eq_true, bne_iff_ne, ne_eq, Option.all_eq_true, decide_eq_true_eq]
  constructor
  · rintro ⟨⟨covers, after⟩, before⟩
    exact ⟨covers, after, before⟩
  · rintro ⟨covers, after, before⟩
    exact ⟨⟨covers, after⟩, before⟩

/-- A later block of a chain has to start behind the one before it,
which lies within the bounds already. -/
theorem isWithin_some_iff {previous : BlockId} (allow : bounds.Allow (g.block previous).start) :
    g.isWithin bounds (some previous) id = true ↔
      bounds.Allow (g.block id).start ∧ (g.block previous).start < (g.block id).start := by
  simp only [isWithin, Bool.and_eq_true, bne_iff_ne, ne_eq, Option.all_eq_true, Option.some.injEq,
    forall_eq', decide_eq_true_eq]
  constructor
  · -- The test is made against the block before, and the lower bound follows from that.
    rintro ⟨⟨covers, behind⟩, before⟩
    exact ⟨⟨covers, fun lower isLower => UInt32.lt_trans (allow.after lower isLower) behind,
      before⟩, behind⟩
  · rintro ⟨inside, behind⟩
    exact ⟨⟨inside.covers, behind⟩, inside.before⟩

/-! ### One step of a walk -/

namespace PrivateChain

/-- No blocks are a chain. -/
theorem nil : g.PrivateChain flow bounds first [] :=
  ⟨.nil, by simp, by simp, by simp, .nil, by simp, .nil⟩

/-- The beginning of a chain is a chain. -/
theorem of_append {more : List BlockId}
    (chain : g.PrivateChain flow bounds first (blocks ++ more)) :
    g.PrivateChain flow bounds first blocks where
  distinct := (List.nodup_append.mp chain.distinct).1
  settled := fun id listed => chain.settled id (List.mem_append_left _ listed)
  inner := fun id listed => chain.inner id (List.mem_append_left _ listed)
  within := fun id listed => chain.within id (List.mem_append_left _ listed)
  increasing := (List.pairwise_append.mp chain.increasing).1
  head := fun id isHead => chain.head id (by simp [isHead])
  links := (List.isChain_append.mp chain.links).1

/-- The blocks of a chain are blocks of the graph. -/
theorem lt_size (chain : g.PrivateChain flow bounds first blocks) (listed : id ∈ blocks) :
    id < g.size := by
  refine Nat.lt_of_not_le fun absent => ?_
  -- A number beyond the graph stands for a blank block, which is never settled.
  have settled := chain.settled id listed
  rw [block_of_size_le absent] at settled
  cases settled

/-- A chain has no more blocks than the graph. -/
theorem length_le (chain : g.PrivateChain flow bounds first blocks) : blocks.length ≤ g.size := by
  -- Its blocks are distinct numbers below that.
  have inside : blocks ⊆ List.range g.size :=
    fun id listed => List.mem_range.mpr (chain.lt_size listed)
  simpa using (List.subperm_of_subset chain.distinct inside).length_le

/-- Control goes on from the blocks before a member of a chain with that member. -/
theorem onward_eq {more : List BlockId}
    (chain : g.PrivateChain flow bounds first (blocks ++ id :: more)) :
    g.onward first blocks = some (.block id) := by
  -- Control goes on from the last of the blocks before.
  rw [onward]
  split
  · next none =>
    -- There is no block before the head.
    obtain rfl := List.getLast?_eq_none_iff.mp none
    rw [(chain.head id rfl).1]
  · next last isLast =>
    have continues : g.Continues last id :=
      (List.isChain_append.mp chain.links).2.2 last isLast id rfl
    rw [if_neg (Bool.eq_false_iff.mp continues.straight), continues.follows]

/-- The last block of a chain starts behind all others. -/
theorem start_le_last {last : BlockId} (chain : g.PrivateChain flow bounds first blocks)
    (isLast : blocks.getLast? = some last) (listed : id ∈ blocks) :
    id = last ∨ (g.block id).start < (g.block last).start := by
  -- All other blocks stand before the last one.
  obtain ⟨others, rfl⟩ := List.getLast?_eq_some_iff.mp isLast
  rcases List.mem_append.mp listed with earlier | same
  · exact .inr ((List.pairwise_append.mp chain.increasing).2.2 id earlier last
      (List.mem_singleton_self _))
  · exact .inl (List.mem_singleton.mp same)

/-- One block is a chain of its own. -/
theorem singleton_iff : g.PrivateChain flow bounds (.block id) [id] ↔
    (g.block id).isSettled = true ∧
      ((∃ pred, g.PassesTo pred id) ∧ ∀ pred, g.PassesTo pred id → pred ∈ bounds.entry) ∧
      bounds.Allow (g.block id).start ∧ id ∉ flow.headers := by
  -- With one block there are no links and no order to keep.
  constructor
  · intro single
    have listed := List.mem_singleton_self id
    exact ⟨single.settled id listed, (single.head id rfl).2, single.within id listed,
      single.inner id listed⟩
  · rintro ⟨settled, entered, within, inner⟩
    constructor
    case distinct => exact List.pairwise_singleton _ _
    case settled => exact List.forall_mem_singleton.mpr settled
    case inner => exact List.forall_mem_singleton.mpr inner
    case within => exact List.forall_mem_singleton.mpr within
    case increasing => exact List.pairwise_singleton _ _
    case head =>
      intro head isHead
      cases isHead
      exact ⟨rfl, entered⟩
    case links => exact .singleton id

/-- A chain is continued by a new block that its last one continues with. -/
theorem concat {last : BlockId} (chain : g.PrivateChain flow bounds first blocks)
    (isLast : blocks.getLast? = some last) (new : id ∉ blocks) (continues : g.Continues last id)
    (settled : (g.block id).isSettled = true) (within : bounds.Allow (g.block id).start)
    (behind : (g.block last).start < (g.block id).start) (inner : id ∉ flow.headers) :
    g.PrivateChain flow bounds first (blocks ++ [id]) := by
  constructor
  case distinct =>
    -- The new block is none of the old ones.
    refine List.nodup_append.mpr ⟨chain.distinct, List.pairwise_singleton _ _, ?_⟩
    rintro old listed other isNew rfl
    exact new (List.mem_singleton.mp isNew ▸ listed)
  case settled =>
    exact List.forall_mem_append.mpr ⟨chain.settled, List.forall_mem_singleton.mpr settled⟩
  case inner => exact List.forall_mem_append.mpr ⟨chain.inner, List.forall_mem_singleton.mpr inner⟩
  case within =>
    exact List.forall_mem_append.mpr ⟨chain.within, List.forall_mem_singleton.mpr within⟩
  case increasing =>
    refine List.pairwise_append.mpr ⟨chain.increasing, List.pairwise_singleton _ _,
      fun earlier listed later same => ?_⟩
    obtain rfl := List.mem_singleton.mp same
    -- Whatever is not last starts before the last block, and so before the new one.
    rcases chain.start_le_last isLast listed with rfl | less
    · exact behind
    · exact UInt32.lt_trans less behind
  case head =>
    intro head isHead
    -- The head stays what it was, as there was a block before.
    refine chain.head head ?_
    cases blocks with
    | nil => cases isLast
    | cons => exact isHead
  case links =>
    refine List.isChain_append.mpr
      ⟨chain.links, .singleton id, fun before isBefore after isAfter => ?_⟩
    obtain rfl : last = before := Option.some.inj (isLast.symm.trans isBefore)
    obtain rfl : id = after := Option.some.inj isAfter
    exact continues

/-- The block that control goes on with continues the chain exactly if the walk can take
it and has not yet done so. -/
theorem append_iff (chain : g.PrivateChain flow bounds first blocks)
    (ahead : g.onward first blocks = some (.block id)) :
    g.PrivateChain flow bounds first (blocks ++ [id]) ↔
      id ∉ blocks ∧ g.admits flow bounds blocks.getLast? id = true := by
  rw [admits_iff]
  -- The first block of a chain is entered from outside, and a later one from the block before it.
  cases isLast : blocks.getLast? with
  | none =>
    obtain rfl := List.getLast?_eq_none_iff.mp isLast
    obtain rfl : first = .block id := Option.some.inj ahead
    rw [isEnteredBy_none_iff, isWithin_none_iff, List.nil_append, singleton_iff]
    exact ⟨fun taken => ⟨List.not_mem_nil, taken⟩, fun taken => taken.2⟩
  | some last =>
    have isMember : last ∈ blocks := List.mem_of_getLast? isLast
    rw [isEnteredBy_some_iff, isWithin_some_iff (chain.within last isMember)]
    constructor
    · -- A longer chain says all of that about its last block.
      intro longer
      have isNew := List.mem_singleton_self id
      have listed : id ∈ blocks ++ [id] := List.mem_append_right _ isNew
      have continues : g.Continues last id :=
        (List.isChain_append.mp longer.links).2.2 last isLast id rfl
      have behind : (g.block last).start < (g.block id).start :=
        (List.pairwise_append.mp longer.increasing).2.2 last isMember id isNew
      have new : id ∉ blocks :=
        fun old => (List.nodup_append.mp longer.distinct).2.2 id old id isNew rfl
      exact ⟨new, longer.settled id listed, continues.entered, ⟨longer.within id listed, behind⟩,
        longer.inner id listed⟩
    · rintro ⟨new, settled, entered, ⟨within, behind⟩, inner⟩
      -- Control goes on from the last block, so that is no literal jump.
      have continues : g.Continues last id := by
        simp only [onward, isLast] at ahead
        split at ahead
        · cases ahead
        · next straight => exact ⟨Bool.eq_false_iff.mpr straight, ahead, entered⟩
      exact chain.concat isLast new continues settled within behind inner

end PrivateChain

/-! ### The whole walk -/

/-- A chain with the end that its last block has is an arm if it cannot be longer. -/
theorem PrivateChain.isArm {finish : ArmEnd} (chain : g.PrivateChain flow bounds first blocks)
    (ahead : g.onward first blocks = finish.onward?)
    (full : ∀ id, finish = .join id → ¬ g.PrivateChain flow bounds first (blocks ++ [id])) :
    g.IsArm flow bounds first ⟨blocks, finish⟩ := by
  -- Where control goes on decides the end, since no two ends lead to one place.
  have ends : ∀ other : ArmEnd, finish = other ↔ g.onward first blocks = other.onward? :=
    fun other => ahead ▸ ArmEnd.onward?_injective.eq_iff.symm
  exact ⟨chain, ends .terminal, fun way => ends (.jump way), fun id => ends (.join id), full⟩

/-- A walk goes on from a chain to the end of an arm. -/
theorem isArm_walkFrom {seen : IdSet} {cursor : Target} {previous : Option BlockId}
    (chain : g.PrivateChain flow bounds first blocks) (isLast : blocks.getLast? = previous)
    (same : ∀ id, id ∈ seen ↔ id ∈ blocks) (ahead : g.onward first blocks = some cursor) :
    g.IsArm flow bounds first ⟨blocks ++ (g.walkFrom flow bounds previous seen cursor).blocks,
      (g.walkFrom flow bounds previous seen cursor).finish⟩ := by
  -- The blocks taken so far form a chain, and the cursor is where its last block leads.
  induction previous, seen, cursor using walkFrom.induct g flow bounds generalizing blocks with
  | case1 previous seen way =>
    -- An exit ends the chain where it stands.
    rw [walkFrom, List.append_nil]
    exact chain.isArm ahead fun id joins => by cases joins
  | case2 previous seen id new shrinks admitted b =>
    rename_i ends
    -- The block is taken, and control does not go on from it.
    rw [dite_eq_ite] at ends
    rw [walkFrom, dif_pos new, if_pos admitted]
    simp only [show (if (g.block id).type.isGoto then none else (g.block id).next) = none from ends]
    have longer : g.PrivateChain flow bounds first (blocks ++ [id]) :=
      (chain.append_iff ahead).mpr ⟨fun old => new.1 ((same id).mpr old), isLast ▸ admitted⟩
    exact longer.isArm (onward_append.trans ends) fun id joins => by cases joins
  | case3 previous seen id new shrinks admitted b next follows =>
    rename_i ih
    -- The block is taken, and the walk goes on behind it.
    rw [dite_eq_ite] at follows
    rw [walkFrom, dif_pos new, if_pos admitted]
    simp only [show (if (g.block id).type.isGoto then none else (g.block id).next) =
      some next from follows]
    have longer : g.PrivateChain flow bounds first (blocks ++ [id]) :=
      (chain.append_iff ahead).mpr ⟨fun old => new.1 ((same id).mpr old), isLast ▸ admitted⟩
    have whole := ih longer (by simp) (fun other => by simp [same]) (onward_append.trans follows)
    simpa using whole
  | case4 previous seen id new shrinks refused =>
    -- The block is refused, so a chain with it would not be private.
    rw [walkFrom, dif_pos new, if_neg refused, List.append_nil]
    refine chain.isArm ahead fun other joins longer => refused ?_
    cases joins
    exact isLast ▸ ((chain.append_iff ahead).mp longer).2
  | case5 previous seen id old =>
    -- The block has been taken already, or it is none of the graph.
    rw [walkFrom, dif_neg old, List.append_nil]
    refine chain.isArm ahead fun other joins longer => old ?_
    cases joins
    -- A longer chain has the block once and has it from the graph.
    exact ⟨fun isOld => ((chain.append_iff ahead).mp longer).1 ((same id).mp isOld),
      longer.lt_size (by simp)⟩

/-- A walk returns an arm. -/
theorem isArm_walk (g : Graph) (flow : Flow) (bounds : ArmBounds) (first : Target) :
    g.IsArm flow bounds first (g.walk flow bounds first) :=
  isArm_walkFrom .nil rfl (fun id => by simp) rfl

namespace IsArm

variable {arm other : Arm}

/-- How an arm ends tells where control goes on from it. -/
theorem onward_eq (isArm : g.IsArm flow bounds first arm) :
    g.onward first arm.blocks = arm.finish.onward? := by
  -- One case per kind of end.
  cases ends : arm.finish with
  | join id => exact (isArm.join_iff id).mp ends
  | jump way => exact (isArm.jump_iff way).mp ends
  | terminal => exact isArm.terminal_iff.mp ends

/-- Every private chain from a target is the beginning of every arm from there. -/
theorem chain_prefix (isArm : g.IsArm flow bounds first arm)
    (chain : g.PrivateChain flow bounds first blocks) : blocks <+: arm.blocks := by
  -- By induction from the end: the arm holds the blocks before the last one,
  -- and control leaves these one way only.
  induction blocks using List.reverseRecOn with
  | nil => exact List.nil_prefix
  | append_singleton blocks id ih =>
    obtain ⟨rest, whole⟩ := ih chain.of_append
    have ahead : g.onward first blocks = some (.block id) := chain.onward_eq
    cases rest with
    | nil =>
      -- The arm would end before a block that continues it.
      rw [List.append_nil] at whole
      subst whole
      exact absurd chain (isArm.full id ((isArm.join_iff id).mpr ahead))
    | cons next rest =>
      have aheadToo : g.onward first blocks = some (.block next) := (whole ▸ isArm.chain).onward_eq
      obtain rfl : id = next := Target.block.inj (Option.some.inj (ahead.symm.trans aheadToo))
      exact ⟨rest, by rw [← whole, List.append_assoc, List.singleton_append]⟩

/-- There is one arm from a target. -/
theorem unique (isArm : g.IsArm flow bounds first arm) (isOther : g.IsArm flow bounds first other) :
    arm = other := by
  -- Each begins with the other.
  have sameBlocks : arm.blocks = other.blocks :=
    (isOther.chain_prefix isArm.chain).eq_of_length_le (isArm.chain_prefix isOther.chain).length_le
  have sameFinish : arm.finish = other.finish :=
    ArmEnd.onward?_injective (isArm.onward_eq.symm.trans (sameBlocks ▸ isOther.onward_eq))
  cases arm
  cases other
  cases sameBlocks
  cases sameFinish
  rfl

end IsArm

/-- A walk ends after no more blocks than the graph has, with the one arm that there is from its
target: a private chain of settled blocks that stops only where its last block does not continue it,
and says how that block goes on. -/
theorem isArm_iff_eq_walk (g : Graph) (flow : Flow) (bounds : ArmBounds) (first : Target) :
    (g.walk flow bounds first).blocks.length ≤ g.size ∧
      ∀ arm, g.IsArm flow bounds first arm ↔ arm = g.walk flow bounds first := by
  -- The walk is an arm, and there is only one.
  have walked := isArm_walk g flow bounds first
  exact ⟨walked.chain.length_le, fun arm =>
    ⟨fun isArm => isArm.unique walked, fun same => same ▸ walked⟩⟩

end Graph

end Unjump
