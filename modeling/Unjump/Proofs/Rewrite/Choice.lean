import Unjump.Construct.Jump
import Unjump.Proofs.Rewrite

/-! Choices over an open test. -/

namespace Unjump.Graph

variable {g h : Graph} {flow : Flow} {test : BlockId} {choice : Choice}

/-- The graph in which a choice has taken the place of its test. -/
structure Chosen (g : Graph) (test : BlockId) (choice : Choice) (h : Graph) : Prop where
  size : h.size = g.size + 1
  composite : h.bare g.size =
    { Block.covering choice.construct ((test :: choice.arms.flatMap (·.blocks)).map g.block) with
      condition := some (.block test), sub1 := some choice.body, sub2 := choice.otherwise,
      next := choice.next }
  closed : h.bare test =
    ((g.bare test).replaceTarget (.block test) (.block g.size)).closed choice.invert
  others : ∀ i < g.size, i ≠ test →
    h.bare i = (g.bare i).replaceTarget (.block test) (.block g.size) ∨
    (∃ arm ∈ choice.arms, joining? arm = some i) ∧
      h.bare i =
        { (g.bare i).replaceTarget (.block test) (.block g.size) with next := some .bodyEnd }

/-- A choice whose chains end before its test takes the place of the test. -/
theorem chosen_choose (mirrored : g.Mirrored) (known : test < g.size)
    (lasts : ∀ arm ∈ choice.arms, ∀ last, joining? arm = some last → last < g.size ∧ last ≠ test) :
    Chosen g test choice (g.choose test choice) := by
  -- The graph changes in four steps: the choice takes over what leads to the test, the test is
  -- closed, the chains are ended, and the choice gets its children.
  let absorbed := g.absorb test choice.construct (test :: choice.arms.flatMap (·.blocks))
  let closed := absorbed.closeTest test choice.invert
  let ends := choice.arms.foldl (·.closeArm · .bodyEnd) closed
  let fields : Block → Block := fun b =>
    { b with
      condition := some (.block test), sub1 := some choice.body, sub2 := choice.otherwise,
      next := choice.next }
  have made : g.choose test choice = ends.update g.size fields := rfl
  have sizeAbsorbed : absorbed.size = g.size + 1 := size_absorb
  have sizeClosed : closed.size = g.size + 1 := size_closeTest.trans size_absorb
  have knownAbsorbed : test < absorbed.size := sizeAbsorbed ▸ Nat.lt_succ_of_lt known
  have blocksAbsorbed : ∀ i, absorbed.bare i = _ := bare_absorb mirrored
  have blocksClosed : ∀ i, closed.bare i =
      if i = test then (absorbed.bare test).closed choice.invert else absorbed.bare i :=
    bare_closeTest knownAbsorbed
  have ended : Ended _ _ closed ends := ended_foldl_closeArm fun arm listed last joins =>
    sizeClosed ▸ Nat.lt_succ_of_lt (lasts arm listed last joins).1
  -- No chain ends at the test or at the new block.
  have untouched : ∀ i, i = test ∨ i = g.size → ends.bare i = closed.bare i := by
    intro i special
    refine (ended.blocks i).resolve_right ?_
    rintro ⟨⟨arm, listed, joins⟩, -⟩
    obtain ⟨old, other⟩ := lasts arm listed i joins
    rcases special with isTest | isNew
    · exact other isTest
    · exact Nat.ne_of_lt old isNew
  have size : ends.size = g.size + 1 := ended.size.trans sizeClosed
  have new : g.size < ends.size := size ▸ Nat.lt_succ_self _
  have blank : closed.bare g.size =
      Block.covering choice.construct ((test :: choice.arms.flatMap (·.blocks)).map g.block) := by
    rw [blocksClosed, if_neg (Nat.ne_of_gt known), blocksAbsorbed, if_pos rfl]
  have blocks : ∀ i, (g.choose test choice).bare i =
      if i = g.size then fields (ends.bare g.size) else ends.bare i :=
    bare_update fields new fun _ => rfl
  refine ⟨?_, ?_, ?_, ?_⟩
  -- The fields of the choice are written last, so its block shows the children over a blank
  -- composite.
  · rw [made, size_update, size]
  · rw [blocks, if_pos rfl, untouched _ (.inr rfl), blank]
  · rw [blocks, if_neg (Nat.ne_of_lt known), untouched _ (.inl rfl), blocksClosed, if_pos rfl,
      blocksAbsorbed, if_neg (Nat.ne_of_lt known)]
  · intro i old other
    have before : closed.bare i = (g.bare i).replaceTarget (.block test) (.block g.size) := by
      rw [blocksClosed, if_neg other, blocksAbsorbed, if_neg (Nat.ne_of_lt old)]
    rw [blocks, if_neg (Nat.ne_of_lt old), ← before]
    refine (ended.blocks i).imp_right fun ⟨joins, way, isEnd, same⟩ => ⟨joins, ?_⟩
    rw [same, isEnd]
    rfl

/-- A choice that leads to blocks behind the entry keeps the links. -/
theorem Linked.choose (linked : g.Linked) (known : test < g.size) (notStart : test ≠ start)
    (lasts : ∀ arm ∈ choice.arms, ∀ last, joining? arm = some last → last < g.size)
    (behind : ∀ target, choice.body = .block target ∨ choice.otherwise = some (.block target) ∨
      choice.next = some (.block target) → start < target ∧ target < g.size) :
    (g.choose test choice).Linked := by
  -- The steps up to the last keep the links by themselves.
  let closed :=
    (g.absorb test choice.construct (test :: choice.arms.flatMap (·.blocks))).closeTest test
      choice.invert
  let ends := choice.arms.foldl (·.closeArm · .bodyEnd) closed
  let fields : Block → Block := fun b =>
    { b with
      condition := some (.block test), sub1 := some choice.body, sub2 := choice.otherwise,
      next := choice.next }
  have sizeClosed : closed.size = g.size + 1 := size_closeTest.trans size_absorb
  have ended : Ended _ _ closed ends := ended_foldl_closeArm fun arm listed last joins =>
    sizeClosed ▸ Nat.lt_succ_of_lt (lasts arm listed last joins)
  have linkedEnds : ends.Linked := ended.linked linked.absorb.closeTest
  have inside : ∀ {target}, start < target ∧ target < g.size →
      start < target ∧ target < ends.size := fun bounds =>
    ⟨bounds.1, ended.size.trans sizeClosed ▸ Nat.lt_succ_of_lt bounds.2⟩
  have made : g.choose test choice = ends.update g.size fields := rfl
  rw [made]
  refine linkedEnds.update fields (fun _ => rfl) (fun _ => rfl) ?_ fun same =>
    absurd same.symm (Nat.ne_of_lt linked.nonempty)
  -- Of the edges of the choice only the children and the next block are new.
  intro kind target edge
  cases kind with
  | next => exact inside (behind target (.inr (.inr edge)))
  | condition =>
    cases edge
    exact inside ⟨Nat.pos_of_ne_zero notStart, known⟩
  | sub1 => exact inside (behind target (.inl (Option.some.inj edge)))
  | sub2 => exact inside (behind target (.inr (.inl edge)))
  | branch => exact linkedEnds.behind ⟨.branch, edge⟩
  | case i => exact linkedEnds.behind ⟨.case i, edge⟩
  | handler i => exact linkedEnds.behind ⟨.handler i, edge⟩

/-- A choice has the children that it cannot do without. -/
theorem shaped_choice {construct : Construct} {blocks : List Block} {body : Target}
    {otherwise next : Option Target}
    (isChoice : construct = .ifThen ∨ (construct = .ifElse ∨ construct = .ternary) ∧
      otherwise.isSome) :
    { Block.covering construct blocks with
      condition := some (.block test), sub1 := some body, sub2 := otherwise, next :
        Block }.Shaped := by
  -- A choice is neither a literal jump nor a test, so it is asked for its children alone.
  refine .ofChildren rfl ?_ (fun isOpen => ?_) (fun has => by cases has) fun kind required => ?_
  · rcases isChoice with same | ⟨same | same, -⟩ <;> rw [same] <;> rfl
  · simp [Block.isOpenCondition, Block.covering] at isOpen
  · -- The second arm is asked for by the two constructs that have one.
    rcases isChoice with same | ⟨same | same, present⟩ <;>
      simp only [same, Construct.requiredEdges, List.mem_cons, List.not_mem_nil, or_false]
        at required
    · rcases required with rfl | rfl <;> rfl
    · rcases required with rfl | rfl | rfl <;> first | rfl | exact present
    · rcases required with rfl | rfl | rfl <;> first | rfl | exact present

/-- A graph with literal jumps to successors of a test added behind its blocks,
and a choice whose chains lie in front. -/
structure Jumped (base : Graph) (test : BlockId) (choice : Choice) (g : Graph) : Prop where
  grows : base.size ≤ g.size
  old : ∀ i < base.size, g.bare i = base.bare i
  gotos : ∀ i, base.size ≤ i → i < g.size → ∃ construct offset v,
    g.bare i = gotoBlock construct offset (.block v) ∧ (BlockType.structured construct).isGoto ∧
    base.Leads test v
  lasts : ∀ arm ∈ choice.arms, ∀ last, joining? arm = some last →
    last < base.size ∧ (base.bare last).next.isSome

namespace Chosen

variable {base : Graph} (chosen : Chosen g test choice h) (jumped : Jumped base test choice g)
    {u : BlockId}

include chosen

/-- Behind the literal jumps there is the choice alone. -/
theorem eq_size (inside : u < h.size) (isNew : g.size ≤ u) : u = g.size := by
  -- One block is added.
  rw [chosen.size] at inside
  exact Nat.le_antisymm (Nat.le_of_lt_succ inside) isNew

include jumped

/-- The literal jumps are among the blocks that do not change but for the renaming. -/
theorem goto (inside : test < base.size) (isNew : base.size ≤ u) (known : u < g.size) :
    ∃ construct offset v, (BlockType.structured construct).isGoto ∧ base.Leads test v ∧
      h.bare u = gotoBlock construct offset ((Target.block test).renamed (.block g.size)
        (.block v)) := by
  -- A jump is no chain of the choice, since those end with old blocks.
  obtain ⟨construct, offset, v, isGoto, goto, leads⟩ := jumped.gotos u isNew known
  refine ⟨construct, offset, v, goto, leads, ?_⟩
  have other : u ≠ test := Nat.ne_of_gt (Nat.lt_of_lt_of_le inside isNew)
  rcases chosen.others u known other with kept | ⟨⟨arm, listed, joins⟩, -⟩
  · rw [kept, isGoto]
    rfl
  · exact absurd (jumped.lasts arm listed u joins).1 (Nat.not_lt.mpr isNew)

/-- A choice moves no code. -/
theorem code_eq (known : u < base.size) : (h.bare u).code = (base.bare u).code := by
  -- Closing the test, renaming it and ending a chain leave the code where it is.
  by_cases same : u = test
  · rw [same, chosen.closed, jumped.old test (same ▸ known)]
    rfl
  · rcases chosen.others u (Nat.lt_of_lt_of_le known jumped.grows) same with kept | ⟨-, ended⟩
    · rw [kept, jumped.old u known]
      rfl
    · rw [ended, jumped.old u known]
      rfl

/-- The new blocks have no code. -/
theorem code_new (inside : test < base.size) (isNew : base.size ≤ u) (bounded : u < h.size) :
    (h.bare u).code = [] := by
  -- The new blocks are the literal jumps and the choice itself.
  by_cases known : u < g.size
  · obtain ⟨construct, offset, v, -, -, same⟩ := chosen.goto jumped inside isNew known
    rw [same]
    rfl
  · rw [chosen.eq_size bounded (Nat.le_of_not_lt known), chosen.composite]
    rfl

/-- The blocks from before lead where they did, and the choice stands for its test. -/
theorem inherits (sound : base.Sound) (isTest : (base.bare test).type.isCondition)
    (known : u < base.size) (reached : base.Reached u) : Inherits base test u (h.bare u) := by
  have renamed : Inherits base test u ((g.bare u).replaceTarget (.block test) (.block g.size)) := by
    rw [jumped.old u known]
    exact inherits_replaceTarget sound.toLinked jumped.grows (sound.shaped reached)
  -- A block is the test, which is closed, or another one, which is at most ended.
  by_cases same : u = test
  · subst same
    rw [chosen.closed]
    refine renamed.closed ?_ _
    exact (congrArg (·.type.isCondition) (jumped.old u known)).trans isTest
  · rcases chosen.others u (Nat.lt_of_lt_of_le known jumped.grows) same
      with kept | ⟨⟨arm, listed, joins⟩, ended⟩
    · exact kept ▸ renamed
    · -- A chain that ran on now ends with its body.
      rw [ended]
      refine renamed.ended ?_ _
      have goesOn : (g.bare u).next.isSome :=
        (jumped.old u known).symm ▸ (jumped.lasts arm listed u joins).2
      simpa [Block.replaceTarget] using goesOn

/-- A walk that may follow a literal jump may follow the edge that the jump stands for. -/
theorem walk_goto (linked : base.Linked) {allow : EdgeFilter} (lenient : allow.Lenient)
    (inside : test < base.size) (isNew : base.size ≤ u) (known : u < g.size) {kind : EdgeKind}
    {target : BlockId} (allowed : allow (h.bare u).type kind)
    (edge : (h.bare u).edge? kind = some (.block target)) :
    base.Walk allow test (base.standsFor test target) := by
  -- The jump leads where an edge of the test led.
  obtain ⟨construct, offset, v, goto, ⟨way, leads⟩, same⟩ := chosen.goto jumped inside isNew known
  rw [same] at edge allowed
  rw [edge?_gotoBlock] at edge
  split at edge
  · next isBranch =>
    subst isBranch
    have step : base.Step allow test v := ⟨way, lenient.jump _ goto allowed _ _, leads⟩
    by_cases isTest : v = test
    · -- The test led to itself, and the jump leads to the choice in its place.
      subst isTest
      rw [Target.renamed_self] at edge
      cases edge
      rw [standsFor_new v jumped.grows]
    · rw [Target.renamed_ne (by simpa using isTest)] at edge
      cases edge
      rw [standsFor_old test (linked.bounded step.leads)]
      exact .single step
  · cases edge

/-- A choice that has taken the place of its test, after literal jumps to successors
of the test were added. -/
theorem rewrite (linked : h.Linked) (sound : base.Sound) (reached : base.Reached test)
    (isTest : (base.bare test).type.isCondition)
    (targets : ∀ {allow : EdgeFilter}, allow.Lenient → ∀ target, choice.body = .block target ∨
      choice.otherwise = some (.block target) ∨ choice.next = some (.block target) →
      base.Walk allow test (base.standsFor test target))
    (construct : choice.construct = .ifThen ∨
      (choice.construct = .ifElse ∨ choice.construct = .ternary) ∧ choice.otherwise.isSome) :
    Rewrite base h (base.standsFor test) := by
  have inside := reached.lt_size sound.toLinked
  have inherits := chosen.inherits jumped sound isTest inside reached
  refine .form linked (by rw [chosen.size]; exact Nat.le_succ_of_le jumped.grows)
    (fun u known _ => chosen.inherits jumped sound isTest known) ?_ ?_
    (fun u known => chosen.code_eq jumped known)
    fun u isNew bounded => chosen.code_new jumped inside isNew bounded
  -- An edge of the graph is one of the test, of a literal jump, or of the choice.
  · rintro allow lenient u (rfl | isNew) kind target allowed edge
    · obtain ⟨type, before, edge, stands⟩ := inherits.edges kind target edge
      exact stands.symm ▸ .single ⟨kind, type ▸ allowed, edge⟩
    · by_cases known : u < g.size
      · exact chosen.walk_goto jumped sound.toLinked lenient inside isNew known allowed edge
      · rw [chosen.eq_size (lt_size_of_edge edge) (Nat.le_of_not_lt known), chosen.composite]
          at edge
        cases kind with
        | next => exact targets lenient target (.inr (.inr edge))
        | condition =>
          cases edge
          rw [standsFor_old test inside]
        | sub1 => exact targets lenient target (.inl (Option.some.inj edge))
        | sub2 => exact targets lenient target (.inr (.inl edge))
        | branch | case i | handler i => cases edge
  · rintro u bounded (rfl | isNew) -
    · exact inherits.shaped
    · by_cases known : u < g.size
      · obtain ⟨_, offset, v, goto, -, same⟩ := chosen.goto jumped inside isNew known
        exact same ▸ shaped_gotoBlock goto _ _
      · rw [chosen.eq_size bounded (Nat.le_of_not_lt known), chosen.composite]
        exact shaped_choice construct

end Chosen

/-- The chains over the successors of a test. -/
structure TestArms (g : Graph) (flow : Flow) (id next branch : BlockId) (fall jump : Arm) :
    Prop where
  fall : ∃ bounds : ArmBounds, bounds.entry = IdSet.insert ∅ id ∧
    Walked g flow bounds none [] (.block next) fall
  jump : ∃ bounds : ArmBounds, bounds.entry = IdSet.insert ∅ id ∧
    Walked g flow bounds none [] (.block branch) jump

/-- The choices over a test: one without a body, one around an exit,
one around either chain, and one around both. -/
inductive Chooses (g : Graph) (flow : Flow) (id : BlockId) : (next branch : Target) → Choice → Prop
  | effect {next} :
      Chooses g flow id next next { invert := false, body := .bodyEnd, next := some next }
  | leave {next way} (differ : next ≠ .exit way) :
      Chooses g flow id next (.exit way) { invert := false, body := .exit way, next := some next }
  | leaveElse {way branch} :
      Chooses g flow id (.exit way) (.block branch)
        { invert := true, body := .exit way, next := some (.block branch) }
  | ifNot {next branch fall jump} (differ : next ≠ branch)
      (arms : TestArms g flow id next branch fall jump) (taken : fall.blocks ≠ [])
      (ends : fall.finish = .join branch ∨ fall.finish.isExit = true) :
      Chooses g flow id (.block next) (.block branch)
        { invert := true, body := .block next, next := some (.block branch), arms := [fall] }
  | ifSo {next branch fall jump} (differ : next ≠ branch)
      (arms : TestArms g flow id next branch fall jump) (taken : jump.blocks ≠ [])
      (ends : jump.finish = .join next) :
      Chooses g flow id (.block next) (.block branch)
        { invert := false, body := .block branch, next := some (.block next), arms := [jump] }
  | both {next branch fall jump meeting construct} (differ : next ≠ branch)
      (arms : TestArms g flow id next branch fall jump) (takenFall : fall.blocks ≠ [])
      (takenJump : jump.blocks ≠ []) (meet : meeting? fall.finish jump.finish = some meeting)
      (other : meeting ≠ some id) (isConstruct : construct = .ifElse ∨ construct = .ternary) :
      Chooses g flow id (.block next) (.block branch)
        { construct, invert := true, body := .block next, otherwise := some (.block branch),
          next := meeting.map .block, arms := [fall, jump] }

/-- A two-armed construct is a choice between statements or between values. -/
theorem twoArmed?_construct {fall jump : Arm} {meeting : Option BlockId} {construct : Construct}
    (found : g.twoArmed? fall jump meeting = some construct) :
    construct = .ifElse ∨ construct = .ternary := by
  -- Either construct is given in one place.
  simp only [twoArmed?] at found
  split at found
  · cases found
    exact .inl rfl
  · split at found
    · cases found
      exact .inr rfl
    · cases found
  · cases found

/-- A choice over two blocks has one of the forms. -/
theorem chooses_choiceOver? {id next branch : BlockId} (differ : next ≠ branch)
    (found : g.choiceOver? flow id next branch = some choice) :
    Chooses g flow id (.block next) (.block branch) choice := by
  -- Only that the two chains are walked from the successors matters, not how far they may go.
  suffices ∀ fall jump, TestArms g flow id next branch fall jump →
      (if !fall.isEmpty && !fall.leavesValue g &&
        (fall.finish == .join branch || fall.finish.isExit) then
        some { invert := true, body := .block next, next := some (.block branch), arms := [fall] }
      else if !jump.isEmpty && !jump.leavesValue g && jump.finish == .join next then
        some { invert := false, body := .block branch, next := some (.block next), arms := [jump] }
      else if fall.isEmpty || jump.isEmpty then none
      else do
        let meeting ← meeting? fall.finish jump.finish
        if meeting = some id then none
        let construct ← g.twoArmed? fall jump meeting
        return { construct, invert := true, body := .block next, otherwise := some (.block branch),
                 next := meeting.map .block, arms := [fall, jump] }) = some choice →
      Chooses g flow id (.block next) (.block branch) choice from
    this _ _ ⟨⟨_, rfl, walked_walk _ _ _ _⟩, ⟨_, rfl, walked_walk _ _ _ _⟩⟩ found
  intro fall jump arms found
  have nonempty : ∀ arm : Arm, arm.isEmpty = false → arm.blocks ≠ [] := by
    intro arm taken empty
    simp [Arm.isEmpty, empty] at taken
  -- The cases follow the order in which the code tries the forms.
  split at found
  · next fits =>
    simp only [Bool.and_eq_true, Bool.not_eq_true', Bool.or_eq_true, beq_iff_eq] at fits
    cases found
    exact .ifNot differ arms (nonempty fall fits.1.1) fits.2
  · split at found
    · next fits =>
      simp only [Bool.and_eq_true, Bool.not_eq_true', beq_iff_eq] at fits
      cases found
      exact .ifSo differ arms (nonempty jump fits.1.1) fits.2
    · split at found
      · cases found
      · next taken =>
        simp only [Bool.or_eq_true, not_or, Bool.not_eq_true] at taken
        simp only [Option.bind_eq_bind, Option.bind_eq_some_iff] at found
        obtain ⟨meeting, meet, found⟩ := found
        split at found
        · cases found
        · next other =>
          obtain ⟨construct, isConstruct, made⟩ := Option.bind_eq_some_iff.mp found
          cases made
          exact .both differ arms (nonempty fall taken.1) (nonempty jump taken.2) meet other
            (twoArmed?_construct isConstruct)

/-- A choice over any two successors has one of the forms. -/
theorem chooses_choice? {id : BlockId} {next branch : Target}
    (found : g.choice? flow id next branch = some choice) :
    Chooses g flow id next branch choice := by
  -- The successors coincide, one of them is an exit, or both are blocks.
  simp only [choice?] at found
  split at found
  · next same =>
    cases found
    exact same ▸ .effect
  · next differ =>
    split at found
    · cases found
      exact .leave differ
    · next notExit =>
      cases found
      cases branch with
      | exit way => exact absurd rfl (notExit _)
      | block id => exact .leaveElse
    · next n b =>
      have differ : n ≠ b := fun same => differ (congrArg Target.block same)
      exact chooses_choiceOver? differ found

/-- What an open test becomes that is nested in a choice. -/
theorem nestIf_cases {id : BlockId} (applied : g.nestIf flow id = some h) :
    ∃ next branch choice, (g.bare id).isOpenCondition = true ∧ (g.bare id).next = some next ∧
      (g.bare id).branch = some branch ∧ id ∉ flow.headers ∧ Chooses g flow id next branch choice ∧
      g.choose id choice = h := by
  -- The test has both of its successors.
  simp only [nestIf] at applied
  split at applied
  · next next branch isNext isBranch =>
    split at applied
    -- A header waits until its loop is made.
    · next fits =>
      simp only [Bool.and_eq_true, Bool.not_eq_true', ← Bool.not_eq_true, IdSet.contains_iff]
        at fits
      obtain ⟨choice, found, made⟩ := Option.map_eq_some_iff.mp applied
      exact ⟨next, branch, choice, fits.1, isNext, isBranch, fits.2, chooses_choice? found, made⟩
    · cases applied
  · cases applied

/-- A settled block is no open test. -/
theorem not_isOpenCondition_of_isSettled {b : Block} (settled : b.isSettled = true) :
    b.isOpenCondition = false := by
  -- A structured block is settled unless it is an open test.
  rw [Block.isSettled] at settled
  split at settled
  · simpa using settled
  · cases settled

namespace Chooses

variable {id : BlockId} {next branch : Target}

/-- The chains of a choice are walked from the successors of its test. -/
theorem walked (chooses : Chooses g flow id next branch choice) :
    ∀ arm ∈ choice.arms, ∃ (bounds : ArmBounds) (head : BlockId),
    bounds.entry = IdSet.insert ∅ id ∧ (.block head = next ∨ .block head = branch) ∧
      arm.blocks ≠ [] ∧ Walked g flow bounds none [] (.block head) arm := by
  intro arm listed
  -- The cases are the forms of a choice, and an arm is walked over one of the successors.
  cases chooses with
  | effect | leave | leaveElse => exact absurd listed List.not_mem_nil
  | @ifNot next branch fall jump _ arms taken _ =>
    obtain ⟨bounds, entry, walked⟩ := arms.fall
    cases List.mem_singleton.mp listed
    exact ⟨bounds, next, entry, .inl rfl, taken, walked⟩
  | @ifSo next branch fall jump _ arms taken _ =>
    obtain ⟨bounds, entry, walked⟩ := arms.jump
    cases List.mem_singleton.mp listed
    exact ⟨bounds, branch, entry, .inr rfl, taken, walked⟩
  | @both next branch fall jump _ _ _ arms takenFall takenJump _ _ _ =>
    simp only [List.mem_cons, List.not_mem_nil, or_false] at listed
    rcases listed with rfl | rfl
    · obtain ⟨bounds, entry, walked⟩ := arms.fall
      exact ⟨bounds, next, entry, .inl rfl, takenFall, walked⟩
    · obtain ⟨bounds, entry, walked⟩ := arms.jump
      exact ⟨bounds, branch, entry, .inr rfl, takenJump, walked⟩

/-- The chains of a choice that run on end with a settled block other than the test. -/
theorem lasts (chooses : Chooses g flow id next branch choice)
    (isOpen : (g.bare id).isOpenCondition = true) :
    ∀ arm ∈ choice.arms, ∀ last, joining? arm = some last →
      last < g.size ∧ last ≠ id ∧ (g.bare last).next.isSome := by
  -- A chain runs on from settled blocks only, and the test is still open.
  intro arm listed last joins
  obtain ⟨bounds, head, -, -, -, walked⟩ := chooses.walked arm listed
  obtain ⟨known, settled, goesOn⟩ := walked.joining joins
  refine ⟨known, ?_, goesOn⟩
  rintro rfl
  rw [not_isOpenCondition_of_isSettled settled] at isOpen
  cases isOpen

/-- Two chains meet where one of them runs on. -/
theorem meeting?_join {fall jump : ArmEnd} {join : BlockId}
    (meet : meeting? fall jump = some (some join)) : fall = .join join ∨ jump = .join join := by
  -- Where both run on they meet only in one block; where one does not, the other decides.
  cases fall <;> cases jump <;> simp only [meeting?] at meet <;> first | cases meet | skip
  case join.join a b =>
    split at meet
    · cases meet
      exact .inl rfl
    · cases meet
  all_goals first | exact .inl rfl | exact .inr rfl

/-- Where two chains meet is where either of them runs on. -/
theorem meeting?_of_join {fall jump : ArmEnd} {meeting : Option BlockId}
    (meet : meeting? fall jump = some meeting) {join : BlockId}
    (joins : fall = .join join ∨ jump = .join join) : meeting = some join := by
  -- Chains that both run on must agree; where one does not, the other decides alone.
  rcases joins with rfl | rfl
  · cases jump with
    | join other =>
      simp only [meeting?] at meet
      split at meet
      · exact (Option.some.inj meet).symm
      · cases meet
    | jump way | terminal => exact (Option.some.inj meet).symm
  · cases fall with
    | join other =>
      simp only [meeting?] at meet
      split at meet
      · next same =>
        rw [← same]
        exact (Option.some.inj meet).symm
      · cases meet
    | jump way | terminal => exact (Option.some.inj meet).symm

/-- What a choice leads to could be reached from its test. -/
theorem walk (chooses : Chooses g flow id next branch choice)
    (isTest : (g.bare id).type.isCondition) (isNext : (g.bare id).next = some next)
    (isBranch : (g.bare id).branch = some branch) {allow : EdgeFilter} (lenient : allow.Lenient)
    {target : BlockId}
    (leads : choice.body = .block target ∨ choice.otherwise = some (.block target) ∨
      choice.next = some (.block target)) :
    g.Walk allow id target := by
  -- Both successors of the test are one step away, the branch since the test is one.
  have toNext : ∀ v, next = .block v → g.Walk allow id v := fun v same =>
    .single ⟨.next, lenient.next _, same ▸ isNext⟩
  have toBranch : ∀ v, branch = .block v → g.Walk allow id v := fun v same =>
    .single ⟨.branch, lenient.branch _ isTest, same ▸ isBranch⟩
  cases chooses with
  | effect =>
    rcases leads with body | otherwise | next
    · cases body
    · cases otherwise
    · exact toNext target (Option.some.inj next)
  | leave =>
    rcases leads with body | otherwise | next
    · cases body
    · cases otherwise
    · exact toNext target (Option.some.inj next)
  | leaveElse =>
    rcases leads with body | otherwise | next
    · cases body
    · cases otherwise
    · exact toBranch target (Option.some.inj next)
  | ifNot =>
    rcases leads with body | otherwise | next
    · exact toNext target body
    · cases otherwise
    · exact toBranch target (Option.some.inj next)
  | ifSo =>
    rcases leads with body | otherwise | next
    · exact toBranch target body
    · cases otherwise
    · exact toNext target (Option.some.inj next)
  | @both next branch fall jump meeting _ _ arms _ _ meet _ _ =>
    rcases leads with body | otherwise | next
    · exact toNext target body
    · exact toBranch target (Option.some.inj otherwise)
    · -- The chain that runs on into the meeting point passes from a successor to there.
      obtain ⟨join, rfl, same⟩ := Option.map_eq_some_iff.mp next
      cases same
      obtain ⟨_, -, walkedFall⟩ := arms.fall
      obtain ⟨_, -, walkedJump⟩ := arms.jump
      rcases meeting?_join meet with finish | finish
      · exact (toNext _ rfl).trans (walkedFall.walk_join lenient.next rfl finish)
      · exact (toBranch _ rfl).trans (walkedJump.walk_join lenient.next rfl finish)

/-- Where a chain of a choice runs on is a part of the choice. -/
theorem joins (chooses : Chooses g flow id next branch choice) {arm : Arm}
    (listed : arm ∈ choice.arms) {join : BlockId} (finish : arm.finish = .join join) :
    choice.next = some (.block join) := by
  -- Only a choice with arms can have one that joins; the join is then
  -- where the whole choice goes on.
  cases chooses with
  | effect | leave | leaveElse => cases listed
  | ifNot differ arms taken ends =>
    cases List.mem_singleton.mp listed
    rcases ends with same | isExit
    · cases finish.symm.trans same
      rfl
    · rw [finish] at isExit
      cases isExit
  | ifSo differ arms taken ends =>
    cases List.mem_singleton.mp listed
    cases finish.symm.trans ends
    rfl
  | both differ arms takenFall takenJump meet =>
    have either := List.mem_pair.mp listed
    rw [meeting?_of_join meet (either.imp (fun same => same ▸ finish) fun same => same ▸ finish)]
    rfl

/-- A choice is one of three constructs, with a second part where it needs one. -/
theorem construct (chooses : Chooses g flow id next branch choice) :
    choice.construct = .ifThen ∨
      (choice.construct = .ifElse ∨ choice.construct = .ternary) ∧ choice.otherwise.isSome := by
  -- Only a choice around both chains has a second part.
  cases chooses with
  | effect | leave | leaveElse | ifNot | ifSo => exact .inl rfl
  | both _ _ _ _ _ _ isConstruct => exact .inr ⟨isConstruct, rfl⟩

end Chooses

/-- For a choice over the chains of a test no literal jump is added. -/
theorem Chooses.jumped {id : BlockId} {next branch : Target}
    (chooses : Chooses g flow id next branch choice) (isOpen : (g.bare id).isOpenCondition = true) :
    Jumped g id choice g := by
  -- The graph is the same, so that there are no new blocks to speak of.
  refine ⟨Nat.le_refl _, fun i _ => rfl, fun i isNew old => absurd old (Nat.not_lt.mpr isNew), ?_⟩
  intro arm listed last joins
  obtain ⟨inside, -, goesOn⟩ := chooses.lasts isOpen arm listed last joins
  exact ⟨inside, goesOn⟩

/-- A choice over the chains of a test takes the place of the test. -/
theorem chosen_nestIf {id : BlockId} {next branch : Target} (mirrored : g.Mirrored)
    (isOpen : (g.bare id).isOpenCondition = true) (chooses : Chooses g flow id next branch choice) :
    Chosen g id choice (g.choose id choice) :=
  chosen_choose mirrored (lt_size_of_isOpenCondition isOpen) fun arm listed last joins =>
    ⟨(chooses.lasts isOpen arm listed last joins).1,
      (chooses.lasts isOpen arm listed last joins).2.1⟩

/-- Nesting chains in a choice keeps walks and shapes, where the choice stands for its test. -/
theorem rewrite_nestIf {id : BlockId} (sound : g.Sound) (reached : g.Reached id)
    (applied : g.nestIf flow id = some h) : Rewrite g h (g.standsFor id) := by
  -- What the choice leads to, the test has led to before, be it through the blocks of a chain.
  obtain ⟨next, branch, choice, isOpen, isNext, isBranch, -, chooses, rfl⟩ := nestIf_cases applied
  have known := reached.lt_size sound.toLinked
  have isTest := (isOpenCondition_iff.mp isOpen).1
  have notStart := sound.toLinked.ne_start_of_isCondition isTest
  have linked : (g.choose id choice).Linked := sound.toLinked.choose known notStart
    (fun arm listed last joins => (chooses.lasts isOpen arm listed last joins).1)
    fun target leads =>
      sound.toLinked.behind_of_walk known notStart
        (chooses.walk isTest isNext isBranch EdgeFilter.all_lenient leads)
  refine (chosen_nestIf sound.toMirrored isOpen chooses).rewrite (chooses.jumped isOpen) linked
    sound reached isTest ?_ chooses.construct
  intro allow lenient target leads
  have walk := chooses.walk isTest isNext isBranch lenient leads
  rwa [standsFor_old id ((reached.walk walk).lt_size sound.toLinked)]

/-- A jump of a test is a literal jump. -/
theorem testJump_isGoto {id : BlockId} {branch : Target} :
    (BlockType.structured (g.testJump id branch)).isGoto = true := by
  -- All that differs is the kind of jump.
  simp only [testJump]
  split
  · rfl
  · split <;> rfl

/-- What an open test becomes that jumps to its branch. -/
theorem jumpTest_cases {id : BlockId} (applied : g.jumpTest flow id = some h) :
    ∃ next branch, (g.bare id).isOpenCondition = true ∧ (g.bare id).next = some next ∧
      (g.bare id).branch = some branch ∧
      (g.jumpTo (g.testJump id branch) (g.block id).finish branch).2.choose id
        { invert := false
          body := (g.jumpTo (g.testJump id branch) (g.block id).finish branch).1
          next := some next } = h := by
  -- The rule applies to open tests with both successors.
  simp only [jumpTest] at applied
  split at applied
  · next next branch isOpen isNext isBranch =>
    exact ⟨next, branch, isOpen, isNext, isBranch, Option.some.inj applied⟩
  · cases applied

/-- A single literal jump, or none in front of an exit. -/
theorem jumps_jumpTo (construct : Construct) (offset : Offset) (target : Target) (linked : g.Linked)
    (behind : ∀ id, target = .block id → start < id ∧ id < g.size) :
    Jumps construct offset [target] [(g.jumpTo construct offset target).1] g
      (g.jumpTo construct offset target).2 :=
  jumps_jumpAll construct offset linked fun id listed =>
    behind id (List.mem_singleton.mp listed).symm

/-- The choice of a test that jumps has taken the place of the test. -/
theorem chosen_jumpTest {id : BlockId} {branch : Target} (mirrored : g.Mirrored) (next : Target)
    (isBranch : (g.bare id).branch = some branch) (construct : Construct) (offset : Offset) :
    Chosen (g.jumpTo construct offset branch).2 id
      { invert := false, body := (g.jumpTo construct offset branch).1, next := some next }
      ((g.jumpTo construct offset branch).2.choose id
        { invert := false, body := (g.jumpTo construct offset branch).1, next := some next }) := by
  -- There are no chains to end.
  have edge : (g.bare id).edge? .branch = some branch := isBranch
  exact chosen_choose (mirrored.jumpTo fun v same => mirrored.bounded ⟨.branch, same ▸ isBranch⟩)
    (Nat.lt_of_lt_of_le (lt_size_of_edge edge) size_le_jumpTo)
    fun arm listed => absurd listed List.not_mem_nil

/-- A test that jumps gets one literal jump, to its branch. -/
theorem jumped_jumpTest {id : BlockId} {branch : Target} (linked : g.Linked) (next : Target)
    (isBranch : (g.bare id).branch = some branch) (construct : Construct)
    (isGoto : (BlockType.structured construct).isGoto) (offset : Offset) :
    Jumped g id { invert := false, body := (g.jumpTo construct offset branch).1, next := some next }
      (g.jumpTo construct offset branch).2 := by
  -- The only new block is the jump, and there are no chains.
  have jumps := jumps_jumpTo construct offset branch linked fun v same =>
    linked.behind ⟨.branch, same ▸ isBranch⟩
  refine ⟨jumps.grows, jumps.old, fun i isNew bounded => ?_,
    fun arm listed => absurd listed List.not_mem_nil⟩
  obtain ⟨v, listed, goto⟩ := jumps.gotos i isNew bounded
  exact ⟨_, _, v, goto, isGoto, .branch, (List.mem_singleton.mp listed).symm ▸ isBranch⟩

/-- Making a choice around a literal jump keeps walks and shapes, where both stand for the test. -/
theorem rewrite_jumpTest {id : BlockId} (sound : g.Sound) (reached : g.Reached id)
    (applied : g.jumpTest flow id = some h) : Rewrite g h (g.standsFor id) := by
  -- The literal jump is added before the choice is made.
  obtain ⟨next, branch, isOpen, isNext, isBranch, rfl⟩ := jumpTest_cases applied
  have known := reached.lt_size sound.toLinked
  have isTest := (isOpenCondition_iff.mp isOpen).1
  have jumps :=
    jumps_jumpTo (g.testJump id branch) (g.block id).finish branch sound.toLinked fun v same =>
      sound.toLinked.behind ⟨.branch, same ▸ isBranch⟩
  have linked : ((g.jumpTo (g.testJump id branch) (g.block id).finish branch).2.choose id
      { invert := false
        body := (g.jumpTo (g.testJump id branch) (g.block id).finish branch).1
        next := some next }).Linked := by
    refine jumps.linked.choose (Nat.lt_of_lt_of_le known jumps.grows)
      (sound.toLinked.ne_start_of_isCondition isTest)
      (fun arm listed => absurd listed List.not_mem_nil) ?_
    rintro target (body | otherwise | next)
    · cases branch with
      | exit way => cases body
      | block v =>
        cases body
        exact ⟨sound.nonempty, size_addGoto ▸ Nat.lt_succ_self _⟩
    · cases otherwise
    · cases next
      have bounds := sound.toLinked.behind ⟨.next, isNext⟩
      exact ⟨bounds.1, Nat.lt_of_lt_of_le bounds.2 jumps.grows⟩
  refine (chosen_jumpTest sound.toMirrored next isBranch _ _).rewrite
    (jumped_jumpTest sound.toLinked next isBranch (g.testJump id branch) testJump_isGoto _) linked
    sound reached isTest ?_ (.inl rfl)
  -- The body is the literal jump, which stands for the test, and what follows
  -- is the next block of the test.
  rintro allow lenient target (body | otherwise | next)
  · cases branch with
    | exit way => cases body
    | block v =>
      cases body
      rw [standsFor_new id (Nat.le_refl _)]
  · cases otherwise
  · cases next
    have step : g.Step allow id target := ⟨.next, lenient.next _, isNext⟩
    rw [standsFor_old id (sound.bounded step.leads)]
    exact .single step

end Unjump.Graph
