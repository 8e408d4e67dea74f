import Unjump.Proofs.Kept
import Unjump.Proofs.Prepare

/-!
Where the jumps out of loops and switches come from.

A loop turns edges of its body into exits, and a switch ends its bodies with exits. All other rules
only hand exits on: a block of the new graph has an exit because a walk led, from the block that it
stands for, to one that had it.
-/

namespace Unjump

/-- Whether an exit refers to the loop or the switch around it. -/
def Exit.isScoped : Exit → Bool
  | .bodyEnd | .methodReturn => false
  | .loopStart | .loopContinue | .loopEnd | .switchBreak => true

namespace Block

variable {b : Block} {kind : EdgeKind} {way : Exit}

/-- Renaming blocks does not make exits. -/
theorem exit_of_replaceTarget {old new : BlockId}
    (edge : (b.replaceTarget (.block old) (.block new)).edge? kind = some (.exit way)) :
    b.edge? kind = some (.exit way) := by
  -- An edge that has been renamed leads to a block, and not to an exit.
  rw [edge?_replaceTarget, Option.map_eq_some_iff] at edge
  obtain ⟨before, edge, renamed⟩ := edge
  by_cases same : before = .block old
  · rw [same, Target.renamed_self] at renamed
    cases renamed
  · rw [Target.renamed_ne same] at renamed
    exact renamed ▸ edge

/-- A switch stays one when it is closed like a test. -/
theorem isSwitch_closed {invert : Bool} (isSwitch : b.type = .structured .switch) :
    (b.closed invert).type = .structured .switch := by
  -- Closing changes the type of a raw test only.
  simp [closed, isSwitch]

end Block

namespace Graph

variable {g h : Graph} {flow : Flow} {id u : BlockId} {back : BlockId → BlockId} {kind : EdgeKind}
    {way : Exit}

/-- An exit of a block that was there before: a walk led to it from the block that the block stands
for, and only a switch has it from a switch. -/
def ExitFrom (g h : Graph) (back : BlockId → BlockId) (u : BlockId) (way : Exit) : Prop :=
  ∃ w kind, (g.bare w).edge? kind = some (.exit way) ∧
    ((g.bare w).type = .structured .switch → (h.bare u).type = .structured .switch) ∧
    ∀ {allow : EdgeFilter}, allow.Lenient → g.Walk allow (back u) w

/-- A change that makes no jumps out of constructs. -/
def ExitsFrom (g h : Graph) (back : BlockId → BlockId) : Prop :=
  ∀ u kind way, way.isScoped = true → (h.bare u).edge? kind = some (.exit way) →
  ExitFrom g h back u way

/-- An old block has an exit that it had. -/
theorem exitFrom_old (same : back u = u) (edge : (g.bare u).edge? kind = some (.exit way))
    (type : (g.bare u).type = .structured .switch → (h.bare u).type = .structured .switch) :
    ExitFrom g h back u way :=
  ⟨u, kind, edge, type, fun _ => by rw [same]⟩

/-- A new block has an exit of the block that it stands for. -/
theorem exitFrom_new (stands : back u = id) (edge : (g.bare id).edge? kind = some (.exit way))
    (type : (g.bare id).type ≠ .structured .switch) : ExitFrom g h back u way :=
  ⟨id, kind, edge, fun isSwitch => absurd isSwitch type, fun _ => by rw [stands]⟩

/-- An open test is no switch. -/
theorem type_ne_switch_of_open (isOpen : (g.bare id).isOpenCondition = true) :
    (g.bare id).type ≠ .structured .switch := by
  -- A test has one of the types of conditions.
  intro isSwitch
  simp [Block.isOpenCondition, isSwitch, BlockType.isCondition] at isOpen

/-- A raw block is no switch. -/
theorem type_ne_switch_of_raw {type : RawType} (isRaw : (g.bare id).type = .raw type) :
    (g.bare id).type ≠ .structured .switch := ne_of_eq_of_ne isRaw (by simp)

/-- A graph without jumps out of constructs. -/
def Unscoped (g : Graph) : Prop :=
  ∀ u kind way, (g.bare u).edge? kind = some (.exit way) → way.isScoped = false

section Prepare

/-- Putting a block in front of a test makes no jumps out of constructs. -/
theorem Unscoped.splitTest (unscoped : g.Unscoped) (linked : g.Linked) (id : BlockId) :
    (g.splitTest id).Unscoped := by
  -- There is a new block or there is none.
  rcases splitTest_cases linked id with same | split
  · rwa [same]
  · intro u kind way edge
    -- An old block has the exits that it had, as only the name of the test has changed for it.
    by_cases known : u < g.size
    · rw [split.edges u known, ← Block.edge?_replaceTarget] at edge
      exact unscoped u kind way (Block.exit_of_replaceTarget edge)
    · -- The block in front of a test leads to the test.
      obtain rfl := split.eq_size known (lt_size_of_edge edge)
      rw [split.newEdges] at edge
      split at edge <;> cases edge

/-- Sharing a return makes no jumps out of constructs. -/
theorem Unscoped.shareReturn (unscoped : g.Unscoped) (linked : g.Linked) (id : BlockId) :
    (g.shareReturn id).Unscoped := by
  -- There is a return to share or there is none.
  rcases shareReturn_cases linked id with same | shared
  · rwa [same]
  · intro u kind way edge
    by_cases same : u = id
    · -- The return itself is detached.
      rw [same, shared.own, Block.edge?_detached] at edge
      cases edge
    · -- What led to the return is a return.
      rw [shared.others u same, Block.edge?_replaceTarget, Option.map_eq_some_iff] at edge
      obtain ⟨before, edge, renamed⟩ := edge
      by_cases isReturn : before = .block id
      · rw [isReturn, Target.renamed_self] at renamed
        cases renamed
        rfl
      · rw [Target.renamed_ne isReturn] at renamed
        exact unscoped u kind way (renamed ▸ edge)

/-- No block of the graph of a method jumps out of a construct before structuring. -/
theorem unscoped_prepare {m : Method} {pool : Option Pool} {build : BuildOptions}
    (made : Graph.build m pool build = .ok g) (options : Options) :
    (g.prepare options).Unscoped := by
  -- The graph of a method has no exits at all, and neither step
  -- before structuring makes one that belongs to a construct.
  have first : g.Sound ∧ g.Unscoped := by
    refine ⟨sound_of_build made, fun u kind way edge => ?_⟩
    obtain ⟨next, same⟩ := inner_of_build made edge
    cases same
  have split : (g.reachable.toList.foldl Graph.splitTest g).Sound ∧
      (g.reachable.toList.foldl Graph.splitTest g).Unscoped :=
    List.foldlRecOn (motive := fun g => g.Sound ∧ g.Unscoped) g.reachable.toList
      Graph.splitTest first
      fun _ before id _ => ⟨before.1.splitTest id, before.2.splitTest before.1.toLinked id⟩
  -- Returns are only shared if the options ask for it.
  simp only [Graph.prepare]
  split
  · exact (List.foldlRecOn (motive := fun g => g.Sound ∧ g.Unscoped) _ Graph.shareReturn split
      fun _ before id _ => ⟨before.1.shareReturn id, before.2.shareReturn before.1.toLinked id⟩).2
  · exact split.2

end Prepare

section Plain

/-- A block that is settled keeps its exits. -/
theorem exitsFrom_settle {type : RawType} {construct : Construct} (known : id < g.size)
    (isRaw : (g.bare id).type = .raw type) : ExitsFrom g (g.settle id construct) fun i => i := by
  -- The block keeps its edges, and while it was raw it was no scope of breaks.
  intro u kind way _ edge
  rw [bare_settle known] at edge
  split at edge
  · -- The block itself has its edges still.
    next same =>
    subst same
    have before : (g.bare u).edge? kind = some (.exit way) := by
      cases kind <;> exact edge
    exact exitFrom_new rfl before (type_ne_switch_of_raw isRaw)
  · -- All others are as they were.
    next other =>
    exact exitFrom_old rfl edge fun isSwitch => by rwa [bare_settle known, if_neg other]

/-- A rule that settles a block keeps the exits of all. -/
theorem exitsFrom_settlePlain (known : id < g.size) (applied : g.settlePlain flow id = some h) :
    ExitsFrom g h fun i => i := by
  -- The rule applies to raw blocks only, of which it changes the type.
  unfold settlePlain at applied
  split at applied
  · next type isRaw =>
    obtain ⟨construct, -, rfl⟩ := Option.map_eq_some_iff.mp applied
    exact exitsFrom_settle known isRaw
  · cases applied

/-- The exits of a graph from which a jump has been removed are exits that were there before. -/
theorem dropGoto_exit (linked : g.Linked) (known : id < g.size)
    (applied : g.dropGoto flow id = some h) (edge : (h.bare u).edge? kind = some (.exit way)) :
    ∃ w kind, (g.bare w).edge? kind = some (.exit way) := by
  -- The jump leads to itself, is bypassed or is kept as a block of its own.
  obtain ⟨-, ⟨-, -, rfl⟩ | ⟨target, -, leads, -, rfl⟩ | rfl⟩ := dropGoto_cases applied
  · -- A jump to itself loses its edge.
    rw [bare_update ({ · with type := .structured .infiniteGoto, next := none }) known fun _ =>
      rfl] at edge
    split at edge
    · refine ⟨id, kind, ?_⟩
      cases kind <;> first | cases edge | exact edge
    · exact ⟨u, kind, edge⟩
  · -- What led to the jump has the exit that the jump had.
    rw [bare_bypass linked known] at edge
    split at edge
    · simp at edge
    · rw [Block.edge?_replaceTarget, Option.map_eq_some_iff] at edge
      obtain ⟨before, edge, renamed⟩ := edge
      by_cases same : before = .block id
      · rw [same, Target.renamed_self] at renamed
        exact ⟨id, .next, renamed ▸ leads⟩
      · rw [Target.renamed_ne same] at renamed
        exact ⟨u, kind, renamed ▸ edge⟩
  · -- A jump that is kept has the edges that it had.
    rw [bare_settle known] at edge
    split at edge
    · refine ⟨id, kind, ?_⟩
      cases kind <;> exact edge
    · exact ⟨u, kind, edge⟩

/-- Removing a jump makes no jumps out of constructs. -/
theorem Unscoped.dropGoto (unscoped : g.Unscoped) (linked : g.Linked) (known : id < g.size)
    (applied : g.dropGoto flow id = some h) : h.Unscoped := by
  intro u kind way edge
  obtain ⟨w, kind, edge⟩ := dropGoto_exit linked known applied edge
  exact unscoped w kind way edge

end Plain

section Test

variable {construct : Construct} {operands : List (BlockId × Bool)} {fields : Block → Block}

/-- Tests that are made one hand their exits on if the new one has exits of a test
to which the first one leads. -/
theorem exitsFrom_combine (mirrored : g.Mirrored) (distinct : (operands.map (·.1)).Nodup)
    (known : ∀ operand ∈ operands, operand.1 < g.size) (pure : ∀ b, (fields b).bare = fields b.bare)
    {last : BlockId} (isOpen : (g.bare last).isOpenCondition = true)
    (walk : ∀ {allow : EdgeFilter}, allow.Lenient → g.Walk allow id last)
    (exits : ∀ kind way,
      (fields (Block.covering construct ((operands.map (·.1)).map g.block))).edge? kind =
      some (.exit way) → (g.bare last).edge? kind = some (.exit way)) :
    ExitsFrom g (g.combine id construct operands fields) (g.standsFor id) := by
  -- The new block is the composite; all others were there before.
  intro u kind way _ edge
  have inside := lt_size_of_edge edge
  have blocks : (g.combine id construct operands fields).bare u = _ :=
    bare_combine mirrored distinct known pure u
  rw [blocks] at edge
  split at edge
  · -- The new test has exits of the last one, to which the first one leads.
    next isNew =>
    subst isNew
    refine ⟨last, kind, exits kind way edge, fun isSwitch =>
      absurd isSwitch (type_ne_switch_of_open isOpen), ?_⟩
    intro allow lenient
    rw [standsFor_new id (Nat.le_refl _)]
    exact walk lenient
  · next other =>
    rw [if_neg other] at blocks
    have old : u < g.size := by
      rw [size_combine] at inside
      exact Nat.lt_of_le_of_ne (Nat.le_of_lt_succ inside) other
    -- An old block is renamed and, if it is an operand, closed.
    have renamed : ((g.bare u).replaceTarget (.block id) (.block g.size)).edge? kind =
        some (.exit way) := by
      split at edge
      · exact Block.edge?_of_closed edge
      · exact edge
    refine exitFrom_old (standsFor_old id old) (Block.exit_of_replaceTarget renamed)
      fun isSwitch => ?_
    · rw [blocks]
      split
      · exact Block.isSwitch_closed isSwitch
      · exact isSwitch

/-- A test that joins two hands their exits on. -/
theorem exitsFrom_mergeTests (linked : g.Linked) (applied : g.mergeTests flow id = some h) :
    ExitsFrom g h (g.standsFor id) := by
  -- The composite has the edges of the second test, to which the first one falls through.
  obtain ⟨second, construct, invert, isOpen, isNext, other, operand, -, rfl⟩ :=
    mergeTests_cases applied
  have leads : g.Leads id second := ⟨.next, isNext⟩
  refine exitsFrom_combine linked.toMirrored ?_ ?_ (fun _ => rfl)
    (isOperandOf_iff.mp operand).1 ?_ ?_
  · -- The two tests are different blocks.
    simp [Ne.symm other]
  · simp only [List.mem_cons, List.not_mem_nil, or_false]
    rintro operand (rfl | rfl)
    · exact leads.lt_size
    · exact linked.bounded leads
  · exact fun lenient => .single ⟨.next, lenient.next _, isNext⟩
  · intro kind way edge
    cases kind <;> first | exact edge | cases edge

/-- A test that selects one of two others hands their exits on. -/
theorem exitsFrom_selectTest (linked : g.Linked) (applied : g.selectTest flow id = some h) :
    ExitsFrom g h (g.standsFor id) := by
  -- The composite has the edges of the test that is asked on failure,
  -- to which the first one falls through.
  obtain ⟨failed, held, isOpen, isNext, isBranch, differ, notFailed, notHeld, operand, -, -,
      -, rfl⟩ :=
    selectTest_cases applied
  have leads : g.Leads id failed := ⟨.next, isNext⟩
  refine exitsFrom_combine linked.toMirrored ?_ ?_ (fun _ => rfl)
    (isOperandOf_iff.mp operand).1 ?_ ?_
  · -- The three tests are different blocks.
    simp [Ne.symm notFailed, Ne.symm notHeld, differ]
  · simp only [List.mem_cons, List.not_mem_nil, or_false]
    rintro operand (rfl | rfl | rfl)
    · exact leads.lt_size
    · exact linked.bounded leads
    · exact linked.bounded ⟨.branch, isBranch⟩
  · exact fun lenient => .single ⟨.next, lenient.next _, isNext⟩
  · intro kind way edge
    cases kind <;> first | exact edge | cases edge

end Test

section Choice

variable {test : BlockId} {choice : Choice}

/-- A choice hands exits on if all that it has are exits of its test. -/
theorem Chosen.exitsFrom {base : Graph} (chosen : Chosen g test choice h)
    (jumped : Jumped base test choice g) (isOpen : (base.bare test).isOpenCondition = true)
    (exits : ∀ {way : Exit}, way.isScoped →
      choice.body = .exit way ∨ choice.otherwise = some (.exit way) ∨
      choice.next = some (.exit way) → ∃ kind, (base.bare test).edge? kind = some (.exit way)) :
    ExitsFrom base h (base.standsFor test) := by
  intro u kind way isScoped edge
  have inside := chosen.size ▸ lt_size_of_edge edge
  by_cases isComposite : u = g.size
  · -- The choice stands for its test.
    subst isComposite
    rw [chosen.composite] at edge
    suffices found : ∃ kind, (base.bare test).edge? kind = some (.exit way) by
      obtain ⟨kind, edge⟩ := found
      exact exitFrom_new (standsFor_new test jumped.grows) edge (type_ne_switch_of_open isOpen)
    cases kind with
    | next => exact exits isScoped (.inr (.inr edge))
    | sub1 => exact exits isScoped (.inl (Option.some.inj edge))
    | sub2 => exact exits isScoped (.inr (.inl edge))
    | condition | branch | case i | handler i => cases edge
  · have below : u < g.size := Nat.lt_of_le_of_ne (Nat.le_of_lt_succ inside) isComposite
    -- A block that is not the choice has no exits but those that it had, and ends of bodies.
    have before : (g.bare u).edge? kind = some (.exit way) ∧
        ((g.bare u).type = .structured .switch → (h.bare u).type = .structured .switch) := by
      by_cases same : u = test
      · subst same
        rw [chosen.closed] at edge ⊢
        exact ⟨Block.exit_of_replaceTarget (Block.edge?_of_closed edge), fun isSwitch =>
          Block.isSwitch_closed isSwitch⟩
      · rcases chosen.others u below same with kept | ⟨-, ended⟩
        · rw [kept] at edge ⊢
          exact ⟨Block.exit_of_replaceTarget edge, fun isSwitch => isSwitch⟩
        · rw [ended] at edge ⊢
          have renamed : ((g.bare u).replaceTarget (.block test) (.block g.size)).edge? kind =
              some (.exit way) := by
            cases kind with
            | next =>
              cases edge
              cases isScoped
            | _ => exact edge
          exact ⟨Block.exit_of_replaceTarget renamed, fun isSwitch => isSwitch⟩
    -- A block that is not the choice was there before or is a literal jump.
    by_cases isOld : u < base.size
    · rw [jumped.old u isOld] at before
      exact exitFrom_old (standsFor_old test isOld) before.1 before.2
    · -- Literal jumps have no exits.
      obtain ⟨construct, offset, v, isGoto, -⟩ := jumped.gotos u (Nat.le_of_not_lt isOld) below
      rw [isGoto, edge?_gotoBlock] at before
      split at before
      · cases before.1
      · cases before.1

/-- The exits of a choice over a test are those of the test. -/
theorem Chooses.exits {next branch : Target} (chooses : Chooses g flow id next branch choice)
    (isNext : (g.bare id).next = some next) (isBranch : (g.bare id).branch = some branch)
    (isScoped : way.isScoped)
    (leaves : choice.body = .exit way ∨ choice.otherwise = some (.exit way) ∨
      choice.next = some (.exit way)) :
    ∃ kind, (g.bare id).edge? kind = some (.exit way) := by
  have ofNext : next = .exit way → ∃ kind, (g.bare id).edge? kind = some (.exit way) :=
    fun same => ⟨.next, same ▸ isNext⟩
  have ofBranch : branch = .exit way → ∃ kind, (g.bare id).edge? kind = some (.exit way) :=
    fun same => ⟨.branch, same ▸ isBranch⟩
  -- A choice takes its scoped exits from the two edges of the test;
  -- the ones it makes itself only end a body.
  cases chooses with
  | effect =>
    rcases leaves with same | same | same
    · cases same
      cases isScoped
    · cases same
    · exact ofNext (Option.some.inj same)
  | leave =>
    rcases leaves with same | same | same
    · exact ofBranch same
    · cases same
    · exact ofNext (Option.some.inj same)
  | leaveElse =>
    rcases leaves with same | same | same
    · exact ofNext same
    · cases same
    · cases same
  | ifNot | ifSo =>
    rcases leaves with same | same | same <;> cases same
  | @both _ _ _ _ meeting =>
    rcases leaves with same | same | same
    · cases same
    · cases same
    · cases meeting <;> cases same

/-- Making a choice of a test hands its exits on. -/
theorem exitsFrom_nestIf (linked : g.Linked) (applied : g.nestIf flow id = some h) :
    ExitsFrom g h (g.standsFor id) := by
  -- The exits of the choice are those that the test had.
  obtain ⟨next, branch, choice, isOpen, isNext, isBranch, -, chooses, rfl⟩ := nestIf_cases applied
  exact (chosen_nestIf linked.toMirrored isOpen chooses).exitsFrom (chooses.jumped isOpen) isOpen
    (chooses.exits isNext isBranch)

/-- A test whose branch becomes a literal jump hands its exits on. -/
theorem exitsFrom_jumpTest (linked : g.Linked) (applied : g.jumpTest flow id = some h) :
    ExitsFrom g h (g.standsFor id) := by
  obtain ⟨next, branch, isOpen, isNext, isBranch, rfl⟩ := jumpTest_cases applied
  refine (chosen_jumpTest linked.toMirrored next isBranch _ _).exitsFrom
    (jumped_jumpTest linked next isBranch (g.testJump id branch) testJump_isGoto _) isOpen ?_
  -- A branch to a block goes over a literal jump, and one to an exit is taken as it is.
  rintro way - (body | otherwise | next)
  · cases branch with
    | exit other =>
      cases body
      exact ⟨.branch, isBranch⟩
    | block v => cases body
  · cases otherwise
  · cases next
    exact ⟨.next, isNext⟩

end Choice

section Nest

/-- Where an exit is after chains have been nested in a block: at that block, at the end
of a chain, or where it was. -/
theorem Nested.exit {ways : Exit → Prop} {arms : List Arm} {c : Block}
    (nested : Nested ways arms g id c h) (edge : (h.bare u).edge? kind = some (.exit way)) :
    (u = id ∧ c.edge? kind = some (.exit way)) ∨ (ways way ∧ ∃ arm ∈ arms, joining? arm = some u) ∨
      ((g.bare u).edge? kind = some (.exit way) ∧ (h.bare u).type = (g.bare u).type) := by
  -- The block in which the chains are nested has got edges of its own.
  by_cases same : u = id
  · subst same
    exact .inl ⟨rfl, nested.own ▸ edge⟩
  -- A block of a chain is as it was, unless it is the last one and ran on.
  · rcases nested.others u same with kept | ⟨ends, found, isWay, ended⟩
    · exact .inr (.inr ⟨kept ▸ edge, by rw [kept]⟩)
    · rw [ended] at edge
      cases kind with
      | next =>
        cases edge
        exact .inr (.inl ⟨isWay, ends⟩)
      | _ => exact .inr (.inr ⟨edge, by rw [ended]⟩)

/-- The blocks of the bodies that are nested in a switch. -/
def nestedBlocks (g : Graph) (id : BlockId) : List BlockId :=
  let bodies := g.switchBodies (Flow.ofGraph g) id
  (bodies.filter fun body => some (some body.head) != switchJoin? bodies).flatMap (·.arm.blocks)

/-- The bodies of a switch hold settled blocks, and so not the entry. -/
theorem start_not_mem_nestedBlocks (linked : g.Linked) (id : BlockId) :
    start ∉ g.nestedBlocks id := by
  -- The entry is not settled.
  intro listed
  obtain ⟨body, isBody, isBlock⟩ := List.mem_flatMap.mp listed
  have bodies := bodies_caseBodies g (Flow.ofGraph g) id none (g.switchHeads id)
  obtain ⟨-, bounds, walked⟩ := bodies.walked body (List.mem_filter.mp isBody).1
  have settled := (walked.settled start isBlock).2.1
  simp [Block.isSettled, linked.rooted] at settled

/-- Nesting the bodies of a switch hands exits on, but for the breaks of the switch
and at the ends of its bodies. -/
theorem nestSwitch_exit (sound : g.Sound) (reached : g.Reached id)
    (applied : g.nestSwitch (Flow.ofGraph g) id = some h) (isScoped : way.isScoped)
    (edge : (h.bare u).edge? kind = some (.exit way)) :
    (way = .switchBreak ∧ ((h.bare u).type = .structured .switch ∨ u ∈ g.nestedBlocks id)) ∨
      ExitFrom g h (g.standsFor id) u way := by
  have known := reached.lt_size sound.toLinked
  obtain ⟨join, trim, isSwitch, -, arms, cases, rfl⟩ := nestSwitch_cases applied
  have nested := nested_nestSwitch sound reached isSwitch arms cases
  rcases nested.exit edge with ⟨rfl, own⟩ | ⟨isWay, arm, listed, joins⟩ | ⟨before, type⟩
  · -- A case of the switch is one that it had, or a break.
    have isStructured : (Graph.bare _ u).type = .structured .switch :=
      congrArg Block.type nested.own
    suffices found : way = .switchBreak ∨ ∃ kind, (g.bare u).edge? kind = some (.exit way) by
      rcases found with rfl | ⟨kind, edge⟩
      · exact .inl ⟨rfl, .inl isStructured⟩
      · exact .inr (exitFrom_old (standsFor_old u known) edge fun _ => isStructured)
    cases kind with
    | case i =>
      obtain ⟨entry, listed, same⟩ := Block.edge?_case_mem own
      rcases (cases _).origin entry listed with isBreak | ⟨before, isBefore, target⟩
      · cases same.symm.trans isBreak
        exact .inl rfl
      · obtain ⟨j, edge⟩ := Block.edge?_of_mem_cases isBefore
        exact .inr ⟨.case j, edge.trans (congrArg some (target.trans same))⟩
    | next => cases join <;> cases own
    | branch => exact .inr ⟨.branch, own⟩
    | condition => exact .inr ⟨.condition, own⟩
    | sub1 => exact .inr ⟨.sub1, own⟩
    | sub2 => exact .inr ⟨.sub2, own⟩
    | handler i => exact .inr ⟨.handler i, own⟩
  · -- The end of a body is a block of it.
    obtain ⟨body, isBody, rfl⟩ := List.mem_map.mp listed
    rcases isWay with rfl | rfl
    · cases isScoped
    · refine .inl ⟨rfl, .inr (List.mem_flatMap.mpr ⟨body, ?_, ?_⟩)⟩
      · simpa [arms.isJoin] using isBody
      · exact List.mem_of_getLast? (joining?_eq_some joins).1
  · -- All other blocks have what they had.
    exact .inr (exitFrom_old (standsFor_old id (lt_size_of_edge before)) before fun isSwitch =>
      type.trans isSwitch)

/-- Nesting the parts of a protected region hands exits on. -/
theorem exitsFrom_nestTry (sound : g.Sound) (reached : g.Reached id)
    (applied : g.nestTry flow id = some h) : ExitsFrom g h (g.standsFor id) := by
  -- Of the exits that it makes, none belongs to a loop or a switch.
  have known := reached.lt_size sound.toLinked
  obtain ⟨next, heads, body, handlers, join, construct, isTry, arms, isJoin, -, -, rfl⟩ :=
    nestTry_cases applied
  have nested :=
    @nested_nestTry _ _ _ sound reached next join construct heads body handlers isTry arms isJoin
  intro u kind way isScoped edge
  rcases nested.exit edge with ⟨rfl, own⟩ | ⟨rfl, -⟩ | ⟨before, type⟩
  · suffices found : ∃ kind, (g.bare u).edge? kind = some (.exit way) by
      obtain ⟨kind, edge⟩ := found
      exact exitFrom_new (standsFor_old u known) edge (type_ne_switch_of_raw isTry)
    -- The protected code and the handlers are where the edges of the entry led.
    cases kind with
    | next => cases join <;> cases own
    | sub1 => exact ⟨.next, arms.isNext.trans own⟩
    | handler i =>
      obtain ⟨handler, listed, same⟩ := Block.edge?_handler_mem own
      obtain ⟨j, edge⟩ := @Block.edge?_of_mem_handlers (g.bare u) _ (mem_finallyLast.mp listed)
      exact ⟨.handler j, edge.trans (congrArg some same)⟩
    | branch => exact ⟨.branch, own⟩
    | condition => exact ⟨.condition, own⟩
    | sub2 => exact ⟨.sub2, own⟩
    | case i => exact ⟨.case i, own⟩
  · cases isScoped
  · exact exitFrom_old (standsFor_old id (lt_size_of_edge before)) before fun isSwitch =>
      type.trans isSwitch

end Nest

section Jump

/-- A block that leads to literal jumps hands its exits on. -/
theorem Jumps.exitsFrom {base : Graph} {construct : Construct} {offset : Offset}
    {targets results : List Target} (jumps : Jumps construct offset targets results base g)
    (known : id < base.size) (change : Block → Block) (pure : ∀ b, (change b).bare = change b.bare)
    {type : RawType} (isRaw : (base.bare id).type = .raw type)
    (edges : ∀ kind target, (change (base.bare id)).edge? kind = some target → target ∈ results)
    (exits : ∀ {way : Exit}, way.isScoped → .exit way ∈ targets →
      ∃ kind, (base.bare id).edge? kind = some (.exit way)) :
    ExitsFrom base (g.update id change) (base.standsFor id) := by
  -- The block itself, the others, and the literal jumps.
  intro u kind way isScoped edge
  have blocks := bare_update change (Nat.lt_of_lt_of_le known jumps.grows) pure u
  have inside := lt_size_of_edge edge
  rw [blocks] at edge
  split at edge
  · next same =>
    subst same
    rw [jumps.old u known] at edge
    -- What stands in place of an exit is the exit, and what stands in place of a block
    -- is a literal jump.
    obtain ⟨i, bound, isResult⟩ := List.mem_iff_getElem.mp (edges kind _ edge)
    have bound' : i < targets.length := jumps.results.length_eq ▸ bound
    have listed : Target.exit way ∈ targets := by
      rcases jumps.results.get bound' bound with ⟨other, isExit, same⟩ | ⟨w, j, -, -, -, same, -⟩
      · simp only [List.get_eq_getElem, isResult] at same
        exact same ▸ List.getElem_mem bound'
      · simp only [List.get_eq_getElem, isResult] at same
        cases same
    obtain ⟨kind, before⟩ := exits isScoped listed
    exact exitFrom_new (standsFor_old u known) before (type_ne_switch_of_raw isRaw)
  · next other =>
    by_cases old : u < base.size
    · rw [jumps.old u old] at edge
      refine exitFrom_old (standsFor_old id old) edge fun isSwitch => ?_
      rwa [blocks, if_neg other, jumps.old u old]
    · -- Literal jumps have no exits.
      obtain ⟨v, -, isGoto⟩ := jumps.gotos u (Nat.le_of_not_lt old) (by simpa using inside)
      rw [isGoto, edge?_gotoBlock] at edge
      split at edge <;> cases edge

/-- A switch whose cases become literal jumps hands its exits on. -/
theorem exitsFrom_jumpSwitch (sound : g.Sound) (reached : g.Reached id)
    (applied : g.jumpSwitch flow id = some h) : ExitsFrom g h (g.standsFor id) := by
  -- The exits among the targets are cases from before; the rest are literal jumps.
  obtain ⟨isSwitch, rfl⟩ := jumpSwitch_cases applied
  have own := (sound.shaped reached).own _ isSwitch
  refine (jumps_cases sound.toLinked id _).exitsFrom (reached.lt_size sound.toLinked) _
    (fun _ => rfl) isSwitch ?_ ?_
  · exact jumpSwitch_edges (sound.shaped reached) isSwitch
  · intro way _ listed
    obtain ⟨entry, isCase, same⟩ := List.mem_map.mp listed
    obtain ⟨i, edge⟩ := Block.edge?_of_mem_cases isCase
    exact ⟨.case i, same ▸ edge⟩

/-- A protected region whose parts become literal jumps hands its exits on. -/
theorem exitsFrom_jumpTry (sound : g.Sound) (reached : g.Reached id)
    (applied : g.jumpTry flow id = some h) : ExitsFrom g h (g.standsFor id) := by
  -- The exits among the targets are the protected code and the handlers from before;
  -- the rest are literal jumps.
  obtain ⟨isTry, body, targets, made, jumped, rfl⟩ := jumpTry_cases applied
  have jumps := jumps_tryTargets sound.toLinked id (g.block id).start
  rw [jumped] at jumps
  refine jumps.exitsFrom (reached.lt_size sound.toLinked) _ (fun _ => rfl) isTry ?_ ?_
  · exact jumpTry_edges (sound.shaped reached) isTry
  · intro way isScoped listed
    rcases List.mem_cons.mp listed with isNext | isHandler
    · refine ⟨.next, ?_⟩
      cases next : (g.bare id).next with
      | none =>
        rw [next] at isNext
        cases isNext
        cases isScoped
      | some target =>
        rw [next] at isNext
        exact next.trans (congrArg some isNext.symm)
    · obtain ⟨handler, isHandler, same⟩ := List.mem_map.mp isHandler
      obtain ⟨i, edge⟩ := Block.edge?_of_mem_handlers isHandler
      exact ⟨.handler i, same ▸ edge⟩

/-- Turning an entry of a block into a literal jump hands exits on. -/
theorem exitsFrom_unshareEntry (linked : g.Linked) (applied : g.unshareEntry flow id = some h) :
    ∀ source, ExitsFrom g h (g.standsFor source) := by
  obtain ⟨source, construct, -, found, isGoto, rfl⟩ := unshareEntry_cases applied
  obtain ⟨entering, -, enters⟩ :=
    (mem_enteringPreds linked.toMirrored).mp (surplusSource?_mem found)
  have leads : g.Leads source id := ⟨entering, enters⟩
  intro root u kind way _ edge
  have blocks := @bare_unshare g id source leads.lt_size construct (g.block source).finish u
  rw [blocks] at edge
  -- The source, the new jump and all other blocks.
  split at edge
  · -- The source has got one edge to the new block, which is no exit.
    next same =>
    subst same
    rw [Block.edge?_replaceEntry] at edge
    have before : (g.bare u).edge? kind = some (.exit way) := by
      split at edge
      · exact edge
      · rw [← Block.edge?_replaceTarget] at edge
        exact Block.exit_of_replaceTarget edge
    refine exitFrom_old (standsFor_old root leads.lt_size) before fun isSwitch => ?_
    rw [blocks, if_pos rfl]
    exact isSwitch
  · next other =>
    split at edge
    · -- The new jump has no exits.
      rw [edge?_gotoBlock] at edge
      split at edge <;> cases edge
    · next notNew =>
      refine exitFrom_old (standsFor_old root (lt_size_of_edge edge)) edge fun isSwitch => ?_
      rwa [blocks, if_neg other, if_neg notNew]

end Jump

section Loop

variable {header : BlockId} {core body : IdSet} {after : Option BlockId}

/-- A loop hands exits on, but for those that it makes of edges inside its natural loop. -/
theorem Wrapped.exit (wrapped : Wrapped g header body after h) (isBody : LoopBody g core after body)
    (isHeader : header ∈ core) (edge : (h.bare u).edge? kind = some (.exit way)) :
    (u ∈ core ∧ way ≠ .switchBreak) ∨ (u < g.size ∧ (g.bare u).edge? kind = some (.exit way)) := by
  have inside := lt_size_of_edge edge
  -- An old block, the loop itself or a literal jump that has been made for it.
  rcases Nat.lt_trichotomy u g.size with old | rfl | new
  · -- Inside the body, only edges between blocks have been made exits.
    by_cases member : u ∈ body
    · by_cases inner : ∃ target, (kind, target) ∈ (g.bare u).innerEdges
      · obtain ⟨target, inner⟩ := inner
        have result := wrapped.rerouted u member kind target inner
        rw [edge] at result
        obtain ⟨leaves, notBreak⟩ := result.exits
        refine .inl ⟨?_, notBreak⟩
        -- Code behind the exits flows neither back into the natural loop nor to the block after it.
        by_contra outside
        obtain ⟨flows, -, leads⟩ := Block.mem_innerEdges.mp inner
        obtain ⟨stays, notCore⟩ := isBody.closed u member outside kind target flows leads
        rcases leaves with toHeader | toAfter
        · exact notCore (toHeader ▸ isHeader)
        · exact isBody.apart target stays notCore toAfter
      · refine .inr ⟨old, ?_⟩
        rw [← wrapped.kept u member kind fun target isInner => inner ⟨target, isInner⟩]
        exact edge
    · rw [wrapped.outside u old member, ← Block.edge?_replaceTarget] at edge
      exact .inr ⟨old, Block.exit_of_replaceTarget edge⟩
  · -- The loop itself leads to blocks only.
    rw [wrapped.loopEdges] at edge
    split at edge
    · cases edge
    · split at edge
      · cases after <;> cases edge
      · cases edge
  · -- A literal jump leads to a block.
    obtain ⟨_, -, _, _, _, -, -, isGoto, -, -⟩ := wrapped.gotos u new inside
    rw [isGoto, edge?_gotoBlock] at edge
    split at edge <;> cases edge

end Loop

end Graph

end Unjump
