import Unjump.Proofs.Rewrite.Nest

/-! The case bodies of a switch. -/

namespace Unjump.Graph

variable {g h : Graph} {flow : Flow} {id : BlockId}

/-- The bodies of a switch, each entered by the switch and by the body before it,
if that runs on into it. -/
inductive Bodies (g : Graph) (flow : Flow) (id : BlockId) :
    (previous : Option Arm) → List BlockId → List CaseBody → Prop
  | nil {previous} : Bodies g flow id previous [] []
  | cons {previous head rest arm bodies} (bounds : ArmBounds)
      (entry : ∀ x, x ∈ bounds.entry ↔
        x = id ∨
          ∃ before, previous = some before ∧ before.finish = .join head ∧ before.last? = some x)
      (walked : Walked g flow bounds none [] (.block head) arm)
      (others : Bodies g flow id (some arm) rest bodies) :
      Bodies g flow id previous (head :: rest) (⟨head, arm, rest.head?⟩ :: bodies)

/-- The bodies that the code lists are bodies of the switch. -/
theorem bodies_caseBodies (g : Graph) (flow : Flow) (id : BlockId) (previous : Option Arm)
    (heads : List BlockId) :
    Bodies g flow id previous heads (g.caseBodies flow id previous heads) := by
  -- By induction on the heads; a body may be entered from the one before if that runs on into it.
  induction heads generalizing previous with
  | nil => exact .nil
  | cons head rest ih =>
    refine .cons _ (fun x => ?_) (walked_walk _ _ _ _) (ih _)
    simp only [IdSet.mem_ofList, List.mem_cons, Option.mem_toList, Option.bind_eq_some_iff]
    refine or_congr_right ⟨?_, ?_⟩
    · rintro ⟨before, isBefore, found⟩
      split at found
      · next joins => exact ⟨before, isBefore, joins, found⟩
      · cases found
    · rintro ⟨before, isBefore, joins, found⟩
      exact ⟨before, isBefore, by rw [if_pos joins, found]⟩

/-- Every body is walked from its head. -/
theorem Bodies.walked {previous : Option Arm} {heads : List BlockId} {bodies : List CaseBody}
    (isBodies : Bodies g flow id previous heads bodies) :
    ∀ body ∈ bodies, body.head ∈ heads ∧
      ∃ bounds : ArmBounds, Walked g flow bounds none [] (.block body.head) body.arm := by
  -- By induction on the bodies, which are walked one after the other.
  induction isBodies with
  | nil => exact fun body listed => absurd listed List.not_mem_nil
  | cons bounds entry walked others ih =>
    intro body listed
    rcases List.mem_cons.mp listed with rfl | later
    · exact ⟨List.mem_cons_self, bounds, walked⟩
    · exact ⟨List.mem_cons_of_mem _ (ih body later).1, (ih body later).2⟩

/-- The bodies of a switch stand in the order of their heads. -/
theorem Bodies.map_head {previous : Option Arm} {heads : List BlockId} {bodies : List CaseBody}
    (isBodies : Bodies g flow id previous heads bodies) : bodies.map (·.head) = heads := by
  -- By induction on the bodies, each of which has its own head.
  induction isBodies with
  | nil => rfl
  | cons _ _ _ _ ih => rw [List.map_cons, ih]

/-- A body is followed by the next one of those that pass a test, if the head
that follows it passes. -/
theorem Bodies.head?_filter {previous : Option Arm} {heads : List BlockId} {bodies : List CaseBody}
    (isBodies : Bodies g flow id previous heads bodies) (test : BlockId → Bool)
    {before after : List CaseBody} {body : CaseBody}
    (split : bodies.filter (test ·.head) = before ++ body :: after) {head : BlockId}
    (follows : body.following = some head) (passes : test head = true) :
    after.head?.map (·.head) = some head := by
  -- By induction on the bodies, of which those that do not pass drop out of both sides.
  induction isBodies generalizing before with
  | nil =>
    rw [List.filter_nil] at split
    cases before <;> cases split
  | @cons previous first rest arm bodies bounds entry walked others ih =>
    rw [List.filter_cons] at split
    split at split
    · cases before with
      | cons other before => exact ih (List.cons.inj split).2
      | nil =>
        obtain ⟨rfl, isAfter⟩ := List.cons.inj split
        -- The head that follows is the one of the next body, which passes.
        cases others with
        | nil => cases follows
        | cons =>
          cases follows
          rw [← isAfter, List.filter_cons, if_pos passes]
          rfl
    · exact ih split

/-- The cases that are left of a switch: they lead where cases led, or break, and only
those to the join are gone. -/
structure LeftCases (join : Option BlockId) (cases left : List SwitchCase) : Prop where
  origin : ∀ entry ∈ left, entry.target = .exit .switchBreak ∨
    ∃ before ∈ cases, before.target = entry.target
  kept : ∀ entry ∈ cases, (∃ after ∈ left, after.target = entry.target) ∨
    ∃ j, join = some j ∧ entry.target = .block j

/-- Without a join all cases are left. -/
theorem leftCases_self (cases : List SwitchCase) : LeftCases none cases cases :=
  ⟨fun entry listed => .inr ⟨entry, listed, rfl⟩, fun entry listed => .inl ⟨entry, listed, rfl⟩⟩

/-- The cases that are left where bodies join are such cases. -/
theorem leftCases_joinCases (cases : List SwitchCase) (join : BlockId) (keepsDefault : Bool) :
    LeftCases (some join) cases (joinCases cases join keepsDefault) := by
  -- Cases that lead to the join are dropped, but for the default, which leaves the switch then.
  cases keepsDefault with
  | false =>
    simp only [joinCases]
    refine ⟨fun entry listed => .inr ⟨entry, (List.mem_filter.mp listed).1, rfl⟩,
      fun entry listed => ?_⟩
    by_cases same : entry.target = .block join
    · exact .inr ⟨join, rfl, same⟩
    · exact .inl ⟨entry, List.mem_filter.mpr ⟨listed, by simpa using same⟩, rfl⟩
  | true =>
    simp only [joinCases, if_true]
    constructor
    · intro entry listed
      obtain ⟨before, isBefore, rfl⟩ := List.mem_map.mp listed
      split
      · exact .inl rfl
      · exact .inr ⟨before, (List.mem_filter.mp isBefore).1, rfl⟩
    · intro entry listed
      by_cases same : entry.target = .block join
      · exact .inr ⟨join, rfl, same⟩
      · have stays : entry ∈ cases.filter fun entry =>
            !(entry.isDefault && entry.target == .block join) :=
          List.mem_filter.mpr ⟨listed, by simp [same]⟩
        exact .inl ⟨entry, List.mem_map.mpr ⟨entry, stays, if_neg same⟩, rfl⟩

/-- The bodies of a switch that can be nested in it, and where they continue. -/
structure SwitchArms (g : Graph) (flow : Flow) (id : BlockId) (heads : List BlockId)
    (bodies : List CaseBody) (join : Option BlockId) : Prop where
  isHead : ∀ head, head ∈ heads ↔ ∃ i, (g.bare id).edge? (.case i) = some (.block head)
  distinct : heads.Nodup
  isBodies : Bodies g flow id none heads bodies
  isJoin : switchJoin? bodies = some join
  apart : ∀ j, join = some j → j ≠ id ∧ (j ∉ heads ∨ heads.getLast? = some j)
  closed : ∀ body ∈ bodies, some body.head ≠ join → body.isClosed join = true

/-- The heads of the bodies of a switch, in the order of the code. -/
def switchHeads (g : Graph) (id : BlockId) : List BlockId :=
  g.byOffset (IdSet.ofList ((g.block id).cases.filterMap (·.target.block?)))

/-- The bodies of a switch. -/
def switchBodies (g : Graph) (flow : Flow) (id : BlockId) : List CaseBody :=
  g.caseBodies flow id none (g.switchHeads id)

/-- The bodies of a switch begin where its cases lead. -/
theorem mem_switchHeads {head : BlockId} :
    head ∈ g.switchHeads id ↔ ∃ i, (g.bare id).edge? (.case i) = some (.block head) := by
  -- The heads are the blocks among the targets of the cases.
  rw [switchHeads, mem_byOffset, IdSet.mem_ofList, List.mem_filterMap]
  constructor
  · rintro ⟨entry, listed, isBlock⟩
    obtain ⟨i, edge⟩ := @Block.edge?_of_mem_cases (g.bare id) entry listed
    exact ⟨i, edge.trans (congrArg some (Target.block?_eq_some_iff.mp isBlock))⟩
  · rintro ⟨i, edge⟩
    obtain ⟨entry, listed, same⟩ := Block.edge?_case_mem edge
    exact ⟨entry, listed, Target.block?_eq_some_iff.mpr same⟩

/-- The cases that a switch is left with, by the cases
that decide whether the default is dropped. -/
def keptCases (declared : List SwitchCase) (join : Option BlockId) (cases : List SwitchCase) :
    List SwitchCase :=
  join.elim cases fun j => joinCases cases j <|
    ((declared.find? (·.isDefault)).bind (·.target.block?)).all (some · != join)

/-- What a switch becomes whose bodies are nested in it, case by case. -/
theorem nestSwitch_eq (applied : g.nestSwitch flow id = some h) : ∃ join : Option BlockId,
    (g.bare id).type = .raw .switch ∧ id ∉ flow.headers ∧
      SwitchArms g flow id (g.switchHeads id) (g.switchBodies flow id) join ∧
      (g.closeBodies join ((g.switchBodies flow id).filter (some ·.head != join))).update id
        (fun b => { b with
          type := .structured .switch, cases := keptCases (g.block id).cases join b.cases
          next := join.map .block }) = h := by
  simp only [nestSwitch, Option.bind_eq_bind, Option.bind_none] at applied
  -- The code asks in turn for a raw switch, for a join, and for bodies that fit it.
  split at applied
  · cases applied
  next isSwitch =>
  simp only [not_or, Classical.not_not] at isSwitch
  obtain ⟨join, isJoin, applied⟩ := Option.bind_eq_some_iff.mp applied
  split at applied
  · cases applied
  next fits =>
  simp only [Bool.or_eq_true, Bool.not_eq_true', not_or, Bool.not_eq_false] at fits
  refine ⟨join, isSwitch.1, isSwitch.2,
    ⟨?_, nodup_byOffset g _, bodies_caseBodies g flow id none _, isJoin, ?_, ?_⟩,
    Option.some.inj applied⟩
  · exact fun head => mem_switchHeads
  -- The join is no case of the switch, or the last one.
  · rintro j rfl
    have isJoin := fits.1
    simp only [Option.all_some, isSwitchJoin, Bool.and_eq_true, bne_iff_ne, Bool.or_eq_true,
      Bool.not_eq_true', beq_iff_eq] at isJoin
    refine ⟨isJoin.1, isJoin.2.imp_left fun absent listed => ?_⟩
    rw [List.contains_eq_mem, decide_eq_false_iff_not] at absent
    exact absent listed
  · intro body listed other
    exact List.all_eq_true.mp fits.2 body (List.mem_filter.mpr ⟨listed, by simpa using other⟩)

/-- What a switch becomes whose bodies are nested in it. -/
theorem nestSwitch_cases (applied : g.nestSwitch flow id = some h) : ∃ (join : Option BlockId)
    (trim : List SwitchCase → List SwitchCase), (g.bare id).type = .raw .switch ∧
      id ∉ flow.headers ∧ SwitchArms g flow id (g.switchHeads id) (g.switchBodies flow id) join ∧
      (∀ cases, LeftCases join cases (trim cases)) ∧
      (g.closeBodies join ((g.switchBodies flow id).filter (some ·.head != join))).update id
        (fun b => { b with
          type := .structured .switch, cases := trim b.cases, next := join.map .block }) = h := by
  -- Without a common end no case can be left out.
  obtain ⟨join, isSwitch, notHeader, arms, made⟩ := nestSwitch_eq applied
  refine ⟨join, keptCases (g.block id).cases join, isSwitch, notHeader, arms, fun cases => ?_, made⟩
  cases join with
  | none => exact leftCases_self cases
  | some j => exact leftCases_joinCases cases j _

/-- Where the bodies of a switch continue, one of them runs on. -/
theorem switchJoin?_join {bodies : List CaseBody} {join : BlockId}
    (found : switchJoin? bodies = some (some join)) :
    ∃ body ∈ bodies, body.arm.finish = .join join := by
  -- The bodies join at the last one, at a block behind them, or nowhere.
  simp only [switchJoin?] at found
  split at found
  · -- The last body is the join because another one runs on into it.
    obtain ⟨-, runs⟩ := Option.filter_eq_some_iff.mp (Option.some.inj found)
    obtain ⟨body, listed, finish⟩ := List.any_eq_true.mp runs
    exact ⟨body, listed, beq_iff_eq.mp finish⟩
  · -- A block behind the bodies is one that some body runs on into.
    next single =>
    cases found
    have listed : join ∈
        IdSet.ofList ((bodies.filter (!·.fallsThrough)).filterMap (·.arm.finish.join?)) :=
      IdSet.mem_toList.mp (single ▸ List.mem_singleton.mpr rfl)
    rw [IdSet.mem_ofList, List.mem_filterMap] at listed
    obtain ⟨body, isBody, joins⟩ := listed
    exact ⟨body, (List.mem_filter.mp isBody).1, join?_eq_some_iff.mp joins⟩
  · cases found

/-- The edges of a switch whose bodies are nested in it lead where the switch could lead. -/
theorem nestSwitch_walk {heads : List BlockId} {bodies : List CaseBody} {join : Option BlockId}
    {left : List SwitchCase} (shaped : (g.bare id).Shaped)
    (isSwitch : (g.bare id).type = .raw .switch) (arms : SwitchArms g flow id heads bodies join)
    (cases : LeftCases join (g.bare id).cases left) {allow : EdgeFilter} (lenient : allow.Lenient)
    {kind : EdgeKind} {target : BlockId}
    (edge : ({ g.bare id with
        type := .structured .switch, cases := left, next := join.map .block } : Block).edge? kind =
      some (.block target)) : g.Walk allow id target := by
  have own := shaped.mayHave_of_edge isSwitch
  -- An edge of the construct was a case of the switch, or goes where one of the bodies runs on.
  cases kind with
  | next =>
    obtain ⟨j, rfl, same⟩ := Option.map_eq_some_iff.mp edge
    cases same
    -- The body that runs on to the join is entered along a case.
    obtain ⟨body, listed, finish⟩ := switchJoin?_join arms.isJoin
    obtain ⟨isHead, bounds, walked⟩ := arms.isBodies.walked body listed
    obtain ⟨i, edge⟩ := (arms.isHead _).mp isHead
    have first : g.Step allow id body.head := ⟨.case i, isSwitch ▸ lenient.case i, edge⟩
    exact .trans (.single first) (walked.walk_join lenient.next rfl finish)
  | case i =>
    obtain ⟨entry, listed, same⟩ := Block.edge?_case_mem edge
    rcases cases.origin entry listed with isBreak | ⟨before, isBefore, target⟩
    · cases same.symm.trans isBreak
    · obtain ⟨j, edge⟩ := Block.edge?_of_mem_cases isBefore
      exact .single ⟨.case j, isSwitch ▸ lenient.case j,
        edge.trans (congrArg some (target.trans same))⟩
  | branch => cases own .branch edge
  | condition => cases own .condition edge
  | sub1 => cases own .sub1 edge
  | sub2 => cases own .sub2 edge
  | handler i => cases own (.handler i) edge

/-- A body passes settled blocks only, so not the switch, which is not settled yet. -/
theorem SwitchArms.joining {heads : List BlockId} {bodies : List CaseBody} {join : Option BlockId}
    (arms : SwitchArms g flow id heads bodies join) (isSwitch : (g.bare id).type = .raw .switch)
    {body : CaseBody} (listed : body ∈ bodies) {last : BlockId}
    (joins : joining? body.arm = some last) : last < g.size ∧ last ≠ id := by
  -- The last block of a walked body is settled.
  obtain ⟨-, bounds, walked⟩ := arms.isBodies.walked body listed
  obtain ⟨inside, settled, -⟩ := walked.joining joins
  refine ⟨inside, ?_⟩
  rintro rfl
  simp [Block.isSettled, isSwitch] at settled

/-- Nesting the bodies of a switch changes the switch and the ends of its bodies alone. -/
theorem nested_nestSwitch (sound : g.Sound) (reached : g.Reached id) {heads : List BlockId}
    {bodies : List CaseBody} {join : Option BlockId} {trim : List SwitchCase → List SwitchCase}
    (isSwitch : (g.bare id).type = .raw .switch) (arms : SwitchArms g flow id heads bodies join)
    (cases : ∀ cases, LeftCases join cases (trim cases)) :
    Nested (fun way => way = .bodyEnd ∨ way = .switchBreak)
      ((bodies.filter (some ·.head != join)).map (·.arm)) g id
      { g.bare id with
        type := .structured .switch, cases := trim (g.bare id).cases, next := join.map .block }
      ((g.closeBodies join (bodies.filter (some ·.head != join))).update id fun b => { b with
        type := .structured .switch, cases := trim b.cases, next := join.map .block }) := by
  have known := reached.lt_size sound.toLinked
  have notStart := sound.toLinked.ne_start_of_raw isSwitch
  have lasts : ∀ body ∈ bodies.filter (some ·.head != join), ∀ last, joining? body.arm = some last →
      last < g.size ∧ last ≠ id :=
    fun body listed last => arms.joining isSwitch (List.mem_filter.mp listed).1
  -- The bodies are ended first, and none of them ends at the switch itself.
  refine (ended_closeBodies fun body listed last joins => (lasts body listed last joins).1).nested
    sound.toLinked known notStart ?_
    (fun b => { b with
      type := .structured .switch, cases := trim b.cases, next := join.map .block })
    (fun _ => rfl) (fun _ => rfl) ?_
  · intro arm listed joins
    obtain ⟨body, isBody, rfl⟩ := List.mem_map.mp listed
    exact (lasts body isBody id joins).2 rfl
  · intro kind target edge
    exact sound.toLinked.behind_of_walk known notStart
      (nestSwitch_walk (sound.shaped reached) isSwitch arms (cases _) EdgeFilter.all_lenient edge)

/-- Nesting the bodies of a switch keeps walks and shapes. -/
theorem rewrite_nestSwitch (sound : g.Sound) (reached : g.Reached id)
    (applied : g.nestSwitch flow id = some h) : Rewrite g h (g.standsFor id) := by
  -- A case walks to the head of its body, and what the switch goes on with comes at the end
  -- of a body or is a case.
  obtain ⟨join, trim, isSwitch, -, arms, cases, rfl⟩ := nestSwitch_cases applied
  refine (nested_nestSwitch sound reached isSwitch arms cases).rewrite sound
    (reached.lt_size sound.toLinked) ?_ ?_ ?_ rfl
  · intro arm listed last joins
    obtain ⟨body, isBody, rfl⟩ := List.mem_map.mp listed
    obtain ⟨-, bounds, walked⟩ := arms.isBodies.walked body (List.mem_filter.mp isBody).1
    exact (walked.joining joins).2.2
  · intro allow lenient kind target _ edge
    exact nestSwitch_walk (sound.shaped reached) isSwitch arms (cases _) lenient edge
  · intro _
    refine .ofChildren rfl rfl (fun isOpen => ?_) (fun has => ?_)
      fun kind required => absurd required List.not_mem_nil
    · simp [Block.isOpenCondition, BlockType.isCondition] at isOpen
    · simp [(sound.shaped reached).branch_eq_none isSwitch rfl] at has

/-- What a switch becomes that jumps to its cases. -/
theorem jumpSwitch_cases (applied : g.jumpSwitch flow id = some h) :
    (g.bare id).type = .raw .switch ∧
      (jumpAll .goto (g.block id).finish ((g.bare id).cases.map (·.target)) g).2.update id (fun b =>
        { b with
          type := .structured .switch, next := none
          cases := (g.bare id).cases.zipWith (fun entry target => { entry with target })
            (jumpAll .goto (g.block id).finish ((g.bare id).cases.map (·.target)) g).1 }) = h := by
  -- The rule applies to any raw switch.
  simp only [jumpSwitch] at applied
  split at applied
  · next isSwitch =>
    rw [jumpCases_eq] at applied
    exact ⟨isSwitch, Option.some.inj applied⟩
  · cases applied

/-- A switch leads to the blocks of its cases. -/
theorem leads_of_mem_cases {v : BlockId} (listed : .block v ∈ (g.bare id).cases.map (·.target)) :
    g.Leads id v := by
  -- A case is an edge of its own.
  obtain ⟨entry, isCase, same⟩ := List.mem_map.mp listed
  obtain ⟨i, edge⟩ := Block.edge?_of_mem_cases isCase
  exact ⟨.case i, same ▸ edge⟩

/-- The literal jumps to the cases of a switch. -/
theorem jumps_cases (linked : g.Linked) (id : BlockId) (offset : Offset) :
    Jumps .goto offset ((g.bare id).cases.map (·.target))
      (jumpAll .goto offset ((g.bare id).cases.map (·.target)) g).1 g
      (jumpAll .goto offset ((g.bare id).cases.map (·.target)) g).2 :=
  jumps_jumpAll .goto offset linked fun _ listed => linked.behind (leads_of_mem_cases listed)

/-- A switch that jumps to its cases has no other edges than those to the jumps. -/
theorem jumpSwitch_edges {results : List Target} (shaped : (g.bare id).Shaped)
    (isSwitch : (g.bare id).type = .raw .switch) (kind : EdgeKind) (target : Target)
    (edge : ({ g.bare id with
        type := .structured .switch, next := none
        cases := (g.bare id).cases.zipWith (fun entry target => { entry with target }) results } :
      Block).edge? kind = some target) : target ∈ results := by
  have own := shaped.mayHave_of_edge isSwitch
  -- A raw switch has no edges but its cases, and those now lead to the jumps.
  cases kind with
  | case i =>
    obtain ⟨entry, listed, rfl⟩ := Block.edge?_case_mem edge
    obtain ⟨j, bound, same⟩ := List.mem_iff_getElem.mp listed
    rw [List.getElem_zipWith] at same
    subst same
    exact List.getElem_mem _
  | next => cases edge
  | branch => cases own .branch edge
  | condition => cases own .condition edge
  | sub1 => cases own .sub1 edge
  | sub2 => cases own .sub2 edge
  | handler i => cases own (.handler i) edge

/-- Jumping to the cases of a switch keeps walks and shapes. -/
theorem rewrite_jumpSwitch (sound : g.Sound) (reached : g.Reached id)
    (applied : g.jumpSwitch flow id = some h) : Rewrite g h (g.standsFor id) := by
  -- The switch leads to the jumps alone, and those to where its cases led.
  obtain ⟨isSwitch, rfl⟩ := jumpSwitch_cases applied
  refine (jumps_cases sound.toLinked id _).rewrite rfl sound (reached.lt_size sound.toLinked)
    (sound.toLinked.ne_start_of_raw isSwitch) _ (fun _ => rfl) (fun _ => rfl)
    (fun _ => leads_of_mem_cases) ?_ ?_ rfl
  · exact jumpSwitch_edges (sound.shaped reached) isSwitch
  · intro _
    refine .ofChildren rfl rfl (fun isOpen => ?_) (fun has => ?_)
      fun kind required => absurd required List.not_mem_nil
    · simp [Block.isOpenCondition, BlockType.isCondition] at isOpen
    · simp [(sound.shaped reached).branch_eq_none isSwitch rfl] at has

end Unjump.Graph
