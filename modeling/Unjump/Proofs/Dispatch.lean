import Mathlib.Data.List.Nodup
import Unjump.Proofs.Rewrite.Switch

/-!
What nesting the bodies of a switch keeps: where the switch goes for a value, and
where its bodies go on.

The cases that led to the block after the switch are gone or break to it. A body that ran on ends
with a break, which leads to the block after the switch, or with the end of its body, which leads to
the body that follows in the code.
-/

namespace Unjump

/-- The case for a value: the one with that key, or else the default. -/
def selectedCase? (cases : List SwitchCase) (value : Int32) : Option SwitchCase :=
  (cases.find? fun entry => !entry.isDefault && entry.key == value).or (cases.find? (·.isDefault))

/-- Where cases lead for a value. -/
def selected? (cases : List SwitchCase) (value : Int32) : Option Target :=
  (selectedCase? cases value).map (·.target)

/-- Where a structured switch goes on for a value: where its cases lead, and to the block after it
if they break or no case is selected. -/
def Block.dispatch (b : Block) (value : Int32) : Option Target :=
  match selected? b.cases value with
  | none | some (.exit .switchBreak) => b.next
  | some target => some target

/-- Where the end of a body leads: a break to the block after the switch, the end of the body to the
body that follows, or to the block after the switch if none does. -/
def Target.resumed (next : Option Target) (following : List CaseBody) : Target → Option Target
  | .exit .switchBreak => next
  | .exit .bodyEnd => (following.head?.map (.block ·.head)).or next
  | target => some target

/-- The cases of a declaration: every key stands once, one case is the default,
and none breaks out of the switch. -/
structure Declared (cases : List SwitchCase) : Prop where
  distinct : ((cases.filter (!·.isDefault)).map (·.key)).Nodup
  single : cases.countP (·.isDefault) = 1
  unbroken : ∀ entry ∈ cases, entry.target ≠ .exit .switchBreak

/-- Where only one item passes a test, dropping items from a list drops that item
or does not matter to the test. -/
theorem find?_filter_of_unique {items : List α} {test keeps : α → Bool}
    (unique : ∀ a ∈ items, ∀ b ∈ items, test a = true → test b = true → a = b) :
    (items.filter keeps).find? test = (items.find? test).filter keeps := by
  -- What the search finds in the whole list decides.
  cases found : items.find? test with
  | none =>
    have fails := List.find?_eq_none.mp found
    exact List.find?_eq_none.mpr fun item listed => fails item (List.mem_filter.mp listed).1
  | some item =>
    have passes := List.find?_some found
    have listed := List.mem_of_find?_eq_some found
    have only : ∀ other ∈ items.filter keeps, test other = true → other = item :=
      fun other isOther passesToo =>
        unique other (List.mem_filter.mp isOther).1 item listed passesToo passes
    -- The one item that passes is still there, or nothing else takes its place.
    cases isKept : keeps item with
    | true =>
      have isIn : item ∈ items.filter keeps := List.mem_filter.mpr ⟨listed, isKept⟩
      obtain ⟨other, foundToo⟩ :=
        Option.isSome_iff_exists.mp (List.find?_isSome.mpr ⟨item, isIn, passes⟩)
      rw [foundToo, only other (List.mem_of_find?_eq_some foundToo) (List.find?_some foundToo),
        Option.filter_some, if_pos isKept]
    | false =>
      rw [Option.filter_some, isKept, if_neg Bool.false_ne_true, List.find?_eq_none]
      intro other isOther passesToo
      have same := only other isOther passesToo
      exact Bool.false_ne_true (isKept.symm.trans (same ▸ (List.mem_filter.mp isOther).2))

namespace Declared

variable {cases : List SwitchCase} (declared : Declared cases)

include declared

/-- Every value has at most one case of its own. -/
theorem unique_key (value : Int32) :
    ∀ a ∈ cases, ∀ b ∈ cases, (!a.isDefault && a.key == value) = true →
    (!b.isDefault && b.key == value) = true → a = b := by
  -- Cases with a key are told apart by it.
  intro a isA b isB hasKey hasKeyToo
  simp only [Bool.and_eq_true, beq_iff_eq] at hasKey hasKeyToo
  have inside : ∀ {entry}, entry ∈ cases → (!entry.isDefault) = true →
      entry ∈ cases.filter (!·.isDefault) :=
    fun listed notDefault => List.mem_filter.mpr ⟨listed, notDefault⟩
  exact List.inj_on_of_nodup_map declared.distinct (inside isA hasKey.1) (inside isB hasKeyToo.1)
    (hasKey.2.trans hasKeyToo.2.symm)

/-- There is one default. -/
theorem unique_default :
    ∀ a ∈ cases, ∀ b ∈ cases, a.isDefault = true → b.isDefault = true → a = b := by
  intro a isA b isB isDefault isDefaultToo
  -- All defaults are the one that is counted.
  obtain ⟨entry, only⟩ :=
    List.length_eq_one_iff.mp (List.countP_eq_length_filter.symm.trans declared.single)
  have same : ∀ {other}, other ∈ cases → other.isDefault = true → other = entry :=
    fun listed isDefault => List.mem_singleton.mp (only ▸ List.mem_filter.mpr ⟨listed, isDefault⟩)
  rw [same isA isDefault, same isB isDefaultToo]

/-- There is a default. -/
theorem exists_default : ∃ entry, cases.find? (·.isDefault) = some entry := by
  -- The default is counted.
  refine Option.isSome_iff_exists.mp (List.find?_isSome.mpr ?_)
  exact List.countP_pos_iff.mp (declared.single ▸ Nat.one_pos)

/-- A case is selected for every value, and it does not break. -/
theorem exists_selected (value : Int32) : ∃ entry ∈ cases, selectedCase? cases value = some entry ∧
    entry.target ≠ .exit .switchBreak := by
  obtain ⟨default, isDefault⟩ := declared.exists_default
  have listed : ∀ {entry}, selectedCase? cases value = some entry → entry ∈ cases := by
    intro entry selected
    rcases Option.or_eq_some_iff.mp selected with own | ⟨-, isDefault⟩
    · exact List.mem_of_find?_eq_some own
    · exact List.mem_of_find?_eq_some isDefault
  -- Without a case of its own, a value selects the default.
  obtain ⟨entry, selected⟩ : ∃ entry, selectedCase? cases value = some entry := by
    rw [selectedCase?, isDefault]
    cases cases.find? fun entry => !entry.isDefault && entry.key == value <;> exact ⟨_, rfl⟩
  exact ⟨entry, listed selected, selected, declared.unbroken entry (listed selected)⟩

/-- Dropping cases drops the selected one, where the default takes its place, or does not matter. -/
theorem selectedCase?_filter (keeps : SwitchCase → Bool) (value : Int32) :
    selectedCase? (cases.filter keeps) value =
    ((cases.find? fun entry => !entry.isDefault && entry.key == value).filter keeps).or
      ((cases.find? (·.isDefault)).filter keeps) := by
  -- Keys and the default each find one case at most.
  rw [selectedCase?, find?_filter_of_unique (declared.unique_key value),
    find?_filter_of_unique declared.unique_default]

end Declared

/-- Cases that lead elsewhere are selected as before. -/
theorem selectedCase?_map {change : SwitchCase → SwitchCase}
    (key : ∀ entry, (change entry).key = entry.key)
    (isDefault : ∀ entry, (change entry).isDefault = entry.isDefault) (cases : List SwitchCase)
    (value : Int32) :
    selectedCase? (cases.map change) value = (selectedCase? cases value).map change := by
  -- Neither the key nor the default has changed.
  simp only [selectedCase?, List.find?_map, Function.comp_def, key, isDefault, Option.map_or]

/-- A switch goes where its cases lead, unless they break. -/
theorem Block.dispatch_eq {b : Block} {value : Int32} {entry : SwitchCase}
    (selected : selectedCase? b.cases value = some entry) :
    b.dispatch value = if entry.target = .exit .switchBreak then b.next else some entry.target := by
  -- A case is selected, and it breaks or does not.
  rw [dispatch, selected?, selected]
  split
  · next none => cases none
  · next isBreak => rw [if_pos (Option.some.inj isBreak)]
  · next target notBreak same =>
    cases same
    rw [if_neg notBreak]

/-- A switch without a case for a value goes to the block after it. -/
theorem Block.dispatch_eq_next {b : Block} {value : Int32}
    (none : selectedCase? b.cases value = none) : b.dispatch value = b.next := by
  -- No case is selected.
  rw [dispatch, selected?, none]
  rfl

namespace Declared

variable {cases : List SwitchCase} (declared : Declared cases) {b : Block} {default : SwitchCase}
    (isDefault : cases.find? (·.isDefault) = some default) {join : BlockId}
    (next : b.next = some (.block join))

include declared isDefault next

/-- Where the default leads to the block after a switch, the cases to it can be dropped. -/
theorem dispatch_dropped (toJoin : default.target = .block join)
    (left : b.cases = cases.filter (·.target != .block join)) (value : Int32) :
    b.dispatch value = selected? cases value := by
  have dropped : (some default).filter (·.target != .block join) = none := by simp [toJoin]
  have kept := declared.selectedCase?_filter (·.target != .block join) value
  rw [isDefault, dropped, Option.or_none, ← left] at kept
  rw [selected?, selectedCase?, isDefault]
  -- Without a case of its own, a value led to the join by default, and runs on to it now.
  cases own : cases.find? (fun entry => !entry.isDefault && entry.key == value) with
  | none =>
    rw [own] at kept
    rw [Block.dispatch_eq_next kept, next]
    exact congrArg some toJoin.symm
  | some entry =>
    rw [own] at kept
    by_cases same : entry.target = .block join
    · -- The case is dropped, and no default is there to take its place.
      have none : (some entry).filter (·.target != .block join) = none := by simp [same]
      rw [Block.dispatch_eq_next (kept.trans none), next]
      exact congrArg some same.symm
    · have stays : (some entry).filter (·.target != .block join) = some entry := by simp [same]
      rw [Block.dispatch_eq (kept.trans stays),
        if_neg (declared.unbroken entry (List.mem_of_find?_eq_some own))]
      rfl

/-- Where the default does not lead to the block after a switch, the cases that do can break. -/
theorem dispatch_broken (notJoin : default.target ≠ .block join)
    (left : b.cases = (cases.filter fun entry =>
      !(entry.isDefault && entry.target == .block join)).map fun entry =>
        if entry.target = .block join then { entry with target := .exit .switchBreak } else entry)
    (value : Int32) : b.dispatch value = selected? cases value := by
  obtain ⟨entry, listed, selected, notBreak⟩ := declared.exists_selected value
  -- The default is kept, and cases with a key are kept anyway.
  have whole :
      selectedCase? (cases.filter fun entry => !(entry.isDefault && entry.target == .block join))
      value = some entry := by
    rw [declared.selectedCase?_filter, ← selected, selectedCase?, isDefault, Option.filter_some,
      if_pos (by simp [notJoin])]
    cases own : cases.find? (fun entry => !entry.isDefault && entry.key == value) with
    | none => rfl
    | some other =>
      have notDefault := List.find?_some own
      rw [Bool.and_eq_true, Bool.not_eq_true'] at notDefault
      rw [Option.filter_some, if_pos (by simp [notDefault.1])]
  have selectedLeft := congrArg (selectedCase? · value) left
  rw [selectedCase?_map (fun entry => by split <;> rfl) (fun entry => by split <;> rfl), whole,
    Option.map_some] at selectedLeft
  rw [Block.dispatch_eq selectedLeft, selected?, selected, Option.map_some, next]
  by_cases same : entry.target = .block join
  · simp [same]
  · simp [same, notBreak]

omit isDefault next in
/-- A switch goes where its declaration did, whatever the block after it. -/
theorem dispatch_keptCases {join : Option BlockId}
    (left : b.cases = Graph.keptCases cases join cases) (next : b.next = join.map .block)
    (value : Int32) : b.dispatch value = selected? cases value := by
  obtain ⟨default, isDefault⟩ := declared.exists_default
  rw [Graph.keptCases, isDefault, Option.bind_some] at left
  -- Without a join all cases are kept; else it matters whether the default leads there.
  cases join with
  | none =>
    have same : b.cases = cases := left
    obtain ⟨entry, listed, selected, notBreak⟩ := declared.exists_selected value
    rw [Block.dispatch_eq (same ▸ selected), if_neg notBreak, selected?, selected, Option.map_some]
  | some j =>
    by_cases toJoin : default.target = .block j
    · refine declared.dispatch_dropped isDefault next toJoin ?_ value
      rw [left]
      simp [joinCases, toJoin, Target.block?]
    · refine declared.dispatch_broken isDefault next toJoin ?_ value
      have keeps : default.target.block?.all (some · != some j) = true := by
        cases way : default.target with
        | exit way => rfl
        | block t => simpa [way, Target.block?] using toJoin
      rw [left, keeps]
      rfl

end Declared

namespace Graph

variable {g h : Graph} {flow : Flow} {id : BlockId}

namespace SwitchArms

variable {heads : List BlockId} {bodies : List CaseBody} {join : Option BlockId}
    (arms : SwitchArms g flow id heads bodies join)

include arms

/-- A switch enters the heads of its bodies. -/
theorem mem_straightPreds (mirrored : g.Mirrored) (isSwitch : (g.bare id).type = .raw .switch)
    {head : BlockId} (isHead : head ∈ heads) : id ∈ g.straightPreds head := by
  -- A case is an edge that control takes, and a switch is no literal jump.
  obtain ⟨i, edge⟩ := (arms.isHead head).mp isHead
  refine IdSet.mem_filter.mpr ⟨(mem_flowPreds mirrored).mpr ⟨.case i, ?_, edge⟩, ?_⟩
  · simp [Block.flows, isSwitch]
  · rw [show (g.block id).type = .raw .switch from isSwitch]
    rfl

/-- The bodies of a switch do not share blocks. -/
theorem arms_apart (mirrored : g.Mirrored) (isSwitch : (g.bare id).type = .raw .switch)
    {first second : CaseBody} (isFirst : first ∈ bodies) (isSecond : second ∈ bodies)
    (differ : first.head ≠ second.head) :
    ∀ block ∈ first.arm.blocks, block ∉ second.arm.blocks := by
  obtain ⟨headFirst, _, walkedFirst⟩ := arms.isBodies.walked first isFirst
  obtain ⟨headSecond, _, walkedSecond⟩ := arms.isBodies.walked second isSecond
  have unsettled : (g.bare id).isSettled = false := by simp [Block.isSettled, isSwitch]
  -- A block of the second body is entered from the switch or from that body,
  -- and only over its head from outside.
  refine walkedFirst.apart unsettled (fun block listed => ?_) (fun _ head same listed => ?_)
    fun _ none => by cases none
  · rcases walkedSecond.entered block listed with isHead | inside
    · cases isHead
      exact .inl (arms.mem_straightPreds mirrored isSwitch headSecond)
    · exact .inr inside
  · cases same
    rcases walkedSecond.entered first.head listed with same | ⟨before, inside, only⟩
    · exact differ (Target.block.inj same).symm
    · -- The switch enters the head and so would be part of the other body.
      have enters := arms.mem_straightPreds mirrored isSwitch headFirst
      rw [only] at enters
      have same := (IdSet.mem_insert.mp enters).resolve_left (IdSet.not_mem_empty _)
      obtain ⟨-, settled, -⟩ := walkedSecond.settled id (same ▸ inside)
      exact Bool.false_ne_true (unsettled.symm.trans settled)

/-- No two bodies of a switch run on from the same block. -/
theorem joining?_ne (mirrored : g.Mirrored) (isSwitch : (g.bare id).type = .raw .switch)
    {test : CaseBody → Bool} {before after : List CaseBody} {body : CaseBody}
    (split : bodies.filter test = before ++ body :: after) {last : BlockId}
    (joins : joining? body.arm = some last) :
    ∀ other ∈ before ++ after, joining? other.arm ≠ some last := by
  intro other isOther joinsToo
  -- The heads of the bodies differ.
  have distinct : ((bodies.filter test).map (·.head)).Nodup := by
    refine .sublist (List.filter_sublist.map _) ?_
    rw [arms.isBodies.map_head]
    exact arms.distinct
  rw [split, List.map_append, List.map_cons, List.nodup_middle, ← List.map_append, List.nodup_cons]
    at distinct
  have differ : other.head ≠ body.head :=
    fun same => distinct.1 (same ▸ List.mem_map_of_mem isOther)
  have listed : ∀ member ∈ before ++ body :: after, member ∈ bodies := fun member isMember =>
    (List.mem_filter.mp (split ▸ isMember)).1
  have isBody : body ∈ bodies := listed body (List.mem_append_right _ List.mem_cons_self)
  have isOtherBody : other ∈ bodies := by
    refine listed other (List.mem_append.mpr ?_)
    exact (List.mem_append.mp isOther).imp_right (List.mem_cons_of_mem _)
  -- The last block would belong to both bodies.
  exact arms.arms_apart mirrored isSwitch isOtherBody isBody differ last
    (List.mem_of_getLast? (joining?_eq_some joinsToo).1)
    (List.mem_of_getLast? (joining?_eq_some joins).1)

/-- The way in which a body of a switch is ended leads to where it ran on. -/
theorem resumed {before after : List CaseBody} {body : CaseBody}
    (split : bodies.filter (some ·.head != join) = before ++ body :: after) {target : BlockId}
    (finish : body.arm.finish = .join target) :
    Target.resumed (join.map .block) after
      (if body.arm.finish.join? == join && !after.isEmpty then .exit .switchBreak else .bodyEnd) =
        some (.block target) := by
  -- The body is one of those that are nested.
  obtain ⟨listed, notJoin⟩ :=
    List.mem_filter.mp (split ▸ List.mem_append_right before (List.mem_cons_self (l := after)))
  by_cases toJoin : join = some target
  · -- It breaks to the join, or ends the last body, after which the join comes too.
    cases after with
    | nil => simp [toJoin, Target.bodyEnd, Target.resumed]
    | cons => simp [toJoin, finish, ArmEnd.join?, Target.resumed]
  · -- It falls through into the body that follows, which is nested as well.
    have fits := arms.closed body listed (by simpa using notJoin)
    have differ : (some target == join) = false := by simpa using Ne.symm toJoin
    simp only [CaseBody.isClosed, finish, ArmEnd.isExit, ArmEnd.join?, differ, Option.isNone_some,
      Bool.false_or, Bool.and_eq_true, CaseBody.fallsThrough, Option.any_eq_true, beq_iff_eq,
      ArmEnd.join.injEq] at fits
    obtain ⟨-, head, follows, rfl⟩ := fits
    have following :=
      arms.isBodies.head?_filter (some · != join) split follows (by simpa using Ne.symm toJoin)
    obtain ⟨body, isHead, same⟩ := Option.map_eq_some_iff.mp following
    simp [finish, ArmEnd.join?, differ, Target.bodyEnd, Target.resumed, isHead, same]

end SwitchArms

/-- The bodies nested in a switch, in the order of the code: all but the one
that the switch goes on with. -/
def nestedBodies (g : Graph) (flow : Flow) (id : BlockId) (h : Graph) : List CaseBody :=
  (g.switchBodies flow id).filter fun body => (h.block id).next != some (.block body.head)

/-- What nesting the bodies of a switch leaves of every block. -/
theorem nestSwitch_blocks (applied : g.nestSwitch flow id = some h) : ∃ join : Option BlockId,
    (g.bare id).type = .raw .switch ∧
      SwitchArms g flow id (g.switchHeads id) (g.switchBodies flow id) join ∧
      g.nestedBodies flow id h = (g.switchBodies flow id).filter (some ·.head != join) ∧
      (h.block id).cases = keptCases (g.block id).cases join (g.block id).cases ∧
      (h.block id).next = join.map .block ∧
      (∀ body ∈ g.nestedBodies flow id h, ∀ last, joining? body.arm = some last →
        last < g.size ∧ last ≠ id) ∧
      ∀ u ≠ id, h.bare u = (g.closeBodies join (g.nestedBodies flow id h)).bare u := by
  -- The bodies are ended first, and then the switch is changed.
  obtain ⟨join, isSwitch, -, arms, made⟩ := nestSwitch_eq applied
  let kept := (g.switchBodies flow id).filter (some ·.head != join)
  have lasts : ∀ body ∈ kept, ∀ last, joining? body.arm = some last → last < g.size ∧ last ≠ id :=
    fun body listed last => arms.joining isSwitch (List.mem_filter.mp listed).1
  have ended : Ended _ _ g (g.closeBodies join kept) :=
    ended_closeBodies fun body listed last joins => (lasts body listed last joins).1
  have known : id < (g.closeBodies join kept).size := ended.size ▸ lt_size_of_raw isSwitch
  -- The switch itself is not the last block of a body, so that ending the bodies leaves it alone.
  have untouched : (g.closeBodies join kept).bare id = g.bare id := by
    refine (ended.blocks id).resolve_right ?_
    rintro ⟨⟨arm, listed, joins⟩, -⟩
    obtain ⟨body, isBody, rfl⟩ := List.mem_map.mp listed
    exact (lasts body isBody id joins).2 rfl
  have blocks := bare_update (fun b : Block => { b with
    type := .structured .switch, cases := keptCases (g.block id).cases join b.cases,
    next := join.map .block }) known fun _ => rfl
  rw [made] at blocks
  have own := (blocks id).trans (if_pos rfl)
  rw [untouched] at own
  have next : (h.block id).next = join.map .block := congrArg Block.next own
  have nested : g.nestedBodies flow id h = kept := by
    refine List.filter_congr fun body _ => ?_
    rw [next]
    cases join with
    | none => rfl
    | some j =>
      rw [Bool.eq_iff_iff, bne_iff_ne, bne_iff_ne, Option.map_some, ne_eq, ne_eq, Option.some_inj,
        Option.some_inj, Target.block.injEq, eq_comm]
  rw [nested]
  exact ⟨join, isSwitch, arms, rfl, congrArg Block.cases own, next, lasts, fun u other =>
    (blocks u).trans (if_neg other)⟩

/-- A body that ran on into a block still leads there. -/
theorem resumed_nestSwitch (mirrored : g.Mirrored) (applied : g.nestSwitch flow id = some h)
    {before after : List CaseBody} {body : CaseBody}
    (split : g.nestedBodies flow id h = before ++ body :: after) {last target : BlockId}
    (ends : body.arm.last? = some last) (finish : body.arm.finish = .join target) :
    (g.block last).next = some (.block target) ∧
      (h.block last).next.bind (·.resumed (h.block id).next after) = some (.block target) := by
  obtain ⟨join, isSwitch, arms, nested, -, next, lasts, blocks⟩ := nestSwitch_blocks applied
  have isBody : body ∈ g.nestedBodies flow id h :=
    split ▸ List.mem_append_right _ List.mem_cons_self
  obtain ⟨-, bounds, walked⟩ := arms.isBodies.walked body (List.mem_filter.mp isBody).1
  have joins : joining? body.arm = some last := by
    simp [joining?, finish, ArmEnd.isExit, ArmEnd.join?, ends]
  -- Closing the bodies has replaced this edge by a way out, which reads as the edge did.
  refine ⟨(walked.joins finish ends).1, ?_⟩
  have closed := blocks last (lasts body isBody last joins).2
  rw [split, bare_closeBodies (split ▸ fun body listed last joins =>
    (lasts body listed last joins).1) joins
    (arms.joining?_ne mirrored isSwitch split joins)] at closed
  have way : (h.block last).next = _ := (congrArg Block.next closed : (h.bare last).next = _)
  rw [way, Option.bind_some, next]
  exact arms.resumed (nested ▸ split) finish

/-- Beside the switch, only the last blocks of bodies that ran on lead elsewhere. -/
theorem edge?_nestSwitch (applied : g.nestSwitch flow id = some h) {u : BlockId} (other : u ≠ id)
    (kind : EdgeKind) :
    (h.block u).edge? kind = (g.block u).edge? kind ∨
      kind = .next ∧ ∃ body ∈ g.nestedBodies flow id h,
      body.arm.last? = some u ∧ ∃ target, body.arm.finish = .join target := by
  -- The edges of the rest change only where a body is closed, which sets the next block alone.
  obtain ⟨join, -, -, -, -, -, lasts, blocks⟩ := nestSwitch_blocks applied
  have ended : Ended _ _ g (g.closeBodies join (g.nestedBodies flow id h)) :=
    ended_closeBodies fun body listed last joins => (lasts body listed last joins).1
  have edge : (h.block u).edge? kind =
      ((g.closeBodies join (g.nestedBodies flow id h)).bare u).edge? kind :=
    congrArg (·.edge? kind) (blocks u other)
  rw [edge]
  rcases ended.blocks u with same | ⟨⟨arm, listed, joins⟩, way, -, same⟩
  · exact .inl (congrArg (·.edge? kind) same)
  · obtain ⟨body, isBody, rfl⟩ := List.mem_map.mp listed
    by_cases isNext : kind = .next
    · exact .inr ⟨isNext, body, isBody, joining?_eq_some joins⟩
    · rw [same]
      refine .inl ?_
      cases kind <;> first | rfl | exact absurd rfl isNext

/-- The bodies of a switch stand in the order of the code. -/
theorem pairwise_nestedBodies (g : Graph) (flow : Flow) (id : BlockId) (h : Graph) :
    (g.nestedBodies flow id h).Pairwise fun first second =>
      (g.block first.head).start ≤ (g.block second.head).start := by
  -- The heads are sorted by their starts, and the bodies are a part of them in that order.
  have sorted : (g.switchHeads id).Pairwise fun a b => (g.block a).start ≤ (g.block b).start := by
    refine (g.pairwise_byOffset _).imp fun {a b} ordered => ?_
    exact ordered.elim UInt32.le_of_lt fun both => UInt32.le_of_eq both.1
  rw [← (bodies_caseBodies g flow id none (g.switchHeads id)).map_head, List.pairwise_map] at sorted
  exact sorted.filter _

/--
Nesting the bodies of a switch keeps where it goes and where its bodies go on.

For every value the switch goes where its declaration went. The bodies stand in the order of the
code, and one that ran on into a block still leads there, read as a break or the end of a body.
Nothing else leads elsewhere.
-/
theorem nestSwitch_keeps_dispatch (mirrored : g.Mirrored) (declared : Declared (g.block id).cases)
    (applied : g.nestSwitch flow id = some h) :
    (∀ value, (h.block id).dispatch value = selected? (g.block id).cases value) ∧
    (g.nestedBodies flow id h).Pairwise
      (fun first second => (g.block first.head).start ≤ (g.block second.head).start) ∧
    (∀ before body after, g.nestedBodies flow id h = before ++ body :: after → ∀ last target,
      body.arm.last? = some last → body.arm.finish = .join target →
        (g.block last).next = some (.block target) ∧
        (h.block last).next.bind (·.resumed (h.block id).next after) = some (.block target)) ∧
    ∀ u ≠ id, ∀ kind, (h.block u).edge? kind = (g.block u).edge? kind ∨
      kind = .next ∧ ∃ body ∈ g.nestedBodies flow id h, body.arm.last? = some u ∧
      ∃ target, body.arm.finish = .join target := by
  -- The switch itself, the order of its bodies, the ends of the bodies, and the other blocks.
  refine ⟨?_, pairwise_nestedBodies g flow id h, ?_, ?_⟩
  · obtain ⟨join, -, -, -, left, next, -, -⟩ := nestSwitch_blocks applied
    exact declared.dispatch_keptCases left next
  · intro before body after split last target ends finish
    exact resumed_nestSwitch mirrored applied split ends finish
  · exact fun u other kind => edge?_nestSwitch applied other kind

/-- A switch whose first body goes on with block 5, where the value 2 leads too, and whose second
body falls through into the third, which is the default. -/
def fallingThrough : Graph :=
  relink ⟨#[{ blankBlock with next := some (.block 1) },
    { type := .raw .switch, start := 0, finish := 4
      cases := [⟨0, false, .block 2⟩, ⟨1, false, .block 3⟩, ⟨2, false, .block 5⟩,
        ⟨0, true, .block 4⟩] },
    { type := .structured .statements, start := 4, finish := 6, next := some (.block 5) },
    { type := .structured .statements, start := 6, finish := 8, next := some (.block 4) },
    { type := .structured .statements, start := 8, finish := 10, next := some (.block 5) },
    { type := .structured .returnVoid, start := 10, finish := 11 }]⟩

/-- The value 2 breaks, the second body ends and the first one breaks, all
with the same meaning as before. -/
theorem fallingThrough_keeps_dispatch :
    fallingThrough.Mirrored ∧ Declared (fallingThrough.block 1).cases ∧
    ∃ h, fallingThrough.nestSwitch (Flow.ofGraph fallingThrough) 1 = some h ∧
      (h.block 1).dispatch 2 = some (.block 5) ∧ (h.block 1).dispatch 7 = some (.block 4) ∧
      (h.block 2).next = some (.exit .switchBreak) ∧ (h.block 3).next = some .bodyEnd ∧
      (h.block 2).next.bind
        (·.resumed (h.block 1).next [⟨3, ⟨[3], .join 4⟩, some 4⟩, ⟨4, ⟨[4], .join 5⟩, some 5⟩]) =
        some (.block 5) ∧
      (h.block 3).next.bind (·.resumed (h.block 1).next [⟨4, ⟨[4], .join 5⟩, some 5⟩]) =
        some (.block 4) := by
  -- The bodies are evaluated, and the theorem says what their ends mean.
  have mirrored : fallingThrough.Mirrored :=
    mirrored_relink (bounded_of_targets (by decide +kernel))
  have declared : Declared (fallingThrough.block 1).cases :=
    ⟨by decide +kernel, by decide +kernel, by decide +kernel⟩
  have evaluated : (fallingThrough.nestSwitch (Flow.ofGraph fallingThrough) 1).any (fun h => decide
      ((h.block 2).next = some (.exit .switchBreak) ∧ (h.block 3).next = some .bodyEnd ∧
        fallingThrough.nestedBodies (Flow.ofGraph fallingThrough) 1 h =
          [⟨2, ⟨[2], .join 5⟩, some 3⟩, ⟨3, ⟨[3], .join 4⟩, some 4⟩,
            ⟨4, ⟨[4], .join 5⟩, some 5⟩])) = true := by
    decide +kernel
  cases applied : fallingThrough.nestSwitch (Flow.ofGraph fallingThrough) 1 with
  | none =>
    rw [applied] at evaluated
    cases evaluated
  | some h =>
    rw [applied, Option.any_some, decide_eq_true_eq] at evaluated
    obtain ⟨breaks, ends, bodies⟩ := evaluated
    obtain ⟨goes, -, resumes, -⟩ := nestSwitch_keeps_dispatch mirrored declared applied
    refine ⟨mirrored, declared, h, rfl, (goes 2).trans (by decide +kernel),
      (goes 7).trans (by decide +kernel), breaks, ends, ?_, ?_⟩
    · exact (resumes [] _ _ bodies 2 5 rfl rfl).2
    · exact (resumes [_] _ _ bodies 3 4 rfl rfl).2

end Graph

end Unjump
