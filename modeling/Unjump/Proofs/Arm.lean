import Unjump.Proofs.Path

/-! What a chain of settled blocks is: where it starts, how its blocks follow each other
and where it ends. -/

namespace Unjump.Graph

open Relation (ReflTransGen)

/-- Flow predecessors are the blocks with a flow edge to a block. -/
theorem mem_flowPreds {g : Graph} (mirrored : g.Mirrored) {pred id : BlockId} :
    pred ∈ g.flowPreds id ↔
      ∃ kind, (g.bare pred).flows kind = true ∧ (g.bare pred).edge? kind = some (.block id) := by
  -- The set is cut out of the predecessors, which already stand for edges of every kind.
  rw [flowPreds, IdSet.mem_filter, mirrored.mirror, Block.any_flowEdges]
  exact ⟨And.right, fun ⟨kind, flows, edge⟩ => ⟨⟨kind, edge⟩, kind, flows, edge⟩⟩

/-- Where a chain runs on is read off its end. -/
theorem join?_eq_some_iff {finish : ArmEnd} {id : BlockId} :
    finish.join? = some id ↔ finish = .join id := by
  -- Only one kind of end has a block to run on into.
  cases finish <;> simp [ArmEnd.join?]

/-- A chain taken step by step on from a block, apart from the blocks that it has already passed. -/
inductive Walked (g : Graph) (flow : Flow) (bounds : ArmBounds) :
    (previous : Option BlockId) → (seen : List BlockId) → Target → Arm → Prop
  | exit {previous seen way} : Walked g flow bounds previous seen (.exit way) ⟨[], .jump way⟩
  | stop {previous seen id} : Walked g flow bounds previous seen (.block id) ⟨[], .join id⟩
  | last {previous seen id} (new : id ∉ seen) (known : id < g.size)
      (admitted : g.admits flow bounds previous id)
      (ends : (g.bare id).type.isGoto ∨ (g.bare id).next = none) :
      Walked g flow bounds previous seen (.block id) ⟨[id], .terminal⟩
  | step {previous seen id next rest} (new : id ∉ seen) (known : id < g.size)
      (admitted : g.admits flow bounds previous id) (straight : (g.bare id).type.isGoto = false)
      (follows : (g.bare id).next = some next)
      (walked : Walked g flow bounds (some id) (id :: seen) next rest) :
      Walked g flow bounds previous seen (.block id) ⟨id :: rest.blocks, rest.finish⟩

/-- A walk goes step by step, whatever it has passed before. -/
theorem walked_walkFrom {g : Graph} {flow : Flow} {bounds : ArmBounds} {previous : Option BlockId}
    {seen : IdSet} {passed : List BlockId} {cursor : Target}
    (same : ∀ id, id ∈ passed ↔ id ∈ seen) :
    Walked g flow bounds previous passed cursor (g.walkFrom flow bounds previous seen cursor) := by
  -- `Walked` lists what was passed where the walk keeps a set;
  -- the two hold the same blocks throughout.
  induction previous, seen, cursor using walkFrom.induct g flow bounds generalizing passed with
  | case1 previous seen way =>
    rw [walkFrom]
    exact .exit
  | case2 previous seen id new shrinks admitted b =>
    -- The walk ends here, at a literal jump or at a block without a next one.
    rename_i ends
    rw [dite_eq_ite] at ends
    rw [walkFrom, dif_pos new, if_pos admitted]
    simp only [show (if (g.block id).type.isGoto then none else (g.block id).next) = none from ends]
    refine .last (fun old => new.1 ((same id).mp old)) new.2 admitted ?_
    by_cases jumps : (g.block id).type.isGoto = true
    · exact .inl jumps
    · exact .inr ((if_neg jumps).symm.trans ends)
  | case3 previous seen id new shrinks admitted b next follows =>
    -- The walk goes on, and the block joins both what was passed and the set.
    rename_i ih
    rw [dite_eq_ite] at follows
    rw [walkFrom, dif_pos new, if_pos admitted]
    simp only [show (if (g.block id).type.isGoto then none else (g.block id).next) =
      some next from follows]
    have straight : (g.block id).type.isGoto = false := by
      cases jumps : (g.block id).type.isGoto with
      | false => rfl
      | true => cases (if_pos jumps).symm.trans follows
    have goesOn : (g.block id).next = some next :=
      (if_neg (Bool.eq_false_iff.mp straight)).symm.trans follows
    refine .step (fun old => new.1 ((same id).mp old)) new.2 admitted straight goesOn (ih ?_)
    intro other
    rw [List.mem_cons, IdSet.mem_insert, same, or_comm]
  | case4 previous seen id new shrinks refused =>
    -- The block is refused, and the chain runs on into it.
    rw [walkFrom, dif_pos new, if_neg refused]
    exact .stop
  | case5 previous seen id old =>
    -- The block was passed before, or is none.
    rw [walkFrom, dif_neg old]
    exact .stop

/-- The longest chain from a target is taken step by step. -/
theorem walked_walk (g : Graph) (flow : Flow) (bounds : ArmBounds) (cursor : Target) :
    Walked g flow bounds none [] cursor (g.walk flow bounds cursor) :=
  walked_walkFrom fun id => by simp

/-- Blocks in the order of their code are the blocks of the set. -/
@[simp] theorem mem_byOffset {g : Graph} {ids : IdSet} {id : BlockId} :
    id ∈ g.byOffset ids ↔ id ∈ ids := by
  -- A block stands at its own offset, which is the offset of some block.
  simp only [byOffset, List.mem_flatMap, IdSet.mem_toList, IdSet.mem_ofList, List.mem_map,
    List.mem_filter, beq_iff_eq]
  constructor
  · rintro ⟨-, -, listed, -⟩
    exact listed
  · intro listed
    exact ⟨_, ⟨id, listed, rfl⟩, listed, rfl⟩

/-- Of two blocks in the order of their code, the first starts earlier,
or at the same offset under a smaller number. -/
theorem pairwise_byOffset (g : Graph) (ids : IdSet) : (g.byOffset ids).Pairwise fun a b =>
    (g.block a).start < (g.block b).start ∨ (g.block a).start = (g.block b).start ∧ a < b := by
  -- The list is made offset by offset.
  rw [byOffset, List.pairwise_flatMap]
  constructor
  · -- At one offset the blocks are listed by their numbers.
    intro start _
    refine (ids.ascending.filter _).imp_of_mem fun {a b} first second less => ?_
    have atStart := beq_iff_eq.mp (List.mem_filter.mp first).2
    have alsoAtStart := beq_iff_eq.mp (List.mem_filter.mp second).2
    exact .inr ⟨UInt32.toNat_inj.mp (atStart.trans alsoAtStart.symm), less⟩
  · -- The offsets are listed in ascending order.
    refine (IdSet.ascending _).imp fun {early late} less a first b second => .inl ?_
    have atEarly : (g.block a).start.toNat = early := beq_iff_eq.mp (List.mem_filter.mp first).2
    have atLate : (g.block b).start.toNat = late := beq_iff_eq.mp (List.mem_filter.mp second).2
    rw [UInt32.lt_iff_toNat_lt, atEarly, atLate]
    exact less

/-- Blocks in the order of their code are each listed once. -/
theorem nodup_byOffset (g : Graph) (ids : IdSet) : (g.byOffset ids).Nodup := by
  -- No block comes before itself.
  refine (g.pairwise_byOffset ids).imp fun {a b} ordered same => ?_
  subst same
  rcases ordered with earlier | ⟨-, less⟩
  · exact UInt32.lt_irrefl _ earlier
  · exact Nat.lt_irrefl a less

/-- Ordering blocks by their code neither adds nor drops any. -/
theorem byOffset_perm (g : Graph) (ids : IdSet) : (g.byOffset ids).Perm ids.toList := by
  -- Both lists have each of the blocks once.
  have distinct : ids.toList.Nodup := ids.ascending.imp Nat.ne_of_lt
  rw [List.perm_ext_iff_of_nodup (g.nodup_byOffset ids) distinct]
  simp

/-- A block that a chain can take is settled, entered as the chain demands, and no loop header. -/
theorem admits_iff {g : Graph} {flow : Flow} {bounds : ArmBounds} {previous : Option BlockId}
    {id : BlockId} :
    g.admits flow bounds previous id = true ↔
      (g.bare id).isSettled = true ∧ g.isEnteredBy bounds previous id = true ∧
      g.isWithin bounds previous id = true ∧ id ∉ flow.headers := by
  -- The tests of the code are those of the statement.
  simp only [admits, Bool.and_eq_true, Bool.not_eq_true', ← Bool.not_eq_true, IdSet.contains_iff,
    and_assoc]
  rfl

/-- A block that a chain takes after another one is entered by that one only. -/
theorem straightPreds_of_admits {g : Graph} {flow : Flow} {bounds : ArmBounds}
    {before block : BlockId} (admitted : g.admits flow bounds (some before) block = true) :
    g.straightPreds block = IdSet.insert ∅ before :=
  beq_iff_eq.mp (admits_iff.mp admitted).2.1

namespace Walked

variable {g : Graph} {flow : Flow} {bounds : ArmBounds} {previous : Option BlockId}
    {seen : List BlockId} {cursor : Target} {arm : Arm}

/-- The blocks of a chain are settled blocks of the graph and head no loop. -/
theorem settled (walked : Walked g flow bounds previous seen cursor arm) :
    ∀ id ∈ arm.blocks, id < g.size ∧ (g.bare id).isSettled = true ∧ id ∉ flow.headers := by
  -- Along the chain, each block of which was tested before it was taken.
  induction walked with
  | exit | stop => exact fun id listed => absurd listed List.not_mem_nil
  | last new known admitted ends =>
    intro id listed
    obtain ⟨settled, -, -, inner⟩ := admits_iff.mp admitted
    exact List.mem_singleton.mp listed ▸ ⟨known, settled, inner⟩
  | step new known admitted straight follows walked ih =>
    intro id listed
    rcases List.mem_cons.mp listed with rfl | later
    · obtain ⟨settled, -, -, inner⟩ := admits_iff.mp admitted
      exact ⟨known, settled, inner⟩
    · exact ih id later

/-- The last block of a chain that runs on into a block leads there and is no literal jump. -/
theorem joins (walked : Walked g flow bounds previous seen cursor arm) {join last : BlockId}
    (finish : arm.finish = .join join) (ends : arm.last? = some last) :
    (g.bare last).next = some (.block join) ∧ (g.bare last).type.isGoto = false := by
  -- Along the chain, the last block of which says how it ends.
  induction walked with
  | exit | last => cases finish
  | stop => cases ends
  | @step previous seen id next rest new known admitted straight follows walked ih =>
    cases empty : rest.blocks with
    | nil =>
      -- The chain ends with this block, and the rest says where it leads.
      have only : id = last := by simpa [Arm.last?, empty] using ends
      subst only
      cases walked with
      | exit => cases finish
      | stop => cases finish; exact ⟨follows, straight⟩
      | last | step => cases empty
    | cons second later =>
      refine ih finish ?_
      simpa [Arm.last?, empty] using ends

/-- A walk that may go on with next blocks passes all blocks of a chain. -/
theorem walk {allow : EdgeFilter} (next : ∀ type, allow type .next)
    (walked : Walked g flow bounds previous seen cursor arm) {head : BlockId}
    (starts : cursor = .block head) : ∀ id ∈ arm.blocks, g.Walk allow head id := by
  -- Along the chain, from its first block on.
  induction walked generalizing head with
  | exit | stop => exact fun id listed => absurd listed List.not_mem_nil
  | last new known admitted ends =>
    cases starts
    exact fun id listed => List.mem_singleton.mp listed ▸ .refl
  | @step previous seen id next' rest new known admitted straight follows walked ih =>
    cases starts
    intro other listed
    rcases List.mem_cons.mp listed with rfl | later
    · exact .refl
    · -- The rest of the chain starts with the next block.
      cases next' with
      | exit way =>
        cases walked
        exact absurd later List.not_mem_nil
      | block second => exact (ih rfl other later).head ⟨.next, next _, follows⟩

/-- A walk that may go on with next blocks passes from the first block of a chain
to the block it runs on into. -/
theorem walk_join {allow : EdgeFilter} (next : ∀ type, allow type .next)
    (walked : Walked g flow bounds previous seen cursor arm) {head join : BlockId}
    (starts : cursor = .block head) (finish : arm.finish = .join join) :
    g.Walk allow head join := by
  -- Without blocks the chain stops at once, and otherwise its last block leads to the join.
  cases ends : arm.last? with
  | none =>
    cases walked with
    | exit | last => cases finish
    | stop =>
      cases starts
      cases finish
      exact .refl
    | step => simp [Arm.last?] at ends
  | some last =>
    have inside : last ∈ arm.blocks := List.mem_of_getLast? ends
    exact (walked.walk next starts last inside).tail ⟨.next, next _, (walked.joins finish ends).1⟩

/-- The blocks of a chain are its head and blocks that only the chain enters. -/
theorem entered (walked : Walked g flow bounds previous seen cursor arm) :
    ∀ block ∈ arm.blocks, cursor = .block block ∨
      ∃ before ∈ arm.blocks, g.straightPreds block = IdSet.insert ∅ before := by
  -- Along the chain, where each block but the first is entered by the one before.
  induction walked with
  | exit | stop => exact fun block listed => absurd listed List.not_mem_nil
  | last =>
    exact fun block listed => .inl (congrArg Target.block (List.mem_singleton.mp listed).symm)
  | @step previous seen id next rest new known admitted straight follows walked ih =>
    intro block listed
    rcases List.mem_cons.mp listed with rfl | later
    · exact .inl rfl
    rcases ih block later with rfl | ⟨before, isBefore, entered⟩
    · -- The first block of the rest is entered by this one.
      refine .inr ⟨id, List.mem_cons_self, ?_⟩
      cases walked with
      | stop => exact absurd later List.not_mem_nil
      | last _ _ admitted => exact straightPreds_of_admits admitted
      | step _ _ admitted => exact straightPreds_of_admits admitted
    · exact .inr ⟨before, List.mem_cons_of_mem _ isBefore, entered⟩

/-- A chain stays out of a set of blocks that can be entered from within and by a block that is not
settled only, if it starts outside. -/
theorem apart (walked : Walked g flow bounds previous seen cursor arm) {id : BlockId}
    {others : List BlockId} (unsettled : (g.bare id).isSettled = false)
    (entered : ∀ block ∈ others, id ∈ g.straightPreds block ∨
      ∃ before ∈ others, g.straightPreds block = IdSet.insert ∅ before)
    (first : previous = none → ∀ head, cursor = .block head → head ∉ others)
    (later : ∀ before, previous = some before → before ∉ others ∧ before ≠ id) :
    ∀ block ∈ arm.blocks, block ∉ others := by
  -- A block is entered by the one before it only,
  -- which is neither the unsettled block nor one of the others.
  have outside : ∀ {previous block},
      (previous = none → ∀ head, Target.block block = .block head → head ∉ others) →
      (∀ before, previous = some before → before ∉ others ∧ before ≠ id) →
      g.admits flow bounds previous block = true → block ∉ others := by
    intro previous block first later admitted
    cases previous with
    | none => exact first rfl block rfl
    | some before =>
      intro isOther
      obtain ⟨outside, other⟩ := later before rfl
      have only := straightPreds_of_admits admitted
      rcases entered block isOther with byId | ⟨source, inside, onlyToo⟩
      · rw [only] at byId
        exact other ((IdSet.mem_insert.mp byId).resolve_left (IdSet.not_mem_empty _)).symm
      · have same : before ∈ IdSet.insert ∅ source :=
          onlyToo ▸ only ▸ IdSet.mem_insert.mpr (.inr rfl)
        exact outside ((IdSet.mem_insert.mp same).resolve_left (IdSet.not_mem_empty _) ▸ inside)
  -- Along the chain, where the block before is always outside.
  induction walked with
  | exit | stop => exact fun block listed => absurd listed List.not_mem_nil
  | last new known admitted ends =>
    intro block listed
    obtain rfl := List.mem_singleton.mp listed
    exact outside first later admitted
  | @step previous seen block next rest new known admitted straight follows walked ih =>
    intro other listed
    rcases List.mem_cons.mp listed with rfl | inRest
    · exact outside first later admitted
    · refine ih (fun none => by cases none) (fun before same => ?_) other inRest
      cases same
      refine ⟨outside first later admitted, ?_⟩
      rintro rfl
      exact Bool.false_ne_true (unsettled.symm.trans (admits_iff.mp admitted).1)

end Walked

end Unjump.Graph
