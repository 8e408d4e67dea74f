import Unjump.Proofs.Rewrite.Choice
import Unjump.Proofs.Rewrite.Entry
import Unjump.Proofs.Rewrite.Loop
import Unjump.Proofs.Rewrite.Plain
import Unjump.Proofs.Rewrite.Switch
import Unjump.Proofs.Rewrite.Test
import Unjump.Proofs.Rewrite.Try
import Unjump.Rule

/-!
Predecessor sets mirror edges in every graph that can be made by editing.

The rules are part of the editing. They need no sound graph for this, since all that they point
edges at are their own new blocks and blocks to which some edge led before. For the same reason no
rule lets an edge lead to the entry of a graph whose entry no edge led to.
-/

namespace Unjump.Graph

variable {g h : Graph} {entered : Prop} {id : BlockId} {flow : Flow}

section Types

variable (confined : g.Confined entered)

include confined

/-- A block of another type than the entry is not the entry. -/
theorem Confined.ne_start (notEntry : (g.bare id).type ≠ .start) : id ≠ start := by
  rintro rfl
  exact notEntry confined.rooted

/-- Edges may lead to a block that is no entry. -/
theorem Confined.fits_of_type (notEntry : (g.bare id).type ≠ .start) :
    (Target.block id).Fits entered g.size :=
  ⟨lt_size_of_type notEntry, fun same => absurd same (confined.ne_start notEntry)⟩

omit confined in
/-- A test that is still open is not the entry. -/
theorem type_ne_start_of_open (isOpen : (g.bare id).isOpenCondition = true) :
    (g.bare id).type ≠ .start := by
  -- The entry is no condition.
  intro isStart
  simp [Block.isOpenCondition, isStart, BlockType.isCondition] at isOpen

end Types

section Operations

/-- A literal jump to a target where edges may lead keeps the links, and edges may
lead to the jump. -/
theorem Confined.jumpTo (confined : g.Confined entered) (construct : Construct) (offset : Offset)
    {target : Target} (fits : target.Fits entered g.size) :
    (g.jumpTo construct offset target).2.Confined entered ∧
      g.size ≤ (g.jumpTo construct offset target).2.size ∧
      (g.jumpTo construct offset target).1.Fits entered
        (g.jumpTo construct offset target).2.size := by
  -- An exit is taken as it is, and a block is reached over a new jump.
  cases target with
  | exit way => exact ⟨confined, Nat.le_refl _, trivial⟩
  | block target =>
    -- The jump is a new block, which edges may lead to.
    refine ⟨confined.addGoto fits, ?_, ?_⟩
    · simp [Graph.jumpTo]
    · simpa [Graph.jumpTo] using confined.fits_size

/-- Literal jumps to targets where edges may lead keep the links. -/
theorem Confined.jumpAll (confined : g.Confined entered) (construct : Construct) (offset : Offset)
    {targets : List Target} (fits : ∀ target ∈ targets, target.Fits entered g.size) :
    (jumpAll construct offset targets g).2.Confined entered ∧
      g.size ≤ (jumpAll construct offset targets g).2.size ∧
      ∀ target ∈ (jumpAll construct offset targets g).1,
        target.Fits entered (jumpAll construct offset targets g).2.size := by
  -- The graph grows by a jump at a time, and the targets that are left still lie in it.
  induction targets generalizing g with
  -- Without targets nothing is made.
  | nil => exact ⟨confined, Nat.le_refl _, fun target listed => nomatch listed⟩
  | cons target rest ih =>
    -- The first jump is made in the graph as it is, and the others in the graph that it leaves.
    obtain ⟨first, grows, jump⟩ := confined.jumpTo construct offset (fits target List.mem_cons_self)
    obtain ⟨confinedRest, growsRest, jumps⟩ := ih first fun other listed =>
      (fits other (List.mem_cons_of_mem _ listed)).mono grows
    refine ⟨confinedRest, Nat.le_trans grows growsRest, fun result listed => ?_⟩
    rcases List.mem_cons.mp listed with rfl | later
    · exact jump.mono growsRest
    · exact jumps result later

/-- Ending chains adds no block. -/
theorem size_foldl_closeArm {arms : List Arm} {target : Target} :
    (arms.foldl (·.closeArm · target) g).size = g.size := by
  -- Each chain is ended by itself.
  induction arms generalizing g with
  | nil => rfl
  | cons arm rest ih => rw [List.foldl_cons, ih, size_closeArm]

/-- Ending the bodies of a switch adds no block. -/
theorem size_closeBodies {join : Option BlockId} {bodies : List CaseBody} :
    (g.closeBodies join bodies).size = g.size := by
  -- Each body is ended by itself.
  induction bodies generalizing g with
  | nil => rfl
  | cons body rest ih => rw [closeBodies, ih, size_closeArm]

/-- Ending a chain with an exit keeps edges where they may lead. -/
theorem Confined.closeArm (confined : g.Confined entered) {arm : Arm} {way : Exit} :
    (g.closeArm arm (.exit way)).Confined entered := by
  -- At most one edge changes, and it becomes an exit.
  rw [closeArm_eq]
  split
  · exact confined.setEdge fun _ same => by cases same; trivial
  · exact confined

/-- Ending the bodies of a switch keeps edges where they may lead. -/
theorem Confined.closeBodies (confined : g.Confined entered) {join : Option BlockId}
    {bodies : List CaseBody} : (g.closeBodies join bodies).Confined entered := by
  -- By induction on the bodies, whichever way each of them ends.
  induction bodies generalizing g with
  | nil => exact confined
  | cons body rest ih =>
    rw [Graph.closeBodies]
    refine ih ?_
    split <;> exact confined.closeArm

/-- A chain runs on into a block to which edges may lead. -/
theorem Confined.fits_join (confined : g.Confined entered) {bounds : ArmBounds}
    {previous : Option BlockId} {seen : List BlockId} {cursor : Target} {arm : Arm}
    (walked : Walked g flow bounds previous seen cursor arm) (fits : cursor.Fits entered g.size)
    {join : BlockId} (finish : arm.finish = .join join) :
    (Target.block join).Fits entered g.size := by
  -- Along the chain, each block of which is where edges may lead as the last one was.
  induction walked with
  | exit | last => cases finish
  | stop =>
    cases finish
    exact fits
  | step _ _ _ _ follows _ ih => exact ih ((confined.fits _).next _ follows) finish

end Operations

section Rules

variable (confined : g.Confined entered)

include confined

/-- Dropping a jump keeps edges where they may lead. -/
theorem Confined.dropGoto (applied : g.dropGoto flow id = some h) : h.Confined entered := by
  obtain ⟨either, made⟩ := dropGoto_cases applied
  have other : id ≠ start := confined.ne_start (by rcases either with isGoto | isJump <;> simp [*])
  -- A jump is settled in its place, or what led to it takes over where it led.
  rcases made with ⟨-, -, rfl⟩ | ⟨target, -, leads, -, rfl⟩ | rfl
  · -- A jump to itself loses its only edge.
    have fits := confined.fits id
    exact confined.update _ rfl { fits with next := fun _ edge => nomatch edge } fun same =>
      absurd same other
  · -- An empty jump makes way for its target.
    exact (confined.redirectFrom ((confined.fits id).next target leads)).detach
  · -- Any other jump is kept as a block of its own.
    exact confined.settle other

/-- Settling plain code keeps edges where they may lead. -/
theorem Confined.settlePlain (applied : g.settlePlain flow id = some h) : h.Confined entered := by
  -- A block that is settled was raw, and so is not the entry.
  simp only [Graph.settlePlain] at applied
  split at applied
  · next type isRaw =>
    obtain ⟨construct, -, rfl⟩ := Option.map_eq_some_iff.mp applied
    exact confined.settle (confined.ne_start (ne_of_eq_of_ne isRaw (by simp)))
  · cases applied

/-- Settling a call of a subroutine keeps edges where they may lead. -/
theorem Confined.settleJsr (isCall : (g.bare id).type = .raw .jsr) (made : g.settle id .jsr = h) :
    h.Confined entered :=
  made ▸ confined.settle (confined.ne_start (ne_of_eq_of_ne isCall (by simp)))

/-- A test over others whose edges lead where they may keeps the links. -/
theorem Confined.combine {construct : Construct} {operands : List (BlockId × Bool)}
    {fields : Block → Block} (kept : ∀ b, (fields b).preds = b.preds)
    (fits : ∀ b, b.Fits entered (g.size + 1) → (fields b).Fits entered (g.size + 1)) :
    (g.combine id construct operands fields).Confined entered := by
  -- The new test is put before the first operand, the operands are closed,
  -- and its fields are filled in last.
  have absorbed : (g.absorb id construct (operands.map (·.1))).Confined entered :=
    confined.precede (edge?_covering construct _) rfl
  have closed : (operands.foldl (fun g operand => g.closeTest operand.1 operand.2)
      (g.absorb id construct (operands.map (·.1)))).Confined entered := absorbed.foldl_closeTest
  -- The new test is not the entry, whose number is smaller.
  refine closed.update fields (kept _) ?_ fun same => absurd same (Nat.ne_of_gt confined.nonempty)
  have own := closed.fits g.size
  rw [size_foldl_closeTest, size_absorb] at own ⊢
  exact fits _ own

/-- Merging two tests keeps edges where they may lead. -/
theorem Confined.mergeTests (applied : g.mergeTests flow id = some h) : h.Confined entered := by
  -- The new test leads to the two operands and where the second one led.
  obtain ⟨second, construct, invert, isOpen, isNext, -, -, -, rfl⟩ := mergeTests_cases applied
  have grown : g.size ≤ g.size + 1 := Nat.le_succ _
  have own := confined.fits_of_type (type_ne_start_of_open isOpen)
  have next := (confined.fits id).next _ isNext
  have operand := confined.fits second
  refine confined.combine (fun _ => rfl) fun b fits =>
    { fits with next := ?_, branch := ?_, sub1 := ?_, sub2 := ?_ }
  · -- What follows the second test follows the new one.
    exact fun target edge => (operand.next target edge).mono grown
  · exact fun target edge => (operand.branch target edge).mono grown
  · -- The operands are the test itself and the block that it led to.
    exact fun target same => Option.some.inj same ▸ own.mono grown
  · exact fun target same => Option.some.inj same ▸ next.mono grown

/-- Selecting a test by another one keeps edges where they may lead. -/
theorem Confined.selectTest (applied : g.selectTest flow id = some h) : h.Confined entered := by
  -- The new test leads to the three operands and where those that it selects from led.
  obtain ⟨failed, held, isOpen, isNext, isBranch, -, -, -, -, -, -, -, rfl⟩ :=
    selectTest_cases applied
  have grown : g.size ≤ g.size + 1 := Nat.le_succ _
  have own := confined.fits_of_type (type_ne_start_of_open isOpen)
  have next := (confined.fits id).next _ isNext
  have branch := (confined.fits id).branch _ isBranch
  have operand := confined.fits failed
  refine confined.combine (fun _ => rfl) fun b fits =>
    { fits with next := ?_, branch := ?_, condition := ?_, sub1 := ?_, sub2 := ?_ }
  · -- What follows the selected tests follows the new one.
    exact fun target edge => (operand.next target edge).mono grown
  · exact fun target edge => (operand.branch target edge).mono grown
  · -- The operands are the test itself and the two blocks that it led to.
    exact fun target same => Option.some.inj same ▸ own.mono grown
  · exact fun target same => Option.some.inj same ▸ branch.mono grown
  · exact fun target same => Option.some.inj same ▸ next.mono grown

/-- A choice whose bodies and next block are targets where edges may lead keeps the links. -/
theorem Confined.choose {choice : Choice} (isOpen : (g.bare id).type ≠ .start)
    (body : choice.body.Fits entered g.size)
    (otherwise : ∀ target, choice.otherwise = some target → target.Fits entered g.size)
    (next : ∀ target, choice.next = some target → target.Fits entered g.size) :
    (g.choose id choice).Confined entered := by
  -- The choice is put before its test, its chains are ended, and its fields are filled in last.
  have absorbed : (g.absorb id choice.construct (id :: choice.arms.flatMap (·.blocks))).Confined
      entered :=
    confined.precede (edge?_covering choice.construct _) rfl
  have ended : (choice.arms.foldl (·.closeArm · .bodyEnd)
      ((g.absorb id choice.construct (id :: choice.arms.flatMap (·.blocks))).closeTest id
        choice.invert)).Confined entered :=
    List.foldlRecOn choice.arms _ absorbed.closeTest fun _ before _ _ => before.closeArm
  refine ended.update _ rfl ?_ fun same => absurd same (Nat.ne_of_gt confined.nonempty)
  have blank := ended.fits g.size
  have own := confined.fits_of_type isOpen
  have grown : g.size ≤ g.size + 1 := Nat.le_succ _
  rw [size_foldl_closeArm, size_closeTest, size_absorb] at blank ⊢
  refine { blank with next := ?_, condition := ?_, sub1 := ?_, sub2 := ?_ }
  · -- The fields of the choice are taken from where the test led, or are the test itself.
    exact fun target same => (next target same).mono grown
  · exact fun target same => Option.some.inj same ▸ own.mono grown
  · exact fun target same => Option.some.inj same ▸ body.mono grown
  · exact fun target same => (otherwise target same).mono grown

/-- Nesting an `if` keeps edges where they may lead. -/
theorem Confined.nestIf (applied : g.nestIf flow id = some h) : h.Confined entered := by
  -- The bodies and the next block come from the two ways of the test.
  obtain ⟨next, branch, choice, isOpen, isNext, isBranch, -, chooses, rfl⟩ := nestIf_cases applied
  have notEntry := type_ne_start_of_open isOpen
  have fitsNext := (confined.fits id).next _ isNext
  have fitsBranch := (confined.fits id).branch _ isBranch
  have absent : ∀ target : Target, none = some target → target.Fits entered g.size :=
    fun _ same => nomatch same
  have toNext : ∀ target, some next = some target → target.Fits entered g.size :=
    fun _ same => Option.some.inj same ▸ fitsNext
  have toBranch : ∀ target, some branch = some target → target.Fits entered g.size := fun _ same =>
    Option.some.inj same ▸ fitsBranch
  -- One case per form of the choice; each takes its bodies and its next block
  -- from the two ways of the test.
  cases chooses with
  | effect => exact confined.choose notEntry trivial absent toNext
  | leave => exact confined.choose notEntry trivial absent toNext
  | leaveElse => exact confined.choose notEntry trivial absent toBranch
  | ifNot => exact confined.choose notEntry fitsNext absent toBranch
  | ifSo => exact confined.choose notEntry fitsBranch absent toNext
  | both _ arms _ _ meet =>
    refine confined.choose notEntry fitsNext toBranch fun target same => ?_
    obtain ⟨meeting, rfl, rfl⟩ := Option.map_eq_some_iff.mp same
    obtain ⟨⟨_, -, fall⟩, ⟨_, -, jump⟩⟩ := arms
    rcases Chooses.meeting?_join meet with finish | finish
    · exact confined.fits_join fall fitsNext finish
    · exact confined.fits_join jump fitsBranch finish

/-- Turning a test into a conditional jump keeps edges where they may lead. -/
theorem Confined.jumpTest (applied : g.jumpTest flow id = some h) : h.Confined entered := by
  -- The jump is made first, and the choice in the graph that it leaves.
  obtain ⟨next, branch, isOpen, isNext, isBranch, rfl⟩ := jumpTest_cases applied
  obtain ⟨jumped, grows, fits⟩ := confined.jumpTo (g.testJump id branch) (g.block id).finish
    ((confined.fits id).branch _ isBranch)
  have notEntry := type_ne_start_of_open isOpen
  refine jumped.choose ?_ fits (fun _ same => nomatch same) fun target same => ?_
  -- A new jump leaves the old blocks alone, so that the test is still no entry.
  · cases branch with
    | exit way => exact notEntry
    | block target =>
      simp only [Graph.jumpTo, bare_addGoto]
      rwa [if_neg (Nat.ne_of_lt (lt_size_of_type notEntry))]
  · -- What follows the test was its other way.
    exact Option.some.inj same ▸ ((confined.fits id).next _ isNext).mono grows

/-- Nesting the bodies of a switch keeps edges where they may lead. -/
theorem Confined.nestSwitch (applied : g.nestSwitch flow id = some h) : h.Confined entered := by
  -- The bodies are ended first, and the switch is changed last.
  obtain ⟨join, trim, isSwitch, -, arms, left, rfl⟩ := nestSwitch_cases applied
  have closed : (g.closeBodies join
      ((g.switchBodies flow id).filter (some ·.head != join))).Confined entered :=
    confined.closeBodies
  have size : (g.closeBodies join ((g.switchBodies flow id).filter (some ·.head != join))).size =
      g.size :=
    size_closeBodies
  have notEntry : (g.bare id).type ≠ .start := ne_of_eq_of_ne isSwitch (by simp)
  -- Nothing else is asked of the graph in which the bodies have ended.
  generalize g.closeBodies join ((g.switchBodies flow id).filter (some ·.head != join)) =
    ended at closed size ⊢
  refine closed.update _ rfl ?_ fun same => absurd same (confined.ne_start notEntry)
  have fits := closed.fits id
  refine { fits with next := fun target same => ?_, cases := fun entry listed => ?_ }
  -- The join is where a body ran on to.
  · obtain ⟨meeting, rfl, rfl⟩ := Option.map_eq_some_iff.mp same
    obtain ⟨body, listed, finish⟩ := switchJoin?_join arms.isJoin
    obtain ⟨isHead, bounds, walked⟩ := arms.isBodies.walked body listed
    obtain ⟨i, edge⟩ := (arms.isHead body.head).mp isHead
    rw [size]
    exact confined.fits_join walked (confined.fits_of_leads ⟨_, edge⟩) finish
  · -- A case that is left was there before, or breaks out of the switch.
    obtain same | ⟨before, isBefore, same⟩ := (left _).origin entry listed
    · rw [same]
      trivial
    · exact same ▸ fits.cases before isBefore

/-- Nesting the protected code and the handlers of a try keeps edges where they may lead. -/
theorem Confined.nestTry (applied : g.nestTry flow id = some h) : h.Confined entered := by
  obtain ⟨next, heads, body, handlers, join, construct, isTry, arms, isJoin, -, -, rfl⟩ :=
    nestTry_cases applied
  -- The chains are ended first, and the try is changed last.
  have closed : ((body :: handlers).foldl (·.closeArm · .bodyEnd) g).Confined entered :=
    List.foldlRecOn (body :: handlers) _ confined fun _ before _ _ => before.closeArm
  have notEntry : (g.bare id).type ≠ .start := ne_of_eq_of_ne isTry (by simp)
  refine closed.update _ rfl ?_ fun same => absurd same (confined.ne_start notEntry)
  have fits := closed.fits id
  have fitsNext := (confined.fits id).next _ arms.isNext
  refine { fits with
    next := fun target same => ?_
    sub1 := fun target same => ?_
    handlers := fun handler listed => ?_ }
  -- The join is where the protected code or a handler ran on to.
  · obtain ⟨meeting, rfl, rfl⟩ := Option.map_eq_some_iff.mp same
    obtain ⟨arm, listed, finish⟩ := tryJoin?_join isJoin
    obtain ⟨bounds, head, -, walked, leads⟩ := arms.walked arm listed
    have fitsHead : (Target.block head).Fits entered g.size := by
      rcases leads with edge | ⟨i, edge⟩
      · exact confined.fits_of_leads ⟨.next, edge⟩
      · exact confined.fits_of_leads ⟨_, edge⟩
    rw [size_foldl_closeArm]
    exact confined.fits_join walked fitsHead finish
  · -- The body of the try is where its next edge led.
    rw [size_foldl_closeArm]
    exact Option.some.inj same ▸ fitsNext
  · -- The handlers only change places.
    exact fits.handlers handler (mem_finallyLast.mp listed)

/-- Jumping to the cases of a switch keeps edges where they may lead. -/
theorem Confined.jumpSwitch (applied : g.jumpSwitch flow id = some h) : h.Confined entered := by
  -- The jumps are made first, each to a target of a case.
  obtain ⟨isSwitch, rfl⟩ := jumpSwitch_cases applied
  have targets : ∀ target ∈ (g.bare id).cases.map (·.target), target.Fits entered g.size := by
    intro target listed
    obtain ⟨entry, isCase, rfl⟩ := List.mem_map.mp listed
    exact (confined.fits id).cases entry isCase
  obtain ⟨jumped, -, jumps⟩ := confined.jumpAll .goto (g.block id).finish targets
  have notEntry : (g.bare id).type ≠ .start := ne_of_eq_of_ne isSwitch (by simp)
  refine jumped.update _ rfl ?_ fun same => absurd same (confined.ne_start notEntry)
  have fits := jumped.fits id
  refine { fits with next := (fun _ edge => nomatch edge), cases := fun entry listed => ?_ }
  -- Each case gets the jump that was made for its own target.
  obtain ⟨i, bound, same⟩ := List.mem_iff_getElem.mp listed
  rw [List.getElem_zipWith] at same
  subst same
  exact jumps _ (List.getElem_mem _)

/-- Jumping to the protected code and the handlers of a try keeps edges where they may lead. -/
theorem Confined.jumpTry (applied : g.jumpTry flow id = some h) : h.Confined entered := by
  obtain ⟨isTry, body, targets, made, jumps, rfl⟩ := jumpTry_cases applied
  have fits := confined.fits id
  have targets : ∀ target ∈ (g.bare id).next.getD .bodyEnd :: (g.bare id).handlers.map (·.target),
      target.Fits entered g.size := by
    intro target listed
    -- The next edge may be missing, and then the body is empty.
    rcases List.mem_cons.mp listed with rfl | isHandler
    · cases next : (g.bare id).next with
      | none => trivial
      | some target => exact fits.next target next
    · obtain ⟨handler, isListed, rfl⟩ := List.mem_map.mp isHandler
      exact fits.handlers handler isListed
  -- The protected code and the handlers are all reached over jumps.
  have jumped := confined.jumpAll .goto (g.block id).start targets
  rw [jumps] at jumped
  obtain ⟨jumped, -, fitsJumps⟩ := jumped
  have notEntry : (g.bare id).type ≠ .start := ne_of_eq_of_ne isTry (by simp)
  refine jumped.update _ rfl ?_ fun same => absurd same (confined.ne_start notEntry)
  have own := jumped.fits id
  refine { own with
    next := fun _ edge => nomatch edge
    sub1 := fun target same => ?_
    handlers := fun handler listed => ?_ }
  · -- The body is the first of the jumps.
    exact Option.some.inj same ▸ fitsJumps body List.mem_cons_self
  · -- Each handler gets the jump that was made for its own target.
    obtain ⟨i, bound, same⟩ := List.mem_iff_getElem.mp (mem_finallyLast.mp listed)
    rw [List.getElem_zipWith] at same
    subst same
    exact fitsJumps _ (List.mem_cons_of_mem _ (List.getElem_mem _))

/-- Entering a shared block over a jump keeps edges where they may lead. -/
theorem Confined.unshareEntry (applied : g.unshareEntry flow id = some h) : h.Confined entered := by
  -- A source of the block is pointed at a new jump, which leads to the block.
  obtain ⟨source, construct, -, found, -, rfl⟩ := unshareEntry_cases applied
  obtain ⟨entering, -, enters⟩ :=
    (mem_enteringPreds confined.toMirrored).mp (surplusSource?_mem found)
  have jumped : (g.addGoto construct (g.block source).finish (.block id)).2.Confined entered :=
    confined.addGoto (confined.fits_of_leads ⟨entering, enters⟩)
  refine jumped.update _ rfl (Block.fits_iff.mpr fun kind target edge => ?_) ?_
  · -- An edge of the source is as it was, or it led to the shared block.
    have before := Block.fits_iff.mp (jumped.fits source)
    rw [Block.edge?_replaceEntry] at edge
    split at edge
    · exact before kind target edge
    · obtain ⟨old, isOld, renamed⟩ := Option.map_eq_some_iff.mp edge
      -- What led to the shared entry leads to the jump, which is the new block.
      by_cases same : old = .block id
      · rw [same, Target.renamed_self] at renamed
        rw [← renamed, size_addGoto]
        exact confined.fits_size
      · rw [Target.renamed_ne same] at renamed
        exact renamed ▸ before kind old isOld
  · -- The entry keeps its type when its edges are replaced.
    rintro rfl
    exact jumped.rooted

/-- Rerouting the edges of a loop's body keeps the links. -/
theorem Confined.reroute {header : BlockId} {body : IdSet} {after : Option BlockId}
    {edge : BlockId × EdgeKind × BlockId} (fits : (Target.block edge.2.2).Fits entered g.size) :
    (g.reroute header body after edge).Confined entered ∧
      g.size ≤ (g.reroute header body after edge).size := by
  -- An edge stays, leaves the loop or goes over a new jump to where it led.
  obtain ⟨source, kind, target⟩ := edge
  simp only [Graph.reroute]
  split
  · -- An edge that stays in the body is left alone.
    exact ⟨confined, Nat.le_refl _⟩
  · -- An edge that leaves or goes back becomes an exit.
    refine ⟨confined.setEdge fun way same => ?_, ?_⟩
    · cases same
      trivial
    · simp [Graph.setEdge]
  · -- Any other edge goes over a jump of its own.
    refine ⟨(confined.addGoto fits).setEdge fun way same => ?_, ?_⟩
    · cases same
      simpa using confined.fits_size
    · simp [Graph.setEdge]

/-- Rerouting the edges of a loop's body, one after another, keeps edges where they may lead. -/
theorem Confined.foldl_reroute {header : BlockId} {body : IdSet} {after : Option BlockId}
    {edges : List (BlockId × EdgeKind × BlockId)}
    (fits : ∀ edge ∈ edges, (Target.block edge.2.2).Fits entered g.size) :
    (edges.foldl (·.reroute header body after ·) g).Confined entered ∧
      g.size ≤ (edges.foldl (·.reroute header body after ·) g).size := by
  -- The graph may grow with each edge, and the targets of the others still lie in it.
  induction edges generalizing g with
  | nil => exact ⟨confined, Nat.le_refl _⟩
  | cons edge rest ih =>
    obtain ⟨first, grows⟩ := confined.reroute (fits edge List.mem_cons_self)
    obtain ⟨others, growsOthers⟩ :=
      ih first fun other listed => (fits other (List.mem_cons_of_mem _ listed)).mono grows
    exact ⟨others, Nat.le_trans grows growsOthers⟩

/-- Making a loop keeps edges where they may lead. -/
theorem Confined.wrap {header : BlockId} {body : IdSet} {after : Option BlockId}
    (fits : (Target.block header).Fits entered g.size)
    (ends : ∀ last, after = some last → (Target.block last).Fits entered g.size) :
    (g.wrap header body after).Confined entered := by
  -- The loop is put before its header, the edges of its body are rerouted,
  -- and its fields come last.
  have base : (g.withLoop header body).Confined entered :=
    confined.precedeFrom (edge?_covering _ _) rfl
  have targets : ∀ edge ∈ g.innerEdgesOf body,
      (Target.block edge.2.2).Fits entered (g.withLoop header body).size := by
    rintro ⟨source, kind, target⟩ listed
    obtain ⟨-, inner⟩ := mem_innerEdgesOf.mp listed
    exact (confined.fits_of_leads ⟨kind, (Block.mem_innerEdges.mp inner).2.2⟩).mono
      (size_withLoop ▸ Nat.le_succ _)
  -- Rerouted edges lead to the header, out of the loop or to new jumps.
  obtain ⟨routed, grows⟩ := @Confined.foldl_reroute _ entered base header body after _ targets
  have grown := Nat.le_trans (Nat.le_succ _) (size_withLoop ▸ grows)
  refine routed.update _ rfl ?_ fun same => absurd same (Nat.ne_of_gt confined.nonempty)
  have own := routed.fits g.size
  refine { own with next := fun target same => ?_, sub1 := fun target same => ?_ }
  · -- The loop leads on to the block after it and into its header.
    obtain ⟨last, isLast, rfl⟩ := Option.map_eq_some_iff.mp same
    exact (ends last isLast).mono grown
  · exact Option.some.inj same ▸ fits.mono grown

/-- Making the loop of a header keeps edges where they may lead. -/
theorem Confined.wrapLoop {header : BlockId}
    (applied : g.wrapLoop (Flow.ofGraph g) header = some h) : h.Confined entered := by
  -- The header and the block after the loop are targets of edges.
  obtain ⟨isHeader, rfl⟩ := wrapLoop_cases applied
  refine confined.wrap ?_ fun last found => ?_
  · -- A header is the target of a back edge.
    obtain ⟨source, isBack⟩ := mem_headers.mp isHeader
    obtain ⟨-, -, kind, inner⟩ := mem_loopEdges.mp (List.mem_filter.mp isBack).1
    exact confined.fits_of_leads ⟨kind, (Block.mem_innerEdges.mp inner).2.2⟩
  · -- The block after the loop is entered by an edge of the natural loop.
    obtain ⟨⟨source, -, kind, inner⟩, -⟩ := loopAfter_cases found
    exact confined.fits_of_leads ⟨kind, (Block.mem_innerEdges.mp inner).2.2⟩

/-- Every rule keeps the links, and lets an edge lead to the entry only if one did before. -/
theorem Confined.apply {rule : Rule} (applied : rule.apply g (Flow.ofGraph g) id = some h) :
    h.Confined entered := by
  -- One lemma per rule.
  cases rule <;> dsimp only [Rule.apply] at applied
  case dropGoto => exact confined.dropGoto applied
  case settlePlain => exact confined.settlePlain applied
  case selectTest => exact confined.selectTest applied
  case mergeTests => exact confined.mergeTests applied
  case wrapLoop => exact confined.wrapLoop applied
  case nestIf => exact confined.nestIf applied
  case nestSwitch => exact confined.nestSwitch applied
  case nestTry => exact confined.nestTry applied
  case settleCall =>
    obtain ⟨isCall, made⟩ := settleCall_cases applied
    exact confined.settleJsr isCall made
  case jumpTest => exact confined.jumpTest applied
  case jumpSwitch => exact confined.jumpSwitch applied
  case jumpTry => exact confined.jumpTry applied
  case forceCall =>
    obtain ⟨isCall, made⟩ := forceCall_cases applied
    exact confined.settleJsr isCall made
  case unshareEntry => exact confined.unshareEntry applied

end Rules

/-- The graphs that can be made from the empty one by the operations that edit edges and by the
rules, where edges lead to blocks of the graph. -/
inductive Edited : Graph → Prop
  | empty : Edited Graph.empty
  | addBlock {g : Graph} (edited : Edited g) (type : BlockType) (start finish : Offset) :
      Edited (g.addBlock type start finish).2
  | setEdge {g : Graph} (edited : Edited g) (id : BlockId) (kind : EdgeKind)
      (target : Option Target) (inside : ∀ v, target = some (.block v) → v < g.size) :
      Edited (g.setEdge id kind target)
  /-- Any change of one block that leaves its predecessor set alone, and the type of the entry. -/
  | update {g : Graph} (edited : Edited g) (id : BlockId) (change : Block → Block)
      (kept : (change (g.block id)).preds = (g.block id).preds)
      (inside : ∀ kind v, (change (g.block id)).edge? kind = some (.block v) → v < g.size)
      (root : id = start → (change (g.block id)).type = (g.block id).type) :
      Edited (g.update id change)
  | redirectFrom {g : Graph} (edited : Edited g) (old : BlockId) (new : Target)
      (accept : BlockId → Bool) (inside : ∀ v, new = .block v → v < g.size) :
      Edited (g.redirectFrom old new accept)
  | detach {g : Graph} (edited : Edited g) (id : BlockId) : Edited (g.detach id)
  | relink {g : Graph} (edited : Edited g) : Edited g.relink
  | apply {g h : Graph} (edited : Edited g) (rule : Rule) (id : BlockId)
      (applied : rule.apply g (Flow.ofGraph g) id = some h) : Edited h

/-- Edges may lead to every block of the graph if the entry may be entered. -/
theorem fits_of_inside {target : Target} {size : Nat} (inside : ∀ v, target = .block v → v < size) :
    target.Fits True size := by
  -- An exit is no block.
  cases target with
  | block id => exact ⟨inside id rfl, fun _ => trivial⟩
  | exit way => trivial

/-- All numbers stand for blank blocks in the empty graph. -/
theorem block_empty (id : BlockId) : Graph.empty.block id = blankBlock := by
  -- The entry is blank, and so is every number that is not there.
  cases id with
  | zero => rfl
  | succ id => exact block_of_size_le (Nat.succ_pos id)

/-- Every graph that can be made by editing is mirrored. -/
theorem Edited.confined (edited : g.Edited) : g.Confined True := by
  -- One case per edit; an edit has to say that the targets it names exist, and nothing more.
  induction edited with
  | empty =>
    have noEdges : ∀ source kind, (Graph.empty.bare source).edge? kind = none := by
      intro source kind
      rw [bare, block_empty]
      cases kind <;> rfl
    refine ⟨⟨fun leads => ?_, fun {source target} => ?_⟩, fun _ _ => trivial, rfl, Nat.zero_lt_one⟩
    · -- Without edges there is nothing to bound and nothing to mirror.
      obtain ⟨kind, edge⟩ := leads
      cases (noEdges _ kind).symm.trans edge
    · rw [block_empty]
      refine ⟨fun member => absurd member (IdSet.not_mem_empty source), fun leads => ?_⟩
      obtain ⟨kind, edge⟩ := leads
      cases (noEdges _ kind).symm.trans edge
  | addBlock _ type start finish ih => exact ih.add _ (fun kind => by cases kind <;> rfl) rfl
  -- The new target is one of the blocks.
  | setEdge _ id kind target inside ih =>
    exact ih.setEdge fun way same => fits_of_inside fun v isBlock => inside v (isBlock ▸ same)
  | update _ id change kept inside root ih =>
    -- So are all targets of the changed block, and the entry keeps its type.
    refine ih.update change kept (Block.fits_iff.mpr fun kind target edge => ?_) fun same => ?_
    · exact fits_of_inside fun v isBlock => inside kind v (isBlock ▸ edge)
    · rw [root same, same]
      exact ih.rooted
  | redirectFrom _ old new accept inside ih => exact ih.redirectFrom (fits_of_inside inside)
  | detach _ id ih => exact ih.detach
  | relink _ ih =>
    -- The sets are computed anew from the edges, which stay.
    refine ⟨mirrored_relink ih.bounded, fun _ _ => trivial, ?_, ?_⟩
    · rw [bare_relink]
      exact ih.rooted
    · rw [size_relink]
      exact ih.nonempty
  | apply _ rule id applied ih => exact ih.apply applied

/--
Predecessor sets mirror edges in every graph that can be made by editing.

No rule gives the entry of such a graph a predecessor if it had none.
-/
theorem mem_preds_iff_of_edited (edited : g.Edited) :
    (∀ source target, source ∈ (g.block target).preds ↔
      ∃ kind, (g.block source).edge? kind = some (.block target)) ∧
      ∀ (rule : Rule) (id : BlockId) (h : Graph), rule.apply g (Flow.ofGraph g) id = some h →
        (g.block start).preds = ∅ → (h.block start).preds = ∅ := by
  have confined := edited.confined
  refine ⟨fun source target => confined.mirror, fun rule id h applied alone => ?_⟩
  -- What counts as a way to lead to the entry is chosen as there being one before.
  have sealed : g.Confined (∃ source, g.Leads source start) :=
    ⟨confined.toMirrored, fun source leads => ⟨source, leads⟩, confined.rooted, confined.nonempty⟩
  have after := sealed.apply applied
  -- A source of the entry afterwards would be due to one before, of which there is none.
  refine IdSet.ext fun source =>
    ⟨fun member => ?_, fun member => absurd member (IdSet.not_mem_empty source)⟩
  obtain ⟨before, leads⟩ := after.entry source (after.mirror.mp member)
  exact absurd (alone ▸ confined.mirror.mpr leads) (IdSet.not_mem_empty before)

/-- A test that is its own successor. -/
def spinning : Graph :=
  (((Graph.empty.addBlock (.raw .conditional) 0 1).2.setEdge start .next (some (.block 1))).setEdge
    1 .next (some (.block 1))).setEdge 1 .branch (some (.block 1))

/-- The loop around such a test is made, and its graph is mirrored
with an entry that nothing leads to. -/
theorem spinning_loop : ∃ h, Rule.wrapLoop.apply spinning (Flow.ofGraph spinning) 1 = some h ∧
    (h.block start).preds = ∅ ∧
    ∀ source target, source ∈ (h.block target).preds ↔
      ∃ kind, (h.block source).edge? kind = some (.block target) := by
  -- The graph is made by four edits, each of which names blocks that are there.
  have edited : spinning.Edited := by
    refine .setEdge (.setEdge (.setEdge (.addBlock .empty _ _ _) _ _ _ ?_) _ _ _ ?_) _ _ _ ?_ <;>
      · intro v same
        cases same
        decide
  have applies : (Rule.wrapLoop.apply spinning (Flow.ofGraph spinning) 1).isSome = true := by
    decide +kernel
  obtain ⟨h, applied⟩ := Option.isSome_iff_exists.mp applies
  exact ⟨h, applied, (mem_preds_iff_of_edited edited).2 _ _ _ applied (by decide +kernel),
    (mem_preds_iff_of_edited (edited.apply _ _ applied)).1⟩

end Unjump.Graph
