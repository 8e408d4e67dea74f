import Unjump.Proofs.Build
import Unjump.Proofs.Rewrite.Choice

/-!
A choice decides as its test did.

An open test goes to its branch when it holds and to its next block when it fails. Whatever choice
takes its place, and whether the test is negated for it or not, control arrives at the same block.
The edges of the other blocks stay, apart from those to the test and from those with which the
chains of the choice ran on past it.
-/

namespace Unjump

/-- Where an open test goes for a value of what it tests, which it may negate. -/
def Block.successor? (b : Block) (value : Bool) : Option Target :=
  if value ^^ b.inverted then b.branch else b.next

namespace Graph

/-- Where a choice goes for a value of what its test tests: to its first body when the test holds,
and otherwise to its second one if there is one, or on. -/
def entered? (g : Graph) (choice test : BlockId) (value : Bool) : Option Target :=
  if value ^^ (g.block test).inverted then (g.block choice).sub1
    else (g.block choice).sub2.or (g.block choice).next

/-- Where control arrives from a choice: the end of a body is what follows the choice, and a literal
jump that is not among the first blocks is where it jumps to. -/
def arrival? (g : Graph) (first : Nat) (choice : BlockId) : Target → Option Target
  | .exit .bodyEnd => (g.block choice).next
  | .exit way => some (.exit way)
  | .block id => if id < first then some (.block id) else (g.block id).branch

/-- What becomes of an edge when a choice takes the place of a test: the test loses its successors,
and all other edges lead where they led, or to the choice if they led to the test. Only a chain that
ran on to where the choice goes on now ends. -/
def Reroutes (g h : Graph) (test choice v : BlockId) (kind : EdgeKind) : Prop :=
  (h.block v).edge? kind =
      (if v = test ∧ (kind = .next ∨ kind = .branch) then none
      else ((g.block v).edge? kind).map ((Target.block test).renamed (.block choice))) ∨
    v ≠ test ∧ kind = .next ∧ (h.block v).next = some .bodyEnd ∧
      ∃ join, (g.block v).next = some (.block join) ∧ (h.block choice).next = some (.block join)

/-- A choice that has taken the place of an open test as the last of the new blocks, the others of
which are literal jumps: control arrives where the test went, and no other block leads elsewhere. -/
structure Decides (g : Graph) (test : BlockId) (h : Graph) (choice : BlockId) : Prop where
  size : g.size ≤ choice ∧ h.size = choice + 1
  gotos : ∀ v, g.size ≤ v → v < choice → (h.block v).type.isGoto = true
  condition : (h.block choice).condition = some (.block test)
  decision : ∀ value, (h.entered? choice test value).bind (h.arrival? g.size choice) =
    (g.block test).successor? value
  edges : ∀ v < g.size, ∀ kind, g.Reroutes h test choice v kind

variable {base g h : Graph} {flow : Flow} {id : BlockId} {choice : Choice} {next branch : Target}

/-- A target that control enters as it is. -/
theorem arrival?_of_ne_bodyEnd {first : Nat} {composite : BlockId} {target : Target}
    (proper : target ≠ .bodyEnd) (old : ∀ v, target = .block v → v < first) :
    h.arrival? first composite target = some target := by
  -- A new block or the end of a body would be passed through.
  cases target with
  | block v => exact if_pos (old v rfl)
  | exit way =>
    cases way with
    | bodyEnd => exact absurd rfl proper
    | _ => rfl

/-- The edges of blocks when a choice takes the place of a test. -/
theorem Chosen.reroutes (chosen : Chosen g id choice h) (grows : base.size ≤ g.size)
    (old : ∀ i < base.size, g.bare i = base.bare i)
    (joins : ∀ arm ∈ choice.arms, ∀ last, joining? arm = some last →
      ∃ join, (base.bare last).next = some (.block join) ∧ choice.next = some (.block join))
    {v : BlockId} (known : v < base.size) (kind : EdgeKind) : base.Reroutes h id g.size v kind := by
  -- Renaming is what happens to the edges of a block that was there.
  have renamed : ((g.bare v).replaceTarget (.block id) (.block g.size)).edge? kind =
      ((base.bare v).edge? kind).map ((Target.block id).renamed (.block g.size)) := by
    rw [Block.edge?_replaceTarget, old v known]
  have edge : (h.block v).edge? kind = (h.bare v).edge? kind := rfl
  -- The test loses its successors; every other block keeps its edges but for the end of a chain.
  by_cases isTest : v = id
  · left
    subst isTest
    rw [edge, chosen.closed, Block.edge?_closed, renamed]
    simp only [true_and]
    rfl
  · rcases chosen.others v (Nat.lt_of_lt_of_le known grows) isTest
      with kept | ⟨⟨arm, listed, isLast⟩, ended⟩
    · left
      rw [edge, kept, renamed, if_neg fun both => isTest both.1]
      rfl
    · by_cases isNext : kind = .next
      · right
        obtain ⟨join, leads, goesOn⟩ := joins arm listed v isLast
        have endsBody : (h.bare v).next = some .bodyEnd := by rw [ended]
        have goesOn : (h.bare g.size).next = some (.block join) := by
          rw [chosen.composite]; exact goesOn
        exact ⟨isTest, isNext, endsBody, join, leads, goesOn⟩
      · -- The end of the chain is its next block alone.
        left
        rw [if_neg fun both => isTest both.1, edge, ended]
        refine Eq.trans ?_ renamed
        cases kind with
        | next => exact absurd rfl isNext
        | _ => rfl

/-- What a choice reads off its composite and its test. -/
theorem Chosen.entered?_eq (chosen : Chosen g id choice h) (value : Bool) :
    h.entered? g.size id value =
      if value ^^ (g.block id).inverted ^^ choice.invert then some choice.body
        else choice.otherwise.or choice.next := by
  -- Negating the test once more is what the choice does to it.
  have inverted : (h.bare id).inverted = ((g.bare id).inverted ^^ choice.invert) := by
    rw [chosen.closed]; rfl
  have body : (h.bare g.size).sub1 = some choice.body := by rw [chosen.composite]
  have otherwise : (h.bare g.size).sub2 = choice.otherwise := by rw [chosen.composite]
  have goesOn : (h.bare g.size).next = choice.next := by rw [chosen.composite]
  replace inverted : (h.block id).inverted = ((g.block id).inverted ^^ choice.invert) := inverted
  replace body : (h.block g.size).sub1 = some choice.body := body
  replace otherwise : (h.block g.size).sub2 = choice.otherwise := otherwise
  replace goesOn : (h.block g.size).next = choice.next := goesOn
  rw [entered?, inverted, body, otherwise, goesOn, Bool.xor_assoc]

/-- A choice between the successors of a test arrives where the test went. -/
theorem Chooses.arrives (chooses : Chooses g flow id next branch choice) {first : Nat}
    {composite : BlockId} (toNext : h.arrival? first composite next = some next)
    (toBranch : h.arrival? first composite branch = some branch)
    (toEnd : h.arrival? first composite .bodyEnd = choice.next) (holds : Bool) :
    (if holds ^^ choice.invert then some choice.body else choice.otherwise.or choice.next).bind
      (h.arrival? first composite) = if holds then some branch else some next := by
  -- Only a test for its effect alone enters the end of a body;
  -- all other choices enter a successor of the test.
  cases chooses <;> cases holds <;> simp [toNext, toBranch, toEnd]

/-- A choice tests what it was made of. -/
theorem Chosen.condition_eq (chosen : Chosen g id choice h) :
    (h.block g.size).condition = some (.block id) := by
  have condition : (h.bare g.size).condition = some (.block id) := by rw [chosen.composite]
  exact condition

/-- A choice that nests the chains after a test decides as the test did. -/
theorem Chooses.decides (chooses : Chooses g flow id next branch choice)
    (chosen : Chosen g id choice h) (mirrored : g.Mirrored) (isNext : (g.block id).next = some next)
    (isBranch : (g.block id).branch = some branch) (properNext : next ≠ .bodyEnd)
    (properBranch : branch ≠ .bodyEnd) : Decides g id h g.size := by
  -- The successors of the test are old blocks or exits, and neither is the end of a body.
  have toNext : h.arrival? g.size g.size next = some next :=
    arrival?_of_ne_bodyEnd properNext fun v same => mirrored.bounded ⟨.next, same ▸ isNext⟩
  have toBranch : h.arrival? g.size g.size branch = some branch :=
    arrival?_of_ne_bodyEnd properBranch fun v same => mirrored.bounded ⟨.branch, same ▸ isBranch⟩
  have toEnd : (h.bare g.size).next = choice.next := by rw [chosen.composite]
  refine ⟨⟨Nat.le_refl _, chosen.size⟩, fun v new old =>
    absurd old (Nat.not_lt.mpr new), chosen.condition_eq,
    fun value => ?_, fun v known kind => ?_⟩
  · -- The composite is read off, and so is the test.
    rw [chosen.entered?_eq, chooses.arrives toNext toBranch toEnd, Block.successor?, isNext,
      isBranch]
  · refine chosen.reroutes (Nat.le_refl _) (fun _ _ => rfl) (fun arm listed last joins => ?_)
      known kind
    -- A chain that runs on does so to where the choice goes on.
    obtain ⟨ends, join, finish⟩ := joining?_eq_some joins
    obtain ⟨bounds, head, -, -, -, walked⟩ := chooses.walked arm listed
    exact ⟨join, (walked.joins finish ends).1, chooses.joins listed finish⟩

/-- A literal jump to a target leaves the blocks that there are alone. -/
theorem bare_jumpTo (construct : Construct) (offset : Offset) (target : Target) :
    (∀ v < g.size, (g.jumpTo construct offset target).2.bare v = g.bare v) ∧
      ∀ v, g.size ≤ v → v < (g.jumpTo construct offset target).2.size →
        (g.jumpTo construct offset target).2.bare v = gotoBlock construct offset target := by
  -- A jump is added only for a block, and then as the last one.
  cases target with
  | exit way => exact ⟨fun _ _ => rfl, fun v new old => absurd old (Nat.not_lt.mpr new)⟩
  | block id =>
    refine ⟨fun v known => (bare_addGoto v).trans (if_neg (Nat.ne_of_lt known)),
      fun v new inside => ?_⟩
    have size : (g.jumpTo construct offset (.block id)).2.size = g.size + 1 := size_addGoto
    rw [size] at inside
    exact (bare_addGoto v).trans (if_pos (Nat.le_antisymm (Nat.le_of_lt_succ inside) new))

/-- A choice that keeps the branch of a test as a literal jump decides as the test did. -/
theorem decides_jumpTest (mirrored : g.Mirrored) (isNext : (g.block id).next = some next)
    (isBranch : (g.block id).branch = some branch) {construct : Construct} {offset : Offset}
    (isGoto : (BlockType.structured construct).isGoto = true)
    (chosen : Chosen (g.jumpTo construct offset branch).2 id
      { invert := false, body := (g.jumpTo construct offset branch).1, next := some next } h)
    (properNext : next ≠ .bodyEnd) (properBranch : branch ≠ .bodyEnd) (other : branch ≠ .block id) :
    Decides g id h (g.jumpTo construct offset branch).2.size := by
  obtain ⟨old, new⟩ := bare_jumpTo (g := g) construct offset branch
  have edge : (g.bare id).edge? .next = some next := isNext
  have known := lt_size_of_edge edge
  -- The literal jump is none of the blocks that the choice changes, and does not jump to its test.
  have jump : ∀ v, g.size ≤ v → v < (g.jumpTo construct offset branch).2.size →
      h.bare v = gotoBlock construct offset branch := by
    intro v isNew inside
    have notTest : v ≠ id := Nat.ne_of_gt (Nat.lt_of_lt_of_le known isNew)
    rcases chosen.others v inside notTest with kept | ⟨⟨arm, listed, -⟩, -⟩
    · rw [kept, new v isNew inside]
      refine Block.replaceTarget_eq_self _ fun kind edge => ?_
      rw [edge?_gotoBlock] at edge
      split at edge
      · exact other (Option.some.inj edge)
      · cases edge
    · exact absurd listed List.not_mem_nil
  have toNext : h.arrival? g.size (g.jumpTo construct offset branch).2.size next = some next :=
    arrival?_of_ne_bodyEnd properNext fun v same => mirrored.bounded ⟨.next, same ▸ isNext⟩
  have toBranch : h.arrival? g.size (g.jumpTo construct offset branch).2.size
      (g.jumpTo construct offset branch).1 = some branch := by
    -- An exit is entered as it is, and a block through the literal jump to it.
    cases branch with
    | exit way => exact arrival?_of_ne_bodyEnd properBranch fun v same => by cases same
    | block w =>
      have inside : g.size < (g.jumpTo construct offset (.block w)).2.size :=
        size_addGoto ▸ Nat.lt_succ_self _
      have jumps : (h.bare g.size).branch = some (.block w) := by
        rw [jump g.size (Nat.le_refl _) inside]; rfl
      exact (if_neg (Nat.lt_irrefl _)).trans jumps
  refine ⟨⟨size_le_jumpTo, chosen.size⟩, fun v isNew inside => ?_, chosen.condition_eq,
    fun value => ?_, fun v known kind => ?_⟩
  · -- New blocks are literal jumps.
    have type := congrArg Block.type (jump v isNew inside)
    exact type ▸ isGoto
  · -- The test is an old block, which the literal jump leaves alone.
    have unchanged : ((g.jumpTo construct offset branch).2.bare id).inverted =
        (g.bare id).inverted := by
      rw [old id known]
    replace unchanged : ((g.jumpTo construct offset branch).2.block id).inverted =
      (g.block id).inverted := unchanged
    rw [chosen.entered?_eq, unchanged, Bool.xor_false, Block.successor?, isNext, isBranch]
    cases value ^^ (g.block id).inverted with
    | true => exact toBranch
    | false => exact toNext
  · exact chosen.reroutes size_le_jumpTo old (fun arm listed => absurd listed List.not_mem_nil)
      known kind

/-- Structuring a test keeps what it decides and where control goes on. -/
theorem decides_of_nestIf_or_jumpTest (mirrored : g.Mirrored)
    (applied : g.nestIf flow id = some h ∨ g.jumpTest flow id = some h)
    (proper : ∀ target, (g.block id).next = some target ∨ (g.block id).branch = some target →
      target ≠ .block id ∧ target ≠ .bodyEnd) : ∃ choice, Decides g id h choice := by
  -- Nesting chooses between the successors themselves, the last resort between a jump
  -- and the next block.
  rcases applied with applied | applied
  · obtain ⟨next, branch, choice, isOpen, isNext, isBranch, -, chooses, rfl⟩ := nestIf_cases applied
    exact ⟨g.size, chooses.decides (chosen_nestIf mirrored isOpen chooses) mirrored isNext isBranch
      (proper next (.inl isNext)).2 (proper branch (.inr isBranch)).2⟩
  · obtain ⟨next, branch, isOpen, isNext, isBranch, rfl⟩ := jumpTest_cases applied
    exact ⟨_, decides_jumpTest mirrored isNext isBranch testJump_isGoto
      (chosen_jumpTest mirrored next isBranch _ _)
      (proper next (.inl isNext)).2 (proper branch (.inr isBranch)).2
      (proper branch (.inr isBranch)).1⟩

/-- A method with a choice between two statements: `0: iload_1; 1: ifne 5; 2: iinc 0; 3:
goto 6; 5: iinc 1; 6: return`. -/
def twoArmed : Method where
  code := [⟨0, ⟨27⟩, .absent, none⟩, ⟨1, ⟨154⟩, .branch 5, none⟩, ⟨2, ⟨132⟩, .increment 0 1, none⟩,
    ⟨3, ⟨167⟩, .branch 6, none⟩, ⟨5, ⟨132⟩, .increment 1 1, none⟩, ⟨6, ⟨177⟩, .absent, none⟩]
  codeLength := 7

/-- A graph whose second and third block are settled. -/
def settledArms (g : Graph) : Graph := (g.settle 2 .statements).settle 3 .statements

/-- The choice of that method negates its test, takes both statements as bodies and decides
as the test did. -/
theorem twoArmed_decides : ∃ g h, build twoArmed none {} = .ok g ∧
    g.settledArms.nestIf (.ofGraph g.settledArms) 1 = some h ∧
      (g.settledArms.block 1).next = some (.block 2) ∧
      (g.settledArms.block 1).branch = some (.block 3) ∧ (h.block 1).inverted = true ∧
      (h.block 2).next = some .bodyEnd ∧ (h.block 3).next = some .bodyEnd ∧
      ∃ choice, Decides g.settledArms 1 h choice := by
  -- The choice is evaluated, and it decides as the test did by the theorem.
  have evaluated : (build twoArmed none {}).toOption.any (fun g =>
      (g.settledArms.nestIf (.ofGraph g.settledArms) 1).any fun h => decide
        ((g.settledArms.block 1).next = some (.block 2) ∧
          (g.settledArms.block 1).branch = some (.block 3) ∧
          (h.block 1).inverted = true ∧ (h.block 2).next = some .bodyEnd ∧
          (h.block 3).next = some .bodyEnd)) = true := by
    decide +kernel
  obtain ⟨g, made, evaluated⟩ := exists_eq_ok_of_any evaluated
  obtain ⟨h, applied, evaluated⟩ := (Option.any_eq_true ..).mp evaluated
  obtain ⟨isNext, isBranch, negated, endsFall, endsJump⟩ := of_decide_eq_true evaluated
  have linked : g.settledArms.Linked :=
    ((sound_of_build made).toLinked.settle (by decide)).settle (by decide)
  refine ⟨g, h, made, applied, isNext, isBranch, negated, endsFall, endsJump,
    decides_of_nestIf_or_jumpTest linked.toMirrored (.inl applied) ?_⟩
  rintro target (successor | successor)
  · cases isNext.symm.trans successor
    exact ⟨by decide, by decide⟩
  · cases isBranch.symm.trans successor
    exact ⟨by decide, by decide⟩

end Graph

end Unjump
