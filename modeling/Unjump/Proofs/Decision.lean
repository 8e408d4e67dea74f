import Unjump.Proofs.Build
import Unjump.Proofs.Rewrite.Test

/-!
A test made of tests decides as they did one after the other.

Single tests have truth values, and a composite test is evaluated from left to right, no further
than needed. Where it goes is where the tests that it absorbs used to lead. In particular a way back
to the first of them stays one to that test, which is now an operand, and does not become one
to the composite.
-/

namespace Unjump

open Relation

/-- What a test is made of. -/
inductive Test where
  | single
  /-- Two tests, of which the first decides alone if it has a certain value. -/
  | joint (decisive : Bool) (first second : BlockId)
  /-- A test that selects one of two others. -/
  | choice (selector held failed : BlockId)
deriving DecidableEq

namespace Test

/-- The tests that a test is made of. -/
def operands : Test → List BlockId
  | .single => []
  | .joint _ first second => [first, second]
  | .choice selector held failed => [selector, held, failed]

/-- The test with one operand in the place of another. -/
def renamed (old new : BlockId) : Test → Test
  | .single => .single
  | .joint decisive first second =>
    .joint decisive (if first = old then new else first) (if second = old then new else second)
  | .choice selector held failed =>
    .choice (if selector = old then new else selector) (if held = old then new else held)
      (if failed = old then new else failed)

/-- Renaming changes nothing about a test without the operand. -/
theorem renamed_eq_self {test : Test} {old : BlockId} (new : BlockId)
    (absent : old ∉ test.operands) : test.renamed old new = test := by
  -- One case per kind of test, as they differ in how many operands they name.
  cases test with
  | single => rfl
  | joint decisive first second =>
    simp only [operands, List.mem_cons, List.not_mem_nil, or_false, not_or] at absent
    simp [renamed, Ne.symm absent.1, Ne.symm absent.2]
  | choice selector held failed =>
    simp only [operands, List.mem_cons, List.not_mem_nil, or_false, not_or] at absent
    simp [renamed, Ne.symm absent.1, Ne.symm absent.2.1, Ne.symm absent.2.2]

end Test

namespace Block

/-- The two tests that a block joins. -/
def joint? (b : Block) (decisive : Bool) : Option Test :=
  (b.sub1.bind Target.block?).bind fun first => (b.sub2.bind Target.block?).map fun second =>
    .joint decisive first second

/-- The two tests that a block selects from, and the one that selects. -/
def choice? (b : Block) : Option Test :=
  (b.condition.bind Target.block?).bind fun selector => (b.sub1.bind Target.block?).bind fun held =>
    (b.sub2.bind Target.block?).map fun failed => .choice selector held failed

/-- The test that a block is. -/
def test? (b : Block) : Option Test :=
  match b.type with
  | .raw .conditional | .structured .condition => some .single
  | .structured .conditionOr => b.joint? true
  | .structured .conditionAnd => b.joint? false
  | .structured .conditionTernary => b.choice?
  | _ => none

/-- The operands of a test are blocks that it leads to. -/
theorem edge?_of_mem_operands {b : Block} {test : Test} {operand : BlockId}
    (isTest : b.test? = some test) (listed : operand ∈ test.operands) :
    ∃ kind, b.edge? kind = some (.block operand) := by
  -- A field that names an operand is an edge.
  have edge : ∀ {target : Option Target} {k : BlockId}, target.bind Target.block? = some k →
      target = some (.block k) := by
    intro target k found
    obtain ⟨way, rfl, isBlock⟩ := Option.bind_eq_some_iff.mp found
    exact congrArg some (Target.block?_eq_some_iff.mp isBlock)
  have joint : ∀ decisive, b.joint? decisive = some test →
      ∃ kind, b.edge? kind = some (.block operand) := by
    intro decisive isJoint
    obtain ⟨first, isFirst, isJoint⟩ := Option.bind_eq_some_iff.mp isJoint
    obtain ⟨second, isSecond, rfl⟩ := Option.map_eq_some_iff.mp isJoint
    simp only [Test.operands, List.mem_cons, List.not_mem_nil, or_false] at listed
    rcases listed with rfl | rfl
    · exact ⟨.sub1, edge isFirst⟩
    · exact ⟨.sub2, edge isSecond⟩
  -- The type says how many operands there are, and in which fields.
  unfold test? at isTest
  split at isTest
  · cases isTest
    cases listed
  · cases isTest
    cases listed
  · exact joint true isTest
  · exact joint false isTest
  · obtain ⟨selector, isSelector, isTest⟩ := Option.bind_eq_some_iff.mp isTest
    obtain ⟨held, isHeld, isTest⟩ := Option.bind_eq_some_iff.mp isTest
    obtain ⟨failed, isFailed, rfl⟩ := Option.map_eq_some_iff.mp isTest
    simp only [Test.operands, List.mem_cons, List.not_mem_nil, or_false] at listed
    rcases listed with rfl | rfl | rfl
    · exact ⟨.condition, edge isSelector⟩
    · exact ⟨.sub1, edge isHeld⟩
    · exact ⟨.sub2, edge isFailed⟩
  · cases isTest

/-- Only conditions are tests. -/
theorem isCondition_of_test? {b : Block} {test : Test} (isTest : b.test? = some test) :
    b.type.isCondition = true := by
  -- The types with a test are those of conditions.
  unfold test? at isTest
  split at isTest
  all_goals first | cases isTest; done | simp_all [BlockType.isCondition]

/-- A renamed field names the renamed operand. -/
theorem bind_block?_renamed (target : Option Target) (old new : BlockId) :
    (target.map ((Target.block old).renamed (.block new))).bind Target.block? =
      (target.bind Target.block?).map fun k => if k = old then new else k := by
  -- Only a field that holds a block names an operand.
  rcases target with _ | (k | way)
  · rfl
  · by_cases same : k = old
    · simp [Target.renamed, Target.block?, same]
    · simp [Target.renamed, Target.block?, same]
  · rfl

/-- Renaming a target renames the two tests that a block joins. -/
theorem joint?_replaceTarget (b : Block) (old new : BlockId) (decisive : Bool) :
    (b.replaceTarget (.block old) (.block new)).joint? decisive =
      (b.joint? decisive).map (Test.renamed old new) := by
  -- Both fields are renamed on their own.
  have sub1 : (b.replaceTarget (.block old) (.block new)).sub1.bind Target.block? = _ :=
    bind_block?_renamed b.sub1 old new
  have sub2 : (b.replaceTarget (.block old) (.block new)).sub2.bind Target.block? = _ :=
    bind_block?_renamed b.sub2 old new
  rw [joint?, joint?, sub1, sub2]
  cases b.sub1.bind Target.block? with
  | none => rfl
  | some first => cases b.sub2.bind Target.block? <;> rfl

/-- Renaming a target renames the tests of a selection. -/
theorem choice?_replaceTarget (b : Block) (old new : BlockId) :
    (b.replaceTarget (.block old) (.block new)).choice? = b.choice?.map (Test.renamed old new) := by
  -- All three fields are renamed on their own.
  have condition : (b.replaceTarget (.block old) (.block new)).condition.bind Target.block? = _ :=
    bind_block?_renamed b.condition old new
  have sub1 : (b.replaceTarget (.block old) (.block new)).sub1.bind Target.block? = _ :=
    bind_block?_renamed b.sub1 old new
  have sub2 : (b.replaceTarget (.block old) (.block new)).sub2.bind Target.block? = _ :=
    bind_block?_renamed b.sub2 old new
  rw [choice?, choice?, condition, sub1, sub2]
  cases b.condition.bind Target.block? with
  | none => rfl
  | some selector =>
    cases b.sub1.bind Target.block? with
    | none => rfl
    | some held => cases b.sub2.bind Target.block? <;> rfl

/-- Renaming a target renames the operands. -/
theorem test?_replaceTarget (b : Block) (old new : BlockId) :
    (b.replaceTarget (.block old) (.block new)).test? = b.test?.map (Test.renamed old new) := by
  have type : (b.replaceTarget (.block old) (.block new)).type = b.type := rfl
  simp only [test?, type]
  -- Only composites have operands, and the type says which of them are read.
  split
  · rfl
  · rfl
  · exact joint?_replaceTarget b old new true
  · exact joint?_replaceTarget b old new false
  · exact choice?_replaceTarget b old new
  · rfl

/-- Settling a test keeps what it is made of. -/
theorem test?_closed (b : Block) (invert : Bool) : (b.closed invert).test? = b.test? := by
  -- Closing settles a raw conditional, which is a single test before and after.
  by_cases isRaw : b.type = .raw .conditional
  · simp [test?, closed, isRaw]
  · have type : (b.closed invert).type = b.type := if_neg isRaw
    simp only [test?, type]
    rfl

/-- No edge is left to a target that has been renamed. -/
theorem edge?_replaceTarget_ne {b : Block} {old new : Target} (other : new ≠ old)
    (kind : EdgeKind) : (b.replaceTarget old new).edge? kind ≠ some old := by
  -- A target that is renamed is the old one, and no other one becomes it.
  intro edge
  rw [edge?_replaceTarget, Option.map_eq_some_iff] at edge
  obtain ⟨before, -, renamed⟩ := edge
  by_cases same : before = old
  · rw [same, Target.renamed_self] at renamed
    exact other renamed
  · exact same ((Target.renamed_ne same).symm.trans renamed)

end Block

namespace Graph

/-- The value of a test for given values of the single tests. -/
inductive Evaluates (g : Graph) (truth : BlockId → Bool) : BlockId → Bool → Prop
  | single {id} (isTest : (g.bare id).test? = some .single) :
      Evaluates g truth id (truth id ^^ (g.bare id).inverted)
  | decided {id decisive first second}
      (isTest : (g.bare id).test? = some (.joint decisive first second))
      (decides : Evaluates g truth first decisive) :
      Evaluates g truth id (decisive ^^ (g.bare id).inverted)
  | deferred {id decisive first second value}
      (isTest : (g.bare id).test? = some (.joint decisive first second))
      (defers : Evaluates g truth first !decisive) (decides : Evaluates g truth second value) :
      Evaluates g truth id (value ^^ (g.bare id).inverted)
  | chosen {id selector held failed choice value}
      (isTest : (g.bare id).test? = some (.choice selector held failed))
      (selects : Evaluates g truth selector choice)
      (decides : Evaluates g truth (if choice then held else failed) value) :
      Evaluates g truth id (value ^^ (g.bare id).inverted)

/-- Where an open test goes. -/
def Goes (g : Graph) (truth : BlockId → Bool) (id : BlockId) (target : Option Target) : Prop :=
  (g.bare id).isOpenCondition = true ∧ ∃ value, g.Evaluates truth id value ∧
    target = if value then (g.bare id).branch else (g.bare id).next

/-- Where a test goes through some others that it may lead to. -/
inductive Arrives (g : Graph) (truth : BlockId → Bool) (inner : List BlockId) :
    BlockId → Option Target → Prop
  | leaves {id target} (goes : g.Goes truth id target)
      (outside : ∀ next ∈ inner, target ≠ some (.block next)) : Arrives g truth inner id target
  | passes {id next target} (goes : g.Goes truth id (some (.block next))) (inside : next ∈ inner)
      (rest : Arrives g truth inner next target) : Arrives g truth inner id target

/-- Whether a test is an operand of another one. -/
def Operand (g : Graph) (owner id : BlockId) : Prop :=
  ∃ test, (g.bare owner).test? = some test ∧ id ∈ test.operands

section Transfer

variable {g h : Graph} {truth : BlockId → Bool} {id : BlockId} {value : Bool}

/-- Whether two graphs agree on a test and on all that it is made of. -/
def AgreeOn (g h : Graph) (id : BlockId) : Prop :=
  ∀ k, ReflTransGen g.Operand id k →
    (h.bare k).test? = (g.bare k).test? ∧ (h.bare k).inverted = (g.bare k).inverted

/-- Graphs that agree on a test agree on its operands. -/
theorem AgreeOn.operand (agree : AgreeOn g h id) {k : BlockId} (operand : g.Operand id k) :
    AgreeOn g h k :=
  fun other operands => agree other (.head operand operands)

/-- A test has the same value in a graph that agrees on it. -/
theorem Evaluates.congr (evaluates : g.Evaluates truth id value) (agree : AgreeOn g h id) :
    h.Evaluates truth id value := by
  -- Along the evaluation: each operand that is asked agrees, since the test that asks it does.
  induction evaluates with
  | @single id isTest =>
    obtain ⟨test, inverted⟩ := agree id .refl
    rw [← inverted]
    exact .single (test.trans isTest)
  | @decided id decisive first second isTest _ ih =>
    obtain ⟨test, inverted⟩ := agree id .refl
    rw [← inverted]
    exact .decided (test.trans isTest) (ih (agree.operand ⟨_, isTest, by simp [Test.operands]⟩))
  | @deferred id decisive first second value isTest _ _ ih ih' =>
    obtain ⟨test, inverted⟩ := agree id .refl
    rw [← inverted]
    exact .deferred (test.trans isTest) (ih (agree.operand ⟨_, isTest, by simp [Test.operands]⟩))
      (ih' (agree.operand ⟨_, isTest, by simp [Test.operands]⟩))
  | @chosen id selector held failed choice value isTest _ _ ih ih' =>
    obtain ⟨test, inverted⟩ := agree id .refl
    rw [← inverted]
    refine .chosen (test.trans isTest) (ih (agree.operand ⟨_, isTest, by simp [Test.operands]⟩))
      (ih' (agree.operand ⟨_, isTest, ?_⟩))
    -- Whichever test is selected is an operand.
    cases choice <;> simp [Test.operands]

/-- Agreement goes both ways. -/
theorem AgreeOn.symm (agree : AgreeOn g h id) : AgreeOn h g id := by
  -- An operand in the second graph is one in the first, as the tests along the way agree.
  intro k operands
  suffices ReflTransGen g.Operand id k from (agree k this).imp Eq.symm Eq.symm
  induction operands with
  | refl => exact .refl
  | tail _ operand ih =>
    obtain ⟨test, isTest, listed⟩ := operand
    exact ih.tail ⟨test, (agree _ ih).1.symm.trans isTest, listed⟩

/-- A test has the same values in graphs that agree on it. -/
theorem AgreeOn.evaluates_iff (agree : AgreeOn g h id) :
    h.Evaluates truth id value ↔ g.Evaluates truth id value :=
  ⟨fun evaluates => evaluates.congr agree.symm, fun evaluates => evaluates.congr agree⟩

/-- A test that is negated, with operands that are the same, has the opposite value. -/
theorem Evaluates.negated {invert : Bool} (evaluates : g.Evaluates truth id value)
    (test : (h.bare id).test? = (g.bare id).test?)
    (inverted : (h.bare id).inverted = ((g.bare id).inverted ^^ invert))
    (agree : ∀ k, g.Operand id k → AgreeOn g h k) : h.Evaluates truth id (value ^^ invert) := by
  -- The value is that of the operands, negated once more.
  cases evaluates with
  | single isTest =>
    rw [Bool.xor_assoc, ← inverted]
    exact .single (test.trans isTest)
  | decided isTest decides =>
    rw [Bool.xor_assoc, ← inverted]
    exact .decided (test.trans isTest)
      (decides.congr (agree _ ⟨_, isTest, by simp [Test.operands]⟩))
  | deferred isTest defers decides =>
    rw [Bool.xor_assoc, ← inverted]
    exact .deferred (test.trans isTest)
      (defers.congr (agree _ ⟨_, isTest, by simp [Test.operands]⟩))
      (decides.congr (agree _ ⟨_, isTest, by simp [Test.operands]⟩))
  | @chosen _ _ _ _ choice _ isTest selects decides =>
    rw [Bool.xor_assoc, ← inverted]
    refine .chosen (test.trans isTest)
      (selects.congr (agree _ ⟨_, isTest, by simp [Test.operands]⟩))
      (decides.congr (agree _ ⟨_, isTest, ?_⟩))
    -- Whichever test is selected is an operand.
    cases choice <;> simp [Test.operands]

/-- A test that is negated has the opposite values. -/
theorem evaluates_iff_of_negated {invert : Bool} (test : (h.bare id).test? = (g.bare id).test?)
    (inverted : (h.bare id).inverted = ((g.bare id).inverted ^^ invert))
    (agree : ∀ k, g.Operand id k → AgreeOn g h k) :
    h.Evaluates truth id value ↔ g.Evaluates truth id (value ^^ invert) := by
  -- Negating it once more gives back the first graph.
  constructor
  · intro evaluates
    refine evaluates.negated test.symm (by simp [inverted]) fun k operand => ?_
    -- The operands are the same seen from either graph.
    obtain ⟨made, isTest, listed⟩ := operand
    exact (agree k ⟨made, test.symm.trans isTest, listed⟩).symm
  · intro evaluates
    simpa using evaluates.negated test inverted agree

/-- A joint test has the value of its first operand if that is decisive, and else
that of its second one. -/
theorem evaluates_joint_iff {decisive : Bool} {first second : BlockId}
    (isTest : (g.bare id).test? = some (.joint decisive first second)) :
    g.Evaluates truth id value ↔
      g.Evaluates truth first decisive ∧ value = (decisive ^^ (g.bare id).inverted) ∨
        g.Evaluates truth first (!decisive) ∧
        g.Evaluates truth second (value ^^ (g.bare id).inverted) := by
  constructor
  · intro evaluates
    -- Only the rules for joint tests apply, as the type of the test says which one it is.
    cases evaluates with
    | single other => cases isTest.symm.trans other
    | decided other decides =>
      cases isTest.symm.trans other
      exact .inl ⟨decides, rfl⟩
    | deferred other defers decides =>
      cases isTest.symm.trans other
      exact .inr ⟨defers, by simpa using decides⟩
    | chosen other => cases isTest.symm.trans other
  · -- The other way round, either rule can be applied.
    rintro (⟨decides, rfl⟩ | ⟨defers, decides⟩)
    · exact .decided isTest decides
    · simpa using Evaluates.deferred isTest defers decides

/-- A selection has the value of the operand that is selected. -/
theorem evaluates_choice_iff {selector held failed : BlockId}
    (isTest : (g.bare id).test? = some (.choice selector held failed)) :
    g.Evaluates truth id value ↔
      ∃ choice, g.Evaluates truth selector choice ∧
        g.Evaluates truth (if choice then held else failed) (value ^^ (g.bare id).inverted) := by
  constructor
  · intro evaluates
    -- Only the rule for selections applies.
    cases evaluates with
    | single other => cases isTest.symm.trans other
    | decided other => cases isTest.symm.trans other
    | deferred other => cases isTest.symm.trans other
    | chosen other selects decides =>
      cases isTest.symm.trans other
      exact ⟨_, selects, by simpa using decides⟩
  · rintro ⟨choice, selects, decides⟩
    simpa using Evaluates.chosen isTest selects decides

end Transfer

section Combined

variable {g h : Graph} {truth : BlockId → Bool} {flow : Flow} {id : BlockId} {value : Bool}

/-- The operands of a test are blocks that it leads to. -/
theorem Operand.leads {owner operand : BlockId} (isOperand : g.Operand owner operand) :
    g.Leads owner operand := by
  -- An operand stands in one of the fields of its test.
  obtain ⟨test, isTest, listed⟩ := isOperand
  exact Block.edge?_of_mem_operands isTest listed

/-- A test becomes an operand of a new one, perhaps negated. The new test goes where the last
of its operands went. -/
structure Combined (g : Graph) (id : BlockId) (invert : Bool) (test : Test) (last : BlockId)
    (h : Graph) : Prop where
  first : (h.bare id).test? = (g.bare id).test?.map (Test.renamed id g.size)
  inverted : (h.bare id).inverted = ((g.bare id).inverted ^^ invert)
  others : ∀ k < g.size, k ≠ id → (h.bare k).test? = (g.bare k).test?.map (Test.renamed id g.size) ∧
    (h.bare k).inverted = (g.bare k).inverted
  composite : (h.bare g.size).test? = some test
  plain : (h.bare g.size).inverted = false
  next : (h.bare g.size).next = (g.bare last).next
  branch : (h.bare g.size).branch = (g.bare last).branch
  mirrored : h.Mirrored
  size : h.size = g.size + 1
  left : ∀ k < g.size, ¬ h.Leads k id
  moved : ∀ k < g.size, k ∉ test.operands → (h.Leads k g.size ↔ g.Leads k id)

/-- Settling a test keeps edges and their records in step. -/
theorem Mirrored.closeTest {invert : Bool} (mirrored : g.Mirrored) :
    (g.closeTest id invert).Mirrored := by
  -- Settling only takes edges away.
  refine mirrored.update rfl fun {kind target} edge => ?_
  have before : (g.block id).edge? kind = some (.block target) := Block.edge?_of_closed edge
  have leads : g.Leads id target := ⟨kind, before⟩
  exact mirrored.bounded leads

/-- Combining tests keeps edges and their records in step, if the new test leads
to blocks of the graph. -/
theorem Mirrored.combine {construct : Construct} {operands : List (BlockId × Bool)}
    {fields : Block → Block} (mirrored : g.Mirrored) (distinct : (operands.map (·.1)).Nodup)
    (known : ∀ operand ∈ operands, operand.1 < g.size) (pure : ∀ b, (fields b).bare = fields b.bare)
    (kept : ∀ b, (fields b).preds = b.preds)
    (inside : ∀ kind target,
      (fields (Block.covering construct ((operands.map (·.1)).map g.block))).edge? kind =
      some (.block target) → target < g.size) :
    (g.combine id construct operands fields).Mirrored := by
  -- Neither the new block nor settling the operands puts them out of step.
  have folded : (operands.foldl (fun g operand => g.closeTest operand.1 operand.2)
      (g.absorb id construct (operands.map (·.1)))).Mirrored :=
    List.foldlRecOn operands _ mirrored.absorb fun _ before _ _ => before.closeTest
  refine folded.update (kept _) fun {kind target} edge => ?_
  -- The new block is the composite, whose edges lead to old blocks.
  have composite : (g.combine id construct operands fields).bare g.size = _ :=
    (bare_combine mirrored distinct known pure _).trans (if_pos rfl)
  have own : (g.combine id construct operands fields).bare g.size = (fields (_ : Block)).bare :=
    (bare_update_block fields (by simp [size_foldl_closeTest]) _).trans (if_pos rfl)
  rw [size_foldl_closeTest, size_absorb]
  refine Nat.lt_succ_of_lt (inside kind target ?_)
  rw [← composite, own]
  exact edge

/-- Operands that are not negated are found as such. -/
theorem lookup_map_false (inner : List BlockId) (k : BlockId) :
    (inner.map (·, false)).lookup k = some false ∨ (inner.map (·, false)).lookup k = none := by
  -- What is found stems from the list, where no operand is negated.
  cases found : (inner.map (·, false)).lookup k with
  | none => exact .inr rfl
  | some invert =>
    obtain ⟨before, after, listed, -⟩ := List.lookup_eq_some_iff.mp found
    have member : (k, invert) ∈ inner.map (·, false) := by simp [listed]
    obtain ⟨_, -, same⟩ := List.mem_map.mp member
    cases same
    exact .inl rfl

/-- After a renaming, a block leads to the new name exactly if it led to the old one. -/
theorem exists_edge?_replaceTarget_iff {b : Block} {old new : Target}
    (fresh : ∀ kind, b.edge? kind ≠ some new) :
    (∃ kind, (b.replaceTarget old new).edge? kind = some new) ↔
      ∃ kind, b.edge? kind = some old := by
  refine exists_congr fun kind => ?_
  rw [Block.edge?_replaceTarget, Option.map_eq_some_iff]
  -- An edge to the new name has been renamed, since there was none before.
  constructor
  · rintro ⟨before, edge, renamed⟩
    by_cases same : before = old
    · exact same ▸ edge
    · rw [Target.renamed_ne same] at renamed
      exact absurd (renamed ▸ edge) (fresh kind)
  · exact fun edge => ⟨old, edge, Target.renamed_self old new⟩

/-- Combining tests changes the first one and what leads to it. -/
theorem combined_combine {construct : Construct} {invert : Bool} {inner : List BlockId}
    {test : Test} {last : BlockId} {fields : Block → Block} (mirrored : g.Mirrored)
    (distinct : (id :: inner).Nodup) (known : ∀ k ∈ id :: inner, k < g.size)
    (pure : ∀ b, (fields b).bare = fields b.bare) (kept : ∀ b, (fields b).preds = b.preds)
    (plain : ∀ b, (fields b).inverted = b.inverted)
    (next : ∀ b, (fields b).next = (g.bare last).next)
    (branch : ∀ b, (fields b).branch = (g.bare last).branch)
    (composite : (fields (Block.covering construct ((id :: inner).map g.block))).test? = some test)
    (operands : ∀ k ∈ id :: inner, k ∈ test.operands)
    (edges : ∀ kind target,
      (fields (Block.covering construct ((id :: inner).map g.block))).edge? kind =
      some (.block target) → target < g.size) :
    Combined g id invert test last
      (g.combine id construct ((id, invert) :: inner.map (·, false)) fields) := by
  -- The operands and what combining does to each block.
  have listed : ((id, invert) :: inner.map (·, false)).map (·.1) = id :: inner := by
    simp [Function.comp_def]
  have knownOperands : ∀ operand ∈ (id, invert) :: inner.map (·, false), operand.1 < g.size := by
    simpa using known
  have blocks : ∀ k,
      (g.combine id construct ((id, invert) :: inner.map (·, false)) fields).bare k = _ :=
    bare_combine mirrored (listed ▸ distinct) knownOperands pure
  have inside : id < g.size := known id List.mem_cons_self
  -- The first test is closed and perhaps negated.
  have own : (g.combine id construct ((id, invert) :: inner.map (·, false)) fields).bare id =
      ((g.bare id).replaceTarget (.block id) (.block g.size)).closed invert := by
    rw [blocks, if_neg (Nat.ne_of_lt inside)]
    simp
  have new : (g.combine id construct ((id, invert) :: inner.map (·, false)) fields).bare g.size =
      fields (Block.covering construct ((id :: inner).map g.block)) := by
    rw [blocks, if_pos rfl, listed]
  -- A block that is no operand is only renamed.
  have others : ∀ k < g.size, k ∉ id :: inner →
      (g.combine id construct ((id, invert) :: inner.map (·, false)) fields).bare k =
        (g.bare k).replaceTarget (.block id) (.block g.size) := by
    intro k below notOperand
    have absent : ((id, invert) :: inner.map (·, false)).lookup k = none := by
      rw [List.lookup_eq_none_iff]
      intro operand isOperand
      have member := List.mem_map_of_mem (f := (·.1)) isOperand
      rw [listed] at member
      simpa using fun same : k = operand.1 => notOperand (same ▸ member)
    rw [blocks, if_neg (Nat.ne_of_lt below), absent]
  constructor
  case first => rw [own, Block.test?_closed, Block.test?_replaceTarget]
  case inverted =>
    rw [own]
    rfl
  case others =>
    intro k below other
    rw [blocks, if_neg (Nat.ne_of_lt below), List.lookup_cons, beq_eq_false_iff_ne.mpr other]
    -- The other operands are closed but not negated, and all other blocks only renamed.
    rcases lookup_map_false inner k with lookup | lookup
    · simp only [lookup]
      exact ⟨(Block.test?_closed ..).trans (Block.test?_replaceTarget ..), Bool.xor_false _⟩
    · simp only [lookup]
      exact ⟨Block.test?_replaceTarget .., rfl⟩
  case composite => rw [new, composite]
  case plain => rw [new, plain, Block.covering]
  case next => rw [new, next]
  case branch => rw [new, branch]
  case mirrored =>
    exact mirrored.combine (listed ▸ distinct) knownOperands pure kept (listed ▸ edges)
  case size => exact size_combine
  case left =>
    rintro k below ⟨kind, edge⟩
    have other : Target.block g.size ≠ .block id := by simpa using Nat.ne_of_gt inside
    refine Block.edge?_replaceTarget_ne other kind (b := g.bare k) ?_
    -- Closing a test gives it no new edges.
    rw [blocks, if_neg (Nat.ne_of_lt below)] at edge
    split at edge
    · exact Block.edge?_of_closed edge
    · exact edge
  case moved =>
    intro k below notOperand
    rw [Leads, others k below fun isOperand => notOperand (operands k isOperand)]
    -- No edge led to the composite, which is new.
    exact exists_edge?_replaceTarget_iff fun kind edge =>
      Nat.lt_irrefl _ (mirrored.bounded ⟨kind, edge⟩)

section Values

variable {invert : Bool} {test : Test} {last : BlockId}
    (combined : Combined g id invert test last h) (mirrored : g.Mirrored)

include combined

/-- The new test is open if the last of its operands was. -/
theorem Combined.isOpen (opens : (g.bare last).isOpenCondition = true) :
    (h.bare g.size).isOpenCondition = true := by
  -- The new test branches where the last one did.
  refine isOpenCondition_iff.mpr ⟨Block.isCondition_of_test? combined.composite, ?_⟩
  rw [combined.branch]
  exact (isOpenCondition_iff.mp opens).2

/-- The new test is entered in the place of its first operand, which is entered from there alone. -/
theorem Combined.preds (mirrored : g.Mirrored) (isOperand : id ∈ test.operands) :
    (∀ source, source ∈ (h.block id).preds ↔ source = g.size) ∧
      ∀ source < g.size, source ∉ test.operands →
        (source ∈ (h.block g.size).preds ↔ source ∈ (g.block id).preds) := by
  -- No old block leads to the first operand any more, and the new test is the only new block.
  refine ⟨fun source => combined.mirrored.mirror.trans ⟨fun leads => ?_, ?_⟩,
    fun source below notOperand => ?_⟩
  · have bounded : source < g.size + 1 := combined.size ▸ leads.lt_size
    exact Nat.eq_of_lt_succ_of_not_lt bounded fun old => combined.left source old leads
  · rintro rfl
    exact Block.edge?_of_mem_operands combined.composite isOperand
  · rw [combined.mirrored.mirror, mirrored.mirror]
    exact combined.moved source below notOperand

include mirrored

/-- Tests without the first one among their operands are the same. -/
theorem Combined.agreeOn {k : BlockId} (below : k < g.size) (other : k ≠ id)
    (apart : ¬ TransGen g.Operand k id) : AgreeOn g h k := by
  -- None of the operands is the first test, and all are old blocks.
  intro operand operands
  have notFirst : operand ≠ id := by
    rintro rfl
    rcases operands.cases_head with same | ⟨next, first, rest⟩
    · exact other same
    · exact apart (.head' first rest)
  have inside : operand < g.size := by
    rcases operands.cases_tail with same | ⟨previous, -, last⟩
    · exact same ▸ below
    · exact mirrored.bounded last.leads
  obtain ⟨test, inverted⟩ := combined.others operand inside notFirst
  refine ⟨test.trans ?_, inverted⟩
  -- The first test is no operand of this one either.
  cases isTest : (g.bare operand).test? with
  | none => rfl
  | some test =>
    refine congrArg some (Test.renamed_eq_self _ fun listed => apart ?_)
    exact .tail' operands ⟨test, isTest, listed⟩

/-- The other tests have the values that they had. -/
theorem Combined.evaluates_other {k : BlockId} (below : k < g.size) (other : k ≠ id)
    (apart : ¬ TransGen g.Operand k id) : h.Evaluates truth k value ↔ g.Evaluates truth k value :=
  (combined.agreeOn mirrored below other apart).evaluates_iff

/-- The first test has the value that it had, or the opposite if it is negated. -/
theorem Combined.evaluates_first (apart : ¬ TransGen g.Operand id id) :
    h.Evaluates truth id value ↔ g.Evaluates truth id (value ^^ invert) := by
  -- Its operands are the same as before, since it is none of them.
  refine evaluates_iff_of_negated (combined.first.trans ?_) combined.inverted fun k operand => ?_
  · cases isTest : (g.bare id).test? with
    | none => rfl
    | some test =>
      exact congrArg some (Test.renamed_eq_self _ fun listed =>
        apart (.single ⟨test, isTest, listed⟩))
  · refine combined.agreeOn mirrored (mirrored.bounded operand.leads) ?_ fun deeper =>
      apart (.head operand deeper)
    rintro rfl
    exact apart (.single operand)

end Values

/-- Control leaves an open test along both of its successors. -/
theorem flows_of_isOpenCondition {b : Block} (isOpen : b.isOpenCondition = true) :
    b.flows .next = true ∧ b.flows .branch = true := by
  -- A structured test that is open is one that has not been nested yet.
  obtain ⟨isTest, -⟩ := isOpenCondition_iff.mp isOpen
  unfold Block.flows
  cases type : b.type with
  | start => rw [type] at isTest; cases isTest
  | raw => exact ⟨rfl, rfl⟩
  | structured => simp [isOpen]

/-- Tests that are only entered from another one do not lead to each other. -/
theorem ne_block_of_isOperandOf (mirrored : g.Mirrored) {k other : BlockId} (notFirst : k ≠ id)
    (isOpen : (g.bare k).isOpenCondition = true) (operand : g.isOperandOf flow id other = true) :
    (g.bare k).next ≠ some (.block other) ∧ (g.bare k).branch ≠ some (.block other) := by
  -- An open test flows along both of its edges, and would be a further flow predecessor.
  obtain ⟨-, -, preds⟩ := isOperandOf_iff.mp operand
  obtain ⟨flowsNext, flowsBranch⟩ := flows_of_isOpenCondition isOpen
  have noFlow : k ∉ g.flowPreds other := by
    rw [preds]
    simpa [IdSet.mem_insert, IdSet.not_mem_empty] using notFirst
  exact ⟨fun edge => noFlow ((mem_flowPreds mirrored).mpr ⟨.next, flowsNext, edge⟩),
    fun edge => noFlow ((mem_flowPreds mirrored).mpr ⟨.branch, flowsBranch, edge⟩)⟩

/-- So control does not go from one of them to another. -/
theorem Goes.ne_operand (mirrored : g.Mirrored) {k other : BlockId} {target : Option Target}
    (goes : g.Goes truth k target) (notFirst : k ≠ id)
    (operand : g.isOperandOf flow id other = true) : target ≠ some (.block other) := by
  -- Where a test goes is one of its two successors.
  obtain ⟨opens, value, -, rfl⟩ := goes
  obtain ⟨notNext, notBranch⟩ := ne_block_of_isOperandOf mirrored notFirst opens operand
  split
  · exact notBranch
  · exact notNext

/-- A test that goes to others, which do not go to each other, arrives where those go. -/
theorem arrives_iff {inner : List BlockId}
    (stops : ∀ k ∈ inner, ∀ target, g.Goes truth k target →
      ∀ other ∈ inner, target ≠ some (.block other))
    {target : Option Target} : g.Arrives truth inner id target ↔
      (g.Goes truth id target ∧ ∀ next ∈ inner, target ≠ some (.block next)) ∨
        ∃ next ∈ inner, g.Goes truth id (some (.block next)) ∧ g.Goes truth next target := by
  constructor
  · intro arrives
    -- The test leaves at once or passes one of the others.
    cases arrives with
    | leaves goes outside => exact .inl ⟨goes, outside⟩
    | @passes _ next _ goes inside rest =>
      refine .inr ⟨next, inside, goes, ?_⟩
      -- The way ends behind the test that is passed.
      cases rest with
      | leaves goes' _ => exact goes'
      | passes goes' inside' _ => exact absurd rfl (stops next inside _ goes' _ inside')
  · rintro (⟨goes, outside⟩ | ⟨next, inside, goes, goes'⟩)
    · exact .leaves goes outside
    · exact .passes goes inside (.leaves goes' (stops next inside target goes'))

/-- The ways to join two tests: the first one decides alone with one of its values, and leads where
the second one leads with that value of the whole. -/
theorem joint?_decisive {first second : Block} {construct : Construct} {invert : Bool}
    (joint : joint? first second = some (construct, invert)) : ∃ decisive, invert = !decisive ∧
      first.branch = (if decisive then second.branch else second.next) ∧
      ∀ b : Block, b.type = .structured construct → b.test? = b.joint? decisive := by
  -- The first test branches where the second one branches or where it falls through.
  simp only [joint?] at joint
  split at joint
  · next same =>
    cases joint
    exact ⟨true, rfl, same.symm, fun b type => by simp [Block.test?, type]⟩
  · split at joint
    · next same =>
      cases joint
      exact ⟨false, rfl, same.symm, fun b type => by simp [Block.test?, type]⟩
    · cases joint

/-- A joint test has the decisive value if its first operand held, and else the value
of its second operand. -/
theorem Combined.evaluates_joint {decisive : Bool} {second : BlockId}
    (combined : Combined g id (!decisive) (.joint decisive id second) second h)
    (mirrored : g.Mirrored) (leads : g.Leads id second) (other : second ≠ id)
    (apart : ∀ k, k = id ∨ g.Leads id k → ¬ TransGen g.Operand k id) :
    h.Evaluates truth g.size value ↔
      g.Evaluates truth id true ∧ value = decisive ∨
        g.Evaluates truth id false ∧ g.Evaluates truth second value := by
  -- The second test has the value that it had.
  have later : h.Evaluates truth second value ↔ g.Evaluates truth second value :=
    combined.evaluates_other mirrored (mirrored.bounded leads) other (apart second (.inr leads))
  -- The first test decides alone if it holds, whether or not it is negated as an operand.
  have first : ∀ value, h.Evaluates truth id value ↔ g.Evaluates truth id (value ^^ !decisive) :=
    fun value => combined.evaluates_first mirrored (apart id (.inl rfl))
  have decides : h.Evaluates truth id decisive ↔ g.Evaluates truth id true := by
    rw [first, Bool.xor_not, Bool.xor_self, Bool.not_false]
  have defers : h.Evaluates truth id (!decisive) ↔ g.Evaluates truth id false := by
    rw [first, Bool.xor_self]
  rw [evaluates_joint_iff combined.composite, combined.plain, decides, defers, Bool.xor_false,
    Bool.xor_false, later]

/-- A joint test goes where its operands went one after the other. -/
theorem Combined.goes_joint {decisive : Bool} {second : BlockId}
    (combined : Combined g id (!decisive) (.joint decisive id second) second h)
    (mirrored : g.Mirrored) (isOpen : (g.bare id).isOpenCondition = true)
    (next : (g.bare id).next = some (.block second)) (other : second ≠ id)
    (branch : (g.bare id).branch = if decisive then (g.bare second).branch
      else (g.bare second).next)
    (operand : g.isOperandOf flow id second = true)
    (apart : ∀ k, k = id ∨ g.Leads id k → ¬ TransGen g.Operand k id) (target : Option Target) :
    h.Goes truth g.size target ↔ g.Arrives truth [second] id target := by
  have leads : g.Leads id second := ⟨.next, next⟩
  obtain ⟨opens, -, -⟩ := isOperandOf_iff.mp operand
  obtain ⟨notNext, notBranch⟩ := ne_block_of_isOperandOf mirrored other opens operand
  have evaluates : ∀ value, h.Evaluates truth g.size value ↔
      g.Evaluates truth id true ∧ value = decisive ∨
        g.Evaluates truth id false ∧ g.Evaluates truth second value :=
    fun _ => combined.evaluates_joint mirrored leads other apart
  -- The first test branches around the second one.
  have outside : (g.bare id).branch ≠ some (.block second) := by
    rw [branch]
    split
    · exact notBranch
    · exact notNext
  rw [arrives_iff]
  · constructor
    · rintro ⟨-, value, holds, rfl⟩
      rw [combined.next, combined.branch]
      -- The first test has decided alone, or has gone on to the second one.
      rcases (evaluates value).mp holds with ⟨holds, rfl⟩ | ⟨fails, holds⟩
      · exact .inl ⟨⟨isOpen, true, holds, branch.symm⟩, by simpa [← branch] using outside⟩
      · exact .inr ⟨second, List.mem_cons_self, ⟨isOpen, false, fails, next.symm⟩, opens, value,
          holds, rfl⟩
    · rintro (⟨⟨-, value, holds, rfl⟩, leaves⟩ | ⟨_, inside, ⟨-, value, holds, goes⟩, -, value',
        holds', rfl⟩)
      · -- The first test has left, so it has held.
        cases value with
        | false => exact absurd next (by simpa using leaves)
        | true =>
          refine ⟨combined.isOpen opens, decisive, (evaluates _).mpr (.inl ⟨holds, rfl⟩), ?_⟩
          rw [combined.next, combined.branch]
          exact branch
      · cases List.mem_singleton.mp inside
        -- The first test has gone on to the second one, so it has failed.
        cases value with
        | false =>
          refine ⟨combined.isOpen opens, value', (evaluates _).mpr (.inr ⟨holds, holds'⟩), ?_⟩
          rw [combined.next, combined.branch]
        | true => exact absurd goes.symm outside
  -- The second test does not lead back to itself.
  · intro k inside target goes _ inside'
    cases List.mem_singleton.mp inside
    cases List.mem_singleton.mp inside'
    exact goes.ne_operand mirrored other operand

/-- A selection has the value of the test that the first one selects. -/
theorem Combined.evaluates_choice {held failed : BlockId}
    (combined : Combined g id false (.choice id held failed) failed h) (mirrored : g.Mirrored)
    (leadsFailed : g.Leads id failed) (leadsHeld : g.Leads id held) (notFailed : failed ≠ id)
    (notHeld : held ≠ id) (apart : ∀ k, k = id ∨ g.Leads id k → ¬ TransGen g.Operand k id) :
    h.Evaluates truth g.size value ↔
      ∃ choice, g.Evaluates truth id choice ∧
      g.Evaluates truth (if choice then held else failed) value := by
  -- Neither of the tests that are selected has changed.
  rw [evaluates_choice_iff combined.composite, combined.plain, Bool.xor_false]
  refine exists_congr fun choice => and_congr ?_ ?_
  · rw [combined.evaluates_first mirrored (apart id (.inl rfl)), Bool.xor_false]
  · -- Each of the selected tests has the value that it had.
    cases choice with
    | false =>
      exact combined.evaluates_other mirrored (mirrored.bounded leadsFailed) notFailed
        (apart failed (.inr leadsFailed))
    | true =>
      exact combined.evaluates_other mirrored (mirrored.bounded leadsHeld) notHeld
        (apart held (.inr leadsHeld))

/-- A selection goes where the test went that it selects. -/
theorem Combined.goes_choice {held failed : BlockId}
    (combined : Combined g id false (.choice id held failed) failed h) (mirrored : g.Mirrored)
    (isOpen : (g.bare id).isOpenCondition = true) (next : (g.bare id).next = some (.block failed))
    (branch : (g.bare id).branch = some (.block held)) (notFailed : failed ≠ id)
    (notHeld : held ≠ id) (sameNext : (g.bare failed).next = (g.bare held).next)
    (sameBranch : (g.bare failed).branch = (g.bare held).branch)
    (isFailed : g.isOperandOf flow id failed = true) (isHeld : g.isOperandOf flow id held = true)
    (apart : ∀ k, k = id ∨ g.Leads id k → ¬ TransGen g.Operand k id) (target : Option Target) :
    h.Goes truth g.size target ↔ g.Arrives truth [held, failed] id target := by
  -- Both tests that may be selected are open.
  obtain ⟨opensFailed, -, -⟩ := isOperandOf_iff.mp isFailed
  obtain ⟨opensHeld, -, -⟩ := isOperandOf_iff.mp isHeld
  have evaluates : ∀ value, h.Evaluates truth g.size value ↔
      ∃ choice, g.Evaluates truth id choice ∧
      g.Evaluates truth (if choice then held else failed) value :=
    fun _ =>
      combined.evaluates_choice mirrored ⟨.next, next⟩ ⟨.branch, branch⟩ notFailed notHeld apart
  -- Neither of the tests that are selected leads to one of them.
  have stops : ∀ k ∈ [held, failed], ∀ target, g.Goes truth k target → ∀ other ∈ [held, failed],
      target ≠ some (.block other) := by
    intro k inside target goes other inside'
    have notFirst : k ≠ id := by
      rcases List.mem_pair.mp inside with rfl | rfl
      · exact notHeld
      · exact notFailed
    rcases List.mem_pair.mp inside' with rfl | rfl
    · exact goes.ne_operand mirrored notFirst isHeld
    · exact goes.ne_operand mirrored notFirst isFailed
  rw [arrives_iff stops]
  constructor
  · -- The new test goes where the selected one does, and both lead to the same places.
    rintro ⟨-, value, holds, rfl⟩
    obtain ⟨choice, selects, holds⟩ := (evaluates value).mp holds
    rw [combined.next, combined.branch]
    cases choice with
    | false =>
      exact .inr
        ⟨failed, by simp, ⟨isOpen, false, selects, next.symm⟩, opensFailed, value, holds, rfl⟩
    | true =>
      refine .inr ⟨held, by simp, ⟨isOpen, true, selects, branch.symm⟩, opensHeld, value, holds, ?_⟩
      rw [sameNext, sameBranch]
  · rintro (⟨⟨-, choice, selects, rfl⟩, leaves⟩ | ⟨k, inside, ⟨-, choice, selects, goes⟩, -, value,
      holds, rfl⟩)
    -- The first test leads only to those that it selects.
    · cases choice with
      | false => exact absurd next (by simpa using leaves failed (by simp))
      | true => exact absurd branch (by simpa using leaves held (by simp))
    · have chosen : k = if choice then held else failed := by
        cases choice with
        | false => simpa using goes.trans next
        | true => simpa using goes.trans branch
      refine ⟨combined.isOpen opensFailed, value,
        (evaluates value).mpr ⟨choice, selects, chosen ▸ holds⟩, ?_⟩
      rw [combined.next, combined.branch]
      rcases List.mem_pair.mp inside with rfl | rfl
      · rw [sameNext, sameBranch]
      · rfl

/-- Joining two tests makes them the operands of a new one. -/
theorem combined_mergeTests (mirrored : g.Mirrored) (applied : g.mergeTests flow id = some h) :
    ∃ decisive second, Combined g id (!decisive) (.joint decisive id second) second h ∧
      (g.bare id).isOpenCondition = true ∧ (g.bare id).next = some (.block second) ∧ second ≠ id ∧
      (g.bare id).branch = (if decisive then (g.bare second).branch else (g.bare second).next) ∧
      g.isOperandOf flow id second = true := by
  -- The first test decides alone with one value, which it leads past the second one with.
  obtain ⟨second, construct, invert, isOpen, next, other, operand, joint, rfl⟩ :=
    mergeTests_cases applied
  obtain ⟨decisive, rfl, branch, isJoint⟩ := joint?_decisive joint
  have leads : g.Leads id second := ⟨.next, next⟩
  have known : ∀ k ∈ [id, second], k < g.size := by
    simpa using ⟨leads.lt_size, mirrored.bounded leads⟩
  have bounded : ∀ kind target, (g.bare second).edge? kind = some (.block target) →
      target < g.size :=
    fun kind target edge => mirrored.bounded ⟨kind, edge⟩
  refine ⟨decisive, second, ?_, isOpen, next, other, branch, operand⟩
  refine @combined_combine _ _ _ _ [second] _ _ _ mirrored (by simpa using Ne.symm other) known
    (fun _ => rfl) (fun _ => rfl) (fun _ => rfl) (fun _ => rfl) (fun _ => rfl) (isJoint _ rfl)
    (by simp [Test.operands]) fun kind target edge => ?_
  -- The composite leads to its operands and where the second one leads.
  cases kind with
  | next => exact bounded .next target edge
  | branch => exact bounded .branch target edge
  | sub1 => cases edge; exact leads.lt_size
  | sub2 => cases edge; exact mirrored.bounded leads
  | condition | case i | handler i => cases edge

/-- Selecting one of two tests makes all three the operands of a new one. -/
theorem combined_selectTest (mirrored : g.Mirrored) (applied : g.selectTest flow id = some h) :
    ∃ held failed, Combined g id false (.choice id held failed) failed h ∧
      (g.bare id).isOpenCondition = true ∧ (g.bare id).next = some (.block failed) ∧
      (g.bare id).branch = some (.block held) ∧ failed ≠ id ∧ held ≠ id ∧
      (g.bare failed).next = (g.bare held).next ∧ (g.bare failed).branch = (g.bare held).branch ∧
      g.isOperandOf flow id failed = true ∧ g.isOperandOf flow id held = true := by
  -- Both tests that may be selected lead to the same places.
  obtain ⟨failed, held, isOpen, next, branch, differ, notFailed, notHeld, isFailed, isHeld,
      sameNext, sameBranch, rfl⟩ :=
    selectTest_cases applied
  have leadsFailed : g.Leads id failed := ⟨.next, next⟩
  have leadsHeld : g.Leads id held := ⟨.branch, branch⟩
  have known : ∀ k ∈ [id, failed, held], k < g.size := by
    simpa using ⟨leadsFailed.lt_size, mirrored.bounded leadsFailed, mirrored.bounded leadsHeld⟩
  have bounded : ∀ kind target, (g.bare failed).edge? kind = some (.block target) →
      target < g.size :=
    fun kind target edge => mirrored.bounded ⟨kind, edge⟩
  refine ⟨held, failed, ?_, isOpen, next, branch, notFailed, notHeld, sameNext, sameBranch,
    isFailed, isHeld⟩
  refine @combined_combine _ _ _ _ [failed, held] _ _ _ mirrored
    (by simp [Ne.symm notFailed, Ne.symm notHeld, differ]) known
    (fun _ => rfl) (fun _ => rfl) (fun _ => rfl) (fun _ => rfl) (fun _ => rfl) rfl
    (by simp [Test.operands]) fun kind target edge => ?_
  -- The composite leads to its operands and where those that it selects from lead.
  cases kind with
  | next => exact bounded .next target edge
  | branch => exact bounded .branch target edge
  | condition => cases edge; exact leadsFailed.lt_size
  | sub1 => cases edge; exact mirrored.bounded leadsHeld
  | sub2 => cases edge; exact mirrored.bounded leadsFailed
  | case i | handler i => cases edge

/-- A composite test goes where the tests that it absorbs went one after the other, and is entered
in the place of the first of them. Where they led back to the first one, the composite leads
to that test, its operand. -/
theorem goes_composite_iff (mirrored : g.Mirrored)
    (applied : g.mergeTests flow id = some h ∨ g.selectTest flow id = some h)
    (apart : ∀ k, k = id ∨ g.Leads id k → ¬ TransGen g.Operand k id) :
    ∃ test, (h.block g.size).test? = some test ∧ id ∈ test.operands ∧
      (∀ truth target, h.Goes truth g.size target ↔
        g.Arrives truth (test.operands.filter (· ≠ id)) id target) ∧
      (∀ source, source ∈ (h.block id).preds ↔ source = g.size) ∧
      ∀ source < g.size, source ∉ test.operands →
        (source ∈ (h.block g.size).preds ↔ source ∈ (g.block id).preds) := by
  -- The two rules that combine tests differ in the operands of the composite only.
  rcases applied with applied | applied
  · obtain ⟨decisive, second, combined, isOpen, next, other, branch, operand⟩ :=
      combined_mergeTests mirrored applied
    have inner : (Test.joint decisive id second).operands.filter (· ≠ id) = [second] := by
      simp [Test.operands, other]
    refine ⟨_, combined.composite, List.mem_cons_self, fun truth target => ?_,
      combined.preds mirrored List.mem_cons_self⟩
    rw [inner]
    exact combined.goes_joint mirrored isOpen next other branch operand apart target
  · obtain ⟨held, failed, combined, isOpen, next, branch, notFailed, notHeld, sameNext, sameBranch,
        isFailed, isHeld⟩ :=
      combined_selectTest mirrored applied
    have inner : (Test.choice id held failed).operands.filter (· ≠ id) = [held, failed] := by
      simp [Test.operands, notFailed, notHeld]
    refine ⟨_, combined.composite, List.mem_cons_self, fun truth target => ?_,
      combined.preds mirrored List.mem_cons_self⟩
    rw [inner]
    exact combined.goes_choice mirrored isOpen next branch notFailed notHeld sameNext sameBranch
      isFailed isHeld apart target

end Combined

/-- A method that does nothing but loop as long as one of two tests holds. -/
def emptyLoop : Method where
  code := [⟨0, ⟨26⟩, .absent, none⟩, ⟨1, ⟨154⟩, .branch 0, none⟩, ⟨4, ⟨27⟩, .absent, none⟩,
    ⟨5, ⟨154⟩, .branch 0, none⟩, ⟨8, ⟨177⟩, .absent, none⟩]
  codeLength := 9

/-- The first test of the empty loop leads back to itself, and the test that joins both leads
to the first one. -/
private structure EmptyLoop (g h : Graph) : Prop where
  size : g.size = 4
  simple : ∀ k < 4, (g.bare k).test? = none ∨ (g.bare k).test? = some .single
  test : (g.bare 1).test? = some .single
  isOpen : (g.bare 1).isOpenCondition = true
  plain : (g.bare 1).inverted = false
  back : (g.bare 1).branch = some (.block 1)
  joinedNext : (h.bare 4).next = some (.block 3)
  joinedBack : (h.bare 4).branch = some (.block 1)

/-- The two tests of the empty loop are joined. -/
private theorem emptyLoop_joined :
    ∃ g h, build emptyLoop none {} = .ok g ∧ g.mergeTests (.ofGraph g) 1 = some h ∧
      EmptyLoop g h := by
  -- The graphs are computed, with all that is known of them at once.
  have evaluated : (build emptyLoop none {}).toOption.any
      (fun g => (g.mergeTests (.ofGraph g) 1).any fun h => decide (g.size = 4 ∧
        (∀ k < 4, (g.bare k).test? = none ∨ (g.bare k).test? = some .single) ∧
        (g.bare 1).test? = some .single ∧ (g.bare 1).isOpenCondition = true ∧
        (g.bare 1).inverted = false ∧ (g.bare 1).branch = some (.block 1) ∧
        (h.bare 4).next = some (.block 3) ∧ (h.bare 4).branch = some (.block 1))) = true := by
    decide +kernel
  obtain ⟨g, made, evaluated⟩ := exists_eq_ok_of_any evaluated
  obtain ⟨h, applied, evaluated⟩ := (Option.any_eq_true ..).mp evaluated
  obtain ⟨size, simple, test, isOpen, plain, back, joinedNext, joinedBack⟩ :=
    of_decide_eq_true evaluated
  exact ⟨g, h, made, applied, size, simple, test, isOpen, plain, back, joinedNext, joinedBack⟩

/-- No test of the empty loop has operands. -/
private theorem EmptyLoop.not_operand {g h : Graph} (facts : EmptyLoop g h) {owner id : BlockId} :
    ¬ TransGen g.Operand owner id := by
  -- A test with operands is a composite one.
  have noOperands : ∀ owner operand, ¬ g.Operand owner operand := by
    rintro owner operand ⟨test, isTest, listed⟩
    -- The tests of the loop are simple ones, and beyond its blocks there are none.
    by_cases inside : owner < g.size
    · rcases facts.simple owner (facts.size ▸ inside) with none | single
      · rw [none] at isTest
        cases isTest
      · rw [single] at isTest
        cases isTest
        cases listed
    · have blank : g.block owner = blankBlock := block_of_size_le (Nat.not_lt.mp inside)
      rw [bare, blank] at isTest
      cases isTest
  intro operands
  obtain ⟨next, operand, -⟩ := TransGen.head'_iff.mp operands
  exact noOperands owner next operand

/-- The first test of the empty loop goes to itself. -/
private theorem EmptyLoop.arrives {g h : Graph} (facts : EmptyLoop g h) {inner : List BlockId}
    (other : ∀ k ∈ inner, k ≠ 1) : g.Arrives (fun _ => true) inner 1 (some (.block 1)) := by
  -- The test holds, and holding leads it back to itself.
  have holds : g.Evaluates (fun _ => true) 1 true := by
    simpa [facts.plain] using Evaluates.single facts.test
  refine .leaves ⟨facts.isOpen, true, holds, facts.back.symm⟩ fun k inside same => ?_
  cases same
  exact other 1 inside rfl

/-- The joint test of the empty loop leads back to its operand. -/
theorem emptyLoop_goes_to_operand : ∃ g h test, build emptyLoop none {} = .ok g ∧
    g.mergeTests (.ofGraph g) 1 = some h ∧ (h.block g.size).test? = some test ∧ 1 ∈ test.operands ∧
    h.Goes (fun _ => true) g.size (some (.block 1)) := by
  -- The first test goes to itself before, so the joint test goes to the first one now.
  obtain ⟨g, h, made, applied, facts⟩ := emptyLoop_joined
  obtain ⟨test, isTest, isOperand, goes, -⟩ :=
    goes_composite_iff (sound_of_build made).toMirrored (.inl applied) fun _ _ => facts.not_operand
  refine ⟨g, h, test, made, applied, isTest, isOperand, (goes _ _).mpr (facts.arrives ?_)⟩
  simp

/-- A joint test need not lead back to itself where its first operand did. -/
theorem exists_test_not_repeated : ∃ g h, build emptyLoop none {} = .ok g ∧
    g.mergeTests (.ofGraph g) 1 = some h ∧ g.Arrives (fun _ => true) [2] 1 (some (.block 1)) ∧
    ∀ truth, ¬ h.Goes truth g.size (some (.block g.size)) := by
  obtain ⟨g, h, made, applied, facts⟩ := emptyLoop_joined
  refine ⟨g, h, made, applied, facts.arrives (by simp), ?_⟩
  -- The joint test leads to one of two blocks, neither of which is the joint test.
  rintro truth ⟨-, value, -, target⟩
  rw [facts.size, facts.joinedNext, facts.joinedBack] at target
  cases value with
  | false => simp at target
  | true => simp at target

end Graph

end Unjump
