import Unjump.Construct.Composite

/-!
Choices over an open test: `if`, `if` with `else`, and the choice between two values.

An open test goes to its branch when it holds and to its next block when it fails. A choice runs its
first body when its test, perhaps negated, holds.
-/

namespace Unjump

/-- How an open test becomes a choice. -/
structure Choice where
  construct : Construct := .ifThen
  /-- Whether the test is negated, so that the first body runs when it holds. -/
  invert : Bool
  body : Target
  otherwise : Option Target := none
  next : Option Target
  /-- The chains that the choice absorbs. -/
  arms : List Arm := []
deriving Inhabited, Repr

namespace Graph

/-- Replaces an open test by a choice. -/
def choose (g : Graph) (test : BlockId) (choice : Choice) : Graph :=
  let (composite, g) := g.addComposite choice.construct (test :: choice.arms.flatMap (·.blocks))
  let g := (g.redirect test (.block composite)).closeTest test choice.invert
  let g := choice.arms.foldl (·.closeArm · .bodyEnd) g
  g.update composite fun b =>
    { b with
      condition := some (.block test)
      sub1 := some choice.body
      sub2 := choice.otherwise
      next := choice.next }

/-- Where two chains meet: at one block, or where the only one that goes on does. -/
def meeting? : ArmEnd → ArmEnd → Option (Option BlockId)
  | .join a, .join b => if a = b then some (some a) else none
  | .join a, _ | _, .join a => some (some a)
  | _, _ => some none

/-- The construct over two chains: a choice between values if both leave one,
and between statements if none does. -/
def twoArmed? (g : Graph) (fall jump : Arm) (meeting : Option BlockId) : Option Construct :=
  match fall.leavesValue g, jump.leavesValue g with
  | false, false => some .ifElse
  | true, true =>
    if fall.blocks.length = 1 ∧ jump.blocks.length = 1 ∧ meeting.isSome ∧
      fall.finish = jump.finish then
      some .ternary
    else none
  | _, _ => none

/-- The choice over a test between two blocks. -/
def choiceOver? (g : Graph) (flow : Flow) (id next branch : BlockId) : Option Choice :=
  let start := (g.block id).start
  let branchStart := (g.block branch).start
  let entry := IdSet.insert ∅ id
  let before := if start < branchStart then some branchStart else none
  let fall := g.walk flow { entry, after := some start, before } (.block next)
  let jump := g.walk flow { entry, after := some start } (.block branch)
  if !fall.isEmpty && !fall.leavesValue g &&
      (fall.finish == .join branch || fall.finish.isExit) then
    some { invert := true, body := .block next, next := some (.block branch), arms := [fall] }
  else if !jump.isEmpty && !jump.leavesValue g && jump.finish == .join next then
    some { invert := false, body := .block branch, next := some (.block next), arms := [jump] }
  else if fall.isEmpty || jump.isEmpty then none
  else do
    let meeting ← meeting? fall.finish jump.finish
    if meeting = some id then none
    let construct ← g.twoArmed? fall jump meeting
    return { construct, invert := true, body := .block next, otherwise := some (.block branch),
             next := meeting.map .block, arms := [fall, jump] }

/-- The choice that an open test with two successors is. -/
def choice? (g : Graph) (flow : Flow) (id : BlockId) (next branch : Target) : Option Choice :=
  -- If both successors are one, the test only has side effects.
  if next = branch then some { invert := false, body := .bodyEnd, next := some next }
  else match next, branch with
    | _, .exit _ => some { invert := false, body := branch, next := some next }
    | .exit _, _ => some { invert := true, body := next, next := some branch }
    | .block n, .block b => g.choiceOver? flow id n b

/-- Nests the chains after an open test in a choice. -/
def nestIf (g : Graph) (flow : Flow) (id : BlockId) : Option Graph :=
  let b := g.block id
  match b.next, b.branch with
  | some next, some branch =>
    if b.isOpenCondition && !flow.headers.contains id
      then (g.choice? flow id next branch).map (g.choose id)
    else none
  | _, _ => none

end Graph

end Unjump
