import Unjump.Construct.If
import Unjump.Construct.Try

/-!
Last resorts for graphs that nest in no other way: each settles one block, or enters one from fewer
places, by keeping what is in the way as literal jumps.
-/

namespace Unjump.Graph

/-- The literal jump that a test keeps: backwards, out of a value, or any other. -/
def testJump (g : Graph) (id : BlockId) (branch : Target) : Construct :=
  let b := g.block id
  let preds := (g.flowPreds id).toList
  let isBackward := branch.block?.any fun target => (g.block target).start ≤ b.start
  if isBackward then .infiniteGoto
  else if preds.length = 1 ∧ preds.all fun pred => (g.block pred).leavesValue then .gotoInTernary
  else .goto

/-- Makes an open test jump to its branch, and go on with its next block. -/
def jumpTest (g : Graph) (_ : Flow) (id : BlockId) : Option Graph :=
  let b := g.block id
  match b.isOpenCondition, b.next, b.branch with
  | true, some next, some branch =>
    let (body, g) := g.jumpTo (g.testJump id branch) b.finish branch
    some (g.choose id { invert := false, body, next := some next })
  | _, _, _ => none

/-- Makes the given cases jump to their bodies. -/
def jumpCases (offset : Offset) : List SwitchCase → Graph → List SwitchCase × Graph
  | [], g => ([], g)
  | entry :: rest, g =>
    let (target, g) := g.jumpTo .goto offset entry.target
    let (rest, g) := jumpCases offset rest g
    ({ entry with target } :: rest, g)

/-- Makes every case of a switch jump to its body. -/
def jumpSwitch (g : Graph) (_ : Flow) (id : BlockId) : Option Graph :=
  let b := g.block id
  if b.type = .raw .switch then
    let (cases, g) := jumpCases b.finish b.cases g
    some (g.update id ({ · with type := .structured .switch, cases, next := none }))
  else none

/-- Makes the given handlers jump to their code. -/
def jumpHandlers (offset : Offset) : List Handler → Graph → List Handler × Graph
  | [], g => ([], g)
  | handler :: rest, g =>
    let (target, g) := g.jumpTo .goto offset handler.target
    let (rest, g) := jumpHandlers offset rest g
    ({ handler with target } :: rest, g)

/-- Makes a try jump to its body and to its handlers. -/
def jumpTry (g : Graph) (_ : Flow) (id : BlockId) : Option Graph :=
  let b := g.block id
  if b.type = .raw .tryBlock then
    let (body, g) := g.jumpTo .goto b.start (b.next.getD .bodyEnd)
    let (handlers, g) := jumpHandlers b.start b.handlers g
    some <| g.update id fun b =>
      { b with
        type := .structured .tryBlock, sub1 := some body, handlers := finallyLast handlers,
        next := none }
  else none

/-- Settles the call of a subroutine that is not settled. -/
def forceCall (g : Graph) (_ : Flow) (id : BlockId) : Option Graph :=
  if (g.block id).type = .raw .jsr then some (g.settle id .jsr) else none

/-- Whether one block comes before another in the code, or is the same. -/
def precedes (g : Graph) (a b : BlockId) : Bool :=
  (g.block a).start < (g.block b).start || ((g.block a).start == (g.block b).start && a ≤ b)

/-- The entry of a block that becomes a literal jump: the last of several, after one is kept, or the
one that closes a cycle at its first block. -/
def surplusSource? (g : Graph) (id : BlockId) : Option BlockId :=
  let entries := g.enteringPreds id
  let ordered := g.byOffset entries
  if entries.size > 1 then
    let earlier := ordered.filter fun pred => pred != id && g.precedes pred id
    let kept := if entries.contains start then some start else earlier.getLast?.or ordered.head?
    (ordered.filter (some · != kept)).getLast?
  else
    match g.entryCycle? id with
    | some cycle => if cycle.all (g.precedes id) then ordered.head? else none
    | none => none

/-- Turns one entry of a block into a literal jump, once nothing else is left to settle. -/
def unshareEntry (g : Graph) (flow : Flow) (id : BlockId) : Option Graph :=
  if flow.reachable.toList.any fun id => (g.block id).isPending then none
  else (g.surplusSource? id).map fun source =>
    let s := g.block source
    let construct := if (g.block id).start ≤ s.start then Construct.infiniteGoto else .goto
    let (goto, g) := g.addGoto construct s.finish (.block id)
    g.update source (·.replaceEntry (.block id) (.block goto))

end Unjump.Graph
