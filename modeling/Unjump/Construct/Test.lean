import Unjump.Construct.Composite

/-!
Tests made of tests: one that selects between two others, and two joined by or, or by and.

The composite is an open test itself, with the successors of the tests that it absorbs.
-/

namespace Unjump.Graph

/-- Whether a test is entered from another one only. -/
def isOperandOf (g : Graph) (flow : Flow) (owner id : BlockId) : Bool :=
  (g.block id).isOpenCondition && !flow.headers.contains id &&
  g.flowPreds id == IdSet.insert ∅ owner

/-- Makes one test of three: the first selects the second when it fails and the third
when it holds. -/
def selectTest (g : Graph) (flow : Flow) (id : BlockId) : Option Graph :=
  let b := g.block id
  match b.isOpenCondition, b.next, b.branch with
  | true, some (.block failed), some (.block held) =>
    let x := g.block failed
    let y := g.block held
    if failed ≠ held ∧ failed ≠ id ∧ held ≠ id ∧ g.isOperandOf flow id failed ∧
      g.isOperandOf flow id held ∧
        x.next = y.next ∧ x.branch = y.branch then
      let (composite, g) := g.addComposite .conditionTernary [id, failed, held]
      let g := g.redirect id (.block composite)
      let g := [id, failed, held].foldl (fun g operand => g.closeTest operand false) g
      some <| g.update composite fun b =>
        { b with
          condition := some (.block id)
          sub1 := some (.block held)
          sub2 := some (.block failed)
          next := x.next
          branch := x.branch }
    else none
  | _, _, _ => none

/-- How two tests in a row combine: as a disjunction, or as a conjunction
with the first one negated. -/
def joint? (first second : Block) : Option (Construct × Bool) :=
  if second.branch = first.branch then some (.conditionOr, false)
  else if second.next = first.branch then some (.conditionAnd, true)
  else none

/-- Makes one test of two, the second of which decides when the first one fails. -/
def mergeTests (g : Graph) (flow : Flow) (id : BlockId) : Option Graph :=
  let b := g.block id
  match b.isOpenCondition, b.next with
  | true, some (.block second) =>
    let s := g.block second
    if second ≠ id ∧ g.isOperandOf flow id second then
      (joint? b s).map fun (construct, invert) =>
        let (composite, g) := g.addComposite construct [id, second]
        let g := g.redirect id (.block composite)
        let g := (g.closeTest id invert).closeTest second false
        g.update composite fun b =>
          { b with
            sub1 := some (.block id)
            sub2 := some (.block second)
            next := s.next
            branch := s.branch }
    else none
  | _, _ => none

end Unjump.Graph
