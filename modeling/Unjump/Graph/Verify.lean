import Unjump.Graph.Reach

/-! Consistency of a block graph, and whether its blocks nest properly. -/

namespace Unjump

/-- How a graph is broken. -/
inductive Violation where
  | danglingEdge (source target : BlockId)
  | predecessorMissing (source target : BlockId)
  | stalePredecessor (block predecessor : BlockId)
  | startHasPredecessor (predecessor : BlockId)
  | missingChild (block : BlockId) (type : BlockType) (child : EdgeKind)
  | unstructured (block : BlockId) (type : BlockType)
  | sharedEntry (block : BlockId) (predecessors : List BlockId)
  | entryCycle (block : BlockId) (cycle : List BlockId)
deriving DecidableEq, Inhabited, Repr

/-- The written form of a list of blocks. -/
def blockList (ids : List BlockId) : String :=
  "[" ++ String.intercalate ", " (ids.map toString) ++ "]"

/-- The written form of an edge that leads to a child. -/
def EdgeKind.childName : EdgeKind → String
  | .next => "next"
  | .branch => "branch"
  | .condition => "condition"
  | .sub1 => "sub1"
  | .sub2 => "sub2"
  | .case _ => "case"
  | .handler _ => "handler"

/-- The complaint about a broken graph. -/
def Violation.message : Violation → String
  | .danglingEdge source target =>
    s!"block {source} has an edge to block {target}, which does not exist"
  | .predecessorMissing source target =>
    s!"block {source} has an edge to block {target}, but is not among its predecessors"
  | .stalePredecessor block predecessor =>
    s!"block {block} lists {predecessor} as a predecessor without an edge from it"
  | .startHasPredecessor predecessor => s!"the start block has predecessor {predecessor}"
  | .missingChild block type child =>
    s!"block {block} of type {type.name} lacks its {child.childName} child"
  | .unstructured block type =>
    s!"block {block} of type {type.name} is still reachable after structuring"
  | .sharedEntry block predecessors =>
    s!"block {block} is entered from " ++ blockList predecessors ++ " without a goto"
  | .entryCycle block cycle => s!"block {block} continues into itself through " ++ blockList cycle

/-- The edges that a construct cannot do without. -/
def Construct.requiredEdges : Construct → List EdgeKind
  | .ifThen => [.condition, .sub1]
  | .ifElse | .ternary | .conditionTernary => [.condition, .sub1, .sub2]
  | .conditionOr | .conditionAnd => [.sub1, .sub2]
  | .loop | .tryBlock | .tryJsr | .tryRejoin => [.sub1]
  | .jsr | .goto | .gotoInTernary => [.branch]
  | _ => []

/-- The edges that a block of a type cannot do without. -/
def BlockType.requiredEdges : BlockType → List EdgeKind
  | .structured construct => construct.requiredEdges
  | _ => []

namespace Graph

/-- A target of a block that does not exist or does not list the block as a predecessor. -/
def targetViolation? (g : Graph) (id : BlockId) : Option Violation :=
  (g.block id).targets.toList.findSome? fun target =>
    if g.size ≤ target then some (.danglingEdge id target)
    else if id ∈ (g.block target).preds then none
    else some (.predecessorMissing id target)

/-- A predecessor of a block that does not exist or has no edge to the block. -/
def predecessorViolation? (g : Graph) (id : BlockId) : Option Violation :=
  (g.block id).preds.toList.findSome? fun pred =>
    if g.size ≤ pred || !((g.block pred).targets.contains id) then some (.stalePredecessor id pred)
      else none

/-- A child that a block lacks. -/
def childViolation? (g : Graph) (id : BlockId) : Option Violation :=
  let b := g.block id
  (b.type.requiredEdges.find? fun kind => (b.edge? kind).isNone).map fun kind =>
    .missingChild id b.type kind

/-- What is wrong with the predecessor sets, the entry block or the children of reachable blocks. -/
def violation? (g : Graph) : Option Violation :=
  (g.ids.findSome? fun id => (g.targetViolation? id).or (g.predecessorViolation? id)).or
    (((g.block start).preds.min?.map .startHasPredecessor).or
      (g.reachable.toList.findSome? g.childViolation?))

/-- A block that is entered twice, or in a circle. -/
def entryViolation? (g : Graph) (id : BlockId) : Option Violation :=
  let entries := g.enteringPreds id
  if 1 < entries.size then some (.sharedEntry id entries.toList)
  else (g.entryCycle? id).map (.entryCycle id)

/-- A block that is still to be structured. -/
def pendingViolation? (g : Graph) (id : BlockId) : Option Violation :=
  if (g.block id).isPending then some (.unstructured id (g.block id).type) else none

/-- What keeps the reachable blocks of a graph from being properly nested constructs. -/
def nestingViolation? (g : Graph) : Option Violation :=
  let reachable := g.reachable.toList
  g.violation?.or ((reachable.findSome? g.pendingViolation?).or
    (reachable.findSome? g.entryViolation?))

end Graph

end Unjump
