import Unjump.Dominators

/-!
Dominance, back edges and natural loops of a block graph.

Dominance counts edges of every kind, so that a construct dominates what is nested in it. A back
edge is a flow edge to a block that dominates its source. Literal jumps stay what they are: they are
no back edges and close no loops.
-/

namespace Unjump

/-- The flow edges to blocks, those to handlers apart. -/
def Block.innerEdges (b : Block) : List (EdgeKind × BlockId) :=
  b.flowEdges.filterMap fun (kind, target) =>
    match kind, target with
    | .handler _, _ => none
    | _, .block id => some (kind, id)
    | _, .exit _ => none

namespace Graph

/-- The edges that may close a loop: those of reachable blocks that are no literal jumps. -/
def loopEdges (g : Graph) (reachable : IdSet) : List (BlockId × BlockId) :=
  reachable.toList.flatMap fun id =>
    let b := g.block id
    if b.type.isGoto then [] else b.innerEdges.map fun edge => (id, edge.2)

end Graph

/-- What is known about the flow of a graph. -/
structure Flow where
  reachable : IdSet
  dominators : Dominators
  /-- The edges from a block to one that dominates it, as often as there are such edges. -/
  backEdges : List (BlockId × BlockId)
  /-- The targets of back edges. -/
  headers : IdSet
deriving Inhabited, Repr

namespace Flow

/-- The flow of a graph. -/
def ofGraph (g : Graph) : Flow :=
  let reachable := g.reachable
  let edges := g.loopEdges reachable
  let dominators := Dominators.ofGraph g
  let backEdges := edges.filter fun (source, target) => dominators.dominates target source
  { reachable, dominators, backEdges, headers := IdSet.ofList (backEdges.map (·.2)) }

/-- Whether the first block dominates the second: the climb from there passes it. -/
def dominates (flow : Flow) (a b : BlockId) : Bool := flow.dominators.dominates a b

/-- The blocks of a loop: its header, and what leads to a source
of its back edges without passing the header. -/
def naturalLoop (flow : Flow) (g : Graph) (header : BlockId) : IdSet :=
  let sources := (flow.backEdges.filter fun edge => edge.2 == header).map (·.1)
  let before := fun id =>
    (g.flowPreds id).toList.filter fun pred =>
      flow.reachable.contains pred && !(g.block pred).type.isGoto
  explore before g.size sources (IdSet.insert ∅ header)

/-- Whether a header's loop holds no other header. -/
def isInnermost (flow : Flow) (g : Graph) (header : BlockId) : Bool :=
  (flow.naturalLoop g header).toList.all fun id => id == header || !flow.headers.contains id

/-- The headers whose loops can be made: the innermost ones, or all of them
where none is innermost. -/
def ripeHeaders (flow : Flow) (g : Graph) : List BlockId :=
  let innermost := flow.headers.toList.filter (flow.isInnermost g)
  if innermost.isEmpty then flow.headers.toList else innermost

end Flow

end Unjump
