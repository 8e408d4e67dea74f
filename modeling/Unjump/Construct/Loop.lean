import Unjump.Construct.Composite

/-!
Loops: the blocks of an innermost natural loop become the body of one block.

An edge to the header starts the next round, one to the block after the loop leaves it, and any
other edge out of the loop becomes a literal jump.
-/

namespace Unjump

/-- What becomes of an edge of a loop's body. -/
inductive Rerouting where
  | stays
  | exits (way : Exit)
  /-- It becomes a literal jump. -/
  | jumps
deriving DecidableEq, Inhabited, Repr

/-- What becomes of an edge to a block, for a loop of a header, a body and the block after it. -/
def Rerouting.ofEdge (header : BlockId) (body : IdSet) (after : Option BlockId) (kind : EdgeKind)
    (target : BlockId) : Rerouting :=
  if target = header then .exits (if kind = .next then .loopStart else .loopContinue)
  else if some target = after then .exits .loopEnd
  else if target ∈ body then .stays
  else .jumps

namespace Graph

/-- The edges of a set of blocks to blocks, with their sources. -/
def innerEdgesOf (g : Graph) (ids : IdSet) : List (BlockId × EdgeKind × BlockId) :=
  ids.toList.flatMap fun id => (g.block id).innerEdges.map (id, ·)

/-- The blocks outside a loop that it leads to. -/
def loopExits (g : Graph) (body : IdSet) : IdSet :=
  IdSet.ofList ((g.innerEdgesOf body).map (·.2.2)) \ body

/-- The exit after a loop: the first one behind the loop's code, or else the first one of all. -/
def loopEnd? (g : Graph) (body exits : IdSet) : Option BlockId :=
  let starts := (body.toList.map fun id => (g.block id).start).filter (· != syntheticOffset)
  let last := starts.max?.getD 0
  let ordered := g.byOffset exits
  (ordered.find? fun id => last < (g.block id).start).or ordered.head?

/-- Code behind an exit that ends without rejoining the loop or reaching its end,
and is entered from the loop only. -/
def tailRegion? (g : Graph) (flow : Flow) (body : IdSet) (after : Option BlockId) (exit : BlockId) :
    Option IdSet :=
  let region := explore (fun id => (g.block id).flowTargets) g.size [exit] ∅
  let ids := region.toList
  let staysOut :=
    ids.all fun id => !body.contains id && some id != after && !flow.headers.contains id
  let ends := ids.all fun id => (g.block id).flowEdges.all fun (_, target) =>
    match target with
    | .block _ | .exit .methodReturn => true
    | .exit _ => false
  let isPrivate := ids.all fun id => (g.flowPreds id).subset (region ∪ body)
  if staysOut && ends && isPrivate then some region else none

/-- The body of a loop: its natural loop and the code behind its exits that belongs to it alone. -/
def loopBody (g : Graph) (flow : Flow) (core exits : IdSet) (after : Option BlockId) : IdSet :=
  (exits.toList.filter (some · != after)).foldl
    (fun body exit => body ∪ (g.tailRegion? flow body after exit).getD ∅) core

/-- Points an edge of a loop's body where it has to lead inside the loop. -/
def reroute (g : Graph) (header : BlockId) (body : IdSet) (after : Option BlockId)
    (edge : BlockId × EdgeKind × BlockId) : Graph :=
  let (id, kind, target) := edge
  match Rerouting.ofEdge header body after kind target with
  | .stays => g
  | .exits way => g.setEdge id kind (some (.exit way))
  | .jumps =>
    let (goto, g) := g.addGoto .goto (g.block id).finish (.block target)
    g.setEdge id kind (some (.block goto))

/-- Makes a loop of a header, a body and the block after it. -/
def wrap (g : Graph) (header : BlockId) (body : IdSet) (after : Option BlockId) : Graph :=
  let edges := g.innerEdgesOf body
  let (composite, g) := g.addComposite .loop body.toList
  let g := g.redirectFrom header (.block composite) (!body.contains ·)
  let g := edges.foldl (·.reroute header body after ·) g
  g.update composite ({ · with sub1 := some (.block header), next := after.map .block })

/-- Makes a loop of an innermost header's natural loop, or of any header's
where no innermost one exists. -/
def wrapLoop (g : Graph) (flow : Flow) (header : BlockId) : Option Graph :=
  if (flow.ripeHeaders g).contains header then
    let core := flow.naturalLoop g header
    let exits := g.loopExits core
    let after := g.loopEnd? core exits
    some (g.wrap header (g.loopBody flow core exits after) after)
  else none

end Graph

end Unjump
