import Unjump.Graph.Reach

/-!
The dominators of the blocks of a graph.

A table holds one row for every block within reach: the block and the block above it. It starts as
the tree of a search from the entry, in which a block hangs below the one that it was found from.
Then every block is lifted to where the climbs from the blocks that lead to it meet, until all stay
where they are. Above a block then stands its immediate dominator, and the climb from a block passes
the blocks that dominate it.
-/

namespace Unjump

/-- A table of dominators: the blocks within reach, the last found first, each with the block above
it. The entry stands above itself. -/
structure Dominators where
  rows : List (BlockId × BlockId)
deriving Inhabited, Repr

namespace Dominators

/-- The climb from a block: the block, the one above it, the one above that, up to the entry.
Above a block stands one that was found before it, so the climb goes through the rows once. -/
def climb : (rows : List (BlockId × BlockId)) → BlockId → List BlockId
  | [], _ => []
  | (id, above) :: rows, b => if id = b then b :: climb rows above else climb rows b

/-- The first block that is on the climbs from two blocks. Of the two, the one that was found later
climbs, until they are the same. -/
def meet : (rows : List (BlockId × BlockId)) → BlockId → BlockId → BlockId
  | [], a, _ => a
  | (id, above) :: rows, a, b =>
    if a = b then a
    else if id = a then meet rows above b
    else if id = b then meet rows a above
    else meet rows a b

/-- Where a block hangs after it was lifted: where the climb from the block above it meets the
climbs from all blocks that lead to it. The entry stays where it is. -/
def place (rows : List (BlockId × BlockId)) (before : BlockId → List BlockId) (id above : BlockId) :
    BlockId :=
  if id = Graph.start then above else (before id).foldl (meet rows) above

/-- Lifts every block. -/
def lift (rows : List (BlockId × BlockId)) (before : BlockId → List BlockId) :
    List (BlockId × BlockId) :=
  rows.map fun (id, above) => (id, place rows before id above)

/-- Lifts the blocks, round after round, until all stay where they are. -/
def settleFor (before : BlockId → List BlockId) :
    (rounds : Nat) → (rows : List (BlockId × BlockId)) → List (BlockId × BlockId)
  | 0, rows => rows
  | rounds + 1, rows =>
    let lifted := lift rows before
    if lifted = rows then rows else settleFor before rounds lifted

/-- Searches on for a number of rounds from a work list of blocks, each with the one that it was
found from, and adds a row for every block found. -/
def growFor (next : BlockId → List BlockId) : (rounds : Nat) → (work : List (BlockId × BlockId)) →
    (marks : Marks) → (rows : List (BlockId × BlockId)) → List (BlockId × BlockId)
  | 0, _, _, rows => rows
  | rounds + 1, work, marks, rows =>
    match work.dropWhile fun found => marks.has found.1 with
    | [] => rows
    | (id, above) :: work =>
      growFor next rounds ((next id).map (·, id) ++ work) (marks.mark id) ((id, above) :: rows)

/-- The tree of the search from the entry. -/
def searchTree (g : Graph) : List (BlockId × BlockId) :=
  let successors := g.successors
  growFor (successors.getD · []) g.size [(Graph.start, Graph.start)] (.ofIdSet ∅ g.size) []

/-- The blocks with a row that lead to a block. -/
def sources (g : Graph) (rows : List (BlockId × BlockId)) : BlockId → List BlockId :=
  let successors := g.successors
  fun id => (rows.map Prod.fst).filter fun source => (successors.getD source []).contains id

/-- The dominators of the blocks of a graph. -/
def ofGraph (g : Graph) : Dominators :=
  let tree := searchTree g
  -- Every round but the last brings a block closer to the entry, so there are no more than this.
  ⟨settleFor (sources g tree) (tree.length * tree.length) tree⟩

/-- Whether the climb from the second block passes the first. -/
def dominates (t : Dominators) (a b : BlockId) : Bool := (climb t.rows b).contains a

end Dominators

end Unjump
