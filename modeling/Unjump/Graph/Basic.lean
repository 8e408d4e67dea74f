import Unjump.Block

/-!
The block graph of one method.

Blocks are numbered in the order of their creation and never removed: one that leaves the structure
is detached and becomes unreachable. Every change of edges keeps the predecessor sets in step.
-/

namespace Unjump

/-- A graph of blocks, the first of which is its entry. -/
structure Graph where
  blocks : Array Block
deriving Inhabited, Repr

namespace Graph

/-- The number of the entry block. -/
def start : BlockId := 0

/-- An entry block that leads nowhere. -/
def blankBlock : Block := { type := .start, start := syntheticOffset, finish := syntheticOffset }

/-- The graph of the entry block alone. -/
def empty : Graph := ⟨#[blankBlock]⟩

/-- The number of blocks. -/
def size (g : Graph) : Nat := g.blocks.size

/-- Whether there is no block but the entry. -/
def isEmpty (g : Graph) : Bool := g.size ≤ 1

/-- The numbers of all blocks. -/
def ids (g : Graph) : List BlockId := List.range g.size

/-- The block of a number, blank if there is none. -/
def block (g : Graph) (id : BlockId) : Block := g.blocks.getD id blankBlock

/-- Appends a block and returns its number. -/
def add (g : Graph) (block : Block) : BlockId × Graph := (g.size, ⟨g.blocks.push block⟩)

/-- Appends a block without edges. -/
def addBlock (g : Graph) (type : BlockType) (start finish : Offset) : BlockId × Graph :=
  g.add { type := type, start := start, finish := finish }

/-- Changes one block, and the predecessor sets of the blocks that it gains or loses as targets. -/
def update (g : Graph) (id : BlockId) (change : Block → Block) : Graph :=
  match g.blocks[id]? with
  | none => g
  | some old =>
    let new := change old
    let before := old.targets
    let after := new.targets
    ⟨g.blocks.mapIdx fun i b =>
      let b := if i = id then new else b
      if i ∈ before ∧ i ∉ after then { b with preds := b.preds.erase id }
      else if i ∈ after ∧ i ∉ before then { b with preds := b.preds.insert id }
      else b⟩

/-- Points an edge at a target. -/
def setEdge (g : Graph) (id : BlockId) (kind : EdgeKind) (target : Option Target) : Graph :=
  g.update id (·.setEdge kind target)

/-- Points the edges to a block at another target, for those of its predecessors
that pass a test. -/
def redirectFrom (g : Graph) (old : BlockId) (new : Target) (accept : BlockId → Bool) : Graph :=
  ((g.block old).preds.toList.filter accept).foldl
    (fun g pred => g.update pred (·.replaceTarget (.block old) new)) g

/-- Points all edges to a block at another target. -/
def redirect (g : Graph) (old : BlockId) (new : Target) : Graph :=
  g.redirectFrom old new fun _ => true

/-- Removes the outgoing edges of a block. -/
def detach (g : Graph) (id : BlockId) : Graph := g.update id Block.detached

/-- Reads every predecessor set off the edges. -/
def relink (g : Graph) : Graph :=
  let targets := g.blocks.map Block.targets
  ⟨g.blocks.mapIdx fun i b =>
    { b with preds := IdSet.ofList (g.ids.filter fun pred => i ∈ targets.getD pred ∅) }⟩

/-- The predecessors with a flow edge to a block. -/
def flowPreds (g : Graph) (id : BlockId) : IdSet :=
  (g.block id).preds.filter fun pred => (g.block pred).flowEdges.any fun edge => edge.2 == .block id

/-- The predecessors that place a block in the nesting, by an edge that is no jump to a label. -/
def enteringPreds (g : Graph) (id : BlockId) : IdSet :=
  (g.block id).preds.filter fun pred =>
    (g.block pred).edges.any fun edge => edge.1 != .branch && edge.2 == .block id

/-- Follows single predecessors from a block for a number of steps, and lists the blocks passed if
that leads back to the first one. -/
def cycleFrom (preds : BlockId → List BlockId) (first : BlockId) :
    (steps : Nat) → (id : BlockId) → Option (List BlockId)
  | 0, _ => none
  | steps + 1, id =>
    match preds id with
    | [pred] => if pred = first then some [id] else (cycleFrom preds first steps pred).map (id :: ·)
    | _ => none

/-- The cycle that a block closes when each of its members has one entering predecessor,
walked backwards. -/
def entryCycle? (g : Graph) (id : BlockId) : Option (List BlockId) :=
  -- The members of a cycle are distinct blocks, so a way back takes no more steps
  -- than there are blocks.
  cycleFrom (fun id => (g.enteringPreds id).toList) id g.size id

/-! ### What the changes of a graph do to its blocks -/

/-- Adding a block makes the graph larger by one. -/
@[simp] theorem size_add (g : Graph) (b : Block) : (g.add b).2.size = g.size + 1 := by
  simp [add, size]

/-- Adding a block leaves the others alone. -/
theorem block_add (g : Graph) (b : Block) (id : BlockId) :
    (g.add b).2.block id = if id = g.size then b else g.block id := by
  simp only [add, block, size, Array.getD_eq_getD_getElem?, Array.getElem?_push]
  split <;> rfl

/-- A change keeps the number of blocks. -/
@[simp] theorem size_update (g : Graph) (id : BlockId) (change : Block → Block) :
    (g.update id change).size = g.size := by
  simp only [update, size]
  split <;> simp

/-- The block of a number that lies in the graph. -/
theorem getElem?_blocks {g : Graph} {id : BlockId} (known : id < g.size) :
    g.blocks[id]? = some (g.block id) := by
  simp [block, Array.getD_eq_getD_getElem?, Array.getElem?_eq_getElem known]

/-- A number without a block stands for a blank one. -/
theorem block_of_size_le {g : Graph} {id : BlockId} (absent : g.size ≤ id) :
    g.block id = blankBlock := by
  simp [block, Array.getD_eq_getD_getElem?, Array.getElem?_eq_none absent]

/-- Nothing changes at a number without a block. -/
theorem update_of_size_le {g : Graph} {id : BlockId} (absent : g.size ≤ id)
    (change : Block → Block) : g.update id change = g := by
  simp [update, Array.getElem?_eq_none absent]

end Graph

end Unjump
