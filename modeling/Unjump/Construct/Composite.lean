import Unjump.Construct.Arm

/-! New blocks that stand for others: composites over the blocks they absorb, and literal jumps. -/

namespace Unjump

/-- The first of the blocks that start earliest. -/
def earliest? : List Block → Option Block
  | [] => none
  | b :: rest => match earliest? rest with
    | some other => if other.start < b.start then some other else some b
    | none => some b

/-- A block without edges over the code and lines of others. -/
def Block.covering (construct : Construct) (blocks : List Block) : Block :=
  let covered := blocks.filter (·.start != syntheticOffset)
  { type := .structured construct
    start := (covered.map (·.start)).min?.getD syntheticOffset
    finish := (covered.map (·.finish)).max?.getD syntheticOffset
    firstLine := (earliest? (covered.filter (·.firstLine.isSome))).bind (·.firstLine)
    lastLine := (covered.filterMap (·.lastLine)).max? }

/-- The block with its test settled as an operand of a construct, and perhaps negated. -/
def Block.closed (b : Block) (invert : Bool) : Block :=
  { b with
    type := if b.type = .raw .conditional then .structured .condition else b.type
    next := none
    branch := none
    inverted := b.inverted ^^ invert }

namespace Graph

/-- Adds a composite over the blocks that it absorbs. -/
def addComposite (g : Graph) (construct : Construct) (absorbed : List BlockId) : BlockId × Graph :=
  g.add (Block.covering construct (absorbed.map g.block))

/-- Adds a literal jump at an offset. -/
def addGoto (g : Graph) (construct : Construct) (offset : Offset) (target : Target) :
    BlockId × Graph :=
  let (id, g) := g.addBlock (.structured construct) offset offset
  (id, g.setEdge id .branch (some target))

/-- The target itself if it is an exit, and a literal jump to it if it is a block. -/
def jumpTo (g : Graph) (construct : Construct) (offset : Offset) (target : Target) :
    Target × Graph :=
  match target with
  | .exit _ => (target, g)
  | .block _ =>
    let (id, g) := g.addGoto construct offset target
    (.block id, g)

/-- Settles a test as an operand of a construct, and perhaps negates it. -/
def closeTest (g : Graph) (id : BlockId) (invert : Bool) : Graph := g.update id (·.closed invert)

/-- Changes the type of a block to a construct. -/
def settle (g : Graph) (id : BlockId) (construct : Construct) : Graph :=
  g.update id ({ · with type := .structured construct })

end Graph

end Unjump
