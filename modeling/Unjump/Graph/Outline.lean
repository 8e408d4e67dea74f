import Unjump.Graph.Reach

/-! An indented rendering of a block graph in which every block it can reach is shown once. -/

namespace Unjump

/-- What a line of the rendering shows: the entry, a block, the label of an edge, or a jump
to a target. -/
inductive OutlineContent where
  | entry
  | block (id : BlockId)
  | label (text : String)
  | jump (target : Target)
deriving DecidableEq, Inhabited, Repr

/-- A line of the rendering at its depth. -/
structure OutlineLine where
  depth : Nat
  content : OutlineContent
deriving DecidableEq, Inhabited, Repr

/-- What is left to render: the label of an edge, or an edge to follow, at a depth. -/
inductive OutlineItem where
  | label (depth : Nat) (text : String)
  | edge (depth : Nat) (target : Target)
deriving DecidableEq, Inhabited, Repr

/-- The text that introduces a block. -/
def Block.header (b : Block) (id : BlockId) : String :=
  s!"#{id} " ++ b.type.text ++
    (if b.start = syntheticOffset then "" else s!" {b.start.toNat}..{b.finish.toNat}") ++
    (if b.type.isCondition && b.inverted then " not" else "") ++
    match b.branch with
    | some target => if b.type.isGoto then " -> " ++ target.text else ""
    | none => ""

/-- The label of a case. -/
def SwitchCase.label (entry : SwitchCase) : String :=
  if entry.isDefault then "default" else s!"case {entry.key.toInt}"

/-- The label of a handler. -/
def Handler.label (handler : Handler) : String :=
  match handler.throwable with
  | none => "finally"
  | some name => "catch " ++ String.intercalate " | " (name :: handler.others)

/-- The labelled children that a block has by its type. -/
def Block.typedChildren (b : Block) : List (String × Option Target) :=
  match b.type with
  | .structured .ifThen | .structured .ifElse | .structured .ternary
  | .structured .conditionTernary =>
    [("condition", b.condition), ("then", b.sub1), ("else", b.sub2)]
  | .structured .conditionOr | .structured .conditionAnd => [("left", b.sub1), ("right", b.sub2)]
  | .structured .loop => [("body", b.sub1)]
  | .structured .jsr => [("subroutine", b.branch)]
  | .structured .tryBlock | .structured .tryJsr | .structured .tryRejoin => [("try", b.sub1)]
  | .raw _ => [("branch", b.branch)]
  | _ => []

/-- The nested edges of a block with their labels, in the order of rendering. -/
def Block.children (b : Block) : List (String × Target) :=
  b.typedChildren.filterMap (fun (label, target) => target.map (label, ·)) ++
    b.cases.map (fun entry => (entry.label, entry.target)) ++
    b.handlers.map fun handler => (handler.label, handler.target)

/-- What to render after the header of a block: its children one step in,
then the block it goes on to. -/
def Block.outlineItems (b : Block) (depth : Nat) : List OutlineItem :=
  b.children.flatMap (fun (label, child) => [.label (depth + 1) label, .edge (depth + 2) child]) ++
    b.next.toList.map (.edge depth ·)

namespace Graph

/-- Renders items in order, where an edge to a block already shown is a jump to it. -/
def render (g : Graph) (items : List OutlineItem) (shown : IdSet) : List OutlineLine :=
  match items with
  | [] => []
  | .label depth text :: rest => ⟨depth, .label text⟩ :: g.render rest shown
  | .edge depth (.exit way) :: rest => ⟨depth, .jump (.exit way)⟩ :: g.render rest shown
  | .edge depth (.block id) :: rest =>
    if new : id ∉ shown ∧ id < g.size then
      have := IdSet.missing_insert_lt new.1 new.2
      ⟨depth, .block id⟩ :: g.render ((g.block id).outlineItems depth ++ rest) (shown.insert id)
    else ⟨depth, .jump (.block id)⟩ :: g.render rest shown
termination_by (shown.missing g.size, items.length)
decreasing_by
  · exact Prod.Lex.right _ (Nat.lt_succ_self _)
  · exact Prod.Lex.right _ (Nat.lt_succ_self _)
  · exact Prod.Lex.left _ _ this
  · exact Prod.Lex.right _ (Nat.lt_succ_self _)

/-- The lines of the rendering, which starts at the entry. -/
def outlineLines (g : Graph) : List OutlineLine :=
  ⟨0, .entry⟩ :: g.render ((g.block start).next.toList.map (.edge 1 ·)) (IdSet.ofList [start])

/-- The text of what a line shows. -/
def contentText (g : Graph) : OutlineContent → String
  | .entry => "START"
  | .block id => (g.block id).header id
  | .label text => text ++ ":"
  | .jump target => "-> " ++ target.text

/-- The text of a line, indented by two spaces a level. -/
def lineText (g : Graph) (line : OutlineLine) : String :=
  String.ofList (List.replicate (2 * line.depth) ' ') ++ g.contentText line.content

/-- The text of the rendering. A line break in a class name is written as it is. -/
def outline (g : Graph) : String :=
  String.join (g.outlineLines.map fun line => g.lineText line ++ "\n")

end Graph

end Unjump
