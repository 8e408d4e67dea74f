import Unjump.Expr.Basic
import Unjump.IdSet

/-! Basic blocks and the edges between them, from raw code to nested constructs. -/

namespace Unjump

/-- The number of a block in its graph. -/
abbrev BlockId := Nat

/-- The offset of blocks that cover no code. -/
def syntheticOffset : Offset := 4294967295

/-- A way on that leads to no block of its own. -/
inductive Exit where
  /-- The end of a nested body, after which the construct around it continues. -/
  | bodyEnd
  /-- A return without a value. -/
  | methodReturn
  /-- The natural end of a loop body, which goes back to its start. -/
  | loopStart
  /-- A jump back to the start of the innermost loop. -/
  | loopContinue
  /-- A jump out of the innermost loop. -/
  | loopEnd
  /-- A jump out of the innermost switch. -/
  | switchBreak
deriving DecidableEq, Inhabited, Repr

/-- The written form of an exit. -/
def Exit.name : Exit → String
  | .bodyEnd => "END"
  | .methodReturn => "RETURN"
  | .loopStart => "LOOP_START"
  | .loopContinue => "LOOP_CONTINUE"
  | .loopEnd => "LOOP_END"
  | .switchBreak => "SWITCH_BREAK"

/-- All exits. -/
def Exit.all : List Exit :=
  [.bodyEnd, .methodReturn, .loopStart, .loopContinue, .loopEnd, .switchBreak]

/-- The exit of a written form. -/
def Exit.ofName? (name : String) : Option Exit := all.find? (·.name == name)

/-- Where an edge leads. -/
inductive Target where
  | block (id : BlockId)
  | exit (way : Exit)
deriving DecidableEq, Inhabited, Repr

namespace Target

/-- The end of a nested body. -/
def bodyEnd : Target := .exit .bodyEnd

/-- The block that an edge leads to. -/
def block? : Target → Option BlockId
  | .block id => some id
  | .exit _ => none

/-- The written form of a target. -/
def text : Target → String
  | .block id => s!"#{id}"
  | .exit way => way.name

end Target

/-- What a block of raw code ends with. -/
inductive RawType where
  | statements | conditional | switch
  /-- The entry of a protected range. -/
  | tryBlock
  | jsr | ret | goto | returnVoid | returnValue | throw
  /-- A jump without code of its own. -/
  | jump
deriving DecidableEq, Inhabited, Repr

/-- The written form of a raw type. -/
def RawType.name : RawType → String
  | .statements => "STATEMENTS"
  | .conditional => "CONDITIONAL_BRANCH"
  | .switch => "SWITCH_DECLARATION"
  | .tryBlock => "TRY_DECLARATION"
  | .jsr => "JSR"
  | .ret => "RET"
  | .goto => "GOTO"
  | .returnVoid => "RETURN"
  | .returnValue => "RETURN_VALUE"
  | .throw => "THROW"
  | .jump => "JUMP"

/-- All raw types. -/
def RawType.all : List RawType :=
  [.statements, .conditional, .switch, .tryBlock, .jsr, .ret, .goto, .returnVoid, .returnValue,
    .throw, .jump]

/-- The construct that a structured block is. -/
inductive Construct where
  | statements | returnVoid | returnValue | throw | ret | jsr
  | ifThen | ifElse | loop | switch
  /-- A try, one that calls subroutines, and one whose last handler rejoins the code after it. -/
  | tryBlock | tryJsr | tryRejoin
  /-- A test, and tests combined by or, by and, and by the choice between two. -/
  | condition | conditionOr | conditionAnd | conditionTernary
  /-- A choice between two values. -/
  | ternary
  /-- Literal jumps: out of a value, backwards, and any other. -/
  | gotoInTernary | infiniteGoto | goto
deriving DecidableEq, Inhabited, Repr

/-- The written form of a construct. -/
def Construct.name : Construct → String
  | .statements => "STATEMENTS"
  | .returnVoid => "RETURN"
  | .returnValue => "RETURN_VALUE"
  | .throw => "THROW"
  | .ret => "RET"
  | .jsr => "JSR"
  | .ifThen => "IF"
  | .ifElse => "IF_ELSE"
  | .loop => "LOOP"
  | .switch => "SWITCH"
  | .tryBlock => "TRY"
  | .tryJsr => "TRY_JSR"
  | .tryRejoin => "TRY_ECLIPSE"
  | .condition => "CONDITION"
  | .conditionOr => "CONDITION_OR"
  | .conditionAnd => "CONDITION_AND"
  | .conditionTernary => "CONDITION_TERNARY_OPERATOR"
  | .ternary => "TERNARY_OPERATOR"
  | .gotoInTernary => "GOTO_IN_TERNARY_OPERATOR"
  | .infiniteGoto => "INFINITE_GOTO"
  | .goto => "GOTO"

/-- All constructs. -/
def Construct.all : List Construct :=
  [.statements, .returnVoid, .returnValue, .throw, .ret, .jsr, .ifThen, .ifElse, .loop, .switch,
    .tryBlock, .tryJsr,
    .tryRejoin, .condition, .conditionOr, .conditionAnd, .conditionTernary, .ternary,
    .gotoInTernary, .infiniteGoto, .goto]

/-- The type of a block: the entry of the graph, raw code, or a construct. -/
inductive BlockType where
  | start
  | raw (type : RawType)
  | structured (construct : Construct)
deriving DecidableEq, Inhabited, Repr

namespace BlockType

/-- The name of a type, which a raw type may share with a construct. -/
def name : BlockType → String
  | .start => "START"
  | .raw type => type.name
  | .structured construct => construct.name

/-- The written form of a type, which tells raw types apart. -/
def text : BlockType → String
  | .raw type => "raw " ++ type.name
  | type => type.name

/-- All types. -/
def all : List BlockType := .start :: RawType.all.map .raw ++ Construct.all.map .structured

/-- The type of a written form. -/
def ofText? (text : String) : Option BlockType := all.find? (·.text == text)

/-- Whether the block is raw code. -/
def isRaw : BlockType → Bool
  | .raw _ => true
  | _ => false

/-- Whether the block is a test, single or combined. -/
def isCondition : BlockType → Bool
  | .raw .conditional | .structured .condition | .structured .conditionOr
  | .structured .conditionAnd | .structured .conditionTernary => true
  | _ => false

/-- Whether the block is a literal jump. -/
def isGoto : BlockType → Bool
  | .structured .goto | .structured .infiniteGoto | .structured .gotoInTernary => true
  | _ => false

end BlockType

/-- A case of a switch. -/
structure SwitchCase where
  key : Int32
  isDefault : Bool
  target : Target
deriving DecidableEq, Inhabited, Repr

/-- A handler of a try. -/
structure Handler where
  /-- The caught class, none for a handler that catches everything. -/
  throwable : Option String
  /-- Further classes that the same handler catches. -/
  others : List String
  target : Target
deriving DecidableEq, Inhabited, Repr

/-- Whether a handler catches everything. -/
def Handler.isFinally (handler : Handler) : Bool := handler.throwable.isNone

/-- Names one outgoing edge of a block. -/
inductive EdgeKind where
  | next | branch | condition | sub1 | sub2
  | case (position : Nat)
  | handler (position : Nat)
deriving DecidableEq, Inhabited, Repr

/-- A basic block. -/
structure Block where
  type : BlockType
  start : Offset
  /-- The offset just past the covered code. -/
  finish : Offset
  firstLine : Option Line := none
  lastLine : Option Line := none
  /-- Where control goes on, none when it never does. -/
  next : Option Target := none
  /-- The other successor of a test, the subroutine of a call, or the target of a literal jump. -/
  branch : Option Target := none
  condition : Option Target := none
  sub1 : Option Target := none
  sub2 : Option Target := none
  cases : List SwitchCase := []
  handlers : List Handler := []
  /-- The blocks with an edge to this one. -/
  preds : IdSet := ∅
  /-- Whether a test counts as true when it fails. -/
  inverted : Bool := false
  code : List Expr := []
deriving Inhabited, Repr

namespace Block

/-- Every outgoing edge in a fixed order. -/
def edges (b : Block) : List (EdgeKind × Target) :=
  [(EdgeKind.next, b.next), (.branch, b.branch), (.condition, b.condition), (.sub1, b.sub1),
    (.sub2, b.sub2)].filterMap
      (fun (kind, target) => target.map (kind, ·)) ++
    b.cases.mapIdx (fun i entry => (.case i, entry.target)) ++
    b.handlers.mapIdx (fun i handler => (.handler i, handler.target))

/-- Whether the block is a test that still has two successors to choose between. -/
def isOpenCondition (b : Block) : Bool := b.type.isCondition && b.branch.isSome

/-- Whether the block still has to be structured. -/
def isPending (b : Block) : Bool := b.type.isRaw || b.isOpenCondition

/-- Whether the block is structured for good and can become part of a construct. -/
def isSettled (b : Block) : Bool :=
  match b.type with
  | .structured _ => !b.isOpenCondition
  | _ => false

/-- The edges along which control leaves the block at its own level of nesting. -/
def flowEdges (b : Block) : List (EdgeKind × Target) :=
  match b.type with
  | .raw _ => b.edges.filter fun (kind, _) => match kind with
    | .next | .branch | .case _ | .handler _ => true
    | _ => false
  | _ =>
    if b.isOpenCondition || b.type.isGoto then
      b.edges.filter fun (kind, _) => kind == .next || kind == .branch
    else b.next.toList.map (.next, ·)

/-- The target of an edge. -/
def edge? (b : Block) : EdgeKind → Option Target
  | .next => b.next
  | .branch => b.branch
  | .condition => b.condition
  | .sub1 => b.sub1
  | .sub2 => b.sub2
  | .case i => (b.cases[i]?).map (·.target)
  | .handler i => (b.handlers[i]?).map (·.target)

/-- Points an edge at a target, where a case or a handler cannot lose its own. -/
def setEdge (b : Block) (kind : EdgeKind) (target : Option Target) : Block :=
  match kind, target with
  | .next, target => { b with next := target }
  | .branch, target => { b with branch := target }
  | .condition, target => { b with condition := target }
  | .sub1, target => { b with sub1 := target }
  | .sub2, target => { b with sub2 := target }
  | .case i, some target => { b with cases := b.cases.modify i fun entry => { entry with target } }
  | .handler i, some target =>
    { b with handlers := b.handlers.modify i fun handler => { handler with target } }
  | .case _, none | .handler _, none => b

/-- Whether some edge leads to a target. -/
def leadsTo (b : Block) (target : Target) : Bool := b.edges.any fun edge => edge.2 == target

/-- Points every edge to one target at another. -/
def replaceTarget (b : Block) (old new : Target) : Block :=
  let swap := fun target => if target = old then new else target
  { b with
    next := b.next.map swap
    branch := b.branch.map swap
    condition := b.condition.map swap
    sub1 := b.sub1.map swap
    sub2 := b.sub2.map swap
    cases := b.cases.map fun entry => { entry with target := swap entry.target }
    handlers := b.handlers.map fun handler => { handler with target := swap handler.target } }

/-- Points every edge to one target at another, literal jumps and calls of subroutines apart. -/
def replaceEntry (b : Block) (old new : Target) : Block :=
  { b.replaceTarget old new with branch := b.branch }

/-- The block without outgoing edges. -/
def detached (b : Block) : Block :=
  { b with
    next := none, branch := none, condition := none, sub1 := none, sub2 := none, cases := [],
    handlers := [] }

/-- The blocks that the block has an edge to. -/
def targets (b : Block) : IdSet := IdSet.ofList (b.edges.filterMap fun edge => edge.2.block?)

/-- The blocks that the block has a flow edge to, each once in edge order. -/
def flowTargets (b : Block) : List BlockId :=
  (b.flowEdges.filterMap fun edge => edge.2.block?).eraseDups

/-- Whether the block hands a value to the next one on the stack. -/
def leavesValue (b : Block) : Bool :=
  b.type == .structured .ternary ||
    (b.code.reverse.find? fun e => !e.isTerminator).any Expr.leavesValue

end Block

end Unjump
