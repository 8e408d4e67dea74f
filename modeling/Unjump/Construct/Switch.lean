import Unjump.Construct.Composite

/-!
Switches whose case bodies are chains of settled blocks.

The bodies stand in the order of their code, and one that runs into the next ends with it. All
others continue at one block, the join, to which they break out of the switch.
-/

namespace Unjump

/-- The body of a case. -/
structure CaseBody where
  head : BlockId
  arm : Arm
  /-- The head of the body that follows in the code. -/
  following : Option BlockId
deriving DecidableEq, Inhabited, Repr

/-- Whether a body runs into the one that follows. -/
def CaseBody.fallsThrough (body : CaseBody) : Bool :=
  body.following.any fun head => body.arm.finish == .join head

/-- Whether a body is a chain that falls through, ends, or continues at the join. -/
def CaseBody.isClosed (body : CaseBody) (join : Option BlockId) : Bool :=
  !body.arm.isEmpty &&
    (body.arm.finish.isExit || body.arm.finish.join? == join || body.fallsThrough)

/-- The cases of a switch with a join: the default is dropped if it leads there,
and so are then all that do. -/
def joinCases (cases : List SwitchCase) (join : BlockId) (keepsDefault : Bool) : List SwitchCase :=
  let target := Target.block join
  if keepsDefault then
    (cases.filter fun entry => !(entry.isDefault && entry.target == target)).map fun entry =>
      if entry.target = target then { entry with target := .exit .switchBreak } else entry
  else cases.filter (·.target != target)

namespace Graph

/-- The bodies with the given heads, where the one before may run into the next. -/
def caseBodies (g : Graph) (flow : Flow) (id : BlockId) :
    (previous : Option Arm) → List BlockId → List CaseBody
  | _, [] => []
  | previous, head :: rest =>
    let before := previous.bind fun arm => if arm.finish = .join head then arm.last? else none
    let bounds : ArmBounds :=
      { entry := IdSet.ofList (id :: before.toList)
        after := some (g.block id).start
        before := rest.head?.map fun next => (g.block next).start }
    let arm := g.walk flow bounds (.block head)
    ⟨head, arm, rest.head?⟩ :: g.caseBodies flow id (some arm) rest

/-- Where the bodies of a switch continue, which fails if they do not agree. -/
def switchJoin? (bodies : List CaseBody) : Option (Option BlockId) :=
  let joins := IdSet.ofList ((bodies.filter (!·.fallsThrough)).filterMap (·.arm.finish.join?))
  match joins.toList with
  | [] =>
    -- Without a break, the last body is the join if another one runs into it.
    some ((bodies.getLast?.map (·.head)).filter fun last => bodies.any (·.arm.finish == .join last))
  | [join] => some (some join)
  | _ => none

/-- Whether the join of a switch is a block of its own or the last body. -/
def isSwitchJoin (id : BlockId) (heads : List BlockId) (join : BlockId) : Bool :=
  join != id && (!heads.contains join || heads.getLast? == some join)

/-- Ends the bodies of a switch: the join is reached by a break, and by the end of the last body. -/
def closeBodies (g : Graph) (join : Option BlockId) : List CaseBody → Graph
  | [] => g
  | body :: rest =>
    let isBreak := body.arm.finish.join? == join && !rest.isEmpty
    (g.closeArm body.arm (if isBreak then .exit .switchBreak else .bodyEnd)).closeBodies join rest

/-- Nests the bodies of a switch in it. -/
def nestSwitch (g : Graph) (flow : Flow) (id : BlockId) : Option Graph := do
  let b := g.block id
  if b.type ≠ .raw .switch ∨ id ∈ flow.headers then none
  let heads := g.byOffset (IdSet.ofList (b.cases.filterMap (·.target.block?)))
  let bodies := g.caseBodies flow id none heads
  let join ← switchJoin? bodies
  let kept := bodies.filter (some ·.head != join)
  if !join.all (isSwitchJoin id heads) || !kept.all (·.isClosed join) then none
  let default := (b.cases.find? (·.isDefault)).bind (·.target.block?)
  let keepsDefault := default.all (some · != join)
  return (g.closeBodies join kept).update id fun b =>
    { b with
      type := .structured .switch
      cases := join.elim b.cases fun join => joinCases b.cases join keepsDefault
      next := join.map .block }

end Graph

end Unjump
