import Unjump.Construct.Composite

/-! Tries whose body and handlers are chains of settled blocks that agree on where they continue. -/

namespace Unjump

/-- Whether one handler may stand before another: one that catches everything comes
after the others. -/
def Handler.precedes (a b : Handler) : Bool := !a.isFinally || b.isFinally

/-- Handlers with those that catch everything last, and otherwise as they stood. -/
def finallyLast (handlers : List Handler) : List Handler := handlers.mergeSort Handler.precedes

namespace Graph

/-- The chains of the handlers with the given heads. -/
def handlerArms (g : Graph) (flow : Flow) (id : BlockId) : List BlockId → List Arm
  | [] => []
  | head :: rest =>
    let before := rest.head?.map fun next => (g.block next).start
    g.walk flow { entry := IdSet.insert ∅ id, before } (.block head) :: g.handlerArms flow id rest

/-- Which try a body and its handlers make: one that calls subroutines, one that rejoins
after its `finally`, or neither. -/
def tryConstruct (g : Graph) (body : Arm) (handlers : List Arm) (last : Option BlockId) :
    Construct :=
  let calls := (body :: handlers).any fun arm =>
      arm.blocks.any fun id => (g.block id).type == .structured .jsr
  let rejoins := handlers.any fun arm => arm.blocks.head? == last && !arm.finish.isExit
  if calls then .tryJsr else if rejoins then .tryRejoin else .tryBlock

/-- Where the chains of a try continue, which fails if they do not agree. -/
def tryJoin? (arms : List Arm) : Option (Option BlockId) :=
  match (IdSet.ofList (arms.filterMap (·.finish.join?))).toList with
  | [] => some none
  | [join] => some (some join)
  | _ => none

/-- Nests the body and the handlers of a try in it. -/
def nestTry (g : Graph) (flow : Flow) (id : BlockId) : Option Graph := do
  let b := g.block id
  if b.type ≠ .raw .tryBlock then none
  let next ← b.next
  let heads := g.byOffset (IdSet.ofList (← b.handlers.mapM (·.target.block?)))
  let before := heads.head?.map fun head => (g.block head).start
  let body := g.walk flow { entry := IdSet.insert ∅ id, before } next
  let handlers := g.handlerArms flow id heads
  if (body :: handlers).any (·.isEmpty) then none
  let join ← tryJoin? (body :: handlers)
  if join.any fun join =>
      join == id || heads.contains join || body.blocks.head? == some join then
    none
  let last := (b.handlers.find? (·.isFinally)).bind (·.target.block?)
  let construct := g.tryConstruct body handlers last
  return ((body :: handlers).foldl (·.closeArm · .bodyEnd) g).update id fun b =>
    { b with
      type := .structured construct
      handlers := finallyLast b.handlers
      sub1 := some next
      next := join.map .block }

end Graph

end Unjump
