import Unjump.Construct.Composite

/-! Blocks that need no structure of their own: jumps, straight code and calls of subroutines. -/

namespace Unjump

/-- The construct that a block of raw code already is. -/
def RawType.plain? : RawType → Option Construct
  | .statements => some .statements
  | .returnVoid => some .returnVoid
  | .returnValue => some .returnValue
  | .throw => some .throw
  | .ret => some .ret
  | _ => none

namespace Graph

/-- Removes a jump without code by pointing what leads to it at its target. -/
def dropGoto (g : Graph) (_ : Flow) (id : BlockId) : Option Graph :=
  let b := g.block id
  if b.type = .raw .goto ∨ b.type = .raw .jump then
    match b.code, b.next with
    | [], some target =>
      if target = .block id then
        -- A jump to itself never ends.
        some (g.update id ({ · with type := .structured .infiniteGoto, next := none }))
      else some ((g.redirect id target).detach id)
    | _, _ => some (g.settle id .statements)
  else none

/-- Settles straight code. -/
def settlePlain (g : Graph) (_ : Flow) (id : BlockId) : Option Graph :=
  match (g.block id).type with
  | .raw type => type.plain?.map (g.settle id)
  | _ => none

/-- Settles the call of a subroutine that is settled itself. -/
def settleCall (g : Graph) (_ : Flow) (id : BlockId) : Option Graph :=
  let b := g.block id
  if b.type = .raw .jsr then
    match b.branch with
    | some (.block subroutine) =>
      if (g.block subroutine).isSettled then some (g.settle id .jsr) else none
    | _ => some (g.settle id .jsr)
  else none

end Graph

end Unjump
