import Unjump.Graph.Verify
import Unjump.Proofs.Edge

/-! Which edges a block of a type has and which it cannot do without. -/

namespace Unjump

/-- Whether raw code of a type can have an edge of a kind. -/
def RawType.mayHave : RawType → EdgeKind → Bool
  | .statements, .next | .goto, .next | .jump, .next => true
  | .conditional, .next | .conditional, .branch => true
  | .jsr, .next | .jsr, .branch => true
  | .switch, .case _ => true
  | .tryBlock, .next | .tryBlock, .handler _ => true
  | _, _ => false

/-- The edges that raw code of a type always has. -/
def RawType.requiredEdges : RawType → List EdgeKind
  | .conditional => [.next, .branch]
  | .jsr => [.branch]
  | _ => []

/-- No test asks for its successors. -/
theorem BlockType.requiredEdges_of_isCondition {type : BlockType} {kind : EdgeKind}
    (isTest : type.isCondition) (required : kind ∈ type.requiredEdges) :
    ¬(kind = .next ∨ kind = .branch) := by
  cases type with
  | start | raw => cases required
  | structured construct =>
    -- The successors are not among the children of any test.
    rintro (rfl | rfl) <;> cases construct <;>
      simp [requiredEdges, Construct.requiredEdges, isCondition] at required isTest

/-- No test is a literal jump. -/
theorem BlockType.not_isGoto_of_isCondition {type : BlockType} (isTest : type.isCondition) :
    type.isGoto = false := by
  -- Only structured tests are left, and none of them is a jump.
  cases type with
  | start | raw => rfl
  | structured construct => cases construct <;> first | rfl | cases isTest

/-- Whether a block of a type can have a branch. -/
def BlockType.mayBranch (type : BlockType) : Bool :=
  type.isRaw || type.isCondition || type.isGoto || type = .structured .jsr

namespace Block

/-- A block with the edges that its type asks for: a construct has its children, an open test has
both successors, and raw code and literal jumps have no edges but their own. Of the other constructs
only tests and calls have branches. -/
structure Shaped (b : Block) : Prop where
  children : ∀ kind ∈ b.type.requiredEdges, (b.edge? kind).isSome
  raw : ∀ type, b.type = .raw type → ∀ kind ∈ type.requiredEdges, (b.edge? kind).isSome
  own : ∀ type, b.type = .raw type → ∀ kind, (b.edge? kind).isSome → type.mayHave kind
  falls : b.isOpenCondition → b.next.isSome
  jumps : b.type.isGoto → ∀ kind, (b.edge? kind).isSome → kind = .branch
  branches : b.branch.isSome → b.type.mayBranch

/-- The shape of a block depends on its type and on which edges it has, not on where they lead. -/
theorem Shaped.congr {b c : Block} (shaped : b.Shaped) (type : c.type = b.type)
    (present : ∀ kind, (c.edge? kind).isSome = (b.edge? kind).isSome) : c.Shaped := by
  -- Whether a test is open depends on its type and on its branch being there.
  have «open» : c.isOpenCondition = b.isOpenCondition := by
    rw [isOpenCondition, isOpenCondition, type, show c.branch.isSome = b.branch.isSome
      from present .branch]
  constructor
  · intro kind required
    rw [present]
    exact shaped.children kind (type ▸ required)
  · intro raw isRaw kind required
    rw [present]
    exact shaped.raw raw (type ▸ isRaw) kind required
  · intro raw isRaw kind has
    rw [present] at has
    exact shaped.own raw (type ▸ isRaw) kind has
  · intro isOpen
    have falls : b.next.isSome := shaped.falls («open» ▸ isOpen)
    exact (present .next).trans falls
  · intro isGoto kind has
    rw [present] at has
    exact shaped.jumps (type ▸ isGoto) kind has
  · intro has
    have before : b.branch.isSome := (present .branch).symm.trans has
    exact type ▸ shaped.branches before

/-- Raw code has no edges but those that its type can have. -/
theorem Shaped.mayHave_of_edge {b : Block} {type : RawType} (shaped : b.Shaped)
    (isRaw : b.type = .raw type) (kind : EdgeKind) {target : Target}
    (edge : b.edge? kind = some target) : type.mayHave kind :=
  shaped.own type isRaw kind (by rw [edge]; rfl)

/-- Raw code has the shape that its own edges give it. -/
theorem Shaped.ofRaw {b : Block} {type : RawType} (isRaw : b.type = .raw type)
    (required : ∀ kind ∈ type.requiredEdges, (b.edge? kind).isSome)
    (own : ∀ kind, (b.edge? kind).isSome → type.mayHave kind) : b.Shaped := by
  -- Raw code is neither a construct nor a literal jump, so most of the shape asks for nothing.
  constructor
  · intro kind listed
    rw [isRaw] at listed
    cases listed
  · intro raw same
    cases isRaw.symm.trans same
    exact required
  · intro raw same
    cases isRaw.symm.trans same
    exact own
  · intro isOpen
    rw [isOpenCondition, isRaw] at isOpen
    -- Of raw code only a test counts as a condition, and it has both successors.
    cases type with
    | conditional => exact required .next (by simp [RawType.requiredEdges])
    | _ => simp [BlockType.isCondition] at isOpen
  · intro isGoto
    rw [isRaw] at isGoto
    cases isGoto
  · intro _
    rw [isRaw]
    rfl

/-- A construct that is no literal jump has the shape that its children
and its successors give it. -/
theorem Shaped.ofChildren {b : Block} {construct : Construct}
    (type : b.type = .structured construct)
    (noJump : (BlockType.structured construct).isGoto = false)
    (falls : b.isOpenCondition → b.next.isSome)
    (branches : b.branch.isSome → (BlockType.structured construct).mayBranch)
    (children : ∀ kind ∈ construct.requiredEdges, (b.edge? kind).isSome) : b.Shaped := by
  constructor
  · intro kind required
    rw [type] at required
    exact children kind required
  -- A construct is no raw code, so what is asked of raw code holds for lack of cases.
  · intro raw isRaw
    cases type.symm.trans isRaw
  · intro raw isRaw
    cases type.symm.trans isRaw
  · exact falls
  · intro isGoto
    rw [type, noJump] at isGoto
    cases isGoto
  · rw [type]
    exact branches

/-- Raw code of a type without branches has none. -/
theorem Shaped.branch_eq_none {b : Block} {type : RawType} (shaped : b.Shaped)
    (isRaw : b.type = .raw type) (cannot : type.mayHave .branch = false) : b.branch = none := by
  -- A branch would be an edge that the type can have.
  cases branch : b.branch with
  | none => rfl
  | some target =>
    have own := shaped.own type isRaw .branch (by rw [edge?, branch]; rfl)
    rw [cannot] at own
    cases own

end Block

end Unjump
