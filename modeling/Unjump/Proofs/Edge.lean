import Unjump.Construct.Composite

/-! The edges of one block, read by their kind, and what each change of a block does to them. -/

namespace Unjump

/-- The target with one target renamed. -/
def Target.renamed (old new target : Target) : Target := if target = old then new else target

/-- The renamed target becomes the new one. -/
@[simp] theorem Target.renamed_self (old new : Target) : old.renamed new old = new := if_pos rfl

/-- Every other target stays. -/
theorem Target.renamed_ne {old new target : Target} (other : target ≠ old) :
    old.renamed new target = target := if_neg other

/-- A target holds the number of the block that it is. -/
theorem Target.block?_eq_some_iff {target : Target} {id : BlockId} :
    target.block? = some id ↔ target = .block id := by
  cases target <;> simp [block?]

/-- Whether an edge of a kind leads to a handler. -/
def EdgeKind.isHandler : EdgeKind → Bool
  | .handler _ => true
  | _ => false

namespace Block

/-- The edge list holds exactly what can be read by kind. -/
theorem mem_edges {b : Block} {kind : EdgeKind} {target : Target} :
    (kind, target) ∈ b.edges ↔ b.edge? kind = some target := by
  -- The first five kinds are fields of the block, and the others positions of a list.
  cases kind with
  | next => cases b.next <;> simp [edges, edge?, List.mem_mapIdx, eq_comm]
  | branch => cases b.branch <;> simp [edges, edge?, List.mem_mapIdx, eq_comm]
  | condition => cases b.condition <;> simp [edges, edge?, List.mem_mapIdx, eq_comm]
  | sub1 => cases b.sub1 <;> simp [edges, edge?, List.mem_mapIdx, eq_comm]
  | sub2 => cases b.sub2 <;> simp [edges, edge?, List.mem_mapIdx, eq_comm]
  | case i =>
    -- A position of the list and the entry found there are one and the same fact.
    simp only [edges, edge?, List.mem_append, List.mem_filterMap, List.mem_mapIdx, Prod.mk.injEq,
      EdgeKind.case.injEq, Option.map_eq_some_iff, List.getElem?_eq_some_iff]
    constructor
    · rintro ((⟨⟨kind, found⟩, listed, made⟩ | ⟨j, inside, rfl, rfl⟩) | ⟨j, inside, kind, -⟩)
      · cases found <;> simp_all
      · exact ⟨_, ⟨inside, rfl⟩, rfl⟩
      · cases kind
    · rintro ⟨entry, ⟨inside, rfl⟩, rfl⟩
      exact .inl (.inr ⟨i, inside, rfl, rfl⟩)
  | handler i =>
    simp only [edges, edge?, List.mem_append, List.mem_filterMap, List.mem_mapIdx, Prod.mk.injEq,
      EdgeKind.handler.injEq, Option.map_eq_some_iff, List.getElem?_eq_some_iff]
    constructor
    · rintro ((⟨⟨kind, found⟩, listed, made⟩ | ⟨j, inside, kind, -⟩) | ⟨j, inside, rfl, rfl⟩)
      · cases found <;> simp_all
      · cases kind
      · exact ⟨_, ⟨inside, rfl⟩, rfl⟩
    · rintro ⟨handler, ⟨inside, rfl⟩, rfl⟩
      exact .inr ⟨i, inside, rfl, rfl⟩

/-- The targets of a block are the blocks that some edge leads to. -/
theorem mem_targets {b : Block} {id : BlockId} :
    id ∈ b.targets ↔ ∃ kind, b.edge? kind = some (.block id) := by
  -- The targets are collected from all edges, exits left out.
  simp only [targets, IdSet.mem_ofList, List.mem_filterMap]
  constructor
  · rintro ⟨⟨kind, target⟩, listed, isBlock⟩
    obtain rfl := Target.block?_eq_some_iff.mp isBlock
    exact ⟨kind, mem_edges.mp listed⟩
  · rintro ⟨kind, leads⟩
    exact ⟨(kind, .block id), mem_edges.mpr leads, rfl⟩

/-- Renaming a target renames it under every kind. -/
@[simp] theorem edge?_replaceTarget (b : Block) (old new : Target) (kind : EdgeKind) :
    (b.replaceTarget old new).edge? kind = (b.edge? kind).map (old.renamed new) := by
  -- A case or a handler is renamed in its place.
  cases kind <;> simp only [replaceTarget, edge?, List.getElem?_map, Option.map_map] <;> rfl

/-- Renaming a target that no edge leads to changes nothing. -/
theorem replaceTarget_eq_self {b : Block} {old : Target} (new : Target)
    (unused : ∀ kind, b.edge? kind ≠ some old) : b.replaceTarget old new = b := by
  -- A field that does not hold the target is left alone.
  have keeps : ∀ found : Option Target, found ≠ some old →
      found.map (fun target => if target = old then new else target) = found := by
    intro found other
    cases found with
    | none => rfl
    | some target => simpa using fun same => absurd (congrArg some same) other
  -- An entry of a list has its own position, and the edge of that kind leads elsewhere.
  have cases : b.cases.map
      (fun entry => { entry with target := if entry.target = old then new else entry.target }) =
      b.cases := by
    refine (List.map_congr_left fun entry listed => ?_).trans (List.map_id _)
    obtain ⟨i, inside, rfl⟩ := List.mem_iff_getElem.mp listed
    have other : (b.cases[i]).target ≠ old :=
      fun same => unused (.case i) (by simp [edge?, inside, same])
    simp [other]
  have handlers : (b.handlers.map fun handler =>
      { handler with target := if handler.target = old then new else handler.target }) =
      b.handlers := by
    refine (List.map_congr_left fun handler listed => ?_).trans (List.map_id _)
    obtain ⟨i, inside, rfl⟩ := List.mem_iff_getElem.mp listed
    have other : (b.handlers[i]).target ≠ old :=
      fun same => unused (.handler i) (by simp [edge?, inside, same])
    simp [other]
  simp only [replaceTarget, keeps b.next (unused .next), keeps b.branch (unused .branch),
    keeps b.condition (unused .condition), keeps b.sub1 (unused .sub1), keeps b.sub2 (unused .sub2),
    cases, handlers]

/-- Renaming all targets but that of a literal jump or a call. -/
theorem edge?_replaceEntry (b : Block) (old new : Target) (kind : EdgeKind) :
    (b.replaceEntry old new).edge? kind =
      if kind = .branch then b.edge? kind else (b.edge? kind).map (old.renamed new) := by
  -- The branch is put back, and all else is renamed.
  cases kind <;> simp [replaceEntry, ← edge?_replaceTarget] <;> rfl

/-- An edge that exists can be pointed at any target, and the others stay. -/
theorem edge?_setEdge {b : Block} {kind : EdgeKind} (target : Target) (other : EdgeKind)
    (present : (b.edge? kind).isSome) :
    (b.setEdge kind (some target)).edge? other = if other = kind then some target
      else b.edge? other := by
  -- For the fields there is nothing to show; a case or a handler has to be there to be replaced.
  cases kind with
  | next | branch | condition | sub1 | sub2 => cases other <;> simp [setEdge, edge?]
  | case i =>
    have inside : i < b.cases.length := by simpa [edge?] using present
    cases other with
    | case j =>
      by_cases same : j = i
      · subst same
        simp [setEdge, edge?, inside]
      · simp [setEdge, edge?, Ne.symm same, same]
    | _ => simp [setEdge, edge?]
  | handler i =>
    have inside : i < b.handlers.length := by simpa [edge?] using present
    cases other with
    | handler j =>
      by_cases same : j = i
      · subst same
        simp [setEdge, edge?, inside]
      · simp [setEdge, edge?, Ne.symm same, same]
    | _ => simp [setEdge, edge?]

/-- An edge of a case is one of the listed cases. -/
theorem edge?_case_mem {b : Block} {i : Nat} {target : Target}
    (edge : b.edge? (.case i) = some target) : ∃ entry ∈ b.cases, entry.target = target := by
  -- The case is read by its position.
  obtain ⟨entry, found, same⟩ := Option.map_eq_some_iff.mp edge
  exact ⟨entry, List.mem_of_getElem? found, same⟩

/-- Every listed case is an edge. -/
theorem edge?_of_mem_cases {b : Block} {entry : SwitchCase} (listed : entry ∈ b.cases) :
    ∃ i, b.edge? (.case i) = some entry.target := by
  -- The case is found at its position.
  obtain ⟨i, bound, rfl⟩ := List.mem_iff_getElem.mp listed
  exact ⟨i, by simp [Block.edge?, bound]⟩

/-- An edge to a handler is one of the listed handlers. -/
theorem edge?_handler_mem {b : Block} {i : Nat} {target : Target}
    (edge : b.edge? (.handler i) = some target) :
    ∃ handler ∈ b.handlers, handler.target = target := by
  -- The handler is read by its position.
  obtain ⟨handler, found, same⟩ := Option.map_eq_some_iff.mp edge
  exact ⟨handler, List.mem_of_getElem? found, same⟩

/-- Every listed handler is an edge. -/
theorem edge?_of_mem_handlers {b : Block} {handler : Handler} (listed : handler ∈ b.handlers) :
    ∃ i, b.edge? (.handler i) = some handler.target := by
  -- The handler is found at its position.
  obtain ⟨i, bound, rfl⟩ := List.mem_iff_getElem.mp listed
  exact ⟨i, by simp [Block.edge?, bound]⟩

/-- Pointing an edge elsewhere keeps the type. -/
@[simp] theorem type_setEdge (b : Block) (kind : EdgeKind) (target : Option Target) :
    (b.setEdge kind target).type = b.type := by
  cases kind <;> cases target <;> rfl

/-- Pointing an edge elsewhere keeps the code. -/
@[simp] theorem code_setEdge (b : Block) (kind : EdgeKind) (target : Option Target) :
    (b.setEdge kind target).code = b.code := by
  cases kind <;> cases target <;> rfl

/-- Pointing an edge elsewhere keeps the predecessor set. -/
@[simp] theorem preds_setEdge (b : Block) (kind : EdgeKind) (target : Option Target) :
    (b.setEdge kind target).preds = b.preds := by
  cases kind <;> cases target <;> rfl

/-- A detached block has no edges. -/
@[simp] theorem edge?_detached (b : Block) (kind : EdgeKind) : b.detached.edge? kind = none := by
  -- All fields are cleared.
  cases kind <;> simp [detached, edge?]

/-- A closed test keeps the edges to its operands alone. -/
theorem edge?_closed (b : Block) (invert : Bool) (kind : EdgeKind) :
    (b.closed invert).edge? kind = if kind = .next ∨ kind = .branch then none
      else b.edge? kind := by
  -- The two successors are cleared, and nothing else.
  cases kind <;> simp [closed, edge?]

/-- A closed test has only edges that it had before. -/
theorem edge?_of_closed {b : Block} {invert : Bool} {kind : EdgeKind} {target : Target}
    (edge : (b.closed invert).edge? kind = some target) : b.edge? kind = some target := by
  -- The edges that are left are as they were.
  rw [edge?_closed] at edge
  split at edge
  · cases edge
  · exact edge

/-- Whether control leaves a block along an edge of a kind, at the block's own level of nesting. -/
def flows (b : Block) (kind : EdgeKind) : Bool :=
  match b.type, kind with
  | .raw _, .next | .raw _, .branch | .raw _, .case _ | .raw _, .handler _ => true
  | .raw _, _ => false
  | _, .next => true
  | _, .branch => b.isOpenCondition || b.type.isGoto
  | _, _ => false

/-- The flow edges are the edges of the kinds along which control leaves. -/
theorem mem_flowEdges {b : Block} {kind : EdgeKind} {target : Target} :
    (kind, target) ∈ b.flowEdges ↔ b.flows kind = true ∧ b.edge? kind = some target := by
  unfold flowEdges
  -- Control leaves a raw block along all of its edges, and others along the next one and a jump.
  split
  · -- Edges to operands and parts are not those of raw code.
    next type isRaw =>
    rw [List.mem_filter, mem_edges]
    cases kind <;> simp [flows, isRaw]
  · next notRaw =>
    have kinds : b.flows kind = true ↔
        kind = .next ∨ kind = .branch ∧ (b.isOpenCondition || b.type.isGoto) = true := by
      cases type : b.type with
      | raw type => exact absurd type (notRaw _)
      | start | structured construct => cases kind <;> simp [flows, type]
    rw [kinds]
    split
    · next jumps =>
      rw [List.mem_filter, mem_edges]
      cases kind <;> simp [jumps]
    · -- Without a jump only the next edge is left.
      next stays =>
      cases kind <;> simp [edge?, stays, eq_comm]

/-- A block flows into another along some edge. -/
theorem any_flowEdges {b : Block} {id : BlockId} :
    b.flowEdges.any (fun edge => edge.2 == .block id) = true ↔
      ∃ kind, b.flows kind = true ∧ b.edge? kind = some (.block id) := by
  -- Both say that some flow edge leads there.
  simp only [List.any_eq_true, beq_iff_eq]
  constructor
  · rintro ⟨⟨kind, target⟩, listed, rfl⟩
    exact ⟨kind, mem_flowEdges.mp listed⟩
  · rintro ⟨kind, leads⟩
    exact ⟨(kind, .block id), mem_flowEdges.mpr leads, rfl⟩

/-- The flow targets are the blocks that some flow edge leads to. -/
theorem mem_flowTargets {b : Block} {id : BlockId} :
    id ∈ b.flowTargets ↔ ∃ kind, b.flows kind = true ∧ b.edge? kind = some (.block id) := by
  -- Doubles are dropped, and so are exits.
  simp only [flowTargets, List.mem_eraseDups, List.mem_filterMap]
  constructor
  · rintro ⟨⟨kind, target⟩, listed, isBlock⟩
    cases target with
    | block found =>
      cases isBlock
      exact ⟨kind, mem_flowEdges.mp listed⟩
    | exit way => cases isBlock
  · rintro ⟨kind, leads⟩
    exact ⟨(kind, .block id), mem_flowEdges.mpr leads, rfl⟩

/-- The inner edges are the flow edges to blocks under a kind that names no handler. -/
theorem mem_innerEdges {b : Block} {kind : EdgeKind} {id : BlockId} :
    (kind, id) ∈ b.innerEdges ↔
      b.flows kind = true ∧ kind.isHandler = false ∧ b.edge? kind = some (.block id) := by
  -- Handlers and exits are left out on both sides.
  simp only [innerEdges, List.mem_filterMap]
  constructor
  · rintro ⟨⟨found, target⟩, listed, made⟩
    obtain ⟨flows, leads⟩ := mem_flowEdges.mp listed
    cases target with
    | exit way => cases found <;> simp at made
    | block other =>
      cases found with
      | handler i => simp at made
      | _ =>
        cases made
        exact ⟨flows, rfl, leads⟩
  · rintro ⟨flows, inner, leads⟩
    refine ⟨(kind, .block id), mem_flowEdges.mpr ⟨flows, leads⟩, ?_⟩
    cases kind <;> simp_all [EdgeKind.isHandler]

end Block

end Unjump
