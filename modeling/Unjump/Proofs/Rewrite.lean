import Unjump.Proofs.Change
import Unjump.Proofs.Shape

/-!
What all changes of a graph have in common that form constructs.

Every block of the new graph stands for one of the old graph, and a walk in the new graph is a walk
in the old one between the blocks that its blocks stand for. So nothing becomes reachable
that was not, whatever edges count.
-/

namespace Unjump.Graph

/-- A linked graph all of whose reachable blocks have the edges that their type asks for. -/
structure Sound (g : Graph) : Prop extends g.Linked where
  shaped : ∀ {id}, g.Reached id → (g.bare id).Shaped

/-- A block with a raw type is not the entry. -/
theorem Linked.ne_start_of_raw {g : Graph} (linked : g.Linked) {id : BlockId} {type : RawType}
    (isRaw : (g.bare id).type = .raw type) : id ≠ start := by
  -- The entry has a type of its own.
  rintro rfl
  rw [linked.rooted] at isRaw
  cases isRaw

/-- The entry is no test. -/
theorem Linked.ne_start_of_isCondition {g : Graph} (linked : g.Linked) {id : BlockId}
    (isTest : (g.bare id).type.isCondition) : id ≠ start := by
  -- The entry has a type of its own.
  rintro rfl
  rw [linked.rooted] at isTest
  cases isTest

/-- What lies on a walk from a block other than the entry lies behind the entry. -/
theorem Linked.behind_of_walk {g : Graph} (linked : g.Linked) {allow : EdgeFilter}
    {source target : BlockId} (known : source < g.size) (notStart : source ≠ start)
    (walk : g.Walk allow source target) : start < target ∧ target < g.size := by
  -- Where a step leads is behind the entry.
  rcases walk.cases_tail with same | ⟨previous, -, step⟩
  · exact same ▸ ⟨Nat.pos_of_ne_zero notStart, known⟩
  · exact linked.behind step.leads

/-- A graph formed from another one, where `back` names the old block that a block stands for, and
the walks that are kept are those that satisfy `covers`. -/
structure Simulates (covers : EdgeFilter → Prop) (g h : Graph) (back : BlockId → BlockId) :
    Prop where
  linked : h.Linked
  grows : g.size ≤ h.size
  old : ∀ i < g.size, back i = i
  steps : ∀ {allow : EdgeFilter}, allow.Lenient → covers allow → ∀ {u v}, g.Reached (back u) →
    h.Step allow u v → g.Walk allow (back u) (back v)
  shaped : ∀ {i}, i < h.size → g.Reached (back i) → (h.bare i).Shaped

/-- A graph formed from another one in which no code has moved. -/
structure RewriteFor (covers : EdgeFilter → Prop) (g h : Graph) (back : BlockId → BlockId) :
    Prop extends Simulates covers g h back where
  code : ∀ i < g.size, (h.bare i).code = (g.bare i).code
  blank : ∀ i, g.size ≤ i → (h.bare i).code = []

/-- A graph formed from another one so that all walks are kept. -/
abbrev Rewrite := RewriteFor fun _ => True

/-- Numbers without a block have no code. -/
theorem code_of_size_le {g : Graph} {id : BlockId} (absent : g.size ≤ id) :
    (g.bare id).code = [] := by
  -- Such a number stands for a blank block.
  rw [bare, block_of_size_le absent]
  rfl

/-- An open test is a test, with a branch. -/
theorem isOpenCondition_iff {b : Block} :
    b.isOpenCondition = true ↔ b.type.isCondition = true ∧ b.branch.isSome = true :=
  Bool.and_eq_true_iff

/-- An open test is a block of the graph. -/
theorem lt_size_of_isOpenCondition {g : Graph} {id : BlockId}
    (isOpen : (g.bare id).isOpenCondition = true) : id < g.size := by
  -- A branch is an edge, which only a block of the graph has.
  obtain ⟨-, hasBranch⟩ := isOpenCondition_iff.mp isOpen
  obtain ⟨target, isBranch⟩ := Option.isSome_iff_exists.mp hasBranch
  have edge : (g.bare id).edge? .branch = some target := isBranch
  exact lt_size_of_edge edge

/-- The block that a block stands for where all new blocks stand for one and the same. -/
def standsFor (g : Graph) (id i : BlockId) : BlockId := if i < g.size then i else id

/-- A block from before stands for itself. -/
theorem standsFor_old {g : Graph} {i : BlockId} (id : BlockId) (known : i < g.size) :
    g.standsFor id i = i :=
  if_pos known

/-- A new block stands for the one that all of them stand for. -/
theorem standsFor_new {g : Graph} {i : BlockId} (id : BlockId) (isNew : g.size ≤ i) :
    g.standsFor id i = id :=
  if_neg (Nat.not_lt.mpr isNew)

/-- A block that has become of an old one and leads where the old one did, as far
as it still has edges. -/
structure Inherits (g : Graph) (id u : BlockId) (c : Block) : Prop where
  edges : ∀ kind target, c.edge? kind = some (.block target) → c.type = (g.bare u).type ∧
    ∃ before, (g.bare u).edge? kind = some (.block before) ∧ g.standsFor id target = before
  shaped : c.Shaped

/-- Renaming a block to the one that takes its place keeps what its predecessors lead to. -/
theorem inherits_replaceTarget {g : Graph} (linked : g.Linked) {id u new : BlockId}
    (isNew : g.size ≤ new) (shaped : (g.bare u).Shaped) :
    Inherits g id u ((g.bare u).replaceTarget (.block id) (.block new)) := by
  refine ⟨fun kind target edge => ⟨rfl, ?_⟩, shaped.congr rfl fun kind => by simp⟩
  -- Only the edge to the block itself is renamed, and the new block stands for it.
  rw [Block.edge?_replaceTarget, Option.map_eq_some_iff] at edge
  obtain ⟨before, edge, renamed⟩ := edge
  by_cases same : before = .block id
  · subst same
    rw [Target.renamed_self] at renamed
    cases renamed
    exact ⟨id, edge, standsFor_new id isNew⟩
  · rw [Target.renamed_ne same] at renamed
    subst renamed
    exact ⟨target, edge, standsFor_old id (linked.bounded ⟨kind, edge⟩)⟩

/-- A block that has not changed leads where it did. -/
theorem inherits_self {g : Graph} (linked : g.Linked) {id u : BlockId}
    (shaped : (g.bare u).Shaped) : Inherits g id u (g.bare u) :=
  ⟨fun kind target edge =>
    ⟨rfl, target, edge, standsFor_old id (linked.bounded ⟨kind, edge⟩)⟩, shaped⟩

/-- Closing a test drops its successors and keeps its operands. -/
theorem Inherits.closed {g : Graph} {id u : BlockId} {c : Block} (inherits : Inherits g id u c)
    (isTest : c.type.isCondition) (invert : Bool) : Inherits g id u (c.closed invert) := by
  -- A raw test becomes a plain construct, and no other type changes.
  have type : (c.closed invert).type =
      if c.type = .raw .conditional then .structured .condition else c.type := rfl
  have notRaw : ∀ other, (c.closed invert).type ≠ .raw other := by
    intro other isRaw
    rw [type] at isRaw
    split at isRaw
    · cases isRaw
    · next differs => cases other <;> simp_all [BlockType.isCondition]
  refine ⟨?_, ?_, fun other isRaw => absurd isRaw (notRaw other),
    fun other isRaw => absurd isRaw (notRaw other), ?_, ?_, fun has => by cases has⟩
  · intro kind target edge
    rw [Block.edge?_closed] at edge
    split at edge
    · cases edge
    · next kept =>
      rw [type]
      split
      · -- Raw code of a test has no edges but its successors.
        next isRaw =>
        have own := inherits.shaped.own .conditional isRaw kind (by simp [edge])
        cases kind <;> simp_all [RawType.mayHave]
      · exact inherits.edges kind target edge
  · intro kind required
    rw [type] at required
    split at required
    · cases required
    · rw [Block.edge?_closed, if_neg (BlockType.requiredEdges_of_isCondition isTest required)]
      exact inherits.shaped.children kind required
  · intro isOpen
    simp [Block.isOpenCondition, Block.closed] at isOpen
  · intro isGoto
    rw [type] at isGoto
    split at isGoto
    · cases isGoto
    · rw [BlockType.not_isGoto_of_isCondition isTest] at isGoto
      cases isGoto

/-- Ending a block with an exit drops the edge to its next block. -/
theorem Inherits.ended {g : Graph} {id u : BlockId} {c : Block} (inherits : Inherits g id u c)
    (goesOn : c.next.isSome) (way : Exit) :
    Inherits g id u { c with next := some (.exit way) } := by
  refine ⟨fun kind target edge => ?_, inherits.shaped.congr rfl fun kind => ?_⟩
  -- The edge to the next block is gone, and the others are those from before.
  · refine inherits.edges kind target ?_
    cases kind <;> first | exact edge | cases edge
  · cases kind <;> first | rfl | exact goesOn.symm

/-- A literal jump has the edges that its type asks for. -/
theorem shaped_gotoBlock {construct : Construct} (isGoto : (BlockType.structured construct).isGoto)
    (offset : Offset) (target : Target) : (gotoBlock construct offset target).Shaped := by
  refine ⟨fun kind required => ?_, fun type isRaw => ?_, fun type isRaw => ?_, fun isOpen => ?_,
    fun _ kind has => ?_, fun _ => ?_⟩
  -- Of the literal jumps none has children that it cannot do without but its branch.
  · rw [edge?_gotoBlock]
    cases construct <;>
      simp_all [gotoBlock, BlockType.isGoto, BlockType.requiredEdges, Construct.requiredEdges]
  · cases isRaw
  · cases isRaw
  · cases construct <;>
      simp_all [gotoBlock, BlockType.isGoto, Block.isOpenCondition, BlockType.isCondition]
  · rw [edge?_gotoBlock] at has
    split at has
    · assumption
    · cases has
  · have type : (gotoBlock construct offset target).type = .structured construct := rfl
    simp [BlockType.mayBranch, type, isGoto]

namespace Simulates

variable {covers : EdgeFilter → Prop} {g h : Graph} {back : BlockId → BlockId}

/-- A walk in the new graph is one in the old graph. -/
theorem walk (rewrite : Simulates covers g h back) {allow : EdgeFilter} (lenient : allow.Lenient)
    (covered : covers allow) {u v : BlockId} (reached : g.Reached (back u))
    (walk : h.Walk allow u v) : g.Walk allow (back u) (back v) := by
  -- By induction on the walk, all of whose blocks stand for reachable ones.
  induction walk with
  | refl => exact .refl
  | tail _ step ih => exact ih.trans (rewrite.steps lenient covered (reached.walk ih) step)

/-- A block that can be reached stands for one that could be reached. -/
theorem reached (rewrite : Simulates covers g h back) (covered : covers .all)
    (nonempty : start < g.size) {id : BlockId} (reached : h.Reached id) : g.Reached (back id) := by
  -- The entry stands for itself, so a walk from there in the new graph gives one in the old.
  have root : back start = start := rewrite.old start nonempty
  have walk :=
    rewrite.walk EdgeFilter.all_lenient covered (root.symm ▸ g.reached_start)
      (reached_iff_walk.mp reached)
  exact g.reached_start.walk (root ▸ walk)

/-- An old block that can be reached could be reached before. -/
theorem reached_old (rewrite : Simulates covers g h back) (covered : covers .all)
    (nonempty : start < g.size) {id : BlockId} (known : id < g.size) (reached : h.Reached id) :
    g.Reached id :=
  rewrite.old id known ▸ rewrite.reached covered nonempty reached

/-- A graph formed from a sound one is sound. -/
theorem sound (rewrite : Simulates covers g h back) (covered : covers .all)
    (nonempty : start < g.size) : h.Sound :=
  { rewrite.linked with
    shaped := fun isReached =>
      rewrite.shaped (isReached.lt_size rewrite.linked)
        (rewrite.reached covered nonempty isReached) }

/-- A construct formed around one block: the other blocks keep their edges, up to the new blocks
that stand for the one, and what the one and the new blocks lead to could be reached
from the one. -/
theorem form {id : BlockId} (linked : h.Linked) (grows : g.size ≤ h.size)
    (others : ∀ u < g.size, u ≠ id → g.Reached u → Inherits g id u (h.bare u))
    (own : ∀ {allow : EdgeFilter}, allow.Lenient → ∀ u, u = id ∨ g.size ≤ u → ∀ kind target,
      allow (h.bare u).type kind → (h.bare u).edge? kind = some (.block target) →
      g.Walk allow id (g.standsFor id target))
    (shaped : ∀ u < h.size, u = id ∨ g.size ≤ u → g.Reached id → (h.bare u).Shaped) :
    Simulates covers g h (g.standsFor id) where
  linked := linked
  grows := grows
  old := fun i known => standsFor_old id known
  steps := by
    -- The source of an edge is the block itself, another old block, or a new one
    -- that stands for the block.
    rintro allow lenient - u v reached ⟨kind, allowed, edge⟩
    by_cases known : u < g.size
    · by_cases same : u = id
      · subst same
        rw [standsFor_old u known]
        exact own lenient u (.inl rfl) kind v allowed edge
      · rw [standsFor_old id known] at reached ⊢
        obtain ⟨type, before, edge, stands⟩ := (others u known same reached).edges kind v edge
        exact stands.symm ▸ .single ⟨kind, type ▸ allowed, edge⟩
    · have isNew := Nat.le_of_not_lt known
      rw [standsFor_new id isNew]
      exact own lenient u (.inr isNew) kind v allowed edge
  -- An old block has the shape that it inherits, and the others have theirs.
  shaped := by
    intro i inside reached
    by_cases known : i < g.size
    · rw [standsFor_old id known] at reached
      by_cases same : i = id
      · exact shaped i inside (.inl same) (same ▸ reached)
      · exact (others i known same reached).shaped
    · have isNew := Nat.le_of_not_lt known
      rw [standsFor_new id isNew] at reached
      exact shaped i inside (.inr isNew) reached

end Simulates

namespace Rewrite

variable {g h : Graph}

/-- The change of one block that keeps to the edges that the block had. -/
theorem single {id : BlockId} {c : Block} (sound : g.Sound) (linked : h.Linked)
    (size : h.size = g.size) (blocks : ∀ i, h.bare i = if i = id then c else g.bare i)
    (edges : ∀ {allow : EdgeFilter}, allow.Lenient → ∀ kind target, allow c.type kind →
      c.edge? kind = some (.block target) →
      allow (g.bare id).type kind ∧ (g.bare id).edge? kind = some (.block target))
    (shaped : c.Shaped) (code : c.code = (g.bare id).code) : Rewrite g h fun i => i where
  linked := linked
  grows := Nat.le_of_eq size.symm
  old := fun _ _ => rfl
  steps := by
    rintro allow lenient - u v - ⟨kind, allowed, edge⟩
    -- Only the edges of the changed block differ, and these are edges that it had.
    rw [blocks] at allowed edge
    split at edge
    · next same =>
      subst same
      rw [if_pos rfl] at allowed
      obtain ⟨allowed, edge⟩ := edges lenient kind v allowed edge
      exact .single ⟨kind, allowed, edge⟩
    · next other =>
      rw [if_neg other] at allowed
      exact .single ⟨kind, allowed, edge⟩
  -- The changed block has its shape by assumption.
  shaped := by
    intro i known reached
    rw [blocks]
    split
    · exact shaped
    · exact sound.shaped reached
  code := by
    intro i known
    rw [blocks]
    split
    · next same => rw [code, same]
    · rfl
  blank := fun i absent => code_of_size_le (size ▸ absent)

/-- A construct formed around one block without moving code. -/
theorem form {id : BlockId} (linked : h.Linked) (grows : g.size ≤ h.size)
    (others : ∀ u < g.size, u ≠ id → g.Reached u → Inherits g id u (h.bare u))
    (own : ∀ {allow : EdgeFilter}, allow.Lenient → ∀ u, u = id ∨ g.size ≤ u →
      ∀ kind target, allow (h.bare u).type kind → (h.bare u).edge? kind = some (.block target) →
      g.Walk allow id (g.standsFor id target))
    (shaped : ∀ u < h.size, u = id ∨ g.size ≤ u → g.Reached id → (h.bare u).Shaped)
    (code : ∀ u < g.size, (h.bare u).code = (g.bare u).code)
    (blank : ∀ u, g.size ≤ u → u < h.size → (h.bare u).code = []) :
    Rewrite g h (g.standsFor id) where
  toSimulates := .form linked grows others own shaped
  code := code
  -- A number beyond the new blocks has no code either.
  blank := by
    intro i isNew
    by_cases inside : i < h.size
    · exact blank i isNew inside
    · exact code_of_size_le (Nat.le_of_not_lt inside)

/-- A block that leads to new literal jumps in place of some of its successors. -/
theorem detour {id : BlockId} {construct : Construct} (sound : g.Sound) (linked : h.Linked)
    (grows : g.size ≤ h.size) (isGoto : (BlockType.structured construct).isGoto)
    (others : ∀ u < g.size, u ≠ id → h.bare u = g.bare u)
    (gotos : ∀ u, g.size ≤ u → u < h.size →
      ∃ offset v, g.Leads id v ∧ h.bare u = gotoBlock construct offset (.block v))
    (own : ∀ {allow : EdgeFilter}, allow.Lenient → ∀ kind target, allow (h.bare id).type kind →
      (h.bare id).edge? kind = some (.block target) → g.Step allow id target ∨ g.size ≤ target)
    (shaped : g.Reached id → (h.bare id).Shaped) (code : (h.bare id).code = (g.bare id).code) :
    Rewrite g h (g.standsFor id) := by
  -- The block leads to jumps, and these lead where it did.
  refine form linked grows ?_ ?_ ?_ ?_ ?_
  · intro u old other reached
    rw [others u old other]
    exact inherits_self sound.toLinked (sound.shaped reached)
  · rintro allow lenient u (rfl | isNew) kind target allowed edge
    · rcases own lenient kind target allowed edge with step | isNew
      · rw [standsFor_old u (sound.bounded step.leads)]
        exact .single step
      · rw [standsFor_new u isNew]
    · -- A walk that may follow a literal jump may follow the edge that the jump stands for.
      obtain ⟨offset, v, ⟨before, leads⟩, same⟩ := gotos u isNew (lt_size_of_edge edge)
      rw [same] at allowed edge
      rw [edge?_gotoBlock] at edge
      split at edge
      · next isBranch =>
        cases edge
        subst isBranch
        rw [standsFor_old id (sound.bounded ⟨before, leads⟩)]
        exact .single ⟨before, lenient.jump _ isGoto allowed _ _, leads⟩
      · cases edge
  · rintro u bounded (rfl | isNew) reached
    · exact shaped reached
    · obtain ⟨offset, v, -, same⟩ := gotos u isNew bounded
      exact same ▸ shaped_gotoBlock isGoto _ _
  · intro u old
    by_cases same : u = id
    · rw [same, code]
    · rw [others u old same]
  · intro u isNew bounded
    obtain ⟨offset, v, -, same⟩ := gotos u isNew bounded
    rw [same]
    rfl

end Rewrite

end Unjump.Graph
