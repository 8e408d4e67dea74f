import Mathlib.Data.Fintype.Basic
import Mathlib.Data.Fintype.Card
import Mathlib.Data.Fintype.EquivFin
import Mathlib.Order.WellFounded
import Unjump.Construct.Loop
import Unjump.Proofs.Flow

/-!
Natural loops have one entrance and nest.

The loop of a header is the header and what runs to a source of its back edges without passing it.
All of it is dominated by the header, so that of two headers only one can lie in the loop of the
other, and some loop holds no other header.
-/

namespace Unjump.Graph

variable {g : Graph} {a b header : BlockId}

section Members

variable (mirrored : g.Mirrored)

include mirrored

/-- What runs to the source of a back edge is part of the loop. -/
theorem RunsTo.mem_naturalLoop {source id : BlockId} (runs : g.RunsTo header id source)
    (isBack : (source, header) ∈ (Flow.ofGraph g).backEdges) :
    id ∈ (Flow.ofGraph g).naturalLoop g header := by
  -- Along the run, from its end back to its first block.
  induction runs with
  | here => exact source_mem_naturalLoop mirrored isBack
  | step carries flows later ih =>
    -- The search goes on from the next block, which is not the header,
    -- to all flow predecessors of it.
    obtain ⟨kind, flow⟩ := flows
    have flow := Block.mem_flowEdges.mp flow
    have unseen : ∀ {id}, g.Carries header id → id ∉ IdSet.insert ∅ header := fun carries seen =>
      carries.other ((IdSet.mem_insert.mp seen).resolve_left (IdSet.not_mem_empty _))
    refine mem_explore_of_next (ih isBack) (unseen later.carries) ?_ (lt_size_of_edge flow.2)
    refine List.mem_filter.mpr
      ⟨IdSet.mem_toList.mpr ((mem_flowPreds mirrored).mpr ⟨kind, flow⟩), ?_⟩
    rw [Bool.and_eq_true, IdSet.contains_iff, Bool.not_eq_true']
    exact ⟨carries.reachable, carries.notGoto⟩

/-- The loop of a header is the header and what runs to a source of its back edges. -/
theorem mem_naturalLoop (known : header < g.size) {id : BlockId} :
    id ∈ (Flow.ofGraph g).naturalLoop g header ↔
    id = header ∨ ∃ source, (source, header) ∈ (Flow.ofGraph g).backEdges ∧
      g.RunsTo header id source := by
  -- The search finds what runs to a source, and nothing else.
  constructor
  · exact naturalLoop_runs mirrored
  · rintro (rfl | ⟨source, isBack, runs⟩)
    · exact header_mem_naturalLoop known
    · exact runs.mem_naturalLoop mirrored isBack

/-- The header of a loop dominates the whole loop. -/
theorem dominates_of_mem_naturalLoop (isHeader : header ∈ (Flow.ofGraph g).headers) {id : BlockId}
    (member : id ∈ (Flow.ofGraph g).naturalLoop g header) :
    (Flow.ofGraph g).dominates header id = true := by
  -- The header is entered, so the graph has blocks.
  obtain ⟨source, reached, leads⟩ := header_entered mirrored isHeader
  have nonempty : start < g.size := Nat.zero_lt_of_lt leads.lt_size
  refine (dominates_iff_reached mirrored nonempty).mpr ⟨reached.step leads, ?_, ?_⟩
  · exact naturalLoop_reached mirrored isHeader member
  · exact .inr (naturalLoop_dominated mirrored member)

end Members

/-- Two blocks within reach do not dominate each other. -/
theorem Dominates.antisymm (first : g.Dominates a b) (second : g.Dominates b a)
    (reached : g.Reached a) : a = b := by
  -- One of them would be reached around the other.
  refine Classical.byContradiction fun differ => ?_
  rcases reached.around_or_around differ with around | around
  · exact second.resolve_left (Ne.symm differ) around
  · exact first.resolve_left differ around

/-- Dominance orders the blocks, of which there are finitely many. -/
theorem wellFounded_dominates (g : Graph) :
    WellFounded fun a b : Fin g.size => a ≠ b ∧ g.Reached a ∧ g.Reached b ∧ g.Dominates b a := by
  -- Dominance between different blocks is a strict order.
  let Below : Fin g.size → Fin g.size → Prop :=
    fun a b => a ≠ b ∧ g.Reached a ∧ g.Reached b ∧ g.Dominates b a
  have : Std.Irrefl Below := ⟨fun a below => below.1 rfl⟩
  have : IsTrans (Fin g.size) Below := by
    constructor
    rintro a b c ⟨differ, reached, -, lower⟩ ⟨-, -, top, upper⟩
    refine ⟨?_, reached, top, upper.trans lower⟩
    -- The first and the last block are not the same, or else the one between would be the same too.
    rintro rfl
    exact differ (Fin.ext (upper.antisymm lower reached))
  exact Finite.wellFounded_of_trans_of_irrefl Below

/-- A loop is innermost if no other header lies in it. -/
theorem isInnermost_iff {flow : Flow} : flow.isInnermost g header = true ↔
    ∀ id ∈ flow.naturalLoop g header, id ∈ flow.headers → id = header := by
  simp only [Flow.isInnermost, List.all_eq_true, IdSet.mem_toList, Bool.or_eq_true, beq_iff_eq,
    Bool.not_eq_true', ← Bool.not_eq_true, IdSet.contains_iff, or_iff_not_imp_right,
    Classical.not_not]

/-- Where there is a header, there is an innermost one. -/
theorem exists_isInnermost (mirrored : g.Mirrored) (isHeader : header ∈ (Flow.ofGraph g).headers) :
    ∃ inner ∈ (Flow.ofGraph g).headers, (Flow.ofGraph g).isInnermost g inner = true := by
  -- Headers are blocks of the graph.
  have bounded : ∀ {id}, id ∈ (Flow.ofGraph g).headers → id < g.size := fun isHeader =>
    let ⟨_, _, leads⟩ := header_entered mirrored isHeader
    mirrored.bounded leads
  -- A header that dominates no other header has no other header in its loop.
  obtain ⟨inner, isInner, least⟩ :=
    g.wellFounded_dominates.has_min {id | id.val ∈ (Flow.ofGraph g).headers}
      ⟨⟨header, bounded isHeader⟩, isHeader⟩
  refine ⟨inner, isInner, isInnermost_iff.mpr fun id member isOther => ?_⟩
  refine Classical.byContradiction fun differ =>
    least ⟨id, bounded isOther⟩ isOther ⟨fun same => ?_, ?_, ?_, ?_⟩
  · exact differ (congrArg Fin.val same)
  · exact naturalLoop_reached mirrored isInner member
  · exact naturalLoop_reached mirrored isInner (header_mem_naturalLoop inner.isLt)
  · exact .inr (naturalLoop_dominated mirrored member)

/-- A loop is made of exactly the innermost headers. -/
theorem isSome_wrapLoop_iff (mirrored : g.Mirrored) :
    (g.wrapLoop (Flow.ofGraph g) header).isSome = true ↔
    header ∈ (Flow.ofGraph g).headers ∧ (Flow.ofGraph g).isInnermost g header = true := by
  -- The rule applies to the ripe headers.
  have ripe : (g.wrapLoop (Flow.ofGraph g) header).isSome = true ↔
      header ∈ (Flow.ofGraph g).ripeHeaders g := by
    rw [wrapLoop, ← List.contains_iff_mem]
    split
    · next isRipe => simp only [Option.isSome_some, isRipe]
    · next notRipe => simp only [Option.isSome_none, Bool.false_eq_true, notRipe]
  rw [ripe, Flow.ripeHeaders]
  by_cases some : ∃ id, id ∈ (Flow.ofGraph g).headers
  · -- An innermost header exists, so that the others have to wait for it.
    obtain ⟨id, isHeader⟩ := some
    obtain ⟨inner, isInner, isInnermost⟩ := exists_isInnermost mirrored isHeader
    have listed : inner ∈ (Flow.ofGraph g).headers.toList.filter ((Flow.ofGraph g).isInnermost g) :=
      List.mem_filter.mpr ⟨IdSet.mem_toList.mpr isInner, isInnermost⟩
    have nonempty := List.isEmpty_eq_false_iff.mpr (List.ne_nil_of_mem listed)
    simp only [nonempty, Bool.false_eq_true, if_false, List.mem_filter, IdSet.mem_toList]
  · have none : header ∉ (Flow.ofGraph g).headers := fun isHeader => some ⟨header, isHeader⟩
    split <;> simp [none]

/--
Natural loops have one entrance and nest.

The loop of a header is the header and what runs to a source of its back edges, all of which the
header dominates. Where there is a back edge, there is a header whose loop holds no other header,
and loops are made of exactly those headers.
-/
theorem naturalLoop_nests (mirrored : g.Mirrored) :
    (∀ header ∈ (Flow.ofGraph g).headers,
      (∀ id, id ∈ (Flow.ofGraph g).naturalLoop g header ↔
        id = header ∨ ∃ source, (source, header) ∈ (Flow.ofGraph g).backEdges ∧
        g.RunsTo header id source) ∧
      ∀ id ∈ (Flow.ofGraph g).naturalLoop g header, (Flow.ofGraph g).dominates header id = true) ∧
    ((Flow.ofGraph g).backEdges ≠ [] → ∃ header ∈ (Flow.ofGraph g).headers,
      ∀ id ∈ (Flow.ofGraph g).naturalLoop g header, id ∈ (Flow.ofGraph g).headers → id = header) ∧
    ∀ header, (g.wrapLoop (Flow.ofGraph g) header).isSome = true ↔
      header ∈ (Flow.ofGraph g).headers ∧
      ∀ id ∈ (Flow.ofGraph g).naturalLoop g header, id ∈ (Flow.ofGraph g).headers →
        id = header := by
  -- The parts are about members, dominance, innermost headers and the rule.
  refine ⟨fun header isHeader => ⟨fun id => ?_, fun id => ?_⟩, fun some => ?_, fun header => ?_⟩
  · obtain ⟨source, -, leads⟩ := header_entered mirrored isHeader
    exact mem_naturalLoop mirrored (mirrored.bounded leads)
  · exact dominates_of_mem_naturalLoop mirrored isHeader
  · obtain ⟨⟨source, header⟩, isBack⟩ := List.exists_mem_of_ne_nil _ some
    obtain ⟨inner, isInner, isInnermost⟩ :=
      exists_isInnermost mirrored (mem_headers.mpr ⟨source, isBack⟩)
    exact ⟨inner, isInner, isInnermost_iff.mp isInnermost⟩
  · rw [isSome_wrapLoop_iff mirrored, isInnermost_iff]

/-- A loop of the blocks 1 to 4 around a loop of the blocks 2 and 3. -/
def nestedLoops : Graph :=
  relink ⟨#[{ blankBlock with next := some (.block 1) },
    { type := .raw .conditional, start := 0, finish := 2, next := some (.block 2),
      branch := some (.block 5) },
    { type := .raw .conditional, start := 2, finish := 4, next := some (.block 3),
      branch := some (.block 4) },
    { type := .structured .statements, start := 4, finish := 6, next := some (.block 2) },
    { type := .structured .statements, start := 6, finish := 8, next := some (.block 1) },
    { type := .structured .statements, start := 8, finish := 9 }]⟩

/-- Of the two loops the inner one is made first, though its blocks belong
to the outer one as well. -/
theorem nestedLoops_nests :
    nestedLoops.Mirrored ∧ (Flow.ofGraph nestedLoops).headers.toList = [1, 2] ∧
    (∃ source, (source, 1) ∈ (Flow.ofGraph nestedLoops).backEdges ∧ nestedLoops.RunsTo 1 3 source) ∧
    (Flow.ofGraph nestedLoops).dominates 1 3 = true ∧
      (nestedLoops.wrapLoop (Flow.ofGraph nestedLoops) 2).isSome = true ∧
    ¬ (nestedLoops.wrapLoop (Flow.ofGraph nestedLoops) 1).isSome = true := by
  -- The facts about the two loops are evaluated.
  have mirrored : nestedLoops.Mirrored := mirrored_relink (bounded_of_targets (by decide +kernel))
  have inLoop : 3 ∈ (Flow.ofGraph nestedLoops).naturalLoop nestedLoops 1 := by decide +kernel
  have outer : 1 ∈ (Flow.ofGraph nestedLoops).headers := by decide +kernel
  have inner : 2 ∈ (Flow.ofGraph nestedLoops).headers := by decide +kernel
  obtain ⟨members, -, made⟩ := naturalLoop_nests mirrored
  refine ⟨mirrored, by decide +kernel, ?_, (members 1 outer).2 3 inLoop, ?_, fun applies => ?_⟩
  · exact (((members 1 outer).1 3).mp inLoop).resolve_left (by decide)
  · exact (made 2).mpr ⟨inner, isInnermost_iff.mp (by decide +kernel)⟩
  · -- The header of the inner loop lies in the outer one.
    exact absurd (((made 1).mp applies).2 2 (by decide +kernel) inner) (by decide)

end Unjump.Graph
