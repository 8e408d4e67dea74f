import Unjump.Proofs.Arm
import Unjump.Proofs.Dominators

/-! Dominance, back edges and natural loops as statements about paths. -/

namespace Unjump.Graph

variable {g : Graph} {a b c : BlockId}

/-- Whether every path from the entry to the second block passes through the first. -/
def Dominates (g : Graph) (a b : BlockId) : Prop := a = b ∨ ¬ g.ReachedAvoiding a b

/-- A path that avoids a block does not end there. -/
theorem ReachedAvoiding.ne (around : g.ReachedAvoiding a b) : b ≠ a := by
  -- The last step leads elsewhere by assumption, and a path without steps ends at the entry.
  obtain ⟨differs, path⟩ := around
  rcases path.cases_tail with same | ⟨_, -, step⟩
  · exact same ▸ differs
  · exact step.2

/-- A path around a block goes on along an edge to another one. -/
theorem ReachedAvoiding.step (around : g.ReachedAvoiding a b) (leads : g.Leads b c)
    (other : c ≠ a) : g.ReachedAvoiding a c :=
  ⟨around.1, around.2.tail ⟨leads, other⟩⟩

/-- What holds of the entry and is passed on along the edges of a path
that avoids a block holds at its end. -/
theorem ReachedAvoiding.induction (Holds : BlockId → Prop) (root : start ≠ a → Holds start)
    (step : ∀ {b c}, g.ReachedAvoiding a b → Holds b → g.Leads b c → c ≠ a → Holds c)
    (around : g.ReachedAvoiding a b) : Holds b := by
  -- Along the path, whose beginning is a path around the block as well.
  obtain ⟨differs, path⟩ := around
  induction path with
  | refl => exact root differs
  | tail before last ih => exact step ⟨differs, before⟩ ih last.1 last.2

/-- A block that can be reached is reached around another one or from it. -/
theorem Reached.around_or_walk (reached : g.Reached b) (a : BlockId) :
    g.ReachedAvoiding a b ∨ g.Walk .all a b := by
  -- The path is cut where it comes to the block for the last time.
  induction reached with
  | refl =>
    by_cases same : start = a
    · exact .inr (same ▸ .refl)
    · exact .inl ⟨same, .refl⟩
  | @tail b c _ leads ih =>
    by_cases same : c = a
    · exact .inr (same ▸ .refl)
    · exact ih.imp (·.step leads same) (·.tail (step_all.mpr leads))

/-- A path around one block passes through another or is a path around that. -/
theorem ReachedAvoiding.around_or_through (around : g.ReachedAvoiding a c) (b : BlockId) :
    g.ReachedAvoiding b c ∨ g.ReachedAvoiding a b := by
  -- The first time that the path meets the second block, it has avoided the first one so far.
  refine around.induction (fun c => g.ReachedAvoiding b c ∨ g.ReachedAvoiding a b) ?_ ?_
  · intro differs
    by_cases same : start = b
    · exact .inr (same ▸ ⟨differs, .refl⟩)
    · exact .inl ⟨same, .refl⟩
  · intro d e before ih leads other
    by_cases same : e = b
    · exact .inr (same ▸ before.step leads other)
    · exact ih.imp_left (·.step leads same)

/-- Dominance is transitive. -/
theorem Dominates.trans (first : g.Dominates a b) (second : g.Dominates b c) : g.Dominates a c := by
  -- A path around the first block avoids the second or gives a path around the first to it.
  rcases second with rfl | second
  · exact first
  · rcases first with rfl | first
    · exact .inr second
    · exact .inr fun around => (around.around_or_through b).elim second first

/-- Of two blocks one can be reached around the other. -/
theorem Reached.around_or_around (reached : g.Reached a) (differ : a ≠ b) :
    g.ReachedAvoiding b a ∨ g.ReachedAvoiding a b := by
  -- Until the first of the two is met, the path avoids both.
  have both : ∀ c, g.Reached c → (g.ReachedAvoiding a c ∧ g.ReachedAvoiding b c) ∨
      g.ReachedAvoiding b a ∨ g.ReachedAvoiding a b := by
    intro c path
    induction path with
    | refl =>
      by_cases first : start = a
      · exact .inr (.inl (first ▸ ⟨fun same => differ (first ▸ same), .refl⟩))
      · by_cases second : start = b
        · exact .inr (.inr (second ▸ ⟨first, .refl⟩))
        · exact .inl ⟨⟨first, .refl⟩, ⟨second, .refl⟩⟩
    | @tail c d _ leads ih =>
      rcases ih with ⟨aroundA, aroundB⟩ | done
      · by_cases first : d = a
        · exact .inr (.inl (first ▸ aroundB.step leads (first ▸ differ)))
        · by_cases second : d = b
          · exact .inr (.inr (second ▸ aroundA.step leads first))
          · exact .inl ⟨aroundA.step leads first, aroundB.step leads second⟩
      · exact .inr done
  rcases both a reached with ⟨around, -⟩ | done
  · exact absurd rfl around.ne
  · exact done

/-- The edges that may close a loop are the inner edges of reachable blocks
that are no literal jumps. -/
theorem mem_loopEdges {reachable : IdSet} {source target : BlockId} :
    (source, target) ∈ g.loopEdges reachable ↔
      source ∈ reachable ∧ (g.bare source).type.isGoto = false ∧
        ∃ kind, (kind, target) ∈ (g.bare source).innerEdges := by
  -- The edges are listed block by block.
  simp only [loopEdges, List.mem_flatMap, IdSet.mem_toList]
  constructor
  · rintro ⟨id, isReachable, listed⟩
    split at listed
    · cases listed
    · next isGoto =>
      obtain ⟨⟨kind, other⟩, inner, made⟩ := List.mem_map.mp listed
      cases made
      exact ⟨isReachable, Bool.eq_false_iff.mpr isGoto, kind, inner⟩
  · rintro ⟨isReachable, notGoto, kind, inner⟩
    refine ⟨source, isReachable, ?_⟩
    rw [if_neg (show ¬(g.block source).type.isGoto = true from Bool.eq_false_iff.mp notGoto)]
    exact List.mem_map.mpr ⟨(kind, target), inner, rfl⟩

section BackEdges

/-- The climb tells whether every path to a block passes another one, both within reach. -/
theorem dominates_iff_path : (Flow.ofGraph g).dominates a b = true ↔
    (∃ passed, g.Path a passed) ∧ (∃ passed, g.Path b passed) ∧ g.OnEveryPath a b := by
  -- The search finds the blocks that paths lead to.
  rw [← mem_reachable_iff_path, ← mem_reachable_iff_path]
  constructor
  · intro dominates
    -- The climb stays within the table.
    have known := Dominators.mem_of_mem_climb (List.contains_iff_mem.mp dominates)
    exact ⟨Dominators.mem_ofGraph.mp known, Dominators.dominates_ofGraph.mp dominates⟩
  · rintro ⟨-, both⟩
    exact Dominators.dominates_ofGraph.mpr both

/-- Of the edges that may close a loop, those to a dominating block are back edges. -/
theorem mem_backEdges_iff_dominates {source target : BlockId} :
    (source, target) ∈ (Flow.ofGraph g).backEdges ↔
      (source, target) ∈ g.loopEdges g.reachable ∧
        (Flow.ofGraph g).dominates target source = true :=
  List.mem_filter

/-- The blocks that the flow lists as reachable are those that can be reached. -/
theorem mem_flow_reachable (linked : g.Linked) : a ∈ (Flow.ofGraph g).reachable ↔ g.Reached a :=
  mem_reachable linked.toMirrored linked.nonempty

variable (mirrored : g.Mirrored)

include mirrored

/-- The climb tells whether a block dominates another, both within reach. -/
theorem dominates_iff_reached (nonempty : start < g.size) :
    (Flow.ofGraph g).dominates a b = true ↔ g.Reached a ∧ g.Reached b ∧ g.Dominates a b := by
  rw [dominates_iff_path, ← mem_reachable_iff_path, ← mem_reachable_iff_path,
    mem_reachable mirrored nonempty, mem_reachable mirrored nonempty]
  refine and_congr_right fun _ => and_congr_right fun _ => ?_
  rw [Dominates, reachedAvoiding_iff_path mirrored.bounded nonempty]
  -- A path that does not pass the block leads to another one.
  constructor
  · intro always
    exact .inr fun ⟨passed, path, apart⟩ => apart (always passed path)
  · intro dominates passed path
    rcases dominates with rfl | around
    · exact path.mem
    · exact Classical.byContradiction fun apart => around ⟨passed, path, apart⟩

/-- A back edge is an edge that may close a loop and leads to a block that dominates its source. -/
theorem mem_backEdges {source target : BlockId} : (source, target) ∈ (Flow.ofGraph g).backEdges ↔
    g.Reached source ∧ (g.bare source).type.isGoto = false ∧
      (∃ kind, (kind, target) ∈ (g.bare source).innerEdges) ∧ g.Dominates target source := by
  rw [mem_backEdges_iff_dominates, mem_loopEdges]
  simp only [and_assoc]
  -- A graph without blocks has no edges either.
  by_cases nonempty : start < g.size
  · rw [mem_reachable mirrored nonempty, dominates_iff_reached mirrored nonempty]
    refine and_congr_right fun isReached =>
      and_congr_right fun _ => and_congr_right fun ⟨kind, inner⟩ => ?_
    have leads : g.Leads source target := ⟨kind, (Block.mem_innerEdges.mp inner).2.2⟩
    rw [and_iff_right (isReached.step leads), and_iff_right isReached]
  · have noEdge : ¬ ∃ kind, (kind, target) ∈ (g.bare source).innerEdges := fun ⟨kind, inner⟩ =>
      nonempty (Nat.zero_lt_of_lt (lt_size_of_edge (Block.mem_innerEdges.mp inner).2.2))
    simp only [noEdge, false_and, and_false]

omit mirrored in
/-- Headers are the targets of back edges. -/
theorem mem_headers {header : BlockId} : header ∈ (Flow.ofGraph g).headers ↔
    ∃ source, (source, header) ∈ (Flow.ofGraph g).backEdges := by
  -- The headers are read off the list of back edges.
  have listed : header ∈ (Flow.ofGraph g).headers ↔ header ∈ (Flow.ofGraph g).backEdges.map (·.2) :=
    IdSet.mem_ofList
  rw [listed, List.mem_map]
  exact ⟨fun ⟨⟨source, _⟩, isBack, same⟩ => ⟨source, same ▸ isBack⟩,
    fun ⟨source, isBack⟩ => ⟨_, isBack, rfl⟩⟩

end BackEdges

/-- The blocks that a loop can run through beside its header: those within reach
that are no literal jumps. -/
structure Carries (g : Graph) (header id : BlockId) : Prop where
  reachable : id ∈ g.reachable
  notGoto : (g.block id).type.isGoto = false
  other : id ≠ header

/-- Whether a path along flow edges leads from one block to another through blocks that the loop of
a header can run through, both ends included. -/
inductive RunsTo (g : Graph) (header : BlockId) : BlockId → BlockId → Prop
  | here {id : BlockId} (carries : g.Carries header id) : RunsTo g header id id
  | step {id next last : BlockId} (carries : g.Carries header id)
      (flows : ∃ kind, (kind, .block next) ∈ (g.block id).flowEdges)
      (later : RunsTo g header next last) : RunsTo g header id last

/-- The first block of a run is one that the loop can run through. -/
theorem RunsTo.carries {header : BlockId} (runs : g.RunsTo header a b) : g.Carries header a := by
  cases runs <;> assumption

/-- A loop can run through the sources of its back edges. -/
theorem carries_source {source header : BlockId}
    (isBack : (source, header) ∈ (Flow.ofGraph g).backEdges) (other : source ≠ header) :
    g.Carries header source := by
  -- A back edge is one that may close a loop.
  obtain ⟨reachable, notGoto, -⟩ := mem_loopEdges.mp (mem_backEdges_iff_dominates.mp isBack).1
  exact ⟨reachable, notGoto, other⟩

section NaturalLoop

variable (mirrored : g.Mirrored) {header : BlockId}

/-- The header is part of its loop. -/
theorem header_mem_naturalLoop (known : header < g.size) :
    header ∈ (Flow.ofGraph g).naturalLoop g header :=
  mem_explore_of_seen (IdSet.mem_insert.mpr (.inr rfl)) known

include mirrored

/-- The sources of the back edges are part of the loop. -/
theorem source_mem_naturalLoop {source : BlockId}
    (isBack : (source, header) ∈ (Flow.ofGraph g).backEdges) :
    source ∈ (Flow.ofGraph g).naturalLoop g header := by
  -- The search starts from the sources.
  obtain ⟨-, -, ⟨kind, inner⟩, -⟩ := (mem_backEdges mirrored).mp isBack
  refine mem_explore_of_work ?_ (lt_size_of_edge (Block.mem_innerEdges.mp inner).2.2)
  exact List.mem_map.mpr
    ⟨(source, header), List.mem_filter.mpr ⟨isBack, beq_self_eq_true header⟩, rfl⟩

/-- Beside its header, a loop is made of blocks that run to a source of its back edges. -/
theorem naturalLoop_runs {id : BlockId} (member : id ∈ (Flow.ofGraph g).naturalLoop g header) :
    id = header ∨
      ∃ source, (source, header) ∈ (Flow.ofGraph g).backEdges ∧ g.RunsTo header id source := by
  refine explore_subset (fun id => id = header ∨
    ∃ source, (source, header) ∈ (Flow.ofGraph g).backEdges ∧ g.RunsTo header id source)
    ?_ ?_ ?_ member
  -- The search is seeded with the header as seen, and with the sources of the back edges as work.
  · intro id seen
    exact .inl ((IdSet.mem_insert.mp seen).resolve_left (IdSet.not_mem_empty id))
  · intro id listed _
    obtain ⟨⟨source, target⟩, isSource, rfl⟩ := List.mem_map.mp listed
    obtain ⟨isBack, same⟩ := List.mem_filter.mp isSource
    obtain rfl : target = header := beq_iff_eq.mp same
    by_cases same : source = target
    · exact .inl same
    · exact .inr ⟨source, isBack, .here (carries_source isBack same)⟩
  · -- The search goes back along flow edges, and never on from the header, which counts as seen.
    intro id found unseen pred listed _
    have other : id ≠ header := fun same => unseen (IdSet.mem_insert.mpr (.inr same))
    obtain ⟨source, isBack, runs⟩ := found.resolve_left other
    obtain ⟨isPred, fits⟩ := List.mem_filter.mp listed
    rw [Bool.and_eq_true, IdSet.contains_iff, Bool.not_eq_true'] at fits
    obtain ⟨kind, flow⟩ := (mem_flowPreds mirrored).mp (IdSet.mem_toList.mp isPred)
    by_cases same : pred = header
    · exact .inl same
    · exact .inr ⟨source, isBack,
        .step ⟨fits.1, fits.2, same⟩ ⟨kind, Block.mem_flowEdges.mpr flow⟩ runs⟩

/-- No path around the header leads to what runs to a source of its back edges. -/
theorem RunsTo.dominated {id source : BlockId} (runs : g.RunsTo header id source)
    (isBack : (source, header) ∈ (Flow.ofGraph g).backEdges) : ¬ g.ReachedAvoiding header id := by
  -- Along the run, from its end back to its first block.
  induction runs with
  | here carries =>
    exact ((mem_backEdges mirrored).mp isBack).2.2.2.resolve_left (Ne.symm carries.other)
  | step carries flows later ih =>
    -- A way around the header to the block would go on to the next one.
    obtain ⟨kind, flow⟩ := flows
    exact fun around =>
      ih isBack (around.step ⟨kind, (Block.mem_flowEdges.mp flow).2⟩ later.carries.other)

/-- The blocks of a loop are its header and blocks that it dominates, which are no literal jumps. -/
theorem naturalLoop_cases {id : BlockId} (member : id ∈ (Flow.ofGraph g).naturalLoop g header) :
    id = header ∨ g.Reached id ∧ (g.bare id).type.isGoto = false ∧
      ¬ g.ReachedAvoiding header id := by
  -- Beside the header, all blocks run to a source.
  refine (naturalLoop_runs mirrored member).imp_right fun ⟨source, isBack, runs⟩ => ?_
  have carries := runs.carries
  exact ⟨reached_of_mem_reachable carries.reachable, carries.notGoto,
    runs.dominated mirrored isBack⟩

/-- The header of a loop is entered by a back edge of the loop. -/
theorem header_entered (isHeader : header ∈ (Flow.ofGraph g).headers) :
    ∃ source, g.Reached source ∧ g.Leads source header := by
  -- A header is the target of a back edge.
  obtain ⟨source, isBack⟩ := mem_headers.mp isHeader
  obtain ⟨reached, -, ⟨kind, inner⟩, -⟩ := (mem_backEdges mirrored).mp isBack
  exact ⟨source, reached, kind, (Block.mem_innerEdges.mp inner).2.2⟩

omit mirrored in
/-- The header of a loop can be reached, and is not the entry. -/
theorem header_reached (linked : g.Linked) (isHeader : header ∈ (Flow.ofGraph g).headers) :
    g.Reached header ∧ header ≠ start := by
  obtain ⟨source, reached, leads⟩ := header_entered linked.toMirrored isHeader
  exact ⟨reached.step leads, fun same => linked.unentered source (same ▸ leads)⟩

/-- The blocks of a loop can be reached. -/
theorem naturalLoop_reached (isHeader : header ∈ (Flow.ofGraph g).headers) {id : BlockId}
    (member : id ∈ (Flow.ofGraph g).naturalLoop g header) : g.Reached id := by
  -- The header is entered by a block within reach.
  rcases naturalLoop_cases mirrored member with rfl | ⟨reached, -, -⟩
  · obtain ⟨source, reached, leads⟩ := header_entered mirrored isHeader
    exact reached.step leads
  · exact reached

/-- No path around the header leads into its loop. -/
theorem naturalLoop_dominated {id : BlockId} (member : id ∈ (Flow.ofGraph g).naturalLoop g header) :
    ¬ g.ReachedAvoiding header id := by
  -- No path around the header ends at the header.
  rcases naturalLoop_cases mirrored member with rfl | ⟨-, -, dominated⟩
  · exact fun around => around.ne rfl
  · exact dominated

end NaturalLoop

/-- Ripe headers are headers. -/
theorem mem_ripeHeaders {header : BlockId} {flow : Flow} (ripe : header ∈ flow.ripeHeaders g) :
    header ∈ flow.headers := by
  -- The ripe headers are some of the headers, or all of them if there would be none.
  simp only [Flow.ripeHeaders] at ripe
  split at ripe
  · exact IdSet.mem_toList.mp ripe
  · exact IdSet.mem_toList.mp (List.mem_filter.mp ripe).1

/-- There is a ripe header as soon as there is a header. -/
theorem ripeHeaders_ne_nil {header : BlockId} {flow : Flow} (isHeader : header ∈ flow.headers) :
    flow.ripeHeaders g ≠ [] := by
  -- If no header passes the test, all of them are taken.
  simp only [Flow.ripeHeaders]
  split
  · exact List.ne_nil_of_mem (IdSet.mem_toList.mpr isHeader)
  · next some => exact fun none => some (by rw [none]; rfl)

end Unjump.Graph
