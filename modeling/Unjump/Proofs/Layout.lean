import Unjump.Proofs.ControlFlow
import Unjump.Proofs.Nesting

/-!
How the graph of a method lies over its code.

The blocks of code come first and in the order of the code, which they cover without a gap. They
start wherever control can arrive by a jump and wherever protection begins or ends, and only blocks
that can be reached have edges.
-/

namespace Unjump

section Heads

/-- A run starts at every instruction that is a leader. -/
theorem Run.exists_head_of_leader {leaders : List Offset} {code : List Instruction}
    {i : Instruction} (listed : i ∈ code) (leads : i.offset ∈ leaders) :
    ∃ run ∈ Run.split leaders code, run.head = i := by
  -- By induction on the code, the runs of which are made from its end.
  induction code with
  | nil => cases listed
  | cons head rest ih =>
    rw [split]
    split
    · next none =>
      -- There is no code after the first instruction.
      have nothing : rest = [] := by
        rw [← Run.flatMap_code_split leaders rest, none]
        rfl
      rw [nothing, List.mem_singleton] at listed
      exact ⟨_, List.mem_singleton_self _, listed.symm⟩
    · next first others some =>
      rcases List.mem_cons.mp listed with rfl | later
      · split <;> exact ⟨_, List.mem_cons_self, rfl⟩
      · obtain ⟨run, isRun, isHead⟩ := ih later
        rw [some] at isRun
        split
        · exact ⟨run, List.mem_cons_of_mem _ isRun, isHead⟩
        · next noLeader =>
          -- Only the first of the later runs can lose its head, and that is no leader.
          rcases List.mem_cons.mp isRun with rfl | isOther
          · exact absurd (isHead ▸ leads) noLeader
          · exact ⟨run, List.mem_cons_of_mem _ isOther, isHead⟩

/-- A run starts at every offset of an instruction that is a leader. -/
theorem Method.exists_run_of_leader {m : Method} {offset : Offset} (isOffset : offset ∈ m.offsets)
    (leads : offset ∈ m.leaders) : ∃ run ∈ m.runs, run.head.offset = offset := by
  -- The instruction at the offset is the head of a run.
  obtain ⟨i, listed, rfl⟩ := List.mem_map.mp isOffset
  obtain ⟨run, isRun, isHead⟩ := Run.exists_head_of_leader listed leads
  exact ⟨run, isRun, congrArg Instruction.offset isHead⟩

/-- The leaders that a method asks for: where its jumps lead, and the bounds and handlers
of its protected ranges. -/
theorem Method.mem_leaders_of_target {m : Method} {i : Instruction} {target : Offset}
    (listed : i ∈ m.code) (jumps : target ∈ i.jumpTargets) : target ∈ m.leaders := by
  -- Where a jump leads is one of the leaders.
  have isTarget : target ∈ m.code.flatMap Instruction.jumpTargets :=
    List.mem_flatMap.mpr ⟨i, listed, jumps⟩
  simp [Method.leaders, isTarget]

/-- The bounds and handlers of a protected range are leaders, a bound at the end
of the code apart. -/
theorem Method.mem_leaders_of_row {m : Method} {row : ExceptionRow} (listed : row ∈ m.exceptions) :
    row.start ∈ m.leaders ∧ row.handler ∈ m.leaders ∧
      (row.finish < m.codeLength → row.finish ∈ m.leaders) := by
  -- Starts, handlers and the ends inside the code are listed one after the other.
  have starts := List.mem_map_of_mem (f := (·.start)) listed
  have handlers := List.mem_map_of_mem (f := (·.handler)) listed
  have finishes := List.mem_map_of_mem (f := (·.finish)) listed
  refine ⟨?_, ?_, fun inside => ?_⟩
  · simp only [Method.leaders, List.mem_append]
    exact .inl (.inl (.inr starts))
  · simp only [Method.leaders, List.mem_append]
    exact .inl (.inr handlers)
  · simp only [Method.leaders, List.mem_append]
    exact .inr (List.mem_filter.mpr ⟨finishes, decide_eq_true inside⟩)

end Heads

namespace Graph

variable {g h : Graph} {m : Method}

/-- Whether blocks cover the code between two offsets: each of them starts where the one before it
ends, and none of them is empty. -/
def Tile (g : Graph) : List BlockId → Offset → Offset → Prop
  | [], first, last => first = last
  | id :: rest, first, last =>
    (g.block id).start = first ∧ first < (g.block id).finish ∧ g.Tile rest (g.block id).finish last

/-- Whether a block of code starts at an offset. -/
def StartsAt (g : Graph) (offset : Offset) : Prop :=
  ∃ id, (g.block id).isCode = true ∧ (g.block id).start = offset

/-- A graph that lies over the code of a method, with a number of blocks that are code. -/
structure LaidOut (m : Method) (g : Graph) (count : Nat) : Prop where
  consistent : g.violation? = none
  numbered : ∀ id, (g.block id).isCode = true ↔ 1 ≤ id ∧ id ≤ count
  tiled : ∃ first, m.code.head? = some first ∧
    g.Tile (List.range' 1 count) first.offset m.codeLength
  jumps : ∀ i ∈ m.code, ∀ target ∈ i.jumpTargets, g.StartsAt target
  ranges : ∀ row ∈ m.exceptions,
    g.StartsAt row.start ∧ g.StartsAt row.handler ∧
    (row.finish < m.codeLength → g.StartsAt row.finish)
  live : ∀ id kind target, (g.block id).edge? kind = some target → g.Reached id
  preds : ∀ id, ∀ pred ∈ (g.block id).preds, g.Reached pred

/-- A graph whose blocks of code are those of the runs of a method, numbered in their order. -/
structure Covered (m : Method) (g : Graph) : Prop where
  numbered : ∀ id, (g.bare id).isCode = true ↔ 1 ≤ id ∧ id ≤ m.runs.length
  spans : ∀ k run, m.runs[k]? = some run → (g.bare (k + 1)).start = run.head.offset ∧
    (g.bare (k + 1)).finish = (m.runs[k + 1]?.map (·.head.offset)).getD m.codeLength

/-- The blocks of runs are numbered in the order of the code. -/
theorem covered_ofBlocks {blocks : List Block} (length : blocks.length = m.runs.length)
    (becomes : ∀ k run b, m.runs[k]? = some run → blocks[k]? = some b →
      Run.Becomes m m.runs run (m.runs[k + 1]?.map (·.head.offset)) b) :
    (ofBlocks blocks).Covered m := by
  -- The block of a run is one past its position, and all the blocks but the entry
  -- are those of runs.
  constructor
  · intro id
    constructor
    · intro isCode
      obtain ⟨k, run, _, rfl, isRun, -⟩ := exists_run_of_isCode length becomes isCode
      exact ⟨Nat.succ_pos k, (List.getElem?_eq_some_iff.mp isRun).1⟩
    · rintro ⟨positive, inside⟩
      obtain ⟨k, rfl⟩ := Nat.exists_eq_succ_of_ne_zero (Nat.ne_of_gt positive)
      have isRun : m.runs[k]? = some m.runs[k] := List.getElem?_eq_getElem inside
      exact (isCode_of_headAt length becomes ⟨k, _, rfl, isRun, rfl⟩).1
  · intro k run isRun
    have bound : k < blocks.length := length ▸ (List.getElem?_eq_some_iff.mp isRun).1
    have becomes := becomes k run _ isRun (List.getElem?_eq_getElem bound)
    rw [bare_ofBlocks_succ, List.getElem?_eq_getElem bound]
    exact ⟨becomes.start, becomes.finish⟩

/-- Entering a protected range leaves the code where it is. -/
theorem Covered.protect (covered : g.Covered m) {first : BlockId} {entry : Block}
    {accept : BlockId → Bool} (isTry : entry.type = .raw .tryBlock)
    (protects : Protects g first entry accept h) : h.Covered m := by
  -- The new entry is no code, and nothing but edges changes elsewhere.
  constructor
  · intro id
    rw [protects.isCode_iff isTry]
    exact covered.numbered id
  · intro k run isRun
    have isCode :=
      (covered.numbered (k + 1)).mpr ⟨Nat.succ_pos k, (List.getElem?_eq_some_iff.mp isRun).1⟩
    obtain ⟨start, finish⟩ := protects.span_eq isCode
    rw [start, finish]
    exact covered.spans k run isRun

/-- Unreachable code stays where it is when it loses its edges. -/
theorem Covered.prune (covered : g.Covered m) : g.prune.Covered m := by
  -- Pruning takes away edges, and neither code nor offsets.
  have kept : ∀ id, (g.prune.bare id).isCode = (g.bare id).isCode ∧
      (g.prune.bare id).start = (g.bare id).start ∧
      (g.prune.bare id).finish = (g.bare id).finish := by
    intro id
    rw [bare_prune]
    split <;> exact ⟨rfl, rfl, rfl⟩
  constructor
  · intro id
    rw [(kept id).1]
    exact covered.numbered id
  · intro k run isRun
    rw [(kept (k + 1)).2.1, (kept (k + 1)).2.2]
    exact covered.spans k run isRun

/-- The blocks from one run on cover the rest of the code. -/
theorem Covered.tile (covered : g.Covered m) (laid : m.WellLaid) {k count : Nat}
    (total : k + count = m.runs.length) :
    g.Tile (List.range' (k + 1) count) ((m.runs[k]?.map (·.head.offset)).getD m.codeLength)
      m.codeLength := by
  -- By induction on the number of runs that are left.
  induction count generalizing k with
  | zero =>
    have none : m.runs[k]? = none := List.getElem?_eq_none (Nat.le_of_eq total.symm)
    rw [none]
    rfl
  | succ count ih =>
    have bound : k < m.runs.length := by omega
    have isRun := List.getElem?_eq_getElem bound
    obtain ⟨isStart, isFinish⟩ := covered.spans k _ isRun
    have later := ih (k := k + 1) (by omega)
    rw [← isFinish] at later
    rw [List.range'_succ, isRun]
    refine ⟨isStart, ?_, later⟩
    -- A run ends where the next one starts, or with the code.
    rw [show (g.block (k + 1)).finish = _ from isFinish]
    by_cases more : k + 1 < m.runs.length
    · rw [List.getElem?_eq_getElem more]
      have increasing := List.pairwise_iff_getElem.mp (Method.pairwise_heads laid.ordered) k (k + 1)
        (by simpa using bound) (by simpa using more) (Nat.lt_succ_self k)
      simpa using increasing
    · rw [List.getElem?_eq_none (Nat.not_lt.mp more)]
      refine laid.inside _ ?_
      rw [← Run.flatMap_code_split m.leaders m.code]
      exact List.mem_flatMap.mpr ⟨_, List.getElem_mem bound, List.mem_cons_self⟩

/-- A block of code starts at every leader. -/
theorem Covered.startsAt (covered : g.Covered m) {offset : Offset} (isOffset : offset ∈ m.offsets)
    (leads : offset ∈ m.leaders) : g.StartsAt offset := by
  -- The block of the run that starts there is one past its position.
  obtain ⟨run, isRun, isHead⟩ := Method.exists_run_of_leader isOffset leads
  obtain ⟨k, bound, rfl⟩ := List.mem_iff_getElem.mp isRun
  refine ⟨k + 1, (covered.numbered (k + 1)).mpr ⟨Nat.succ_pos k, bound⟩, ?_⟩
  exact (covered.spans k _ (List.getElem?_eq_getElem bound)).1.trans isHead

section Build

variable {pool : Option Pool} {options : BuildOptions}

/-- The graph of a method covers its code. -/
theorem covered_of_build (made : build m pool options = .ok g) : g.Covered m := by
  -- The blocks of the runs cover the code, and neither ranges nor pruning move them.
  obtain ⟨faultless, blocks, h, isBlocks, isProtected, rfl⟩ := build_cases made
  obtain ⟨length, regular⟩ := regular_of_toBlocks faultless isBlocks
  have becomes := Method.becomes_toBlocks (Method.fault?_eq_none_iff.mp faultless) isBlocks
  obtain ⟨-, covered⟩ :=
    foldlM_protect_induction (motive := fun mid => mid.Covered m) regular.toLinked
      (fun offset id => blockAt?_lt_size length) (covered_ofBlocks length becomes)
      (fun _ covered _ protects => covered.protect rfl protects) isProtected
  exact covered.prune

/-- Only blocks that can be reached have edges in the graph of a method. -/
theorem reached_of_edge_of_build (made : build m pool options = .ok g) {id : BlockId}
    {kind : EdgeKind} {target : Target} (edge : (g.bare id).edge? kind = some target) :
    g.Reached id := by
  -- Pruning takes the edges of all unreachable blocks.
  obtain ⟨faultless, blocks, h, isBlocks, isProtected, rfl⟩ := build_cases made
  obtain ⟨length, regular⟩ := regular_of_toBlocks faultless isBlocks
  have linked :=
    (regular.foldlM_protect (fun offset id => blockAt?_lt_size length) isProtected).toLinked
  have isReachable := (edge?_prune_eq_some_iff.mp edge).1
  exact ((mem_reachable linked.toMirrored linked.nonempty).mp isReachable).prune linked

/-- The graph of a method is consistent, its blocks of code cover the code in order and start
wherever control or protection asks for it, and its unreachable blocks have no edges. -/
theorem laidOut_of_build (made : build m pool options = .ok g) : ∃ count, LaidOut m g count := by
  have sound := sound_of_build made
  have covered := covered_of_build made
  have laid := Method.fault?_eq_none_iff.mp (build_cases made).1
  refine ⟨m.runs.length, sound.violation?_eq_none, covered.numbered, ?_, ?_, ?_, ?_, ?_⟩
  · -- The blocks from the first run on cover the code.
    obtain ⟨first, isFirst⟩ := Option.isSome_iff_exists.mp (List.isSome_head?.mpr laid.nonempty)
    have starts : m.runs[0]?.map Run.head = some first := by
      rw [← List.head?_eq_getElem?, ← Run.head?_flatMap_code, Method.runs,
        Run.flatMap_code_split, isFirst]
    have tile := covered.tile laid (k := 0) (Nat.zero_add _)
    rw [show m.runs[0]?.map (·.head.offset) = some first.offset by
      simpa using congrArg (Option.map Instruction.offset) starts] at tile
    exact ⟨first, isFirst, tile⟩
  · -- Jumps lead to leaders that are instructions.
    intro i listed target jumps
    exact covered.startsAt (laid.targets i listed target jumps)
      (Method.mem_leaders_of_target listed jumps)
  · -- So do the rows of the table, whose ranges may end with the code.
    intro row listed
    obtain ⟨-, isStart, isHandler, isEnd⟩ := laid.rows row listed
    obtain ⟨startLeads, handlerLeads, finishLeads⟩ := Method.mem_leaders_of_row listed
    refine ⟨covered.startsAt isStart startLeads, covered.startsAt isHandler handlerLeads,
      fun inside => ?_⟩
    exact covered.startsAt (isEnd.resolve_right (UInt32.ne_of_lt inside)) (finishLeads inside)
  · exact fun id kind target edge => reached_of_edge_of_build made edge
  · -- A predecessor has an edge.
    intro id pred isPred
    obtain ⟨kind, edge⟩ := sound.mirror.mp isPred
    exact reached_of_edge_of_build made edge

/-- A method that returns before it comes to a protected range, which runs back into itself. -/
def abandonedRange : Method where
  code := [⟨0, ⟨177⟩, .absent, none⟩, ⟨1, ⟨132⟩, .increment 0 1, none⟩, ⟨4, ⟨167⟩, .branch 1, none⟩,
    ⟨7, ⟨177⟩, .absent, none⟩]
  codeLength := 8
  exceptions := [⟨1, 4, 7, none⟩]

/-- The range that is never reached has its blocks, but no edges. -/
theorem abandonedRange_laidOut :
    ∃ g, build abandonedRange none {} = .ok g ∧ ∃ count, LaidOut abandonedRange g count := by
  -- The method is accepted, which is what the theorem asks for.
  have accepted : (build abandonedRange none {}).isOk = true := by decide +kernel
  cases made : build abandonedRange none {} with
  | error fault =>
    rw [made] at accepted
    cases accepted
  | ok g => exact ⟨g, rfl, laidOut_of_build made⟩

end Build

end Graph

end Unjump
