import Unjump.Proofs.Acceptance

/-!
The ways into protected code.

The entry of a protected range takes over the edges to the first block of the range that come from
elsewhere. Entries are put in one after the other, in the order of the ranges' starts, and each
takes over what is there at its time. So the first block of a range is entered through entries of
ranges with the same start, from code inside the range, and by one way past them: from the entry of
a range that starts later and has its handler there.
-/

namespace Unjump

namespace ProtectedRange

variable {options : BuildOptions} {range other : ProtectedRange}

/-- A range that comes before another one does not start later. -/
theorem start_le_of_before (isBefore : before range other = true) : range.start ≤ other.start := by
  -- Ranges are ordered by their starts first.
  simp only [before, Bool.or_eq_true, Bool.and_eq_true, beq_iff_eq, decide_eq_true_eq] at isBefore
  rcases isBefore with less | ⟨same, -⟩
  · exact UInt32.le_of_lt less
  · exact UInt32.le_of_eq same

/-- The protected ranges of a table stand in the order of their starts. -/
theorem pairwise_start_ofTable (table : List ExceptionRow) (options : BuildOptions) :
    (ofTable table options).Pairwise fun a b => a.start ≤ b.start :=
  (List.pairwise_mergeSort before_trans before_total _).imp start_le_of_before

/-- No range is its own handler, since such rows protect nothing. -/
theorem handler_ne_start {m : Method} (laid : m.WellLaid)
    (listed : range ∈ ofTable m.exceptions options) {guard : Guard}
    (isGuard : guard ∈ range.guards) : guard.handler ≠ range.start := by
  intro same
  rw [guards_eq_of_mem_ofTable listed] at isGuard
  obtain ⟨row, isRow, isHandler⟩ := exists_row_of_mem_guardsOf isGuard
  rw [rows, List.mem_filter, List.mem_filter, isOf_iff] at isRow
  obtain ⟨⟨inTable, apart⟩, isOf⟩ := isRow
  -- The row starts at its own handler, and its range is not empty.
  have starts : row.start = row.handler :=
    (Prod.ext_iff.mp isOf).1.symm.trans (same.symm.trans isHandler.symm)
  have covers : row.coversHandler = true := by
    have nonempty := (laid.rows row inTable).1
    rw [starts] at nonempty
    simp [ExceptionRow.coversHandler, starts, nonempty]
  simp [covers] at apart

end ProtectedRange

namespace Graph

variable {g h : Graph} {m : Method}

/-- The ways into a protected range by an edge of a block to the first block of the range. -/
inductive WayIn (ranges : List ProtectedRange) (range : ProtectedRange) (b : Block)
    (kind : EdgeKind) : Prop
  /-- Through the entry of the range, or of another one that starts there. -/
  | entry (isTry : b.type = .raw .tryBlock) (start : b.start = range.start) (isNext : kind = .next)
  /-- From code inside the range. -/
  | inside (isCode : b.isCode = true) (after : range.start ≤ b.start)
    (before : b.start < range.finish)
  /-- To a handler of a range that starts later. -/
  | handler {later : ProtectedRange} {guard : Guard} (isTry : b.type = .raw .tryBlock)
    (listed : later ∈ ranges) (start : b.start = later.start) (after : range.start < later.start)
    (isGuard : guard ∈ later.guards) (isHandler : guard.handler = range.start)
    (leads : kind.isHandler = true)

/-- A way into a range depends on the type and the start of a block alone, and stays one
for more ranges. -/
theorem WayIn.congr {ranges more : List ProtectedRange} {range : ProtectedRange} {b c : Block}
    {kind : EdgeKind} (way : WayIn ranges range b kind) (grows : ranges ⊆ more)
    (sameType : c.type = b.type) (sameStart : c.start = b.start) : WayIn more range c kind := by
  -- The cases are about the type and the start of the block only.
  cases way with
  | entry isTry start isNext => exact .entry (sameType.trans isTry) (sameStart.trans start) isNext
  | inside isCode after before =>
    refine .inside ?_ (sameStart ▸ after) (sameStart ▸ before)
    rw [Block.isCode, sameType]
    exact isCode
  | handler isTry listed start after isGuard isHandler leads =>
    exact .handler (sameType.trans isTry) (grows listed) (sameStart.trans start) after isGuard
      isHandler leads

/-- Code that a range holds is a way into it. -/
theorem wayIn_of_holds {ranges : List ProtectedRange} {range : ProtectedRange} {b : Block}
    {kind : EdgeKind} (holds : range.holds b = true) : WayIn ranges range b kind := by
  -- A range holds raw blocks other than the entries of ranges.
  unfold ProtectedRange.holds at holds
  split at holds
  · cases holds
  · next type notTry isRaw =>
    simp only [Bool.and_eq_true, decide_eq_true_eq] at holds
    refine .inside ?_ holds.1 holds.2
    rw [Block.isCode, isRaw]
    cases type <;> first | rfl | exact absurd rfl notTry
  · cases holds

/-- Blocks that start at different offsets are different. -/
theorem blockAt?_inj {runs : List Run} {a b : Offset} {id : BlockId}
    (atA : blockAt? runs a = some id) (atB : blockAt? runs b = some id) : a = b := by
  -- A block is that of one run, which starts at one offset.
  obtain ⟨k, run, same, isRun, isHead⟩ := headAt_of_blockAt? atA
  obtain ⟨l, other, sameB, isOther, isHeadB⟩ := headAt_of_blockAt? atB
  cases same.symm.trans sameB
  cases isRun.symm.trans isOther
  exact isHead.symm.trans isHeadB

/-- The block of code at an offset is found there. -/
theorem Covered.blockAt?_start (covered : g.Covered m) (laid : m.WellLaid) {id : BlockId}
    (isCode : (g.bare id).isCode = true) : blockAt? m.runs (g.bare id).start = some id := by
  -- The block is that of a run, and no earlier run starts there.
  obtain ⟨positive, inside⟩ := (covered.numbered id).mp isCode
  obtain ⟨k, rfl⟩ : ∃ k, id = k + 1 := ⟨id - 1, (Nat.sub_add_cancel positive).symm⟩
  replace inside : k < m.runs.length := inside
  rw [(covered.spans k _ (List.getElem?_eq_getElem inside)).1, blockAt?, Option.map_eq_some_iff]
  refine ⟨k, List.findIdx?_eq_some_iff_getElem.mpr
    ⟨inside, beq_self_eq_true _, fun j before same => ?_⟩, rfl⟩
  -- Earlier runs start at smaller offsets.
  have increasing := List.pairwise_iff_getElem.mp (Method.pairwise_heads laid.ordered) j k
    (by simpa using Nat.lt_trans before inside) (by simpa using inside) before
  simp only [List.getElem_map] at increasing
  exact UInt32.ne_of_lt increasing (beq_iff_eq.mp same)

section Protect

variable {first : BlockId} {entry : Block} {accept : BlockId → Bool} {pred target : BlockId}
  {kind : EdgeKind}

/-- An edge of an older block that does not lead to the new entry was there before,
and was not to be taken over. -/
theorem Protects.edge_before (protects : Protects g first entry accept h) (old : pred ≠ g.size)
    (past : target ≠ g.size) (edge : (h.bare pred).edge? kind = some (.block target)) :
    (g.bare pred).edge? kind = some (.block target) ∧ (target = first → accept pred = false) := by
  -- Only the edges of blocks that the new entry accepts are moved.
  rw [protects.others pred old] at edge
  split at edge
  · rw [Block.edge?_replaceTarget, Option.map_eq_some_iff] at edge
    obtain ⟨before, edge, renamed⟩ := edge
    -- What led to the start of the range and was taken over leads to the new entry now.
    by_cases same : before = .block first
    · rw [same, Target.renamed_self] at renamed
      cases renamed
      exact absurd rfl past
    · rw [Target.renamed_ne same] at renamed
      subst renamed
      exact ⟨edge, fun isFirst => absurd (congrArg Target.block isFirst) same⟩
  · next refused => exact ⟨edge, fun _ => Bool.eq_false_iff.mpr refused⟩

/-- An edge of an older block that leads elsewhere stays. -/
theorem Protects.edge_after (protects : Protects g first entry accept h)
    (elsewhere : target ≠ first) (edge : (g.bare pred).edge? kind = some (.block target)) :
    (h.bare pred).edge? kind = some (.block target) := by
  -- Only edges to the first block of the range are moved to its entry.
  rw [protects.others pred (Nat.ne_of_lt (lt_size_of_edge edge))]
  split
  · rw [Block.edge?_replaceTarget, edge, Option.map_some, Target.renamed_ne fun same =>
      elsewhere (Target.block.inj same)]
  · exact edge

/-- Older blocks keep their types and starts. -/
theorem Protects.type_start (protects : Protects g first entry accept h) (old : pred ≠ g.size) :
    (h.bare pred).type = (g.bare pred).type ∧ (h.bare pred).start = (g.bare pred).start := by
  -- Their edges are all that can change.
  rw [protects.others pred old]
  split <;> exact ⟨rfl, rfl⟩

end Protect

/-- A graph of a method after some of its protected ranges have got their entries,
numbered behind the code. -/
structure Entered (m : Method) (done : List ProtectedRange) (g : Graph) : Prop where
  covered : g.Covered m
  size : g.size = m.runs.length + 1 + done.length
  ways : ∀ range ∈ done, ∀ first pred kind, blockAt? m.runs range.start = some first →
    (g.bare pred).edge? kind = some (.block first) → WayIn done range (g.bare pred) kind
  back : ∀ k range i guard first, done[k]? = some range → range.guards[i]? = some guard →
    guard.handler < range.start → blockAt? m.runs guard.handler = some first →
      (g.bare (m.runs.length + 1 + k)).edge? (.handler i) = some (.block first)

section Entered

variable {done : List ProtectedRange} {range : ProtectedRange} {first : BlockId}
  {handlers : List Handler} {pool : Option Pool}

/-- The entry of a further range is a way into its own range, and into those that start
at its handlers. -/
theorem wayIn_rangeEntry (laterOrSame : ∀ earlier ∈ done, earlier.start ≤ range.start)
    (foreign : ∀ guard ∈ range.guards, guard.handler ≠ range.start)
    (isFirst : blockAt? m.runs range.start = some first)
    (isHandlers : range.handlers pool (blockAt? m.runs) = .ok handlers) {other : ProtectedRange}
    (listed : other ∈ done ++ [range]) {target : BlockId}
    (isTarget : blockAt? m.runs other.start = some target) {kind : EdgeKind}
    (edge : (rangeEntry range first handlers).edge? kind = some (.block target)) :
    WayIn (done ++ [range]) other (rangeEntry range first handlers) kind := by
  -- The entry goes to its first block and to its handlers.
  rcases edge?_rangeEntry.mp edge with ⟨isNext, same⟩ | ⟨i, rfl, leads⟩
  · cases same
    exact .entry rfl (blockAt?_inj isFirst isTarget) isNext
  · obtain ⟨guard, id, isGuard, isBlock, same⟩ :=
      (ProtectedRange.target_handlers isHandlers).mp leads
    cases same
    have isHandler := blockAt?_inj isBlock isTarget
    have guards := List.mem_of_getElem? isGuard
    -- No range that starts where this one does can be entered by a handler of it.
    have apart : other.start ≠ range.start :=
      fun same => foreign guard guards (isHandler.trans same)
    have before : other.start ≤ range.start := by
      rcases List.mem_append.mp listed with earlier | isRange
      · exact laterOrSame other earlier
      · exact absurd (congrArg ProtectedRange.start (List.mem_singleton.mp isRange)) apart
    exact .handler rfl (List.mem_append_right _ List.mem_cons_self) rfl
      (UInt32.lt_of_le_of_ne before apart) guards isHandler rfl

/-- A further range that starts no earlier than the others gets its entry. -/
theorem Entered.protect (entered : Entered m done g)
    (laterOrSame : ∀ earlier ∈ done, earlier.start ≤ range.start)
    (foreign : ∀ guard ∈ range.guards, guard.handler ≠ range.start)
    (isFirst : blockAt? m.runs range.start = some first)
    (isHandlers : range.handlers pool (blockAt? m.runs) = .ok handlers)
    (protects : Protects g first (rangeEntry range first handlers)
      (fun i => !range.holds (g.bare i)) h) :
    Entered m (done ++ [range]) h where
  covered := entered.covered.protect rfl protects
  size := by
    rw [protects.size, entered.size, List.length_append]
    rfl
  ways := by
    intro other listed target pred kind isTarget edge
    -- The new entry is a way in of its own kind; every other way was one before or is left alone.
    by_cases isNew : pred = g.size
    · rw [isNew, protects.entry] at edge ⊢
      exact wayIn_rangeEntry laterOrSame foreign isFirst isHandlers listed isTarget edge
    · -- Blocks of code come before all entries.
      have past : target < g.size := by
        rw [entered.size, Nat.add_assoc]
        exact Nat.lt_of_le_of_lt (blockAt?_bounds isTarget).2
          (Nat.lt_add_of_pos_right (by simp [Nat.add_comm 1]))
      obtain ⟨edge, takenOver⟩ := protects.edge_before isNew (Nat.ne_of_lt past) edge
      obtain ⟨sameType, sameStart⟩ := protects.type_start isNew
      rcases List.mem_append.mp listed with earlier | isRange
      · have before := entered.ways other earlier target pred kind isTarget edge
        exact before.congr (List.subset_append_left _ _) sameType sameStart
      · -- An edge to the first block of the new range stays only if it comes from inside.
        cases List.mem_singleton.mp isRange
        have refused := takenOver (Option.some.inj (isTarget.symm.trans isFirst))
        have holds : range.holds (g.bare pred) = true := by simpa using refused
        exact (wayIn_of_holds holds).congr (fun _ isDone => isDone) sameType sameStart
  back := by
    intro k other i guard target isOther isGuard isBefore isTarget
    -- Handlers of earlier ranges keep their targets, and those of the new one are made
    -- to lead there.
    rcases Nat.lt_or_ge k done.length with old | new
    · rw [List.getElem?_append_left old] at isOther
      refine protects.edge_after ?_
        (entered.back k other i guard target isOther isGuard isBefore isTarget)
      -- The new range starts no earlier than the other one, which starts after its handler.
      rintro rfl
      have same := blockAt?_inj isTarget isFirst
      have later := laterOrSame other (List.mem_of_getElem? isOther)
      exact UInt32.not_le.mpr isBefore (same ▸ later)
    · rw [List.getElem?_append_right new, List.getElem?_singleton] at isOther
      split at isOther
      · next isLast =>
        cases isOther
        have isNew : m.runs.length + 1 + k = g.size := by
          have := entered.size
          omega
        rw [isNew, protects.entry]
        have leads :=
          (ProtectedRange.target_handlers isHandlers).mpr ⟨guard, target, isGuard, isTarget, rfl⟩
        exact edge?_rangeEntry.mpr (.inr ⟨i, rfl, leads⟩)
      · cases isOther

/-- The graph of the runs has no entries yet. -/
theorem Covered.entered_nil {blocks : List Block} (covered : (ofBlocks blocks).Covered m)
    (length : blocks.length = m.runs.length) : Entered m [] (ofBlocks blocks) where
  covered := covered
  size := by simp [ofBlocks, Graph.size, relink, length]
  ways := fun _ impossible => (nomatch impossible)
  back := fun _ _ _ _ _ impossible => (nomatch impossible)

end Entered

section Build

variable {pool : Option Pool} {options : BuildOptions}

/-- The graph of a method before its unreachable blocks lose their edges has an entry
for every protected range. -/
theorem entered_of_build (made : build m pool options = .ok g) : m.WellLaid ∧
    ∃ whole, whole.Linked ∧ Entered m (ProtectedRange.ofTable m.exceptions options) whole ∧
      g = whole.prune := by
  -- Ranges are entered in the order in which they start, so that a later one finds
  -- the earlier ones in place.
  obtain ⟨faultless, blocks, whole, isBlocks, isProtected, rfl⟩ := build_cases made
  have laid := Method.fault?_eq_none_iff.mp faultless
  obtain ⟨length, regular⟩ := regular_of_toBlocks faultless isBlocks
  have covered := covered_ofBlocks length (Method.becomes_toBlocks laid isBlocks)
  obtain ⟨linked, entered⟩ := foldlM_protect_recOn (motive := Entered m) regular.toLinked
    (fun offset id => blockAt?_lt_size length) (covered.entered_nil length)
    (fun {done rest mid next range first handlers} parts _ entered isFirst isHandlers protects => by
      have sorted := ProtectedRange.pairwise_start_ofTable m.exceptions options
      have listed : range ∈ ProtectedRange.ofTable m.exceptions options := by
        rw [parts]
        exact List.mem_append_right _ List.mem_cons_self
      rw [parts, List.pairwise_append] at sorted
      exact entered.protect (fun earlier isEarlier =>
        sorted.2.2 earlier isEarlier range List.mem_cons_self)
        (fun guard => ProtectedRange.handler_ne_start laid listed) isFirst isHandlers protects)
        isProtected
  exact ⟨laid, whole, linked, entered, rfl⟩

/-- The first block of a protected range is entered through entries of ranges that start there, from
code inside the range, or from the entry of a range that starts later and has a handler there. Such
an entry does pass by the others: if it can be reached, its handler leads straight
to the first block. -/
theorem wayIn_of_build (made : build m pool options = .ok g) {range : ProtectedRange}
    (listed : range ∈ ProtectedRange.ofTable m.exceptions options) {first : BlockId}
    (isCode : (g.block first).isCode = true) (starts : (g.block first).start = range.start) :
    (∀ pred ∈ (g.block first).preds, (∃ kind, (g.block pred).edge? kind = some (.block first)) ∧
      ∀ kind, (g.block pred).edge? kind = some (.block first) →
        WayIn (ProtectedRange.ofTable m.exceptions options) range (g.block pred) kind) ∧
    ∀ k later i guard, (ProtectedRange.ofTable m.exceptions options)[k]? = some later →
      later.guards[i]? = some guard →
      guard.handler = range.start → range.start < later.start → g.Reached (m.runs.length + 1 + k) →
        (g.block (m.runs.length + 1 + k)).edge? (.handler i) = some (.block first) := by
  -- The range was entered before unreachable blocks lost their edges.
  have sound := sound_of_build made
  have isFirst := (covered_of_build made).blockAt?_start (entered_of_build made).1 isCode
  obtain ⟨laid, whole, linked, entered, rfl⟩ := entered_of_build made
  rw [show (whole.prune.bare first).start = range.start from starts] at isFirst
  constructor
  · -- An edge of the pruned graph was there before, and is of one of the three kinds.
    intro pred isPred
    refine ⟨sound.mirror.mp isPred, fun kind edge => ?_⟩
    -- Only edges of unreachable blocks are lost.
    obtain ⟨isReachable, edge⟩ :=
      edge?_prune_eq_some_iff.mp (edge : (whole.prune.bare pred).edge? kind = _)
    have same : whole.prune.bare pred = whole.bare pred :=
      (bare_prune whole pred).trans (if_pos isReachable)
    have sameType : (whole.prune.bare pred).type = (whole.bare pred).type :=
      congrArg Block.type same
    have sameStart : (whole.prune.bare pred).start = (whole.bare pred).start :=
      congrArg Block.start same
    exact (entered.ways range listed first pred kind isFirst edge).congr (fun _ isRange => isRange)
      sameType sameStart
  · -- The entry can be reached, so it keeps its handler.
    intro k later i guard isLater isGuard isHandler after reached
    have same := linked.bare_prune_of_reached (reached_prune reached)
    have edge :=
      entered.back k later i guard first isLater isGuard (isHandler ▸ after) (isHandler ▸ isFirst)
    exact (congrArg (Block.edge? · (.handler i)) same).trans edge

/-- A method with two protected instructions, of which the second has its handler at the first: `0:
iinc 0; 1: goto 2; 2: iinc 1; 3: return`. -/
def handledBehind : Method where
  code := [⟨0, ⟨132⟩, .increment 0 1, none⟩, ⟨1, ⟨167⟩, .branch 2, none⟩,
    ⟨2, ⟨132⟩, .increment 1 1, none⟩, ⟨3, ⟨177⟩, .absent, none⟩]
  codeLength := 4
  exceptions := [⟨0, 1, 3, none⟩, ⟨2, 3, 0, none⟩]

/-- The entry of the second range has number 6, and leads
to the first instruction beside the entry of its range. -/
private theorem handledBehind_built :
    ∃ g, build handledBehind none {} = .ok g ∧ (g.block 1).isCode = true ∧
    (g.block 1).start = 0 ∧ 6 ∈ (g.block 1).preds ∧ (g.block 6).type = .raw .tryBlock ∧
      (g.block 6).start = 2 ∧ (g.block 6).edge? (.handler 0) = some (.block 1) := by
  -- The rows stand in the order of their ranges, so sorting leaves them as they are.
  have ranges : ProtectedRange.ofTable handledBehind.exceptions {} =
      [⟨0, 1, [⟨3, []⟩]⟩, ⟨2, 3, [⟨0, []⟩]⟩] :=
    List.mergeSort_of_pairwise (by decide)
  have evaluated : (build handledBehind none {}).toOption.any
      (fun g => decide ((g.block 1).isCode = true ∧
      (g.block 1).start = 0 ∧ 6 ∈ (g.block 1).preds ∧ (g.block 6).type = .raw .tryBlock ∧
      (g.block 6).start = 2 ∧
        (g.block 6).edge? (.handler 0) = some (.block 1))) = true := by
    rw [build, ranges]
    decide +kernel
  obtain ⟨g, made, evaluated⟩ := exists_eq_ok_of_any evaluated
  exact ⟨g, made, of_decide_eq_true evaluated⟩

/-- The handler of the second range is a way into the first one. -/
theorem handledBehind_wayIn : ∃ g, build handledBehind none {} = .ok g ∧ 6 ∈ (g.block 1).preds ∧
    WayIn (ProtectedRange.ofTable handledBehind.exceptions {}) ⟨0, 1, [⟨3, []⟩]⟩ (g.block 6)
      (.handler 0) := by
  -- The predecessor is the one that the evaluation found.
  obtain ⟨g, made, isCode, starts, isPred, -, -, edge⟩ := handledBehind_built
  have listed : (⟨0, 1, [⟨3, []⟩]⟩ : ProtectedRange) ∈
      ProtectedRange.ofTable handledBehind.exceptions {} :=
    List.mem_mergeSort.mpr (by decide)
  exact ⟨g, made, isPred, ((wayIn_of_build made listed isCode starts).1 6 isPred).2 _ edge⟩

/-- The first block of a protected range can have a predecessor that is neither the entry of a range
which starts there nor code inside the range. -/
theorem exists_way_past_entry :
    ∃ m g, build m none {} = .ok g ∧ ∃ range ∈ ProtectedRange.ofTable m.exceptions {},
    ∃ first, (g.block first).isCode = true ∧ (g.block first).start = range.start ∧
      ∃ pred ∈ (g.block first).preds,
      ¬ ((g.block pred).type = .raw .tryBlock ∧ (g.block pred).start = range.start) ∧
      (g.block pred).isCode = false := by
  -- The entry of the later range is no code and starts elsewhere.
  obtain ⟨g, made, isCode, starts, isPred, isTry, later, -⟩ := handledBehind_built
  refine ⟨handledBehind, g, made, ⟨0, 1, [⟨3, []⟩]⟩, List.mem_mergeSort.mpr (by decide), 1, isCode,
    starts, 6, isPred, fun same => ?_, ?_⟩
  · cases later.symm.trans same.2
  · rw [Block.isCode, isTry]

end Build

end Graph

end Unjump
