import Mathlib.Data.List.Perm.Basic
import Unjump.Proofs.Catching

/-!
What the protected ranges of an exception table hold.

The ranges are the table read another way. Every row that does not cover its own handler is found
again in the one range with its bounds, under its handler and with its catch type, as often as the
table has it. Folding takes out some rows, and which ones can be told from the table alone: those
that extend the `finally` of other rows to the body of a catch.
-/

namespace Unjump

/-- The catch types of a guard as rows have them, where a guard for everything
has just the one that names no class. -/
def Guard.catchTypes (guard : Guard) : List (Option PoolIndex) :=
  if guard.isFinally then [none] else guard.classes.map some

/-- The rows that a guard stands for in a range with the given bounds. -/
def Guard.toRows (start finish : Offset) (guard : Guard) : List ExceptionRow :=
  guard.catchTypes.map fun caught => ⟨start, finish, guard.handler, caught⟩

/-- The rows that a range stands for. -/
def ProtectedRange.toRows (range : ProtectedRange) : List ExceptionRow :=
  range.guards.flatMap (·.toRows range.start range.finish)

namespace ExceptionRow

/-- The rows with the bounds of a given one. -/
def peers (rows : List ExceptionRow) (row : ExceptionRow) : List ExceptionRow :=
  rows.filter fun other => row.start == other.start && row.finish == other.finish

/-- Whether a row only extends the `finally` of other rows to one of their catch bodies. Such a row
has its bounds for itself and catches everything. It starts where a row for a class has its handler,
and goes to the same handler as the first row for everything among the peers of that one. -/
def extendsFinally (rows : List ExceptionRow) (row : ExceptionRow) : Bool :=
  row.catchType.isNone && row.peers rows == [row] && rows.any fun other =>
    other.catchType.isSome && other.handler == row.start &&
      ((other.peers rows).find? (·.catchType.isNone)).map (·.handler) == some row.handler

end ExceptionRow

section Guards

variable {merge : Bool} {rows : List ExceptionRow} {start finish : Offset}

/-- The catch types of a guard are one that names no class, or some that all do. -/
theorem Guard.catchTypes_cases (guard : Guard) :
    guard.catchTypes = [none] ∨ guard.catchTypes ≠ [] ∧
      ∀ caught ∈ guard.catchTypes, caught.isSome = true := by
  -- A guard without classes is one for everything.
  rw [catchTypes]
  split
  · exact .inl rfl
  · next hasClass =>
    refine .inr ⟨fun none => hasClass ?_, fun caught listed => ?_⟩
    · rw [isFinally, List.map_eq_nil_iff.mp none, List.isEmpty_nil]
    · obtain ⟨type, -, rfl⟩ := List.mem_map.mp listed
      rfl

/-- Guards stand for one row more when a row is added to them. -/
theorem flatMap_toRows_addGuard (merge : Bool) (start finish handler : Offset)
    (caught : Option PoolIndex) (guards : List Guard) :
    ((addGuard merge handler caught guards).flatMap (·.toRows start finish)).Perm
      (guards.flatMap (·.toRows start finish) ++ [⟨start, finish, handler, caught⟩]) := by
  -- The row goes to the first guard that takes it, or to a new one behind all others.
  induction guards with
  | nil =>
    cases caught <;> exact .refl _
  | cons guard rest ih =>
    rw [addGuard]
    split
    · next taken =>
      simp only [Bool.and_eq_true, Bool.not_eq_true', beq_iff_eq, Option.isSome_iff_exists] at taken
      obtain ⟨⟨⟨-, type, rfl⟩, rfl⟩, hasClass⟩ := taken
      -- The guard names a class already, so the further class is listed behind it.
      have grown : Guard.toRows start finish
          { guard with classes := guard.classes ++ (some type).toList } =
          guard.toRows start finish ++ [⟨start, finish, guard.handler, some type⟩] := by
        rw [Guard.toRows, Guard.toRows, Guard.catchTypes, Guard.catchTypes, hasClass]
        simp [Guard.isFinally]
      rw [List.flatMap_cons, List.flatMap_cons, grown, List.append_assoc, List.append_assoc]
      exact List.perm_append_comm.append_left _
    · rw [List.flatMap_cons, List.flatMap_cons, List.append_assoc]
      exact ih.append_left _

/-- The guards that rows with the same bounds make stand for these rows. -/
theorem flatMap_toRows_guardsOf (same : ∀ row ∈ rows, row.start = start ∧ row.finish = finish) :
    ((guardsOf merge rows).flatMap (·.toRows start finish)).Perm rows := by
  -- Rows are added in the order of the table, so the induction takes off the last one.
  induction rows using List.reverseRecOn with
  | nil => exact .refl _
  | append_singleton rows row ih =>
    have isRow : (⟨start, finish, row.handler, row.catchType⟩ : ExceptionRow) = row := by
      obtain ⟨rfl, rfl⟩ := same row (List.mem_append_right _ List.mem_cons_self)
      rfl
    rw [guardsOf_append_singleton]
    refine (flatMap_toRows_addGuard ..).trans ?_
    rw [isRow]
    exact (ih fun other listed => same other (List.mem_append_left _ listed)).append_right _

/-- The first guard for everything has the handler of the first row for everything. -/
theorem find?_isFinally_guardsOf (merge : Bool) (rows : List ExceptionRow) :
    ((guardsOf merge rows).find? (·.isFinally)).map (·.handler) =
      (rows.find? (·.catchType.isNone)).map (·.handler) := by
  -- An exception of no class is caught by what catches everything and by nothing else.
  have guards : Guard.willCatch merge (fun _ => false) (fun _ => false) = Guard.isFinally := by
    funext guard
    simp [Guard.willCatch, Guard.catches]
  have rowsToo : ExceptionRow.willCatch merge (fun _ => false) (fun _ => false) rows =
      (·.catchType.isNone) := by
    funext row
    have unshared :
        (rows.any fun other => row.shares other && other.catches fun _ => false) = false := by
      rw [List.any_eq_false]
      intro other _
      cases isType : other.catchType <;> simp [ExceptionRow.shares, ExceptionRow.catches, isType]
    rw [ExceptionRow.willCatch, ExceptionRow.isGuarded, unshared, ExceptionRow.catches]
    cases row.catchType <;> simp
  have found := find?_guardsOf merge (fun _ => false) rows fun _ => false
  rwa [guards, rowsToo] at found

/-- The handlers of the guards that name classes are those of the rows that do. -/
theorem mem_catches_guardsOf (same : ∀ row ∈ rows, row.start = start ∧ row.finish = finish)
    {handler : Offset} :
    handler ∈ ((guardsOf merge rows).filter (!·.isFinally)).map (·.handler) ↔
      ∃ row ∈ rows, row.catchType.isSome = true ∧ row.handler = handler := by
  -- The rows are those that the guards stand for.
  have isRow : ∀ row,
      row ∈ rows ↔ ∃ guard ∈ guardsOf merge rows, row ∈ guard.toRows start finish := fun row => by
    rw [← (flatMap_toRows_guardsOf same).mem_iff, List.mem_flatMap]
  simp only [List.mem_map, List.mem_filter, Bool.not_eq_true']
  constructor
  · rintro ⟨guard, ⟨listed, hasClass⟩, rfl⟩
    -- The first class of the guard stems from a row.
    obtain ⟨type, types, isClass⟩ := List.exists_cons_of_ne_nil (l := guard.classes) fun none => by
      simp [Guard.isFinally, none] at hasClass
    refine ⟨⟨start, finish, guard.handler, some type⟩, (isRow _).mpr ⟨guard, listed, ?_⟩, rfl, rfl⟩
    simp [Guard.toRows, Guard.catchTypes, hasClass, isClass]
  · rintro ⟨row, listed, isSome, rfl⟩
    obtain ⟨guard, isGuard, isRow⟩ := (isRow row).mp listed
    obtain ⟨caught, isCaught, rfl⟩ := List.mem_map.mp isRow
    refine ⟨guard, ⟨isGuard, ?_⟩, rfl⟩
    -- A guard for everything would stand for a row without a class.
    rw [Bool.eq_false_iff]
    intro isAll
    rw [Guard.catchTypes, if_pos isAll, List.mem_singleton] at isCaught
    rw [isCaught] at isSome
    cases isSome

end Guards

section Ranges

variable {merge : Bool} {rows : List ExceptionRow} {row : ExceptionRow}
    {ranges : List ProtectedRange} {range : ProtectedRange}

/-- A row has the bounds of a range if it starts and ends where the range does. -/
theorem ProtectedRange.isOf_iff_and :
    range.isOf row = true ↔ row.start = range.start ∧ row.finish = range.finish := by
  -- The two tests of the code are put the other way round.
  rw [isOf, Bool.and_eq_true, beq_iff_eq, beq_iff_eq, eq_comm, eq_comm (a := range.finish)]

/-- The rows with the bounds of a range are the peers of each of them. -/
theorem filter_isOf_eq_peers (isOf : range.isOf row = true) :
    rows.filter range.isOf = row.peers rows := by
  -- Peers have the bounds that the range has.
  obtain ⟨sameStart, sameFinish⟩ := ProtectedRange.isOf_iff_and.mp isOf
  refine congrArg (List.filter · rows) (funext fun other => ?_)
  rw [ProtectedRange.isOf, sameStart, sameFinish]

/-- A range stands for the rows with its bounds. -/
theorem Groups.toRows_perm (groups : Groups merge rows ranges) (listed : range ∈ ranges) :
    range.toRows.Perm (rows.filter range.isOf) := by
  -- The guards of the range are those that its rows make.
  rw [ProtectedRange.toRows, groups.guards range listed]
  exact flatMap_toRows_guardsOf fun row isRow =>
    ProtectedRange.isOf_iff_and.mp (List.mem_filter.mp isRow).2

/-- Ranges with different bounds share no row, so together they hold the rows with the bounds
of one of them. -/
theorem flatMap_filter_isOf_perm (distinct : (ranges.map (·.bounds)).Nodup)
    (rows : List ExceptionRow) :
    (ranges.flatMap fun range => rows.filter range.isOf).Perm
      (rows.filter fun row => ranges.any (·.isOf row)) := by
  -- By induction on the ranges.
  induction ranges with
  | nil => simp
  | cons range rest ih =>
    obtain ⟨isNew, distinct⟩ := List.nodup_cons.mp distinct
    -- No later range has the bounds of the first one.
    have apart : ∀ row, range.isOf row = true → rest.any (·.isOf row) = false := by
      intro row isOf
      rw [List.any_eq_false]
      intro other listed isOther
      have same : other.bounds = range.bounds :=
        (ProtectedRange.isOf_iff.mp isOther).trans (ProtectedRange.isOf_iff.mp isOf).symm
      exact isNew (List.mem_map.mpr ⟨other, listed, same⟩)
    -- The rows of the first range and those of the others are a partition of what the rows
    -- of all are.
    have parts :=
      List.filter_append_perm range.isOf (rows.filter fun row => (range :: rest).any (·.isOf row))
    rw [List.filter_filter, List.filter_filter] at parts
    have first : (fun row => range.isOf row && (range :: rest).any (·.isOf row)) = range.isOf := by
      funext row
      cases isOf : range.isOf row <;> simp [isOf]
    have others : (fun row => !range.isOf row && (range :: rest).any (·.isOf row)) = fun row =>
        rest.any (·.isOf row) := by
      funext row
      cases isOf : range.isOf row with
      | false => simp [isOf]
      | true => simp [apart row isOf]
    rw [first, others] at parts
    rw [List.flatMap_cons]
    exact ((ih distinct).append_left _).trans parts

/-- The `finally` and the catches of a range are told by its rows. -/
theorem finallyAndCatches?_eq_some_iff {last : Offset} {catches : List Offset} :
    range.finallyAndCatches? = some (last, catches) ↔
      (range.guards.find? (·.isFinally)).map (·.handler) = some last ∧
      catches = (range.guards.filter (!·.isFinally)).map (·.handler) ∧ catches ≠ [] := by
  rw [ProtectedRange.finallyAndCatches?]
  -- Without a guard for everything, or with nothing but such guards, there is no pair.
  cases range.guards.find? (·.isFinally) with
  | none => simp
  | some guard =>
    simp only [Option.map_some, Option.some.injEq, List.isEmpty_iff]
    split
    · next none =>
      simp only [reduceCtorEq, false_iff, not_and]
      rintro - rfl
      simpa using none
    · next full => grind

/-- Some range has its `finally` at one offset and a catch at another one exactly when a row for a
class has its handler at the second offset and the first row for everything among its peers
has it at the first one. -/
theorem Groups.any_finallyAndCatches? (groups : Groups merge rows ranges) (last start : Offset) :
    ((ranges.filterMap ProtectedRange.finallyAndCatches?).any fun (final, catches) =>
      final == last && catches.contains start) = rows.any fun other =>
        other.catchType.isSome && other.handler == start &&
        ((other.peers rows).find? (·.catchType.isNone)).map (·.handler) == some last := by
  -- The rows of a range have its bounds.
  have bounded : ∀ range : ProtectedRange, ∀ row ∈ rows.filter range.isOf,
      row.start = range.start ∧ row.finish = range.finish := fun range row isRow =>
    ProtectedRange.isOf_iff_and.mp (List.mem_filter.mp isRow).2
  rw [Bool.eq_iff_iff, List.any_eq_true, List.any_eq_true]
  constructor
  · rintro ⟨⟨final, catches⟩, listed, both⟩
    obtain ⟨range, isRange, isPair⟩ := List.mem_filterMap.mp listed
    obtain ⟨isLast, rfl, -⟩ := finallyAndCatches?_eq_some_iff.mp isPair
    simp only [Bool.and_eq_true, beq_iff_eq, List.contains_iff_mem] at both
    obtain ⟨rfl, isCatch⟩ := both
    rw [groups.guards range isRange] at isLast isCatch
    -- The catch stems from a row of the range, whose peers are the rows of the range.
    obtain ⟨row, isRow, isSome, isHandler⟩ := (mem_catches_guardsOf (bounded range)).mp isCatch
    obtain ⟨isRow, isOf⟩ := List.mem_filter.mp isRow
    rw [find?_isFinally_guardsOf, filter_isOf_eq_peers isOf] at isLast
    exact ⟨row, isRow, by simp [isSome, isHandler, isLast]⟩
  · rintro ⟨row, isRow, both⟩
    simp only [Bool.and_eq_true, beq_iff_eq] at both
    obtain ⟨⟨isSome, isHandler⟩, isLast⟩ := both
    obtain ⟨range, isRange, bounds⟩ := List.mem_map.mp (groups.complete row isRow)
    have isOf := ProtectedRange.isOf_iff.mpr bounds
    have isCatch : start ∈ (range.guards.filter (!·.isFinally)).map (·.handler) := by
      rw [groups.guards range isRange]
      exact (mem_catches_guardsOf (bounded range)).mpr
        ⟨row, List.mem_filter.mpr ⟨isRow, isOf⟩, isSome, isHandler⟩
    -- That range has the catch, and its `finally` is that of the peers of the row.
    refine ⟨(last, (range.guards.filter (!·.isFinally)).map (·.handler)),
      List.mem_filterMap.mpr ⟨range, isRange, ?_⟩, ?_⟩
    · refine finallyAndCatches?_eq_some_iff.mpr ⟨?_, rfl, List.ne_nil_of_mem isCatch⟩
      rw [groups.guards range isRange, find?_isFinally_guardsOf, filter_isOf_eq_peers isOf, isLast]
    · simpa using isCatch

/-- A range has just one guard, and that for everything, exactly
when it holds just one row, and that for everything. -/
theorem Groups.guards_eq_singleton_iff (groups : Groups merge rows ranges) (listed : range ∈ ranges)
    (isRow : row ∈ rows) (isOf : range.isOf row = true) {guard : Guard} :
    range.guards = [guard] ∧ guard.isFinally = true ↔
      row.catchType = none ∧ row.peers rows = [row] ∧ guard = ⟨row.handler, []⟩ := by
  constructor
  · rintro ⟨single, isAll⟩
    -- Such a guard stands for one row, so there is no other one in the range.
    have stands := groups.toRows_perm listed
    rw [ProtectedRange.toRows, single, List.flatMap_singleton, Guard.toRows, Guard.catchTypes,
      if_pos isAll, List.map_singleton, filter_isOf_eq_peers isOf] at stands
    have alone := List.perm_singleton.mp stands.symm
    have isPeer : row ∈ row.peers rows := List.mem_filter.mpr ⟨isRow, by simp⟩
    rw [alone, List.mem_singleton] at isPeer
    refine ⟨congrArg ExceptionRow.catchType isPeer, alone.trans (congrArg ([·]) isPeer.symm), ?_⟩
    rw [congrArg ExceptionRow.handler isPeer, ← List.isEmpty_iff.mp isAll]
  · rintro ⟨isAll, alone, rfl⟩
    refine ⟨?_, rfl⟩
    rw [groups.guards range listed, filter_isOf_eq_peers isOf, alone]
    simp [guardsOf, addGuard, isAll]

/-- A range extends the `finally` of another one exactly when its rows do. -/
theorem Groups.extendsFinally_eq (groups : Groups merge rows ranges) (listed : range ∈ ranges)
    (isRow : row ∈ rows) (isOf : range.isOf row = true) :
    range.extendsFinally ranges = row.extendsFinally rows := by
  -- The row starts where the range starts.
  have starts := (ProtectedRange.isOf_iff_and.mp isOf).1
  rw [Bool.eq_iff_iff]
  -- Both ask for a single guard for everything, which the rows of the range tell as well.
  constructor
  · intro extending
    rw [ProtectedRange.extendsFinally] at extending
    split at extending
    · next guard single =>
      obtain ⟨isAll, extended⟩ := Bool.and_eq_true_iff.mp extending
      obtain ⟨catchesAll, alone, rfl⟩ :=
        (groups.guards_eq_singleton_iff listed isRow isOf).mp ⟨single, isAll⟩
      rw [groups.any_finallyAndCatches?] at extended
      rw [ExceptionRow.extendsFinally, starts, extended, catchesAll, alone]
      simp
    · cases extending
  · intro extending
    rw [ExceptionRow.extendsFinally, Bool.and_eq_true_iff, Bool.and_eq_true_iff,
      Option.isNone_iff_eq_none, beq_iff_eq] at extending
    obtain ⟨⟨catchesAll, alone⟩, extended⟩ := extending
    obtain ⟨single, isAll⟩ :=
      (groups.guards_eq_singleton_iff listed isRow isOf).mpr ⟨catchesAll, alone, rfl⟩
    rw [starts] at extended
    rw [ProtectedRange.extendsFinally, single]
    simp only [isAll, Bool.true_and]
    rw [groups.any_finallyAndCatches?, extended]

end Ranges

namespace ProtectedRange

variable {rows : List ExceptionRow} {ranges : List ProtectedRange} {merge : Bool}

/-- The ranges that are left when those that extend a `finally` are dropped, or all of them. -/
def folded (fold : Bool) (ranges : List ProtectedRange) : List ProtectedRange :=
  if fold then ranges.filter (!extendsFinally ranges ·) else ranges

/-- The ranges that are left are those that do not have to be dropped. -/
theorem mem_folded {fold : Bool} {range : ProtectedRange} :
    range ∈ folded fold ranges ↔
      range ∈ ranges ∧ (fold && range.extendsFinally ranges) = false := by
  -- With folding and without, this is how the list is made.
  cases fold <;> simp [folded]

/-- The protected ranges of a table are made in three steps: grouping, folding and sorting. -/
theorem ofTable_eq (table : List ExceptionRow) (options : BuildOptions) : ofTable table options =
    (folded options.foldFinally ((table.filter (!·.coversHandler)).foldl
      (fun ranges row => addRow options.mergeCatches row ranges) [])).mergeSort before := rfl

/-- Dropping ranges leaves no two with the same bounds. -/
theorem nodup_bounds_folded (groups : Groups merge rows ranges) (fold : Bool) :
    ((folded fold ranges).map (·.bounds)).Nodup := by
  -- What is left is a part of the ranges.
  rw [folded]
  split
  · exact (List.filter_sublist.map _).nodup groups.distinct
  · exact groups.distinct

/-- Dropping ranges drops the rows that extend a `finally`. -/
theorem any_isOf_folded (groups : Groups merge rows ranges) (fold : Bool) {row : ExceptionRow}
    (isRow : row ∈ rows) :
    (folded fold ranges).any (·.isOf row) = !(fold && row.extendsFinally rows) := by
  -- Rows of one range agree on whether they extend a `finally`, so that they stay or go together.
  rw [Bool.eq_iff_iff, List.any_eq_true, Bool.not_eq_true']
  constructor
  · rintro ⟨range, listed, isOf⟩
    obtain ⟨listed, kept⟩ := mem_folded.mp listed
    rwa [groups.extendsFinally_eq listed isRow isOf] at kept
  · intro kept
    obtain ⟨range, listed, bounds⟩ := List.mem_map.mp (groups.complete row isRow)
    have isOf := isOf_iff.mpr bounds
    refine ⟨range, mem_folded.mpr ⟨listed, ?_⟩, isOf⟩
    rwa [groups.extendsFinally_eq listed isRow isOf]

/-- The protected ranges of a table stand with their starts ascending, those with the same start
with their ends descending, and no two with the same bounds. -/
theorem pairwise_ofTable (table : List ExceptionRow) (options : BuildOptions) :
    (ofTable table options).Pairwise fun a b =>
      a.start < b.start ∨ a.start = b.start ∧ b.finish < a.finish := by
  -- The ranges come from grouping the rows.
  have groups := groups_foldl_addRow options.mergeCatches (table.filter (!·.coversHandler))
  have sorted : (ofTable table options).Pairwise (before · · = true) :=
    List.pairwise_mergeSort before_trans before_total _
  have distinct : ((ofTable table options).map (·.bounds)).Nodup :=
    ((List.mergeSort_perm _ before).map _).nodup_iff.mpr
      (nodup_bounds_folded groups options.foldFinally)
  -- Sorting leaves ranges with the same start and end in any order, but there are no two of them.
  refine (sorted.and (List.pairwise_map.mp distinct)).imp fun {a b} both => ?_
  obtain ⟨isBefore, apart⟩ := both
  simp only [before, Bool.or_eq_true, Bool.and_eq_true, beq_iff_eq, decide_eq_true_eq] at isBefore
  rcases isBefore with earlier | ⟨sameStart, shorter⟩
  · exact .inl earlier
  · exact .inr ⟨sameStart, UInt32.lt_of_le_of_ne shorter fun sameFinish =>
      apart (Prod.ext sameStart sameFinish.symm)⟩

/-- A protected range of a table has a guard, since it stems from some row. -/
theorem guards_ne_nil_of_mem_ofTable {table : List ExceptionRow} {options : BuildOptions}
    {range : ProtectedRange} (listed : range ∈ ofTable table options) : range.guards ≠ [] := by
  -- The range stems from a row, before it is folded and sorted.
  have groups := groups_foldl_addRow options.mergeCatches (table.filter (!·.coversHandler))
  have isRange := mem_foldl_addRow_of_mem_ofTable listed
  obtain ⟨row, isRow, isOf⟩ := groups.sources range isRange
  -- Without a guard the range would stand for no row.
  intro none
  have stands := groups.toRows_perm isRange
  rw [toRows, none, List.flatMap_nil] at stands
  have isFound : row ∈ (table.filter (!·.coversHandler)).filter range.isOf :=
    List.mem_filter.mpr ⟨isRow, isOf⟩
  rw [List.nil_perm.mp stands] at isFound
  cases isFound

/-- The protected ranges of a table stand for its rows, apart from those that cover their own
handler and, where ranges are folded, from those that extend a `finally`. -/
theorem flatMap_toRows_ofTable (table : List ExceptionRow) (options : BuildOptions) :
    ((ofTable table options).flatMap (·.toRows)).Perm
      ((table.filter (!·.coversHandler)).filter fun row =>
        !(options.foldFinally && row.extendsFinally (table.filter (!·.coversHandler)))) := by
  -- The steps are undone one by one, from the last to the first.
  have groups := groups_foldl_addRow options.mergeCatches (table.filter (!·.coversHandler))
  rw [ofTable_eq]
  generalize table.filter (!·.coversHandler) = rows at groups ⊢
  generalize rows.foldl (fun ranges row => addRow options.mergeCatches row ranges) [] =
    ranges at groups ⊢
  -- Sorting moves ranges, each of them stands for the rows with its bounds, and no row
  -- has the bounds of two.
  calc ((folded options.foldFinally ranges).mergeSort before).flatMap (·.toRows)
    List.Perm _ ((folded options.foldFinally ranges).flatMap (·.toRows)) :=
      (List.mergeSort_perm _ before).flatMap_right _
    List.Perm _ ((folded options.foldFinally ranges).flatMap fun range => rows.filter range.isOf) :=
      .flatMap_left _ fun range listed => groups.toRows_perm (mem_folded.mp listed).1
    List.Perm _ (rows.filter fun row => (folded options.foldFinally ranges).any (·.isOf row)) :=
      flatMap_filter_isOf_perm (nodup_bounds_folded groups options.foldFinally) rows
    _ = rows.filter fun row => !(options.foldFinally && row.extendsFinally rows) :=
      List.filter_congr fun row isRow => any_isOf_folded groups options.foldFinally isRow

/-- Grouping an exception table into protected ranges is exact. The ranges stand in order and differ
in their bounds. Each has a guard, and each guard catches everything or some classes. Together they
stand for the rows that do not cover their own handler, as often as each is in the table, less the
rows that extend a `finally` where these are folded. -/
theorem ofTable_keeps_rows (table : List ExceptionRow) (options : BuildOptions) :
    ((ofTable table options).Pairwise fun a b =>
      a.start < b.start ∨ a.start = b.start ∧ b.finish < a.finish) ∧
    (∀ range ∈ ofTable table options, range.guards ≠ [] ∧ ∀ guard ∈ range.guards,
      guard.catchTypes = [none] ∨ guard.catchTypes ≠ [] ∧
      ∀ caught ∈ guard.catchTypes, caught.isSome = true) ∧
    ((ofTable table options).flatMap (·.toRows)).Perm
      ((table.filter (!·.coversHandler)).filter fun row =>
        !(options.foldFinally && row.extendsFinally (table.filter (!·.coversHandler)))) :=
  ⟨pairwise_ofTable table options,
    fun _ listed => ⟨guards_ne_nil_of_mem_ofTable listed, fun guard _ => guard.catchTypes_cases⟩,
    flatMap_toRows_ofTable table options⟩

/-- The rows of a try with a catch and a `finally`: the third extends the `finally` to the catch,
and the last one covers its own handler. -/
def catchAndFinally : List ExceptionRow :=
  [⟨0, 10, 13, some 5⟩, ⟨0, 10, 23, none⟩, ⟨13, 20, 23, none⟩, ⟨23, 25, 23, none⟩]

example : ofTable catchAndFinally {} = [⟨0, 10, [⟨13, [5]⟩, ⟨23, []⟩]⟩] ∧
    ofTable catchAndFinally { foldFinally := false } =
      [⟨0, 10, [⟨13, [5]⟩, ⟨23, []⟩]⟩, ⟨13, 20, [⟨23, []⟩]⟩] := by
  cbv

end ProtectedRange

end Unjump
