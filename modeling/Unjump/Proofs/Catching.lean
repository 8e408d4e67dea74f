import Mathlib.Data.List.Induction
import Unjump.Graph.Build

/-!
Which handler catches an exception, by the exception table and by the protected ranges made of it.

The table gives an exception to the first of its rows that catches it. A protected range gives it to
the first of its guards that does, and a guard that several rows share stands where the first of
them stood. So a row can be overtaken: a later row catches ahead of it where the later row's handler
has a guard from a row before both.
-/

namespace Unjump

/-- Whether a row catches an exception of all classes that satisfy a test. -/
def ExceptionRow.catches (matching : PoolIndex → Bool) (row : ExceptionRow) : Bool :=
  row.catchType.all matching

/-- Whether a guard catches an exception of all classes that satisfy a test. -/
def Guard.catches (matching : PoolIndex → Bool) (guard : Guard) : Bool :=
  guard.isFinally || guard.classes.any matching

/-- The handler of the first row that catches an exception. -/
def catchingRow? (rows : List ExceptionRow) (matching : PoolIndex → Bool) : Option Offset :=
  (rows.find? (·.catches matching)).map (·.handler)

/-- The handler of the first guard of a range that catches an exception. -/
def ProtectedRange.catchingGuard? (range : ProtectedRange) (matching : PoolIndex → Bool) :
    Option Offset :=
  (range.guards.find? (·.catches matching)).map (·.handler)

/-- Whether a row protects the code of a range, no more and no less. -/
def ProtectedRange.isOf (range : ProtectedRange) (row : ExceptionRow) : Bool :=
  range.start == row.start && range.finish == row.finish

/-- The rows of a table for a range, those that cover their own handler apart. -/
def ProtectedRange.rows (range : ProtectedRange) (table : List ExceptionRow) : List ExceptionRow :=
  (table.filter (!·.coversHandler)).filter range.isOf

/-- Whether two rows are caught by one guard where guards are shared. -/
def ExceptionRow.shares (row other : ExceptionRow) : Bool :=
  row.catchType.isSome && other.catchType.isSome && row.handler == other.handler

/-- Whether the guard of a row catches an exception, for that row or for another one
that shares it. -/
def ExceptionRow.isGuarded (merge : Bool) (rows : List ExceptionRow) (matching : PoolIndex → Bool)
    (row : ExceptionRow) : Bool :=
  row.catches matching ||
    (merge && rows.any fun other => row.shares other && other.catches matching)

/-- A handler overtakes the first row that catches an exception: a row before that one has the
handler but not the exception, and one after it has both. -/
def Overtakes (rows : List ExceptionRow) (matching : PoolIndex → Bool) (handler : Offset) : Prop :=
  ∃ before row after, rows = before ++ row :: after ∧
  (∀ other ∈ before, other.catches matching = false) ∧
    row.catches matching = true ∧ row.handler ≠ handler ∧
      (∃ earlier ∈ before, earlier.handler = handler ∧ earlier.catchType.isSome = true) ∧
        ∃ later ∈ after, later.handler = handler ∧ later.catchType.isSome = true ∧
        later.catches matching = true

section Guards

variable {merge : Bool} {matching : PoolIndex → Bool} {extra : Offset → Bool}

/-- The guards that rows make one after the other. -/
def guardsOf (merge : Bool) (rows : List ExceptionRow) : List Guard :=
  rows.foldl (fun guards row => addGuard merge row.handler row.catchType guards) []

/-- Whether a guard catches an exception, or is of a handler for which a further row
to come does. -/
def Guard.willCatch (merge : Bool) (matching : PoolIndex → Bool) (extra : Offset → Bool)
    (guard : Guard) : Bool :=
  guard.catches matching || (merge && !guard.isFinally && extra guard.handler)

/-- Whether the guard of a row catches an exception, or is of a handler
for which a further row to come does. -/
def ExceptionRow.willCatch (merge : Bool) (matching : PoolIndex → Bool) (extra : Offset → Bool)
    (rows : List ExceptionRow) (row : ExceptionRow) : Bool :=
  row.isGuarded merge rows matching || (merge && row.catchType.isSome && extra row.handler)

/-- Whether a handler is one for which a row to come catches an exception, given the next
of these rows. -/
def ExceptionRow.orAhead (row : ExceptionRow) (matching : PoolIndex → Bool) (extra : Offset → Bool)
    (handler : Offset) : Bool :=
  extra handler || (handler == row.handler && row.catchType.any matching)

/-- Whether a row becomes a further class of a guard. -/
def Guard.takes (merge : Bool) (row : ExceptionRow) (guard : Guard) : Bool :=
  merge && row.catchType.isSome && guard.handler == row.handler && !guard.isFinally

/-- A row that catches nothing makes no handler catch. -/
theorem ExceptionRow.orAhead_eq_self {row : ExceptionRow}
    (idle : row.catchType.any matching = false) : row.orAhead matching extra = extra := by
  -- The row counts for no handler.
  funext handler
  simp [orAhead, idle]

/-- A guard that takes a row catches with it what the row was to catch. -/
theorem Guard.willCatch_of_takes {row : ExceptionRow} {guard : Guard}
    (taken : guard.takes merge row = true) :
    Guard.willCatch merge matching extra
      { guard with classes := guard.classes ++ row.catchType.toList } =
      guard.willCatch merge matching (row.orAhead matching extra) := by
  -- A guard takes a row only if both name classes, so that neither becomes one that catches all.
  simp only [takes, Bool.and_eq_true, Bool.not_eq_true', beq_iff_eq, Option.isSome_iff_exists]
    at taken
  obtain ⟨⟨⟨rfl, type, isType⟩, sameHandler⟩, hasClass⟩ := taken
  have stays : ∀ handler, Guard.isFinally ⟨handler, guard.classes ++ [type]⟩ = false :=
    fun handler => by simp [isFinally]
  simp only [willCatch, catches, ExceptionRow.orAhead, isType, Option.toList_some, stays, hasClass,
    sameHandler, List.any_append, List.any_cons, List.any_nil, Option.any_some, Bool.not_false,
    Bool.true_and, Bool.false_or, Bool.or_false, beq_self_eq_true]
  rw [Bool.or_assoc, Bool.or_comm (matching type)]

/-- A guard that does not take a row catches no more for it. -/
theorem Guard.willCatch_of_not_takes {row : ExceptionRow} {guard : Guard}
    (apart : guard.takes merge row = false) :
    guard.willCatch merge matching (row.orAhead matching extra) =
      guard.willCatch merge matching extra := by
  -- A row for everything is not shared.
  cases isType : row.catchType with
  | none => rw [ExceptionRow.orAhead_eq_self (by simp [isType])]
  | some type =>
    simp only [takes, isType, Option.isSome_some, Bool.and_true] at apart
    simp only [willCatch, ExceptionRow.orAhead, isType, Option.any_some]
    -- Where guards are shared, this one catches everything already or has another handler.
    cases merge with
    | false => rfl
    | true =>
      cases isAll : guard.isFinally with
      | true => rfl
      | false =>
        have other : (guard.handler == row.handler) = false := by simpa [isAll] using apart
        simp [other]

/-- What a row adds to the search for the first guard: it counts for the first guard that takes it,
as if that guard had known of it before, and for a guard of its own at the end if none takes it. -/
theorem find?_addGuard (row : ExceptionRow) (guards : List Guard) :
    ((addGuard merge row.handler row.catchType guards).find? (·.willCatch merge matching extra)).map
      (·.handler) =
      ((guards.find? (·.willCatch merge matching (row.orAhead matching extra))).map (·.handler)).or
        (if !guards.any (·.takes merge row) &&
            (row.catches matching || (merge && row.catchType.isSome && extra row.handler))
          then some row.handler else none) := by
  -- By induction on the guards: the row joins the first that takes it, and the search goes
  -- on past the others.
  induction guards with
  -- Without guards the row makes its own.
  | nil =>
    cases caught : row.catchType <;>
      simp [addGuard, List.find?_cons, Guard.willCatch, Guard.catches, Guard.isFinally,
        ExceptionRow.catches, caught]
    split <;> simp_all
  | cons guard rest ih =>
    rw [addGuard]
    split
    · next taken =>
      replace taken : guard.takes merge row = true := taken
      simp only [List.find?_cons, Guard.willCatch_of_takes taken, List.any_cons, taken,
        Bool.true_or, Bool.not_true, Bool.false_and, Bool.false_eq_true, if_false, Option.or_none]
      split
      · rfl
      · next idle =>
        -- If the guard does not catch with the row, then the row catches nothing,
        -- and the other guards are as before.
        have nothing : row.catchType.any matching = false := by
          simp only [Guard.takes, Bool.and_eq_true, Bool.not_eq_true', beq_iff_eq] at taken
          simp_all [Guard.willCatch, ExceptionRow.orAhead]
        rw [ExceptionRow.orAhead_eq_self nothing]
    · next apart =>
      replace apart : guard.takes merge row = false := Bool.eq_false_iff.mpr apart
      simp only [List.find?_cons, Guard.willCatch_of_not_takes apart, List.any_cons, apart,
        Bool.false_or]
      split
      · rfl
      · exact ih

/-- A row at the end adds its guard to those of the rows before it. -/
theorem guardsOf_append_singleton (rows : List ExceptionRow) (row : ExceptionRow) :
    guardsOf merge (rows ++ [row]) =
      addGuard merge row.handler row.catchType (guardsOf merge rows) := by
  simp [guardsOf]

/-- The handlers of a range that takes a further row are its own and that of the row. -/
theorem handler_of_mem_addGuard {merge : Bool} {handler : Offset} {caught : Option PoolIndex}
    {guards : List Guard} {guard : Guard} (listed : guard ∈ addGuard merge handler caught guards) :
    guard.handler = handler ∨ ∃ other ∈ guards, other.handler = guard.handler := by
  -- By induction on the guards, of which at most one changes, and keeps its handler.
  induction guards with
  | nil =>
    cases List.mem_singleton.mp listed
    exact .inl rfl
  | cons first rest ih =>
    rw [addGuard] at listed
    split at listed
    · rcases List.mem_cons.mp listed with rfl | later
      · exact .inr ⟨first, List.mem_cons_self, rfl⟩
      · exact .inr ⟨guard, List.mem_cons_of_mem _ later, rfl⟩
    · rcases List.mem_cons.mp listed with rfl | later
      · exact .inr ⟨guard, List.mem_cons_self, rfl⟩
      · refine (ih later).imp_right fun ⟨other, isOther, same⟩ => ?_
        exact ⟨other, List.mem_cons_of_mem _ isOther, same⟩

/-- A guard stems from a row that it was made for. -/
theorem exists_row_of_mem_guardsOf {rows : List ExceptionRow} {guard : Guard}
    (isGuard : guard ∈ guardsOf merge rows) : ∃ row ∈ rows, row.handler = guard.handler := by
  -- By induction on the rows from the front; each adds a guard for itself or a class
  -- to an earlier one.
  induction rows using List.reverseRecOn generalizing guard with
  | nil => cases isGuard
  | append_singleton rows row ih =>
    rw [guardsOf_append_singleton] at isGuard
    rcases handler_of_mem_addGuard isGuard with isNew | ⟨earlier, isEarlier, same⟩
    · exact ⟨row, List.mem_append_right _ List.mem_cons_self, isNew.symm⟩
    · obtain ⟨source, listed, isHandler⟩ := ih isEarlier
      exact ⟨source, List.mem_append_left _ listed, isHandler.trans same⟩

/-- A row at the end counts for the rows before it like one that is still to come. -/
theorem ExceptionRow.willCatch_append_singleton (rows : List ExceptionRow)
    (last row : ExceptionRow) :
    row.willCatch merge matching extra (rows ++ [last]) =
      row.willCatch merge matching (last.orAhead matching extra) rows := by
  -- A row for everything is shared with no other.
  simp only [willCatch, isGuarded, orAhead, shares, catches, List.any_append, List.any_cons,
    List.any_nil]
  cases last.catchType with
  | none => simp
  | some type => grind

/-- The first guard that catches is the guard of the first row of which the guard does. -/
theorem find?_guardsOf (merge : Bool) (matching : PoolIndex → Bool) (rows : List ExceptionRow)
    (extra : Offset → Bool) :
    ((guardsOf merge rows).find? (·.willCatch merge matching extra)).map (·.handler) =
      (rows.find? (·.willCatch merge matching extra rows)).map (·.handler) := by
  -- The last row is put off as one to come, which changes what the rows before it have to catch.
  induction rows using List.reverseRecOn generalizing extra with
  | nil => rfl
  | append_singleton rows row ih =>
    rw [guardsOf_append_singleton, find?_addGuard, ih, List.find?_append]
    simp only [ExceptionRow.willCatch_append_singleton]
    cases found : rows.find? (·.willCatch merge matching (row.orAhead matching extra) rows) with
    | some first => rfl
    | none =>
      have missed := (ih (row.orAhead matching extra)).trans (congrArg _ found)
      rw [Option.map_none, Option.map_eq_none_iff, List.find?_eq_none] at missed
      rw [List.find?_eq_none] at found
      -- No earlier row catches, so the last row counts for itself alone.
      have unshared :
          (rows.any fun other => row.shares other && other.catches matching) = false := by
        rw [List.any_eq_false]
        intro other listed both
        have catching := (Bool.and_eq_true_iff.mp both).2
        exact found other listed
          (by simp [ExceptionRow.willCatch, ExceptionRow.isGuarded, catching])
      have alone : row.willCatch merge matching (row.orAhead matching extra) rows =
          (row.catches matching || (merge && row.catchType.isSome && extra row.handler)) := by
        rw [ExceptionRow.willCatch, ExceptionRow.isGuarded, unshared, ExceptionRow.orAhead,
          ExceptionRow.catches]
        cases row.catchType with
        | none => simp
        | some type => cases merge <;> cases isClass : matching type <;> simp [isClass]
      rw [Option.map_none, Option.none_or, Option.none_or, List.find?_cons, List.find?_nil, alone]
      cases taken : (guardsOf merge rows).any (·.takes merge row) with
      | false =>
        cases (row.catches matching || (merge && row.catchType.isSome && extra row.handler)) <;> rfl
      | true =>
        -- A guard that takes the row would catch with it.
        obtain ⟨guard, listed, takes⟩ := List.any_eq_true.mp taken
        have silent := missed guard listed
        have idle :
            (row.catches matching ||
              (merge && row.catchType.isSome && extra row.handler)) = false := by
          simp only [Guard.takes, Bool.and_eq_true, Bool.not_eq_true', beq_iff_eq,
            Option.isSome_iff_exists] at takes
          obtain ⟨⟨⟨rfl, type, isType⟩, sameHandler⟩, hasClass⟩ := takes
          simp_all [Guard.willCatch, ExceptionRow.orAhead, ExceptionRow.catches]
        simp [idle]

end Guards

section Groups

variable {merge : Bool} {rows : List ExceptionRow} {row : ExceptionRow}
    {ranges : List ProtectedRange}

/-- The code that a range protects. -/
def ProtectedRange.bounds (range : ProtectedRange) : Offset × Offset := (range.start, range.finish)

/-- A range is of the rows that have its bounds. -/
theorem ProtectedRange.isOf_iff {range : ProtectedRange} :
    range.isOf row = true ↔ range.bounds = (row.start, row.finish) := by
  simp [isOf, bounds]

/-- A row goes to the range that it protects, or makes one at the end if there is none. -/
theorem addRow_cases (merge : Bool) (row : ExceptionRow) (ranges : List ProtectedRange) :
    (∃ front range back, ranges = front ++ range :: back ∧ range.isOf row = true ∧
      addRow merge row ranges = front ++
        { range with guards := addGuard merge row.handler row.catchType range.guards } :: back) ∨
    (∀ range ∈ ranges, range.isOf row = false) ∧
      addRow merge row ranges =
        ranges ++ [⟨row.start, row.finish, addGuard merge row.handler row.catchType []⟩] := by
  -- The first range with the bounds of the row takes it, so the ranges before that one are passed.
  induction ranges with
  | nil => exact .inr ⟨fun _ impossible => (nomatch impossible), rfl⟩
  | cons first rest ih =>
    rw [addRow]
    split
    · next same => exact .inl ⟨[], first, rest, rfl, by simp [ProtectedRange.isOf, same], rfl⟩
    · next other =>
      have isOther : first.isOf row = false := Bool.eq_false_iff.mpr fun isOf =>
        other (by simpa [ProtectedRange.isOf] using isOf)
      rcases ih with ⟨front, range, back, rfl, isOf, made⟩ | ⟨none, made⟩
      · exact .inl ⟨first :: front, range, back, rfl, isOf, by rw [made]; rfl⟩
      · exact .inr ⟨List.forall_mem_cons.mpr ⟨isOther, none⟩, by rw [made]; rfl⟩

/-- Ranges that hold the rows of a table: one for all rows with the same bounds,
with the guards that these make. -/
structure Groups (merge : Bool) (rows : List ExceptionRow) (ranges : List ProtectedRange) :
    Prop where
  distinct : (ranges.map (·.bounds)).Nodup
  complete : ∀ row ∈ rows, (row.start, row.finish) ∈ ranges.map (·.bounds)
  guards : ∀ range ∈ ranges, range.guards = guardsOf merge (rows.filter range.isOf)
  sources : ∀ range ∈ ranges, ∃ row ∈ rows, range.isOf row = true

/-- A range that a further row is not of keeps its guards and its rows. -/
theorem Groups.kept (groups : Groups merge rows ranges) {range : ProtectedRange}
    (listed : range ∈ ranges) (other : range.isOf row = false) :
    range.guards = guardsOf merge ((rows ++ [row]).filter range.isOf) := by
  -- The further row is not among the rows of the range.
  rw [groups.guards range listed, List.filter_append, List.filter_cons_of_neg (by simp [other]),
    List.filter_nil, List.append_nil]

/-- A range that takes a further row gets the guard of the row. -/
theorem Groups.taken {front back : List ProtectedRange} {range : ProtectedRange}
    (groups : Groups merge rows (front ++ range :: back)) (isOf : range.isOf row = true) :
    Groups merge (rows ++ [row])
      (front ++ { range with
        guards := addGuard merge row.handler row.catchType range.guards } :: back) := by
  -- The range keeps its bounds.
  let grown : ProtectedRange :=
    { range with guards := addGuard merge row.handler row.catchType range.guards }
  have bounds : (front ++ grown :: back).map (·.bounds) =
      (front ++ range :: back).map (·.bounds) := by
    rw [List.map_append, List.map_append]
    rfl
  have old : ∀ other ∈ front ++ back, other ∈ front ++ range :: back := fun other listed =>
    (List.mem_append.mp listed).elim (List.mem_append_left _) fun inBack =>
      List.mem_append_right _ (List.mem_cons_of_mem _ inBack)
  -- No other range has the bounds of the one that takes the row.
  have others : ∀ other ∈ front ++ back, other.isOf row = false := by
    have single := groups.distinct
    rw [List.map_append, List.map_cons, List.nodup_append, List.nodup_cons] at single
    obtain ⟨-, ⟨notBack, -⟩, notFront⟩ := single
    intro other listed
    rw [Bool.eq_false_iff, ne_eq, ProtectedRange.isOf_iff, ← ProtectedRange.isOf_iff.mp isOf]
    intro same
    rcases List.mem_append.mp listed with inFront | inBack
    · exact notFront _ (List.mem_map_of_mem inFront) _ List.mem_cons_self same
    · exact notBack (same ▸ List.mem_map_of_mem inBack)
  have cases : ∀ other ∈ front ++ grown :: back, other ∈ front ++ back ∨ other = grown := by
    intro other listed
    simp only [List.mem_append, List.mem_cons] at listed ⊢
    rcases listed with inFront | same | inBack
    · exact .inl (.inl inFront)
    · exact .inr same
    · exact .inl (.inr inBack)
  have isMember : range ∈ front ++ range :: back := List.mem_append_right _ List.mem_cons_self
  -- The bounds of the ranges stay, and only the range that takes the row has new guards.
  refine ⟨bounds ▸ groups.distinct, fun other listed => bounds ▸ ?_, fun other listed => ?_,
    fun other listed => ?_⟩
  · rcases List.mem_append.mp listed with isOld | isRow
    · exact groups.complete other isOld
    · rw [List.mem_singleton.mp isRow, ← ProtectedRange.isOf_iff.mp isOf]
      exact List.mem_map_of_mem isMember
  · rcases cases other listed with isOld | rfl
    · exact groups.kept (old other isOld) (others other isOld)
    · have filtered : (rows ++ [row]).filter range.isOf = rows.filter range.isOf ++ [row] := by
        simp [isOf]
      show addGuard merge row.handler row.catchType range.guards =
        guardsOf merge ((rows ++ [row]).filter range.isOf)
      rw [filtered, guardsOf_append_singleton, groups.guards range isMember]
  · rcases cases other listed with isOld | rfl
    · obtain ⟨source, isSource, isOf⟩ := groups.sources other (old other isOld)
      exact ⟨source, List.mem_append_left _ isSource, isOf⟩
    · exact ⟨row, List.mem_append_right _ List.mem_cons_self, isOf⟩

/-- A row that no range is of makes a range of its own. -/
theorem Groups.added (groups : Groups merge rows ranges)
    (none : ∀ range ∈ ranges, range.isOf row = false) :
    Groups merge (rows ++ [row])
      (ranges ++ [⟨row.start, row.finish, addGuard merge row.handler row.catchType []⟩]) := by
  -- The row has a range of its own, with bounds that are new.
  let added : ProtectedRange := ⟨row.start, row.finish, addGuard merge row.handler row.catchType []⟩
  have isOf : added.isOf row = true := by simp [added, ProtectedRange.isOf]
  have isNew : (row.start, row.finish) ∉ ranges.map (·.bounds) := by
    intro listed
    obtain ⟨range, isRange, same⟩ := List.mem_map.mp listed
    exact absurd (ProtectedRange.isOf_iff.mpr same) (Bool.eq_false_iff.mp (none range isRange))
  -- No earlier row has the bounds of the new range.
  have first : (rows ++ [row]).filter added.isOf = [row] := by
    rw [List.filter_append, List.filter_eq_nil_iff.mpr, List.nil_append]
    · simp [isOf]
    · intro other old isOf
      have same : (row.start, row.finish) = (other.start, other.finish) :=
        ProtectedRange.isOf_iff.mp isOf
      exact isNew (same ▸ groups.complete other old)
  -- The earlier ranges have no part in the row, and the new one has no part in the earlier rows.
  refine ⟨?_, fun other listed => ?_, fun other listed => ?_, fun other listed => ?_⟩
  · rw [List.map_append, List.map_singleton]
    refine List.nodup_append.mpr ⟨groups.distinct, by simp, fun a old b isAdded same => isNew ?_⟩
    rw [same, List.mem_singleton.mp isAdded] at old
    exact old
  · rw [List.map_append]
    rcases List.mem_append.mp listed with old | isRow
    · exact List.mem_append_left _ (groups.complete other old)
    · exact List.mem_append_right _ (by simp [List.mem_singleton.mp isRow, ProtectedRange.bounds])
  · rcases List.mem_append.mp listed with old | isAdded
    · exact groups.kept old (none other old)
    · cases List.mem_singleton.mp isAdded
      show added.guards = guardsOf merge ((rows ++ [row]).filter added.isOf)
      rw [first]
      rfl
  · rcases List.mem_append.mp listed with old | isAdded
    · obtain ⟨source, isSource, isOf⟩ := groups.sources other old
      exact ⟨source, List.mem_append_left _ isSource, isOf⟩
    · cases List.mem_singleton.mp isAdded
      exact ⟨row, List.mem_append_right _ List.mem_cons_self, isOf⟩

/-- The rows of a table are held by the ranges that they make one after the other. -/
theorem groups_foldl_addRow (merge : Bool) (rows : List ExceptionRow) :
    Groups merge rows (rows.foldl (fun ranges row => addRow merge row ranges) []) := by
  -- Rows are added in their order, so the last one is added to the ranges of those before it.
  induction rows using List.reverseRecOn with
  | nil =>
    exact ⟨List.nodup_nil, fun _ impossible => (nomatch impossible),
      fun _ impossible => (nomatch impossible), fun _ impossible => (nomatch impossible)⟩
  | append_singleton rows row ih =>
    rw [List.foldl_append, List.foldl_cons, List.foldl_nil]
    obtain ⟨front, range, back, parts, isOf, made⟩ | ⟨none, made⟩ := addRow_cases merge row
      (rows.foldl (fun ranges row => addRow merge row ranges) [])
    · rw [made]
      exact (parts ▸ ih).taken isOf
    · rw [made]
      exact ih.added none

/-- Folding and sorting only drop and move the ranges that rows make. -/
theorem ProtectedRange.mem_foldl_addRow_of_mem_ofTable {table : List ExceptionRow}
    {options : BuildOptions} {range : ProtectedRange} (listed : range ∈ ofTable table options) :
    range ∈ (table.filter (!·.coversHandler)).foldl (fun ranges row =>
      addRow options.mergeCatches row ranges) [] := by
  rw [ofTable, List.mem_mergeSort] at listed
  split at listed
  · exact (List.mem_filter.mp listed).1
  · exact listed

/-- The guards of a protected range are those that its rows make. -/
theorem ProtectedRange.guards_eq_of_mem_ofTable {table : List ExceptionRow} {options : BuildOptions}
    {range : ProtectedRange} (listed : range ∈ ofTable table options) :
    range.guards = guardsOf options.mergeCatches (range.rows table) :=
  (groups_foldl_addRow options.mergeCatches _).guards range (mem_foldl_addRow_of_mem_ofTable listed)

end Groups

section Catching

variable {merge : Bool} {rows : List ExceptionRow} {matching : PoolIndex → Bool}

/-- Some row catches an exception exactly when some row has a guard that does. -/
theorem isSome_find?_isGuarded :
    (rows.find? (·.isGuarded merge rows matching)).isSome =
      (rows.find? (·.catches matching)).isSome := by
  -- A guard catches for some row, and that row catches for itself.
  rw [Bool.eq_iff_iff, List.find?_isSome, List.find?_isSome]
  constructor
  · rintro ⟨row, listed, guarded⟩
    rcases Bool.or_eq_true_iff.mp guarded with catching | shared
    · exact ⟨row, listed, catching⟩
    · obtain ⟨other, isOther, both⟩ := List.any_eq_true.mp (Bool.and_eq_true_iff.mp shared).2
      exact ⟨other, isOther, (Bool.and_eq_true_iff.mp both).2⟩
  · rintro ⟨row, listed, catching⟩
    exact ⟨row, listed, by simp [ExceptionRow.isGuarded, catching]⟩

/-- The first row whose guard catches is the first row that catches, or stands before it. -/
theorem eq_or_mem_of_find?_isGuarded {first row : ExceptionRow} {before after : List ExceptionRow}
    (isFirst : rows.find? (·.isGuarded merge rows matching) = some first)
    (parts : rows = before ++ row :: after) (catching : row.catches matching = true) :
    first = row ∨ first ∈ before := by
  obtain ⟨-, front, back, split, notFront⟩ := List.find?_eq_some_iff_append.mp isFirst
  have guarded : row.isGuarded merge rows matching = true := by
    simp [ExceptionRow.isGuarded, catching]
  -- The two ways to cut the rows are compared: one of the fronts begins the other.
  rcases List.append_eq_append_iff.mp (parts.symm.trans split)
    with ⟨gap, isFront, rest⟩ | ⟨gap, isBefore, rest⟩
  · cases gap with
    | nil => exact .inl (List.cons.inj rest).1.symm
    | cons next others =>
      -- The row that catches cannot stand before the first one whose guard does.
      have isRow : row ∈ front := by
        rw [isFront, (List.cons.inj rest).1]
        exact List.mem_append_right _ List.mem_cons_self
      exact absurd guarded (by simpa using notFront row isRow)
  · cases gap with
    | nil => exact .inl (List.cons.inj rest).1
    | cons next others =>
      rw [isBefore, (List.cons.inj rest).1]
      exact .inr (List.mem_append_right _ List.mem_cons_self)

/-- The first row whose guard catches has the handler of the first row that does,
or a handler that overtakes it. -/
theorem handler_eq_or_overtakes {first row : ExceptionRow}
    (isFirst : rows.find? (·.isGuarded merge rows matching) = some first)
    (isRow : rows.find? (·.catches matching) = some row) :
    first.handler = row.handler ∨ merge = true ∧ Overtakes rows matching first.handler := by
  obtain ⟨catching, before, after, parts, notBefore⟩ := List.find?_eq_some_iff_append.mp isRow
  have silent : ∀ other ∈ before, other.catches matching = false := fun other listed => by
    simpa using notBefore other listed
  rcases eq_or_mem_of_find?_isGuarded isFirst parts catching with rfl | earlier
  · exact .inl rfl
  -- The guard of a row before the first one that catches does so for a later row.
  have guarded := List.find?_some isFirst
  rw [ExceptionRow.isGuarded, silent first earlier, Bool.false_or, Bool.and_eq_true_iff,
    List.any_eq_true] at guarded
  obtain ⟨merged, later, listed, both⟩ := guarded
  simp only [ExceptionRow.shares, Bool.and_eq_true, beq_iff_eq] at both
  obtain ⟨⟨⟨hasClass, laterHasClass⟩, sameHandler⟩, laterCatches⟩ := both
  by_cases same : first.handler = row.handler
  · exact .inl same
  refine .inr ⟨merged, before, row, after, parts, silent, catching, Ne.symm same,
    ⟨first, earlier, rfl, hasClass⟩, later, ?_, sameHandler.symm, laterHasClass, laterCatches⟩
  -- That row stands after the first one that catches, having another handler.
  rw [parts, List.mem_append, List.mem_cons] at listed
  rcases listed with inBefore | rfl | inAfter
  · exact absurd laterCatches (Bool.eq_false_iff.mp (silent later inBefore))
  · exact absurd sameHandler same
  · exact inAfter

/-- The first guard of a protected range that catches is that of the first row
in the range whose guard does. -/
theorem ProtectedRange.catchingGuard?_eq {table : List ExceptionRow} {options : BuildOptions}
    {range : ProtectedRange} (listed : range ∈ ofTable table options)
    (matching : PoolIndex → Bool) : range.catchingGuard? matching =
      ((range.rows table).find? (·.isGuarded options.mergeCatches (range.rows table) matching)).map
        (·.handler) := by
  -- After the last row there is none to come.
  have found := find?_guardsOf options.mergeCatches matching (range.rows table) fun _ => false
  simp only [Guard.willCatch, ExceptionRow.willCatch, Bool.and_false, Bool.or_false] at found
  rw [catchingGuard?, guards_eq_of_mem_ofTable listed, found]

/-- A protected range has a guard for an exception exactly when the table has a row for it in the
range. The first such guard is that of the first row that catches the exception itself or shares its
guard with a row that does. Its handler is the one of the first row that catches the exception,
unless guards are shared and it overtakes that row. -/
theorem catchingGuard?_of_mem_ofTable {table : List ExceptionRow} {options : BuildOptions}
    {range : ProtectedRange} (listed : range ∈ ProtectedRange.ofTable table options)
    (matching : PoolIndex → Bool) :
    ((range.catchingGuard? matching).isSome = (catchingRow? (range.rows table) matching).isSome) ∧
    (range.catchingGuard? matching =
      ((range.rows table).find? (·.isGuarded options.mergeCatches (range.rows table) matching)).map
        (·.handler)) ∧
    (range.catchingGuard? matching = catchingRow? (range.rows table) matching ∨
      options.mergeCatches = true ∧
      ∃ handler, range.catchingGuard? matching = some handler ∧
      Overtakes (range.rows table) matching handler) := by
  -- Both searches find a row or neither does; where they do, the two rows are compared.
  have either :
      ((range.rows table).find?
        (·.isGuarded options.mergeCatches (range.rows table) matching)).isSome =
      ((range.rows table).find? (·.catches matching)).isSome := isSome_find?_isGuarded
  rw [ProtectedRange.catchingGuard?_eq listed, catchingRow?]
  refine ⟨by simpa using either, rfl, ?_⟩
  cases isRow : (range.rows table).find? (·.catches matching) with
  | none =>
    rw [isRow, Option.isSome_none, Option.isSome_eq_false_iff, Option.isNone_iff_eq_none] at either
    rw [either]
    exact .inl rfl
  | some row =>
    rw [isRow, Option.isSome_some, Option.isSome_iff_exists] at either
    obtain ⟨first, isFirst⟩ := either
    rw [isFirst]
    refine (handler_eq_or_overtakes isFirst isRow).imp (fun same => ?_)
      fun ⟨merged, overtakes⟩ => ?_
    · exact congrArg some same
    · exact ⟨merged, first.handler, rfl, overtakes⟩

/-- Rows of one range that name the classes 5 and 7 for the handler at 2 and,
between them, the class 6 for that at 3. -/
def interleavedRows : List ExceptionRow := [⟨0, 1, 2, some 5⟩, ⟨0, 1, 3, some 6⟩, ⟨0, 1, 2, some 7⟩]

/-- An exception of the classes 6 and 7 comes to the handler at 2, as the row for 7
has joined the guard for 5. -/
theorem interleavedRows_overtaken : ∃ range ∈ ProtectedRange.ofTable interleavedRows {},
    ∃ handler, range.catchingGuard? (fun type => type = 6 || type = 7) = some handler ∧
      Overtakes (range.rows interleavedRows) (fun type => type = 6 || type = 7) handler := by
  have listed : (⟨0, 1, [⟨2, [5, 7]⟩, ⟨3, [6]⟩]⟩ : ProtectedRange) ∈
      ProtectedRange.ofTable interleavedRows {} := by
    decide +kernel
  obtain ⟨-, -, kept | ⟨-, overtaken⟩⟩ :=
    catchingGuard?_of_mem_ofTable listed fun type => type = 6 || type = 7
  · exact absurd kept (by decide)
  · exact ⟨_, listed, overtaken⟩

/-- The handler that an exception comes to is not always that of the first row that catches it. -/
theorem exists_overtaken_row :
    ∃ table, ∃ range ∈ ProtectedRange.ofTable table {}, ∃ matching : PoolIndex → Bool,
    range.catchingGuard? matching = some 2 ∧ catchingRow? (range.rows table) matching = some 3 :=
  ⟨interleavedRows, ⟨0, 1, [⟨2, [5, 7]⟩, ⟨3, [6]⟩]⟩,
    by decide +kernel, fun type => type = 6 || type = 7, by decide, by decide⟩

end Catching

end Unjump
