import Unjump.IdSet

/-! Marks on the numbers below a bound, which a search sets one by one. -/

namespace Unjump

/-- A flag for every number below a bound. -/
structure Marks where
  flags : Array Bool
deriving DecidableEq, Inhabited, Repr

namespace Marks

/-- The number that all flagged numbers lie below. -/
def bound (m : Marks) : Nat := m.flags.size

/-- Whether a number is marked. One that has no flag counts as marked,
so that no search enters it. -/
def has (m : Marks) (i : Nat) : Bool := m.flags.getD i true

/-- Marks a number. -/
def mark (m : Marks) (i : Nat) : Marks := ⟨m.flags.setIfInBounds i true⟩

/-- The marks on the members of a set. -/
def ofIdSet (s : IdSet) (bound : Nat) : Marks := ⟨(Array.range bound).map s.contains⟩

/-- The marked numbers below the bound. -/
def toIdSet (m : Marks) : IdSet :=
  ⟨(List.range m.bound).filter m.has, List.pairwise_lt_range.filter _⟩

/-- How many numbers are not marked. -/
def blanks (m : Marks) : Nat := (List.range m.bound).countP fun i => !m.has i

/-- Marking a number keeps the bound. -/
@[simp] theorem bound_mark {m : Marks} {i : Nat} : (m.mark i).bound = m.bound := by
  simp [bound, mark]

/-- The marks on a set have the bound that they are made with. -/
@[simp] theorem bound_ofIdSet {s : IdSet} {n : Nat} : (ofIdSet s n).bound = n := by
  simp [bound, ofIdSet]

/-- Only numbers below the bound can lack a mark. -/
theorem lt_bound_of_not_has {m : Marks} {i : Nat} (blank : m.has i = false) : i < m.bound := by
  -- A number beyond the bound counts as marked.
  apply Nat.lt_of_not_le
  intro beyond
  simp [has, Array.getD_eq_getD_getElem?, Array.getElem?_eq_none beyond] at blank

/-- Marking a number sets its mark and leaves all others alone. -/
@[simp] theorem has_mark {m : Marks} {i j : Nat} : (m.mark i).has j = (m.has j || j == i) := by
  by_cases inside : i < m.flags.size
  · by_cases here : j = i
    · simp [has, mark, here, inside, Array.getD_eq_getD_getElem?]
    · simp [has, mark, here, Ne.symm here, Array.getD_eq_getD_getElem?]
  · -- A number without a flag counts as marked before and after.
    have same : m.flags.setIfInBounds i true = m.flags := by
      rw [Array.setIfInBounds, dif_neg inside]
    by_cases here : j = i
    · simp [has, mark, same, here, Array.getD_eq_getD_getElem?,
        Array.getElem?_eq_none (Nat.le_of_not_lt inside)]
    · simp [has, mark, same, here]

/-- The marks on a set are its members and all numbers beyond the bound. -/
theorem has_ofIdSet {s : IdSet} {n i : Nat} : (ofIdSet s n).has i = true ↔ i ∈ s ∨ n ≤ i := by
  -- Below the bound the flags are those of the members.
  by_cases below : i < n
  · simp [has, ofIdSet, Array.getD_eq_getD_getElem?, below, Nat.not_le.mpr below]
  · simp [has, ofIdSet, Array.getD_eq_getD_getElem?, below, Nat.le_of_not_lt below]

/-- The set of the marks holds the marked numbers below the bound. -/
@[simp] theorem mem_toIdSet {m : Marks} {i : Nat} :
    i ∈ m.toIdSet ↔ i < m.bound ∧ m.has i = true := by
  simp [IdSet.mem_iff, toIdSet]

/-- No more numbers lack a mark than lie below the bound. -/
theorem blanks_le (m : Marks) : m.blanks ≤ m.bound := by
  simpa [blanks] using List.countP_le_length (p := fun i => !m.has i) (l := List.range m.bound)

/-- Marking a number that had no mark leaves fewer without. -/
theorem blanks_mark_lt {m : Marks} {i : Nat} (blank : m.has i = false) :
    (m.mark i).blanks < m.blanks := by
  -- The marked number no longer counts, and all others count as before.
  have fewer := @countP_without_lt (fun j => !m.has j) i (List.range m.bound)
    (List.mem_range.mpr (lt_bound_of_not_has blank)) (by simp [blank])
  simpa [blanks, Bool.not_or, bne] using fewer

end Marks

end Unjump
