/-! Finite sets of block numbers, kept as ascending lists so that equal sets are equal values. -/

namespace Unjump

/-- Puts a number into an ascending list, unless it is there already. -/
def insertAscending (i : Nat) : List Nat → List Nat
  | [] => [i]
  | j :: rest =>
    if i < j then i :: j :: rest else if i = j then j :: rest else j :: insertAscending i rest

/-- The list gains exactly the inserted number. -/
theorem mem_insertAscending {i j : Nat} {ids : List Nat} :
    j ∈ insertAscending i ids ↔ j ∈ ids ∨ j = i := by
  -- The number goes before the first larger one, unless it is met on the way.
  induction ids with
  | nil => simp [insertAscending]
  | cons k rest ih =>
    rw [insertAscending]
    split
    · simp only [List.mem_cons]
      exact or_comm
    · split
      · next same =>
        subst same
        simp only [List.mem_cons]
        exact ⟨.inl, fun either => either.elim id .inl⟩
      · simp only [List.mem_cons, ih]
        exact or_assoc.symm

/-- An insertion keeps the order. -/
theorem insertAscending_pairwise {i : Nat} {ids : List Nat} (ascending : ids.Pairwise (· < ·)) :
    (insertAscending i ids).Pairwise (· < ·) := by
  -- By induction on the list.
  induction ids with
  | nil => simp [insertAscending]
  | cons k rest ih =>
    obtain ⟨least, ordered⟩ := List.pairwise_cons.mp ascending
    rw [insertAscending]
    split
    · next below =>
      -- The number lies below the first member, hence below all of them.
      refine List.pairwise_cons.mpr ⟨fun j member => ?_, ascending⟩
      rcases List.mem_cons.mp member with rfl | later
      · exact below
      · exact Nat.lt_trans below (least j later)
    · split
      · exact ascending
      · next notBelow different =>
        -- The first member stays the least one.
        refine List.pairwise_cons.mpr ⟨fun j member => ?_, ih ordered⟩
        rcases mem_insertAscending.mp member with later | rfl
        · exact least j later
        · omega

/-- Fewer members of a list pass a test that one of them no longer passes. -/
theorem countP_without_lt {test : Nat → Bool} {i : Nat} {ids : List Nat} (listed : i ∈ ids)
    (passes : test i = true) : ids.countP (fun j => test j && j != i) < ids.countP test := by
  -- By induction on the list.
  induction ids with
  | nil => cases listed
  | cons j rest ih =>
    have fewer : rest.countP (fun j => test j && j != i) ≤ rest.countP test :=
      List.countP_mono_left fun k _ both => (Bool.and_eq_true_iff.mp both).1
    simp only [List.countP_cons]
    rcases List.mem_cons.mp listed with rfl | later
    · simp only [passes, bne_self_eq_false, Bool.and_false]
      simpa using Nat.lt_succ_of_le fewer
    · have := ih later
      cases test j <;> cases j != i <;> simp <;> omega

/-- A finite set of numbers, given by its members in ascending order. -/
structure IdSet where
  toList : List Nat
  ascending : toList.Pairwise (· < ·)
deriving DecidableEq, Repr

namespace IdSet

/-- The set without members. -/
def empty : IdSet := ⟨[], .nil⟩

instance : EmptyCollection IdSet := ⟨empty⟩

instance : Inhabited IdSet := ⟨empty⟩

/-- Whether a number is a member. -/
def contains (s : IdSet) (i : Nat) : Bool := s.toList.contains i

instance : Membership Nat IdSet := ⟨fun s i => s.contains i = true⟩

instance (i : Nat) (s : IdSet) : Decidable (i ∈ s) :=
  inferInstanceAs (Decidable (s.contains i = true))

/-- The set with one more member. -/
def insert (s : IdSet) (i : Nat) : IdSet :=
  ⟨insertAscending i s.toList, insertAscending_pairwise s.ascending⟩

/-- The members that satisfy a test. -/
def filter (s : IdSet) (test : Nat → Bool) : IdSet :=
  ⟨s.toList.filter test, s.ascending.filter test⟩

/-- The set without one number. -/
def erase (s : IdSet) (i : Nat) : IdSet := s.filter (· != i)

/-- The set of the numbers in a list. -/
def ofList (ids : List Nat) : IdSet := ids.foldl insert empty

/-- The members of either set. -/
def union (s t : IdSet) : IdSet := t.toList.foldl insert s

instance : Union IdSet := ⟨union⟩

/-- The members of the first set that are not in the second. -/
def diff (s t : IdSet) : IdSet := s.filter fun i => !t.contains i

instance : SDiff IdSet := ⟨diff⟩

/-- Whether every member of the first set is in the second. -/
def subset (s t : IdSet) : Bool := s.toList.all t.contains

/-- The number of members. -/
def size (s : IdSet) : Nat := s.toList.length

/-- Whether there are no members. -/
def isEmpty (s : IdSet) : Bool := s.toList.isEmpty

/-- The least member. -/
def min? (s : IdSet) : Option Nat := s.toList.head?

/-- Membership is that of the list. -/
theorem mem_iff {i : Nat} {s : IdSet} : i ∈ s ↔ i ∈ s.toList := List.contains_iff_mem

/-- The Boolean test decides membership. -/
@[simp] theorem contains_iff {i : Nat} {s : IdSet} : s.contains i = true ↔ i ∈ s := Iff.rfl

/-- The member list holds exactly the members. -/
@[simp] theorem mem_toList {i : Nat} {s : IdSet} : i ∈ s.toList ↔ i ∈ s := mem_iff.symm

/-- Ascending lists with the same members are the same list. -/
theorem eq_of_ascending {a b : List Nat} (left : a.Pairwise (· < ·)) (right : b.Pairwise (· < ·))
    (same : ∀ i, i ∈ a ↔ i ∈ b) : a = b := by
  -- By induction on the first list.
  induction a generalizing b with
  | nil =>
    cases b with
    | nil => rfl
    | cons j rest => exact absurd ((same j).mpr (.head _)) List.not_mem_nil
  | cons i a ih =>
    cases b with
    | nil => exact absurd ((same i).mp (.head _)) List.not_mem_nil
    | cons j b =>
      obtain ⟨leastLeft, restLeft⟩ := List.pairwise_cons.mp left
      obtain ⟨leastRight, restRight⟩ := List.pairwise_cons.mp right
      -- Each of the two first members is least among all, so they agree.
      have first : i = j := by
        rcases List.mem_cons.mp ((same i).mp (.head _)) with here | above
        · exact here
        · rcases List.mem_cons.mp ((same j).mpr (.head _)) with here | below
          · exact here.symm
          · have := leastLeft j below
            have := leastRight i above
            omega
      subst first
      -- What follows the first members has the same members again.
      congr 1
      apply ih restLeft restRight
      intro k
      constructor
      · intro member
        rcases List.mem_cons.mp ((same k).mp (.tail _ member)) with rfl | found
        · exact absurd (leastLeft k member) (Nat.lt_irrefl k)
        · exact found
      · intro member
        rcases List.mem_cons.mp ((same k).mpr (.tail _ member)) with rfl | found
        · exact absurd (leastRight k member) (Nat.lt_irrefl k)
        · exact found

/-- Two sets with the same members are the same set. -/
@[ext] theorem ext {s t : IdSet} (same : ∀ i, i ∈ s ↔ i ∈ t) : s = t := by
  -- A set is its list, as order is a proposition.
  have lists := eq_of_ascending s.ascending t.ascending fun i => by simpa using same i
  cases s with
  | mk a _ =>
    cases t with
    | mk b _ =>
      cases lists
      rfl

/-- The empty set has no members. -/
@[simp] theorem not_mem_empty (i : Nat) : i ∉ (∅ : IdSet) :=
  fun member => absurd (mem_iff.mp member) List.not_mem_nil

/-- The set gains exactly the inserted number. -/
@[simp] theorem mem_insert {i j : Nat} {s : IdSet} : j ∈ s.insert i ↔ j ∈ s ∨ j = i := by
  rw [mem_iff, mem_iff]
  exact mem_insertAscending

/-- The members are filtered by the test. -/
@[simp] theorem mem_filter {i : Nat} {s : IdSet} {test : Nat → Bool} :
    i ∈ s.filter test ↔ i ∈ s ∧ test i = true := by
  rw [mem_iff, mem_iff]
  exact List.mem_filter

/-- The set loses exactly the erased number. -/
@[simp] theorem mem_erase {i j : Nat} {s : IdSet} : j ∈ s.erase i ↔ j ∈ s ∧ j ≠ i := by
  simp [erase]

/-- Inserting one number after the other adds them all. -/
theorem mem_foldl_insert {i : Nat} {ids : List Nat} {s : IdSet} :
    i ∈ ids.foldl insert s ↔ i ∈ s ∨ i ∈ ids := by
  -- By induction on the numbers, into whatever set the ones before have made.
  induction ids generalizing s with
  | nil => simp
  | cons j rest ih =>
    simp only [List.foldl_cons, ih, mem_insert, List.mem_cons]
    exact or_assoc

/-- The members of a union are those of either set. -/
@[simp] theorem mem_union {i : Nat} {s t : IdSet} : i ∈ s ∪ t ↔ i ∈ s ∨ i ∈ t := by
  rw [mem_iff (s := t)]
  exact mem_foldl_insert

/-- The members of a difference are those of the first set that are not in the second. -/
@[simp] theorem mem_diff {i : Nat} {s t : IdSet} : i ∈ s \ t ↔ i ∈ s ∧ i ∉ t := by
  have kept : i ∈ s \ t ↔ i ∈ s ∧ (!t.contains i) = true := mem_filter
  simpa [Bool.eq_false_iff] using kept

/-- The set read off a list holds exactly the list's numbers. -/
@[simp] theorem mem_ofList {i : Nat} {ids : List Nat} : i ∈ ofList ids ↔ i ∈ ids :=
  mem_foldl_insert.trans (or_iff_right (not_mem_empty i))

/-- The subset test decides inclusion. -/
@[simp] theorem subset_iff {s t : IdSet} : s.subset t = true ↔ ∀ i ∈ s, i ∈ t := by
  simp [subset]

/-- How many numbers below a bound are outside the set. -/
def missing (s : IdSet) (bound : Nat) : Nat := (List.range bound).countP fun i => !s.contains i

/-- Adding a number below the bound leaves fewer numbers outside. -/
theorem missing_insert_lt {s : IdSet} {bound i : Nat} (new : i ∉ s) (below : i < bound) :
    (s.insert i).missing bound < s.missing bound := by
  -- Only the inserted number changes sides, and it did lie outside before.
  have outside : ∀ j, (!(s.insert i).contains j) = (!s.contains j && j != i) := by
    intro j
    have member : (s.insert i).contains j = (s.contains j || j == i) := by
      rw [Bool.eq_iff_iff, Bool.or_eq_true, beq_iff_eq]
      exact mem_insert
    rw [member, Bool.not_or]
    rfl
  simp only [missing, outside]
  exact countP_without_lt (List.mem_range.mpr below) (by simpa [Bool.eq_false_iff] using new)

end IdSet

end Unjump
