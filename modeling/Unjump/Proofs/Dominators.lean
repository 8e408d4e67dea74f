import Mathlib.Algebra.Order.BigOperators.Group.List
import Mathlib.Algebra.Order.Ring.Nat
import Unjump.Proofs.Path

/-!
The table of dominators holds the immediate dominators.

Every table on the way is sound: what lies on every path to a block lies on every path to the block
above it, so the climb from a block passes all its dominators. When all blocks stay where they are,
the climb passes nothing else. That state is reached, since a block that
is lifted comes closer to the entry.
-/

namespace Unjump

namespace Graph

/-- Whether every path from the entry to the second block passes the first. -/
def OnEveryPath (g : Graph) (d b : BlockId) : Prop := ∀ passed, g.Path b passed → d ∈ passed

/-- Whether the first block is the immediate dominator of the second: it lies on every path there,
and after everything else that does. -/
structure IsImmediate (g : Graph) (a b : BlockId) : Prop where
  other : a ≠ b
  always : g.OnEveryPath a b
  closest : ∀ d ≠ b, g.OnEveryPath d b → g.OnEveryPath d a

/-- What lies on every path to a block lies on every path to the blocks that lead there. -/
theorem OnEveryPath.back {g : Graph} {d source target : BlockId} (always : g.OnEveryPath d target)
    (other : d ≠ target) (leads : g.Leads source target) (known : target < g.size) :
    g.OnEveryPath d source := by
  -- A path to the source goes on to the target.
  intro passed path
  exact (List.mem_cons.mp (always _ (path.step leads known))).resolve_left other

end Graph

namespace Dominators

open Unjump.Graph (start)

variable {g : Graph} {rows : List (BlockId × BlockId)} {a b d id above : BlockId}

/--
The rows of a table that can be climbed without passing a dominator by.

Every block but the entry hangs below one that was found before it. No block lies on every path to
one that was found before it, and what lies on every path to a block lies on every path to the block
above it.
-/
inductive Sound (g : Graph) : List (BlockId × BlockId) → Prop
  | none : Sound g []
  | entry (inside : start < g.size) : Sound g [(start, start)]
  | found {id above : BlockId} {rows : List (BlockId × BlockId)} (sound : Sound g rows)
      (inside : id < g.size) (new : id ∉ rows.map Prod.fst) (known : above ∈ rows.map Prod.fst)
      (first : ∀ earlier ∈ rows.map Prod.fst, ¬ g.OnEveryPath id earlier)
      (passes : ∀ d ≠ id, g.OnEveryPath d id → g.OnEveryPath d above) :
      Sound g ((id, above) :: rows)

section Climb

/-- The climb from the first row goes on with the block above it. -/
@[simp] theorem climb_self : climb ((b, above) :: rows) b = b :: climb rows above := by
  simp [climb]

/-- The climb passes over the rows of other blocks. -/
theorem climb_of_ne (other : id ≠ b) : climb ((id, above) :: rows) b = climb rows b := by
  simp [climb, other]

/-- A climb passes blocks of the table only. -/
theorem mem_of_mem_climb (passed : a ∈ climb rows b) : a ∈ rows.map Prod.fst := by
  -- By induction on the rows: the first one is climbed from or passed over.
  induction rows generalizing b with
  | nil => cases passed
  | cons row rows ih =>
    obtain ⟨id, above⟩ := row
    by_cases here : id = b
    · subst here
      rw [climb_self, List.mem_cons] at passed
      exact List.mem_cons.mpr (passed.imp_right ih)
    · rw [climb_of_ne here] at passed
      exact List.mem_cons_of_mem _ (ih passed)

/-- Only the blocks of a table have a climb. -/
theorem mem_of_climb_ne_nil (climbs : climb rows b ≠ []) : b ∈ rows.map Prod.fst := by
  -- A climb starts at the row of its block.
  induction rows with
  | nil => exact absurd rfl climbs
  | cons row rows ih =>
    obtain ⟨id, above⟩ := row
    by_cases here : id = b
    · exact here ▸ List.mem_cons_self
    · rw [climb_of_ne here] at climbs
      exact List.mem_cons_of_mem _ (ih climbs)

/-- A climb passes the block that it starts from. -/
theorem mem_climb_self (known : b ∈ rows.map Prod.fst) : b ∈ climb rows b := by
  -- The rows before that of the block are passed over.
  induction rows with
  | nil => cases known
  | cons row rows ih =>
    obtain ⟨id, above⟩ := row
    by_cases here : id = b
    · subst here
      simp
    · rw [climb_of_ne here]
      exact ih ((List.mem_cons.mp known).resolve_left (Ne.symm here))

/-- The block in a row hangs below a block of the table. -/
theorem Sound.above_mem (sound : Sound g rows) (row : (id, above) ∈ rows) :
    above ∈ rows.map Prod.fst := by
  -- By induction on the rows, in the order in which they were found.
  induction sound with
  | none => cases row
  | entry => simp_all
  | found _ _ _ known _ _ ih =>
    rcases List.mem_cons.mp row with same | earlier
    · cases same
      exact List.mem_cons_of_mem _ known
    · exact List.mem_cons_of_mem _ (ih earlier)

/-- The block above another one is a different block, the entry apart. -/
theorem Sound.above_ne (sound : Sound g rows) (row : (id, above) ∈ rows) (notStart : id ≠ start) :
    above ≠ id := by
  -- The block above was found before, while the block of a new row was not.
  induction sound with
  | none => cases row
  | entry => simp_all
  | found _ _ new known _ _ ih =>
    rcases List.mem_cons.mp row with same | earlier
    · cases same
      exact fun same => new (same ▸ known)
    · exact ih earlier

/-- The blocks of a table are blocks of the graph. -/
theorem Sound.lt_size (sound : Sound g rows) (known : b ∈ rows.map Prod.fst) : b < g.size := by
  -- Only blocks of the graph are found.
  induction sound with
  | none => cases known
  | entry inside => simp_all
  | found _ inside _ _ _ _ ih => exact (List.mem_cons.mp known).elim (· ▸ inside) ih

/-- A table that has rows has one for the entry. -/
theorem Sound.start_mem (sound : Sound g rows) (known : b ∈ rows.map Prod.fst) :
    start ∈ rows.map Prod.fst := by
  -- The block above a new row has a row, and so has the entry.
  induction sound generalizing b with
  | none => cases known
  | entry => simp
  | found _ _ _ above _ _ ih => exact List.mem_cons_of_mem _ (ih above)

/-- A block that hangs below another one is not the entry, which was found first. -/
theorem Sound.ne_start (sound : Sound g rows) (new : id ∉ rows.map Prod.fst)
    (known : above ∈ rows.map Prod.fst) : id ≠ start := by
  intro same
  exact new (same ▸ sound.start_mem known)

/-- The climb from the entry ends there. -/
theorem Sound.climb_start (sound : Sound g rows) (known : start ∈ rows.map Prod.fst) :
    climb rows start = [start] := by
  -- No later row is one for the entry.
  induction sound with
  | none => cases known
  | entry => simp [climb]
  | found sound _ new above _ _ ih =>
    rw [climb_of_ne (sound.ne_start new above)]
    exact ih (sound.start_mem above)

/-- The climb from any other block is the block and the climb from the block above it. -/
theorem Sound.climb_eq_cons (sound : Sound g rows) (row : (b, above) ∈ rows)
    (notStart : b ≠ start) : climb rows b = b :: climb rows above := by
  -- By induction on the rows; the new one is climbed from or passed over.
  induction sound with
  | none => cases row
  | entry => simp_all
  | @found id up rows sound _ new known _ _ ih =>
    -- The new row is passed over by climbs from the blocks found before.
    have skipped : ∀ {c}, c ∈ rows.map Prod.fst → climb ((id, up) :: rows) c = climb rows c :=
      fun listed => climb_of_ne fun same => new (same ▸ listed)
    rcases List.mem_cons.mp row with same | earlier
    · cases same
      rw [climb_self, skipped known]
    · rw [skipped (List.mem_map_of_mem earlier), skipped (sound.above_mem earlier)]
      exact ih earlier

/-- The climb from a block on a climb is the rest of that climb. -/
theorem Sound.climb_subset (sound : Sound g rows) (passed : a ∈ climb rows b) :
    climb rows a ⊆ climb rows b := by
  -- By induction on the rows, of which the new one is that of the lower block or is passed over.
  induction sound generalizing b with
  | none => cases passed
  | entry =>
    have same := List.mem_singleton.mp (mem_of_mem_climb passed)
    subst same
    intro c later
    rwa [List.mem_singleton.mp (mem_of_mem_climb later)]
  | @found id up rows sound _ new known _ _ ih =>
    have skipped : ∀ {c}, a ∈ climb rows c → climb ((id, up) :: rows) a = climb rows a :=
      fun later => climb_of_ne fun same => new (same ▸ mem_of_mem_climb later)
    by_cases here : id = b
    · subst here
      rw [climb_self] at passed ⊢
      rcases List.mem_cons.mp passed with rfl | later
      · rw [climb_self]
        exact List.Subset.refl _
      · rw [skipped later]
        exact List.subset_cons_of_subset _ (ih later)
    · rw [climb_of_ne here] at passed ⊢
      rw [skipped passed]
      exact ih passed

/-- A climb follows the order in which blocks were found, back to the first. -/
theorem Sound.idxOf_le (sound : Sound g rows) (passed : a ∈ climb rows b) :
    (rows.map Prod.fst).idxOf b ≤ (rows.map Prod.fst).idxOf a := by
  -- By induction on the rows: the first one is that of the lower block, or of neither.
  induction sound generalizing b with
  | none => cases passed
  | entry =>
    have here := List.mem_singleton.mp (mem_of_mem_climb passed)
    by_cases same : start = b <;> simp_all [climb]
  | @found id up rows sound _ new known _ _ ih =>
    rw [List.map_cons]
    by_cases here : id = b
    · simp [here]
    · -- Both blocks were found before the one of the first row.
      rw [climb_of_ne here] at passed
      have other : id ≠ a := fun same => new (same ▸ mem_of_mem_climb passed)
      rw [List.idxOf_cons_ne _ here, List.idxOf_cons_ne _ other]
      exact Nat.succ_le_succ (ih passed)

/-- The climb from a block passes all that lies on every path to it. -/
theorem Sound.mem_climb (sound : Sound g rows) (known : b ∈ rows.map Prod.fst)
    (always : g.OnEveryPath d b) : d ∈ climb rows b := by
  -- By induction on the rows, where the block above hands on what lies on every path.
  induction sound generalizing b with
  | none => cases known
  | entry inside =>
    -- There is a path to the entry that passes nothing else.
    obtain rfl := List.mem_singleton.mp known
    rw [climb_self, List.mem_singleton.mp (always _ (.entry inside))]
    exact List.mem_cons_self
  | @found id up rows sound _ new above first passes ih =>
    by_cases here : id = b
    · subst here
      rw [climb_self]
      by_cases same : d = id
      · exact same ▸ List.mem_cons_self
      · exact List.mem_cons_of_mem _ (ih above (passes d same always))
    · rw [climb_of_ne here]
      exact ih ((List.mem_cons.mp known).resolve_left (Ne.symm here)) always

/-- What lies on every path to a block, itself apart, lies on every path to the block above it. -/
theorem Sound.passes (sound : Sound g rows) (row : (id, above) ∈ rows) (notStart : id ≠ start)
    (other : d ≠ id) (always : g.OnEveryPath d id) : g.OnEveryPath d above := by
  -- What the table asks of a row when it is added.
  induction sound with
  | none => cases row
  | entry => simp_all
  | found _ _ _ _ _ passes ih =>
    rcases List.mem_cons.mp row with same | earlier
    · cases same
      exact passes d other always
    · exact ih earlier

end Climb

section Meet

/-- Two climbs meet on both. -/
theorem Sound.meet_mem (sound : Sound g rows) (left : a ∈ rows.map Prod.fst)
    (right : b ∈ rows.map Prod.fst) :
    meet rows a b ∈ climb rows a ∧ meet rows a b ∈ climb rows b := by
  -- As the climbs go, along the rows.
  induction sound generalizing a b with
  | none => cases left
  | entry =>
    obtain rfl := List.mem_singleton.mp left
    obtain rfl := List.mem_singleton.mp right
    simp [meet]
  | @found id up rows sound _ new known _ _ ih =>
    rw [meet]
    split
    · next same =>
      subst same
      exact ⟨mem_climb_self left, mem_climb_self left⟩
    · next differ =>
      split
      -- The first row is that of one of the blocks, which climbs, or of neither.
      · next here =>
        subst here
        rw [climb_self, climb_of_ne differ]
        have right := (List.mem_cons.mp right).resolve_left (Ne.symm differ)
        exact (ih known right).imp_left (List.mem_cons_of_mem _)
      · next notLeft =>
        have left := (List.mem_cons.mp left).resolve_left (Ne.symm notLeft)
        rw [climb_of_ne notLeft]
        split
        · next here =>
          subst here
          rw [climb_self]
          exact (ih left known).imp_right (List.mem_cons_of_mem _)
        · next notRight =>
          rw [climb_of_ne notRight]
          exact ih left ((List.mem_cons.mp right).resolve_left (Ne.symm notRight))

/-- What lies on every path to two blocks lies on every path to where their climbs meet. -/
theorem Sound.meet_passes (sound : Sound g rows) (left : a ∈ rows.map Prod.fst)
    (right : b ∈ rows.map Prod.fst) (toLeft : g.OnEveryPath d a) (toRight : g.OnEveryPath d b) :
    g.OnEveryPath d (meet rows a b) := by
  -- As the climbs go: a block is left for the one above it, unless it is the other one.
  induction sound generalizing a b with
  | none => cases left
  | entry =>
    obtain rfl := List.mem_singleton.mp left
    obtain rfl := List.mem_singleton.mp right
    simpa [meet] using toLeft
  | @found id up rows sound _ new known first passes ih =>
    rw [meet]
    split
    · exact toLeft
    · next differ =>
      -- The block that climbs was found after the other, so it is not on every path to that.
      split
      · next here =>
        subst here
        have right := (List.mem_cons.mp right).resolve_left (Ne.symm differ)
        have other : d ≠ id := fun same => first b right (same ▸ toRight)
        exact ih known right (passes d other toLeft) toRight
      · next notLeft =>
        have left := (List.mem_cons.mp left).resolve_left (Ne.symm notLeft)
        split
        · next here =>
          subst here
          have other : d ≠ id := fun same => first a left (same ▸ toLeft)
          exact ih left known toLeft (passes d other toRight)
        · next notRight =>
          exact ih left ((List.mem_cons.mp right).resolve_left (Ne.symm notRight)) toLeft toRight

end Meet

section Lift

/-- A table stays sound if blocks are hung from blocks on the climb above them, with no dominator
passed by. -/
theorem Sound.map_above (sound : Sound g rows) (place : BlockId → BlockId → BlockId)
    (root : place start start = start)
    (stays : ∀ id above, (id, above) ∈ rows → place id above ∈ climb rows above)
    (passes : ∀ id above, (id, above) ∈ rows → id ≠ start → ∀ d ≠ id, g.OnEveryPath d id →
      g.OnEveryPath d (place id above)) :
    Sound g (rows.map fun (id, above) => (id, place id above)) := by
  -- By induction on the rows, which keep their order and their blocks.
  induction sound with
  | none => exact .none
  | entry inside => simpa [root] using Sound.entry inside
  | @found id up rows sound inside new known first _ ih =>
    have blocks : (rows.map fun (id, above) => (id, place id above)).map Prod.fst =
        rows.map Prod.fst := by
      simp [Function.comp_def]
    -- The climbs above all rows are climbs in the rows found before the first.
    have stays' : ∀ other above, (other, above) ∈ (id, up) :: rows → above ∈ rows.map Prod.fst →
        place other above ∈ climb rows above := fun block above row listed => by
      have climbs := stays block above row
      have other : id ≠ above := fun same => new (same ▸ listed)
      rwa [climb_of_ne other] at climbs
    refine .found (ih ?_ ?_) inside (blocks ▸ new) ?_ (blocks ▸ first) ?_
    · intro other above row
      exact stays' other above (List.mem_cons_of_mem _ row) (sound.above_mem row)
    · intro other above row
      exact passes other above (List.mem_cons_of_mem _ row)
    · rw [blocks]
      exact mem_of_mem_climb (stays' id up List.mem_cons_self known)
    · exact passes id up List.mem_cons_self (sound.ne_start new known)

/-- How far the blocks above the rows are from the entry, in the order of the rows, all together. -/
def distance (rows : List (BlockId × BlockId)) : Nat :=
  (rows.map fun row => rows.length - (rows.map Prod.fst).idxOf row.2).sum

/-- No block is further from the entry than there are rows. -/
theorem distance_le (rows : List (BlockId × BlockId)) :
    distance rows ≤ rows.length * rows.length := by
  -- Each summand is at most the number of rows.
  have bound := List.sum_le_card_nsmul
    (rows.map fun row => rows.length - (rows.map Prod.fst).idxOf row.2) rows.length
    fun far listed => by
      obtain ⟨row, -, rfl⟩ := List.mem_map.mp listed
      exact Nat.sub_le _ _
  simpa [distance] using bound

/-- Whether only blocks with a row are said to come before others, and those that lead to them. -/
def Precede (g : Graph) (rows : List (BlockId × BlockId)) (before : BlockId → List BlockId) :
    Prop :=
  ∀ id, ∀ source ∈ before id, source ∈ rows.map Prod.fst ∧ g.Leads source id

/-- What lifting makes of a table: one with the same blocks that is sound, and closer
to the entry if it differs. -/
structure Lifted (g : Graph) (rows lifted : List (BlockId × BlockId)) : Prop where
  sound : Sound g lifted
  blocks : lifted.map Prod.fst = rows.map Prod.fst
  closer : lifted = rows ∨ distance lifted < distance rows

/-- Lifting keeps the blocks of a table. -/
theorem blocks_lift (before : BlockId → List BlockId) :
    (lift rows before).map Prod.fst = rows.map Prod.fst := by
  simp [lift, Function.comp_def]

section Round

variable {before : BlockId → List BlockId} (sound : Sound g rows) (precede : Precede g rows before)

include sound

/-- The climbs from several blocks meet on all of them. -/
theorem Sound.foldl_meet_mem {sources : List BlockId}
    (known : ∀ source ∈ sources, source ∈ rows.map Prod.fst) (start : a ∈ rows.map Prod.fst) :
    sources.foldl (meet rows) a ∈ climb rows a ∧
      ∀ source ∈ sources, sources.foldl (meet rows) a ∈ climb rows source := by
  -- By induction on the blocks, of which two at a time are replaced by their meeting point.
  induction sources generalizing a with
  | nil => exact ⟨mem_climb_self start, fun _ none => nomatch none⟩
  | cons source sources ih =>
    -- The place that the first two blocks give climbs on to where all meet.
    obtain ⟨onStart, onSource⟩ := sound.meet_mem start (known source List.mem_cons_self)
    obtain ⟨higher, onRest⟩ := ih (fun other listed => known other (List.mem_cons_of_mem _ listed))
      (mem_of_mem_climb onStart)
    refine ⟨sound.climb_subset onStart higher, fun other listed => ?_⟩
    rcases List.mem_cons.mp listed with rfl | later
    · exact sound.climb_subset onSource higher
    · exact onRest other later

/-- What lies on every path to several blocks lies on every path to where their climbs meet. -/
theorem Sound.foldl_meet_passes {sources : List BlockId}
    (known : ∀ source ∈ sources, source ∈ rows.map Prod.fst) (start : a ∈ rows.map Prod.fst)
    (toStart : g.OnEveryPath d a) (toSources : ∀ source ∈ sources, g.OnEveryPath d source) :
    g.OnEveryPath d (sources.foldl (meet rows) a) := by
  -- By induction on the blocks as well; what two of them agree on, their meeting point has.
  induction sources generalizing a with
  | nil => exact toStart
  | cons source sources ih =>
    have listed := known source List.mem_cons_self
    refine ih (fun other later => known other (List.mem_cons_of_mem _ later))
      (mem_of_mem_climb (sound.meet_mem start listed).1) ?_
      fun other later => toSources other (List.mem_cons_of_mem _ later)
    exact sound.meet_passes start listed toStart (toSources source List.mem_cons_self)

include precede

/-- A block is lifted to where it climbs anyway. -/
theorem Sound.place_mem (row : (id, above) ∈ rows) :
    place rows before id above ∈ climb rows above := by
  -- The entry stays where it is, and any other block goes where climbs meet.
  rw [place]
  split
  · exact mem_climb_self (sound.above_mem row)
  · exact (sound.foldl_meet_mem (fun source listed => (precede id source listed).1)
      (sound.above_mem row)).1

/-- No block is lifted past what lies on every path to it. -/
theorem Sound.place_passes (row : (id, above) ∈ rows) (notStart : id ≠ start) (other : d ≠ id)
    (always : g.OnEveryPath d id) : g.OnEveryPath d (place rows before id above) := by
  have toAbove := sound.passes row notStart other always
  have inside := sound.lt_size (List.mem_map_of_mem row)
  rw [place, if_neg notStart]
  -- What lies on every path to the block lies on every path to those that lead there.
  exact sound.foldl_meet_passes (fun source listed => (precede id source listed).1)
    (sound.above_mem row) toAbove
    fun source listed => always.back other (precede id source listed).2 inside

/-- A block that is lifted comes closer to the entry. -/
theorem Sound.idxOf_lt (row : (id, above) ∈ rows) (moved : place rows before id above ≠ above) :
    (rows.map Prod.fst).idxOf above < (rows.map Prod.fst).idxOf (place rows before id above) := by
  -- It is lifted along a climb, and the blocks of a table have different positions.
  refine Nat.lt_of_le_of_ne (sound.idxOf_le (sound.place_mem precede row)) fun same => moved ?_
  exact ((List.idxOf_inj (sound.above_mem row)).mp same).symm

/-- A round keeps a table sound and brings it closer to the entry, if it changes anything. -/
theorem Sound.lifted : Lifted g rows (lift rows before) := by
  refine ⟨?_, blocks_lift before, ?_⟩
  · exact sound.map_above (place rows before) (by simp [place]) (fun _ _ => sound.place_mem precede)
      fun _ _ row notStart _ => sound.place_passes precede row notStart
  · -- The table is measured by its blocks, which stay in their order.
    have after : distance (lift rows before) = (rows.map fun row =>
        rows.length - (rows.map Prod.fst).idxOf (place rows before row.1 row.2)).sum := by
      rw [distance, blocks_lift, lift]
      simp [Function.comp_def]
    -- A block that moves comes closer, and all others stay or come closer too.
    by_cases moved : ∃ row ∈ rows, place rows before row.1 row.2 ≠ row.2
    · obtain ⟨row, listed, moved⟩ := moved
      rw [after]
      refine .inr (List.sum_lt_sum _ _ ?_ ⟨row, listed, ?_⟩)
      · intro other isRow
        exact Nat.sub_le_sub_left (sound.idxOf_le (sound.place_mem precede isRow)) _
      · -- The block that is lifted had room above it.
        have closer := sound.idxOf_lt precede listed moved
        have known := List.idxOf_lt_length_of_mem (sound.above_mem listed)
        rw [List.length_map] at known
        exact Nat.sub_lt_sub_left known closer
    · refine .inl ((List.map_congr_left fun row listed => ?_).trans (List.map_id _))
      have same : place rows before row.1 row.2 = row.2 :=
        Classical.not_not.mp fun differ => moved ⟨row, listed, differ⟩
      exact Prod.ext rfl same

end Round

/-- Lifting once and again is lifting. -/
theorem Lifted.trans {first second : List (BlockId × BlockId)} (once : Lifted g rows first)
    (again : Lifted g first second) : Lifted g rows second := by
  -- The second change starts from what the first one has made.
  refine ⟨again.sound, again.blocks.trans once.blocks, ?_⟩
  rcases again.closer with rfl | closer
  · exact once.closer
  · rcases once.closer with rfl | before
    · exact .inr closer
    · exact .inr (closer.trans before)

/-- With as many rounds as the distance to the entry, the blocks
are lifted until all stay where they are. -/
theorem Sound.settled {before : BlockId → List BlockId} (rounds : Nat) :
    ∀ {rows : List (BlockId × BlockId)}, Sound g rows → Precede g rows before →
      distance rows ≤ rounds → Lifted g rows (settleFor before rounds rows) ∧
        lift (settleFor before rounds rows) before = settleFor before rounds rows := by
  -- By induction on the rounds: one that changes the table lowers the distance.
  induction rounds with
  | zero =>
    intro rows sound precede near
    have lifted := sound.lifted precede
    exact ⟨⟨sound, rfl, .inl rfl⟩, lifted.closer.resolve_right fun closer => by omega⟩
  | succ rounds ih =>
    intro rows sound precede near
    have lifted := sound.lifted precede
    rw [settleFor]
    split
    · next same => exact ⟨⟨sound, rfl, .inl rfl⟩, same⟩
    · next changed =>
      have closer := lifted.closer.resolve_left changed
      have precede' : Precede g (lift rows before) before := fun id source listed => by
        rw [lifted.blocks]
        exact precede id source listed
      obtain ⟨again, settled⟩ := ih lifted.sound precede' (by omega)
      exact ⟨lifted.trans again, settled⟩

end Lift

section Search

/-- What holds of a search on its way: its rows are sound, the marks are on their blocks, the work
list leads on from them, and a path within them leads to each. -/
structure Grown (g : Graph) (work : List (BlockId × BlockId)) (marks : Marks)
    (rows : List (BlockId × BlockId)) : Prop where
  sound : Sound g rows
  marked : ∀ id, marks.has id = true ↔ id ∈ rows.map Prod.fst ∨ g.size ≤ id
  listed : (rows = [] ∧ work = [(start, start)]) ∨
    ∀ found ∈ work, found.2 ∈ rows.map Prod.fst ∧ g.Leads found.2 found.1
  paths : ∀ b ∈ rows.map Prod.fst, ∃ passed, g.Path b passed ∧ passed ⊆ rows.map Prod.fst

/-- The search starts with the entry. -/
theorem Grown.initial (g : Graph) : Grown g [(start, start)] (.ofIdSet ∅ g.size) [] where
  sound := .none
  marked id := by simp [Marks.has_ofIdSet, IdSet.not_mem_empty]
  listed := .inl ⟨rfl, rfl⟩
  paths _ none := nomatch none

variable {work later : List (BlockId × BlockId)} {marks : Marks}

/-- A round of the search adds a sound row, and a path leads to the block that it finds. -/
theorem Grown.found (grown : Grown g work marks rows)
    (rest : work.dropWhile (fun found => marks.has found.1) = (id, above) :: later) :
    Sound g ((id, above) :: rows) ∧
      (∃ passed, g.Path id passed ∧ passed ⊆ id :: rows.map Prod.fst) ∧
      ∀ found ∈ later, found.2 ∈ rows.map Prod.fst ∧ g.Leads found.2 found.1 := by
  -- The block taken from the list has no mark, so it has no row and is a block of the graph.
  have blank : marks.has id = false := by
    have first := List.head?_dropWhile_not (fun found : BlockId × BlockId => marks.has found.1) work
    rw [rest] at first
    simpa using first
  obtain ⟨new, inside⟩ : id ∉ rows.map Prod.fst ∧ id < g.size := by
    have unmarked := mt (grown.marked id).mpr (by simp [blank])
    exact ⟨fun listed => unmarked (.inl listed),
      Nat.lt_of_not_le fun beyond => unmarked (.inr beyond)⟩
  rcases grown.listed with ⟨none, first⟩ | listed
  · -- The first round finds the entry.
    rw [first, List.dropWhile_cons] at rest
    split at rest
    · cases rest
    · cases rest
      rw [none]
      exact ⟨.entry inside, ⟨_, .entry inside, by simp⟩, fun _ none => nomatch none⟩
  · have isListed : ∀ found ∈ (id, above) :: later, found ∈ work := fun found member =>
      (List.dropWhile_sublist _).subset (rest ▸ member)
    obtain ⟨known, leads⟩ := listed _ (isListed _ List.mem_cons_self)
    refine ⟨grown.sound.found inside new known ?_ ?_, ?_, ?_⟩
    · -- The paths found so far do not pass the new block.
      intro earlier isEarlier always
      obtain ⟨passed, path, within⟩ := grown.paths earlier isEarlier
      exact new (within (always passed path))
    · exact fun d other always => always.back other leads inside
    · obtain ⟨passed, path, within⟩ := grown.paths above known
      exact ⟨_, path.step leads inside, List.cons_subset_cons _ within⟩
    · exact fun found member => listed found (isListed found (List.mem_cons_of_mem _ member))

/-- A round of the search keeps what holds of it. -/
theorem Grown.step (grown : Grown g work marks rows)
    (rest : work.dropWhile (fun found => marks.has found.1) = (id, above) :: later) :
    Grown g ((g.successors.getD id []).map (·, id) ++ later) (marks.mark id)
      ((id, above) :: rows) := by
  obtain ⟨sound, path, leads⟩ := grown.found rest
  -- The new mark is on the new block, whose successors lead on from it.
  refine ⟨sound, fun other => ?_, .inr ?_, ?_⟩
  · rw [Marks.has_mark, Bool.or_eq_true, grown.marked, beq_iff_eq, List.map_cons, List.mem_cons]
    exact or_right_comm.trans (or_congr_left or_comm)
  · intro found listed
    rcases List.mem_append.mp listed with new | old
    · obtain ⟨target, isNext, rfl⟩ := List.mem_map.mp new
      exact ⟨List.mem_cons_self, Graph.mem_successors.mp isNext⟩
    · exact ⟨List.mem_cons_of_mem _ (leads found old).1, (leads found old).2⟩
  · -- A path found before is within the rows still.
    intro b known
    rcases List.mem_cons.mp known with rfl | earlier
    · exact path
    · obtain ⟨passed, path, within⟩ := grown.paths b earlier
      exact ⟨passed, path, List.subset_cons_of_subset _ within⟩

/-- A search gives a sound table of the blocks that the plain search marks. -/
theorem Grown.searched (rounds : Nat) : ∀ {work : List (BlockId × BlockId)} {marks : Marks}
    {rows : List (BlockId × BlockId)}, Grown g work marks rows →
      Sound g (growFor (g.successors.getD · []) rounds work marks rows) ∧
      ∀ id, (exploreFor (g.successors.getD · []) rounds (work.map Prod.fst) marks).has id = true ↔
        id ∈ (growFor (g.successors.getD · []) rounds work marks rows).map Prod.fst ∨
        g.size ≤ id := by
  -- Both searches take the same block in every round.
  induction rounds with
  | zero => exact fun grown => ⟨grown.sound, grown.marked⟩
  | succ rounds ih =>
    intro work marks rows grown
    rw [growFor, exploreFor, List.dropWhile_map]
    cases rest : work.dropWhile fun found => marks.has found.1 with
    | nil =>
      simp only [Function.comp_def, rest]
      exact ⟨grown.sound, grown.marked⟩
    | cons found later =>
      have next := ih (grown.step rest)
      rw [List.map_append, List.map_map] at next
      simpa [Function.comp_def, rest] using next

/-- What the search finds makes a sound table. -/
theorem sound_searchTree (g : Graph) : Sound g (searchTree g) :=
  ((Grown.initial g).searched g.size).1

/-- The search finds the blocks within reach. -/
theorem mem_searchTree : b ∈ (searchTree g).map Prod.fst ↔ b ∈ g.reachable := by
  -- The plain search marks the blocks that have a row.
  have same := ((Grown.initial g).searched g.size).2 b
  rw [Graph.reachable, explore, Marks.mem_toIdSet, bound_exploreFor, Marks.bound_ofIdSet]
  constructor
  · intro known
    exact ⟨(sound_searchTree g).lt_size known, same.mpr (.inl known)⟩
  · rintro ⟨inside, marked⟩
    exact (same.mp marked).resolve_right (Nat.not_le.mpr inside)

end Search

section Settled

/-- The sources of a block are the blocks with a row that lead to it. -/
theorem mem_sources {source : BlockId} :
    source ∈ sources g rows id ↔ source ∈ rows.map Prod.fst ∧ g.Leads source id := by
  rw [sources, List.mem_filter, List.contains_iff_mem, Graph.mem_successors]

/-- In the table of a graph all blocks stay where they are. -/
theorem settled_ofGraph (g : Graph) : Lifted g (searchTree g) (ofGraph g).rows ∧
    lift (ofGraph g).rows (sources g (searchTree g)) = (ofGraph g).rows :=
  Sound.settled _ (sound_searchTree g) (fun _ _ => mem_sources.mp) (distance_le _)

/-- The table of a graph is sound. -/
theorem sound_ofGraph (g : Graph) : Sound g (ofGraph g).rows := (settled_ofGraph g).1.sound

/-- The table of a graph holds the blocks within reach. -/
theorem mem_ofGraph : b ∈ (ofGraph g).rows.map Prod.fst ↔ b ∈ g.reachable := by
  rw [(settled_ofGraph g).1.blocks, mem_searchTree]

/-- Every block within reach has a row. -/
theorem exists_row (reachable : b ∈ g.reachable) : ∃ above, (b, above) ∈ (ofGraph g).rows := by
  -- The table has a row for each of its blocks.
  obtain ⟨⟨_, above⟩, row, rfl⟩ := List.mem_map.mp (mem_ofGraph.mpr reachable)
  exact ⟨above, row⟩

/-- The block above another one is on the climbs from all blocks that lead there. -/
theorem above_mem_climb {source : BlockId} (row : (id, above) ∈ (ofGraph g).rows)
    (notStart : id ≠ start) (reachable : source ∈ g.reachable) (leads : g.Leads source id) :
    above ∈ climb (ofGraph g).rows source := by
  have sound := sound_ofGraph g
  -- The block stays where it is, which is where those climbs meet.
  have stays : place (ofGraph g).rows (sources g (searchTree g)) id above = above := by
    have rows := (settled_ofGraph g).2.trans (List.map_id _).symm
    exact congrArg Prod.snd (List.map_inj_left.mp rows _ row)
  rw [place, if_neg notStart] at stays
  have isSource : source ∈ sources g (searchTree g) id :=
    mem_sources.mpr ⟨mem_searchTree.mpr reachable, leads⟩
  have known : ∀ other ∈ sources g (searchTree g) id, other ∈ (ofGraph g).rows.map Prod.fst :=
    fun other listed => mem_ofGraph.mpr (mem_searchTree.mp (mem_sources.mp listed).1)
  exact stays ▸ (sound.foldl_meet_mem known (sound.above_mem row)).2 source isSource

/-- The climb from a block passes only what lies on every path to it. -/
theorem onEveryPath_of_mem_climb (passed : a ∈ climb (ofGraph g).rows b) : g.OnEveryPath a b := by
  have sound := sound_ofGraph g
  -- By induction on the path: the climb goes on from a block on the climb from the one before.
  intro path isPath
  induction isPath with
  | entry inside =>
    have known := mem_ofGraph.mpr (Graph.mem_reachable_iff_path.mpr ⟨_, .entry inside⟩)
    rwa [sound.climb_start known] at passed
  | @step source target before isPath leads inside ih =>
    have reachable := Graph.mem_reachable_iff_path.mpr ⟨_, isPath⟩
    obtain ⟨above, row⟩ :=
      exists_row (Graph.mem_reachable_iff_path.mpr ⟨_, isPath.step leads inside⟩)
    by_cases same : target = start
    · subst same
      rw [sound.climb_start (List.mem_map_of_mem row), List.mem_singleton] at passed
      exact passed ▸ List.mem_cons_self
    · rw [sound.climb_eq_cons row same] at passed
      rcases List.mem_cons.mp passed with rfl | higher
      · exact List.mem_cons_self
      · have onClimb := sound.climb_subset (above_mem_climb row same reachable leads) higher
        exact List.mem_cons_of_mem _ (ih onClimb)

/-- The climb from a block within reach passes exactly what lies on every path to it. -/
theorem dominates_ofGraph :
    (ofGraph g).dominates a b = true ↔ b ∈ g.reachable ∧ g.OnEveryPath a b := by
  rw [dominates, List.contains_iff_mem]
  constructor
  · -- The climb starts at a block of the table.
    intro passed
    have known := mem_of_climb_ne_nil (List.ne_nil_of_mem passed)
    exact ⟨mem_ofGraph.mp known, onEveryPath_of_mem_climb passed⟩
  · rintro ⟨reachable, always⟩
    exact (sound_ofGraph g).mem_climb (mem_ofGraph.mpr reachable) always

/-- Above a block stands its immediate dominator. -/
theorem isImmediate_of_row (row : (b, above) ∈ (ofGraph g).rows) (notStart : b ≠ start) :
    g.IsImmediate above b := by
  have sound := sound_ofGraph g
  refine ⟨sound.above_ne row notStart, ?_, fun d other => sound.passes row notStart other⟩
  -- The climb from the block passes the one above it next.
  refine onEveryPath_of_mem_climb ?_
  rw [sound.climb_eq_cons row notStart]
  exact List.mem_cons_of_mem _ (mem_climb_self (sound.above_mem row))

end Settled

end Dominators

end Unjump
