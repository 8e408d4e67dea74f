import Unjump.Proofs.Rewrite.Entry
import Unjump.Structuring

/-! Where a block is entered from several places or in a circle, one
of the entries can be turned into a jump. -/

namespace Unjump.Graph

variable {g : Graph} {id : BlockId} {preds : BlockId → List BlockId}

/-- A way backwards along single predecessors, with the blocks that it passes before its end. -/
inductive Trail (preds : BlockId → List BlockId) : BlockId → List BlockId → BlockId → Prop
  | last {a b} (single : preds a = [b]) : Trail preds a [a] b
  | step {a b c rest} (single : preds a = [b]) (trail : Trail preds b rest c) :
      Trail preds a (a :: rest) c

namespace Trail

variable {a b c : BlockId} {passed : List BlockId}

/-- Ways can be put together. -/
theorem append (first : Trail preds a passed b) {rest : List BlockId}
    (second : Trail preds b rest c) : Trail preds a (passed ++ rest) c := by
  -- By induction on the first of them.
  induction first with
  | last single => exact .step single second
  | step single _ ih => exact .step single (ih second)

/-- A way can be cut at every block that it passes. -/
theorem split (trail : Trail preds a passed c) (listed : b ∈ passed) :
    ∃ before after, passed = before ++ after ∧ (a = b ∧ before = [] ∨ Trail preds a before b) ∧
      Trail preds b after c := by
  -- By induction on the way.
  induction trail with
  | last single =>
    obtain rfl := List.mem_singleton.mp listed
    exact ⟨[], _, rfl, .inl ⟨rfl, rfl⟩, .last single⟩
  | @step a next c rest single trail ih =>
    -- The way is cut where it starts or further on.
    by_cases same : b = a
    · subst same
      exact ⟨[], _, rfl, .inl ⟨rfl, rfl⟩, .step single trail⟩
    · obtain ⟨before, after, rfl, reaches, goesOn⟩ :=
        ih ((List.mem_cons.mp listed).resolve_left same)
      refine ⟨a :: before, after, rfl, .inr ?_, goesOn⟩
      rcases reaches with ⟨rfl, rfl⟩ | reaches
      · exact .last single
      · exact .step single reaches

/-- Every block that a way passes has a single predecessor. -/
theorem single (trail : Trail preds a passed c) (listed : b ∈ passed) :
    ∃ pred, preds b = [pred] := by
  -- The way goes on from the block along its predecessor.
  obtain ⟨_, _, -, -, goesOn⟩ := trail.split listed
  cases goesOn with
  | last single | step single _ => exact ⟨_, single⟩

/-- A way back to a block is found if there are enough steps. -/
theorem cycleFrom_isSome (trail : Trail preds a passed c) (steps : Nat)
    (enough : passed.length ≤ steps) :
    ∃ cycle, cycleFrom preds c steps a = some cycle ∧ cycle ⊆ passed := by
  -- The search may come back earlier than the way does.
  induction trail generalizing steps with
  | @last a b single =>
    obtain _ | steps := steps
    · cases enough
    · exact ⟨[a], by simp [cycleFrom, single], List.Subset.refl _⟩
  | @step a b c rest single trail ih =>
    obtain _ | steps := steps
    · cases enough
    · by_cases same : b = c
      · exact ⟨[a], by simp [cycleFrom, single, same], by simp⟩
      · obtain ⟨cycle, found, inside⟩ := ih steps (Nat.le_of_succ_le_succ enough)
        exact ⟨a :: cycle, by simp [cycleFrom, single, same, found], List.cons_subset_cons _ inside⟩

end Trail

/-- A cycle that is found is a way back. -/
theorem trail_of_cycleFrom {first : BlockId} {steps : Nat} {cycle : List BlockId}
    (found : cycleFrom preds first steps id = some cycle) :
    Trail preds id cycle first ∧ cycle.length ≤ steps := by
  -- By induction on the steps that the search has left.
  induction steps generalizing id cycle with
  | zero => cases found
  | succ steps ih =>
    simp only [cycleFrom] at found
    split at found
    · next pred single =>
      split at found
      · next same =>
        cases found
        exact ⟨.last (same ▸ single), Nat.succ_le_succ (Nat.zero_le _)⟩
      · obtain ⟨rest, isRest, rfl⟩ := Option.map_eq_some_iff.mp found
        obtain ⟨trail, short⟩ := ih isRest
        exact ⟨.step single trail, Nat.succ_le_succ short⟩
    · cases found

/-- Every member of a cycle closes a cycle of members. -/
theorem cycle_rotate {steps : Nat} {cycle : List BlockId}
    (found : cycleFrom preds id steps id = some cycle) {member : BlockId}
    (listed : member ∈ cycle) :
    ∃ rotated, cycleFrom preds member steps member = some rotated ∧ rotated ⊆ cycle := by
  -- The trail is cut at the member, and its two parts are put together the other way round.
  obtain ⟨trail, short⟩ := trail_of_cycleFrom found
  obtain ⟨before, after, rfl, reaches, goesOn⟩ := trail.split listed
  have round : Trail preds member (after ++ before) member := by
    rcases reaches with ⟨rfl, rfl⟩ | reaches
    · simpa using goesOn
    · exact goesOn.append reaches
  obtain ⟨rotated, found, inside⟩ :=
    round.cycleFrom_isSome steps (by simpa [Nat.add_comm] using short)
  exact ⟨rotated, found, fun block isMember => by simpa [or_comm] using inside isMember⟩

/-- Blocks are ordered by their offsets, and at the same offset by their numbers. -/
theorem precedes_iff {a b : Nat} : g.precedes a b = true ↔
    (g.block a).start.toNat < (g.block b).start.toNat ∨
      (g.block a).start.toNat = (g.block b).start.toNat ∧ a ≤ b := by
  -- Offsets are compared as numbers.
  simp only [precedes, Bool.or_eq_true, Bool.and_eq_true, decide_eq_true_eq, beq_iff_eq,
    UInt32.lt_iff_toNat_lt, ← UInt32.toNat_inj]

/-- Of two blocks one precedes the other. -/
theorem precedes_total (g : Graph) (a b : BlockId) :
    g.precedes a b = true ∨ g.precedes b a = true := by
  -- Pairs of an offset and a number are compared.
  rw [precedes_iff, precedes_iff]
  omega

/-- What precedes a block precedes what comes after it. -/
theorem precedes_trans {a b c : BlockId} (first : g.precedes a b = true)
    (second : g.precedes b c = true) : g.precedes a c = true := by
  rw [precedes_iff] at *
  omega

/-- Some blocks have a first one in the order of the code. -/
theorem exists_precedes (g : Graph) {ids : List BlockId} (nonempty : ids ≠ []) :
    ∃ first ∈ ids, ∀ other ∈ ids, g.precedes first other = true := by
  -- The least of the rest is compared with the head; the order is total and transitive.
  induction ids with
  | nil => exact absurd rfl nonempty
  | cons id rest ih =>
    have own : g.precedes id id = true := (g.precedes_total id id).elim (fun it => it) fun it => it
    cases rest with
    | nil => exact ⟨id, List.mem_cons_self, by simpa using own⟩
    | cons next rest =>
      obtain ⟨first, listed, least⟩ := ih (List.cons_ne_nil _ _)
      rcases g.precedes_total id first with before | after
      · refine ⟨id, List.mem_cons_self, fun other isOther => ?_⟩
        rcases List.mem_cons.mp isOther with rfl | later
        · exact own
        · exact precedes_trans before (least other later)
      · refine ⟨first, List.mem_cons_of_mem _ listed, fun other isOther => ?_⟩
        rcases List.mem_cons.mp isOther with rfl | later
        · exact after
        · exact least other later

/-- Whether a block is entered from several places or closes a cycle of entries. -/
def isShared (g : Graph) (id : BlockId) : Bool :=
  1 < (g.enteringPreds id).size || (g.entryCycle? id).isSome

/-- The number of shared entries counts the reachable blocks whose entry is shared. -/
theorem sharedEntries_eq (g : Graph) :
    (Distance.ofGraph g (Flow.ofGraph g)).sharedEntries = g.reachable.toList.countP g.isShared := by
  -- The table of the entries has them for every number.
  have entries : ∀ id, ((Array.range g.size).map fun id => (g.enteringPreds id).toList).getD id [] =
      (g.enteringPreds id).toList := by
    intro id
    by_cases known : id < g.size
    · simp [Array.getD_eq_getD_getElem?, known]
    · -- Numbers without a block have no predecessors.
      have absent : g.size ≤ id := Nat.le_of_not_lt known
      simp only [Array.getD_eq_getD_getElem?, Array.getElem?_map, Array.getElem?_range, known,
        if_false, Option.map_none, Option.getD_none, enteringPreds, block_of_size_le absent]
      rfl
  simp only [Distance.ofGraph, entries]
  rfl

/-- A block that is entered from several places has an entry to spare. -/
theorem surplusSource?_of_several (several : 1 < (g.enteringPreds id).size) :
    (g.surplusSource? id).isSome := by
  -- At most one of the entries is kept.
  have length : 1 < (g.byOffset (g.enteringPreds id)).length := by
    rw [(g.byOffset_perm _).length_eq]
    exact several
  -- With two entries or more, one is left besides the one that is kept.
  have spare : ∀ kept : Option BlockId,
      ((g.byOffset (g.enteringPreds id)).filter (some · != kept)).getLast?.isSome = true := by
    intro kept
    rw [List.getLast?_isSome, ← List.length_pos_iff]
    refine Nat.pos_of_ne_zero fun none => ?_
    rw [List.length_eq_zero_iff, List.filter_eq_nil_iff] at none
    have distinct := nodup_byOffset g (g.enteringPreds id)
    rcases entries : g.byOffset (g.enteringPreds id) with _ | ⟨first, _ | ⟨second, rest⟩⟩
    · simp [entries] at length
    · simp [entries] at length
    · rw [entries] at none distinct
      have same : some first = some second := by
        have isFirst := none first (by simp)
        have isSecond := none second (by simp)
        simp only [bne_iff_ne, ne_eq, Classical.not_not] at isFirst isSecond
        exact isFirst.trans isSecond.symm
      cases same
      simp at distinct
  simp only [surplusSource?]
  rw [if_pos several]
  exact spare _

/-- Entering predecessors enter. -/
theorem leads_of_enteringPreds (mirrored : g.Mirrored) {pred : BlockId}
    (entry : pred ∈ (g.enteringPreds id).toList) : g.Leads pred id := by
  -- An entry is an edge.
  obtain ⟨kind, -, edge⟩ := (mem_enteringPreds mirrored).mp (IdSet.mem_toList.mp entry)
  exact ⟨kind, edge⟩

/-- What a way along entering predecessors ends at leads to its first block. -/
theorem Trail.reached (mirrored : g.Mirrored) {a b : BlockId} {passed : List BlockId}
    (trail : Trail (fun id => (g.enteringPreds id).toList) a passed b) (reached : g.Reached b) :
    g.Reached a := by
  -- Along the way, from its end back to its first block.
  induction trail with
  | last single => exact reached.step (leads_of_enteringPreds mirrored (by simp [single]))
  | step single _ ih => exact (ih reached).step (leads_of_enteringPreds mirrored (by simp [single]))

/-- Where entries are shared, some reachable block has an entry to spare. -/
theorem exists_surplusEntry (linked : g.Linked) (reached : g.Reached id)
    (shared : g.isShared id = true) :
    ∃ other, g.Reached other ∧ (g.surplusSource? other).isSome := by
  -- A shared block has several entries, or a cycle of single ones.
  rw [isShared, Bool.or_eq_true, decide_eq_true_eq] at shared
  rcases shared with several | closes
  · exact ⟨id, reached, surplusSource?_of_several several⟩
  · -- The first member of a cycle in the order of the code has the entry that closes the cycle.
    obtain ⟨cycle, found⟩ := Option.isSome_iff_exists.mp closes
    obtain ⟨trail, -⟩ := trail_of_cycleFrom found
    have nonempty : cycle ≠ [] := by
      cases trail <;> exact List.cons_ne_nil _ _
    obtain ⟨first, listed, least⟩ := g.exists_precedes nonempty
    obtain ⟨rotated, isCycle, inside⟩ := cycle_rotate found listed
    obtain ⟨pred, single⟩ := trail.single listed
    obtain ⟨_, _, -, -, goesOn⟩ := trail.split listed
    refine ⟨first, goesOn.reached linked.toMirrored reached, ?_⟩
    -- The members of a cycle have single entries, so that the first test does not apply.
    have one : ¬ (g.enteringPreds first).size > 1 := by
      have length : (g.enteringPreds first).toList.length = 1 := by rw [single]; rfl
      exact fun more => Nat.ne_of_gt more length
    have entry : (g.byOffset (g.enteringPreds first)).head?.isSome = true := by
      rw [List.isSome_head?]
      refine List.ne_nil_of_mem (mem_byOffset.mpr (IdSet.mem_toList.mp ?_) : pred ∈ _)
      simp [single]
    have isFirst : rotated.all (g.precedes first) = true :=
      List.all_eq_true.mpr fun other isOther => least other (inside isOther)
    simp only [surplusSource?]
    rw [if_neg one, show g.entryCycle? first = some rotated from isCycle]
    simpa [isFirst] using entry

end Unjump.Graph
