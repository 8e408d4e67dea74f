import Unjump.Proofs.Conservation
import Unjump.Proofs.Exits
import Unjump.Proofs.Placement

/-!
Jumps out of loops and switches stand inside a loop or a switch.

Take a block of a structured method that goes back to the start of a loop, leaves a loop, or breaks
out of a switch. Going from it to the block that enters it, and so on, comes to the inside of a loop
or a switch, or ends at a label: code that only a literal jump enters may belong to a loop
in whose nest it does not stand.

No walk from the entry may come to such a jump without entering a loop or a switch, and this is what
the rules keep. Rules that hand exits on keep it. A loop makes jumps of edges inside its natural
loop, and a switch at the ends of its bodies, so they keep it where these are entered through the
new construct alone, and where nothing inside a loop becomes what follows it.
-/

namespace Unjump

open Relation

/-- The constructs that exits refer to. -/
inductive Scope where
  | loop | switch
deriving DecidableEq, Inhabited, Repr

namespace Scope

/-- The construct itself. -/
def construct : Scope → Construct
  | loop => .loop
  | switch => .switch

/-- Whether an edge of a kind leads from the construct to its inside. -/
def enters : Scope → EdgeKind → Bool
  | loop, .sub1 => true
  | switch, .case _ => true
  | _, _ => false

/-- Whether an exit refers to the construct around it. -/
def leaves : Scope → Exit → Bool
  | loop, .loopStart | loop, .loopContinue | loop, .loopEnd => true
  | switch, .switchBreak => true
  | _, _ => false

/-- The edges that enter no construct of a kind, and are no literal jumps or calls. -/
def outside (scope : Scope) : EdgeFilter := fun type kind =>
  ¬(type = .structured scope.construct ∧ scope.enters kind = true) ∧
    ¬(kind = .branch ∧ (type.isGoto = true ∨ type = .structured .jsr))

/-- The exits that refer to a construct are scoped. -/
theorem isScoped_of_leaves {scope : Scope} {way : Exit} (leaves : scope.leaves way = true) :
    way.isScoped = true := by
  -- Each construct has its own exits, and all of them are scoped.
  cases scope <;> cases way <;> first | rfl | cases leaves

/-- The edges that become the inside of a construct enter none. -/
theorem lenient_outside (scope : Scope) : scope.outside.Lenient where
  next := by
    rintro type
    refine And.intro ?_ ?_
    · rintro ⟨-, enters⟩
      cases scope <;> cases enters
    · rintro ⟨isBranch, -⟩
      cases isBranch
  branch := by
    intro type isTest
    refine And.intro ?_ ?_
    · rintro ⟨-, enters⟩
      cases scope <;> cases enters
    rintro ⟨-, isGoto | rfl⟩
    · rw [BlockType.not_isGoto_of_isCondition isTest] at isGoto
      cases isGoto
    · cases isTest
  case := fun i => And.intro (fun enters => nomatch enters.1) fun jumps => nomatch jumps.1
  handler := fun i => And.intro (fun enters => nomatch enters.1) fun jumps => nomatch jumps.1
  call := fun allowed => absurd ⟨rfl, .inr rfl⟩ allowed.2
  jump := fun type isGoto allowed => absurd ⟨rfl, .inl isGoto⟩ allowed.2

end Scope

namespace Graph

variable {g h : Graph} {scope : Scope} {rule : Rule} {id : BlockId}

/-- Whether a block has an exit that refers to a construct around it.
A switch may break out of itself. -/
def Leaves (g : Graph) (scope : Scope) (id : BlockId) : Prop :=
  (∃ kind way, scope.leaves way = true ∧ (g.block id).edge? kind = some (.exit way)) ∧
    (scope = .switch → (g.block id).type ≠ .structured .switch)

/-- Whether a walk from the entry comes to a block without entering a construct. -/
def Outside (g : Graph) (scope : Scope) (id : BlockId) : Prop := g.Walk scope.outside start id

/-- A graph in which no walk from the entry comes to an exit without entering the construct
that it may refer to. -/
def Scoped (g : Graph) (scope : Scope) : Prop := ∀ id, g.Outside scope id → ¬ g.Leaves scope id

/-- Whether a walk comes into a part of the graph without entering a construct. -/
def EnteredAside (g : Graph) (scope : Scope) (part : BlockId → Prop) : Prop :=
  ∃ source target, g.Outside scope source ∧ ¬ part source ∧ part target ∧
  g.Step scope.outside source target

/-- A walk that comes to a block of a part has come into the part. -/
theorem Outside.enteredAside {part : BlockId → Prop} (outside : g.Outside scope id)
    (inside : part id) (apart : ¬ part start) : g.EnteredAside scope part := by
  -- By induction on the walk: its last step comes into the part, or an earlier one does.
  induction outside with
  | refl => exact absurd inside apart
  | @tail source target before step ih =>
    by_cases earlier : part source
    · exact ih earlier
    · exact ⟨source, target, before, earlier, inside, step⟩

section Hand

variable {covers : EdgeFilter → Prop} {back : BlockId → BlockId}

/-- A walk after a change is one before it. -/
theorem Outside.before (outside : h.Outside scope id) (rewrite : Simulates covers g h back)
    (covered : covers scope.outside) (nonempty : start < g.size) : g.Outside scope (back id) := by
  -- The entry stands for itself, so the walk begins where it did.
  have root := rewrite.old start nonempty
  have walk := rewrite.walk scope.lenient_outside covered (root.symm ▸ g.reached_start) outside
  rwa [root] at walk

/-- An exit that was there before stood inside a construct before. -/
theorem Scoped.not_exitFrom (within : g.Scoped scope) (outside : g.Outside scope (back id))
    {way : Exit} (leaves : scope.leaves way = true)
    (notSwitch : scope = .switch → (h.block id).type ≠ .structured .switch) :
    ¬ ExitFrom g h back id way := by
  -- The walk goes on to where the exit was, without entering anything.
  rintro ⟨source, kind, edge, type, walk⟩
  exact within source (outside.trans (walk scope.lenient_outside))
    ⟨⟨kind, way, leaves, edge⟩, fun isSwitch isStructured => notSwitch isSwitch (type isStructured)⟩

/-- A change that only hands exits on keeps them inside constructs. -/
theorem Scoped.rewrite (within : g.Scoped scope) (sound : g.Sound) (rewrite : Rewrite g h back)
    (exits : ExitsFrom g h back) : h.Scoped scope := by
  -- An exit of the new graph was one before, at the end of a walk that may be longer.
  rintro id outside ⟨⟨kind, way, leaves, edge⟩, notSwitch⟩
  exact within.not_exitFrom (outside.before rewrite.toSimulates trivial sound.nonempty) leaves
    notSwitch (exits id kind way (Scope.isScoped_of_leaves leaves) edge)

end Hand

/-- A step that lets exits stand outside: the natural loop of a new loop is entered otherwise, what
follows a new loop comes to an exit, or a body of a new switch is entered otherwise. -/
inductive Breaks : Scope → Graph → Graph → Prop
  | looped {g h : Graph} {header : BlockId} (applied : g.wrapLoop (Flow.ofGraph g) header = some h)
      (entered : h.EnteredAside .loop (· ∈ g.loopCore header)) : Breaks .loop g h
  | spilled {scope : Scope} {g h : Graph} {header last id : BlockId}
      (applied : g.wrapLoop (Flow.ofGraph g) header = some h)
      (after : g.loopAfter header = some last) (walk : g.Walk scope.outside last id)
      (leaves : g.Leaves scope id) : Breaks scope g h
  | switched {g h : Graph} {id : BlockId} (applied : g.nestSwitch (Flow.ofGraph g) id = some h)
      (entered : h.EnteredAside .switch (· ∈ g.nestedBlocks id)) : Breaks .switch g h

section Loop

variable {header : BlockId} {body : IdSet} {after : Option BlockId}

/-- A walk after a loop has been made is one before it, from the entry
or from what follows the loop. -/
theorem Wrapped.outside_before (wrapped : Wrapped g header body after h) (linked : g.Linked)
    (outside : h.Outside scope id) :
    g.Outside scope (g.loopBack header h id) ∨
      ∃ last, after = some last ∧ g.Walk scope.outside last (g.loopBack header h id) := by
  -- A step on extends the walk, wherever it has begun.
  have extend : ∀ {u v}, g.Step scope.outside u v →
      (g.Outside scope u ∨ ∃ last, after = some last ∧ g.Walk scope.outside last u) →
        g.Outside scope v ∨ ∃ last, after = some last ∧ g.Walk scope.outside last v :=
    fun step => Or.imp (·.tail step) fun ⟨last, isLast, walk⟩ => ⟨last, isLast, walk.tail step⟩
  -- By induction on the walk. Only the step from the loop to what follows it was no step before,
  -- and there the walk begins anew.
  induction outside with
  | refl =>
    rw [Wrapped.loopBack_old linked.nonempty]
    exact .inl .refl
  | @tail u v _ step ih =>
    obtain ⟨kind, allowed, edge⟩ := step
    rcases Nat.lt_trichotomy u g.size with old | rfl | new
    · rw [Wrapped.loopBack_old old] at ih
      rw [wrapped.type u old] at allowed
      exact extend ⟨kind, allowed, wrapped.old_edge linked.toMirrored old edge⟩ ih
    · -- The loop leads to its header, for which it stands, and to what follows it.
      rw [wrapped.loopBack_loop] at ih
      rw [wrapped.loopEdges] at edge
      split at edge
      · cases edge
        rwa [Wrapped.loopBack_old wrapped.known]
      · split at edge
        · obtain ⟨last, isLast, same⟩ := Option.map_eq_some_iff.mp edge
          cases same
          rw [Wrapped.loopBack_old (wrapped.ends _ isLast)]
          exact .inr ⟨_, isLast, .refl⟩
        · cases edge
    · -- A walk does not follow a literal jump.
      obtain ⟨_, -, _, _, offset, -, -, isGoto, -, -⟩ := wrapped.gotos u new (lt_size_of_edge edge)
      rw [isGoto] at allowed edge
      rw [edge?_gotoBlock] at edge
      split at edge
      · next isBranch => exact absurd ⟨isBranch, .inl rfl⟩ allowed.2
      · cases edge

/-- Making a loop keeps exits inside constructs, or else breaks a scope. -/
theorem Scoped.wrapLoop (within : g.Scoped scope) (sound : g.Sound)
    (applied : g.wrapLoop (Flow.ofGraph g) header = some h) :
    h.Scoped scope ∨ Breaks scope g h := by
  -- The header of the loop is another block than the entry.
  have wrapped := wrapped_wrapLoop sound.toMirrored applied
  have isHeader := (wrapLoop_cases applied).1
  have notStart := (header_reached sound.toLinked isHeader).2
  refine Classical.or_iff_not_imp_right.mpr fun holds => ?_
  rintro id outside ⟨⟨kind, way, leaves, edge⟩, notSwitch⟩
  -- An exit of the new graph stands in the natural loop, or was there before.
  rcases wrapped.exit (loopBody_bodyOfLoop sound.toMirrored isHeader)
    (header_mem_naturalLoop wrapped.known) edge with
    ⟨inCore, notBreak⟩ | ⟨old, before⟩
  · cases scope with
    | switch => cases way <;> first | exact notBreak rfl | cases leaves
    | loop =>
      -- The entry is outside the natural loop, so the walk has come into it.
      refine holds (.looped applied (outside.enteredAside inCore fun isStart => ?_))
      exact naturalLoop_dominated sound.toMirrored isStart ⟨Ne.symm notStart, .refl⟩
  · have leavesBefore : g.Leaves scope id := by
      refine ⟨⟨kind, way, leaves, before⟩, fun isSwitch isStructured => notSwitch isSwitch ?_⟩
      exact (wrapped.type id old).trans isStructured
    have walked := wrapped.outside_before sound.toLinked outside
    rw [Wrapped.loopBack_old old] at walked
    rcases walked with isOutside | ⟨last, isLast, walk⟩
    · exact within id isOutside leavesBefore
    · exact holds (.spilled applied isLast walk leavesBefore)

end Loop

/-- Nesting the bodies of a switch keeps exits inside constructs, or else breaks a scope. -/
theorem Scoped.nestSwitch (within : g.Scoped scope) (sound : g.Sound) (reached : g.Reached id)
    (applied : g.nestSwitch (Flow.ofGraph g) id = some h) : h.Scoped scope ∨ Breaks scope g h := by
  have rewrite := rewrite_nestSwitch sound reached applied
  refine Classical.or_iff_not_imp_right.mpr fun holds => ?_
  rintro u outside ⟨⟨kind, way, leaves, edge⟩, notSwitch⟩
  -- A new exit is a break in a nested body, which can be reached from outside only
  -- if the scope is broken.
  rcases nestSwitch_exit sound reached applied (Scope.isScoped_of_leaves leaves) edge
    with ⟨rfl, place⟩ | origin
  · cases scope with
    | loop => cases leaves
    | switch =>
      refine holds
        (.switched applied (outside.enteredAside (place.resolve_left (notSwitch rfl)) ?_))
      exact start_not_mem_nestedBlocks sound.toLinked id
  · exact within.not_exitFrom (outside.before rewrite.toSimulates trivial sound.nonempty) leaves
      notSwitch origin

section Run

/-- Whether no raw jump is left that can be reached. -/
def JumpFree (g : Graph) : Prop :=
  ∀ id, g.Reached id → (g.bare id).type ≠ .raw .goto ∧ (g.bare id).type ≠ .raw .jump

/-- Raw jumps are dealt with before anything else. -/
theorem Next.rule_eq_dropGoto (next : g.Next rule h) (sound : g.Sound) (left : ¬ g.JumpFree) :
    rule = .dropGoto := by
  -- Some jump is left within reach.
  obtain ⟨id, reached, isJump⟩ :
      ∃ id, g.Reached id ∧ ((g.bare id).type = .raw .goto ∨ (g.bare id).type = .raw .jump) := by
    by_contra none
    refine left fun id reached =>
      ⟨fun isGoto => none ⟨id, reached, .inl isGoto⟩, fun isJump => none ⟨id, reached, .inr isJump⟩⟩
  -- The first rule applies at the jump, so it is the one that the step takes.
  have applies : (g.dropGoto (Flow.ofGraph g) id).isSome = true := by
    simp only [dropGoto, show (g.block id).type = _ ∨ (g.block id).type = _ from isJump, if_true]
    split
    · split <;> rfl
    · rfl
  have isSite : id ∈ (Flow.ofGraph g).reachable.toList :=
    IdSet.mem_toList.mpr ((mem_flow_reachable sound.toLinked).mpr reached)
  have found : ((Flow.ofGraph g).reachable.toList.findSome? fun id =>
      (g.dropGoto (Flow.ofGraph g) id).map (Rule.dropGoto, ·)).isSome = true := by
    rw [List.findSome?_isSome_iff]
    exact ⟨id, isSite, by simpa using applies⟩
  obtain ⟨⟨first, made⟩, isFirst⟩ := Option.isSome_iff_exists.mp found
  obtain ⟨site, -, isMade⟩ := List.exists_of_findSome?_eq_some isFirst
  obtain ⟨made, -, same⟩ := Option.map_eq_some_iff.mp isMade
  rw [Next, step?, Rule.all, List.findSome?_cons] at next
  simp only [Rule.sites, Rule.apply, isFirst] at next
  cases same
  cases next
  rfl

/-- Jumps are dealt with before the first jump out of a construct is made. -/
theorem Next.unscoped_or_jumpFree (next : g.Next rule h) (sound : g.Sound)
    (before : g.Unscoped ∨ g.JumpFree) : h.Unscoped ∨ h.JumpFree := by
  -- The rule is applied at a block within reach.
  obtain ⟨site, isSite, applied⟩ := next.applied
  have reached := reached_of_mem_sites sound isSite
  by_cases free : g.JumpFree
  · refine .inr fun id reachedAfter => ?_
    have stays : ∀ {type}, (h.bare id).type = .raw type →
        g.Reached id ∧ (g.bare id).type = .raw type := by
      intro type isRaw
      -- No rule makes raw code or lets it come within reach.
      have wasRaw := raw_of_apply sound reached applied isRaw
      exact ⟨(next.unmoved sound).reached id (lt_size_of_raw wasRaw) reachedAfter, wasRaw⟩
    refine ⟨fun isGoto => ?_, fun isJump => ?_⟩
    · exact (free id (stays isGoto).1).1 (stays isGoto).2
    · exact (free id (stays isJump).1).2 (stays isJump).2
  · cases next.rule_eq_dropGoto sound free
    dsimp only [Rule.apply] at applied
    exact .inl ((before.resolve_right free).dropGoto sound.toLinked
      (reached.lt_size sound.toLinked) applied)

/-- A graph without such exits keeps them inside constructs. -/
theorem Unscoped.scoped (unscoped : g.Unscoped) : g.Scoped scope := by
  -- There is no exit to speak of.
  rintro id - ⟨⟨kind, way, leaves, edge⟩, -⟩
  cases (Scope.isScoped_of_leaves leaves).symm.trans (unscoped id kind way edge)

/-- A step keeps exits inside constructs, or else breaks a scope. -/
theorem Next.scoped_or_breaks (next : g.Next rule h) (sound : g.Sound)
    (phase : g.Unscoped ∨ g.JumpFree) (within : g.Scoped scope) :
    h.Scoped scope ∨ Breaks scope g h := by
  obtain ⟨id, isSite, applied⟩ := next.applied
  have reached := reached_of_mem_sites sound isSite
  have linked := sound.toLinked
  have known := reached.lt_size linked
  -- All rules but those that make a loop or nest a switch hand on the exits that there are.
  cases rule <;> dsimp only [Rule.apply] at applied
  case dropGoto =>
    -- While there are jumps there are no exits.
    have unscoped := phase.resolve_right fun free => by
      obtain ⟨isGoto | isJump, -⟩ := dropGoto_cases applied
      · exact (free id reached).1 isGoto
      · exact (free id reached).2 isJump
    exact .inl (unscoped.dropGoto linked known applied).scoped
  case settlePlain =>
    exact .inl (within.rewrite sound (rewrite_settlePlain sound reached applied)
      (exitsFrom_settlePlain known applied))
  case selectTest =>
    exact .inl (within.rewrite sound (rewrite_selectTest sound reached applied)
      (exitsFrom_selectTest linked applied))
  case mergeTests =>
    exact .inl (within.rewrite sound (rewrite_mergeTests sound reached applied)
      (exitsFrom_mergeTests linked applied))
  case wrapLoop => exact within.wrapLoop sound applied
  case nestIf =>
    exact .inl (within.rewrite sound (rewrite_nestIf sound reached applied)
      (exitsFrom_nestIf linked applied))
  case nestSwitch => exact within.nestSwitch sound reached applied
  case nestTry =>
    exact .inl (within.rewrite sound (rewrite_nestTry sound reached applied)
      (exitsFrom_nestTry sound reached applied))
  case settleCall =>
    obtain ⟨isCall, rfl⟩ := settleCall_cases applied
    exact .inl (within.rewrite sound (rewrite_settle_jsr sound reached isCall)
      (exitsFrom_settle known isCall))
  case jumpTest =>
    exact .inl (within.rewrite sound (rewrite_jumpTest sound reached applied)
      (exitsFrom_jumpTest linked applied))
  case jumpSwitch =>
    exact .inl (within.rewrite sound (rewrite_jumpSwitch sound reached applied)
      (exitsFrom_jumpSwitch sound reached applied))
  case jumpTry =>
    exact .inl (within.rewrite sound (rewrite_jumpTry sound reached applied)
      (exitsFrom_jumpTry sound reached applied))
  case forceCall =>
    obtain ⟨isCall, rfl⟩ := forceCall_cases applied
    exact .inl (within.rewrite sound (rewrite_settle_jsr sound reached isCall)
      (exitsFrom_settle known isCall))
  case unshareEntry =>
    obtain ⟨source, rewrite⟩ := rewrite_unshareEntry sound applied
    exact .inl (within.rewrite sound rewrite (exitsFrom_unshareEntry linked applied source))

/-- Along the steps of a run jumps are dealt with before the first jump out
of a construct is made. -/
theorem Steps.unscoped_or_jumpFree (steps : g.Steps h) (sound : g.Sound) (unscoped : g.Unscoped) :
    h.Unscoped ∨ h.JumpFree := by
  -- By induction on the steps, along which the graph stays sound.
  induction steps with
  | refl => exact .inl unscoped
  | tail before next ih =>
    obtain ⟨rule, next⟩ := next
    exact next.unscoped_or_jumpFree (Steps.sound before sound) ih

/-- Steps keep exits inside constructs, unless one of them breaks a scope. -/
theorem Steps.scoped_or_breaks (steps : g.Steps h) (sound : g.Sound) (unscoped : g.Unscoped)
    (scope : Scope) :
    h.Scoped scope ∨ ∃ before rule after, g.Steps before ∧ before.Next rule after ∧ after.Steps h ∧
      Breaks scope before after := by
  -- By induction on the run: the first step that breaks the scope is kept as the reason
  -- for what comes later.
  induction steps with
  | refl => exact .inl unscoped.scoped
  | @tail mid h steps next ih =>
    obtain ⟨rule, next⟩ := next
    have phase := Steps.unscoped_or_jumpFree steps sound unscoped
    rcases ih with within | ⟨before, earlier, after, first, broken, rest, breaks⟩
    · refine (next.scoped_or_breaks (Steps.sound steps sound) phase within).imp_right
        fun breaks => ?_
      exact ⟨mid, rule, h, steps, next, .refl, breaks⟩
    · exact .inr ⟨before, earlier, after, first, broken, rest.tail ⟨rule, next⟩, breaks⟩

end Run

section Nest

/-- Whether going from a block to the one that places it comes to the inside of a construct. -/
def InScope (g : Graph) (scope : Scope) (id : BlockId) : Prop :=
  ∃ owner inner kind, owner ∈ g.reachable ∧ (g.block owner).type = .structured scope.construct ∧
    scope.enters kind = true ∧ (g.block owner).edge? kind = some (.block inner) ∧
    ReflTransGen g.Places inner id

/-- Whether going from a block to the one that places it, as long as there is one, ends
at a label. -/
def HangsAtLabel (g : Graph) (id : BlockId) : Prop :=
  ∃ root, ReflTransGen g.Places root id ∧ (∀ owner, ¬ g.Places owner root) ∧ g.IsLabel root

/-- What the entry places is inside a construct, or a walk comes to it without entering one. -/
theorem Finished.inScope_or_outside (finished : g.Finished) (scope : Scope)
    (placed : ReflTransGen g.Places start id) : g.InScope scope id ∨ g.Outside scope id := by
  -- By induction on the nest: what is inside stays so, and what is outside goes inside
  -- where an edge enters.
  induction placed with
  | refl => exact .inr .refl
  | @tail owner inner _ places ih =>
    obtain ⟨kind, notBranch, edge⟩ := (mem_enteringPreds finished.toMirrored).mp places.2
    by_cases enters : (g.block owner).type = .structured scope.construct ∧ scope.enters kind = true
    · exact .inl ⟨owner, inner, kind, places.1, enters.1, enters.2, edge, .refl⟩
    · refine ih.imp ?_ fun outside => ?_
      · rintro ⟨around, first, kind, listed, type, enters, edge, chain⟩
        exact ⟨around, first, kind, listed, type, enters, edge, chain.tail places⟩
      · exact outside.tail ⟨kind, And.intro enters fun jumps => notBranch jumps.1, edge⟩

/-- In a finished graph an exit stands inside a construct or hangs at a label. -/
theorem Finished.inScope_or_hangsAtLabel (finished : g.Finished) (within : g.Scoped scope)
    (reached : g.Reached id) (leaves : g.Leaves scope id) :
    g.InScope scope id ∨ g.HangsAtLabel id := by
  -- The nest of a block has its root at the entry or at a label.
  obtain ⟨root, chain, top, rfl | isLabel⟩ := finished.isPlaced reached
  · refine .inl ((finished.inScope_or_outside scope chain).resolve_right fun outside => ?_)
    exact within id outside leaves
  · exact .inr ⟨root, chain, top, isLabel⟩

/-- A block that nothing places stands inside a construct only if the construct leads to it. -/
theorem not_inScope_of_enteringPreds (mirrored : g.Mirrored)
    (alone : (g.enteringPreds id).toList = []) : ¬ g.InScope scope id := by
  -- An edge that enters a construct places the block to which it leads.
  have noOwner : ∀ owner, owner ∉ g.enteringPreds id := fun owner isOwner => by
    have listed := IdSet.mem_toList.mpr isOwner
    rw [alone] at listed
    cases listed
  rintro ⟨owner, inner, kind, -, -, enters, edge, chain⟩
  rcases chain.cases_tail with rfl | ⟨last, -, places⟩
  · refine noOwner owner ((mem_enteringPreds mirrored).mpr ⟨kind, ?_, edge⟩)
    rintro rfl
    cases scope <;> cases enters
  · exact noOwner last places.2

end Nest

/--
A block of a structured method that jumps out of a loop or a switch, or back to the start of a loop,
stands inside a loop or a switch, or hangs at a label.

Otherwise one of the steps has broken a scope. It has made a loop or a switch that is entered aside
of its edge to the inside, or a loop that is followed by code of the loop around it.
-/
theorem inScope_or_hangsAtLabel_of_structured {m : Method} {pool : Option Pool} {options : Options}
    {report : Report} (done : m.structured pool options = .ok (h, report)) (scope : Scope) :
    (∀ id ∈ h.reachable, h.Leaves scope id → h.InScope scope id ∨ h.HangsAtLabel id) ∨
      ∃ g before rule after, Graph.build m pool options.build = .ok g ∧
      (g.prepare options).Steps before ∧
        before.Next rule after ∧ after.Steps h ∧ Breaks scope before after := by
  -- The exits are scoped after the last step, or the step that broke the scope is named.
  have finished := finished_of_structured done
  obtain ⟨g, made, steps, -⟩ := steps_of_structured done
  have sound := (sound_of_build made).prepare options
  rcases steps.scoped_or_breaks sound (unscoped_prepare made options) scope
    with within | ⟨before, rule, after, breaks⟩
  · refine .inl fun id listed leaves => ?_
    exact finished.inScope_or_hangsAtLabel within (finished.toSound.mem_reachable.mp listed) leaves
  · exact .inr ⟨g, before, rule, after, made, breaks⟩

/-- A method with a loop inside a loop, where the inner loop goes
on with the outer one from within. -/
def labelledContinue : Method where
  code := [⟨0, ⟨132⟩, .increment 0 1, none⟩, ⟨1, ⟨27⟩, .absent, none⟩, ⟨2, ⟨154⟩, .branch 8, none⟩,
    ⟨3, ⟨28⟩, .absent, none⟩, ⟨4, ⟨153⟩, .branch 1, none⟩, ⟨5, ⟨177⟩, .absent, none⟩,
    ⟨8, ⟨132⟩, .increment 3 1, none⟩, ⟨9, ⟨167⟩, .branch 0, none⟩]
  codeLength := 10

/-- What becomes of the method with the two loops, by running the program. -/
private theorem labelledContinue_structured :
    ∃ h report, labelledContinue.structured none {} = .ok (h, report) ∧
    5 ∈ h.reachable ∧ (h.block 5).next = some (.exit .loopStart) ∧
      (h.enteringPreds 5).toList = [] := by
  -- The structured method is evaluated once, and the facts are read off it.
  have evaluated : (labelledContinue.structured none {}).toOption.any (fun done =>
      decide (5 ∈ done.1.reachable ∧ (done.1.block 5).next = some (.exit .loopStart) ∧
        (done.1.enteringPreds 5).toList = [])) = true := by
    decide +kernel
  obtain ⟨result, done, evaluated⟩ := exists_eq_ok_of_any evaluated
  exact ⟨result.1, result.2, done, of_decide_eq_true evaluated⟩

/-- A block whose next edge is such an exit leaves a loop. -/
private theorem leaves_of_next {way : Exit} (leaves : Scope.loop.leaves way = true)
    (ends : (g.block id).next = some (.exit way)) : g.Leaves .loop id :=
  ⟨⟨.next, way, leaves, ends⟩, fun isSwitch => nomatch isSwitch⟩

/-- The jump back to the start of the outer loop hangs at a label, unless a scope
has been broken. -/
theorem labelledContinue_hangsAtLabel :
    ∃ h report, labelledContinue.structured none {} = .ok (h, report) ∧
    5 ∈ h.reachable ∧ h.Leaves .loop 5 ∧ (h.HangsAtLabel 5 ∨
      ∃ g before rule after, Graph.build labelledContinue none {} = .ok g ∧
      (g.prepare {}).Steps before ∧
        before.Next rule after ∧ after.Steps h ∧ Breaks .loop before after) := by
  -- The block is none that a block of a loop places, so that only the label is left.
  obtain ⟨h, report, done, listed, ends, alone⟩ := labelledContinue_structured
  have leaves := leaves_of_next rfl ends
  have apart : ¬ h.InScope .loop 5 :=
    not_inScope_of_enteringPreds (finished_of_structured done).toMirrored alone
  refine ⟨h, report, done, listed, leaves,
    (inScope_or_hangsAtLabel_of_structured done .loop).imp_left fun within => ?_⟩
  exact (within 5 listed leaves).resolve_left apart

/-- A reachable block of a structured method can go back to the start of a loop
and stand inside no loop. -/
theorem exists_continue_outside_loops :
    ∃ h report, labelledContinue.structured none {} = .ok (h, report) ∧
    ∃ id ∈ h.reachable, h.Leaves .loop id ∧ ¬ h.InScope .loop id := by
  -- The block goes back to the start of a loop, and nothing places it.
  obtain ⟨h, report, done, listed, ends, alone⟩ := labelledContinue_structured
  exact ⟨h, report, done, 5, listed, leaves_of_next rfl ends,
    not_inScope_of_enteringPreds (finished_of_structured done).toMirrored alone⟩

end Graph

end Unjump
