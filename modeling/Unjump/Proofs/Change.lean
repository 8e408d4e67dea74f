import Mathlib.Data.List.Forall2
import Unjump.Construct.Jump
import Unjump.Construct.Switch
import Unjump.Proofs.Arm

/-! The single changes that constructs are made with, and what each of them does
to a linked graph. -/

namespace Unjump.Graph

variable {g : Graph} {entered : Prop}

/-- A change that adds no targets to a block keeps the links. -/
theorem Linked.narrow (linked : g.Linked) {id : BlockId} (change : Block → Block)
    (pure : ∀ b, (change b).bare = change b.bare) (kept : ∀ b, (change b).preds = b.preds)
    (fewer : ∀ kind target, (change (g.bare id)).edge? kind = some (.block target) →
      g.Leads id target)
    (root : id = start → (change (g.bare id)).type = .start) : (g.update id change).Linked :=
  -- The targets that are left were targets before, and those are all behind the entry.
  linked.update change pure kept
    (fun kind target edge => linked.behind (fewer kind target edge)) root

/-- Pointing an edge at a block of the graph, or at an exit, keeps the predecessor sets in step. -/
theorem Mirrored.setEdge (mirrored : g.Mirrored) {id : BlockId} {kind : EdgeKind}
    {target : Option Target} (inside : ∀ v, target = some (.block v) → v < g.size) :
    (g.setEdge id kind target).Mirrored := by
  -- All that is asked here is that targets are blocks of the graph, so the entry may be entered.
  have fits : ((g.block id).setEdge kind target).Fits True g.size := by
    refine Block.Fits.setEdge (Block.fits_iff.mpr fun other way edge => ?_) fun way same => ?_
    · -- The edges of the block led to blocks of the graph before.
      cases way with
      | block v => exact ⟨mirrored.bounded ⟨other, edge⟩, fun _ => trivial⟩
      | exit way => trivial
    · -- The new edge does so by assumption.
      cases way with
      | block v => exact ⟨inside v same, fun _ => trivial⟩
      | exit way => trivial
  exact mirrored.update (Block.preds_setEdge _ _ _) fun edge => (Block.fits_iff.mp fits _ _ edge).1

/-- Pointing an edge at a target where edges may lead keeps the links. -/
theorem Confined.setEdge (confined : g.Confined entered) {id : BlockId} {kind : EdgeKind}
    {target : Option Target} (fits : ∀ way, target = some way → way.Fits entered g.size) :
    (g.setEdge id kind target).Confined entered := by
  -- The entry keeps its type under every change of an edge.
  refine confined.update _ (Block.preds_setEdge _ _ _) ((confined.fits id).setEdge fits) ?_
  rintro rfl
  rw [Block.type_setEdge]
  exact confined.rooted

/-- A block without its edges keeps the links. -/
theorem Confined.detach (confined : g.Confined entered) {id : BlockId} :
    (g.detach id).Confined entered := by
  -- There is no edge left that would have to fit, and the entry keeps its type.
  refine confined.update _ rfl (.of_blank (Block.edge?_detached _)) ?_
  rintro rfl
  exact confined.rooted

/-- Detaching a block keeps a linked graph linked. -/
theorem Linked.detach (linked : g.Linked) {id : BlockId} : (g.detach id).Linked :=
  ⟨linked.toConfined.detach⟩

section Settle

variable {id : BlockId} {construct : Construct}

/-- Settling a block adds none. -/
@[simp] theorem size_settle : (g.settle id construct).size = g.size := size_update _ _ _

/-- Settling a block changes its type and nothing else. -/
theorem bare_settle (known : id < g.size) (i : BlockId) :
    (g.settle id construct).bare i =
      if i = id then { g.bare id with type := .structured construct } else g.bare i :=
  bare_update ({ · with type := .structured construct }) known (fun _ => rfl) i

/-- Settling a block other than the entry keeps the links. -/
theorem Confined.settle (confined : g.Confined entered) (other : id ≠ start) :
    (g.settle id construct).Confined entered :=
  -- The edges of the block stay, and only the entry has to keep its type.
  confined.update _ rfl { confined.fits id with } fun same => absurd same other

/-- Settling a block other than the entry keeps a linked graph linked. -/
theorem Linked.settle (linked : g.Linked) (other : id ≠ start) : (g.settle id construct).Linked :=
  ⟨linked.toConfined.settle other⟩

end Settle

section CloseTest

variable {id : BlockId} {invert : Bool}

/-- Closing a test adds no block. -/
@[simp] theorem size_closeTest : (g.closeTest id invert).size = g.size := size_update _ _ _

/-- Closing a test changes that block alone. -/
theorem bare_closeTest (known : id < g.size) (i : BlockId) :
    (g.closeTest id invert).bare i = if i = id then (g.bare id).closed invert else g.bare i :=
  bare_update (·.closed invert) known (fun _ => rfl) i

/-- Closing a test keeps the links. -/
theorem Confined.closeTest (confined : g.Confined entered) :
    (g.closeTest id invert).Confined entered := by
  have fits := confined.fits id
  -- A closed test loses its two successors and keeps its other edges.
  refine confined.update _ rfl
    { fits with next := (fun _ edge => nomatch edge), branch := (fun _ edge => nomatch edge) } ?_
  -- The entry is no test, so closing leaves its type alone.
  rintro rfl
  have rooted : (g.block start).type = .start := confined.rooted
  simp [Block.closed, rooted]

/-- Closing a test keeps a linked graph linked. -/
theorem Linked.closeTest (linked : g.Linked) : (g.closeTest id invert).Linked :=
  ⟨linked.toConfined.closeTest⟩

end CloseTest

section Goto

variable {construct : Construct} {offset : Offset} {target : Target}

/-- The literal jump of a construct to a target. -/
def gotoBlock (construct : Construct) (offset : Offset) (target : Target) : Block :=
  { type := .structured construct, start := offset, finish := offset, branch := some target }

/-- A literal jump has no edge but its branch. -/
theorem edge?_gotoBlock (kind : EdgeKind) :
    (gotoBlock construct offset target).edge? kind =
      if kind = .branch then some target else none := by
  cases kind <;> rfl

/-- A literal jump is numbered behind all other blocks. -/
@[simp] theorem addGoto_fst : (g.addGoto construct offset target).1 = g.size := rfl

/-- A literal jump is one block more. -/
@[simp] theorem size_addGoto : (g.addGoto construct offset target).2.size = g.size + 1 := by
  simp [addGoto, addBlock, setEdge]

/-- A literal jump takes the next number. -/
theorem bare_addGoto (i : BlockId) :
    (g.addGoto construct offset target).2.bare i =
      if i = g.size then gotoBlock construct offset target else g.bare i := by
  -- The jump is a new block without edges that then gets its branch.
  have known : g.size < (g.addBlock (.structured construct) offset offset).2.size := by
    simp [addBlock]
  refine (bare_update (·.setEdge .branch (some target)) known (fun _ => rfl) i).trans ?_
  simp only [addBlock, bare_add]
  split
  · rfl
  · rfl

/-- A literal jump to a block of the graph keeps the predecessor sets. -/
theorem Mirrored.addGoto (mirrored : g.Mirrored) (inside : ∀ id, target = .block id → id < g.size) :
    (g.addGoto construct offset target).2.Mirrored := by
  -- The one edge of the jump is its branch.
  refine (mirrored.add (fun kind => by cases kind <;> rfl) rfl).update (Block.preds_setEdge _ _ _)
    fun {kind id} edge => ?_
  rw [block_add, if_pos rfl] at edge
  rw [size_add]
  refine Nat.lt_succ_of_lt (inside id ?_)
  cases kind with
  | branch => exact Option.some.inj edge
  | _ => cases edge

/-- Jumping to a target keeps the predecessor sets in step. -/
theorem Mirrored.jumpTo (mirrored : g.Mirrored) (inside : ∀ id, target = .block id → id < g.size) :
    (g.jumpTo construct offset target).2.Mirrored := by
  -- An exit is taken as it stands, and a block gets a literal jump.
  cases target with
  | exit way => exact mirrored
  | block id => exact mirrored.addGoto inside

/-- Jumping to a target loses no block. -/
theorem size_le_jumpTo : g.size ≤ (g.jumpTo construct offset target).2.size := by
  -- Only a target that is a block adds one.
  cases target with
  | exit way => exact Nat.le_refl _
  | block id => exact size_addGoto ▸ Nat.le_succ _

/-- A literal jump to a target where edges may lead keeps the links. -/
theorem Confined.addGoto (confined : g.Confined entered) (fits : target.Fits entered g.size) :
    (g.addGoto construct offset target).2.Confined entered := by
  -- The new block is added without edges, and then gets its branch.
  refine (confined.add _ (fun kind => by cases kind <;> rfl) rfl).setEdge fun way same => ?_
  cases same
  exact fits.mono (by simp)

/-- A literal jump to a block behind the entry keeps a linked graph linked. -/
theorem Linked.addGoto (linked : g.Linked)
    (behind : ∀ id, target = .block id → start < id ∧ id < g.size) :
    (g.addGoto construct offset target).2.Linked :=
  ⟨linked.toConfined.addGoto (.of_behind behind)⟩

end Goto

section JumpAll

/-- The targets with literal jumps to those that are blocks. -/
def jumpAll (construct : Construct) (offset : Offset) : List Target → Graph → List Target × Graph
  | [], g => ([], g)
  | target :: rest, g =>
    let (jump, g) := g.jumpTo construct offset target
    let (jumps, g) := jumpAll construct offset rest g
    (jump :: jumps, g)

/-- What is left of targets that blocks among them are reached through literal jumps. -/
structure Jumps (construct : Construct) (offset : Offset) (targets results : List Target)
    (g h : Graph) : Prop where
  linked : h.Linked
  grows : g.size ≤ h.size
  old : ∀ i < g.size, h.bare i = g.bare i
  gotos : ∀ i, g.size ≤ i → i < h.size →
    ∃ v, .block v ∈ targets ∧ h.bare i = gotoBlock construct offset (.block v)
  results : List.Forall₂ (fun target result => (∃ way, target = .exit way ∧ result = target) ∨
    ∃ v i, target = .block v ∧ g.size ≤ i ∧ i < h.size ∧ result = .block i ∧
      h.bare i = gotoBlock construct offset target) targets results

/-- Literal jumps to blocks behind the entry stand for their targets. -/
theorem jumps_jumpAll (construct : Construct) (offset : Offset) {targets : List Target}
    (linked : g.Linked) (behind : ∀ id, .block id ∈ targets → start < id ∧ id < g.size) :
    Jumps construct offset targets (jumpAll construct offset targets g).1 g
      (jumpAll construct offset targets g).2 := by
  -- By induction on the targets, where the graph grows with every jump.
  induction targets generalizing g with
  -- Without targets the graph stays as it is.
  | nil =>
    refine ⟨linked, Nat.le_refl _, fun i _ => rfl, fun i old new => ?_, .nil⟩
    exact absurd new (Nat.not_lt.mpr old)
  | cons target rest ih =>
    cases target with
    -- An exit is kept, so the graph is that of the other targets.
    | exit way =>
      obtain ⟨linked', grows, old, gotos, results⟩ :=
        ih linked fun id listed => behind id (List.mem_cons_of_mem _ listed)
      refine ⟨linked', grows, old, fun i isNew known => ?_, .cons (.inl ⟨way, rfl, rfl⟩) results⟩
      obtain ⟨v, listed, isGoto⟩ := gotos i isNew known
      exact ⟨v, List.mem_cons_of_mem _ listed, isGoto⟩
    | block v =>
      -- The first jump is made before the others, and they leave it as it is.
      have bounds := behind v List.mem_cons_self
      let first := (g.addGoto construct offset (.block v)).2
      have size : first.size = g.size + 1 := size_addGoto
      have jump : first.bare g.size = gotoBlock construct offset (.block v) :=
        (bare_addGoto _).trans (if_pos rfl)
      have linkedFirst : first.Linked := linked.addGoto fun id same => by cases same; exact bounds
      have made : jumpAll construct offset (.block v :: rest) g =
          (.block g.size :: (jumpAll construct offset rest first).1,
            (jumpAll construct offset rest first).2) := rfl
      obtain ⟨linked', grows, old, gotos, results⟩ := ih linkedFirst fun id listed => by
        have later := behind id (List.mem_cons_of_mem _ listed)
        exact ⟨later.1, size ▸ Nat.lt_succ_of_lt later.2⟩
      simp only [made]
      refine ⟨linked', by omega, fun i known => ?_, fun i isNew known => ?_, .cons ?_ ?_⟩
      · -- The blocks that were there are those of the graph before the first jump.
        exact (old i (by omega)).trans ((bare_addGoto i).trans (if_neg (Nat.ne_of_lt known)))
      · by_cases isFirst : i = g.size
        · -- The first jump has the number that was free.
          subst isFirst
          exact ⟨v, List.mem_cons_self, (old _ (by omega)).trans jump⟩
        · -- Any other new block is a jump of one of the later targets.
          obtain ⟨w, listed, isGoto⟩ := gotos i (by omega) known
          exact ⟨w, List.mem_cons_of_mem _ listed, isGoto⟩
      · -- The first target is reached through the first jump.
        exact .inr ⟨v, g.size, rfl, Nat.le_refl _, by omega, rfl, (old _ (by omega)).trans jump⟩
      · -- The others are reached through theirs, which are numbered behind it.
        refine results.imp fun target result made => made.imp_right ?_
        rintro ⟨w, i, same, isNew, known, isResult, isGoto⟩
        exact ⟨w, i, same, by omega, known, isResult, isGoto⟩

/-- The cases of a switch jump as their targets do. -/
theorem jumpCases_eq (offset : Offset) (cases : List SwitchCase) :
    jumpCases offset cases g =
      (cases.zipWith (fun entry target => { entry with target })
        (jumpAll .goto offset (cases.map (·.target)) g).1,
        (jumpAll .goto offset (cases.map (·.target)) g).2) := by
  -- Both go through their list in the same order, one jump after another.
  induction cases generalizing g with
  | nil => rfl
  | cons entry rest ih => simp [jumpCases, jumpAll, ih]

/-- The handlers of a try jump as their targets do. -/
theorem jumpHandlers_eq (offset : Offset) (handlers : List Handler) :
    jumpHandlers offset handlers g =
      (handlers.zipWith (fun handler target => { handler with target })
          (jumpAll .goto offset (handlers.map (·.target)) g).1,
        (jumpAll .goto offset (handlers.map (·.target)) g).2) := by
  -- As for the cases of a switch, by induction on the handlers.
  induction handlers generalizing g with
  | nil => rfl
  | cons handler rest ih => simp [jumpHandlers, jumpAll, ih]

end JumpAll

section CloseArm

/-- The last block of a chain that runs on into a block. -/
def joining? (arm : Arm) : Option BlockId := if arm.finish.isExit then none else arm.last?

/-- A chain with a joining block ends in a join, behind that block. -/
theorem joining?_eq_some {arm : Arm} {last : BlockId} (joins : joining? arm = some last) :
    arm.last? = some last ∧ ∃ join, arm.finish = .join join := by
  rw [joining?] at joins
  -- Only a chain that ends in a join has a joining block.
  cases finish : arm.finish with
  | join id => exact ⟨by simpa [finish, ArmEnd.isExit, ArmEnd.join?] using joins, id, rfl⟩
  | jump way | terminal => simp [finish, ArmEnd.isExit, ArmEnd.join?] at joins

/-- The last block of a chain that runs on into a block is settled and goes on there. -/
theorem Walked.joining {flow : Flow} {bounds : ArmBounds} {previous : Option BlockId}
    {seen : List BlockId} {cursor : Target} {arm : Arm}
    (walked : Walked g flow bounds previous seen cursor arm) {last : BlockId}
    (joins : joining? arm = some last) :
    last < g.size ∧ (g.bare last).isSettled = true ∧ (g.bare last).next.isSome := by
  -- The joining block is the last of the chain, and a chain only takes settled blocks.
  obtain ⟨ends, join, finish⟩ := joining?_eq_some joins
  obtain ⟨known, settled, -⟩ := walked.settled last (List.mem_of_getLast? ends)
  exact ⟨known, settled, by simp [(walked.joins finish ends).1]⟩

/-- Ending a chain with an exit changes its last block, if it runs on into a block. -/
theorem closeArm_eq (arm : Arm) (target : Target) :
    g.closeArm arm target = match joining? arm with
      | some last => g.setEdge last .next (some target)
      | none => g := by
  -- A chain has a joining block exactly if it ends in a join and has blocks.
  rw [closeArm, joining?]
  cases arm.finish <;> cases arm.last? <;> rfl

/-- Ending a chain adds no block. -/
@[simp] theorem size_closeArm {arm : Arm} {target : Target} :
    (g.closeArm arm target).size = g.size := by
  -- At most the next block of one block changes.
  rw [closeArm_eq]
  split
  · exact size_update _ _ _
  · rfl

/-- Ending a chain changes where its last block goes on, if it runs on into a block. -/
theorem bare_closeArm {arm : Arm} (known : ∀ last, joining? arm = some last → last < g.size)
    (target : Target) (i : BlockId) : (g.closeArm arm target).bare i =
      if joining? arm = some i then { g.bare i with next := some target } else g.bare i := by
  rw [closeArm_eq]
  -- A chain that does not run on into a block leaves the graph as it is.
  cases joins : joining? arm with
  | none => rfl
  | some last =>
    have changed := bare_update (·.setEdge .next (some target)) (known last joins) (fun _ => rfl) i
    refine changed.trans ?_
    -- Only the joining block changes.
    by_cases same : i = last
    · rw [if_pos same, if_pos (congrArg some same.symm), same]
      rfl
    · rw [if_neg same, if_neg fun joined => same (Option.some.inj joined).symm]

/-- The graph in which some chains that run on into blocks end with exits. -/
structure Ended (ways : Exit → Prop) (arms : List Arm) (g h : Graph) : Prop where
  linked : g.Linked → h.Linked
  size : h.size = g.size
  blocks : ∀ i, h.bare i = g.bare i ∨ (∃ arm ∈ arms, joining? arm = some i) ∧
    ∃ way, ways way ∧ h.bare i = { g.bare i with next := some (.exit way) }

/-- Where no chain has ended yet, no block has changed. -/
theorem Ended.refl {ways : Exit → Prop} {arms : List Arm} : Ended ways arms g g :=
  ⟨id, rfl, fun _ => .inl rfl⟩

/-- Ending one more chain. -/
theorem Ended.closeArm {h : Graph} {ways : Exit → Prop} {arms : List Arm} {arm : Arm} {way : Exit}
    (ended : Ended ways arms g h) (listed : arm ∈ arms)
    (known : ∀ last, joining? arm = some last → last < g.size) (allowed : ways way) :
    Ended ways arms g (h.closeArm arm (.exit way)) := by
  have inside : ∀ last, joining? arm = some last → last < h.size :=
    fun last joins => ended.size ▸ known last joins
  refine ⟨fun before => ?_, by rw [size_closeArm, ended.size], fun i => ?_⟩
  -- An exit in the place of a next block adds no target.
  · have linked := ended.linked before
    rw [closeArm_eq]
    -- A chain that does not run on changes nothing.
    split
    · refine linked.narrow (·.setEdge .next (some (.exit way))) (fun _ => rfl) (fun _ => rfl) ?_ ?_
      · intro kind target edge
        refine ⟨kind, ?_⟩
        cases kind <;> first | exact edge | cases edge
      · intro same
        exact same ▸ linked.rooted
    · exact linked
  · rw [bare_closeArm inside]
    split
    · next joins =>
      refine .inr ⟨⟨arm, listed, joins⟩, way, allowed, ?_⟩
      -- Whatever its next block was before, it is replaced.
      rcases ended.blocks i with before | ⟨-, other, -, before⟩ <;> rw [before]
    · -- Any other block is as the chains before have left it.
      exact ended.blocks i

/-- Ending several chains with the end of their body. -/
theorem ended_foldl_closeArm {arms : List Arm}
    (known : ∀ arm ∈ arms, ∀ last, joining? arm = some last → last < g.size) :
    Ended (· = .bodyEnd) arms g (arms.foldl (·.closeArm · .bodyEnd) g) := by
  -- The list of all chains stays fixed while the fold goes through the rest of it.
  suffices ∀ (rest : List Arm) (h : Graph), (∀ arm ∈ rest, arm ∈ arms) →
    Ended (· = .bodyEnd) arms g h →
      Ended (· = .bodyEnd) arms g (rest.foldl (·.closeArm · .bodyEnd) h) from
    this arms g (fun _ listed => listed) .refl
  intro rest
  induction rest with
  -- At the end of the list all chains have ended.
  | nil => exact fun h _ ended => ended
  | cons arm rest ih =>
    -- The first chain ends, and the graph it leaves is the one that the others start from.
    intro h listed ended
    have first := listed arm List.mem_cons_self
    exact ih _ (fun other later => listed other (List.mem_cons_of_mem _ later))
      (ended.closeArm first (known arm first) rfl)

/-- Ending the bodies of a switch. -/
theorem ended_closeBodies {join : Option BlockId} {bodies : List CaseBody}
    (known : ∀ body ∈ bodies, ∀ last, joining? body.arm = some last → last < g.size) :
    Ended (fun way => way = .bodyEnd ∨ way = .switchBreak) (bodies.map (·.arm)) g
      (g.closeBodies join bodies) := by
  -- The bodies are closed one after another, so the induction is on those that remain, with the
  -- full list of arms kept fixed.
  suffices ∀ (rest : List CaseBody) (h : Graph), (∀ body ∈ rest, body ∈ bodies) →
      Ended (fun way => way = .bodyEnd ∨ way = .switchBreak) (bodies.map (·.arm)) g h →
      Ended (fun way => way = .bodyEnd ∨ way = .switchBreak) (bodies.map (·.arm)) g
        (h.closeBodies join rest) from
    this bodies g (fun _ listed => listed) .refl
  intro rest
  induction rest with
  | nil => exact fun h _ ended => ended
  | cons body rest ih =>
    -- A body ends with a break or with its own end, and both ways are allowed.
    intro h listed ended
    have first := listed body List.mem_cons_self
    have arm : body.arm ∈ bodies.map (·.arm) := List.mem_map_of_mem first
    refine ih _ (fun other later => listed other (List.mem_cons_of_mem _ later)) ?_
    split
    · exact ended.closeArm arm (known body first) (.inr rfl)
    · exact ended.closeArm arm (known body first) (.inl rfl)

/-- Ending the bodies of a switch ends each of them in its own way, if they do not share blocks. -/
theorem bare_closeBodies {join : Option BlockId} {before after : List CaseBody} {body : CaseBody}
    {last : BlockId}
    (known : ∀ other ∈ before ++ body :: after, ∀ last, joining? other.arm = some last →
      last < g.size)
    (joins : joining? body.arm = some last)
    (alone : ∀ other ∈ before ++ after, joining? other.arm ≠ some last) :
    (g.closeBodies join (before ++ body :: after)).bare last = { g.bare last with
      next := some (if body.arm.finish.join? == join && !after.isEmpty then .exit .switchBreak
        else .bodyEnd) } := by
  -- The bodies in front of this one end other blocks, and so do those behind it.
  induction before generalizing g with
  | nil =>
    have own := known body List.mem_cons_self
    -- The first of the remaining bodies is this one.
    rw [List.nil_append, closeBodies]
    refine (((ended_closeBodies fun other later last joins => ?_).blocks last).resolve_right
      ?_).trans ?_
    · rw [size_closeArm]
      exact known other (List.mem_cons_of_mem _ later) last joins
    · -- The bodies that are ended later do not end with this block.
      rintro ⟨⟨arm, listed, joinsToo⟩, -⟩
      obtain ⟨other, isOther, rfl⟩ := List.mem_map.mp listed
      exact alone other isOther joinsToo
    · rw [bare_closeArm own, if_pos joins]
  | cons first before ih =>
    -- The first of the remaining bodies ends another block, which leaves this one as it was.
    rw [List.cons_append, closeBodies, ih]
    · rw [bare_closeArm (known first List.mem_cons_self), if_neg (alone first List.mem_cons_self)]
    · intro other listed last joins
      rw [size_closeArm]
      exact known other (List.mem_cons_of_mem _ listed) last joins
    · exact fun other listed => alone other (List.mem_cons_of_mem _ listed)

end CloseArm

section Precede

variable {id : BlockId} {new : Block} {accept : BlockId → Bool}

/-- A new block takes over what leads to another one from some blocks. -/
def precedeFrom (g : Graph) (id : BlockId) (new : Block) (accept : BlockId → Bool) : Graph :=
  (g.add new).2.redirectFrom id (.block g.size) accept

/-- A new block takes over what leads to another one. -/
def precede (g : Graph) (id : BlockId) (new : Block) : Graph :=
  (g.add new).2.redirect id (.block g.size)

/-- A block in front of another one is one block more. -/
@[simp] theorem size_precedeFrom : (g.precedeFrom id new accept).size = g.size + 1 := by
  simp [precedeFrom]

/-- The same holds if all edges are taken over. -/
@[simp] theorem size_precede : (g.precede id new).size = g.size + 1 := size_precedeFrom

/-- The new block keeps its fields, and the accepted blocks now lead to it. -/
theorem bare_precedeFrom (mirrored : g.Mirrored) (blank : ∀ kind, new.edge? kind = none)
    (alone : new.preds = ∅) (i : BlockId) :
    (g.precedeFrom id new accept).bare i =
      if i = g.size then new
      else if accept i then (g.bare i).replaceTarget (.block id) (.block g.size) else g.bare i := by
  have bare : new.bare = new := by rw [Block.bare, ← alone]
  have unchanged : new.replaceTarget (.block id) (.block g.size) = new :=
    Block.replaceTarget_eq_self _ fun kind edge => by cases (blank kind).symm.trans edge
  -- A block without edges is not changed by the redirection,
  -- and the others get their targets renamed.
  rw [precedeFrom, bare_redirectFrom (mirrored.add blank alone), bare_add]
  by_cases same : i = g.size
  · rw [if_pos same, if_pos same, bare, unchanged, ite_self]
  · rw [if_neg same, if_neg same]

/-- A new block in front of another one takes over the edges of all blocks. -/
theorem bare_precede (mirrored : g.Mirrored) (blank : ∀ kind, new.edge? kind = none)
    (alone : new.preds = ∅) (i : BlockId) :
    (g.precede id new).bare i =
      if i = g.size then new else (g.bare i).replaceTarget (.block id) (.block g.size) :=
  @bare_precedeFrom g id new (fun _ => true) mirrored blank alone i

/-- A new block without edges, put in front of another one, keeps the predecessor sets in step. -/
theorem Mirrored.precedeFrom (mirrored : g.Mirrored) (blank : ∀ kind, new.edge? kind = none)
    (alone : new.preds = ∅) : (g.precedeFrom id new accept).Mirrored := by
  -- The redirected edges lead to the new block, which is the last of the graph.
  refine (mirrored.add blank alone).redirectFrom fun target same => ?_
  cases same
  simp

/-- The same holds if all edges are taken over. -/
theorem Mirrored.precede (mirrored : g.Mirrored) (blank : ∀ kind, new.edge? kind = none)
    (alone : new.preds = ∅) : (g.precede id new).Mirrored :=
  mirrored.precedeFrom blank alone

/-- A new block in front of another one keeps edges where they may lead. -/
theorem Confined.precedeFrom (confined : g.Confined entered) (blank : ∀ kind, new.edge? kind = none)
    (alone : new.preds = ∅) : (g.precedeFrom id new accept).Confined entered := by
  -- The new block has the next number, and so lies behind the entry.
  refine (confined.add _ blank alone).redirectFrom ?_
  rw [size_add]
  exact confined.fits_size

/-- The same holds if all edges are taken over. -/
theorem Confined.precede (confined : g.Confined entered) (blank : ∀ kind, new.edge? kind = none)
    (alone : new.preds = ∅) : (g.precede id new).Confined entered :=
  confined.precedeFrom blank alone

/-- A new block in front of another one keeps a linked graph linked. -/
theorem Linked.precedeFrom (linked : g.Linked) (blank : ∀ kind, new.edge? kind = none)
    (alone : new.preds = ∅) : (g.precedeFrom id new accept).Linked :=
  ⟨linked.toConfined.precedeFrom blank alone⟩

/-- The same holds if all edges are taken over. -/
theorem Linked.precede (linked : g.Linked) (blank : ∀ kind, new.edge? kind = none)
    (alone : new.preds = ∅) : (g.precede id new).Linked :=
  linked.precedeFrom blank alone

end Precede

section Composite

variable {id : BlockId} {construct : Construct} {absorbed : List BlockId}

/-- A composite starts without edges. -/
theorem edge?_covering (construct : Construct) (blocks : List Block) (kind : EdgeKind) :
    (Block.covering construct blocks).edge? kind = none := by
  -- A covering block only takes the extent of what it covers.
  cases kind <;> rfl

/-- A composite takes over what leads to a block. -/
def absorb (g : Graph) (id : BlockId) (construct : Construct) (absorbed : List BlockId) : Graph :=
  g.precede id (Block.covering construct (absorbed.map g.block))

/-- A composite is one block more. -/
@[simp] theorem size_absorb : (g.absorb id construct absorbed).size = g.size + 1 := size_precede

/-- A composite covers its blocks, and everything that led to the first of them leads to it. -/
theorem bare_absorb (mirrored : g.Mirrored) (i : BlockId) :
    (g.absorb id construct absorbed).bare i =
      if i = g.size then Block.covering construct (absorbed.map g.block)
      else (g.bare i).replaceTarget (.block id) (.block g.size) :=
  bare_precede mirrored (edge?_covering _ _) rfl i

/-- Absorbing blocks keeps the predecessor sets in step. -/
theorem Mirrored.absorb (mirrored : g.Mirrored) : (g.absorb id construct absorbed).Mirrored :=
  mirrored.precede (edge?_covering _ _) rfl

/-- Absorbing blocks keeps a linked graph linked. -/
theorem Linked.absorb (linked : g.Linked) : (g.absorb id construct absorbed).Linked :=
  linked.precede (edge?_covering _ _) rfl

end Composite

end Unjump.Graph
