import Unjump.Proofs.Progress

/-!
What rules keep within reach.

A rule that cuts edges lets one block, the one that it is applied to or one that it makes, lead on
to where those edges led. So nothing gets out of reach unless that block does, apart from a jump
without code that makes way for its target.
-/

namespace Unjump

/-- Whether a block is a raw jump without code. -/
def Block.IsBareJump (b : Block) : Prop := (b.type = .raw .goto ∨ b.type = .raw .jump) ∧ b.code = []

/-- A closed test is raw code only if it was. -/
theorem Block.type_of_closed {b : Block} {invert : Bool} {type : RawType}
    (isRaw : (b.closed invert).type = .raw type) : b.type = .raw type := by
  -- Closing settles a raw conditional and leaves every other type alone.
  have closed : (b.closed invert).type = if b.type = .raw .conditional then .structured .condition
      else b.type := rfl
  rw [closed] at isRaw
  split at isRaw
  · cases isRaw
  · exact isRaw

namespace Graph

open Relation (ReflTransGen)

variable {g h : Graph} {flow : Flow} {id root : BlockId}

/-- A change after which every edge is still a walk, or else a walk leads from one block to its
target. No raw code is new. -/
structure Anchored (g : Graph) (root : BlockId) (h : Graph) : Prop where
  leads : ∀ {u v}, g.Reached u → g.Leads u v →
    ReflTransGen h.Leads u v ∨ ReflTransGen h.Leads root v
  raw : ∀ {i type}, (h.bare i).type = .raw type → (g.bare i).type = .raw type

/-- Everything stays within reach if the one block does. -/
theorem Anchored.reached (anchored : Anchored g root h) (found : h.Reached root) {u : BlockId}
    (reached : g.Reached u) : h.Reached u := by
  -- Along the old path; where an edge is missing, the walk starts again at the one block.
  induction reached with
  | refl => exact .refl
  | tail before leads ih =>
    rcases anchored.leads before leads with walk | walk
    · exact ih.trans walk
    · exact found.trans walk

/-- The first way to a block leads to the one in its place if the edges along that way are kept. -/
theorem reached_of_arrival (reached : g.Reached id) (notStart : id ≠ start)
    (kept : ∀ {u v}, g.ReachedAvoiding id u → g.Leads u v → v ≠ id → ReflTransGen h.Leads u v)
    (enters : ∀ {u}, g.ReachedAvoiding id u → g.Leads u id → ReflTransGen h.Leads u root) :
    h.Reached root := by
  -- Up to the block, every edge is kept.
  have around : ∀ {u}, g.ReachedAvoiding id u → h.Reached u := fun path =>
    path.induction h.Reached (fun _ => .refl) fun before ih leads other =>
      ih.trans (kept before leads other)
  -- A walk to any block passes the given one, or goes around it.
  have passes : ∀ {u}, g.Reached u → h.Reached root ∨ g.ReachedAvoiding id u := by
    intro u reached
    induction reached with
    | refl => exact .inr ⟨Ne.symm notStart, .refl⟩
    | @tail u v _ leads ih =>
      refine ih.elim .inl fun before => ?_
      by_cases same : v = id
      · exact .inl ((around before).trans (enters before (same ▸ leads)))
      · exact .inr (before.step leads same)
  exact (passes reached).resolve_right fun path => path.ne rfl

/-- Everything stays within reach if every edge is still a walk. -/
theorem reached_of_walks (walks : ∀ {u v}, g.Leads u v → ReflTransGen h.Leads u v) {u : BlockId}
    (reached : g.Reached u) : h.Reached u := by
  -- Along the path, one walk for each of its edges.
  induction reached with
  | refl => exact .refl
  | tail _ leads ih => exact ih.trans (walks leads)

/-- An edge to a block is an edge of the renamed block, unless it leads to what has been renamed. -/
theorem edge?_replaceTarget_of_ne {b : Block} {kind : EdgeKind} {v : BlockId} {new : Target}
    (edge : b.edge? kind = some (.block v)) (other : v ≠ id) :
    (b.replaceTarget (.block id) new).edge? kind = some (.block v) := by
  -- The target is another one than the renamed block.
  rw [Block.edge?_replaceTarget, edge, Option.map_some, Target.renamed_ne (by simpa using other)]

section Plain

/-- Settling a block keeps its edges. -/
theorem leads_settle {construct : Construct} (known : id < g.size) {u v : BlockId}
    (leads : g.Leads u v) : (g.settle id construct).Leads u v := by
  obtain ⟨kind, edge⟩ := leads
  refine ⟨kind, ?_⟩
  rw [bare_settle known]
  -- A settled block keeps all of its edges.
  split
  · next same =>
    subst same
    exact edge
  · exact edge

/-- Settling a block anchors everything at the entry, as all edges stay. -/
theorem anchored_settle {construct : Construct} (known : id < g.size) :
    Anchored g start (g.settle id construct) := by
  -- The block itself is raw no more.
  refine ⟨fun _ leads => .inl (.single (leads_settle known leads)), fun {i type} isRaw => ?_⟩
  rw [bare_settle known] at isRaw
  split at isRaw
  · cases isRaw
  · exact isRaw

/-- The rule for plain code settles the block. -/
theorem settlePlain_cases (applied : g.settlePlain flow id = some h) :
    ∃ construct, g.settle id construct = h := by
  -- The rule looks for a construct that the raw type stands for.
  unfold settlePlain at applied
  split at applied
  · obtain ⟨construct, -, made⟩ := Option.map_eq_some_iff.mp applied
    exact ⟨construct, made⟩
  · cases applied

/-- A block without code that makes way for its target keeps everything else within reach. -/
theorem reached_bypass (linked : g.Linked) (known : id < g.size) {target : Target}
    (next : (g.bare id).next = some target) (other : target ≠ .block id)
    (own : ∀ kind, ((g.bare id).edge? kind).isSome → kind = .next) (notStart : id ≠ start)
    {u : BlockId} (reached : g.Reached u) :
    (u ≠ id → ((g.redirect id target).detach id).Reached u) ∧
      ∀ v, u = id → target = .block v → ((g.redirect id target).detach id).Reached v := by
  have blocks := bare_bypass linked known target
  -- Whoever led to the block leads to its target now.
  induction reached with
  | refl => exact ⟨fun _ => .refl, fun v same => absurd same.symm notStart⟩
  | @tail u v _ leads ih =>
    obtain ⟨kind, edge⟩ := leads
    -- The only edge of the block is the one to its target.
    by_cases isOwn : u = id
    · subst isOwn
      obtain rfl := own kind (by rw [edge]; rfl)
      have isTarget : target = .block v := Option.some.inj (next.symm.trans edge)
      refine ⟨fun _ => ih.2 v rfl isTarget, fun _ same => ?_⟩
      subst same
      exact absurd isTarget other
    · have before := ih.1 isOwn
      refine ⟨fun differs => before.step ⟨kind, ?_⟩, fun w same isTarget => before.step ⟨kind, ?_⟩⟩
      · rw [blocks, if_neg isOwn]
        exact edge?_replaceTarget_of_ne edge differs
      · subst same
        rw [blocks, if_neg isOwn, Block.edge?_replaceTarget, edge, Option.map_some,
          Target.renamed_self, isTarget]

/-- A jump that is dropped is the only block that gets out of reach. -/
theorem reached_dropGoto (sound : g.Sound) (reached : g.Reached id)
    (applied : g.dropGoto flow id = some h) :
    (∀ u, g.Reached u → h.Reached u ∨
      u = id ∧ ((g.bare id).type = .raw .goto ∨ (g.bare id).type = .raw .jump) ∧
      (g.bare id).code = []) ∧
      ∀ i type, (h.bare i).type = .raw type → (g.bare i).type = .raw type := by
  have known := reached.lt_size sound.toLinked
  obtain ⟨either, made⟩ := dropGoto_cases applied
  obtain ⟨type, isRaw, isJump⟩ : ∃ type, (g.bare id).type = .raw type ∧
      (type = .goto ∨ type = .jump) := by
    rcases either with isGoto | isJump
    · exact ⟨.goto, isGoto, .inl rfl⟩
    · exact ⟨.jump, isJump, .inr rfl⟩
  have own : ∀ kind, ((g.bare id).edge? kind).isSome → kind = .next := fun kind has =>
    jump_own isJump ((sound.shaped reached).own type isRaw kind has)
  -- The jump leads to itself, makes way for its target or is kept as a block of its own.
  rcases made with ⟨-, next, rfl⟩ | ⟨target, empty, next, other, rfl⟩ | rfl
  · -- A jump to itself can do without its edge.
    have blocks : ∀ i,
        (g.update id ({ · with type := .structured .infiniteGoto, next := none })).bare i = _ :=
      bare_update _ known fun _ => rfl
    refine ⟨fun u reached => .inl ?_, fun i type isRaw => ?_⟩
    · refine reached_of_walks (fun {u v} leads => ?_) reached
      obtain ⟨kind, edge⟩ := leads
      -- The only edge of the jump leads to the jump itself.
      by_cases same : u = id
      · subst same
        obtain rfl := own kind (by rw [edge]; rfl)
        cases next.symm.trans edge
        exact .refl
      · exact .single ⟨kind, by rw [blocks, if_neg same, edge]⟩
    · rw [blocks] at isRaw
      split at isRaw
      · cases isRaw
      · exact isRaw
  · -- A jump that makes way is out of reach, and its target takes its place.
    have blocks := bare_bypass sound.toLinked known target
    refine ⟨fun u reached => ?_, fun i type isRaw => ?_⟩
    · by_cases same : u = id
      · exact .inr ⟨same, either, empty⟩
      · exact .inl
          ((reached_bypass sound.toLinked known next other own
            (sound.toLinked.ne_start_of_raw isRaw) reached).1 same)
    · rw [blocks] at isRaw
      split at isRaw
      · next same =>
        subst same
        exact isRaw
      · exact isRaw
  · -- A jump that is kept has the edges that it had.
    exact ⟨fun u reached =>
      .inl (reached_of_walks (fun leads => .single (leads_settle known leads)) reached),
      fun i type isRaw => (anchored_settle known).raw isRaw⟩

end Plain

section Combine

variable {construct : Construct} {operands : List (BlockId × Bool)} {fields : Block → Block}

/-- A test over others leads on to where they led, if it leads to the first of them. -/
theorem anchored_combine (mirrored : g.Mirrored) (distinct : (operands.map (·.1)).Nodup)
    (known : ∀ operand ∈ operands, operand.1 < g.size) (pure : ∀ b, (fields b).bare = fields b.bare)
    (structured : ∀ b type, (fields (Block.covering construct b)).type ≠ .raw type)
    (first : ∃ kind, (fields (Block.covering construct ((operands.map (·.1)).map g.block))).edge?
      kind = some (.block id))
    (covers : ∀ operand ∈ operands, ∀ kind v, kind = .next ∨ kind = .branch →
      (g.bare operand.1).edge? kind = some (.block v) →
      ∃ kind, (fields (Block.covering construct ((operands.map (·.1)).map g.block))).edge? kind =
        some (.block v)) :
    Anchored g g.size (g.combine id construct operands fields) := by
  have blocks : ∀ i, (g.combine id construct operands fields).bare i = _ :=
    bare_combine mirrored distinct known pure
  have composite : ∀ {v},
    (∃ kind, (fields (Block.covering construct ((operands.map (·.1)).map g.block))).edge? kind =
      some (.block v)) → (g.combine id construct operands fields).Leads g.size v := by
    rintro v ⟨kind, edge⟩
    exact ⟨kind, by rw [blocks, if_pos rfl, edge]⟩
  constructor
  · rintro u v - ⟨kind, edge⟩
    have old : u < g.size := lt_size_of_edge edge
    -- What led to the first test leads to the composite, from which the first test
    -- is still reached.
    by_cases isFirst : v = id
    · subst isFirst
      exact .inr (.single (composite first))
    have renamed : ((g.bare u).replaceTarget (.block id) (.block g.size)).edge? kind =
        some (.block v) :=
      edge?_replaceTarget_of_ne edge isFirst
    cases isOperand : operands.lookup u with
    | none =>
      exact .inl (.single ⟨kind, by rw [blocks, if_neg (Nat.ne_of_lt old), isOperand, renamed]⟩)
    | some invert =>
      by_cases goesOn : kind = .next ∨ kind = .branch
      -- The successors of an operand are those of the whole.
      · obtain ⟨before, after, listed, -⟩ := List.lookup_eq_some_iff.mp isOperand
        exact .inr (.single (composite (covers (u, invert) (by simp [listed]) kind v goesOn edge)))
      · refine .inl (.single ⟨kind, ?_⟩)
        rw [blocks, if_neg (Nat.ne_of_lt old), isOperand, Block.edge?_closed,
          if_neg goesOn, renamed]
  · -- The composite is no raw code, and a test that is closed is raw no more.
    intro i type isRaw
    rw [blocks] at isRaw
    split at isRaw
    · exact absurd isRaw (structured _ type)
    · split at isRaw
      · exact (Block.type_of_closed isRaw :)
      · exact isRaw

/-- A test that joins two leads on to where they led. -/
theorem anchored_mergeTests (linked : g.Linked) (applied : g.mergeTests flow id = some h) :
    Anchored g g.size h := by
  -- The two tests stay behind as the parts of the composite.
  obtain ⟨second, construct, invert, -, next, other, -, joint, rfl⟩ := mergeTests_cases applied
  have leads : g.Leads id second := ⟨.next, next⟩
  refine anchored_combine linked.toMirrored (by simpa using Ne.symm other) ?_ (fun _ => rfl) ?_
    ⟨.sub1, rfl⟩ ?_
  · simpa using ⟨leads.lt_size, linked.bounded leads⟩
  · -- The composite is structured from the start.
    intro b type isRaw
    cases isRaw
  · intro operand listed kind v goesOn edge
    simp only [List.mem_cons, List.not_mem_nil, or_false] at listed
    rcases listed with rfl | rfl
    · rcases goesOn with rfl | rfl
      · cases next.symm.trans edge
        exact ⟨.sub2, rfl⟩
      -- The first test branches to one of the successors of the second one.
      · have branch : (g.block id).branch = some (.block v) := edge
        simp only [joint?] at joint
        split at joint
        · next same => exact ⟨.branch, same.trans branch⟩
        · split at joint
          · next same => exact ⟨.next, same.trans branch⟩
          · cases joint
    · rcases goesOn with rfl | rfl
      · -- The second test leads where the composite does.
        exact ⟨.next, edge⟩
      · exact ⟨.branch, edge⟩

/-- A test that selects one of two others leads on to where they led. -/
theorem anchored_selectTest (linked : g.Linked) (applied : g.selectTest flow id = some h) :
    Anchored g g.size h := by
  obtain ⟨failed, held, -, next, branch, differ, notFailed, notHeld, -, -, sameNext,
      sameBranch, rfl⟩ :=
    selectTest_cases applied
  -- All three tests stay behind as the parts of the composite.
  have leadsFailed : g.Leads id failed := ⟨.next, next⟩
  have leadsHeld : g.Leads id held := ⟨.branch, branch⟩
  refine anchored_combine linked.toMirrored ?_ ?_ (fun _ => rfl) ?_ ⟨.condition, rfl⟩ ?_
  · simp [Ne.symm notFailed, Ne.symm notHeld, differ]
  · simpa using ⟨leadsFailed.lt_size, linked.bounded leadsFailed, linked.bounded leadsHeld⟩
  · intro b type isRaw
    cases isRaw
  · intro operand listed kind v goesOn edge
    simp only [List.mem_cons, List.not_mem_nil, or_false] at listed
    rcases listed with rfl | rfl | rfl
    · -- The first test leads to the other two.
      rcases goesOn with rfl | rfl
      · cases next.symm.trans edge
        exact ⟨.sub2, rfl⟩
      · cases branch.symm.trans edge
        exact ⟨.sub1, rfl⟩
    · -- The test that is asked on failure leads where the composite does.
      rcases goesOn with rfl | rfl
      · exact ⟨.next, edge⟩
      · exact ⟨.branch, edge⟩
    -- The tests that are selected agree on where they lead.
    · rcases goesOn with rfl | rfl
      · exact ⟨.next, sameNext.trans edge⟩
      · exact ⟨.branch, sameBranch.trans edge⟩

end Combine

/-- Lists that are related item by item relate every item. -/
theorem exists_of_forall₂ {α β : Type} {R : α → β → Prop} {as : List α} {bs : List β}
    (related : List.Forall₂ R as bs) {a : α} (listed : a ∈ as) : ∃ b ∈ bs, R a b := by
  -- By induction on the two lists.
  induction related with
  | nil => cases listed
  | cons first _ ih =>
    rcases List.mem_cons.mp listed with rfl | listed
    · exact ⟨_, List.mem_cons_self, first⟩
    · obtain ⟨b, isListed, relates⟩ := ih listed
      exact ⟨b, List.mem_cons_of_mem _ isListed, relates⟩

/-- Every block among the targets has a literal jump to it. -/
theorem Jumps.exists_goto {construct : Construct} {offset : Offset} {targets results : List Target}
    (jumps : Jumps construct offset targets results g h) {v : BlockId}
    (listed : .block v ∈ targets) :
    ∃ goto, g.size ≤ goto ∧ goto < h.size ∧ .block goto ∈ results ∧
      h.bare goto = gotoBlock construct offset (.block v) := by
  -- In the place of a block stands a jump to it; only exits stand for themselves.
  obtain ⟨result, isResult, ⟨way, isExit, -⟩ | ⟨_, goto, isBlock, above, below, rfl, isGoto⟩⟩ :=
    exists_of_forall₂ jumps.results listed
  · cases isExit
  · exact ⟨goto, above, below, isResult, isGoto⟩

section Choose

variable {base : Graph} {test : BlockId} {choice : Choice}

/-- A choice leads to its parts. -/
theorem Chosen.leads (chosen : Chosen g test choice h) {v : BlockId}
    (part : v = test ∨ choice.body = .block v ∨ choice.otherwise = some (.block v) ∨
      choice.next = some (.block v)) :
    h.Leads g.size v := by
  -- Each part is an edge of the choice.
  rcases part with rfl | body | otherwise | next
  · exact ⟨.condition, by rw [chosen.composite]; rfl⟩
  · exact ⟨.sub1, by rw [chosen.composite, ← body]; rfl⟩
  · exact ⟨.sub2, by rw [chosen.composite, ← otherwise]; rfl⟩
  · exact ⟨.next, by rw [chosen.composite, ← next]; rfl⟩

/-- Raw code beside a choice was there before. -/
theorem Chosen.raw_before (chosen : Chosen g test choice h) (jumped : Jumped base test choice g)
    {i : BlockId} {type : RawType} (isRaw : (h.bare i).type = .raw type) :
    (base.bare i).type = .raw type := by
  -- The choice is the last block, and it is structured.
  have inside : i < g.size + 1 := chosen.size ▸ lt_size_of_raw isRaw
  rcases Nat.lt_succ_iff_lt_or_eq.mp inside with below | same
  · have before : (g.bare i).type = .raw type := by
      by_cases isOwn : i = test
      · subst isOwn
        rw [chosen.closed] at isRaw
        exact (Block.type_of_closed isRaw :)
      · rcases chosen.others i below isOwn with same | ⟨-, same⟩ <;>
          rw [same] at isRaw <;> exact isRaw
    by_cases known : i < base.size
    · rw [← jumped.old i known, before]
    · -- A literal jump is no raw code.
      obtain ⟨construct, offset, v, isGoto, -⟩ := jumped.gotos i (Nat.not_lt.mp known) below
      rw [isGoto] at before
      cases before
  · rw [same, chosen.composite] at isRaw
    cases isRaw

/-- A choice leads on to where its test and its chains led. -/
theorem Chosen.anchored (chosen : Chosen g test choice h) (jumped : Jumped base test choice g)
    (successors : ∀ v, (base.bare test).next = some (.block v) ∨
      (base.bare test).branch = some (.block v) → ReflTransGen h.Leads g.size v)
    (joins : ∀ arm ∈ choice.arms, ∀ last v, joining? arm = some last →
      (base.bare last).next = some (.block v) → ReflTransGen h.Leads g.size v) :
    Anchored base g.size h := by
  constructor
  · rintro u v - ⟨kind, edge⟩
    have known : u < base.size := lt_size_of_edge edge
    -- What led to the test leads to the choice now.
    by_cases isTest : v = test
    · exact .inr (.single (chosen.leads (.inl isTest)))
    have renamed : ((g.bare u).replaceTarget (.block test) (.block g.size)).edge? kind =
        some (.block v) := by
      rw [jumped.old u known]
      exact edge?_replaceTarget_of_ne edge isTest
    -- The test loses its ways on to the choice, and all other blocks keep theirs unless they end a
    -- chain.
    by_cases isOwn : u = test
    · subst isOwn
      by_cases goesOn : kind = .next ∨ kind = .branch
      · refine .inr (successors v ?_)
        rcases goesOn with rfl | rfl
        · exact .inl edge
        · exact .inr edge
      · exact .inl
          (.single ⟨kind, by rw [chosen.closed, Block.edge?_closed, if_neg goesOn, renamed]⟩)
    · rcases chosen.others u (Nat.lt_of_lt_of_le known jumped.grows) isOwn
        with same | ⟨⟨arm, listed, joining⟩, same⟩
      · exact .inl (.single ⟨kind, by rw [same, renamed]⟩)
      -- The last block of a chain loses the edge to where the chain runs on.
      · by_cases isNext : kind = .next
        · subst isNext
          exact .inr (joins arm listed u v joining edge)
        · refine .inl (.single ⟨kind, ?_⟩)
          rw [same, ← renamed]
          cases kind <;> first | rfl | exact absurd rfl isNext
  · exact chosen.raw_before jumped

/-- The successors of a test are parts of the choice over it. -/
theorem Chooses.covers {next branch : Target} (chooses : Chooses g flow id next branch choice)
    {v : BlockId} (successor : next = .block v ∨ branch = .block v) :
    choice.body = .block v ∨ choice.otherwise = some (.block v) ∨
      choice.next = some (.block v) := by
  -- One case per form of the choice; where the two ways differ, each has become a part of its own.
  cases chooses with
  | effect => exact .inr (.inr (congrArg some (or_self_iff.mp successor)))
  | leave differ => exact .inr (.inr (congrArg some (successor.resolve_right (by simp))))
  | leaveElse => exact .inr (.inr (congrArg some (successor.resolve_left (by simp))))
  | ifNot => exact successor.elim .inl fun same => .inr (.inr (congrArg some same))
  | ifSo => exact successor.elim (fun same => .inr (.inr (congrArg some same))) .inl
  | both => exact successor.elim .inl fun same => .inr (.inl (congrArg some same))

/-- A choice that takes in chains leads on to where its test and its chains led. -/
theorem anchored_nestIf (sound : g.Sound) (applied : g.nestIf flow id = some h) :
    Anchored g g.size h := by
  -- The successors of the test are parts of the choice.
  obtain ⟨next, branch, choice, isOpen, isNext, isBranch, -, chooses, rfl⟩ := nestIf_cases applied
  have chosen := chosen_nestIf sound.toMirrored isOpen chooses
  refine chosen.anchored (chooses.jumped isOpen) ?_ ?_
  · intro v successor
    rw [isNext, isBranch, Option.some.injEq, Option.some.injEq] at successor
    exact .single (chosen.leads (.inr (chooses.covers successor)))
  -- Where a chain ran on, the choice goes on.
  · intro arm listed last v joining edge
    obtain ⟨ends, join, finish⟩ := joining?_eq_some joining
    obtain ⟨_, _, -, -, -, walked⟩ := chooses.walked arm listed
    cases (walked.joins finish ends).1.symm.trans edge
    exact .single (chosen.leads (.inr (.inr (.inr (chooses.joins listed finish)))))

/-- A choice without chains is within reach if its test was. -/
theorem Chosen.reached (chosen : Chosen g test choice h) (jumped : Jumped base test choice g)
    (noArms : choice.arms = []) (reached : base.Reached test) (notStart : test ≠ start) :
    h.Reached g.size := by
  -- Without chains, blocks change in where they lead for the test only.
  have renamed : ∀ u < base.size, u ≠ test →
      h.bare u = (base.bare u).replaceTarget (.block test) (.block g.size) := by
    intro u known other
    rcases chosen.others u (Nat.lt_of_lt_of_le known jumped.grows) other
      with same | ⟨⟨arm, listed, -⟩, -⟩
    · rw [same, jumped.old u known]
    · rw [noArms] at listed
      cases listed
  -- On the first way to the test no block is changed but in where it leads for the test.
  refine reached_of_arrival reached notStart ?_ ?_
  · rintro u v path ⟨kind, edge⟩ other
    refine .single ⟨kind, ?_⟩
    rw [renamed u (lt_size_of_edge edge) path.ne]
    exact edge?_replaceTarget_of_ne edge other
  · rintro u path ⟨kind, edge⟩
    refine .single ⟨kind, ?_⟩
    rw [renamed u (lt_size_of_edge edge) path.ne, Block.edge?_replaceTarget, edge, Option.map_some,
      Target.renamed_self]

/-- A test whose branch becomes a literal jump leads on to where it led, and is within reach. -/
theorem anchored_jumpTest (sound : g.Sound) (reached : g.Reached id)
    (applied : g.jumpTest flow id = some h) : ∃ root, h.Reached root ∧ Anchored g root h := by
  -- The new choice has the literal jump as its body and no chains.
  obtain ⟨next, branch, isOpen, isNext, isBranch, rfl⟩ := jumpTest_cases applied
  have linked := sound.toLinked
  have known := reached.lt_size linked
  have notStart := linked.ne_start_of_isCondition (isOpenCondition_iff.mp isOpen).1
  have jumps := jumps_jumpTo (g.testJump id branch) (g.block id).finish branch linked fun v same =>
    linked.behind ⟨.branch, same ▸ isBranch⟩
  have chosen :=
    chosen_jumpTest linked.toMirrored next isBranch (g.testJump id branch) (g.block id).finish
  have jumped :=
    jumped_jumpTest linked next isBranch (g.testJump id branch) testJump_isGoto (g.block id).finish
  refine ⟨_, chosen.reached jumped rfl reached notStart, chosen.anchored jumped ?_ ?_⟩
  · intro v successor
    by_cases isTest : v = id
    · exact .single (chosen.leads (.inl isTest))
    rw [isNext, isBranch, Option.some.injEq, Option.some.injEq] at successor
    rcases successor with rfl | rfl
    · exact .single (chosen.leads (.inr (.inr (.inr rfl))))
    -- The branch is reached through the literal jump.
    · obtain ⟨goto, above, below, body, isGoto⟩ := jumps.exists_goto (List.mem_singleton_self _)
      refine .head (chosen.leads (.inr (.inl (List.mem_singleton.mp body).symm)))
        (.single ⟨.branch, ?_⟩)
      have old : id < goto := Nat.lt_of_lt_of_le known above
      obtain same | ⟨⟨arm, listed, -⟩, -⟩ := chosen.others goto below (Nat.ne_of_gt old)
      · rw [same, isGoto]
        exact edge?_replaceTarget_of_ne rfl isTest
      · cases listed
  · -- There are no chains.
    exact fun arm listed => absurd listed List.not_mem_nil

end Choose

section Nest

/-- A block leads on to where the chains ran that are nested in it. -/
theorem Nested.anchored {ways : Exit → Prop} {arms : List Arm} {c : Block}
    (nested : Nested ways arms g id c h) (structured : ∀ type, c.type ≠ .raw type)
    (own : ∀ kind v, (g.bare id).edge? kind = some (.block v) →
      ∃ kind, c.edge? kind = some (.block v))
    (joins : ∀ arm ∈ arms, ∀ last v, joining? arm = some last →
      (g.bare last).next = some (.block v) → ∃ kind, c.edge? kind = some (.block v)) :
    Anchored g id h := by
  constructor
  · rintro u v - ⟨kind, edge⟩
    -- The block itself has got edges of its own.
    by_cases isOwn : u = id
    · subst isOwn
      obtain ⟨kind, edge⟩ := own kind v edge
      exact .inl (.single ⟨kind, nested.own ▸ edge⟩)
    · rcases nested.others u isOwn with same | ⟨⟨arm, listed, joining⟩, way, -, same⟩
      · exact .inl (.single ⟨kind, same ▸ edge⟩)
      -- Closing an arm takes the way on from its last block;
      -- the construct itself leads there instead.
      · by_cases isNext : kind = .next
        · subst isNext
          obtain ⟨kind, edge⟩ := joins arm listed u v joining edge
          exact .inr (.single ⟨kind, nested.own ▸ edge⟩)
        · refine .inl (.single ⟨kind, ?_⟩)
          rw [same, ← edge]
          cases kind <;> first | rfl | exact absurd rfl isNext
  · -- Neither the construct nor the end of a chain is new raw code.
    intro i type isRaw
    by_cases isOwn : i = id
    · rw [isOwn, nested.own] at isRaw
      exact absurd isRaw (structured type)
    · rcases nested.others i isOwn with same | ⟨-, way, -, same⟩ <;>
        rw [same] at isRaw <;> exact isRaw

/-- The body that follows another one is one of the bodies. -/
theorem Bodies.following {previous : Option Arm} {heads : List BlockId} {bodies : List CaseBody}
    (isBodies : Bodies g flow id previous heads bodies) {body : CaseBody} (listed : body ∈ bodies)
    {head : BlockId} (follows : body.following = some head) : head ∈ heads := by
  -- The body after a body has the next head, which is one of those that are left.
  induction isBodies with
  | nil => cases listed
  | cons bounds entry walked others ih =>
    rcases List.mem_cons.mp listed with rfl | listed
    · exact List.mem_cons_of_mem _ (List.mem_of_head? follows)
    · exact List.mem_cons_of_mem _ (ih listed)

/-- A switch that takes in its bodies leads on to where it and its bodies led. -/
theorem anchored_nestSwitch (sound : g.Sound) (reached : g.Reached id)
    (applied : g.nestSwitch flow id = some h) : Anchored g id h := by
  -- A case that is cut off led to the join.
  obtain ⟨join, trim, isSwitch, -, arms, cases, rfl⟩ := nestSwitch_cases applied
  have own : ∀ kind v, (g.bare id).edge? kind = some (.block v) → ∃ kind,
      ({ g.bare id with
        type := .structured .switch, cases := trim (g.bare id).cases, next := join.map .block } :
          Block).edge? kind = some (.block v) := by
    intro kind v edge
    -- A raw switch has cases and nothing else.
    have isCase := (sound.shaped reached).own .switch isSwitch kind (by rw [edge]; rfl)
    cases kind with
    | case i =>
      obtain ⟨entry, listed, target⟩ := Block.edge?_case_mem edge
      obtain ⟨after, isLeft, same⟩ | ⟨j, rfl, same⟩ := (cases (g.bare id).cases).kept entry listed
      · obtain ⟨i, found⟩ :=
          Block.edge?_of_mem_cases (b := { g.bare id with cases := trim (g.bare id).cases }) isLeft
        exact ⟨.case i, found.trans (congrArg some (same.trans target))⟩
      · exact ⟨.next, congrArg some (same.symm.trans target)⟩
    | _ => cases isCase
  refine (nested_nestSwitch sound reached isSwitch arms cases).anchored
    (fun type isRaw => by cases isRaw) own ?_
  intro arm listed last v joining edge
  obtain ⟨body, isBody, rfl⟩ := List.mem_map.mp listed
  obtain ⟨isBody, notJoin⟩ := List.mem_filter.mp isBody
  obtain ⟨ends, j, finish⟩ := joining?_eq_some joining
  obtain ⟨-, bounds, walked⟩ := arms.isBodies.walked body isBody
  cases (walked.joins finish ends).1.symm.trans edge
  -- A body that runs on does so at the join or falls through into another body.
  have closed := arms.closed body isBody (by simpa using notJoin)
  simp only [CaseBody.isClosed, finish, ArmEnd.isExit, ArmEnd.join?, Bool.and_eq_true,
    Bool.or_eq_true, beq_iff_eq, Option.isNone_some, Bool.false_eq_true, false_or] at closed
  rcases closed.2 with isJoin | falls
  · exact ⟨.next, by rw [← isJoin]; rfl⟩
  · cases follows : body.following with
    | none => simp [CaseBody.fallsThrough, follows] at falls
    | some head =>
      obtain rfl : v = head := by simpa [CaseBody.fallsThrough, follows, finish] using falls
      obtain ⟨i, isCase⟩ := (arms.isHead v).mp (arms.isBodies.following isBody follows)
      exact own (.case i) v isCase

/-- A protected region that takes in its parts leads on to where it and they led. -/
theorem anchored_nestTry (sound : g.Sound) (reached : g.Reached id)
    (applied : g.nestTry flow id = some h) : Anchored g id h := by
  -- The parts stay the targets of the construct.
  obtain ⟨next, heads, body, handlers, join, construct, isTry, arms, isJoin, -, -, rfl⟩ :=
    nestTry_cases applied
  refine (nested_nestTry sound reached isTry arms isJoin).anchored
    (fun type isRaw => by cases isRaw) ?_ ?_
  · intro kind v edge
    -- A raw entry has its protected code and its handlers, and nothing else.
    have isOwn := (sound.shaped reached).own .tryBlock isTry kind (by rw [edge]; rfl)
    cases kind with
    | next => exact ⟨.sub1, arms.isNext.symm.trans edge⟩
    | handler i =>
      obtain ⟨handler, listed, target⟩ := Block.edge?_handler_mem edge
      obtain ⟨i, found⟩ := Block.edge?_of_mem_handlers
        (b := { g.bare id with handlers := finallyLast (g.bare id).handlers })
        (mem_finallyLast.mpr listed)
      exact ⟨.handler i, found.trans (congrArg some target)⟩
    | _ => cases isOwn
  -- Where a chain ran on, the construct goes on.
  · intro arm listed last v joining edge
    obtain ⟨ends, j, finish⟩ := joining?_eq_some joining
    obtain ⟨_, _, -, walked, -⟩ := arms.walked arm listed
    cases (walked.joins finish ends).1.symm.trans edge
    exact ⟨.next, by rw [tryJoin?_of_join isJoin listed finish]; rfl⟩

end Nest

section Jump

/-- A block that jumps to where it led keeps all of that within reach. -/
theorem Jumps.anchored {base : Graph} {construct : Construct} {offset : Offset}
    {targets results : List Target} (jumps : Jumps construct offset targets results base g)
    (known : id < base.size) (change : Block → Block) (pure : ∀ b, (change b).bare = change b.bare)
    (structured : ∀ b type, (change b).type ≠ .raw type)
    (listed : ∀ kind v, (base.bare id).edge? kind = some (.block v) → .block v ∈ targets)
    (leads : ∀ v, .block v ∈ results →
      ∃ kind, (change (base.bare id)).edge? kind = some (.block v)) :
    Anchored base start (g.update id change) := by
  have inside : id < g.size := Nat.lt_of_lt_of_le known jumps.grows
  have blocks : ∀ i, (g.update id change).bare i = _ := bare_update change inside pure
  constructor
  · rintro u v - ⟨kind, edge⟩
    by_cases isOwn : u = id
    · subst isOwn
      -- The block's own edge now passes through a new jump.
      obtain ⟨goto, above, below, isResult, isGoto⟩ := jumps.exists_goto (listed kind v edge)
      obtain ⟨kind, jump⟩ := leads goto isResult
      have first : (g.update u change).Leads u goto :=
        ⟨kind, by rw [blocks, if_pos rfl, jumps.old u known, jump]⟩
      have second : (g.update u change).Leads goto v := by
        refine ⟨.branch, ?_⟩
        rw [blocks, if_neg (Nat.ne_of_gt (Nat.lt_of_lt_of_le known above)), isGoto]
        rfl
      exact .inl (.head first (.single second))
    · -- All other blocks are as they were.
      exact .inl
        (.single ⟨kind, by rw [blocks, if_neg isOwn, jumps.old u (lt_size_of_edge edge), edge]⟩)
  · -- Literal jumps are no raw code.
    intro i type isRaw
    rw [blocks] at isRaw
    split at isRaw
    · exact absurd isRaw (structured _ type)
    · by_cases old : i < base.size
      · rw [← jumps.old i old, isRaw]
      · obtain ⟨v, -, isGoto⟩ := jumps.gotos i (Nat.not_lt.mp old) (lt_size_of_raw isRaw)
        rw [isGoto] at isRaw
        cases isRaw

/-- A list in the place of the targets of some items provides all of them. -/
theorem mem_zipWith_of_mem {α : Type} {items : List α} {targets : List Target}
    (put : α → Target → α) (length : targets.length ≤ items.length) {target : Target}
    (listed : target ∈ targets) : ∃ item, put item target ∈ items.zipWith put targets := by
  -- A target is put into the item at its own place.
  obtain ⟨i, bound, rfl⟩ := List.mem_iff_getElem.mp listed
  have inside : i < items.length := Nat.lt_of_lt_of_le bound length
  refine ⟨items[i], List.mem_iff_getElem.mpr ⟨i, ?_, ?_⟩⟩
  · rw [List.length_zipWith]
    exact Nat.lt_min.mpr ⟨inside, bound⟩
  · simp

/-- A switch whose cases become literal jumps still leads to where it led. -/
theorem anchored_jumpSwitch (sound : g.Sound) (reached : g.Reached id)
    (applied : g.jumpSwitch flow id = some h) : Anchored g start h := by
  -- Each case goes over a literal jump of its own.
  obtain ⟨isSwitch, rfl⟩ := jumpSwitch_cases applied
  have jumps := jumps_cases sound.toLinked id (g.block id).finish
  refine jumps.anchored (reached.lt_size sound.toLinked) _ (fun _ => rfl)
    (fun b type isRaw => by cases isRaw) ?_ ?_
  · intro kind v edge
    have isOwn := (sound.shaped reached).own .switch isSwitch kind (by rw [edge]; rfl)
    cases kind with
    | case i =>
      obtain ⟨entry, listed, target⟩ := Block.edge?_case_mem edge
      exact List.mem_map.mpr ⟨entry, listed, target⟩
    | _ => cases isOwn
  -- The jumps are the targets of the cases now, one for each.
  · intro v listed
    have length := jumps.results.length_eq
    rw [List.length_map] at length
    obtain ⟨entry, isEntry⟩ :=
      mem_zipWith_of_mem (fun (entry : SwitchCase) target => { entry with target })
        (Nat.le_of_eq length.symm) listed
    obtain ⟨i, found⟩ := Block.edge?_of_mem_cases (b := { g.bare id with cases := _ }) isEntry
    exact ⟨.case i, found⟩

/-- A protected region whose parts become literal jumps still leads to where it led. -/
theorem anchored_jumpTry (sound : g.Sound) (reached : g.Reached id)
    (applied : g.jumpTry flow id = some h) : Anchored g start h := by
  -- Each part goes over a literal jump of its own.
  obtain ⟨isTry, body, targets, made, jumped, rfl⟩ := jumpTry_cases applied
  have jumps := jumps_tryTargets sound.toLinked id (g.block id).start
  rw [jumped] at jumps
  refine jumps.anchored (reached.lt_size sound.toLinked) _ (fun _ => rfl)
    (fun b type isRaw => by cases isRaw) ?_ ?_
  · intro kind v edge
    have isOwn := (sound.shaped reached).own .tryBlock isTry kind (by rw [edge]; rfl)
    cases kind with
    | next =>
      have next : (g.bare id).next = some (.block v) := edge
      simp [next]
    | handler i =>
      obtain ⟨handler, listed, target⟩ := Block.edge?_handler_mem edge
      exact List.mem_cons_of_mem _ (List.mem_map.mpr ⟨handler, listed, target⟩)
    | _ => cases isOwn
  -- The first jump leads to the protected code, and the others to the handlers.
  · intro v listed
    rcases List.mem_cons.mp listed with same | listed
    · exact ⟨.sub1, congrArg some same.symm⟩
    · have length := jumps.results.length_eq
      simp only [List.length_cons, List.length_map, Nat.add_right_cancel_iff] at length
      obtain ⟨handler, isHandler⟩ :=
        mem_zipWith_of_mem (fun (handler : Handler) target => { handler with target })
          (Nat.le_of_eq length.symm) listed
      obtain ⟨i, found⟩ :=
        Block.edge?_of_mem_handlers (b := { g.bare id with handlers := _ })
          (mem_finallyLast.mpr isHandler)
      exact ⟨.handler i, found⟩

/-- An entry that becomes a literal jump still leads to the block. -/
theorem anchored_unshareEntry (linked : g.Linked) (applied : g.unshareEntry flow id = some h) :
    Anchored g start h := by
  obtain ⟨source, construct, -, surplus, -, rfl⟩ := unshareEntry_cases applied
  obtain ⟨_, -, enters⟩ := (mem_enteringPreds linked.toMirrored).mp (surplusSource?_mem surplus)
  have blocks :=
    @bare_unshare g id source (lt_size_of_edge enters) construct (g.block source).finish
  constructor
  · rintro u v - ⟨kind, edge⟩
    have old : u ≠ g.size := Nat.ne_of_lt (lt_size_of_edge edge)
    -- The one edge that moves is the surplus entry, which now passes through the new jump.
    by_cases jumps : u = source ∧ v = id ∧ kind ≠ .branch
    · obtain ⟨rfl, rfl, notBranch⟩ := jumps
      refine .inl (.head (b := g.size) ⟨kind, ?_⟩ (.single ⟨.branch, ?_⟩))
      · rw [blocks, if_pos rfl, Block.edge?_replaceEntry, if_neg notBranch, edge, Option.map_some,
          Target.renamed_self]
      · rw [blocks, if_neg (Ne.symm old), if_pos rfl]
        rfl
    · -- All other edges stay where they are.
      refine .inl (.single ⟨kind, ?_⟩)
      rw [blocks]
      split
      · next same =>
        subst same
        rw [Block.edge?_replaceEntry, edge]
        split
        · rfl
        · next notBranch =>
          rw [Option.map_some, Target.renamed_ne]
          simpa using fun isEntry => jumps ⟨rfl, isEntry, notBranch⟩
      · exact edge
  · -- The new jump is no raw code.
    intro i type isRaw
    rw [blocks] at isRaw
    split at isRaw
    · next same =>
      subst same
      exact isRaw
    · split at isRaw
      · cases isRaw
      · exact isRaw

end Jump

section Loop

variable {header : BlockId} {body : IdSet} {after : Option BlockId}

/-- A loop leads on to where its body led. -/
theorem Wrapped.anchored (wrapped : Wrapped g header body after h) : Anchored g g.size h := by
  obtain ⟨toHeader, toAfter⟩ := wrapped.loop_leads
  constructor
  · intro u v _ leads
    -- Edges to the header and to the block after the loop are now the loop block's own.
    by_cases member : u ∈ body
    · rcases wrapped.core_leads member leads with isHeader | isAfter | stays | ⟨_, -, first, second⟩
      · exact .inr (.single (isHeader ▸ toHeader))
      · exact .inr (.single (toAfter v isAfter))
      · exact .inl (.single stays)
      · exact .inl (.head first (.single second))
    · have outer := wrapped.outer_leads member leads
      split at outer
      · next isHeader => exact .inr (.single (isHeader ▸ toHeader))
      · exact .inl (.single outer)
  · -- The loop and its literal jumps are no raw code.
    intro i type isRaw
    have inside := lt_size_of_raw isRaw
    rcases Nat.lt_trichotomy i g.size with old | same | new
    · rw [← wrapped.type i old, isRaw]
    · rw [same, wrapped.loopType] at isRaw
      cases isRaw
    · obtain ⟨_, -, _, _, offset, -, -, isGoto, -, -⟩ := wrapped.gotos i new inside
      rw [isGoto] at isRaw
      cases isRaw

/-- A loop is within reach unless code that it takes in behind its exits
is reached around its header and leads there. -/
theorem reached_wrapLoop (mirrored : g.Mirrored) (unentered : ∀ source, ¬ g.Leads source start)
    (applied : g.wrapLoop (Flow.ofGraph g) header = some h)
    (noBypass : ∀ id ∈ g.bodyOfLoop header, id ∉ g.loopCore header → g.ReachedAvoiding header id →
      ¬ g.Leads id header) :
    h.Reached g.size := by
  have wrapped := wrapped_wrapLoop mirrored applied
  obtain ⟨isHeader, -⟩ := wrapLoop_cases applied
  have isBody := loopBody_bodyOfLoop mirrored isHeader
  obtain ⟨source, reached, enters⟩ := header_entered mirrored isHeader
  have notStart : header ≠ start := fun same => unentered source (same ▸ enters)
  -- No block of the loop proper lies on a way to the header.
  have outside : ∀ {u}, g.ReachedAvoiding header u → u ∉ g.loopCore header := fun path member =>
    naturalLoop_dominated mirrored member path
  refine reached_of_arrival (reached.step enters) notStart (fun {u v} path leads other => ?_)
    fun {u} path leads => ?_
  · -- Before the header, every edge stays, also of code that the loop takes in behind its exits.
    by_cases inBody : u ∈ g.bodyOfLoop header
    · exact .single (wrapped.tail_kept isBody inBody (outside path) leads other)
    · have kept := wrapped.outer_leads inBody leads
      rw [if_neg other] at kept
      exact .single kept
  · -- At the header, what leads there leads to the loop now, unless it is taken in.
    by_cases inBody : u ∈ g.bodyOfLoop header
    · exact absurd leads (noBypass u inBody (outside path) path)
    · have enters := wrapped.outer_leads inBody leads
      rw [if_pos rfl] at enters
      exact .single enters

end Loop

/-- A step that leaves what it makes out of reach: a test over others, a loop with a bypass, a
choice, a switch or a protected range. -/
inductive Strands (g h : Graph) : Prop
  | selected {id : BlockId} (applied : g.selectTest (Flow.ofGraph g) id = some h)
    (lost : g.size ∉ h.reachable)
  | merged {id : BlockId} (applied : g.mergeTests (Flow.ofGraph g) id = some h)
    (lost : g.size ∉ h.reachable)
  | wrapped {header : BlockId} (applied : g.wrapLoop (Flow.ofGraph g) header = some h)
    (bypass : g.HasBypass header) (lost : g.size ∉ h.reachable)
  | chosen {id : BlockId} (applied : g.nestIf (Flow.ofGraph g) id = some h)
    (lost : g.size ∉ h.reachable)
  | switched {id : BlockId} (applied : g.nestSwitch (Flow.ofGraph g) id = some h)
    (lost : id ∉ h.reachable)
  | guarded {id : BlockId} (applied : g.nestTry (Flow.ofGraph g) id = some h)
    (lost : id ∉ h.reachable)

/-- A change after which only raw jumps without code can get out of reach. -/
structure Keeps (g h : Graph) : Prop where
  reached : ∀ {id}, g.Reached id → h.Reached id ∨ (g.bare id).IsBareJump
  raw : ∀ {i type}, (h.bare i).type = .raw type → (g.bare i).type = .raw type

/-- What is anchored at a block within reach stays within reach. -/
theorem Anchored.keeps (anchored : Anchored g root h) (found : h.Reached root) : Keeps g h :=
  ⟨fun reached => .inl (anchored.reached found reached), anchored.raw⟩

/-- Every rule but the one for jumps anchors what it leads to at one block, and strands what it
makes if that block is out of reach. -/
theorem anchored_apply {rule : Rule} (sound : g.Sound) (soundAfter : h.Sound)
    (reached : g.Reached id) (other : rule ≠ .dropGoto)
    (applied : rule.apply g (Flow.ofGraph g) id = some h) :
    ∃ root, Anchored g root h ∧ (root ∉ h.reachable → g.Strands h) := by
  have linked := sound.toLinked
  have known := reached.lt_size linked
  have within : ∀ {root}, Anchored g root h → h.Reached root →
      ∃ root, Anchored g root h ∧ (root ∉ h.reachable → g.Strands h) :=
    fun anchored found => ⟨_, anchored, fun lost =>
      absurd ((mem_reachable soundAfter.toMirrored soundAfter.nonempty).mpr found) lost⟩
  -- Most rules keep their root within reach; the others strand what hung from it when they lose it.
  cases rule <;> dsimp only [Rule.apply] at applied
  case dropGoto => exact absurd rfl other
  case settlePlain =>
    obtain ⟨construct, rfl⟩ := settlePlain_cases applied
    exact within (anchored_settle known) .refl
  case selectTest => exact ⟨_, anchored_selectTest linked applied, .selected applied⟩
  case mergeTests => exact ⟨_, anchored_mergeTests linked applied, .merged applied⟩
  case wrapLoop =>
    have anchored := (wrapped_wrapLoop sound.toMirrored applied).anchored
    by_cases bypass : g.HasBypass id
    · exact ⟨_, anchored, .wrapped applied bypass⟩
    · refine within anchored (reached_wrapLoop sound.toMirrored linked.unentered applied ?_)
      exact fun other inBody outside _ leads => bypass ⟨other, inBody, outside, leads⟩
  case nestIf => exact ⟨_, anchored_nestIf sound applied, .chosen applied⟩
  case nestSwitch => exact ⟨_, anchored_nestSwitch sound reached applied, .switched applied⟩
  case nestTry => exact ⟨_, anchored_nestTry sound reached applied, .guarded applied⟩
  case settleCall =>
    obtain ⟨-, rfl⟩ := settleCall_cases applied
    exact within (anchored_settle known) .refl
  case jumpTest =>
    obtain ⟨root, found, anchored⟩ := anchored_jumpTest sound reached applied
    exact within anchored found
  case jumpSwitch => exact within (anchored_jumpSwitch sound reached applied) .refl
  case jumpTry => exact within (anchored_jumpTry sound reached applied) .refl
  case forceCall =>
    obtain ⟨-, rfl⟩ := forceCall_cases applied
    exact within (anchored_settle known) .refl
  case unshareEntry => exact within (anchored_unshareEntry linked applied) .refl

/-- A rule keeps all code within reach, or else it leaves what it makes out of reach. -/
theorem keeps_or_strands {rule : Rule} (sound : g.Sound) (reached : g.Reached id)
    (applied : rule.apply g (Flow.ofGraph g) id = some h) : Keeps g h ∨ g.Strands h := by
  obtain ⟨covers, back, covered, rewrite⟩ := rewrite_apply sound reached applied
  have soundAfter := rewrite.sound covered sound.nonempty
  -- Only dropping a jump puts a block out of reach, which is the jump itself.
  by_cases isDrop : rule = .dropGoto
  · subst isDrop
    dsimp only [Rule.apply] at applied
    obtain ⟨reached, raw⟩ := reached_dropGoto sound reached applied
    refine .inl ⟨fun {u} isReached => (reached u isReached).imp_right ?_,
      fun {i type} => raw i type⟩
    rintro ⟨rfl, isJump, empty⟩
    exact ⟨isJump, empty⟩
  · obtain ⟨root, anchored, strands⟩ := anchored_apply sound soundAfter reached isDrop applied
    by_cases found : root ∈ h.reachable
    · exact .inl
        (anchored.keeps ((mem_reachable soundAfter.toMirrored soundAfter.nonempty).mp found))
    · exact .inr (strands found)

/-- No rule makes raw code. -/
theorem raw_of_apply {rule : Rule} (sound : g.Sound) (reached : g.Reached id)
    (applied : rule.apply g (Flow.ofGraph g) id = some h) {i : BlockId} {type : RawType}
    (isRaw : (h.bare i).type = .raw type) : (g.bare i).type = .raw type := by
  obtain ⟨covers, back, covered, rewrite⟩ := rewrite_apply sound reached applied
  by_cases isDrop : rule = .dropGoto
  · subst isDrop
    dsimp only [Rule.apply] at applied
    exact (reached_dropGoto sound reached applied).2 i type isRaw
  · obtain ⟨root, anchored, -⟩ :=
      anchored_apply sound (rewrite.sound covered sound.nonempty) reached isDrop applied
    exact anchored.raw isRaw

end Graph

end Unjump
