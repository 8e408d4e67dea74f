import Unjump.Proofs.Rewrite.Nest

/-! The body and the handlers of a try. -/

namespace Unjump.Graph

variable {g h : Graph} {flow : Flow} {id : BlockId}

/-- The chains of handlers are walked from their heads. -/
theorem walked_handlerArms (g : Graph) (flow : Flow) (id : BlockId) (heads : List BlockId) :
    List.Forall₂ (fun head arm => ∃ bounds : ArmBounds, bounds.entry = IdSet.insert ∅ id ∧
      Walked g flow bounds none [] (.block head) arm) heads (g.handlerArms flow id heads) := by
  -- By induction on the heads.
  induction heads with
  | nil => exact .nil
  | cons head rest ih => exact .cons ⟨_, rfl, walked_walk _ _ _ _⟩ ih

/-- The chains of a try: one from the block that it protects, and one from each of its handlers. -/
structure TryArms (g : Graph) (flow : Flow) (id : BlockId) (next : Target) (heads : List BlockId)
    (body : Arm) (handlers : List Arm) : Prop where
  isNext : (g.bare id).next = some next
  isHead : ∀ head, head ∈ heads ↔ ∃ i, (g.bare id).edge? (.handler i) = some (.block head)
  isBlock : ∀ i target, (g.bare id).edge? (.handler i) = some target → ∃ head, target = .block head
  distinct : heads.Nodup
  walkedBody : ∃ bounds : ArmBounds, bounds.entry = IdSet.insert ∅ id ∧
    Walked g flow bounds none [] next body
  walkedHandlers :
    List.Forall₂ (fun head arm => ∃ bounds : ArmBounds, bounds.entry = IdSet.insert ∅ id ∧
      Walked g flow bounds none [] (.block head) arm) heads handlers
  taken : ∀ arm ∈ body :: handlers, arm.blocks ≠ []

/-- The handlers of a try all lead to blocks if their targets can be listed. -/
theorem mapM_block? {handlers : List Handler} {ids : List BlockId}
    (listed : handlers.mapM (·.target.block?) = some ids) :
    List.Forall₂ (fun handler id => handler.target = .block id) handlers ids := by
  -- By induction on the handlers, all of which must lead to blocks.
  induction handlers generalizing ids with
  | nil =>
    cases listed
    exact .nil
  | cons handler rest ih =>
    simp only [List.mapM_cons, Option.bind_eq_bind, Option.bind_eq_some_iff] at listed
    obtain ⟨first, isFirst, others, isOthers, made⟩ := listed
    cases made
    exact .cons (Target.block?_eq_some_iff.mp isFirst) (ih isOthers)

/-- The listed handlers of a try are where its handler edges lead. -/
theorem mem_of_mapM_block? {b : Block} {ids : List BlockId}
    (isBlock : b.handlers.mapM (·.target.block?) = some ids) {head : BlockId} :
    head ∈ ids ↔ ∃ i, b.edge? (.handler i) = some (.block head) := by
  have pairs := mapM_block? isBlock
  -- The two lists run in parallel, so a position in one is a position in the other.
  constructor
  · intro listed
    obtain ⟨i, bound, rfl⟩ := List.mem_iff_getElem.mp listed
    have inside : i < b.handlers.length := pairs.length_eq.symm ▸ bound
    have target : (b.handlers[i]).target = .block ids[i] := pairs.get inside bound
    exact ⟨i, by simp [Block.edge?, inside, target]⟩
  · rintro ⟨i, edge⟩
    obtain ⟨handler, isHandler, target⟩ := Option.map_eq_some_iff.mp edge
    obtain ⟨inside, rfl⟩ := List.getElem?_eq_some_iff.mp isHandler
    have bound : i < ids.length := pairs.length_eq ▸ inside
    cases (pairs.get inside bound).symm.trans target
    exact List.getElem_mem _

/-- A nested try is one of three constructs. -/
theorem tryConstruct_cases {body : Arm} {handlers : List Arm} {last : Option BlockId}
    {construct : Construct} (same : g.tryConstruct body handlers last = construct) :
    construct = .tryBlock ∨ construct = .tryJsr ∨ construct = .tryRejoin := by
  subst same
  -- Either test of the code decides for a construct of its own.
  simp only [tryConstruct]
  split
  · exact .inr (.inl rfl)
  · split
    · exact .inr (.inr rfl)
    · exact .inl rfl

/-- The heads of the handlers of a try, in the order of the code. -/
def tryHeads (g : Graph) (id : BlockId) : List BlockId :=
  g.byOffset (IdSet.ofList ((g.block id).handlers.filterMap (·.target.block?)))

/-- The chain that a try protects, which ends before the first handler. -/
def tryBody (g : Graph) (flow : Flow) (id : BlockId) (next : Target) : Arm :=
  g.walk flow
    { entry := IdSet.insert ∅ id
      before := (g.tryHeads id).head?.map fun head => (g.block head).start } next

/-- Handlers that lead to blocks have these blocks as their targets. -/
theorem filterMap_block? {handlers : List Handler} {ids : List BlockId}
    (pairs : List.Forall₂ (fun handler id => handler.target = .block id) handlers ids) :
    handlers.filterMap (·.target.block?) = ids := by
  -- By induction on the handlers, side by side with the blocks.
  induction pairs with
  | nil => rfl
  | cons isBlock _ ih => rw [List.filterMap_cons, isBlock, ih]; rfl

/-- What a try becomes whose chains are nested in it, chain by chain. -/
theorem nestTry_eq (applied : g.nestTry flow id = some h) : ∃ next join construct,
    (g.bare id).type = .raw .tryBlock ∧
      TryArms g flow id next (g.tryHeads id) (g.tryBody flow id next)
        (g.handlerArms flow id (g.tryHeads id)) ∧
      tryJoin? (g.tryBody flow id next :: g.handlerArms flow id (g.tryHeads id)) = some join ∧
      (∀ j, join = some j →
        j ≠ id ∧ j ∉ g.tryHeads id ∧ (g.tryBody flow id next).blocks.head? ≠ some j) ∧
      (construct = .tryBlock ∨ construct = .tryJsr ∨ construct = .tryRejoin) ∧
      ((g.tryBody flow id next :: g.handlerArms flow id (g.tryHeads id)).foldl
        (·.closeArm · .bodyEnd) g).update id (fun b => { b with
          type := .structured construct, handlers := finallyLast b.handlers, sub1 := some next
          next := join.map .block }) = h := by
  simp only [nestTry, Option.bind_eq_bind, Option.bind_none] at applied
  -- The code asks in turn for a raw try, handlers that are blocks, chains that are not empty,
  -- and a join apart from them.
  split at applied
  · cases applied
  next isTry =>
  obtain ⟨next, isNext, applied⟩ := Option.bind_eq_some_iff.mp applied
  obtain ⟨ids, isBlock, applied⟩ := Option.bind_eq_some_iff.mp applied
  have heads : g.byOffset (IdSet.ofList ids) = g.tryHeads id := by
    rw [tryHeads, filterMap_block? (mapM_block? isBlock)]
  rw [heads] at applied
  split at applied
  · cases applied
  next taken =>
  obtain ⟨join, isJoin, applied⟩ := Option.bind_eq_some_iff.mp applied
  split at applied
  · cases applied
  next apart =>
  refine ⟨next, join, _, Classical.not_not.mp isTry,
    ⟨isNext, ?_, ?_, nodup_byOffset g _, ⟨_, rfl, walked_walk _ _ _ _⟩,
      walked_handlerArms g flow id _, ?_⟩, isJoin, ?_, tryConstruct_cases rfl,
    Option.some.inj applied⟩
  · intro head
    rw [← heads, mem_byOffset, IdSet.mem_ofList]
    exact mem_of_mapM_block? (b := g.bare id) isBlock
  · intro i target edge
    have pairs := mapM_block? isBlock
    obtain ⟨handler, isHandler, rfl⟩ := Option.map_eq_some_iff.mp edge
    obtain ⟨bound, rfl⟩ := List.getElem?_eq_some_iff.mp isHandler
    exact ⟨_, pairs.get bound (pairs.length_eq ▸ bound)⟩
  · intro arm listed empty
    exact taken (List.any_eq_true.mpr ⟨arm, listed, by simp [Arm.isEmpty, empty]⟩)
  · rintro j rfl
    simpa [and_assoc, tryBody] using apart

/-- What a try becomes whose chains are nested in it. -/
theorem nestTry_cases (applied : g.nestTry flow id = some h) :
    ∃ next heads body handlers join construct,
      (g.bare id).type = .raw .tryBlock ∧ TryArms g flow id next heads body handlers ∧
      tryJoin? (body :: handlers) = some join ∧
      (∀ j, join = some j → j ≠ id ∧ j ∉ heads ∧ body.blocks.head? ≠ some j) ∧
      (construct = .tryBlock ∨ construct = .tryJsr ∨ construct = .tryRejoin) ∧
      ((body :: handlers).foldl (·.closeArm · .bodyEnd) g).update id (fun b =>
        { b with
          type := .structured construct, handlers := finallyLast b.handlers, sub1 := some next
          next := join.map .block }) = h := by
  -- The chains are those that the code walks.
  obtain ⟨next, join, construct, made⟩ := nestTry_eq applied
  exact ⟨next, _, _, _, join, construct, made⟩

/-- Where the chains of a try continue, one of them runs on. -/
theorem tryJoin?_join {arms : List Arm} {join : BlockId}
    (found : tryJoin? arms = some (some join)) : ∃ arm ∈ arms, arm.finish = .join join := by
  simp only [tryJoin?] at found
  -- The chains run on to no block, to one, or to several, where there is no join.
  split at found
  · cases found
  · next single =>
    cases found
    have listed : join ∈ IdSet.ofList (arms.filterMap (·.finish.join?)) :=
      IdSet.mem_toList.mp (single ▸ List.mem_singleton.mpr rfl)
    rw [IdSet.mem_ofList, List.mem_filterMap] at listed
    obtain ⟨arm, isArm, joins⟩ := listed
    exact ⟨arm, isArm, join?_eq_some_iff.mp joins⟩
  · cases found

/-- Where the chains of a try continue is where each of them runs on. -/
theorem tryJoin?_of_join {arms : List Arm} {join : Option BlockId}
    (found : tryJoin? arms = some join) {arm : Arm} (listed : arm ∈ arms) {j : BlockId}
    (finish : arm.finish = .join j) : join = some j := by
  -- The block that a chain runs on into is listed.
  have member : j ∈ (IdSet.ofList (arms.filterMap (·.finish.join?))).toList := by
    rw [IdSet.mem_toList, IdSet.mem_ofList, List.mem_filterMap]
    exact ⟨arm, listed, join?_eq_some_iff.mpr finish⟩
  simp only [tryJoin?] at found
  -- The join is the only block that chains run on to.
  split at found
  · next none =>
    rw [none] at member
    cases member
  · next only =>
    rw [only, List.mem_singleton] at member
    rw [member]
    exact (Option.some.inj found).symm
  · cases found

/-- Handlers are the same with those that catch everything last. -/
theorem mem_finallyLast {handlers : List Handler} {handler : Handler} :
    handler ∈ finallyLast handlers ↔ handler ∈ handlers :=
  List.mem_mergeSort

/-- Where those that catch everything come last, the handlers are the others and then those. -/
theorem eq_append_of_pairwise_precedes {handlers : List Handler}
    (sorted : handlers.Pairwise (·.precedes · = true)) :
    handlers = handlers.filter (!·.isFinally) ++ handlers.filter (·.isFinally) := by
  -- By induction on the handlers, the first of which may catch everything.
  induction handlers with
  | nil => rfl
  | cons first rest ih =>
    obtain ⟨least, sorted⟩ := List.pairwise_cons.mp sorted
    cases last : first.isFinally with
    | false => simpa [last] using ih sorted
    | true =>
      -- All that follow one that catches everything do so too.
      have all : ∀ handler ∈ rest, handler.isFinally = true := fun handler listed => by
        simpa [Handler.precedes, last] using least handler listed
      have none : rest.filter (!·.isFinally) = [] :=
        List.filter_eq_nil_iff.mpr fun handler listed => by simp [all handler listed]
      rw [List.filter_cons_of_neg (by simp [last]), List.filter_cons_of_pos last, none,
        List.filter_eq_self.mpr all, List.nil_append]

/-- The handlers that do not catch everything come first and then the others, both as they stood. -/
theorem finallyLast_eq (handlers : List Handler) :
    finallyLast handlers = handlers.filter (!·.isFinally) ++ handlers.filter (·.isFinally) := by
  -- The order is transitive and total, as a sort asks for.
  have trans : ∀ a b c : Handler, a.precedes b = true → b.precedes c = true →
      a.precedes c = true := by
    intro a b c
    simp only [Handler.precedes]
    cases a.isFinally <;> cases b.isFinally <;> cases c.isFinally <;> simp
  have total : ∀ a b : Handler, (a.precedes b || b.precedes a) = true := by
    intro a b
    simp only [Handler.precedes]
    cases a.isFinally <;> cases b.isFinally <;> rfl
  have perm : (finallyLast handlers).Perm handlers := List.mergeSort_perm handlers _
  -- The sort is stable: handlers of one sort are a sublist before and after it, and there
  -- are as many.
  have stable : ∀ test : Handler → Bool,
      (∀ a b, test a = true → test b = true → a.precedes b = true) →
      (finallyLast handlers).filter test = handlers.filter test := by
    intro test alike
    have sorted : (handlers.filter test).Pairwise (·.precedes · = true) :=
      List.pairwise_of_forall_mem_list
        fun a first b second => alike a b (List.mem_filter.mp first).2 (List.mem_filter.mp second).2
    have kept := (List.sublist_mergeSort trans total sorted List.filter_sublist).filter test
    rw [List.filter_filter, List.filter_congr fun _ _ => Bool.and_self _] at kept
    exact (kept.eq_of_length (perm.filter test).length_eq.symm).symm
  have sorted : (finallyLast handlers).Pairwise (·.precedes · = true) :=
    List.pairwise_mergeSort trans total handlers
  rw [eq_append_of_pairwise_precedes sorted, stable (!·.isFinally), stable (·.isFinally)]
  · exact fun a b _ last => by simp [Handler.precedes, last]
  · exact fun a b other _ => by simp [Handler.precedes, other]

namespace TryArms

variable {next : Target} {heads : List BlockId} {body : Arm} {handlers : List Arm}

/-- Every chain of a try is walked from a block that the try leads to. -/
theorem walked (arms : TryArms g flow id next heads body handlers) : ∀ arm ∈ body :: handlers,
    ∃ (bounds : ArmBounds) (head : BlockId), bounds.entry = IdSet.insert ∅ id ∧
      Walked g flow bounds none [] (.block head) arm ∧
      ((g.bare id).edge? .next = some (.block head) ∨
        ∃ i, (g.bare id).edge? (.handler i) = some (.block head)) := by
  intro arm listed
  -- The chain is that of the body or that of a handler.
  rcases List.mem_cons.mp listed with rfl | isHandler
  · obtain ⟨bounds, entry, walked⟩ := arms.walkedBody
    -- A chain that takes a block starts there.
    cases next with
    | exit way =>
      cases walked
      exact absurd rfl (arms.taken _ List.mem_cons_self)
    | block head => exact ⟨bounds, head, entry, walked, .inl arms.isNext⟩
  · obtain ⟨i, bound, rfl⟩ := List.mem_iff_getElem.mp isHandler
    have bound' : i < heads.length := arms.walkedHandlers.length_eq.symm ▸ bound
    obtain ⟨bounds, entry, walked⟩ := arms.walkedHandlers.get bound' bound
    exact ⟨bounds, heads[i], entry, walked, .inr ((arms.isHead _).mp (List.getElem_mem bound'))⟩

/-- The last block of a chain that runs on is not the try itself, which is not settled. -/
theorem joining (arms : TryArms g flow id next heads body handlers)
    (isTry : (g.bare id).type = .raw .tryBlock) {arm : Arm} (listed : arm ∈ body :: handlers)
    {last : BlockId} (joins : joining? arm = some last) : last < g.size ∧ last ≠ id := by
  -- The last block of a walked chain is settled.
  obtain ⟨_, _, -, walked, -⟩ := arms.walked arm listed
  obtain ⟨inside, settled, -⟩ := walked.joining joins
  refine ⟨inside, ?_⟩
  rintro rfl
  simp [Block.isSettled, isTry] at settled

/-- A walk goes from a try to every block that one of its chains is walked from or runs on into. -/
theorem walk_join (arms : TryArms g flow id next heads body handlers)
    (isTry : (g.bare id).type = .raw .tryBlock) {allow : EdgeFilter} (lenient : allow.Lenient)
    {arm : Arm} (listed : arm ∈ body :: handlers) {join : BlockId}
    (finish : arm.finish = .join join) : g.Walk allow id join := by
  -- First along the edge to the head of the chain, then along the chain.
  obtain ⟨bounds, head, -, walked, leads⟩ := arms.walked arm listed
  refine .trans (.single ?_) (walked.walk_join lenient.next rfl finish)
  rcases leads with edge | ⟨i, edge⟩
  · exact ⟨.next, lenient.next _, edge⟩
  · exact ⟨.handler i, isTry ▸ lenient.handler i, edge⟩

end TryArms

/-- The edges of a try whose chains are nested in it lead where the try could lead. -/
theorem nestTry_walk {next : Target} {join : Option BlockId} {construct : Construct}
    {heads : List BlockId} {body : Arm} {handlers : List Arm} (shaped : (g.bare id).Shaped)
    (isTry : (g.bare id).type = .raw .tryBlock)
    (arms : TryArms g flow id next heads body handlers)
    (isJoin : tryJoin? (body :: handlers) = some join) {allow : EdgeFilter}
    (lenient : allow.Lenient) {kind : EdgeKind} {target : BlockId}
    (edge : ({ g.bare id with
        type := .structured construct, handlers := finallyLast (g.bare id).handlers
        sub1 := some next, next := join.map .block } : Block).edge? kind =
      some (.block target)) : g.Walk allow id target := by
  have own := shaped.mayHave_of_edge isTry
  -- An edge of the construct was one of the try, or goes where one of the arms runs on.
  cases kind with
  | next =>
    obtain ⟨j, rfl, same⟩ := Option.map_eq_some_iff.mp edge
    cases same
    obtain ⟨arm, listed, finish⟩ := tryJoin?_join isJoin
    exact arms.walk_join isTry lenient listed finish
  | sub1 =>
    cases edge
    exact .single ⟨.next, lenient.next _, arms.isNext⟩
  | handler i =>
    obtain ⟨handler, listed, same⟩ := Block.edge?_handler_mem edge
    obtain ⟨j, edge⟩ := @Block.edge?_of_mem_handlers (g.bare id) _ (mem_finallyLast.mp listed)
    exact .single ⟨.handler j, isTry ▸ lenient.handler j, same ▸ edge⟩
  | branch => cases own .branch edge
  | condition => cases own .condition edge
  | sub2 => cases own .sub2 edge
  | case i => cases own (.case i) edge

/-- Nesting the chains of a try changes the try and the ends of its chains alone. -/
theorem nested_nestTry (sound : g.Sound) (reached : g.Reached id) {next : Target}
    {join : Option BlockId} {construct : Construct} {heads : List BlockId} {body : Arm}
    {handlers : List Arm} (isTry : (g.bare id).type = .raw .tryBlock)
    (arms : TryArms g flow id next heads body handlers)
    (isJoin : tryJoin? (body :: handlers) = some join) :
    Nested (· = .bodyEnd) (body :: handlers) g id
      { g.bare id with
        type := .structured construct, handlers := finallyLast (g.bare id).handlers
        sub1 := some next, next := join.map .block }
      (((body :: handlers).foldl (·.closeArm · .bodyEnd) g).update id (fun b =>
        { b with
          type := .structured construct, handlers := finallyLast b.handlers, sub1 := some next
          next := join.map .block })) := by
  have known := reached.lt_size sound.toLinked
  have notStart := sound.toLinked.ne_start_of_raw isTry
  -- The chains are ended first, and none of them ends at the try itself.
  have ended : Ended _ (body :: handlers) g _ :=
    ended_foldl_closeArm fun arm listed last joins => (arms.joining isTry listed joins).1
  refine ended.nested sound.toLinked known notStart
    (fun arm listed joins => (arms.joining isTry listed joins).2 rfl)
    (fun b => { b with
      type := .structured construct, handlers := finallyLast b.handlers, sub1 := some next
      next := join.map .block }) (fun _ => rfl) (fun _ => rfl) ?_
  intro kind target edge
  exact sound.toLinked.behind_of_walk known notStart
    (nestTry_walk (sound.shaped reached) isTry arms isJoin EdgeFilter.all_lenient edge)

/-- Nesting the chains of a try keeps walks and shapes. -/
theorem rewrite_nestTry (sound : g.Sound) (reached : g.Reached id)
    (applied : g.nestTry flow id = some h) : Rewrite g h (g.standsFor id) := by
  -- The try leads to its parts as before, and goes on where one of them ran on.
  obtain ⟨next, heads, body, handlers, join, construct, isTry, arms, isJoin, -, isConstruct, rfl⟩ :=
    nestTry_cases applied
  refine (nested_nestTry sound reached isTry arms isJoin).rewrite sound
    (reached.lt_size sound.toLinked) ?_ ?_ ?_ rfl
  · intro arm listed last joins
    obtain ⟨_, _, -, walked, -⟩ := arms.walked arm listed
    exact (walked.joining joins).2.2
  · intro allow lenient kind target _ edge
    exact nestTry_walk (sound.shaped reached) isTry arms isJoin lenient edge
  -- None of the three constructs is a test, and all of them have to have a body.
  · intro _
    refine .ofChildren rfl ?_ (fun isOpen => ?_) (fun has => ?_) fun kind required => ?_
    · rcases isConstruct with rfl | rfl | rfl <;> rfl
    · rcases isConstruct with rfl | rfl | rfl <;>
        simp [Block.isOpenCondition, BlockType.isCondition] at isOpen
    · simp [(sound.shaped reached).branch_eq_none isTry rfl] at has
    · rcases isConstruct with rfl | rfl | rfl <;> cases List.mem_singleton.mp required <;> rfl

/-- What a try becomes that jumps to its body and its handlers. -/
theorem jumpTry_cases (applied : g.jumpTry flow id = some h) : (g.bare id).type = .raw .tryBlock ∧
    ∃ body targets made,
      jumpAll .goto (g.block id).start
        ((g.bare id).next.getD .bodyEnd :: (g.bare id).handlers.map (·.target)) g =
        (body :: targets, made) ∧
      made.update id (fun b =>
        { b with
          type := .structured .tryBlock, sub1 := some body, next := none
          handlers :=
            finallyLast ((g.bare id).handlers.zipWith
              (fun handler target => { handler with target }) targets)
          }) = h := by
  -- The rule applies to any raw try.
  simp only [jumpTry] at applied
  split at applied
  · next isTry =>
    let first := g.jumpTo .goto (g.block id).start ((g.block id).next.getD .bodyEnd)
    let rest := jumpAll .goto (g.block id).start ((g.block id).handlers.map (·.target)) first.2
    refine ⟨isTry, first.1, rest.1, rest.2, rfl, ?_⟩
    rw [jumpHandlers_eq] at applied
    exact Option.some.inj applied
  · cases applied

/-- A try leads to the block that it protects and to its handlers. -/
theorem leads_of_mem_tryTargets {v : BlockId}
    (listed : .block v ∈ (g.bare id).next.getD .bodyEnd :: (g.bare id).handlers.map (·.target)) :
    g.Leads id v := by
  -- An absent next block stands as the end of the body, which is no block.
  rcases List.mem_cons.mp listed with isNext | isHandler
  · refine ⟨.next, ?_⟩
    cases next : (g.bare id).next with
    | none =>
      rw [next] at isNext
      cases isNext
    | some target =>
      rw [next] at isNext
      exact next.trans (congrArg some isNext.symm)
  · obtain ⟨handler, isHandler, same⟩ := List.mem_map.mp isHandler
    obtain ⟨i, edge⟩ := Block.edge?_of_mem_handlers isHandler
    exact ⟨.handler i, same ▸ edge⟩

/-- The literal jumps to the block that a try protects and to its handlers. -/
theorem jumps_tryTargets (linked : g.Linked) (id : BlockId) (offset : Offset) :
    Jumps .goto offset ((g.bare id).next.getD .bodyEnd :: (g.bare id).handlers.map (·.target))
      (jumpAll .goto offset
        ((g.bare id).next.getD .bodyEnd :: (g.bare id).handlers.map (·.target)) g).1 g
      (jumpAll .goto offset
        ((g.bare id).next.getD .bodyEnd :: (g.bare id).handlers.map (·.target)) g).2 :=
  jumps_jumpAll .goto offset linked fun _ listed => linked.behind (leads_of_mem_tryTargets listed)

/-- A try that jumps to its body and its handlers has no other edges than those to the jumps. -/
theorem jumpTry_edges {body : Target} {results : List Target} (shaped : (g.bare id).Shaped)
    (isTry : (g.bare id).type = .raw .tryBlock) (kind : EdgeKind) (target : Target)
    (edge : ({ g.bare id with
        type := .structured .tryBlock, sub1 := some body, next := none
        handlers := finallyLast
          ((g.bare id).handlers.zipWith (fun handler target => { handler with target }) results) } :
      Block).edge? kind = some target) : target ∈ body :: results := by
  have own := shaped.mayHave_of_edge isTry
  -- A raw try has no edges but to its body and its handlers, and those now lead to the jumps.
  cases kind with
  | sub1 =>
    cases edge
    exact List.mem_cons_self
  | handler i =>
    obtain ⟨handler, listed, rfl⟩ := Block.edge?_handler_mem edge
    obtain ⟨j, bound, same⟩ := List.mem_iff_getElem.mp (mem_finallyLast.mp listed)
    rw [List.getElem_zipWith] at same
    subst same
    exact List.mem_cons_of_mem _ (List.getElem_mem _)
  | next => cases edge
  | branch => cases own .branch edge
  | condition => cases own .condition edge
  | sub2 => cases own .sub2 edge
  | case i => cases own (.case i) edge

/-- Jumping to the parts of a try keeps walks and shapes. -/
theorem rewrite_jumpTry (sound : g.Sound) (reached : g.Reached id)
    (applied : g.jumpTry flow id = some h) : Rewrite g h (g.standsFor id) := by
  -- The try leads to the jumps alone, and those to where its edges led.
  obtain ⟨isTry, body, targets, made, jumped, rfl⟩ := jumpTry_cases applied
  have jumps := jumps_tryTargets sound.toLinked id (g.block id).start
  rw [jumped] at jumps
  refine jumps.rewrite rfl sound (reached.lt_size sound.toLinked)
    (sound.toLinked.ne_start_of_raw isTry) _ (fun _ => rfl)
    (fun _ => rfl) (fun _ => leads_of_mem_tryTargets) ?_ ?_ rfl
  · exact jumpTry_edges (sound.shaped reached) isTry
  · intro _
    refine .ofChildren rfl rfl (fun isOpen => ?_) (fun has => ?_) fun kind required => ?_
    · simp [Block.isOpenCondition, BlockType.isCondition] at isOpen
    · simp [(sound.shaped reached).branch_eq_none isTry rfl] at has
    -- The only edge that is asked for is that to the body.
    · cases List.mem_singleton.mp required
      rfl

end Unjump.Graph
