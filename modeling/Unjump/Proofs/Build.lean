import Unjump.Graph.Build
import Unjump.Proofs.Rewrite.Plain
import Unjump.Proofs.Validity

/-! The graph of a method is sound. -/

namespace Unjump

section Results

variable {ε α β : Type}

/-- A computation in two parts succeeds if both do. -/
theorem bind_eq_ok {x : Except ε α} {f : α → Except ε β} {b : β} :
    (x >>= f) = .ok b ↔ ∃ a, x = .ok a ∧ f a = .ok b := by
  -- An error in the first part is an error of the whole.
  cases x with
  | error e =>
    constructor
    · intro impossible
      cases impossible
    · rintro ⟨_, impossible, -⟩
      cases impossible
  | ok a => exact ⟨fun made => ⟨a, rfl, made⟩, fun ⟨_, same, made⟩ => Except.ok.inj same ▸ made⟩

/-- A test that the result of a computation passes is passed by one. -/
theorem exists_eq_ok_of_any {x : Except ε α} {test : α → Bool}
    (passed : x.toOption.any test = true) : ∃ a, x = .ok a ∧ test a = true := by
  -- An error has no result that could pass.
  cases x with
  | error => cases passed
  | ok a => exact ⟨a, rfl, passed⟩

/-- A computation over a list succeeds if it does for every element. -/
theorem forall₂_of_mapM_eq_ok {f : α → Except ε β} {xs : List α} {ys : List β}
    (made : xs.mapM f = .ok ys) : List.Forall₂ (fun x y => f x = .ok y) xs ys := by
  -- By induction on the list, as the computation runs through it.
  induction xs generalizing ys with
  | nil =>
    cases made
    exact .nil
  | cons x rest ih =>
    rw [List.mapM_cons] at made
    obtain ⟨y, first, made⟩ := bind_eq_ok.mp made
    obtain ⟨others, later, made⟩ := bind_eq_ok.mp made
    cases made
    exact .cons first (ih later)

end Results

section Runs

/-- The last instruction of a run is one of its instructions. -/
theorem Run.last_mem_code (run : Run) : run.last ∈ run.code := by
  -- A run without a tail ends with its head.
  rw [last, code]
  cases found : run.tail.getLast? with
  | none => exact List.mem_cons_self
  | some last => exact List.mem_cons_of_mem _ (List.mem_of_getLast? found)

/-- Cutting code into runs loses no instruction. -/
theorem Run.flatMap_code_split (leaders : List Offset) (code : List Instruction) :
    (Run.split leaders code).flatMap Run.code = code := by
  -- By induction on the code, which is cut from the end: an instruction starts a run
  -- or joins the next one.
  induction code with
  | nil => rfl
  | cons head rest ih =>
    rw [split]
    split
    · next none =>
      rw [none] at ih
      rw [← ih]
      rfl
    · next run runs some =>
      rw [some] at ih
      rw [← ih]
      split <;> simp [Run.code]

/-- The last run ends with the last instruction. -/
theorem Run.last_of_getLast? {leaders : List Offset} {code : List Instruction} {run : Run}
    (isLast : (Run.split leaders code).getLast? = some run) : code.getLast? = some run.last := by
  -- The runs make up the code, so that the last run is the end of it.
  obtain ⟨front, cut⟩ := List.getLast?_eq_some_iff.mp isLast
  rw [← Run.flatMap_code_split leaders code, cut, List.flatMap_append]
  simp only [List.flatMap_cons, List.flatMap_nil, List.append_nil, List.getLast?_append]
  simp [Run.code, Run.last, List.getLast?_cons]

/-- What is asked of all instructions holds of the last ones of runs. -/
theorem forall_last_of_forall_code {m : Method} {P : Instruction → Prop}
    (all : ∀ instruction ∈ m.code, P instruction) : ∀ run ∈ m.runs, P run.last := by
  -- The code is made up of the runs.
  intro run listed
  refine all run.last ?_
  rw [← Run.flatMap_code_split m.leaders m.code]
  exact List.mem_flatMap.mpr ⟨run, listed, run.last_mem_code⟩

/-- The jumps at the end of runs have targets. -/
theorem Method.WellLaid.isBranch_last {m : Method} (laid : m.WellLaid) : ∀ run ∈ m.runs,
    (run.last.opcode.isConditional || run.last.opcode.isGoto || run.last.opcode.isJsr) = true →
      run.last.operand.isBranch = true :=
  forall_last_of_forall_code fun i listed isJump =>
    Operand.isBranch_iff.mpr (laid.branches i listed isJump)

end Runs

/-- A block whose edges lead to numbered blocks and are those that its type asks for. -/
structure Block.Placed (count : Nat) (b : Block) : Prop where
  shaped : b.Shaped
  bounds : ∀ kind target, b.edge? kind = some target →
    ∃ id, target = .block id ∧ Graph.start < id ∧ id ≤ count

/-- What is asked of the last instruction of a run: a jump has a target,
and nothing runs off the end. -/
structure Instruction.Ends (last : Instruction) (through : Option BlockId) : Prop where
  jumps : (last.opcode.isConditional || last.opcode.isGoto || last.opcode.isJsr) = true →
    last.operand.isBranch = true
  falls : last.opcode.endsFlow = true ∨ through.isSome = true

namespace RawType

/-- A block ends with a test if its last instruction is one, which does not end the flow. -/
theorem isConditional_of_ofLast {opcode : Opcode} (same : ofLast opcode = .conditional) :
    opcode.isConditional = true ∧ opcode.endsFlow = false := by
  -- The type is read off the operation of the opcode.
  unfold ofLast at same
  rw [Opcode.isConditional, Opcode.endsFlow, Opcode.satisfies, Opcode.satisfies]
  split at same <;> simp_all [Operation.isConditional, Operation.endsFlow]

/-- A block ends with a call if its last instruction is one. -/
theorem isJsr_of_ofLast {opcode : Opcode} (same : ofLast opcode = .jsr) : opcode.isJsr = true := by
  -- The type is read off the operation of the opcode.
  unfold ofLast at same
  rw [Opcode.isJsr, Opcode.satisfies]
  split at same <;> simp_all

end RawType

/-- A jump leads to the block at its offset. -/
theorem Instruction.targetAt_eq_ok {jump : Instruction} {blockAt : Offset → Option BlockId}
    {offset : Offset} {target : Target} (found : jump.targetAt blockAt offset = .ok target) :
    ∃ id, blockAt offset = some id ∧ target = .block id := by
  -- A target without a block is refused.
  rw [targetAt] at found
  split at found
  · next id isBlock =>
    cases found
    exact ⟨id, isBlock, rfl⟩
  · cases found

/-- The block that becomes of a block when its last instruction adds its edges. -/
inductive Block.Linking (b : Block) (last : Instruction) (through : Option BlockId)
    (blockAt : Offset → Option BlockId) : Block → Prop
  | goto {offset id} (type : RawType.ofLast last.opcode = .goto)
      (operand : last.operand = .branch offset) (found : blockAt offset = some id) :
      Linking b last through blockAt { b with next := some (.block id) }
  | branch {offset id}
      (type : RawType.ofLast last.opcode = .conditional ∨ RawType.ofLast last.opcode = .jsr)
      (operand : last.operand = .branch offset) (found : blockAt offset = some id) :
      Linking b last through blockAt
        { b with next := through.map .block, branch := some (.block id) }
  | switch {default id keyed cases} (type : RawType.ofLast last.opcode = .switch)
      (operand : last.operand = .switch default keyed) (found : blockAt default = some id)
      (entries : List.Forall₂
        (fun pair entry => ∃ id, blockAt pair.2 = some id ∧ entry = ⟨pair.1, false, .block id⟩)
        keyed cases) :
      Linking b last through blockAt { b with cases := cases ++ [⟨0, true, .block id⟩] }
  | passes (type : RawType.ofLast last.opcode = .statements) :
      Linking b last through blockAt { b with next := through.map .block }
  | ends (notPlain : RawType.ofLast last.opcode ≠ .statements)
      (noBranch : RawType.ofLast last.opcode = .goto ∨ RawType.ofLast last.opcode = .conditional ∨
        RawType.ofLast last.opcode = .jsr → ∀ offset, last.operand ≠ .branch offset)
      (noSwitch : RawType.ofLast last.opcode = .switch →
        ∀ default keyed, last.operand ≠ .switch default keyed) :
      Linking b last through blockAt b

/-- What linking a block makes is one of a few forms. -/
theorem Block.linking_of_linked {b made : Block} {last : Instruction} {through : Option BlockId}
    {blockAt : Offset → Option BlockId} (isMade : b.linked last through blockAt = .ok made) :
    b.Linking last through blockAt made := by
  simp only [linked] at isMade
  -- The cases are those of the code: a goto, a test, a call, a switch, straight code,
  -- and all the rest.
  split at isMade
  · -- A goto.
    next type operand =>
    obtain ⟨result, found, same⟩ := bind_eq_ok.mp isMade
    obtain ⟨id, isBlock, rfl⟩ := Instruction.targetAt_eq_ok found
    cases same
    exact .goto type operand isBlock
  · -- A test.
    next type operand =>
    obtain ⟨result, found, same⟩ := bind_eq_ok.mp isMade
    obtain ⟨id, isBlock, rfl⟩ := Instruction.targetAt_eq_ok found
    cases same
    exact .branch (.inl type) operand isBlock
  · -- A call.
    next type operand =>
    obtain ⟨result, found, same⟩ := bind_eq_ok.mp isMade
    obtain ⟨id, isBlock, rfl⟩ := Instruction.targetAt_eq_ok found
    cases same
    exact .branch (.inr type) operand isBlock
  · -- A switch, each of whose keys has a block of its own.
    next default keyed type operand =>
    obtain ⟨cases, entries, isMade⟩ := bind_eq_ok.mp isMade
    obtain ⟨result, found, same⟩ := bind_eq_ok.mp isMade
    obtain ⟨id, isBlock, rfl⟩ := Instruction.targetAt_eq_ok found
    cases same
    refine .switch type operand isBlock
      ((forall₂_of_mapM_eq_ok entries).imp fun pair entry isEntry => ?_)
    obtain ⟨result, found, same⟩ := bind_eq_ok.mp isEntry
    obtain ⟨id, isBlock, rfl⟩ := Instruction.targetAt_eq_ok found
    cases same
    exact ⟨id, isBlock, rfl⟩
  · -- Straight code.
    next type =>
    cases isMade
    exact .passes type
  · -- Any other end of a block.
    next notPlain notGoto notTest notCall notSwitch =>
    cases isMade
    refine .ends notPlain ?_ fun type default keyed => notSwitch default keyed type
    rintro (type | type | type) offset
    · exact notGoto offset type
    · exact notTest offset type
    · exact notCall offset type

/-- The edges that the last instruction makes are those that the type of the block asks for. -/
theorem Block.placed_linked {made : Block} {start finish : Offset}
    {firstLine lastLine : Option Line} {code : List Expr} {last : Instruction}
    {through : Option BlockId} {count : Nat} {blockAt : Offset → Option BlockId}
    (ends : last.Ends through) (inside : ∀ id, through = some id → Graph.start < id ∧ id ≤ count)
    (known : ∀ offset id, blockAt offset = some id → Graph.start < id ∧ id ≤ count)
    (isMade : Block.linked
      { type := .raw (RawType.ofLast last.opcode), start, finish, firstLine, lastLine, code }
      last through blockAt = .ok made) : made.Placed count := by
  have passes : ∀ {target}, (through.map Target.block) = some target →
      ∃ id, target = .block id ∧ Graph.start < id ∧ id ≤ count := by
    intro target same
    obtain ⟨id, found, rfl⟩ := Option.map_eq_some_iff.mp same
    exact ⟨id, rfl, inside id found⟩
  -- In each case the edges are written out, so their kinds and targets can be read off.
  cases linking_of_linked isMade with
  -- A goto has its one edge.
  | goto type _ found =>
    refine ⟨.ofRaw (congrArg BlockType.raw type)
      (fun kind listed => absurd listed List.not_mem_nil) ?_, ?_⟩
    · intro kind has
      cases kind <;> first | rfl | cases has
    · intro kind target edge
      cases kind <;> cases edge
      exact ⟨_, rfl, known _ _ found⟩
  | branch type _ found =>
    constructor
    · -- A test must also have a block to fall through to, and it does not end the flow.
      rcases type with isTest | isCall
      · have falls : through.isSome = true :=
          ends.falls.resolve_left (by simp [RawType.isConditional_of_ofLast isTest])
        refine .ofRaw (congrArg BlockType.raw isTest) (fun kind listed => ?_) fun kind has => ?_
        · simp only [RawType.requiredEdges, List.mem_cons, List.not_mem_nil, or_false] at listed
          rcases listed with rfl | rfl
          · simpa [edge?] using falls
          · rfl
        · cases kind <;> first | rfl | cases has
      · refine .ofRaw (congrArg BlockType.raw isCall) (fun kind listed => ?_) fun kind has => ?_
        · simp only [RawType.requiredEdges, List.mem_singleton] at listed
          subst listed
          rfl
        · cases kind <;> first | rfl | cases has
    · intro kind target edge
      cases kind with
      | next => exact passes edge
      | branch => cases edge; exact ⟨_, rfl, known _ _ found⟩
      | _ => cases edge
  | switch type _ found entries =>
    -- A switch has its cases, with the default as the last one.
    refine ⟨.ofRaw (congrArg BlockType.raw type)
      (fun kind listed => absurd listed List.not_mem_nil) ?_, ?_⟩
    · intro kind has
      cases kind <;> first | rfl | cases has
    · intro kind target edge
      cases kind with
      | case i =>
        obtain ⟨entry, isEntry, rfl⟩ := Option.map_eq_some_iff.mp edge
        rcases List.mem_append.mp (List.mem_of_getElem? isEntry) with isKeyed | isDefault
        · obtain ⟨j, bound, rfl⟩ := List.mem_iff_getElem.mp isKeyed
          obtain ⟨id, isBlock, same⟩ := entries.get (entries.length_eq ▸ bound) bound
          exact ⟨id, congrArg SwitchCase.target same, known _ _ isBlock⟩
        · cases List.mem_singleton.mp isDefault
          exact ⟨_, rfl, known _ _ found⟩
      | _ => cases edge
  | passes type =>
    -- Straight code falls through.
    refine ⟨.ofRaw (congrArg BlockType.raw type)
      (fun kind listed => absurd listed List.not_mem_nil) ?_, ?_⟩
    · intro kind has
      cases kind <;> first | rfl | cases has
    · intro kind target edge
      cases kind with
      | next => exact passes edge
      | _ => cases edge
  | ends _ noBranch _ =>
    refine ⟨.ofRaw rfl (fun kind listed => ?_) fun kind has => ?_, fun kind target edge => ?_⟩
    · -- A test or a call without a target has been rejected.
      cases type : RawType.ofLast last.opcode with
      | conditional =>
        have isBranch := ends.jumps (by simp [RawType.isConditional_of_ofLast type])
        obtain ⟨offset, isBranch⟩ := Operand.isBranch_iff.mp isBranch
        exact absurd isBranch (noBranch (.inr (.inl type)) offset)
      | jsr =>
        have isBranch := ends.jumps (by simp [RawType.isJsr_of_ofLast type])
        obtain ⟨offset, isBranch⟩ := Operand.isBranch_iff.mp isBranch
        exact absurd isBranch (noBranch (.inr (.inr type)) offset)
      | _ => simp [type, RawType.requiredEdges] at listed
    · cases kind <;> cases has
    · cases kind <;> cases edge

section Blocks

variable {m : Method} {pool : Option Pool} {blockAt : Offset → Option BlockId} {count : Nat}

/-- The block of a run before it has edges. -/
def Run.unlinked (run : Run) (finish : Offset) (code : List Expr) : Block where
  type := .raw (RawType.ofLast run.last.opcode)
  start := run.head.offset
  finish
  firstLine := run.code.findSome? (·.line)
  lastLine := run.code.reverse.findSome? (·.line)
  code

/-- What runs become: the first one is simulated and gets its edges, and the others go
on with the numbers after it. -/
theorem Run.toBlocks_cons_eq_ok {run : Run} {rest : List Run} {id nextDup : Nat}
    {blocks : List Block}
    (made : Run.toBlocks m pool blockAt (run :: rest) id nextDup = .ok blocks) :
    ∃ b frame others, blocks = b :: others ∧
      Frame.run { stack := (m.thrown? run.head).toList, nextDup } pool run.code = .ok frame ∧
      (run.unlinked ((rest.head?.map (·.head.offset)).getD m.codeLength) frame.expressions).linked
        run.last (rest.head?.map fun _ => id + 1) blockAt = .ok b ∧
      Run.toBlocks m pool blockAt rest (id + 1) frame.nextDup = .ok others := by
  -- The parts of the computation, in the order in which they are made.
  obtain ⟨⟨b, next⟩, isBlock, made⟩ := bind_eq_ok.mp made
  obtain ⟨others, later, made⟩ := bind_eq_ok.mp made
  obtain ⟨frame, ran, isBlock⟩ := bind_eq_ok.mp isBlock
  obtain ⟨_, linked, same⟩ := bind_eq_ok.mp isBlock
  cases made
  cases same
  exact ⟨b, frame, others, rfl, ran, linked, later⟩

/-- The blocks of runs have the edges that their types ask for, to blocks of other runs. -/
theorem Run.placed_toBlocks
    (known : ∀ offset id, blockAt offset = some id → Graph.start < id ∧ id ≤ count)
    {runs : List Run} {id nextDup : Nat} {blocks : List Block} (behind : Graph.start < id)
    (total : id + runs.length = count + 1)
    (jumps : ∀ run ∈ runs, (run.last.opcode.isConditional || run.last.opcode.isGoto ||
      run.last.opcode.isJsr) = true → run.last.operand.isBranch = true)
    (ends : ∀ run, runs.getLast? = some run → run.last.opcode.endsFlow = true)
    (made : Run.toBlocks m pool blockAt runs id nextDup = .ok blocks) :
    blocks.length = runs.length ∧ ∀ b ∈ blocks, b.Placed count := by
  -- By induction on the runs, which are numbered on from the first.
  induction runs generalizing id nextDup blocks with
  | nil =>
    cases made
    exact ⟨rfl, fun b listed => absurd listed List.not_mem_nil⟩
  | cons run rest ih =>
    obtain ⟨b, frame, others, rfl, -, linked, later⟩ := toBlocks_cons_eq_ok made
    -- Only the last run has none to fall through to, and it ends the flow.
    have endsRun : run.last.Ends (rest.head?.map fun _ => id + 1) := by
      refine ⟨jumps run List.mem_cons_self, ?_⟩
      cases rest with
      | nil => exact .inl (ends run rfl)
      | cons => exact .inr rfl
    have passes : ∀ through, (rest.head?.map fun _ => id + 1) = some through →
        Graph.start < through ∧ through ≤ count := by
      intro through same
      cases rest with
      | nil => cases same
      | cons next rest =>
        obtain rfl : id + 1 = through := Option.some.inj same
        simp only [List.length_cons] at total
        exact ⟨Nat.lt_succ_of_lt behind, by omega⟩
    obtain ⟨length, placed⟩ :=
      ih (Nat.lt_succ_of_lt behind) (by simp only [List.length_cons] at total; omega)
        (fun run listed => jumps run (List.mem_cons_of_mem _ listed))
        (fun last isLast => ends last (by simp [List.getLast?_cons, isLast])) later
    refine ⟨by simp [length], fun b listed => ?_⟩
    rcases List.mem_cons.mp listed with rfl | isOther
    · exact Block.placed_linked endsRun passes known linked
    · exact placed b isOther

/-- The handlers of a range lead to the blocks that its guards name, in their order. -/
theorem ProtectedRange.target_handlers {range : ProtectedRange} {pool : Option Pool}
    {blockAt : Offset → Option BlockId} {handlers : List Handler}
    (made : range.handlers pool blockAt = .ok handlers) {i : Nat} {target : Target} :
    handlers[i]?.map (·.target) = some target ↔
      ∃ guard id, range.guards[i]? = some guard ∧ blockAt guard.handler = some id ∧
      target = .block id := by
  -- Handlers are made of guards one by one.
  have pairs := forall₂_of_mapM_eq_ok made
  -- Each guard makes one handler, at the same position.
  by_cases bound : i < range.guards.length
  · have inside : i < handlers.length := pairs.length_eq ▸ bound
    have pair := pairs.get bound inside
    simp only [List.get_eq_getElem] at pair
    rw [List.getElem?_eq_getElem bound, List.getElem?_eq_getElem inside]
    split at pair
    · cases pair
    · next id isBlock =>
      have leads : handlers[i].target = .block id := by rw [← Except.ok.inj pair]
      simp [leads, isBlock, eq_comm]
  · have noGuard := List.getElem?_eq_none (Nat.not_lt.mp bound)
    have noHandler :=
      List.getElem?_eq_none (pairs.length_eq ▸ Nat.not_lt.mp bound : handlers.length ≤ i)
    simp [noGuard, noHandler]

end Blocks

namespace Graph

variable {g h : Graph}

/-- A linked graph all of whose blocks have the edges that their types ask for, and lead
to blocks only. -/
structure Regular (g : Graph) : Prop extends g.Linked where
  shaped : ∀ id < g.size, (g.bare id).Shaped
  inner : ∀ id kind target, (g.bare id).edge? kind = some target → ∃ next, target = .block next

/-- The entry in front of blocks. -/
def entryOf (blocks : List Block) : Block :=
  { blankBlock with next := if blocks.isEmpty then none else some (.block 1) }

/-- The entry in front of blocks leads to the first of them. -/
theorem placed_entryOf (blocks : List Block) : (entryOf blocks).Placed blocks.length := by
  -- The entry is neither code nor a construct, so nothing is asked of it but where it leads.
  refine ⟨⟨?_, ?_, ?_, ?_, ?_, ?_⟩, ?_⟩
  · exact fun kind listed => absurd listed List.not_mem_nil
  · intro type isRaw
    cases isRaw
  · intro type isRaw
    cases isRaw
  · intro isOpen
    cases isOpen
  · intro isGoto
    cases isGoto
  · intro has
    cases has
  · intro kind target edge
    cases kind with
    | next =>
      cases blocks with
      | nil => cases edge
      | cons b rest =>
        cases edge
        exact ⟨1, rfl, Nat.zero_lt_one, Nat.succ_le_succ (Nat.zero_le _)⟩
    | _ => cases edge

section OfBlocks

variable {blocks : List Block}

/-- The graph of blocks is made of the entry and of them. -/
theorem ofBlocks_eq : ofBlocks blocks = relink ⟨(entryOf blocks :: blocks).toArray⟩ := rfl

/-- The entry is one more block. -/
theorem size_ofBlocks : (ofBlocks blocks).size = blocks.length + 1 := by
  rw [ofBlocks_eq, size_relink]
  simp [size]

/-- The graph of blocks has no blocks but those and its entry. -/
theorem exists_bare_ofBlocks {id : BlockId} (known : id < (ofBlocks blocks).size) :
    ∃ b ∈ entryOf blocks :: blocks, (ofBlocks blocks).bare id = b.bare := by
  -- Only predecessor sets are set anew.
  rw [ofBlocks_eq, size_relink] at known
  rw [ofBlocks_eq, bare_relink]
  have found := getElem?_blocks known
  rw [List.getElem?_toArray] at found
  exact ⟨_, List.mem_of_getElem? found, rfl⟩

variable (placed : ∀ b ∈ blocks, b.Placed blocks.length)

include placed

/-- Every block of the graph of placed blocks is placed. -/
theorem exists_placed_ofBlocks {id : BlockId} (known : id < (ofBlocks blocks).size) :
    ∃ b : Block, b.Placed blocks.length ∧ (ofBlocks blocks).bare id = b.bare := by
  -- The entry is placed by its making, and every other block by assumption.
  obtain ⟨b, listed, same⟩ := exists_bare_ofBlocks known
  rcases List.mem_cons.mp listed with rfl | isBlock
  · exact ⟨_, placed_entryOf blocks, same⟩
  · exact ⟨b, placed b isBlock, same⟩

/-- The graph of placed blocks leads to blocks behind its entry only. -/
theorem inner_ofBlocks {source : BlockId} {kind : EdgeKind} {target : Target}
    (edge : ((ofBlocks blocks).bare source).edge? kind = some target) :
    ∃ id, target = .block id ∧ start < id ∧ id < (ofBlocks blocks).size := by
  -- The edges of the graph are those of the blocks.
  obtain ⟨b, placed, same⟩ := exists_placed_ofBlocks placed (lt_size_of_edge edge)
  rw [same] at edge
  obtain ⟨id, rfl, behind, inside⟩ := placed.bounds kind target edge
  exact ⟨id, rfl, behind, size_ofBlocks ▸ Nat.lt_succ_of_le inside⟩

/-- The graph of placed blocks is regular. -/
theorem regular_ofBlocks : (ofBlocks blocks).Regular := by
  -- No edge leads to the entry.
  have edges : ∀ {source target}, (ofBlocks blocks).Leads source target →
      start < target ∧ target < (ofBlocks blocks).size := by
    rintro source target ⟨kind, edge⟩
    obtain ⟨_, same, bounds⟩ := inner_ofBlocks placed edge
    cases same
    exact bounds
  refine ⟨⟨⟨?_, ?_, ?_, ?_⟩⟩, ?_, ?_⟩
  · rw [ofBlocks_eq]
    refine mirrored_relink fun {source target} leads => ?_
    -- Linking blocks changes nothing but their predecessors.
    obtain ⟨kind, edge⟩ := leads
    have bounds := @edges source target ⟨kind, by rwa [ofBlocks_eq, bare_relink]⟩
    rw [ofBlocks_eq, size_relink] at bounds
    exact bounds.2
  · exact fun source leads => absurd (edges leads).1 (Nat.lt_irrefl _)
  · rw [ofBlocks_eq, bare_relink]
    rfl
  · rw [size_ofBlocks]
    exact Nat.succ_pos _
  · -- Each block has the shape that it was made with.
    intro id known
    obtain ⟨b, placed, same⟩ := exists_placed_ofBlocks placed known
    rw [same]
    exact placed.shaped.congr rfl fun kind => rfl
  · intro id kind target edge
    obtain ⟨next, same, -⟩ := inner_ofBlocks placed edge
    exact ⟨next, same⟩

end OfBlocks

/-- The entry of a protected range. -/
def rangeEntry (range : ProtectedRange) (first : BlockId) (handlers : List Handler) : Block :=
  { type := .raw .tryBlock, start := range.start, finish := range.start,
    next := some (.block first), handlers }

/-- The entry of a protected range leads to the protected code and to the handlers. -/
theorem edge?_rangeEntry {range : ProtectedRange} {first : BlockId} {handlers : List Handler}
    {kind : EdgeKind} {target : Target} :
    (rangeEntry range first handlers).edge? kind = some target ↔
      kind = .next ∧ target = .block first ∨
        ∃ i, kind = .handler i ∧ handlers[i]?.map (·.target) = some target := by
  -- Its only other edges are those to the handlers.
  cases kind <;> simp [rangeEntry, Block.edge?, eq_comm]

/-- What entering a protected range does: its entry comes before its first block, for some
of the blocks that lead there. -/
structure Protects (g : Graph) (first : BlockId) (entry : Block) (accept : BlockId → Bool)
    (h : Graph) : Prop where
  linked : h.Linked
  size : h.size = g.size + 1
  entry : h.bare g.size = entry
  inner : ∀ kind target, (h.bare g.size).edge? kind = some target → ∃ next, target = .block next
  others : ∀ i, i ≠ g.size →
    h.bare i = if accept i then (g.bare i).replaceTarget (.block first) (.block g.size)
      else g.bare i

/-- Entering a protected range puts its entry in front of its first block. -/
theorem protects_protect {pool : Option Pool} {blockAt : Offset → Option BlockId}
    {range : ProtectedRange} (linked : g.Linked)
    (known : ∀ offset id, blockAt offset = some id → start < id ∧ id < g.size)
    (made : g.protect pool blockAt range = .ok h) :
    ∃ first handlers, blockAt range.start = some first ∧
      range.handlers pool blockAt = .ok handlers ∧
        Protects g first (rangeEntry range first handlers)
          (fun i => !range.holds (g.bare i)) h := by
  simp only [Graph.protect] at made
  split at made
  · next first isFirst =>
    -- The entry is put in front of the first block without edges, and then gets its own.
    obtain ⟨handlers, isHandlers, made⟩ := bind_eq_ok.mp made
    cases made
    let entry : Block := { type := .raw .tryBlock, start := range.start, finish := range.start }
    have noEdges : ∀ kind, entry.edge? kind = none := fun kind => by cases kind <;> rfl
    let accept : BlockId → Bool := fun pred => !range.holds ((g.add entry).2.block pred)
    let moved := g.precedeFrom first entry accept
    have size : moved.size = g.size + 1 := size_precedeFrom
    have movedBlocks : ∀ i, moved.bare i = _ := bare_precedeFrom linked.toMirrored noEdges rfl
    let change : Block → Block := fun b => { b with next := some (.block first), handlers }
    have blocks := bare_update change (size ▸ Nat.lt_succ_self _ : g.size < moved.size) fun _ => rfl
    have isEntry : change (moved.bare g.size) = rangeEntry range first handlers :=
      congrArg change ((movedBlocks _).trans (if_pos rfl))
    -- Handlers and the protected block are blocks of the code.
    have inside : ∀ kind target, (change (moved.bare g.size)).edge? kind = some target →
        ∃ id, target = .block id ∧ start < id ∧ id < g.size := by
      intro kind target edge
      rw [isEntry, edge?_rangeEntry] at edge
      rcases edge with ⟨-, rfl⟩ | ⟨i, -, leads⟩
      · exact ⟨first, rfl, known _ first isFirst⟩
      · obtain ⟨guard, id, -, isBlock, rfl⟩ := (ProtectedRange.target_handlers isHandlers).mp leads
        exact ⟨id, rfl, known _ id isBlock⟩
    -- The new entry is the only block with new edges.
    refine ⟨first, handlers, isFirst, isHandlers, ?_, ?_, ?_, ?_, fun i other => ?_⟩
    · refine (linked.precedeFrom noEdges rfl).update change (fun _ => rfl) (fun _ => rfl)
        (fun kind target edge => ?_) fun isStart => absurd isStart (Nat.ne_of_gt linked.nonempty)
      obtain ⟨id, same, behind, below⟩ := inside kind _ edge
      cases same
      exact ⟨behind, size ▸ Nat.lt_succ_of_lt below⟩
    · exact (size_update ..).trans size
    · exact (blocks _).trans ((if_pos rfl).trans isEntry)
    · intro kind target edge
      replace edge : ((moved.update g.size change).bare g.size).edge? kind = some target := edge
      rw [blocks, if_pos rfl] at edge
      obtain ⟨id, same, -⟩ := inside kind target edge
      exact ⟨id, same⟩
    · -- What counts is whether the range holds the block that leads there.
      have unchanged : accept i = !range.holds (g.bare i) := by
        show (!range.holds ((g.add entry).2.block i)) = _
        rw [block_add, if_neg other]
        rfl
      refine (blocks i).trans ?_
      rw [if_neg other, movedBlocks, if_neg other, unchanged]
  · cases made

/-- What is kept when one protected range is entered after others is kept when ranges
are entered one after the other. -/
theorem foldlM_protect_recOn {pool : Option Pool} {blockAt : Offset → Option BlockId}
    {ranges : List ProtectedRange} {motive : List ProtectedRange → Graph → Prop} (linked : g.Linked)
    (known : ∀ offset id, blockAt offset = some id → start < id ∧ id < g.size) (base : motive [] g)
    (step : ∀ {done rest mid next range first handlers}, ranges = done ++ range :: rest →
      mid.Linked → motive done mid → blockAt range.start = some first →
      range.handlers pool blockAt = .ok handlers →
      Protects mid first (rangeEntry range first handlers)
        (fun i => !range.holds (mid.bare i)) next → motive (done ++ [range]) next)
    (made : ranges.foldlM (·.protect pool blockAt ·) g = .ok h) : h.Linked ∧ motive ranges h := by
  -- The ranges are cut into those that are done and those that are left.
  suffices general : ∀ rest done mid, ranges = done ++ rest → mid.Linked →
      (∀ offset id, blockAt offset = some id → start < id ∧ id < mid.size) → motive done mid →
        rest.foldlM (·.protect pool blockAt ·) mid = .ok h → h.Linked ∧ motive ranges h from
    general ranges [] g rfl linked known base made
  intro rest
  -- By induction on the ranges that are left, with the graph after those that are done.
  induction rest with
  | nil =>
    intro done mid parts linked _ kept made
    cases made
    rw [List.append_nil] at parts
    exact ⟨linked, parts ▸ kept⟩
  | cons range rest ih =>
    intro done mid parts linked known kept made
    rw [List.foldlM_cons] at made
    obtain ⟨next, isNext, made⟩ := bind_eq_ok.mp made
    obtain ⟨first, handlers, isFirst, isHandlers, protects⟩ := protects_protect linked known isNext
    refine ih (done ++ [range]) next (by rw [parts, List.append_assoc]; rfl) protects.linked
      (fun offset id isBlock => ?_) (step parts linked kept isFirst isHandlers protects) made
    -- The graph grows, so the blocks of the code stay inside it.
    exact (known offset id isBlock).imp_right fun below => protects.size ▸ Nat.lt_succ_of_lt below

/-- What is kept when any protected range is entered is kept when ranges are entered one
after the other. -/
theorem foldlM_protect_induction {pool : Option Pool} {blockAt : Offset → Option BlockId}
    {ranges : List ProtectedRange} {motive : Graph → Prop} (linked : g.Linked)
    (known : ∀ offset id, blockAt offset = some id → start < id ∧ id < g.size) (base : motive g)
    (step : ∀ {mid next range first handlers accept}, mid.Linked → motive mid →
      blockAt range.start = some first →
      Protects mid first (rangeEntry range first handlers) accept next → motive next)
    (made : ranges.foldlM (·.protect pool blockAt ·) g = .ok h) : h.Linked ∧ motive h :=
  foldlM_protect_recOn (motive := fun _ => motive) linked known base
    (fun _ linked kept isFirst _ protects => step linked kept isFirst protects) made

/-- Entering a protected range keeps the shapes of blocks. -/
theorem Protects.shaped {range : ProtectedRange} {first : BlockId} {handlers : List Handler}
    {accept : BlockId → Bool}
    (protects : Protects g first (rangeEntry range first handlers) accept h)
    (shaped : ∀ id < g.size, (g.bare id).Shaped) : ∀ id < h.size, (h.bare id).Shaped := by
  intro id below
  -- The new block is the entry of the range, and the others are renamed at most.
  by_cases isEntry : id = g.size
  · rw [isEntry, protects.entry]
    refine .ofRaw rfl (fun kind listed => absurd listed List.not_mem_nil) fun kind has => ?_
    cases kind <;> first | rfl | cases has
  · rw [protects.size] at below
    have old : id < g.size := Nat.lt_of_le_of_ne (Nat.le_of_lt_succ below) isEntry
    rw [protects.others id isEntry]
    split
    · exact (shaped id old).congr rfl fun kind => by simp
    · exact shaped id old

/-- Entering a protected range keeps a graph regular. -/
theorem Protects.regular {range : ProtectedRange} {first : BlockId} {handlers : List Handler}
    {accept : BlockId → Bool}
    (protects : Protects g first (rangeEntry range first handlers) accept h) (regular : g.Regular) :
    h.Regular := by
  refine { protects.linked with
    shaped := protects.shaped regular.shaped, inner := fun id kind target edge => ?_ }
  -- The entry leads to blocks, and all other blocks led to blocks already.
  by_cases isEntry : id = g.size
  · exact protects.inner kind target (isEntry ▸ edge)
  · rw [protects.others id isEntry] at edge
    split at edge
    · -- A block is renamed to a block.
      rw [Block.edge?_replaceTarget, Option.map_eq_some_iff] at edge
      obtain ⟨before, edge, rfl⟩ := edge
      obtain ⟨next, rfl⟩ := regular.inner id kind before edge
      unfold Target.renamed
      split
      · exact ⟨g.size, rfl⟩
      · exact ⟨next, rfl⟩
    · exact regular.inner id kind target edge

/-- Entering protected ranges one after the other keeps a graph regular. -/
theorem Regular.foldlM_protect {pool : Option Pool} {blockAt : Offset → Option BlockId}
    {ranges : List ProtectedRange} (regular : g.Regular)
    (known : ∀ offset id, blockAt offset = some id → start < id ∧ id < g.size)
    (made : ranges.foldlM (·.protect pool blockAt ·) g = .ok h) : h.Regular :=
  (foldlM_protect_induction regular.toLinked known regular
    (fun _ regular _ protects => protects.regular regular) made).2

/-- Only unreachable blocks lose their edges. -/
theorem bare_prune (g : Graph) (id : BlockId) :
    g.prune.bare id = if id ∈ g.reachable then g.bare id else (g.bare id).detached := by
  -- Each unreachable block is detached once.
  have distinct : (g.ids.filter (· ∉ g.reachable)).Nodup := List.nodup_range.filter _
  have known : ∀ id ∈ g.ids.filter (· ∉ g.reachable), id < g.size := fun id listed =>
    List.mem_range.mp (List.mem_filter.mp listed).1
  refine (bare_foldl_update Block.detached (fun _ => rfl) distinct known id).trans ?_
  by_cases inside : id < g.size
  · simp only [List.mem_filter, ids, List.mem_range, inside, true_and, decide_eq_true_eq]
    by_cases member : id ∈ g.reachable
    · rw [if_neg (not_not_intro member), if_pos member]
    · rw [if_pos member, if_neg member]
  · -- Where there is no block there are no edges either.
    have blank : g.block id = blankBlock := block_of_size_le (Nat.not_lt.mp inside)
    rw [if_neg fun listed => inside (known id listed), bare, blank]
    split <;> rfl

/-- The edges that are left are those of the blocks that can be reached. -/
theorem edge?_prune_eq_some_iff {id : BlockId} {kind : EdgeKind} {target : Target} :
    (g.prune.bare id).edge? kind = some target ↔
      id ∈ g.reachable ∧ (g.bare id).edge? kind = some target := by
  -- A block that cannot be reached has lost all of its edges.
  rw [bare_prune]
  split
  · next isReachable => exact (and_iff_right isReachable).symm
  · next unreachable =>
    rw [Block.edge?_detached]
    exact iff_of_false nofun fun both => unreachable both.1

/-- Pruning keeps a graph linked. -/
theorem Linked.prune (linked : g.Linked) : g.prune.Linked :=
  List.foldlRecOn _ _ linked fun _ before _ _ => before.detach

/-- A block that can be reached stays as it is. -/
theorem Linked.bare_prune_of_reached (linked : g.Linked) {id : BlockId} (reached : g.Reached id) :
    g.prune.bare id = g.bare id :=
  (bare_prune g id).trans (if_pos ((mem_reachable linked.toMirrored linked.nonempty).mpr reached))

/-- The blocks that can be reached without the edges of unreachable blocks are the same. -/
theorem reached_prune {id : BlockId} (reached : g.prune.Reached id) : g.Reached id := by
  -- Pruning adds no edges.
  induction reached with
  | refl => exact g.reached_start
  | tail _ leads ih =>
    obtain ⟨kind, edge⟩ := leads
    exact ih.step ⟨kind, (edge?_prune_eq_some_iff.mp edge).2⟩

/-- What can be reached stays so without the edges of unreachable blocks. -/
theorem Reached.prune (linked : g.Linked) {id : BlockId} (reached : g.Reached id) :
    g.prune.Reached id := by
  -- The blocks along the way can all be reached, and keep their edges.
  induction reached with
  | refl => exact g.prune.reached_start
  | tail before leads ih =>
    obtain ⟨kind, edge⟩ := leads
    exact ih.step ⟨kind, linked.bare_prune_of_reached before ▸ edge⟩

/-- A regular graph without the edges of unreachable blocks is sound. -/
theorem Regular.sound_prune (regular : g.Regular) : g.prune.Sound := by
  -- Every reachable block is one that was regular before.
  refine { regular.toLinked.prune with shaped := fun {id} reached => ?_ }
  have before := reached_prune reached
  rw [regular.toLinked.bare_prune_of_reached before]
  exact regular.shaped id (before.lt_size regular.toLinked)

/-- The block that starts at an offset is one of the blocks of the runs. -/
theorem blockAt?_bounds {runs : List Run} {offset : Offset} {id : Nat}
    (found : blockAt? runs offset = some id) : start < id ∧ id ≤ runs.length := by
  -- Blocks are numbered in the order of the runs, after the entry.
  obtain ⟨i, isIndex, rfl⟩ := Option.map_eq_some_iff.mp found
  obtain ⟨below, -⟩ := List.findIdx?_eq_some_iff_findIdx_eq.mp isIndex
  exact ⟨Nat.succ_pos _, below⟩

section Build

variable {m : Method} {pool : Option Pool} {options : BuildOptions}

/-- How the graph of a method is made. -/
theorem build_cases (made : build m pool options = .ok g) :
    m.fault? = none ∧ ∃ blocks h,
      Run.toBlocks m pool (blockAt? m.runs) m.runs 1 0 = .ok blocks ∧
      (ProtectedRange.ofTable m.exceptions options).foldlM (·.protect pool (blockAt? m.runs) ·)
        (ofBlocks blocks) = .ok h ∧ g = h.prune := by
  -- The check of the layout comes first, then the blocks of the runs, the protected ranges
  -- and the pruning.
  simp only [build] at made
  split at made
  · cases made
  next faultless =>
  obtain ⟨blocks, isBlocks, made⟩ := bind_eq_ok.mp made
  obtain ⟨h, isProtected, made⟩ := bind_eq_ok.mp made
  cases made
  exact ⟨Option.eq_none_iff_forall_ne_some.mpr faultless, blocks, h, isBlocks, isProtected, rfl⟩

/-- The blocks that start at offsets are in the graph of the runs. -/
theorem blockAt?_lt_size {runs : List Run} {blocks : List Block}
    (length : blocks.length = runs.length) {offset : Offset} {id : BlockId}
    (found : blockAt? runs offset = some id) : start < id ∧ id < (ofBlocks blocks).size := by
  -- There is one block for each run, and the entry.
  refine (blockAt?_bounds found).imp_right fun below => ?_
  rw [← length] at below
  simpa [ofBlocks, Graph.size, relink] using Nat.lt_succ_of_le below

/-- The graph of the runs is regular. -/
theorem regular_of_toBlocks (faultless : m.fault? = none) {blocks : List Block}
    (made : Run.toBlocks m pool (blockAt? m.runs) m.runs 1 0 = .ok blocks) :
    blocks.length = m.runs.length ∧ (ofBlocks blocks).Regular := by
  have laid := Method.fault?_eq_none_iff.mp faultless
  -- The last run does not fall off the end, since the check of the layout has refused that.
  have ends : ∀ run, m.runs.getLast? = some run → run.last.opcode.endsFlow = true :=
    fun run isLast => laid.ends run.last (Run.last_of_getLast? isLast)
  obtain ⟨length, placed⟩ :=
    Run.placed_toBlocks (fun offset id found => blockAt?_bounds found) Nat.zero_lt_one
      (Nat.add_comm _ _) laid.isBranch_last ends made
  exact ⟨length, regular_ofBlocks (length ▸ placed)⟩

/-- The graph of a method has no exits. -/
theorem inner_of_build (made : build m pool options = .ok g) {id : BlockId} {kind : EdgeKind}
    {target : Target} (edge : (g.bare id).edge? kind = some target) :
    ∃ next, target = .block next := by
  -- All edges are made between blocks.
  obtain ⟨faultless, blocks, h, isBlocks, isProtected, rfl⟩ := build_cases made
  obtain ⟨length, regular⟩ := regular_of_toBlocks faultless isBlocks
  have whole := regular.foldlM_protect (fun offset id => blockAt?_lt_size length) isProtected
  exact whole.inner id kind target (edge?_prune_eq_some_iff.mp edge).2

/-- The graph of a method is sound. -/
theorem sound_of_build (made : build m pool options = .ok g) : g.Sound := by
  -- Blocks are made of the runs, protected and pruned, and all of that keeps the graph regular.
  obtain ⟨faultless, blocks, h, isBlocks, isProtected, rfl⟩ := build_cases made
  obtain ⟨length, regular⟩ := regular_of_toBlocks faultless isBlocks
  exact (regular.foldlM_protect (fun offset id => blockAt?_lt_size length) isProtected).sound_prune

end Build

end Graph

end Unjump
