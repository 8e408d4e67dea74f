import Unjump.Proofs.Build

/-!
The raw graph of a method is the control flow of its instructions.

Every block of code covers a segment of the code of which only the last instruction can jump, and
its edges lead, perhaps through entries of protected ranges, to the blocks that start where that
instruction passes control to.
-/

namespace Unjump

/-- The offset that a jump names. -/
def Operand.branch? : Operand → Option Offset
  | .branch target => some target
  | _ => none

namespace Instruction

/-- The offset of the instruction that comes next, where the offset
of the following one is given. -/
def nextOffset? (i : Instruction) (following : Option Offset) : Option Offset :=
  if i.opcode.isGoto then i.operand.branch? else if i.opcode.endsFlow then none else following

/-- The offset of the other instruction that may come next: where a test jumps,
or a subroutine starts. -/
def branchOffset? (i : Instruction) : Option Offset :=
  if i.opcode.isConditional || i.opcode.isJsr then i.operand.branch? else none

/-- The offsets that a switch jumps to with their keys, the default last and without a key. -/
def caseOffsets (i : Instruction) : List (Option Int32 × Offset) :=
  if i.opcode.isSwitch then
    match i.operand with
    | .switch default keyed =>
      keyed.map (fun (key, target) => (some key, target)) ++ [(none, default)]
    | _ => []
  else []

end Instruction

/-- Whether a block is code of the method, and no entry of a protected range. -/
def Block.isCode (b : Block) : Bool :=
  match b.type with
  | .raw .tryBlock => false
  | .raw _ => true
  | _ => false

/-- The key of a case, none for the default. -/
def SwitchCase.key? (entry : SwitchCase) : Option Int32 :=
  if entry.isDefault then none else some entry.key

/-- The instructions that a block covers: a segment of the code,
of which only the last one can jump. -/
structure Segment (m : Method) (b : Block) (before front : List Instruction) (last : Instruction)
    (after : List Instruction) : Prop where
  code : m.code = before ++ front ++ last :: after
  start : (front ++ [last]).head?.map (·.offset) = some b.start
  finish : (after.head?.map (·.offset)).getD m.codeLength = b.finish
  plain : ∀ i ∈ front, i.opcode.endsBlock = false

/-- The edges of a block lead where its last instruction passes control to. -/
structure Block.Follows (enters : Target → Offset → Prop) (b : Block) (last : Instruction)
    (following : Option Offset) : Prop where
  next : Option.Rel enters b.next (last.nextOffset? following)
  branch : Option.Rel enters b.branch last.branchOffset?
  cases : List.Forall₂ (fun entry target => entry.key? = target.1 ∧ enters entry.target target.2)
    b.cases last.caseOffsets

namespace Graph

/-- Whether the entries of protected ranges from one block on lead to a block of code. -/
inductive Resolves (g : Graph) : BlockId → BlockId → Prop
  | code {id} (isCode : (g.block id).isCode = true) : Resolves g id id
  | through {id next last} (isTry : (g.block id).type = .raw .tryBlock)
      (leads : (g.block id).next = some (.block next)) (rest : Resolves g next last) :
      Resolves g id last

/-- Whether a target leads to the block of code that starts at an offset. -/
def EntersAt (g : Graph) (target : Target) (offset : Offset) : Prop :=
  ∃ id last, target = .block id ∧ g.Resolves id last ∧ (g.block last).start = offset

/-- Whether a block is a segment of the code that passes control on as its last instruction does. -/
def Traces (g : Graph) (m : Method) (b : Block) : Prop :=
  ∃ before front last after, Segment m b before front last after ∧
    b.Follows g.EntersAt last (after.head?.map (·.offset))

end Graph

section Follows

variable {enters enters' : Target → Offset → Prop} {b : Block} {last : Instruction}
    {following : Option Offset}

/-- What is related to an optional value stays so if the relation is kept for that value. -/
private theorem rel_imp {α β : Type} {r s : α → β → Prop} {a : Option α} {c : Option β}
    (rel : Option.Rel r a c) (kept : ∀ x c, a = some x → r x c → s x c) : Option.Rel s a c := by
  -- Either both are there or neither is.
  cases rel with
  | none => exact .none
  | some rel => exact .some (kept _ _ rfl rel)

/-- Only a value is related to a value. -/
private theorem exists_of_rel_some {α β : Type} {r : α → β → Prop} {a : Option α} {c : β}
    (rel : Option.Rel r a (some c)) : ∃ x, a = some x ∧ r x c := by
  -- The other value cannot be absent.
  cases rel with
  | some rel => exact ⟨_, rfl, rel⟩

/-- What is related to an optional value is related to its image if the relation is kept. -/
private theorem rel_map {α β γ : Type} {r : α → β → Prop} {s : γ → β → Prop} {a : Option α}
    {c : Option β} (f : α → γ) (kept : ∀ a c, r a c → s (f a) c) (rel : Option.Rel r a c) :
    Option.Rel s (a.map f) c := by
  -- Either both are there or neither is.
  cases rel with
  | none => exact .none
  | some rel => exact .some (kept _ _ rel)

/-- Renaming a target keeps where edges lead if the new name leads there. -/
theorem Block.Follows.replaceTarget {old new : Target} (follows : b.Follows enters last following)
    (kept : ∀ target offset, enters target offset → enters' (old.renamed new target) offset) :
    (b.replaceTarget old new).Follows enters' last following where
  next := rel_map _ kept follows.next
  branch := rel_map _ kept follows.branch
  cases :=
    List.forall₂_map_left_iff.mpr (follows.cases.imp fun _ _ fits => ⟨fits.1, kept _ _ fits.2⟩)

/-- Where edges lead need only be kept for the targets that they have. -/
theorem Block.Follows.imp (follows : b.Follows enters last following)
    (kept : ∀ kind target offset, b.edge? kind = some target → enters target offset →
      enters' target offset) :
    b.Follows enters' last following where
  next := rel_imp follows.next (kept .next)
  branch := rel_imp follows.branch (kept .branch)
  cases := by
    -- Position by position, since a target is an edge of its own position.
    obtain ⟨length, related⟩ := List.forall₂_iff_get.mp follows.cases
    refine List.forall₂_iff_get.mpr ⟨length, fun i bound bound' => ⟨(related i bound bound').1, ?_⟩⟩
    exact kept (.case i) _ _ (by simp [edge?, bound]) (related i bound bound').2

/-- Predecessor sets do not matter for where edges lead. -/
theorem Block.Follows.bare (follows : b.Follows enters last following) :
    b.bare.Follows enters last following :=
  ⟨follows.next, follows.branch, follows.cases⟩

end Follows

section Runs

/-- A run ends with its last instruction. -/
theorem Run.dropLast_append_last (run : Run) : run.code.dropLast ++ [run.last] = run.code := by
  -- The last instruction is the last of the code, which has one at least.
  refine List.dropLast_append_getLast? run.last ?_
  simp [Run.code, Run.last, List.getLast?_cons]

/-- A run is a segment of the code. -/
theorem Run.flatMap_code_eq {runs : List Run} {k : Nat} {run : Run} (found : runs[k]? = some run) :
    runs.flatMap Run.code =
      (runs.take k).flatMap Run.code ++ run.code.dropLast ++
        run.last :: (runs.drop (k + 1)).flatMap Run.code := by
  -- The run is taken out of the list that it stands in.
  obtain ⟨bound, rfl⟩ := List.getElem?_eq_some_iff.mp found
  have cut : runs = runs.take k ++ runs[k] :: runs.drop (k + 1) := by simp
  calc runs.flatMap Run.code
    _ = (runs.take k ++ runs[k] :: runs.drop (k + 1)).flatMap Run.code := by rw [← cut]
    _ = (runs.take k).flatMap Run.code ++ ((runs[k].code.dropLast ++ [runs[k].last]) ++
        (runs.drop (k + 1)).flatMap Run.code) := by
      rw [List.flatMap_append, List.flatMap_cons, Run.dropLast_append_last]
    _ = _ := by simp only [List.append_assoc, List.cons_append, List.nil_append]

/-- Code after the first instruction has no leaders that the code has not. -/
theorem followers_tail {first : Instruction} {rest : List Instruction} {offset : Offset}
    (listed : offset ∈ followers rest) : offset ∈ followers (first :: rest) := by
  -- Of the code without its first instruction, a leader follows another instruction.
  cases rest with
  | nil => cases listed
  | cons second rest =>
    rw [followers]
    split
    · exact List.mem_cons_of_mem _ listed
    · exact listed

/-- Only the last instruction of a run can jump. -/
theorem Run.plain_of_mem_split {leaders : List Offset} {code : List Instruction}
    (cut : ∀ offset ∈ followers code, offset ∈ leaders) {run : Run}
    (listed : run ∈ Run.split leaders code) :
    ∀ i ∈ run.code.dropLast, i.opcode.endsBlock = false := by
  -- By induction on the code, which is cut from its end.
  induction code generalizing run with
  | nil => cases listed
  | cons head rest ih =>
    have whole := Run.flatMap_code_split leaders rest
    have later : ∀ run ∈ Run.split leaders rest, ∀ i ∈ run.code.dropLast,
        i.opcode.endsBlock = false := fun run =>
      ih fun offset isFollower => cut offset (followers_tail isFollower)
    rw [split] at listed
    split at listed
    · cases List.mem_singleton.mp listed
      exact fun i member => absurd member List.not_mem_nil
    · next first others same =>
      rw [same] at whole later
      split at listed
      · rcases List.mem_cons.mp listed with rfl | isLater
        · exact fun i member => absurd member List.not_mem_nil
        · exact later run isLater
      · next noLeader =>
        rcases List.mem_cons.mp listed with rfl | isLater
        · -- The first instruction runs on into the run after it, which would be cut off otherwise.
          intro i member
          rcases List.mem_cons.mp member with rfl | inside
          · rw [← Bool.not_eq_true]
            intro ends
            refine noLeader (cut _ ?_)
            rw [← whole]
            simp [Run.code, followers, ends]
          · exact later first List.mem_cons_self i inside
        · exact later run (List.mem_cons_of_mem _ isLater)

end Runs

/-- What the type of a block says about its last opcode. -/
theorem RawType.ofLast_flags (opcode : Opcode) :
    opcode.isGoto = (ofLast opcode == .goto) ∧
      opcode.isConditional = (ofLast opcode == .conditional) ∧
      opcode.isJsr = (ofLast opcode == .jsr) ∧ opcode.isSwitch = (ofLast opcode == .switch) ∧
      opcode.endsFlow = !(ofLast opcode == .statements || ofLast opcode == .conditional ||
        ofLast opcode == .jsr) := by
  -- All of these are read off the operation, which unknown opcodes do not have.
  simp only [Opcode.isGoto, Opcode.isConditional, Opcode.isJsr, Opcode.isSwitch, Opcode.endsFlow,
    Opcode.satisfies, ofLast]
  cases opcode.operation? with
  | none => exact ⟨rfl, rfl, rfl, rfl, rfl⟩
  | some operation => cases operation <;> exact ⟨rfl, rfl, rfl, rfl, rfl⟩

section Linked

variable {b made : Block} {last : Instruction} {through : Option BlockId}
    {following : Option Offset} {blockAt : Offset → Option BlockId}
    {enters : Target → Offset → Prop}

/-- A block has the edges that its last instruction makes. -/
theorem Block.follows_linked (blank : b.next = none ∧ b.branch = none ∧ b.cases = [])
    (jumps : (last.opcode.isConditional || last.opcode.isGoto || last.opcode.isJsr) = true →
      last.operand.isBranch = true)
    (passes : Option.Rel (fun id offset => enters (.block id) offset) through following)
    (known : ∀ offset id, blockAt offset = some id → enters (.block id) offset)
    (isMade : b.linked last through blockAt = .ok made) : made.Follows enters last following := by
  -- The type of the block tells which flags its last opcode has.
  obtain ⟨isGoto, isConditional, isJsr, isSwitch, endsFlow⟩ := RawType.ofLast_flags last.opcode
  obtain ⟨noNext, noBranch, noCases⟩ := blank
  have passed : Option.Rel enters (through.map Target.block) following :=
    rel_map _ (fun _ _ enters => enters) passes
  -- One case for each way in which the last instruction links the block.
  cases linking_of_linked isMade with
  | goto type operand found =>
    rw [type] at isGoto isConditional isJsr isSwitch
    constructor
    · simpa [Instruction.nextOffset?, isGoto, operand, Operand.branch?] using known _ _ found
    · simp [Instruction.branchOffset?, isConditional, isJsr, noBranch]
    · simp [Instruction.caseOffsets, isSwitch, noCases]
  | branch type operand found =>
    have passesOn : last.opcode.isGoto = false ∧ last.opcode.endsFlow = false ∧
        last.opcode.isSwitch = false ∧
        (last.opcode.isConditional || last.opcode.isJsr) = true := by
      rcases type with type | type <;> simp [isGoto, endsFlow, isSwitch, isConditional, isJsr, type]
    obtain ⟨isGoto, endsFlow, isSwitch, branches⟩ := passesOn
    constructor
    · simpa [Instruction.nextOffset?, isGoto, endsFlow] using passed
    · simpa [Instruction.branchOffset?, branches, operand, Operand.branch?] using known _ _ found
    · simp [Instruction.caseOffsets, isSwitch, noCases]
  | switch type operand found entries =>
    rw [type] at isGoto isConditional isJsr isSwitch endsFlow
    constructor
    · simp [Instruction.nextOffset?, isGoto, endsFlow, noNext]
    · simp [Instruction.branchOffset?, isConditional, isJsr, noBranch]
    · rw [Instruction.caseOffsets, isSwitch, operand]
      refine List.rel_append (List.forall₂_map_right_iff.mpr ?_) (.cons ⟨rfl, known _ _ found⟩ .nil)
      refine entries.flip.imp fun entry pair isEntry => ?_
      obtain ⟨id, isBlock, rfl⟩ := isEntry
      exact ⟨rfl, known _ _ isBlock⟩
  | passes type =>
    rw [type] at isGoto isConditional isJsr isSwitch endsFlow
    constructor
    · simpa [Instruction.nextOffset?, isGoto, endsFlow] using passed
    · simp [Instruction.branchOffset?, isConditional, isJsr, noBranch]
    · simp [Instruction.caseOffsets, isSwitch, noCases]
  | ends notPlain noTarget noTable =>
    -- A jump without a target has been rejected, and what is left has no edges.
    have noJump :
        (last.opcode.isConditional || last.opcode.isGoto || last.opcode.isJsr) = false := by
      rw [← Bool.not_eq_true]
      intro isJump
      obtain ⟨offset, same⟩ := Operand.isBranch_iff.mp (jumps isJump)
      rw [isConditional, isGoto, isJsr] at isJump
      simp only [Bool.or_eq_true, beq_iff_eq] at isJump
      exact noTarget (by tauto) offset same
    simp only [Bool.or_eq_false_iff] at noJump
    obtain ⟨⟨isTest, isGoto⟩, isCall⟩ := noJump
    have ends : last.opcode.endsFlow = true := by
      rw [endsFlow, ← isConditional, ← isJsr, isTest, isCall, beq_false_of_ne notPlain]
      rfl
    refine ⟨?_, ?_, ?_⟩
    · simp [Instruction.nextOffset?, isGoto, ends, noNext]
    · simp [Instruction.branchOffset?, isTest, isCall, noBranch]
    · rw [Instruction.caseOffsets, noCases]
      split
      · next isTable =>
        rw [isSwitch, beq_iff_eq] at isTable
        split
        · next default keyed same => exact absurd same (noTable isTable default keyed)
        · exact .nil
      · exact .nil

/-- The edges of a block are all that its last instruction adds to it. -/
theorem Block.linked_kept (isMade : b.linked last through blockAt = .ok made) :
    made.type = b.type ∧ made.start = b.start ∧ made.finish = b.finish ∧ made.code = b.code := by
  -- Whatever the instruction links, it changes edges only.
  cases linking_of_linked isMade <;> exact ⟨rfl, rfl, rfl, rfl⟩

end Linked

section Heads

variable {m : Method} {pool : Option Pool} {blockAt : Offset → Option BlockId} {all : List Run}

/-- Whether a target is the number of the run that starts at an offset. -/
def HeadAt (runs : List Run) (target : Target) (offset : Offset) : Prop :=
  ∃ k run, target = .block (k + 1) ∧ runs[k]? = some run ∧ run.head.offset = offset

/-- The block of a run: its offsets are those of the run, and its edges lead to the runs
that may come next. -/
structure Run.Becomes (m : Method) (all : List Run) (run : Run) (following : Option Offset)
    (b : Block) : Prop where
  isCode : b.isCode = true
  start : b.start = run.head.offset
  finish : b.finish = following.getD m.codeLength
  follows : b.Follows (HeadAt all) run.last following

/-- The block that is found for an offset is the number of the run that starts there. -/
theorem headAt_of_blockAt? {runs : List Run} {offset : Offset} {id : BlockId}
    (found : blockAt? runs offset = some id) : HeadAt runs (.block id) offset := by
  -- The number is one past the position that is found.
  obtain ⟨k, isIndex, rfl⟩ := Option.map_eq_some_iff.mp found
  obtain ⟨bound, isHead, -⟩ := List.findIdx?_eq_some_iff_getElem.mp isIndex
  exact ⟨k, runs[k], rfl, List.getElem?_eq_getElem bound, beq_iff_eq.mp isHead⟩

/-- The type of a block of code says so. -/
theorem RawType.ofLast_ne_tryBlock (opcode : Opcode) : ofLast opcode ≠ .tryBlock := by
  -- The type of an entry is given to no code.
  rw [ofLast]
  split <;> simp

/-- The blocks of runs. -/
theorem Run.becomes_toBlocks
    (known : ∀ offset id, blockAt offset = some id → HeadAt all (.block id) offset)
    {runs : List Run} {j nextDup : Nat} {blocks : List Block} (suffix : ∀ k, all[j + k]? = runs[k]?)
    (jumps : ∀ run ∈ runs, (run.last.opcode.isConditional || run.last.opcode.isGoto ||
      run.last.opcode.isJsr) = true → run.last.operand.isBranch = true)
    (made : Run.toBlocks m pool blockAt runs (j + 1) nextDup = .ok blocks) :
    blocks.length = runs.length ∧ ∀ k run b, runs[k]? = some run → blocks[k]? = some b →
      Run.Becomes m all run (runs[k + 1]?.map (·.head.offset)) b := by
  -- The run at place `j` of all runs becomes block `j + 1`, so the place moves along with the rest.
  induction runs generalizing j nextDup blocks with
  | nil =>
    cases made
    exact ⟨rfl, fun k run b found => by simp at found⟩
  | cons run rest ih =>
    obtain ⟨b, frame, others, rfl, -, linked, later⟩ := toBlocks_cons_eq_ok made
    have suffixRest : ∀ k, all[j + 1 + k]? = rest[k]? := by
      intro k
      rw [Nat.add_assoc, Nat.add_comm 1 k, suffix, List.getElem?_cons_succ]
    obtain ⟨length, becomes⟩ :=
      ih suffixRest (fun run listed => jumps run (List.mem_cons_of_mem _ listed)) later
    refine ⟨by simp [length], fun k other made isRun isMade => ?_⟩
    cases k with
    | zero =>
      cases isRun
      cases isMade
      obtain ⟨type, start, finish, -⟩ := Block.linked_kept linked
      have following : (run :: rest)[0 + 1]?.map (·.head.offset) =
          rest.head?.map (·.head.offset) := by
        rw [List.getElem?_cons_succ, List.head?_eq_getElem?]
      rw [following]
      refine ⟨?_, start, finish, Block.follows_linked ⟨rfl, rfl, rfl⟩ (jumps run List.mem_cons_self)
        ?_ known linked⟩
      · rw [Block.isCode, type]
        have isCode := RawType.ofLast_ne_tryBlock run.last.opcode
        split
        · next same => exact absurd (BlockType.raw.inj same) isCode
        · rfl
        · next notRaw => exact absurd rfl (notRaw _)
      -- What a block passes control on to by default is the block after it.
      · cases head : rest.head? with
        | none => exact .none
        | some next =>
          refine .some ⟨j + 1, next, rfl, ?_, rfl⟩
          rw [List.head?_eq_getElem?] at head
          exact (suffixRest 0).trans head
    | succ k => exact becomes k other made isRun isMade

/-- The blocks of the runs of a method. -/
theorem Method.becomes_toBlocks (laid : m.WellLaid) {blocks : List Block}
    (made : Run.toBlocks m pool (blockAt? m.runs) m.runs 1 0 = .ok blocks) :
    ∀ k run b, m.runs[k]? = some run → blocks[k]? = some b →
      Run.Becomes m m.runs run (m.runs[k + 1]?.map (·.head.offset)) b := by
  -- The runs are taken from the first one on.
  have whole : ∀ k, m.runs[0 + k]? = m.runs[k]? := fun k => by rw [Nat.zero_add]
  exact (Run.becomes_toBlocks (fun offset id => headAt_of_blockAt?) whole laid.isBranch_last made).2

end Heads

section Order

/-- The heads of runs stand in the order of the code. -/
theorem Run.heads_sublist (runs : List Run) :
    (runs.map Run.head).Sublist (runs.flatMap Run.code) := by
  -- By induction on the runs, each of which starts with its head.
  induction runs with
  | nil => exact .slnil
  | cons run rest ih => exact (ih.trans (List.sublist_append_right run.tail _)).cons_cons run.head

/-- The code of runs starts with the head of the first one. -/
theorem Run.head?_flatMap_code (runs : List Run) :
    (runs.flatMap Run.code).head? = runs.head?.map Run.head := by
  cases runs <;> rfl

/-- The heads of runs stand at increasing offsets. -/
theorem Method.pairwise_heads {m : Method} (ordered : m.offsets.Pairwise (· < ·)) :
    (m.runs.map (·.head.offset)).Pairwise (· < ·) := by
  -- The heads are taken from the code, whose offsets increase.
  have sublist := (Run.heads_sublist m.runs).map (·.offset)
  rw [Method.runs, Run.flatMap_code_split, List.map_map] at sublist
  exact ordered.sublist sublist

end Order

namespace Graph

variable {g h : Graph} {m : Method}

/-- Predecessor sets do not matter for where a block passes control on to. -/
theorem Traces.of_bare {b : Block} (traces : g.Traces m b.bare) : g.Traces m b := by
  -- Neither the segment nor where its edges lead mentions predecessors.
  obtain ⟨before, front, last, after, ⟨code, start, finish, plain⟩, ⟨next, branch, cases⟩⟩ := traces
  exact ⟨before, front, last, after, ⟨code, start, finish, plain⟩, ⟨next, branch, cases⟩⟩

/-- Entries of protected ranges lead to code. -/
theorem Resolves.isCode {id last : BlockId} (resolves : g.Resolves id last) :
    (g.bare last).isCode = true := by
  -- Along the entries, at the end of which there is code.
  induction resolves with
  | code isCode => exact isCode
  | through _ _ _ ih => exact ih

/-- A graph whose blocks of code pass control on as the instructions of a method do. -/
structure Traced (m : Method) (g : Graph) : Prop where
  entry : Option.Rel g.EntersAt (g.bare start).next (m.code.head?.map (·.offset))
  code : ∀ id, (g.bare id).isCode = true → g.Traces m (g.bare id)
  distinct : ∀ a b, (g.bare a).isCode = true → (g.bare b).isCode = true →
    (g.bare a).start = (g.bare b).start → a = b

/-- The graph of blocks holds them in their order behind its entry. -/
theorem bare_ofBlocks_succ {blocks : List Block} (k : Nat) :
    (ofBlocks blocks).bare (k + 1) = (blocks[k]?.getD blankBlock).bare := by
  -- The entry stands in front of the blocks.
  rw [ofBlocks, bare_relink]
  simp [bare, block, Array.getD_eq_getD_getElem?]

/-- The entry of a graph of blocks leads to the first of them, if there is one. -/
theorem next_ofBlocks {blocks : List Block} :
    ((ofBlocks blocks).bare start).next = if blocks.isEmpty then none else some (.block 1) := by
  rw [ofBlocks, bare_relink]
  rfl

section RunBlocks

variable {blocks : List Block} (ordered : m.offsets.Pairwise (· < ·))
    (length : blocks.length = m.runs.length)
    (becomes : ∀ k run b, m.runs[k]? = some run → blocks[k]? = some b →
      Run.Becomes m m.runs run (m.runs[k + 1]?.map (·.head.offset)) b)

include length becomes

/-- The block of a run is code that starts with it. -/
theorem isCode_of_headAt {id : BlockId} {offset : Offset}
    (isHead : HeadAt m.runs (.block id) offset) :
    ((ofBlocks blocks).bare id).isCode = true ∧ ((ofBlocks blocks).bare id).start = offset := by
  -- The block of a run is one past its position, behind the entry.
  obtain ⟨k, run, same, found, isHead⟩ := isHead
  cases same
  have bound : k < blocks.length := length ▸ (List.getElem?_eq_some_iff.mp found).1
  have becomes := becomes k run blocks[k] found (List.getElem?_eq_getElem bound)
  rw [bare_ofBlocks_succ, List.getElem?_eq_getElem bound]
  exact ⟨becomes.isCode, becomes.start.trans isHead⟩

/-- The number of a run that starts at an offset enters its code there. -/
theorem entersAt_of_headAt {target : Target} {offset : Offset}
    (isHead : HeadAt m.runs target offset) : (ofBlocks blocks).EntersAt target offset := by
  -- The run has the block one past its position.
  obtain ⟨k, run, rfl, found, starts⟩ := isHead
  obtain ⟨isCode, isStart⟩ := isCode_of_headAt length becomes ⟨k, run, rfl, found, starts⟩
  exact ⟨k + 1, k + 1, rfl, .code isCode, isStart⟩

/-- Every block of code is the block of a run. -/
theorem exists_run_of_isCode {id : BlockId} (isCode : ((ofBlocks blocks).bare id).isCode = true) :
    ∃ k run b, id = k + 1 ∧ m.runs[k]? = some run ∧ (ofBlocks blocks).bare id = b.bare ∧
      Run.Becomes m m.runs run (m.runs[k + 1]?.map (·.head.offset)) b := by
  -- Neither the entry nor a number beyond the last block is code.
  cases id with
  | zero =>
    rw [ofBlocks, bare_relink] at isCode
    cases isCode
  | succ k =>
    rw [bare_ofBlocks_succ] at isCode ⊢
    cases found : blocks[k]? with
    | none =>
      rw [found] at isCode
      cases isCode
    | some b =>
      have bound : k < m.runs.length := length ▸ (List.getElem?_eq_some_iff.mp found).1
      have isRun := List.getElem?_eq_getElem bound
      exact ⟨k, m.runs[k], b, rfl, isRun, rfl, becomes k _ b isRun found⟩

/-- The entry leads to the first instruction. -/
theorem entersAt_next_ofBlocks :
    Option.Rel (ofBlocks blocks).EntersAt ((ofBlocks blocks).bare start).next
      (m.code.head?.map (·.offset)) := by
  -- The first instruction is the head of the first run; without code there are no runs
  -- and no blocks.
  rw [next_ofBlocks, ← Run.flatMap_code_split m.leaders m.code, Run.head?_flatMap_code,
    ← Method.runs]
  cases runs : m.runs with
  | nil =>
    rw [runs] at length
    rw [List.length_eq_zero_iff.mp length]
    exact .none
  | cons run rest =>
    have nonempty : blocks.isEmpty = false := by
      rw [runs] at length
      rw [List.isEmpty_eq_false_iff_exists_mem, ← List.length_pos_iff_exists_mem, length]
      exact Nat.succ_pos _
    rw [nonempty]
    exact .some (entersAt_of_headAt length becomes ⟨0, run, rfl, by rw [runs]; rfl, rfl⟩)

/-- The block of a run passes control on as the last instruction of the run does. -/
theorem traces_bare_ofBlocks {id : BlockId} (isCode : ((ofBlocks blocks).bare id).isCode = true) :
    (ofBlocks blocks).Traces m ((ofBlocks blocks).bare id) := by
  -- The block is that of a run, which is a segment of the code.
  obtain ⟨k, run, b, rfl, found, same, becomesRun⟩ := exists_run_of_isCode length becomes isCode
  have cut := (Run.flatMap_code_eq found).symm.trans (Run.flatMap_code_split m.leaders m.code)
  -- What comes after the run starts with the head of the next one.
  have head : ((m.runs.drop (k + 1)).flatMap Run.code).head?.map (·.offset) =
      m.runs[k + 1]?.map (·.head.offset) := by
    rw [← List.head?_drop, Run.head?_flatMap_code, Option.map_map]
    rfl
  have cuts : ∀ offset ∈ followers m.code, offset ∈ m.leaders := by
    intro offset listed
    simp [Method.leaders, listed]
  rw [same]
  refine ⟨_, _, run.last, _, ⟨cut.symm, ?_, ?_, ?_⟩, ?_⟩
  · rw [Run.dropLast_append_last]
    exact congrArg some becomesRun.start.symm
  · rw [head]
    exact becomesRun.finish.symm
  · exact Run.plain_of_mem_split cuts (List.mem_of_getElem? found)
  · rw [head]
    exact (becomesRun.follows.imp fun _ _ _ _ => entersAt_of_headAt length becomes).bare

include ordered

/-- No two runs start at one offset, so no two blocks do. -/
theorem eq_of_start_ofBlocks {a b : BlockId} (isCodeA : ((ofBlocks blocks).bare a).isCode = true)
    (isCodeB : ((ofBlocks blocks).bare b).isCode = true)
    (sameStart : ((ofBlocks blocks).bare a).start = ((ofBlocks blocks).bare b).start) : a = b := by
  -- Runs are in the order of their offsets, so that the heads are distinct.
  obtain ⟨k, run, made, rfl, found, same, becomesRun⟩ := exists_run_of_isCode length becomes isCodeA
  obtain ⟨l, other, madeOther, rfl, foundOther, sameOther, becomesOther⟩ :=
    exists_run_of_isCode length becomes isCodeB
  rw [same, sameOther] at sameStart
  have heads : (m.runs.map (·.head.offset)).Nodup :=
    (Method.pairwise_heads ordered).imp UInt32.ne_of_lt
  have sameHead : (m.runs.map (·.head.offset))[k]? = (m.runs.map (·.head.offset))[l]? := by
    rw [List.getElem?_map, List.getElem?_map, found, foundOther]
    exact congrArg some (becomesRun.start.symm.trans (sameStart.trans becomesOther.start))
  have bound : k < (m.runs.map (·.head.offset)).length := by
    rw [List.length_map]
    exact (List.getElem?_eq_some_iff.mp found).1
  exact congrArg (· + 1) ((List.getElem?_inj bound heads).mp sameHead)

/-- The graph of the blocks of runs follows the instructions. -/
theorem traced_ofBlocks : (ofBlocks blocks).Traced m where
  entry := entersAt_next_ofBlocks length becomes
  code _ isCode := traces_bare_ofBlocks length becomes isCode
  distinct _ _ isCodeA isCodeB sameStart :=
    eq_of_start_ofBlocks ordered length becomes isCodeA isCodeB sameStart

end RunBlocks

section Protect

variable {first : BlockId} {entry : Block} {accept : BlockId → Bool}

/-- Entering a protected range adds no code. -/
theorem Protects.isCode_iff (protects : Protects g first entry accept h)
    (isTry : entry.type = .raw .tryBlock) {id : BlockId} :
    (h.bare id).isCode = true ↔ (g.bare id).isCode = true := by
  -- The new entry is told apart from the blocks from before.
  by_cases isEntry : id = g.size
  · have blank : g.block g.size = blankBlock := block_of_size_le (Nat.le_refl _)
    rw [isEntry, protects.entry, Block.isCode, isTry, bare, blank]
    -- Neither the new entry nor a number without a block is code.
    constructor
    · intro isCode
      cases isCode
    · intro isCode
      cases isCode
  · rw [protects.others id isEntry]
    split <;> rfl

/-- Code keeps its offsets. -/
theorem Protects.span_eq (protects : Protects g first entry accept h) {id : BlockId}
    (isCode : (g.bare id).isCode = true) :
    (h.bare id).start = (g.bare id).start ∧ (h.bare id).finish = (g.bare id).finish := by
  -- The only block that is new is the entry of the range, which is no code.
  have old : id ≠ g.size := by
    rintro rfl
    rw [bare, block_of_size_le (Nat.le_refl _)] at isCode
    cases isCode
  rw [protects.others id old]
  split <;> exact ⟨rfl, rfl⟩

/-- The blocks behind entries of protected ranges stay there, and are behind the new entry too. -/
theorem Resolves.protect {id last : BlockId} (resolves : g.Resolves id last)
    (isFirst : (g.bare first).isCode = true) (isTry : entry.type = .raw .tryBlock)
    (leads : entry.next = some (.block first)) (protects : Protects g first entry accept h) :
    h.Resolves id last ∧ (id = first → h.Resolves g.size last) := by
  have isEntry : (h.bare g.size).type = .raw .tryBlock := protects.entry ▸ isTry
  have leadsEntry : (h.bare g.size).next = some (.block first) := protects.entry ▸ leads
  -- Along the chain of try blocks: only the last link can name `first`, since `first`
  -- is code and the others are not.
  induction resolves with
  | @code id isCode =>
    have isCode := (protects.isCode_iff isTry).mpr isCode
    exact ⟨.code isCode, fun same => .through isEntry leadsEntry (same ▸ .code isCode)⟩
  | @through id next last isTryOld leadsOld _ ih =>
    have old : id ≠ g.size := by
      rintro rfl
      rw [block_of_size_le (Nat.le_refl _)] at isTryOld
      cases isTryOld
    have notFirst : id ≠ first := by
      rintro rfl
      rw [bare, Block.isCode, Block.bare, isTryOld] at isFirst
      cases isFirst
    refine ⟨?_, fun same => absurd same notFirst⟩
    have same := protects.others id old
    by_cases moved : accept id = true
    · rw [if_pos moved] at same
      have type : (h.bare id).type = .raw .tryBlock := same ▸ isTryOld
      have way : (h.bare id).next =
          some ((Target.block first).renamed (.block g.size) (.block next)) := by
        rw [same]
        exact congrArg (Option.map _) leadsOld
      rw [Target.renamed] at way
      split at way
      · next isNext =>
        exact .through type way (ih.2 (Target.block.inj isNext))
      · exact .through type way ih.1
    · rw [if_neg moved] at same
      exact .through (same ▸ isTryOld : (h.bare id).type = _)
        (same ▸ leadsOld : (h.bare id).next = _) ih.1

/-- Where a target leads stays, whether or not it is moved to the new entry. -/
theorem EntersAt.protect {target : Target} {offset : Offset} (enters : g.EntersAt target offset)
    (isFirst : (g.bare first).isCode = true) (isTry : entry.type = .raw .tryBlock)
    (leads : entry.next = some (.block first)) (protects : Protects g first entry accept h) :
    h.EntersAt target offset ∧
      h.EntersAt ((Target.block first).renamed (.block g.size) target) offset := by
  -- A target that is moved reaches the same block through the entry.
  obtain ⟨id, last, rfl, resolves, isStart⟩ := enters
  have sameStart : (h.block last).start = offset :=
    (protects.span_eq resolves.isCode).1.trans isStart
  obtain ⟨kept, moved⟩ := resolves.protect isFirst isTry leads protects
  refine ⟨⟨id, last, rfl, kept, sameStart⟩, ?_⟩
  rw [Target.renamed]
  split
  · next isNext => exact ⟨g.size, last, rfl, moved (Target.block.inj isNext), sameStart⟩
  · exact ⟨id, last, rfl, kept, sameStart⟩

/-- Entering a protected range keeps where control is passed on to. -/
theorem Traced.protect (traced : g.Traced m) (nonempty : start < g.size)
    (isFirst : (g.bare first).isCode = true) (isTry : entry.type = .raw .tryBlock)
    (leads : entry.next = some (.block first)) (protects : Protects g first entry accept h) :
    h.Traced m where
  entry := by
    rw [protects.others start (Nat.ne_of_lt nonempty)]
    -- The entry may have led to the start of the range, and then leads to its new entry.
    split
    · exact rel_map _ (fun _ _ enters => (enters.protect isFirst isTry leads protects).2)
        traced.entry
    · exact rel_imp traced.entry fun _ _ _ enters => (enters.protect isFirst isTry leads protects).1
  code := by
    intro id isCode
    replace isCode := (protects.isCode_iff isTry).mp isCode
    have old : id ≠ g.size := by
      rintro rfl
      rw [bare, block_of_size_le (Nat.le_refl _)] at isCode
      cases isCode
    obtain ⟨before, front, last, after, segment, follows⟩ := traced.code id isCode
    rw [protects.others id old]
    split
    · exact ⟨before, front, last, after,
        ⟨segment.code, segment.start, segment.finish, segment.plain⟩,
        follows.replaceTarget fun _ _ enters => (enters.protect isFirst isTry leads protects).2⟩
    · exact ⟨before, front, last, after, segment,
        follows.imp fun _ _ _ _ enters => (enters.protect isFirst isTry leads protects).1⟩
  distinct := by
    intro a b isCodeA isCodeB same
    replace isCodeA := (protects.isCode_iff isTry).mp isCodeA
    replace isCodeB := (protects.isCode_iff isTry).mp isCodeB
    rw [(protects.span_eq isCodeA).1, (protects.span_eq isCodeB).1] at same
    exact traced.distinct a b isCodeA isCodeB same

/-- Entering protected ranges one after the other keeps where control is passed on to. -/
theorem Traced.foldlM_protect {pool : Option Pool} {blockAt : Offset → Option BlockId}
    {ranges : List ProtectedRange} (traced : g.Traced m) (linked : g.Linked)
    (known : ∀ offset id, blockAt offset = some id → start < id ∧ id < g.size)
    (isCode : ∀ offset id, blockAt offset = some id → (g.bare id).isCode = true)
    (made : ranges.foldlM (·.protect pool blockAt ·) g = .ok h) : h.Traced m ∧ h.Linked := by
  -- That a range starts at code has to be carried along.
  obtain ⟨linked, traced, -⟩ := foldlM_protect_induction
    (motive := fun mid => mid.Traced m ∧ ∀ offset id, blockAt offset = some id →
      (mid.bare id).isCode = true)
    linked known ⟨traced, isCode⟩ (fun linked kept isFirst protects =>
      ⟨kept.1.protect linked.nonempty (kept.2 _ _ isFirst) rfl rfl protects,
        fun offset id isBlock => (protects.isCode_iff rfl).mpr (kept.2 offset id isBlock)⟩) made
  exact ⟨traced, linked⟩

end Protect

section Prune

/-- Entries of protected ranges that can be reached keep their edges. -/
theorem Resolves.prune (linked : g.Linked) {id last : BlockId} (resolves : g.Resolves id last)
    (reached : g.Reached id) : g.prune.Resolves id last ∧ g.Reached last := by
  -- Each link of the chain is reached over the one before it, so that its edges are kept.
  induction resolves with
  | code isCode =>
    have sameCode := congrArg Block.isCode (linked.bare_prune_of_reached reached)
    exact ⟨.code (sameCode.trans isCode), reached⟩
  | through isTry leads _ ih =>
    obtain ⟨rest, reachedLast⟩ := ih (reached.step ⟨.next, leads⟩)
    have same := linked.bare_prune_of_reached reached
    have sameType := congrArg Block.type same
    have sameNext := congrArg Block.next same
    exact ⟨.through (sameType.trans isTry) (sameNext.trans leads) rest, reachedLast⟩

/-- Where a target that can be reached leads stays without the edges of unreachable blocks. -/
theorem EntersAt.prune (linked : g.Linked) {id : BlockId} {kind : EdgeKind} {target : Target}
    {offset : Offset} (enters : g.EntersAt target offset) (reached : g.Reached id)
    (edge : (g.bare id).edge? kind = some target) : g.prune.EntersAt target offset := by
  -- The target leads on to a block within reach.
  obtain ⟨next, last, rfl, resolves, isStart⟩ := enters
  obtain ⟨kept, reachedLast⟩ := resolves.prune linked (reached.step ⟨kind, edge⟩)
  have sameStart := congrArg Block.start (linked.bare_prune_of_reached reachedLast)
  exact ⟨next, last, rfl, kept, sameStart.trans isStart⟩

/-- The blocks that can be reached follow the instructions without the edges of the others too. -/
theorem Traced.prune (traced : g.Traced m) (linked : g.Linked) :
    Option.Rel g.prune.EntersAt (g.prune.bare start).next (m.code.head?.map (·.offset)) ∧
      (∀ id, g.prune.Reached id → (g.prune.bare id).isCode = true →
        g.prune.Traces m (g.prune.bare id)) ∧
      ∀ a b, (g.prune.bare a).isCode = true → (g.prune.bare b).isCode = true →
        (g.prune.bare a).start = (g.prune.bare b).start → a = b := by
  -- Blocks within reach are as they were.
  refine ⟨?_, fun id reached isCode => ?_, fun a b isCodeA isCodeB sameStart => ?_⟩
  · rw [linked.bare_prune_of_reached g.reached_start]
    refine rel_imp traced.entry fun target _ isNext enters => ?_
    have edge : (g.bare start).edge? .next = some target := isNext
    exact enters.prune linked g.reached_start edge
  · replace reached := reached_prune reached
    rw [linked.bare_prune_of_reached reached] at isCode ⊢
    obtain ⟨before, front, last, after, segment, follows⟩ := traced.code id isCode
    exact ⟨before, front, last, after, segment, follows.imp fun _ _ _ edge enters =>
      enters.prune linked reached edge⟩
  · -- Pruning takes away edges, and neither code nor offsets.
    have kept : ∀ id, (g.prune.bare id).isCode = (g.bare id).isCode ∧
        (g.prune.bare id).start = (g.bare id).start := by
      intro id
      rw [bare_prune]
      split <;> exact ⟨rfl, rfl⟩
    rw [(kept a).1] at isCodeA
    rw [(kept b).1] at isCodeB
    rw [(kept a).2, (kept b).2] at sameStart
    exact traced.distinct a b isCodeA isCodeB sameStart

end Prune

/-- The graph of a method follows its instructions: its entry leads to the first of them, every
block of code that can be reached passes control on as the last of its instructions does, and no two
blocks start at one offset. -/
theorem traces_of_build {pool : Option Pool} {options : BuildOptions}
    (made : build m pool options = .ok g) :
    (∃ first target, m.code.head? = some first ∧ (g.block start).next = some target ∧
      g.EntersAt target first.offset) ∧
      (∀ id ∈ g.reachable, (g.block id).isCode = true → g.Traces m (g.block id)) ∧
      ∀ a b, (g.block a).isCode = true → (g.block b).isCode = true →
        (g.block a).start = (g.block b).start → a = b := by
  have sound := sound_of_build made
  obtain ⟨faultless, blocks, h, isBlocks, isProtected, rfl⟩ := build_cases made
  have laid := Method.fault?_eq_none_iff.mp faultless
  obtain ⟨length, regular⟩ := regular_of_toBlocks faultless isBlocks
  have becomes := Method.becomes_toBlocks laid isBlocks
  have traced := traced_ofBlocks laid.ordered length becomes
  -- The layout traces the code; protecting ranges and pruning keep that.
  obtain ⟨traced, linked⟩ :=
    traced.foldlM_protect regular.toLinked (fun offset id => blockAt?_lt_size length)
      (fun offset id found => (isCode_of_headAt length becomes (headAt_of_blockAt? found)).1)
      isProtected
  obtain ⟨entry, code, distinct⟩ := traced.prune linked
  refine ⟨?_, fun id listed isCode => ?_, distinct⟩
  · cases code : m.code with
    | nil => exact absurd code laid.nonempty
    | cons first rest =>
      rw [code] at entry
      obtain ⟨target, isNext, enters⟩ := exists_of_rel_some entry
      exact ⟨first, target, rfl, isNext, enters⟩
  · exact (code id ((mem_reachable sound.toMirrored sound.nonempty).mp listed) isCode).of_bare

/-- A method with two ranges that start at its first instruction, one of them inside the other. -/
def nestedRanges : Method where
  code := [⟨0, ⟨27⟩, .absent, none⟩, ⟨1, ⟨171⟩, .switch 5 [(3, 2), (7, 0)], none⟩,
    ⟨2, ⟨132⟩, .increment 0 1, none⟩,
    ⟨3, ⟨168⟩, .branch 6, none⟩, ⟨4, ⟨167⟩, .branch 0, none⟩, ⟨5, ⟨177⟩, .absent, none⟩,
    ⟨6, ⟨169⟩, .slot 1, none⟩, ⟨7, ⟨191⟩, .absent, none⟩]
  codeLength := 8
  exceptions := [⟨0, 5, 7, some 2⟩, ⟨0, 2, 7, none⟩]

/-- The graph of the method with nested ranges follows its instructions. -/
theorem traces_nestedRanges : ∃ g, build nestedRanges none {} = .ok g ∧
    (∃ first target, nestedRanges.code.head? = some first ∧ (g.block start).next = some target ∧
      g.EntersAt target first.offset) ∧
    (∀ id ∈ g.reachable, (g.block id).isCode = true → g.Traces nestedRanges (g.block id)) ∧
    ∀ a b, (g.block a).isCode = true → (g.block b).isCode = true →
      (g.block a).start = (g.block b).start → a = b := by
  -- The rows stand in the order of their ranges, the outer one first,
  -- so sorting leaves them as they are.
  have ranges : ProtectedRange.ofTable nestedRanges.exceptions {} =
      [⟨0, 5, [⟨7, [2]⟩]⟩, ⟨0, 2, [⟨7, []⟩]⟩] :=
    List.mergeSort_of_pairwise (by decide)
  have accepted : (build nestedRanges none {}).isOk = true := by
    rw [build, ranges]
    decide +kernel
  cases made : build nestedRanges none {} with
  | error fault =>
    rw [made] at accepted
    cases accepted
  | ok g => exact ⟨g, rfl, traces_of_build made⟩

end Graph

end Unjump
