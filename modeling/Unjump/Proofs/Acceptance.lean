import Unjump.Proofs.Catching
import Unjump.Proofs.Layout

/-!
Which methods have a graph.

A method is refused for its layout or for a single instruction, and for nothing else: once the
layout is in order every offset that the graph asks for has its block, and what stands on the
simulated stack never matters.
-/

namespace Unjump

/-- The fault for which a computation fails. -/
def refusal? {α : Type} : Except Malformed α → Option Malformed
  | .ok _ => none
  | .error fault => some fault

section Refusal

variable {α β : Type}

/-- A computation without a fault has a result. -/
theorem refusal?_eq_none_iff {x : Except Malformed α} : refusal? x = none ↔ ∃ a, x = .ok a := by
  cases x <;> simp [refusal?]

/-- A computation with a fault fails for it. -/
theorem refusal?_eq_some_iff {x : Except Malformed α} {fault : Malformed} :
    refusal? x = some fault ↔ x = .error fault := by
  cases x <;> simp [refusal?]

/-- A computation fails where it starts, or else where it goes on. -/
theorem refusal?_bind_of_forall {x : Except Malformed α} {f : α → Except Malformed β}
    {later : Option Malformed} (rest : ∀ a, x = .ok a → refusal? (f a) = later) :
    refusal? (x >>= f) = (refusal? x).or later := by
  -- A computation that fails does not go on.
  cases x with
  | error fault => rfl
  | ok a => exact rest a rfl

/-- A computation that goes on without failing fails where it starts. -/
theorem refusal?_bind_ok {x : Except Malformed α} {f : α → Except Malformed β}
    (rest : ∀ a, refusal? (f a) = none) : refusal? (x >>= f) = refusal? x := by
  rw [refusal?_bind_of_forall fun a _ => rest a, Option.or_none]

/-- A computation over a list does not fail if it does for no element. -/
theorem refusal?_mapM {f : α → Except Malformed β} {list : List α}
    (each : ∀ a ∈ list, refusal? (f a) = none) : refusal? (list.mapM f) = none := by
  -- By induction on the list.
  induction list with
  | nil => rfl
  | cons a rest ih =>
    rw [List.forall_mem_cons] at each
    rw [List.mapM_cons, refusal?_bind_ok, each.1]
    intro b
    rw [refusal?_bind_ok fun _ => rfl]
    exact ih each.2

/-- Going through a list does not fail if no step does. -/
theorem refusal?_foldlM {f : β → α → Except Malformed β} {list : List α} {b : β}
    (each : ∀ a ∈ list, ∀ b, refusal? (f b a) = none) : refusal? (list.foldlM f b) = none := by
  -- By induction on the list, whatever has been made so far.
  induction list generalizing b with
  | nil => rfl
  | cons a rest ih =>
    rw [List.forall_mem_cons] at each
    rw [List.foldlM_cons, refusal?_bind_ok fun _ => ih each.2]
    exact each.1 b

end Refusal

section Effect

namespace Instruction

variable {i : Instruction} {pool : Option Pool}

/-- An instruction without an index is refused for its operand. -/
theorem refusal?_poolIndex : refusal? i.poolIndex = i.operandFault? .poolIndex := by
  rw [poolIndex, operandFault?]
  cases i.operand <;> rfl

/-- An instruction without a variable is refused for its operand. -/
theorem refusal?_slotOr_none : refusal? (i.slotOr none) = i.operandFault? .localVariable := by
  unfold slotOr operandFault?
  cases i.operand <;> rfl

/-- A call is refused for its operand or for its method. -/
theorem refusal?_callEffect {kind : CallKind} :
    refusal? (i.callEffect pool kind) = (i.operandFault? .poolIndex).or (i.callFault? pool) := by
  -- The operand comes first.
  rw [← refusal?_poolIndex, callEffect]
  refine refusal?_bind_of_forall fun index isIndex => ?_
  rw [callFault?, isIndex]
  unfold calledMethod?
  -- A method is called if there is a pool, the entry names one, and its descriptor can be read.
  cases pool with
  | none => rfl
  | some pool =>
    cases found : pool.memberDescriptor? index with
    | none => simp [found, refusal?, throw, throwThe, MonadExceptOf.throw]
    | some text =>
      cases parsed : MethodDescriptor.parse? text <;>
        simp [found, parsed, refusal?, throw, throwThe, MonadExceptOf.throw, pure, Except.pure]

/-- Whatever is on the stack, an instruction whose jumps are in order is refused for what
is wrong with it for itself. -/
theorem refusal?_effect
    (branch : (i.opcode.isConditional || i.opcode.isGoto || i.opcode.isJsr) = true →
      ∃ target, i.operand = .branch target)
    (table : i.opcode.isSwitch = true → ∃ default keyed, i.operand = .switch default keyed) :
    refusal? (i.effect pool) = i.fault? pool := by
  simp only [Opcode.isConditional, Opcode.isGoto, Opcode.isJsr, Opcode.isSwitch, Opcode.satisfies]
    at branch table
  unfold effect fault?
  -- The cases are those of the operation, which says what operand it needs.
  cases isOperation : i.opcode.operation? with
  | none => rfl
  | some operation =>
    rw [isOperation] at branch table
    -- An operation with a pool index looks for nothing else.
    have pooled : ∀ {f : PoolIndex → Frame → Frame}, refusal? (do return f (← i.poolIndex)) =
        (i.operandFault? .poolIndex).or none := fun {_} =>
      (refusal?_bind_ok fun _ => rfl).trans (refusal?_poolIndex.trans Option.or_none.symm)
    -- So does one with a variable.
    have slotted : ∀ {f : Slot → Frame → Frame}, refusal? (do return f (← i.slotOr none)) =
        (i.operandFault? .localVariable).or none := fun {_} =>
      (refusal?_bind_ok fun _ => rfl).trans (refusal?_slotOr_none.trans Option.or_none.symm)
    -- And the jump of an instruction that is in order is there.
    have jumps : ∀ {target}, i.operand = .branch target → i.operandFault? .branchTarget = none :=
      fun isBranch => operandFault?_eq_none_iff.mpr (by rw [isBranch]; rfl)
    cases operation with
    -- Operations with an entry of the pool.
    | constant | getStatic | putStatic | getField | putField | new | newObjectArray | checkCast
        | instanceOf =>
      exact pooled
    | invoke kind => exact refusal?_callEffect
    | ret => exact slotted
    -- Loads and stores, some of which have a variable of their own.
    | load kind implied | store kind implied =>
      cases implied with
      | none => exact slotted
      | some slot => rfl
    -- Operations with another operand.
    | immediate | increment | newArray | newMultiArray =>
      simp only [Operation.need?, Option.bind_some, operandFault?, Operation.isInvoke]
      cases i.operand <;> rfl
    -- Jumps.
    | ifZero | ifCompare | ifNull | goto =>
      obtain ⟨target, isBranch⟩ := branch rfl
      simp [refusal?, Operation.need?, jumps isBranch, Operation.isInvoke]
    | jsr =>
      obtain ⟨target, isBranch⟩ := branch rfl
      simp [refusal?, Operation.need?, jumps isBranch, Operation.isInvoke, isBranch]
    | switch =>
      obtain ⟨default, keyed, isTable⟩ := table rfl
      simp [refusal?, Operation.need?, operandFault?, isTable, OperandNeed.metBy,
        Operation.isInvoke]
    | _ => rfl

end Instruction

/-- A run of instructions is refused for the first of them that is refused,
whatever frame it starts from. -/
theorem Frame.refusal?_run {frame : Frame} {pool : Option Pool} {code : List Instruction} :
    refusal? (frame.run pool code) = code.findSome? fun i => refusal? (i.effect pool) := by
  -- By induction on the instructions, none of which looks at the frame.
  induction code generalizing frame with
  | nil => rfl
  | cons i rest ih =>
    rw [Frame.run, refusal?_bind_of_forall fun _ _ => ih, List.findSome?_cons]
    cases refusal? (i.effect pool) <;> rfl

end Effect

section Blocks

variable {m : Method} {pool : Option Pool} {blockAt : Offset → Option BlockId}

/-- A jump to where a block starts is found. -/
theorem Instruction.refusal?_targetAt {jump : Instruction} {offset : Offset}
    (known : (blockAt offset).isSome = true) : refusal? (jump.targetAt blockAt offset) = none := by
  obtain ⟨id, found⟩ := Option.isSome_iff_exists.mp known
  rw [targetAt, found]
  rfl

/-- The edges of a block are found if a block starts wherever its last instruction jumps. -/
theorem Block.refusal?_linked {b : Block} {last : Instruction} {through : Option BlockId}
    (known : ∀ target ∈ last.jumpTargets, (blockAt target).isSome = true) :
    refusal? (b.linked last through blockAt) = none := by
  -- Whatever is made of the block at one jump target.
  have single : ∀ {α : Type} {offset : Offset} {make : Target → α}, offset ∈ last.jumpTargets →
      refusal? (last.targetAt blockAt offset >>= fun target => .ok (make target)) = none :=
    fun {_ _ _} listed =>
      (refusal?_bind_ok fun _ => rfl).trans (Instruction.refusal?_targetAt (known _ listed))
  have branch : ∀ {offset}, last.operand = .branch offset → offset ∈ last.jumpTargets := by
    intro offset isBranch
    rw [Instruction.jumpTargets, isBranch]
    exact List.mem_cons_self
  rw [linked]
  -- Each jump target is looked up, and nothing else can fail.
  split
  · next isBranch => exact single (branch isBranch)
  · next isBranch => exact single (branch isBranch)
  · next isBranch => exact single (branch isBranch)
  · next default keyed _ isTable =>
    have table : ∀ target ∈ default :: keyed.map (·.2), target ∈ last.jumpTargets := by
      rw [Instruction.jumpTargets, isTable]
      exact fun _ listed => listed
    refine (refusal?_bind_ok fun _ => single (table _ List.mem_cons_self)).trans ?_
    exact refusal?_mapM fun entry listed =>
      single (table _ (List.mem_cons_of_mem _ (List.mem_map_of_mem listed)))
  · rfl
  · rfl

/-- The block of a run is refused for the first of its instructions that is refused. -/
theorem Run.refusal?_toBlock {run : Run} {finish : Offset} {through : Option BlockId}
    {nextDup : Nat} (known : ∀ target ∈ run.last.jumpTargets, (blockAt target).isSome = true) :
    refusal? (run.toBlock m pool finish through blockAt nextDup) =
      run.code.findSome? fun i => refusal? (i.effect pool) := by
  -- Neither making the block nor linking it fails.
  rw [toBlock, refusal?_bind_ok, Frame.refusal?_run]
  intro frame
  rw [refusal?_bind_ok fun _ => rfl]
  exact Block.refusal?_linked known

/-- Runs are refused for the first of their instructions that is refused. -/
theorem Run.refusal?_toBlocks {runs : List Run} {id nextDup : Nat}
    (known : ∀ run ∈ runs, ∀ target ∈ run.last.jumpTargets, (blockAt target).isSome = true) :
    refusal? (toBlocks m pool blockAt runs id nextDup) =
      (runs.flatMap Run.code).findSome? fun i => refusal? (i.effect pool) := by
  -- By induction on the runs; with all targets known, a block is refused for its code alone.
  induction runs generalizing id nextDup with
  | nil => rfl
  | cons run rest ih =>
    rw [List.forall_mem_cons] at known
    rw [toBlocks, List.flatMap_cons, List.findSome?_append, ← refusal?_toBlock known.1]
    refine refusal?_bind_of_forall fun result _ => ?_
    rw [refusal?_bind_ok fun _ => rfl]
    exact ih known.2

end Blocks

section Ranges

/-- A protected range that starts at an offset where a row starts, with handlers of rows. -/
def ProtectedRange.IsFrom (table : List ExceptionRow) (range : ProtectedRange) : Prop :=
  (∃ row ∈ table, row.start = range.start) ∧
    ∀ guard ∈ range.guards, ∃ row ∈ table, row.handler = guard.handler

/-- The protected ranges of a table are from its rows. -/
theorem ProtectedRange.isFrom_of_mem_ofTable {table : List ExceptionRow} {options : BuildOptions}
    {range : ProtectedRange} (listed : range ∈ ofTable table options) : range.IsFrom table := by
  -- A range comes from the rows of its group, which are rows of the table.
  have groups := groups_foldl_addRow options.mergeCatches (table.filter (!·.coversHandler))
  have isGroup := mem_foldl_addRow_of_mem_ofTable listed
  obtain ⟨row, isRow, isOf⟩ := groups.sources range isGroup
  refine ⟨⟨row, List.mem_of_mem_filter isRow, (Prod.ext_iff.mp (isOf_iff.mp isOf)).1.symm⟩,
    fun guard isGuard => ?_⟩
  rw [groups.guards range isGroup] at isGuard
  obtain ⟨source, isSource, same⟩ := exists_row_of_mem_guardsOf isGuard
  exact ⟨source, List.mem_of_mem_filter (List.mem_of_mem_filter isSource), same⟩

/-- A range is entered if blocks start at its first instruction and at its handlers. -/
theorem Graph.refusal?_protect {g : Graph} {pool : Option Pool} {blockAt : Offset → Option BlockId}
    {range : ProtectedRange} (isStart : (blockAt range.start).isSome = true)
    (isHandler : ∀ guard ∈ range.guards, (blockAt guard.handler).isSome = true) :
    refusal? (g.protect pool blockAt range) = none := by
  -- What could be refused is a start or a handler without a block.
  obtain ⟨first, found⟩ := Option.isSome_iff_exists.mp isStart
  rw [protect, found]
  rw [refusal?_bind_ok fun _ => rfl, ProtectedRange.handlers]
  refine refusal?_mapM fun guard isGuard => ?_
  obtain ⟨id, found⟩ := Option.isSome_iff_exists.mp (isHandler guard isGuard)
  rw [found]
  rfl

end Ranges

section Lookup

variable {m : Method}

/-- The blocks of the runs can be looked up by every leader that is an offset of the code. -/
theorem Method.isSome_blockAt? {offset : Offset} (isOffset : offset ∈ m.offsets)
    (leads : offset ∈ m.leaders) : (blockAt? m.runs offset).isSome = true := by
  -- A run starts at every leader.
  obtain ⟨run, isRun, isHead⟩ := Method.exists_run_of_leader isOffset leads
  rw [blockAt?, Option.isSome_map, List.findIdx?_isSome, List.any_eq_true]
  exact ⟨run, isRun, beq_iff_eq.mpr isHead⟩

/-- In code that is well laid, a block starts wherever a run jumps. -/
theorem Method.WellLaid.isSome_blockAt?_target (laid : m.WellLaid) :
    ∀ run ∈ m.runs, ∀ target ∈ run.last.jumpTargets, (blockAt? m.runs target).isSome = true :=
  forall_last_of_forall_code fun i listed target jumps =>
    Method.isSome_blockAt? (laid.targets i listed target jumps)
      (Method.mem_leaders_of_target listed jumps)

/-- In code that is well laid, blocks start where protection starts and where it is handled. -/
theorem Method.WellLaid.isSome_blockAt?_range (laid : m.WellLaid) {options : BuildOptions}
    {range : ProtectedRange} (listed : range ∈ ProtectedRange.ofTable m.exceptions options) :
    (blockAt? m.runs range.start).isSome = true ∧
      ∀ guard ∈ range.guards, (blockAt? m.runs guard.handler).isSome = true := by
  -- Every row of the table makes its start and its handler leaders.
  obtain ⟨⟨row, isRow, isStart⟩, handlers⟩ := ProtectedRange.isFrom_of_mem_ofTable listed
  -- The start of a row and its handler are offsets of the code.
  refine ⟨?_, fun guard isGuard => ?_⟩
  · exact isStart ▸ Method.isSome_blockAt? (laid.rows row isRow).2.1
      (Method.mem_leaders_of_row isRow).1
  · obtain ⟨row, isRow, isHandler⟩ := handlers guard isGuard
    exact isHandler ▸ Method.isSome_blockAt? (laid.rows row isRow).2.2.1
      (Method.mem_leaders_of_row isRow).2.1

end Lookup

namespace Graph

variable {m : Method} {pool : Option Pool} {options : BuildOptions}

/-- A method is refused for its layout, and otherwise for its first instruction with a fault. -/
theorem refusal?_build :
    refusal? (build m pool options) = m.fault?.or (m.code.findSome? (·.fault? pool)) := by
  -- The layout is checked first.
  cases isFault : m.fault? with
  | some fault =>
    rw [build, isFault]
    rfl
  | none =>
    have laid := Method.fault?_eq_none_iff.mp isFault
    calc refusal? (build m pool options)
      _ = refusal? (Run.toBlocks m pool (blockAt? m.runs) m.runs 1 0) := by
        rw [build, isFault]
        -- Nothing is refused once there are blocks.
        refine refusal?_bind_ok fun blocks => ?_
        rw [refusal?_bind_ok fun _ => rfl]
        refine refusal?_foldlM fun range listed g => ?_
        obtain ⟨isStart, isHandler⟩ := laid.isSome_blockAt?_range listed
        exact refusal?_protect isStart isHandler
      _ = m.code.findSome? fun i => refusal? (i.effect pool) := by
        rw [Run.refusal?_toBlocks laid.isSome_blockAt?_target, Method.runs, Run.flatMap_code_split]
      _ = m.code.findSome? (·.fault? pool) := by
        rw [← List.head?_filterMap, ← List.head?_filterMap]
        refine congrArg List.head? (List.filterMap_congr fun i listed => ?_)
        exact Instruction.refusal?_effect (laid.branches i listed) (laid.tables i listed)

/-- A method has a graph exactly if it is well laid and each of its instructions is supported. The
reason why it has none is its first fault, one of its layout before one of an instruction. So in
code that is well laid only opcodes, operands and called methods are refused, and no jump,
range or handler is. -/
theorem build_eq_ok_iff_wellLaid_and_supported :
    ((∃ g, build m pool options = .ok g) ↔ m.WellLaid ∧ ∀ i ∈ m.code, i.Supported pool) ∧
      (∀ fault, build m pool options = .error fault ↔
        m.fault?.or (m.code.findSome? (·.fault? pool)) = some fault) ∧
      (m.WellLaid → ∀ fault, build m pool options = .error fault → ∃ i ∈ m.code,
        fault = .unsupportedOpcode i.offset i.opcode ∨
        (∃ need, fault = .missingOperand i.offset need) ∨
        ∃ index, fault = .unresolvedConstant i.offset index) := by
  -- The fault is the one that has been found.
  have refused : ∀ fault, build m pool options = .error fault ↔
      m.fault?.or (m.code.findSome? (·.fault? pool)) = some fault := fun fault => by
    rw [← refusal?_eq_some_iff, refusal?_build]
  refine ⟨?_, refused, fun laid fault isFault => ?_⟩
  · rw [← refusal?_eq_none_iff, refusal?_build, Option.or_eq_none_iff, Method.fault?_eq_none_iff,
      List.findSome?_eq_none_iff]
    simp only [Instruction.fault?_eq_none_iff]
  · rw [refused, Method.fault?_eq_none_iff.mpr laid, Option.none_or] at isFault
    obtain ⟨i, listed, isFault⟩ := List.exists_of_findSome?_eq_some isFault
    exact ⟨i, listed, Instruction.fault?_cases isFault⟩

/-- A method that stores a value which it does not push, and calls a method. -/
def storesInherited : Method where
  code := [⟨0, ⟨54⟩, .slot 1, none⟩, ⟨2, ⟨184⟩, .pool 6, none⟩, ⟨5, ⟨54⟩, .slot 2, none⟩,
    ⟨7, ⟨167⟩, .branch 2, none⟩]
  codeLength := 10
  exceptions := [⟨0, 7, 7, none⟩]

/-- A pool with the method that is called there. -/
def callee : Pool := (({} : Pool).internMethod "A" "f" "()I").2

/-- What is missing on the stack does not matter, but the method that is called does. -/
theorem storesInherited_needs_callee : storesInherited.WellLaid ∧
    (∃ g, build storesInherited (some callee) {} = .ok g) ∧
      build storesInherited none {} = .error (.unresolvedConstant 2 6) := by
  -- The layout does not depend on the pool, but the call does.
  have laid : storesInherited.WellLaid := Method.fault?_eq_none_iff.mp (by decide +kernel)
  have sound : storesInherited.code.findSome? (·.fault? (some callee)) = none := by decide +kernel
  have isFault : storesInherited.fault?.or (storesInherited.code.findSome? (·.fault? none)) =
      some (.unresolvedConstant 2 6) := by decide +kernel
  refine ⟨laid, build_eq_ok_iff_wellLaid_and_supported.1.mpr ⟨laid, fun i listed => ?_⟩,
    (build_eq_ok_iff_wellLaid_and_supported.2.1 _).mpr isFault⟩
  exact Instruction.fault?_eq_none_iff.mp (List.findSome?_eq_none_iff.mp sound i listed)

end Graph

end Unjump
