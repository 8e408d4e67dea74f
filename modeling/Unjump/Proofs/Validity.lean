import Unjump.Simulation
import Unjump.Validity

/-!
What is asked of decoded bytecode: the layout of its code and of its exception table, and what each
instruction needs for itself.
-/

namespace Unjump

/-- A method whose offsets, jumps, end and exception table are in order. -/
structure Method.WellLaid (m : Method) : Prop where
  nonempty : m.code ≠ []
  ordered : m.offsets.Pairwise (· < ·)
  inside : ∀ i ∈ m.code, i.offset < m.codeLength
  branches : ∀ i ∈ m.code, (i.opcode.isConditional || i.opcode.isGoto || i.opcode.isJsr) = true →
    ∃ target, i.operand = .branch target
  tables : ∀ i ∈ m.code, i.opcode.isSwitch = true →
    ∃ default keyed, i.operand = .switch default keyed
  targets : ∀ i ∈ m.code, ∀ target ∈ i.jumpTargets, target ∈ m.offsets
  ends : ∀ last, m.code.getLast? = some last → last.opcode.endsFlow = true
  rows : ∀ row ∈ m.exceptions, row.start < row.finish ∧ row.start ∈ m.offsets ∧
    row.handler ∈ m.offsets ∧ (row.finish ∈ m.offsets ∨ row.finish = m.codeLength)

section Layout

/-- The order is checked at each instruction: it comes after the one before
it and lies inside the code. -/
theorem orderFault?_cons_eq_none_iff {codeLength : UInt32} {previous : Option Offset}
    {first : Instruction} {rest : List Instruction} :
    orderFault? codeLength previous (first :: rest) = none ↔
      (∀ offset, previous = some offset → offset < first.offset) ∧ first.offset < codeLength ∧
        orderFault? codeLength (some first.offset) rest = none := by
  -- The two comparisons are made one after the other.
  rw [orderFault?, ← UInt32.not_le]
  have behind : (∀ offset, previous = some offset → offset < first.offset) ↔
      ¬ previous.any (first.offset ≤ ·) = true := by
    cases previous <;> simp
  rw [behind]
  by_cases notBehind : previous.any (first.offset ≤ ·) = true
  · simp [notBehind]
  · by_cases outside : codeLength ≤ first.offset <;> simp [notBehind, outside]

/-- Code passes the check of its order if offsets increase and lie inside the code. -/
theorem orderFault?_eq_none_iff {codeLength : UInt32} {previous : Option Offset}
    {code : List Instruction} :
    orderFault? codeLength previous code = none ↔
      (code.map (·.offset)).Pairwise (· < ·) ∧ (∀ i ∈ code, i.offset < codeLength) ∧
        ∀ offset, previous = some offset → ∀ i ∈ code, offset < i.offset := by
  -- By induction on the code; what is passed along is the offset that comes before it.
  induction code generalizing previous with
  | nil => simp [orderFault?]
  | cons first rest ih =>
    rw [orderFault?_cons_eq_none_iff, ih]
    simp only [List.map_cons, List.pairwise_cons, List.mem_map, List.mem_cons, forall_eq_or_imp]
    constructor
    · rintro ⟨behind, inside, ordered, insideRest, later⟩
      refine ⟨⟨?_, ordered⟩, ⟨inside, insideRest⟩,
        fun offset isPrevious => ⟨behind offset isPrevious, fun i listed => ?_⟩⟩
      · rintro offset ⟨i, listed, rfl⟩
        exact later _ rfl i listed
      · -- What comes after the first instruction comes after the one before it.
        exact UInt32.lt_trans (behind offset isPrevious) (later _ rfl i listed)
    · rintro ⟨⟨later, ordered⟩, ⟨inside, insideRest⟩, behind⟩
      refine ⟨fun offset isPrevious => (behind offset isPrevious).1, inside, ordered, insideRest,
        ?_⟩
      rintro offset same i listed
      cases same
      exact later i.offset ⟨i, listed, rfl⟩

/-- The operand of a jump is a branch to some offset. -/
theorem Operand.isBranch_iff {operand : Operand} :
    operand.isBranch = true ↔ ∃ target, operand = .branch target := by
  cases operand <;> simp [isBranch]

/-- The operand of a switch is a table. -/
theorem Operand.isSwitch_iff {operand : Operand} :
    operand.isSwitch = true ↔ ∃ default keyed, operand = .switch default keyed := by
  cases operand <;> simp [isSwitch]

/-- An instruction passes the check of its jumps if they have the form that its opcode asks
for and lead to instructions. -/
theorem Instruction.jumpFault?_eq_none_iff {offsets : List Offset} {i : Instruction} :
    i.jumpFault? offsets = none ↔
      ((i.opcode.isConditional || i.opcode.isGoto || i.opcode.isJsr) = true →
        ∃ target, i.operand = .branch target) ∧
      (i.opcode.isSwitch = true → ∃ default keyed, i.operand = .switch default keyed) ∧
      ∀ target ∈ i.jumpTargets, target ∈ offsets := by
  -- The three checks are made one after the other.
  rw [← Operand.isBranch_iff, ← Operand.isSwitch_iff, jumpFault?]
  cases i.opcode.isConditional || i.opcode.isGoto || i.opcode.isJsr <;> cases i.operand.isBranch <;>
    cases i.opcode.isSwitch <;> cases i.operand.isSwitch <;> simp

/-- A row passes its check if it protects a range of instructions and is handled at one. -/
theorem ExceptionRow.fault?_eq_none_iff {offsets : List Offset} {codeLength : UInt32}
    {row : ExceptionRow} :
    row.fault? offsets codeLength = none ↔
      row.start < row.finish ∧ row.start ∈ offsets ∧ row.handler ∈ offsets ∧
      (row.finish ∈ offsets ∨ row.finish = codeLength) := by
  -- The bounds are checked before the handler, and each of their faults contradicts one
  -- of the conditions.
  rw [fault?]
  split
  · next wrong =>
    refine ⟨fun impossible => (nomatch impossible), fun ⟨less, isStart, _, isEnd⟩ => ?_⟩
    rcases wrong with notLess | notStart | ⟨notEnd, notLength⟩
    · exact absurd less (UInt32.not_lt.mpr notLess)
    · exact absurd isStart notStart
    · exact absurd isEnd (not_or.mpr ⟨notEnd, notLength⟩)
  · next right =>
    simp only [not_or, UInt32.not_le, Classical.not_not, not_and] at right
    obtain ⟨less, isStart, isEnd⟩ := right
    have isEnd : row.finish ∈ offsets ∨ row.finish = codeLength :=
      Decidable.or_iff_not_imp_left.mpr isEnd
    simp [less, isStart, isEnd]

/-- A method passes the check of its layout if it is well laid. -/
theorem Method.fault?_eq_none_iff {m : Method} : m.fault? = none ↔ m.WellLaid := by
  -- The checks are those of the end, the order, the jumps and the rows.
  rw [fault?]
  cases isLast : m.code.getLast? with
  | none =>
    refine ⟨fun impossible => (nomatch impossible), fun laid => ?_⟩
    exact absurd (List.getLast?_eq_none_iff.mp isLast) laid.nonempty
  | some last =>
    have nonempty : m.code ≠ [] := by
      rintro none
      rw [none] at isLast
      cases isLast
    -- The end of the code is checked before the exception rows, which are looked at only
    -- when it is sound.
    have rows :
      (if last.opcode.endsFlow then m.exceptions.findSome? (·.fault? m.offsets m.codeLength)
        else some (.fallsOffEnd last.offset)) = none ↔
          last.opcode.endsFlow = true ∧
          ∀ row ∈ m.exceptions, row.fault? m.offsets m.codeLength = none := by
      cases last.opcode.endsFlow <;> simp
    simp only [Option.or_eq_none_iff, orderFault?_eq_none_iff, List.findSome?_eq_none_iff,
      Instruction.jumpFault?_eq_none_iff, rows, ExceptionRow.fault?_eq_none_iff]
    constructor
    · rintro ⟨⟨ordered, inside, -⟩, jumps, ends, rows⟩
      refine ⟨nonempty, ordered, inside, fun i listed => (jumps i listed).1,
        fun i listed => (jumps i listed).2.1, fun i listed => (jumps i listed).2.2,
        fun other same => ?_, rows⟩
      cases isLast.symm.trans same
      exact ends
    · intro laid
      refine ⟨⟨laid.ordered, laid.inside, fun _ impossible => (nomatch impossible)⟩,
        fun i listed => ?_, laid.ends last isLast, laid.rows⟩
      exact ⟨laid.branches i listed, laid.tables i listed, laid.targets i listed⟩

end Layout

section Instructions

/-- The operand that an operation has to find behind its opcode. -/
def Operation.need? : Operation → Option OperandNeed
  | .immediate => some .immediate
  | .constant | .getStatic | .putStatic | .getField | .putField | .invoke _ | .new
  | .newObjectArray | .checkCast | .instanceOf => some .poolIndex
  -- An opcode that names its local variable has no operand for it.
  | .load _ none | .store _ none | .ret => some .localVariable
  | .increment => some .increment
  | .ifZero _ | .ifCompare _ | .ifNull _ | .goto | .jsr => some .branchTarget
  | .switch => some .switchTable
  | .newArray => some .arrayType
  | .newMultiArray => some .arrayDimensions
  | _ => none

/-- Whether an operand is what an instruction has to carry. -/
def OperandNeed.metBy : OperandNeed → Operand → Bool
  | .branchTarget, .branch _ | .switchTable, .switch _ _ | .poolIndex, .pool _ | .immediate, .int _
  | .localVariable, .slot _ | .increment, .increment _ _ | .arrayType, .arrayType _
  | .arrayDimensions, .multiArray _ _ => true
  -- The operand of a nested array has the index of its type.
  | .poolIndex, .multiArray _ _ => true
  | _, _ => false

/-- Whether an operation calls a method. -/
def Operation.isInvoke : Operation → Bool
  | .invoke _ => true
  | _ => false

/-- The descriptor of the method at an index. -/
def calledMethod? (pool : Option Pool) (index : PoolIndex) : Option MethodDescriptor := do
  let pool ← pool
  MethodDescriptor.parse? (← pool.memberDescriptor? index)

namespace Instruction

/-- An instruction with an assigned opcode, the operand that it needs and, for a call,
a method that it calls. -/
def Supported (pool : Option Pool) (i : Instruction) : Prop :=
  ∃ operation, i.opcode.operation? = some operation ∧
    (∀ need, operation.need? = some need → need.metBy i.operand = true) ∧
    (operation.isInvoke = true →
      ∃ index descriptor, i.poolIndex = .ok index ∧ calledMethod? pool index = some descriptor)

/-- The complaint about an operand that an instruction needs and does not have. -/
def operandFault? (i : Instruction) (need : OperandNeed) : Option Malformed :=
  if need.metBy i.operand then none else some (.missingOperand i.offset need)

/-- The complaint about a call whose method does not resolve. -/
def callFault? (i : Instruction) (pool : Option Pool) : Option Malformed :=
  match i.poolIndex with
  | .ok index =>
    if (calledMethod? pool index).isSome then none else some (.unresolvedConstant i.offset index)
  | .error _ => none

/-- What is wrong with an instruction for itself. -/
def fault? (i : Instruction) (pool : Option Pool) : Option Malformed :=
  match i.opcode.operation? with
  | none => some (.unsupportedOpcode i.offset i.opcode)
  | some operation =>
    (operation.need?.bind i.operandFault?).or
      (if operation.isInvoke then i.callFault? pool else none)

/-- An operand that is needed is found in order if it is there. -/
theorem operandFault?_eq_none_iff {i : Instruction} {need : OperandNeed} :
    i.operandFault? need = none ↔ need.metBy i.operand = true := by
  rw [operandFault?]
  split <;> simp_all

/-- A pool index is found exactly where one is carried. -/
theorem exists_poolIndex_iff {i : Instruction} :
    (∃ index, i.poolIndex = .ok index) ↔ OperandNeed.metBy .poolIndex i.operand = true := by
  -- Every operand is looked at, and those with an index are the ones that a pool index needs.
  rw [poolIndex]
  cases i.operand <;> simp [OperandNeed.metBy]

/-- The complaint about an instruction for itself is about its opcode, its operand or its method. -/
theorem fault?_cases {i : Instruction} {pool : Option Pool} {fault : Malformed}
    (isFault : i.fault? pool = some fault) :
    fault = .unsupportedOpcode i.offset i.opcode ∨ (∃ need, fault = .missingOperand i.offset need) ∨
      ∃ index, fault = .unresolvedConstant i.offset index := by
  -- An opcode that is not assigned is complained about first.
  rw [fault?] at isFault
  split at isFault
  · cases isFault
    exact .inl rfl
  -- The operand is checked first, and only then whether the method of a call is there.
  · rcases Option.or_eq_some_iff.mp isFault with isOperand | ⟨-, isCall⟩
    · obtain ⟨need, -, isOperand⟩ := Option.bind_eq_some_iff.mp isOperand
      rw [operandFault?] at isOperand
      split at isOperand <;> cases isOperand
      exact .inr (.inl ⟨need, rfl⟩)
    · split at isCall
      · rw [callFault?] at isCall
        repeat' split at isCall
        all_goals cases isCall
        exact .inr (.inr ⟨_, rfl⟩)
      · cases isCall

/-- An instruction is in order for itself if it is supported. -/
theorem fault?_eq_none_iff {i : Instruction} {pool : Option Pool} :
    i.fault? pool = none ↔ i.Supported pool := by
  -- The operation decides which of the checks there are.
  rw [fault?, Supported]
  cases i.opcode.operation? with
  | none => simp
  | some operation =>
    have operand : operation.need?.bind i.operandFault? = none ↔
        ∀ need, operation.need? = some need → need.metBy i.operand = true := by
      simp only [Option.bind_eq_none_iff, operandFault?_eq_none_iff]
    simp only [Option.or_eq_none_iff, operand, Option.some.injEq, exists_eq_left']
    refine and_congr_right fun met => ?_
    by_cases isInvoke : operation.isInvoke = true
    · -- A call carries an index, so that only its method can be missing.
      have isNeed : operation.need? = some .poolIndex := by
        cases operation <;> first | rfl | cases isInvoke
      obtain ⟨index, isIndex⟩ := exists_poolIndex_iff.mpr (met _ isNeed)
      simp [isInvoke, callFault?, isIndex, Option.eq_none_iff_forall_ne_some,
        Option.isSome_iff_exists]
    · simp [isInvoke]

end Instruction

end Instructions

end Unjump
