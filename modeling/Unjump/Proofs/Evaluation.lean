import Unjump.Simulation
import Mathlib.Data.Option.Basic
import Mathlib.Logic.Function.Basic

/-!
The expressions of straight code over ints do what its instructions do.

Instructions work on an operand stack, expressions on local variables and duplicated values. They
agree as long as no instruction writes a local variable that a value still on the simulated stack
reads: such a value is evaluated too late.
-/

namespace Unjump

/-- The result of an operator on ints, none for a division by zero. -/
def ArithOp.eval? : ArithOp → Int32 → Int32 → Option Int32
  | .add, a, b => some (a + b)
  | .sub, a, b => some (a - b)
  | .mul, a, b => some (a * b)
  | .div, a, b => if b = 0 then none else some (a / b)
  | .rem, a, b => if b = 0 then none else some (a % b)
  -- Only the low five bits of a distance count.
  | .shl, a, b => some (a <<< b)
  | .shr, a, b => some (a >>> b)
  | .ushr, a, b => some (a.toUInt32 >>> b.toUInt32).toInt32
  | .and, a, b => some (a &&& b)
  | .or, a, b => some (a ||| b)
  | .xor, a, b => some (a ^^^ b)

/-- The int that a constant stands for. -/
def Leaf.int? (pool : Option Pool) : Leaf → Option Int32
  | .int value => some value
  | .constant index => match pool.bind (·.get? index) with
    | some (.integer value) => some value
    | _ => none
  | _ => none

/-! ### Instructions -/

/-- An instruction over ints. -/
inductive IntOp where
  | push (constant : Leaf) (value : Int32)
  | load (slot : Slot)
  | store (slot : Slot)
  | increment (slot : Slot) (delta : Int16)
  | arith (op : ArithOp)
  | negate
  | pop | pop2
  | dup | dupX1 | dupX2 | dup2 | dup2X1 | dup2X2
  | swap

/-- The state of a machine over ints, the top of its stack first. -/
structure Machine where
  locals : Slot → Int32
  stack : List Int32

/-- Copies a number of values from the top of the stack below some others beneath them. -/
def Machine.copy? (m : Machine) (count under : Nat) : Option Machine :=
  if count + under ≤ m.stack.length then
    some { m with
      stack :=
        m.stack.take (count + under) ++ (m.stack.take count ++ m.stack.drop (count + under)) }
  else none

/-- What an instruction does, none if it throws or finds too few values. -/
def IntOp.step? : IntOp → Machine → Option Machine
  | .push _ value, ⟨locals, stack⟩ => some ⟨locals, value :: stack⟩
  | .load slot, ⟨locals, stack⟩ => some ⟨locals, locals slot :: stack⟩
  | .store slot, ⟨locals, value :: rest⟩ => some ⟨Function.update locals slot value, rest⟩
  | .increment slot delta, ⟨locals, stack⟩ =>
    some ⟨Function.update locals slot (locals slot + delta.toInt32), stack⟩
  | .arith op, ⟨locals, right :: left :: rest⟩ =>
    (op.eval? left right).map fun value => ⟨locals, value :: rest⟩
  | .negate, ⟨locals, value :: rest⟩ => some ⟨locals, -value :: rest⟩
  | .pop, ⟨locals, _ :: rest⟩ => some ⟨locals, rest⟩
  | .pop2, ⟨locals, _ :: _ :: rest⟩ => some ⟨locals, rest⟩
  | .dup, m => m.copy? 1 0
  | .dupX1, m => m.copy? 1 1
  | .dupX2, m => m.copy? 1 2
  | .dup2, m => m.copy? 2 0
  | .dup2X1, m => m.copy? 2 1
  | .dup2X2, m => m.copy? 2 2
  | .swap, ⟨locals, top :: below :: rest⟩ => some ⟨locals, below :: top :: rest⟩
  | _, _ => none

/-- The instruction over ints that an instruction is. -/
def Instruction.intOp? (pool : Option Pool) (i : Instruction) : Option IntOp :=
  match i.opcode.operation? with
  | some (.int value) => some (.push (.int value) value)
  | some .immediate => match i.operand with
    | .int value => some (.push (.int value) value)
    | _ => none
  | some .constant => match i.operand with
    | .pool index => (Leaf.int? pool (.constant index)).map (.push (.constant index))
    | _ => none
  | some (.load .int implied) => (i.slotOr implied).toOption.map .load
  | some (.store .int implied) => (i.slotOr implied).toOption.map .store
  | some .increment => match i.operand with
    | .increment slot delta => some (.increment slot delta)
    | _ => none
  | some (.arith op .int) => some (.arith op)
  | some (.negate .int) => some .negate
  | some .pop => some .pop
  | some .pop2 => some .pop2
  | some .dup => some .dup
  | some .dupX1 => some .dupX1
  | some .dupX2 => some .dupX2
  | some .dup2 => some .dup2
  | some .dup2X1 => some .dup2X1
  | some .dup2X2 => some .dup2X2
  | some .swap => some .swap
  | _ => none

/-- Executes instructions over ints. -/
def Machine.run? (pool : Option Pool) (m : Machine) (code : List Instruction) : Option Machine :=
  code.foldlM (fun m i => (i.intOp? pool).bind (·.step? m)) m

/-! ### Expressions -/

/-- What expressions work on. -/
structure Memory where
  locals : Slot → Int32
  /-- The duplicated values by their numbers. -/
  dups : Nat → Int32
  /-- The values left on the stack so far, the last one first. -/
  left : List Int32 := []

section Semantics

variable (pool : Option Pool) (below : List Int32)

/-- The value of an expression over ints, where earlier blocks have left some values
on the stack. -/
def Expr.eval? (memory : Memory) : Expr → Option Int32
  | .leaf _ (.load .int slot) => some (memory.locals slot)
  | .leaf _ (.stackEntry depth) => below[depth]?
  | .leaf _ head => head.int? pool
  | .unary _ (.negate .int) value => (value.eval? memory).map (-·)
  | .unary _ (.dupLoad id) _ => some (memory.dups id)
  | .binary _ (.arith op .int) left right =>
    (left.eval? memory).bind fun a => (right.eval? memory).bind fun b => op.eval? a b
  | _ => none

/-- The values of expressions over ints. -/
def Expr.evalAll? (memory : Memory) : List Expr → Option (List Int32)
  | [] => some []
  | e :: rest =>
    (e.eval? pool below memory).bind fun value => (evalAll? memory rest).map (value :: ·)

/-- What a statement over ints does. -/
def Expr.exec? (memory : Memory) : Expr → Option Memory
  | .leaf _ (.increment slot delta) =>
    some { memory with
      locals := Function.update memory.locals slot (memory.locals slot + delta.toInt32) }
  | .unary _ (.store .int slot) value =>
    (value.eval? pool below memory).map fun v =>
      { memory with locals := Function.update memory.locals slot v }
  | .unary _ (.dupStore id) value =>
    (value.eval? pool below memory).map fun v =>
      { memory with dups := Function.update memory.dups id v }
  | .unary _ .pop value => (value.eval? pool below memory).map fun _ => memory
  | .unary _ .leave value =>
    (value.eval? pool below memory).map fun v => { memory with left := v :: memory.left }
  | _ => none

/-- Executes statements over ints in order. -/
def execute? (memory : Memory) (statements : List Expr) : Option Memory :=
  statements.foldlM (fun memory statement => statement.exec? pool below memory) memory

end Semantics

/-- Statements are executed one part after the other. -/
theorem execute?_append {pool : Option Pool} {below : List Int32} {memory : Memory}
    (statements others : List Expr) :
    execute? pool below memory (statements ++ others) =
      (execute? pool below memory statements).bind fun after =>
        execute? pool below after others := by
  -- Executing a list is a fold, which splits where the list does.
  simp [execute?, List.foldlM_append]

/-- A single statement is executed by itself. -/
theorem execute?_singleton {pool : Option Pool} {below : List Int32} {memory : Memory}
    (statement : Expr) :
    execute? pool below memory [statement] = statement.exec? pool below memory := by
  simp [execute?]

/-- Whether the value of an expression depends on a local variable. -/
def Expr.reads (slot : Slot) : Expr → Bool
  | .leaf _ (.load _ read) => read == slot
  -- A duplicated value is read back, not evaluated again.
  | .unary _ (.dupLoad _) _ => false
  | .unary _ _ value => value.reads slot
  | .binary _ _ left right => left.reads slot || right.reads slot
  | _ => false

/-- Whether an instruction writes a local variable that a value below
it on the simulated stack reads. -/
def IntOp.disturbs (frame : Frame) : IntOp → Bool
  | .store slot => frame.stack.tail.any (·.reads slot)
  | .increment slot _ => frame.stack.any (·.reads slot)
  | _ => false

/-- What an instruction over ints does to a frame. -/
def IntOp.apply (pool : Option Pool) (origin : Origin) (frame : Frame) : IntOp → Frame
  | .push constant _ => frame.push (.leaf origin constant)
  | .load slot => frame.push (.leaf origin (.load .int slot))
  | .store slot => frame.emitUnary origin (.store .int slot)
  | .increment slot delta => frame.emit (.leaf origin (.increment slot delta))
  | .arith op => frame.pushBinary origin (.arith op .int)
  | .negate => frame.pushUnary origin (.negate .int)
  | .pop => frame.emitUnary origin .pop
  | .pop2 => frame.pop2 pool origin
  | .dup => frame.dup origin
  | .dupX1 => frame.dupX1 origin
  | .dupX2 => frame.dupX2 pool origin
  | .dup2 => frame.dup2 pool origin
  | .dup2X1 => frame.dup2X1 pool origin
  | .dup2X2 => frame.dup2X2 pool origin
  | .swap => frame.swap origin

/-- Whether no instruction of some code over ints writes a local variable that a value
on the simulated stack reads. -/
def Frame.undisturbed (pool : Option Pool) : Frame → List Instruction → Bool
  | _, [] => true
  | frame, i :: rest => match i.intOp? pool with
    | some op => !op.disturbs frame && (op.apply pool i.origin frame).undisturbed pool rest
    | none => true

/-- Whether the constant that an instruction pushes is the value it is said to have. -/
def IntOp.Fits (pool : Option Pool) : IntOp → Prop
  | .push constant value => constant.int? pool = some value
  | _ => True

/-- A computation goes on with the result that its first part has. -/
private theorem bind_of_toOption {ε α β : Type} {x : Except ε α} {a : α}
    (found : x.toOption = some a) (f : α → Except ε β) : (x >>= f) = f a := by
  cases x with
  | error => cases found
  | ok =>
    cases found
    rfl

/-- What an instruction over ints promises: its constant is the value it is said to have, and
simulating it is what simulates the instruction. -/
theorem Instruction.fits_and_effect_of_intOp? {pool : Option Pool} {i : Instruction} {op : IntOp}
    (isOp : i.intOp? pool = some op) :
    op.Fits pool ∧ i.effect pool = .ok fun frame => op.apply pool i.origin frame := by
  -- What the instruction is and what it does are read off the same operation.
  rw [intOp?] at isOp
  rw [effect]
  -- The cases are those of the operation; the operand matters for the few that carry one.
  cases isOperation : i.opcode.operation? with
  | none =>
    rw [isOperation] at isOp
    cases isOp
  | some operation =>
    rw [isOperation] at isOp
    cases operation with
    -- A constant is pushed as the int that it is.
    | int value =>
      cases isOp
      exact ⟨rfl, rfl⟩
    | immediate =>
      cases isOperand : i.operand with
      | int value =>
        rw [isOperand] at isOp
        cases isOp
        exact ⟨rfl, rfl⟩
      | _ =>
        rw [isOperand] at isOp
        cases isOp
    -- The entry of the pool was asked for its value already.
    | constant =>
      cases isOperand : i.operand with
      | pool index =>
        rw [isOperand] at isOp
        obtain ⟨value, isInt, rfl⟩ := Option.map_eq_some_iff.mp isOp
        have isIndex : i.poolIndex.toOption = some index := by rw [poolIndex, isOperand]; rfl
        exact ⟨isInt, bind_of_toOption isIndex _⟩
      | _ =>
        rw [isOperand] at isOp
        cases isOp
    | increment =>
      cases isOperand : i.operand with
      | increment slot delta =>
        rw [isOperand] at isOp
        cases isOp
        exact ⟨trivial, rfl⟩
      | _ =>
        rw [isOperand] at isOp
        cases isOp
    -- Of the loads and stores, only those of ints are in question, and their slots are known.
    | load kind implied =>
      cases kind with
      | int =>
        obtain ⟨slot, isSlot, rfl⟩ :=
          Option.map_eq_some_iff.mp (isOp : (i.slotOr implied).toOption.map .load = some op)
        exact ⟨trivial, bind_of_toOption isSlot _⟩
      | _ => cases isOp
    | store kind implied =>
      cases kind with
      | int =>
        obtain ⟨slot, isSlot, rfl⟩ :=
          Option.map_eq_some_iff.mp (isOp : (i.slotOr implied).toOption.map .store = some op)
        exact ⟨trivial, bind_of_toOption isSlot _⟩
      | _ => cases isOp
    -- Of the operators, too, only those on ints are in question.
    | arith op kind =>
      cases kind with
      | int =>
        cases isOp
        exact ⟨trivial, rfl⟩
      | _ => cases isOp
    | negate kind =>
      cases kind with
      | int =>
        cases isOp
        exact ⟨trivial, rfl⟩
      | _ => cases isOp
    | pop | pop2 | dup | dupX1 | dupX2 | dup2 | dup2X1 | dup2X2 | swap =>
      cases isOp
      exact ⟨trivial, rfl⟩
    | _ => cases isOp

/-! ### Expressions over ints -/

/-- Expressions over ints, with duplicated values of numbers below a limit. -/
inductive Expr.OverInts (pool : Option Pool) (limit : Nat) : Expr → Prop
  | constant {origin head value} (isInt : head.int? pool = some value) :
      OverInts pool limit (.leaf origin head)
  | load {origin slot} : OverInts pool limit (.leaf origin (.load .int slot))
  | stackEntry {origin depth} : OverInts pool limit (.leaf origin (.stackEntry depth))
  | negate {origin value} (ints : OverInts pool limit value) :
      OverInts pool limit (.unary origin (.negate .int) value)
  | dupLoad {origin id value} (isKnown : id < limit) (ints : OverInts pool limit value) :
      OverInts pool limit (.unary origin (.dupLoad id) value)
  | arith {origin op left right} (ints : OverInts pool limit left)
      (ints' : OverInts pool limit right) :
      OverInts pool limit (.binary origin (.arith op .int) left right)

section Eval

variable {pool : Option Pool} {below : List Int32} {memory : Memory} {limit : Nat} {e : Expr}

/-- A constant that is an int is typed as one. -/
theorem Leaf.type?_of_int? {head : Leaf} {value : Int32} (isInt : head.int? pool = some value)
    (offset : Offset) : head.type? pool none offset = some .int := by
  -- Only literals and entries of the pool have a value of their own.
  cases head with
  | int value => rfl
  | constant index =>
    simp only [int?] at isInt
    split at isInt
    · next value found =>
      obtain ⟨entries, rfl, isEntry⟩ := Option.bind_eq_some_iff.mp found
      simp only [type?, Pool.loadableType?, Option.bind_some, isEntry]
      rfl
    · cases isInt
  | _ => cases isInt

/-- Values of expressions over ints take one stack slot. -/
theorem Expr.OverInts.isWide_eq_false (ints : e.OverInts pool limit) : e.isWide pool = false := by
  have type : e.type? pool none = none ∨ e.type? pool none = some .int := by
    -- A type that is not known counts as narrow, and those that are known are `int`.
    induction ints with
    | constant isInt => exact .inr (Leaf.type?_of_int? isInt _)
    | load => exact .inl (by cases pool <;> rfl)
    | stackEntry => exact .inl rfl
    | negate _ ih => rcases ih with ih | ih <;> simp [type?, ih]
    | dupLoad _ _ ih => exact ih
    | arith _ _ ih ih' =>
      rcases ih with ih | ih <;> rcases ih' with ih' | ih' <;> simp [type?, ih, ih']
  rw [isWide]
  rcases type with type | type <;> rw [type] <;> rfl

/-- The limit may grow. -/
theorem Expr.OverInts.mono (ints : e.OverInts pool limit) {larger : Nat} (grows : limit ≤ larger) :
    e.OverInts pool larger := by
  -- The limit matters for the stored values that are read back, and for nothing else.
  induction ints with
  | constant isInt => exact .constant isInt
  | load => exact .load
  | stackEntry => exact .stackEntry
  | negate _ ih => exact .negate ih
  | dupLoad isKnown _ ih => exact .dupLoad (Nat.lt_of_lt_of_le isKnown grows) ih
  | arith _ _ ih ih' => exact .arith ih ih'

/-- A constant has the value that it stands for. -/
theorem Expr.eval?_constant {origin : Origin} {head : Leaf} {value : Int32}
    (isInt : head.int? pool = some value) :
    (Expr.leaf origin head).eval? pool below memory = some value := by
  -- Only literals and entries of the pool stand for ints.
  cases head with
  | int | constant => exact isInt
  | _ => cases isInt

/-- Writing a local variable keeps the values of expressions that do not read it. -/
theorem Expr.OverInts.eval?_update_locals (ints : e.OverInts pool limit) {slot : Slot}
    (unread : e.reads slot = false) (value : Int32) :
    e.eval? pool below { memory with locals := Function.update memory.locals slot value } =
      e.eval? pool below memory := by
  -- Only a load of the variable itself would see the difference.
  induction ints with
  | constant isInt => rw [eval?_constant isInt, eval?_constant isInt]
  | load =>
    have other := beq_eq_false_iff_ne.mp unread
    simp [eval?, Function.update_of_ne other]
  | stackEntry => rfl
  | negate _ ih => simp [eval?, ih unread]
  | dupLoad => rfl
  | arith _ _ ih ih' =>
    obtain ⟨unread, unread'⟩ := Bool.or_eq_false_iff.mp unread
    simp [eval?, ih unread, ih' unread']

/-- Storing a new duplicated value keeps the values of expressions that only read earlier ones. -/
theorem Expr.OverInts.eval?_update_dups (ints : e.OverInts pool limit) (value : Int32) :
    e.eval? pool below { memory with dups := Function.update memory.dups limit value } =
      e.eval? pool below memory := by
  -- What is read back was stored under an earlier number than the new one.
  induction ints with
  | constant isInt => rw [eval?_constant isInt, eval?_constant isInt]
  | load | stackEntry => rfl
  | negate _ ih => simp [eval?, ih]
  | dupLoad isKnown => simp [eval?, Function.update_of_ne (Nat.ne_of_lt isKnown)]
  | arith _ _ ih ih' => simp [eval?, ih, ih']

/-- The values left on the stack do not matter for expressions. -/
theorem Expr.eval?_left (e : Expr) (left : List Int32) :
    e.eval? pool below { memory with left } = e.eval? pool below memory := by
  -- No case of the evaluation looks at those values.
  fun_induction Expr.eval? pool below memory e <;> simp_all [eval?]

/-- Expressions are evaluated one part after the other. -/
theorem Expr.evalAll?_append (es others : List Expr) : evalAll? pool below memory (es ++ others) =
    (evalAll? pool below memory es).bind fun values =>
      (evalAll? pool below memory others).map (values ++ ·) := by
  -- By induction on the first expressions; the first one that fails makes the whole fail.
  induction es with
  | nil => simp [evalAll?]
  | cons e es ih =>
    simp only [List.cons_append, evalAll?, ih]
    cases e.eval? pool below memory with
    | none => rfl
    | some value =>
      cases evalAll? pool below memory es with
      | none => rfl
      | some values => cases evalAll? pool below memory others <;> rfl

/-- There are as many values as expressions. -/
theorem Expr.length_of_evalAll? {es : List Expr} {values : List Int32}
    (found : evalAll? pool below memory es = some values) : values.length = es.length := by
  -- One value for each expression, or none at all.
  induction es generalizing values with
  | nil =>
    cases found
    rfl
  | cons e es ih =>
    obtain ⟨value, -, found⟩ := Option.bind_eq_some_iff.mp found
    obtain ⟨rest, isRest, rfl⟩ := Option.map_eq_some_iff.mp found
    exact congrArg (· + 1) (ih isRest)

/-- Expressions that each have the same value in two memories have the same values. -/
theorem Expr.evalAll?_congr {other : Memory} {es : List Expr}
    (same : ∀ e ∈ es, e.eval? pool below other = e.eval? pool below memory) :
    evalAll? pool below other es = evalAll? pool below memory es := by
  -- By induction on the expressions, one value at a time.
  induction es with
  | nil => rfl
  | cons e es ih =>
    rw [evalAll?, evalAll?, same e List.mem_cons_self, ih fun e listed =>
      same e (List.mem_cons_of_mem _ listed)]

end Eval

/-! ### Frames -/

section Frames

variable (pool : Option Pool) (below : List Int32) (memory : Memory)

/-- The local variables after the statements so far, and the values
that some expressions have then. -/
def Frame.values? (frame : Frame) (pending : List Expr) : Option ((Slot → Int32) × List Int32) :=
  (execute? pool below memory frame.statements).bind fun after =>
    (Expr.evalAll? pool below after pending).map (after.locals, ·)

/-- The state that a frame stands for. -/
def Frame.outcome? (frame : Frame) : Option Machine :=
  (frame.values? pool below memory frame.stack).map fun (locals, values) =>
    ⟨locals, values ++ below.drop frame.inherited⟩

end Frames

/-- The frame with further values on its stack, the top one first. -/
def Frame.pushed (frame : Frame) (values : List Expr) : Frame :=
  { frame with stack := values ++ frame.stack }

section Values

variable {pool : Option Pool} {below : List Int32} {memory : Memory} {frame rest : Frame}
    {origin : Origin}

/-- Values on top of the stack are evaluated with it. -/
theorem Frame.outcome?_pushed (values : List Expr) :
    (frame.pushed values).outcome? pool below memory =
      (frame.values? pool below memory (values ++ frame.stack)).map fun (locals, values) =>
        ⟨locals, values ++ below.drop frame.inherited⟩ :=
  rfl

/-- There are as many values as pending expressions. -/
theorem Frame.length_of_values? {pending : List Expr} {locals : Slot → Int32} {values : List Int32}
    (found : frame.values? pool below memory pending = some (locals, values)) :
    values.length = pending.length := by
  -- The statements before them only change the memory.
  obtain ⟨after, -, found⟩ := Option.bind_eq_some_iff.mp found
  obtain ⟨values, isValues, same⟩ := Option.map_eq_some_iff.mp found
  cases same
  exact Expr.length_of_evalAll? isValues

/-- A further statement takes effect before the pending expressions are evaluated. -/
theorem Frame.values?_emit (statement : Expr) (pending : List Expr) :
    (frame.emit statement).values? pool below memory pending =
      (execute? pool below memory frame.statements).bind fun after =>
        (statement.exec? pool below after).bind fun after =>
          (Expr.evalAll? pool below after pending).map (after.locals, ·) := by
  -- The statement is the last of the list that is executed first.
  simp [values?, emit, execute?, List.foldlM_append, Option.bind_assoc]

/-- Taking a value from a frame changes nothing for what needs that value. -/
theorem Frame.bind_outcome?_pop {top : Expr} (isTop : frame.pop origin = (top, rest))
    (above : List Expr) {f : Machine → Option Machine}
    (needs : ∀ m, m.stack.length ≤ above.length → f m = none) :
    ((frame.pushed above).outcome? pool below memory).bind f =
      ((rest.pushed (above ++ [top])).outcome? pool below memory).bind f := by
  -- The value is the top of the frame's stack, if there is one.
  simp only [pop] at isTop
  split at isTop
  · next same =>
    cases isTop
    simp [pushed, same, outcome?, values?]
  · next same =>
    -- The value is the next one that earlier blocks have left.
    cases isTop
    simp only [pushed, same, outcome?, values?, List.append_nil, Expr.evalAll?_append]
    cases execute? pool below memory frame.statements with
    | none => rfl
    | some after =>
      cases found : Expr.evalAll? pool below after above with
      | none => simp [found]
      | some values =>
        have length := Expr.length_of_evalAll? found
        -- If earlier blocks have left no such value, what needs it fails with and without it.
        by_cases inside : frame.inherited < below.length
        · rw [List.drop_eq_getElem_cons inside]
          simp [found, Expr.evalAll?, Expr.eval?, inside]
        · have absent : below[frame.inherited]? = none :=
            List.getElem?_eq_none (Nat.not_lt.mp inside)
          have empty : below.drop frame.inherited = [] :=
            List.drop_of_length_le (Nat.not_lt.mp inside)
          have short := needs ⟨after.locals, values⟩ (Nat.le_of_eq length)
          simp [found, Expr.evalAll?, Expr.eval?, absent, empty, short]

/-- The values that a frame gives one after the other, and what is left of it. -/
inductive Frame.Takes (origin : Origin) : Frame → List Expr → Frame → Prop
  | done {frame : Frame} : Takes origin frame [] frame
  | pop {frame rest last : Frame} {top values} (isTop : frame.pop origin = (top, rest))
      (more : Takes origin rest values last) : Takes origin frame (top :: values) last

/-- Taking values from a frame changes nothing for what needs those values. -/
theorem Frame.Takes.bind_outcome? {values : List Expr} (takes : frame.Takes origin values rest)
    (above : List Expr) {f : Machine → Option Machine}
    (needs : ∀ m, m.stack.length < above.length + values.length → f m = none) :
    ((frame.pushed above).outcome? pool below memory).bind f =
      ((rest.pushed (above ++ values)).outcome? pool below memory).bind f := by
  -- One value after the other, where those that have been taken lie above what is left.
  induction takes generalizing above with
  | done => rw [List.append_nil]
  | @pop frame rest last top values isTop _ ih =>
    rw [bind_outcome?_pop isTop above fun m short =>
      needs m (by simp; omega), ih (above ++ [top]), List.append_assoc]
    · rfl
    · intro m short
      exact needs m (by simp at short ⊢; omega)

/-- Taking all values that an instruction needs changes nothing for what it does. -/
theorem Frame.Takes.outcome? {values : List Expr} (takes : frame.Takes origin values rest)
    {f : Machine → Option Machine} (needs : ∀ m, m.stack.length < values.length → f m = none) :
    (frame.outcome? pool below memory).bind f =
      ((rest.pushed values).outcome? pool below memory).bind f :=
  takes.bind_outcome? [] fun m short => needs m (by simpa using short)

/-- Taking values numbers no duplicated ones. -/
theorem Frame.Takes.nextDup_eq {values : List Expr} (takes : frame.Takes origin values rest) :
    rest.nextDup = frame.nextDup := by
  -- A pop changes the stack and the count of inherited values only.
  induction takes with
  | done => rfl
  | pop isTop _ ih =>
    refine ih.trans ?_
    simp only [Frame.pop] at isTop
    split at isTop <;> cases isTop <;> rfl

/-- Taking values leaves statements and terminator alone. -/
theorem Frame.Takes.kept {values : List Expr} (takes : frame.Takes origin values rest) :
    rest.statements = frame.statements ∧ rest.terminator = frame.terminator := by
  -- A pop changes neither.
  induction takes with
  | done => exact ⟨rfl, rfl⟩
  | pop isTop _ ih =>
    simp only [Frame.pop] at isTop
    split at isTop <;> cases isTop <;> exact ih

/-- Values are taken from the stack of the frame first, and then
from what earlier blocks have left. -/
theorem Frame.Takes.exists_own {values : List Expr} (takes : frame.Takes origin values rest) :
    ∃ own deeper, values = own ++ deeper ∧ frame.stack = own ++ rest.stack ∧
      ∀ e ∈ deeper, ∃ depth, e = .leaf origin (.stackEntry depth) := by
  -- By induction on the values that are taken.
  induction takes with
  | done => exact ⟨[], [], rfl, rfl, fun e listed => absurd listed List.not_mem_nil⟩
  | @pop frame rest last top values isTop _ ih =>
    obtain ⟨own, deeper, rfl, stack, isDeeper⟩ := ih
    simp only [Frame.pop] at isTop
    split at isTop
    · -- The first value is the top of the frame's own stack.
      next value below found =>
      cases isTop
      exact ⟨top :: own, deeper, rfl, by rw [found, List.cons_append, ← stack], isDeeper⟩
    · next found =>
      -- Nothing of the frame's own is left, so that all further values are of earlier blocks too.
      cases isTop
      obtain ⟨rfl, isEmpty⟩ := List.append_eq_nil_iff.mp (stack.symm.trans found)
      exact ⟨[], _ :: deeper, rfl, found.trans isEmpty.symm,
        List.forall_mem_cons.mpr ⟨⟨_, rfl⟩, isDeeper⟩⟩

/-- What holds of all values on a stack and of those of earlier blocks holds of what is taken
and of what is left. -/
theorem Frame.Takes.forall_mem {P : Expr → Prop} {values : List Expr}
    (takes : frame.Takes origin values rest) (own : ∀ e ∈ frame.stack, P e)
    (deeper : ∀ depth, P (.leaf origin (.stackEntry depth))) :
    (∀ e ∈ rest.stack, P e) ∧ ∀ e ∈ values, P e := by
  -- What is taken comes from the stack or from below it.
  obtain ⟨taken, others, rfl, stack, isDeeper⟩ := takes.exists_own
  rw [stack] at own
  refine ⟨fun e listed => own e (List.mem_append_right _ listed), fun e listed => ?_⟩
  rcases List.mem_append.mp listed with isOwn | isOther
  · exact own e (List.mem_append_left _ isOwn)
  · obtain ⟨depth, rfl⟩ := isDeeper e isOther
    exact deeper depth

/-- A frame of code over ints. -/
structure Frame.OverInts (pool : Option Pool) (frame : Frame) : Prop where
  stack : ∀ e ∈ frame.stack, e.OverInts pool frame.nextDup
  -- Values are only left on the stack at the end of the block.
  statements : ∀ e ∈ frame.statements, e.leavesValue = false
  terminator : frame.terminator = none

/-- What is taken from a frame of code over ints is over ints, and so is what is left. -/
theorem Frame.OverInts.of_takes {values : List Expr} (ints : frame.OverInts pool)
    (takes : frame.Takes origin values rest) :
    rest.OverInts pool ∧ ∀ e ∈ values, e.OverInts pool rest.nextDup := by
  -- Neither the statements nor the numbers of stored values change.
  obtain ⟨statements, terminator⟩ := takes.kept
  obtain ⟨left, taken⟩ := takes.forall_mem ints.stack fun _ => .stackEntry
  rw [← takes.nextDup_eq] at left taken
  exact ⟨⟨left, statements ▸ ints.statements, terminator.trans ints.terminator⟩, taken⟩

/-- Duplicating a value changes nothing for the values of expressions. -/
theorem Frame.values?_duplicate {value copy : Expr}
    (isCopy : frame.duplicate origin value = (copy, rest)) (above others : List Expr)
    (ints : ∀ e ∈ above ++ others, e.OverInts pool frame.nextDup) :
    rest.values? pool below memory (above ++ copy :: others) =
      frame.values? pool below memory (above ++ value :: others) := by
  simp only [duplicate] at isCopy
  split at isCopy
  · -- A trivial value is its own copy.
    cases isCopy
    rfl
  · cases isCopy
    -- The copy is a fresh temporary: storing it first changes no expression over the older
    -- temporaries.
    refine (values?_emit _ _).trans ?_
    simp only [values?, Expr.exec?]
    cases execute? pool below memory frame.statements with
    | none => rfl
    | some after =>
      have kept : ∀ v, ∀ e ∈ above ++ others,
          e.eval? pool below { after with dups := Function.update after.dups frame.nextDup v } =
            e.eval? pool below after := fun v e listed => (ints e listed).eval?_update_dups v
      have keptAbove :=
        fun v => Expr.evalAll?_congr fun e listed => kept v e (List.mem_append_left _ listed)
      have keptOthers :=
        fun v => Expr.evalAll?_congr fun e listed => kept v e (List.mem_append_right _ listed)
      simp only [Option.bind_some, Expr.evalAll?_append, Expr.evalAll?]
      cases value.eval? pool below after with
      | none => cases Expr.evalAll? pool below after above <;> rfl
      | some v =>
        simp only [Option.map_some, Option.bind_some, keptAbove, keptOthers, Expr.eval?,
          Function.update_self]

/-- What duplicating values keeps of a frame: only its statements and the next number change. -/
structure Frame.Duplicates (pool : Option Pool) (frame : Frame) (copies : List Expr)
    (rest : Frame) : Prop where
  stack : rest.stack = frame.stack
  statements : (∀ e ∈ frame.statements, e.leavesValue = false) →
    ∀ e ∈ rest.statements, e.leavesValue = false
  inherited : rest.inherited = frame.inherited
  terminator : rest.terminator = frame.terminator
  grows : frame.nextDup ≤ rest.nextDup
  ints : ∀ e ∈ copies, e.OverInts pool rest.nextDup

/-- Duplicating a value keeps a frame but for one statement and one number at most. -/
theorem Frame.duplicates_duplicate {value copy : Expr}
    (isCopy : frame.duplicate origin value = (copy, rest))
    (ints : value.OverInts pool frame.nextDup) : Duplicates pool frame [copy] rest := by
  simp only [duplicate] at isCopy
  -- A trivial value is its own copy; any other one is stored first.
  split at isCopy
  · cases isCopy
    exact ⟨rfl, id, rfl, rfl, Nat.le_refl _, fun e listed => List.mem_singleton.mp listed ▸ ints⟩
  · cases isCopy
    refine ⟨rfl, fun quiet e listed => ?_, rfl, rfl, Nat.le_succ _, fun e listed => ?_⟩
    · -- The statement that stores the value leaves none on the stack.
      rcases List.mem_append.mp listed with listed | listed
      · exact quiet e listed
      · rw [List.mem_singleton.mp listed]
        rfl
    rw [List.mem_singleton.mp listed]
    exact .dupLoad (Nat.lt_succ_self _) (ints.mono (Nat.le_succ _))

/-- Duplicating values keeps a frame but for some statements and numbers. -/
theorem Frame.duplicates_duplicateAll {values copies : List Expr}
    (isCopies : duplicateAll origin values frame = (copies, rest))
    (ints : ∀ e ∈ values, e.OverInts pool frame.nextDup) :
    copies.length = values.length ∧ Duplicates pool frame copies rest := by
  -- Each copy may take a new temporary, so the frame and the bound on its temporaries move along.
  induction values generalizing frame copies with
  | nil =>
    cases isCopies
    exact ⟨rfl, rfl, id, rfl, rfl, Nat.le_refl _, fun e listed => absurd listed List.not_mem_nil⟩
  | cons value values ih =>
    rcases isCopy : frame.duplicate origin value with ⟨copy, next⟩
    rcases isRest : duplicateAll origin values next with ⟨others, last⟩
    simp only [duplicateAll, isCopy, isRest] at isCopies
    cases isCopies
    have first := duplicates_duplicate isCopy (ints value List.mem_cons_self)
    obtain ⟨length, later⟩ :=
      ih isRest fun e listed => (ints e (List.mem_cons_of_mem _ listed)).mono first.grows
    refine ⟨congrArg (· + 1) length, later.stack.trans first.stack,
      later.statements ∘ first.statements, later.inherited.trans first.inherited,
      later.terminator.trans first.terminator, Nat.le_trans first.grows later.grows,
      fun e listed => ?_⟩
    rcases List.mem_cons.mp listed with rfl | listed
    · exact (first.ints _ List.mem_cons_self).mono later.grows
    · exact later.ints e listed

/-- Duplicating values changes nothing for the values of expressions. -/
theorem Frame.values?_duplicateAll {values copies : List Expr}
    (isCopies : duplicateAll origin values frame = (copies, rest))
    (ints : ∀ e ∈ values, e.OverInts pool frame.nextDup) (above others : List Expr)
    (fresh : ∀ e ∈ above ++ others, e.OverInts pool frame.nextDup) :
    rest.values? pool below memory (above ++ copies.reverse ++ others) =
      frame.values? pool below memory (above ++ values.reverse ++ others) := by
  -- By induction on the values, with what stands around them left open.
  induction values generalizing frame copies above others with
  | nil =>
    cases isCopies
    rfl
  | cons value values ih =>
    rcases isCopy : frame.duplicate origin value with ⟨copy, next⟩
    rcases isRest : duplicateAll origin values next with ⟨later, last⟩
    simp only [duplicateAll, isCopy, isRest] at isCopies
    cases isCopies
    have first := duplicates_duplicate isCopy (ints value List.mem_cons_self)
    have intsLater : ∀ e ∈ values, e.OverInts pool frame.nextDup :=
      fun e listed => ints e (List.mem_cons_of_mem _ listed)
    -- The other values are duplicated with this copy already in place.
    have step :=
      ih isRest (fun e listed => (intsLater e listed).mono first.grows) above (copy :: others)
        fun e listed => by
          rcases List.mem_append.mp listed with listed | listed
          · exact (fresh e (List.mem_append_left _ listed)).mono first.grows
          rcases List.mem_cons.mp listed with rfl | listed
          · exact first.ints _ List.mem_cons_self
          · exact (fresh e (List.mem_append_right _ listed)).mono first.grows
    have own : next.values? pool below memory (above ++ values.reverse ++ copy :: others) =
        frame.values? pool below memory (above ++ values.reverse ++ value :: others) := by
      refine values?_duplicate isCopy _ _ fun e listed => ?_
      rcases List.mem_append.mp listed with listed | listed
      · rcases List.mem_append.mp listed with listed | listed
        · exact fresh e (List.mem_append_left _ listed)
        · exact intsLater e (List.mem_reverse.mp listed)
      · exact fresh e (List.mem_append_right _ listed)
    simp only [List.reverse_cons, List.append_assoc, List.cons_append, List.nil_append]
      at step own ⊢
    exact step.trans own

/-- Values that stand twice among pending expressions are the same. -/
theorem Frame.values?_copy (values buried others : List Expr) :
    frame.values? pool below memory (values ++ buried ++ values ++ others) =
      (frame.values? pool below memory (values ++ buried ++ others)).map fun (locals, found) =>
        (locals, found.take (values.length + buried.length) ++
          (found.take values.length ++ found.drop (values.length + buried.length))) := by
  -- Both sides evaluate after the same statements.
  simp only [values?, Expr.evalAll?_append]
  cases execute? pool below memory frame.statements with
  | none => rfl
  | some after =>
    -- Evaluation fails on both sides alike, with the first expression that does.
    cases isValues : Expr.evalAll? pool below after values with
    | none => simp [isValues]
    | some found =>
      cases isBuried : Expr.evalAll? pool below after buried with
      | none => simp [isValues, isBuried]
      | some foundBuried =>
        rw [← Expr.length_of_evalAll? isValues, ← Expr.length_of_evalAll? isBuried]
        cases isOthers : Expr.evalAll? pool below after others with
        | none => simp [isValues, isBuried, isOthers]
        | some foundOthers =>
          have whole : found.length ≤ found.length + foundBuried.length := Nat.le_add_right _ _
          simp [isValues, isBuried, isOthers, List.take_append, List.drop_append,
            List.take_of_length_le whole, List.drop_of_length_le whole]

/-- Pushing values pushes the last of them on top. -/
theorem Frame.pushAll_eq (values : List Expr) :
    frame.pushAll values = frame.pushed values.reverse := by
  -- By induction on the values, the first of which ends up lowest.
  induction values generalizing frame with
  | nil => rfl
  | cons value values ih =>
    have step : (frame.push value).pushAll values = (frame.push value).pushed values.reverse := ih
    exact step.trans (by simp [pushed, push])

/-- Pushing values twice copies them. -/
theorem Frame.outcome?_pushAround {values buried : List Expr} (ints : frame.OverInts pool)
    (intsValues : ∀ e ∈ values, e.OverInts pool frame.nextDup)
    (intsBuried : ∀ e ∈ buried, e.OverInts pool frame.nextDup) :
    (frame.pushAround origin values buried).outcome? pool below memory =
      ((frame.pushed (values.reverse ++ buried.reverse)).outcome? pool below memory).bind
        (·.copy? values.length buried.length) := by
  rcases isCopies : duplicateAll origin values frame with ⟨copies, rest⟩
  obtain ⟨length, duplicates⟩ := duplicates_duplicateAll isCopies intsValues
  -- The copies have the values of the originals, whatever lies beneath them.
  have same : rest.values? pool below memory (copies.reverse ++ buried.reverse ++ frame.stack) =
      frame.values? pool below memory (values.reverse ++ buried.reverse ++ frame.stack) := by
    rw [List.append_assoc, List.append_assoc]
    refine values?_duplicateAll isCopies intsValues [] (buried.reverse ++ frame.stack)
      fun e listed => ?_
    rw [List.nil_append] at listed
    rcases List.mem_append.mp listed with listed | listed
    · exact intsBuried e (List.mem_reverse.mp listed)
    · exact ints.stack e listed
  -- What is pushed is the copies, the buried expressions, and the copies again.
  have pushed : frame.pushAround origin values buried =
      rest.pushed (copies.reverse ++ buried.reverse ++ copies.reverse) := by
    rw [pushAround, isCopies]
    refine (pushAll_eq _).trans ?_
    simp only [List.reverse_append, List.append_assoc]
  rw [pushed, outcome?_pushed, outcome?_pushed, duplicates.stack, duplicates.inherited,
    values?_copy, same]
  -- If the values can be evaluated at all, there are enough of them to copy.
  cases found :
      frame.values? pool below memory (values.reverse ++ buried.reverse ++ frame.stack) with
  | none => rfl
  | some result =>
    obtain ⟨locals, results⟩ := result
    have enough : values.length + buried.length ≤ results.length := by
      rw [length_of_values? found]
      simp
    have enoughValues := Nat.le_trans (Nat.le_add_right _ _) enough
    have enoughAll : values.length + buried.length ≤
        results.length + (below.length - frame.inherited) :=
      Nat.le_add_right_of_le enough
    simp [Machine.copy?, enoughAll, length, List.take_append_of_le_length enough,
      List.take_append_of_le_length enoughValues, List.drop_append_of_le_length enough]

end Values

section Steps

variable {pool : Option Pool} {below : List Int32} {memory : Memory} {frame rest : Frame}
    {origin : Origin}

/-- Two values are taken together, as neither is wide. -/
theorem Frame.OverInts.popPair_eq (ints : frame.OverInts pool) {top second : Expr} {next : Frame}
    (isTop : frame.pop origin = (top, next)) (isSecond : next.pop origin = (second, rest)) :
    frame.popPair pool origin = ([second, top], rest) := by
  -- A value over ints is not wide.
  have narrow := ((ints.of_takes (.pop isTop .done)).2 top List.mem_cons_self).isWide_eq_false
  simp [popPair, isTop, isSecond, narrow]

/-- An instruction needs as many values as it takes. -/
theorem Machine.copy?_short {m : Machine} {count under : Nat}
    (short : m.stack.length < count + under) : m.copy? count under = none :=
  if_neg (Nat.not_le.mpr short)

/-- Copying values in a frame copies them in the state it stands for. -/
theorem Frame.outcome?_copies {values buried : List Expr} (ints : frame.OverInts pool)
    (takes : frame.Takes origin (values.reverse ++ buried.reverse) rest) :
    (rest.pushAround origin values buried).outcome? pool below memory =
      (frame.outcome? pool below memory).bind (·.copy? values.length buried.length) := by
  -- The copied values and the buried ones are what the instruction takes.
  obtain ⟨left, taken⟩ := ints.of_takes takes
  rw [takes.outcome? fun m short => Machine.copy?_short (by simpa using short)]
  refine outcome?_pushAround left (fun e listed => taken e ?_) fun e listed => taken e ?_
  · exact List.mem_append_left _ (List.mem_reverse.mpr listed)
  · exact List.mem_append_right _ (List.mem_reverse.mpr listed)

/-- How many values an instruction copies, and below how many others. -/
def IntOp.copies? : IntOp → Option (Nat × Nat)
  | .dup => some (1, 0)
  | .dupX1 => some (1, 1)
  | .dupX2 => some (1, 2)
  | .dup2 => some (2, 0)
  | .dup2X1 => some (2, 1)
  | .dup2X2 => some (2, 2)
  | _ => none

/-- An instruction that copies does nothing else. -/
theorem IntOp.step?_of_copies? {op : IntOp} {count under : Nat}
    (copies : op.copies? = some (count, under)) (m : Machine) :
    op.step? m = m.copy? count under := by
  -- One case per instruction that copies.
  cases op <;> cases copies <;> rfl

/-- An instruction that copies takes the values that it copies
and those it puts the copies below, and pushes all of them. -/
theorem IntOp.exists_takes_of_copies? {op : IntOp} {count under : Nat} (ints : frame.OverInts pool)
    (copies : op.copies? = some (count, under)) :
    ∃ values buried rest, values.length = count ∧ buried.length = under ∧
      frame.Takes origin (values.reverse ++ buried.reverse) rest ∧
        op.apply pool origin frame = rest.pushAround origin values buried := by
  -- Four values are enough for all of these instructions.
  rcases isTop : frame.pop origin with ⟨top, one⟩
  rcases isSecond : one.pop origin with ⟨second, two⟩
  rcases isThird : two.pop origin with ⟨third, three⟩
  rcases isFourth : three.pop origin with ⟨fourth, four⟩
  have leftOne := (ints.of_takes (.pop isTop .done)).1
  have leftTwo := (ints.of_takes (.pop isTop (.pop isSecond .done))).1
  -- No value is wide, so that values are taken one at a time even
  -- where a wide one would stand for two.
  cases op with
  | dup =>
    cases copies
    exact ⟨[top], [], one, rfl, rfl, .pop isTop .done, by simp [apply, Frame.dup, isTop]⟩
  | dupX1 =>
    cases copies
    exact ⟨[top], [second], two, rfl, rfl, .pop isTop (.pop isSecond .done),
      by simp [apply, Frame.dupX1, isTop, isSecond]⟩
  | dupX2 =>
    cases copies
    exact ⟨[top], [third, second], three, rfl, rfl, .pop isTop (.pop isSecond (.pop isThird .done)),
      by simp [apply, Frame.dupX2, isTop, leftOne.popPair_eq isSecond isThird]⟩
  | dup2 =>
    cases copies
    exact ⟨[second, top], [], two, rfl, rfl, .pop isTop (.pop isSecond .done),
      by simp [apply, Frame.dup2, ints.popPair_eq isTop isSecond]⟩
  | dup2X1 =>
    cases copies
    exact ⟨[second, top], [third], three, rfl, rfl, .pop isTop (.pop isSecond (.pop isThird .done)),
      by simp [apply, Frame.dup2X1, ints.popPair_eq isTop isSecond, isThird]⟩
  | dup2X2 =>
    cases copies
    refine ⟨[second, top], [fourth, third], four, rfl, rfl,
      .pop isTop (.pop isSecond (.pop isThird (.pop isFourth .done))), ?_⟩
    simp [apply, Frame.dup2X2, ints.popPair_eq isTop isSecond, leftTwo.popPair_eq isThird isFourth]
  | _ => cases copies

/-- Simulating an instruction that copies does to the state what the instruction does. -/
theorem IntOp.outcome?_apply_copying {op : IntOp} {count under : Nat} (ints : frame.OverInts pool)
    (copies : op.copies? = some (count, under)) :
    (op.apply pool origin frame).outcome? pool below memory =
      (frame.outcome? pool below memory).bind op.step? := by
  -- All of them take some values and push them around others.
  obtain ⟨values, buried, rest, rfl, rfl, takes, made⟩ := exists_takes_of_copies? ints copies
  rw [made, Frame.outcome?_copies ints takes]
  exact congrArg (Option.bind _) (funext fun m => (step?_of_copies? copies m).symm)

/-- What needs one value fails without. -/
theorem IntOp.short_one {f : Machine → Option Machine} (empty : ∀ locals, f ⟨locals, []⟩ = none)
    (m : Machine) (short : m.stack.length < 1) : f m = none := by
  -- Without a value the stack is empty.
  obtain ⟨locals, stack⟩ := m
  cases stack with
  | nil => exact empty locals
  | cons => simp at short

/-- What needs two values fails with fewer. -/
theorem IntOp.short_two {f : Machine → Option Machine} (empty : ∀ locals, f ⟨locals, []⟩ = none)
    (single : ∀ locals value, f ⟨locals, [value]⟩ = none) (m : Machine)
    (short : m.stack.length < 2) : f m = none := by
  -- With fewer than two values the stack is empty or has one.
  obtain ⟨locals, stack⟩ := m
  match stack with
  | [] => exact empty locals
  | [value] => exact single locals value
  | _ :: _ :: _ =>
    simp only [List.length_cons] at short
    omega

/-- A statement leaves the stack alone. -/
@[simp] theorem Frame.stack_emit (statement : Expr) : (frame.emit statement).stack = frame.stack :=
  rfl

/-- A statement leaves the count of inherited values alone. -/
@[simp] theorem Frame.inherited_emit (statement : Expr) :
    (frame.emit statement).inherited = frame.inherited :=
  rfl

/-- A further statement is executed after the others. -/
theorem Frame.execute?_emit (statement : Expr) :
    execute? pool below memory (frame.emit statement).statements =
      (execute? pool below memory frame.statements).bind fun after =>
        statement.exec? pool below after := by
  -- The statement is the last of the list.
  simp only [emit, execute?_append, execute?_singleton]

/-- The state that a frame stands for, in terms of the memory after its statements. -/
theorem Frame.outcome?_eq : frame.outcome? pool below memory =
    (execute? pool below memory frame.statements).bind fun after =>
      (Expr.evalAll? pool below after frame.stack).map fun values =>
        ⟨after.locals, values ++ below.drop frame.inherited⟩ := by
  -- The locals and the values come from the same memory.
  simp [outcome?, values?, Option.map_bind, Function.comp_def]

/-- A write keeps the values on the stack that do not read it. -/
theorem Frame.OverInts.evalAll?_update_locals (ints : frame.OverInts pool) {slot : Slot}
    (unread : frame.stack.any (·.reads slot) = false) (value : Int32) :
    Expr.evalAll? pool below { memory with locals := Function.update memory.locals slot value }
      frame.stack = Expr.evalAll? pool below memory frame.stack := by
  -- Each value is kept by itself, as none of them reads the variable.
  refine Expr.evalAll?_congr fun e listed => (ints.stack e listed).eval?_update_locals ?_ value
  rw [← Bool.not_eq_true] at unread ⊢
  exact fun reads => unread (List.any_eq_true.mpr ⟨e, listed, reads⟩)

/-- The state that a frame stands for, seen by what needs its top value. -/
theorem Frame.outcome?_bind_pop {top : Expr} (isTop : frame.pop origin = (top, rest))
    {f : Machine → Option Machine} (empty : ∀ locals, f ⟨locals, []⟩ = none) :
    (frame.outcome? pool below memory).bind f =
      (execute? pool below memory rest.statements).bind fun after =>
        (top.eval? pool below after).bind fun value =>
          (Expr.evalAll? pool below after rest.stack).bind fun values =>
            f ⟨after.locals, value :: (values ++ below.drop rest.inherited)⟩ := by
  -- The value is on top of what is left, or in the stack that the block was entered with.
  rw [Takes.outcome? (.pop isTop .done) (IntOp.short_one empty)]
  simp only [outcome?_eq, pushed, List.cons_append, List.nil_append, Expr.evalAll?,
    Option.bind_assoc, Option.bind_map]
  refine congrArg (Option.bind _) (funext fun after => ?_)
  cases top.eval? pool below after <;> cases Expr.evalAll? pool below after rest.stack <;> rfl

/-- The state that a frame stands for, seen by what needs its two top values. -/
theorem Frame.outcome?_bind_pop_pop {top second : Expr} {next : Frame}
    (isTop : frame.pop origin = (top, next)) (isSecond : next.pop origin = (second, rest))
    {f : Machine → Option Machine} (empty : ∀ locals, f ⟨locals, []⟩ = none)
    (single : ∀ locals value, f ⟨locals, [value]⟩ = none) :
    (frame.outcome? pool below memory).bind f =
      (execute? pool below memory rest.statements).bind fun after =>
        (second.eval? pool below after).bind fun under =>
          (top.eval? pool below after).bind fun value =>
            (Expr.evalAll? pool below after rest.stack).bind fun values =>
              f ⟨after.locals, value :: under :: (values ++ below.drop rest.inherited)⟩ := by
  -- The lower value has been pushed first and is evaluated first.
  rw [Takes.outcome? (.pop isTop (.pop isSecond .done)) (IntOp.short_two empty single)]
  simp only [outcome?_eq, pushed, List.cons_append, List.nil_append, Expr.evalAll?,
    Option.bind_assoc, Option.bind_map]
  refine congrArg (Option.bind _) (funext fun after => ?_)
  cases second.eval? pool below after <;> cases top.eval? pool below after <;>
    cases Expr.evalAll? pool below after rest.stack <;> rfl

/-- What is left on the stack below a value does not read the variable
that the value may be written to. -/
theorem IntOp.unread_of_pop {slot : Slot} {top : Expr}
    (quiet : (IntOp.store slot).disturbs frame = false) (isTop : frame.pop origin = (top, rest)) :
    rest.stack.any (·.reads slot) = false := by
  -- A value that the block was entered with has no expressions below it.
  rw [disturbs] at quiet
  simp only [Frame.pop] at isTop
  split at isTop
  · next same =>
    cases isTop
    rwa [same] at quiet
  · next same =>
    cases isTop
    rwa [same] at quiet ⊢

/-- Simulating an instruction does to the state that a frame stands
for what the instruction does. -/
theorem IntOp.outcome?_apply {op : IntOp} (ints : frame.OverInts pool) (fits : op.Fits pool)
    (quiet : op.disturbs frame = false) :
    (op.apply pool origin frame).outcome? pool below memory =
      (frame.outcome? pool below memory).bind op.step? := by
  -- Both sides execute the statements first; then what is taken is evaluated,
  -- and then the rest of the stack.
  cases op with
  -- A constant has its value whatever the memory is.
  | push constant value =>
    simp only [apply, Frame.outcome?_eq, Frame.push, Expr.evalAll?, Expr.eval?_constant fits,
      Option.bind_assoc]
    refine congrArg (Option.bind _) (funext fun after => ?_)
    cases Expr.evalAll? pool below after frame.stack <;> rfl
  -- A load has the value of its variable after the statements.
  | load slot =>
    simp only [apply, Frame.outcome?_eq, Frame.push, Expr.evalAll?, Expr.eval?, Option.bind_assoc]
    refine congrArg (Option.bind _) (funext fun after => ?_)
    cases Expr.evalAll? pool below after frame.stack <;> rfl
  -- No value on the stack reads the variable that is incremented.
  | increment slot delta =>
    simp only [apply, Frame.outcome?_eq, Frame.execute?_emit, Expr.exec?, Frame.stack_emit,
      Frame.inherited_emit, Option.bind_assoc]
    refine congrArg (Option.bind _) (funext fun after => ?_)
    simp only [Option.bind_some, ints.evalAll?_update_locals quiet]
    cases Expr.evalAll? pool below after frame.stack <;> rfl
  -- The stored value is evaluated before the write, and no other one reads the variable.
  | store slot =>
    rcases isTop : frame.pop origin with ⟨top, rest⟩
    have left := (ints.of_takes (.pop isTop .done)).1
    have unread := unread_of_pop quiet isTop
    rw [Frame.outcome?_bind_pop isTop fun _ => rfl]
    simp only [apply, Frame.emitUnary, Frame.popUnary, isTop, Frame.outcome?_eq,
      Frame.execute?_emit, Expr.exec?, Frame.stack_emit, Frame.inherited_emit, Option.bind_assoc]
    refine congrArg (Option.bind _) (funext fun after => ?_)
    cases top.eval? pool below after with
    | none => rfl
    | some value =>
      simp only [Option.map_some, Option.bind_some, left.evalAll?_update_locals unread]
      cases Expr.evalAll? pool below after rest.stack <;> rfl
  -- The value is evaluated where it was, and negated.
  | negate =>
    rcases isTop : frame.pop origin with ⟨top, rest⟩
    rw [Frame.outcome?_bind_pop isTop fun _ => rfl]
    simp only [apply, Frame.pushUnary, Frame.popUnary, isTop, Frame.outcome?_eq, Frame.push,
      Expr.evalAll?, Expr.eval?]
    refine congrArg (Option.bind _) (funext fun after => ?_)
    cases top.eval? pool below after <;> cases Expr.evalAll? pool below after rest.stack <;> rfl
  -- The value is evaluated although it is not used, so that it fails where it would have failed.
  | pop =>
    rcases isTop : frame.pop origin with ⟨top, rest⟩
    rw [Frame.outcome?_bind_pop isTop fun _ => rfl]
    simp only [apply, Frame.emitUnary, Frame.popUnary, isTop, Frame.outcome?_eq,
      Frame.execute?_emit, Expr.exec?, Frame.stack_emit, Frame.inherited_emit, Option.bind_assoc]
    refine congrArg (Option.bind _) (funext fun after => ?_)
    cases top.eval? pool below after with
    | none => rfl
    | some value =>
      simp only [Option.map_some, Option.bind_some]
      cases Expr.evalAll? pool below after rest.stack <;> rfl
  -- The left operand has been pushed first and is evaluated first.
  | arith op =>
    rcases isRight : frame.pop origin with ⟨right, next⟩
    rcases isLeft : next.pop origin with ⟨left, rest⟩
    rw [Frame.outcome?_bind_pop_pop isRight isLeft (fun _ => rfl) fun _ _ => rfl]
    simp only [apply, Frame.pushBinary, Frame.popBinary, isRight, isLeft, Frame.outcome?_eq,
      Frame.push, Expr.evalAll?, Expr.eval?]
    refine congrArg (Option.bind _) (funext fun after => ?_)
    cases left.eval? pool below after with
    | none => rfl
    | some a =>
      cases right.eval? pool below after with
      | none => rfl
      | some b =>
        -- The operator may fail whether or not the rest of the stack does.
        simp only [Option.bind_some, step?]
        cases op.eval? a b <;> cases Expr.evalAll? pool below after rest.stack <;> rfl
  -- The order of evaluation does not matter, as evaluating changes nothing.
  | swap =>
    rcases isTop : frame.pop origin with ⟨top, next⟩
    rcases isSecond : next.pop origin with ⟨second, rest⟩
    rw [Frame.outcome?_bind_pop_pop isTop isSecond (fun _ => rfl) fun _ _ => rfl]
    simp only [apply, Frame.swap, isTop, isSecond, Frame.pushAll_eq, Frame.outcome?_eq,
      Frame.pushed, List.reverse_cons, List.reverse_nil, List.cons_append, List.nil_append,
      Expr.evalAll?]
    refine congrArg (Option.bind _) (funext fun after => ?_)
    cases second.eval? pool below after <;> cases top.eval? pool below after <;>
      cases Expr.evalAll? pool below after rest.stack <;> rfl
  -- The lower value becomes a statement before the other one does.
  | pop2 =>
    rcases isTop : frame.pop origin with ⟨top, next⟩
    rcases isSecond : next.pop origin with ⟨second, rest⟩
    rw [Frame.outcome?_bind_pop_pop isTop isSecond (fun _ => rfl) fun _ _ => rfl]
    simp only [apply, Frame.pop2, ints.popPair_eq isTop isSecond, List.foldl_cons, List.foldl_nil,
      Frame.outcome?_eq, Frame.execute?_emit, Expr.exec?, Frame.stack_emit, Frame.inherited_emit,
      Option.bind_assoc]
    refine congrArg (Option.bind _) (funext fun after => ?_)
    cases second.eval? pool below after with
    | none => rfl
    | some b =>
      simp only [Option.map_some, Option.bind_some]
      cases top.eval? pool below after with
      | none => rfl
      | some a =>
        simp only [Option.map_some, Option.bind_some]
        cases Expr.evalAll? pool below after rest.stack <;> rfl
  | dup | dupX1 | dupX2 | dup2 | dup2X1 | dup2X2 => exact outcome?_apply_copying ints rfl

/-- Pushing values twice keeps a frame over ints. -/
theorem Frame.OverInts.pushAround (ints : frame.OverInts pool) {values buried : List Expr}
    (intsValues : ∀ e ∈ values, e.OverInts pool frame.nextDup)
    (intsBuried : ∀ e ∈ buried, e.OverInts pool frame.nextDup) :
    (frame.pushAround origin values buried).OverInts pool := by
  -- The copies are over ints, as they read back what is.
  rcases isCopies : duplicateAll origin values frame with ⟨copies, rest⟩
  have duplicates := (duplicates_duplicateAll isCopies intsValues).2
  rw [Frame.pushAround, isCopies]
  simp only [pushAll_eq]
  refine ⟨fun e listed => ?_, duplicates.statements ints.statements,
    duplicates.terminator.trans ints.terminator⟩
  simp only [pushed, List.reverse_append, List.mem_append, List.mem_reverse] at listed
  -- Copies stand above and below the buried values, and the old stack beneath all of them.
  rcases listed with (listed | listed | listed) | listed
  · exact duplicates.ints e listed
  · exact (intsBuried e listed).mono duplicates.grows
  · exact duplicates.ints e listed
  · rw [duplicates.stack] at listed
    exact (ints.stack e listed).mono duplicates.grows

/-- Copying values keeps a frame over ints. -/
theorem Frame.OverInts.copies {values buried : List Expr} (ints : frame.OverInts pool)
    (takes : frame.Takes origin (values.reverse ++ buried.reverse) rest) :
    (rest.pushAround origin values buried).OverInts pool := by
  -- What is taken is over ints, and so is what is left.
  obtain ⟨left, taken⟩ := ints.of_takes takes
  refine left.pushAround (fun e listed => taken e ?_) fun e listed => taken e ?_
  · exact List.mem_append_left _ (List.mem_reverse.mpr listed)
  · exact List.mem_append_right _ (List.mem_reverse.mpr listed)

/-- An instruction that copies keeps a frame over ints. -/
theorem IntOp.overInts_apply_copying {op : IntOp} {count under : Nat} (ints : frame.OverInts pool)
    (copies : op.copies? = some (count, under)) : (op.apply pool origin frame).OverInts pool := by
  -- All of them take some values and push them around others.
  obtain ⟨values, buried, rest, -, -, takes, made⟩ := exists_takes_of_copies? ints copies
  exact made ▸ ints.copies takes

/-- Pushing an expression over ints keeps a frame over ints. -/
theorem Frame.OverInts.push (ints : frame.OverInts pool) {e : Expr}
    (intsTop : e.OverInts pool frame.nextDup) : (frame.push e).OverInts pool :=
  ⟨List.forall_mem_cons.mpr ⟨intsTop, ints.stack⟩, ints.statements, ints.terminator⟩

/-- A statement that leaves no value keeps a frame over ints. -/
theorem Frame.OverInts.emit (ints : frame.OverInts pool) {statement : Expr}
    (quiet : statement.leavesValue = false) : (frame.emit statement).OverInts pool := by
  -- The new statement is the only one to look at.
  refine ⟨ints.stack, fun e listed => ?_, ints.terminator⟩
  rcases List.mem_append.mp listed with listed | listed
  · exact ints.statements e listed
  · rw [List.mem_singleton.mp listed]
    exact quiet

/-- Simulating an instruction over ints keeps a frame over ints. -/
theorem IntOp.overInts_apply {op : IntOp} (ints : frame.OverInts pool) (fits : op.Fits pool) :
    (op.apply pool origin frame).OverInts pool := by
  -- Other than to copy them, no instruction pops more than two expressions,
  -- which are over ints as the stack was.
  rcases isTop : frame.pop origin with ⟨top, one⟩
  rcases isSecond : one.pop origin with ⟨second, two⟩
  obtain ⟨leftOne, takenOne⟩ := ints.of_takes (.pop isTop .done)
  obtain ⟨leftTwo, takenTwo⟩ := ints.of_takes (.pop isTop (.pop isSecond .done))
  simp only [List.forall_mem_cons] at takenOne takenTwo
  cases op with
  | push constant value => exact ints.push (.constant fits)
  | load slot => exact ints.push .load
  | store slot =>
    simp only [apply, Frame.emitUnary, Frame.popUnary, isTop]
    exact leftOne.emit rfl
  | increment slot delta => exact ints.emit rfl
  | arith op =>
    simp only [apply, Frame.pushBinary, Frame.popBinary, isTop, isSecond]
    exact leftTwo.push (.arith takenTwo.2.1 takenTwo.1)
  | negate =>
    simp only [apply, Frame.pushUnary, Frame.popUnary, isTop]
    exact leftOne.push (.negate takenOne.1)
  | pop =>
    simp only [apply, Frame.emitUnary, Frame.popUnary, isTop]
    exact leftOne.emit rfl
  | pop2 =>
    simp only [apply, Frame.pop2, ints.popPair_eq isTop isSecond]
    exact (leftTwo.emit rfl).emit rfl
  | dup | dupX1 | dupX2 | dup2 | dup2X1 | dup2X2 => exact overInts_apply_copying ints rfl
  | swap =>
    simp only [apply, Frame.swap, isTop, isSecond]
    exact (leftTwo.push takenTwo.1).push takenTwo.2.1

/-- Simulating code over ints does to the state that a frame stands for what the code does. -/
theorem Frame.outcome?_run {code : List Instruction} (ints : frame.OverInts pool)
    (known : ∀ i ∈ code, (i.intOp? pool).isSome = true)
    (quiet : frame.undisturbed pool code = true) :
    ∃ last, frame.run pool code = .ok last ∧ last.OverInts pool ∧
      last.outcome? pool below memory =
        (frame.outcome? pool below memory).bind (Machine.run? pool · code) := by
  -- One instruction at a time: the frame's outcome after it is the machine's step
  -- from the outcome before it.
  induction code generalizing frame with
  -- Without code the outcome is that of the frame.
  | nil =>
    refine ⟨frame, rfl, ints, ?_⟩
    cases frame.outcome? pool below memory <;> rfl
  | cons i rest ih =>
    obtain ⟨op, isOp⟩ := Option.isSome_iff_exists.mp (known i List.mem_cons_self)
    simp only [undisturbed, isOp, Bool.and_eq_true, Bool.not_eq_true'] at quiet
    obtain ⟨fits, effect⟩ := i.fits_and_effect_of_intOp? isOp
    obtain ⟨last, isLast, intsLast, same⟩ :=
      ih (IntOp.overInts_apply ints fits)
        (fun i listed => known i (List.mem_cons_of_mem _ listed)) quiet.2
    refine ⟨last, ?_, intsLast, ?_⟩
    · rw [run, effect]
      exact isLast
    · rw [same, IntOp.outcome?_apply ints fits quiet.1, Option.bind_assoc]
      simp only [Machine.run?, List.foldlM_cons, isOp]
      rfl

/-- Other statements leave no values on the stack. -/
theorem left_of_execute? {statements : List Expr} {after : Memory}
    (quiet : ∀ e ∈ statements, e.leavesValue = false)
    (isAfter : execute? pool below memory statements = some after) : after.left = memory.left := by
  -- By induction on the statements, each of which keeps what has been left so far.
  induction statements generalizing memory with
  | nil =>
    cases isAfter
    rfl
  | cons e rest ih =>
    rw [← List.singleton_append, execute?_append, execute?_singleton] at isAfter
    obtain ⟨next, isNext, isAfter⟩ := Option.bind_eq_some_iff.mp isAfter
    refine (ih (fun e listed => quiet e (List.mem_cons_of_mem _ listed)) isAfter).trans ?_
    have quiet := quiet e List.mem_cons_self
    -- Of the expressions that can be executed, only one leaves a value, and it is not quiet.
    unfold Expr.exec? at isNext
    split at isNext
    · cases isNext
      rfl
    · obtain ⟨_, _, rfl⟩ := Option.map_eq_some_iff.mp isNext
      rfl
    · obtain ⟨_, _, rfl⟩ := Option.map_eq_some_iff.mp isNext
      rfl
    · obtain ⟨_, _, rfl⟩ := Option.map_eq_some_iff.mp isNext
      rfl
    · cases quiet
    · cases isNext

/-- The values left at the end of a block are those of its stack. -/
theorem execute?_leave (stack : List Expr) :
    execute? pool below memory (stack.reverse.map fun value => .unary value.origin .leave value) =
      (Expr.evalAll? pool below memory stack).map fun values =>
        { memory with left := values ++ memory.left } := by
  -- By induction on the stack, whose top is left last.
  induction stack with
  | nil => rfl
  | cons e stack ih =>
    simp only [List.reverse_cons, List.map_append, List.map_cons, List.map_nil, execute?_append,
      execute?_singleton, ih, Expr.evalAll?, Expr.exec?]
    cases Expr.evalAll? pool below memory stack with
    | none => cases e.eval? pool below memory <;> rfl
    | some values =>
      simp only [Option.map_some, Option.bind_some, Expr.eval?_left]
      cases e.eval? pool below memory <;> rfl

end Steps

/-- The expressions of code over ints leave the same local variables and the same stack as its
instructions, also where values of earlier blocks are used, as long as no instruction writes a local
variable that a value on the simulated stack still reads. -/
theorem expressions_act_as_code {pool : Option Pool} {code : List Instruction} (nextDup : Nat)
    (known : ∀ i ∈ code, (i.intOp? pool).isSome = true)
    (quiet : Frame.undisturbed pool { nextDup } code = true) (locals : Slot → Int32)
    (dups : Nat → Int32) (below : List Int32) :
    ∃ frame, Frame.run { nextDup } pool code = .ok frame ∧
      ((execute? pool below { locals, dups } frame.expressions).map fun memory =>
        Machine.mk memory.locals (memory.left ++ below.drop frame.inherited)) =
          Machine.run? pool ⟨locals, below⟩ code := by
  -- A block starts with an empty stack.
  have ints : Frame.OverInts pool { nextDup } :=
    ⟨fun e listed => absurd listed List.not_mem_nil,
      fun e listed => absurd listed List.not_mem_nil, rfl⟩
  obtain ⟨frame, isFrame, intsFrame, same⟩ :=
    @Frame.outcome?_run pool below { locals, dups } _ code ints known quiet
  refine ⟨frame, isFrame, Eq.trans ?_ same⟩
  -- A block without a terminator lists its statements and then the values it leaves on the stack.
  simp only [Frame.expressions, intsFrame.terminator, Option.toList_none, List.append_nil,
    execute?_append, Frame.outcome?_eq, execute?_leave]
  cases isAfter : execute? pool below { locals, dups } frame.statements with
  | none => rfl
  | some after =>
    have left : after.left = [] := left_of_execute? intsFrame.statements isAfter
    simp [left, Function.comp_def]

/-- Code that stores the square of a sum, increments one of its terms in between, and copies two
values of earlier blocks. -/
def squaring : List Instruction :=
  [⟨0, ⟨26⟩, .absent, none⟩, ⟨1, ⟨18⟩, .pool 1, none⟩, ⟨2, ⟨96⟩, .absent, none⟩,
    ⟨3, ⟨89⟩, .absent, none⟩, ⟨4, ⟨132⟩, .increment 0 1, none⟩, ⟨5, ⟨104⟩, .absent, none⟩,
    ⟨6, ⟨61⟩, .absent, none⟩, ⟨7, ⟨92⟩, .absent, none⟩]

/-- The square is that of the sum before the increment. -/
theorem squaring_acts_as_code :
    (∃ frame, Frame.run { nextDup := 3 } (some (.ofConstants [.integer 40])) squaring = .ok frame ∧
      ((execute? (some (.ofConstants [.integer 40])) [7, 9]
        { locals := fun _ => 2, dups := fun _ => 0 } frame.expressions).map fun memory =>
          Machine.mk memory.locals (memory.left ++ [7, 9].drop frame.inherited)) =
        Machine.run? (some (.ofConstants [.integer 40])) ⟨fun _ => 2, [7, 9]⟩ squaring) ∧
    (Machine.run? (some (.ofConstants [.integer 40])) ⟨fun _ => 2, [7, 9]⟩ squaring).map
      (fun m => (m.locals 0, m.locals 2, m.stack)) =
      some (3, 1764, [7, 9, 7, 9]) :=
  ⟨expressions_act_as_code 3 (by decide +kernel) (by decide +kernel) (fun _ => 2)
    (fun _ => 0) [7, 9], by decide +kernel⟩

/-- A pending value that reads a local variable is evaluated after a write to it. -/
theorem exists_late_read :
    ∃ code frame, (∀ i ∈ code, (i.intOp? none).isSome = true) ∧ Frame.run {} none code = .ok frame ∧
    ((execute? none [] { locals := fun _ => 0, dups := fun _ => 0 } frame.expressions).map
      (·.locals 2)) = some 1 ∧
    (Machine.run? none ⟨fun _ => 0, []⟩ code).map (·.locals 2) = some 0 :=
  ⟨[⟨0, ⟨27⟩, .absent, none⟩, ⟨1, ⟨132⟩, .increment 1 1, none⟩, ⟨2, ⟨61⟩, .absent, none⟩], _,
    by decide +kernel, rfl, by decide +kernel, by decide +kernel⟩

end Unjump
