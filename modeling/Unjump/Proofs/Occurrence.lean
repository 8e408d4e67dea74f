import Unjump.Proofs.Evaluation
import Unjump.Proofs.Layout

/-!
Every operation of a block is evaluated exactly once.

A frame holds expressions on its stack, as its statements and as its terminator. An instruction
takes values from the frame and puts one node over them back, or it only moves values around. Values
that stand in two places are read back from one that is stored, or they have nothing to evaluate; so
the node of an instruction is neither lost nor doubled.
-/

namespace Unjump

/-- Whether the operation has nothing to evaluate: it pushes what is at hand,
moves values around, or does nothing. -/
def Operation.isFree : Operation → Bool
  | .nothing | .goto | .null | .int _ | .long _ | .float _ | .double _
  | .immediate | .constant | .load _ _ | .new
  | .pop | .pop2 | .dup | .dupX1 | .dupX2 | .dup2 | .dup2X1 | .dup2X2 | .swap => true
  | _ => false

/-- Whether an instruction has something to evaluate. -/
def Instruction.computes (i : Instruction) : Bool := i.opcode.satisfies (!·.isFree)

/-- Whether an origin names an instruction. -/
def Origin.isOf (origin : Origin) (i : Instruction) : Bool :=
  origin.opcode == i.opcode && origin.offset == i.offset

/-- Whether the leaf stands for a value that was there before. -/
def Leaf.isMarker : Leaf → Bool
  | .stackEntry _ | .caught _ => true
  | _ => false

/-- Whether the expression only hands its operand on. -/
def Unary.isMarker : Unary → Bool
  | .leave | .dupStore _ | .dupLoad _ => true
  | _ => false

namespace Expr

/-- Whether the root says where a value is kept and is not the work of an instruction. -/
def isMarker : Expr → Bool
  | .leaf _ head => head.isMarker
  | .unary _ head _ => head.isMarker
  | _ => false

/-- Whether the root is the node of an instruction. -/
def isNodeOf (i : Instruction) (e : Expr) : Bool := e.origin.isOf i && !e.isMarker

mutual

/-- How many nodes of a tree are the node of an instruction, apart
from what duplicated values carry along. -/
def occurrences (i : Instruction) : Expr → Nat
  | .unary _ (.dupLoad _) _ => 0
  | e@(.leaf _ _) => (e.isNodeOf i).toNat
  | e@(.unary _ _ value) => (e.isNodeOf i).toNat + occurrences i value
  | e@(.binary _ _ left right) => (e.isNodeOf i).toNat + (occurrences i left + occurrences i right)
  | e@(.arrayStore _ _ array index value) =>
    (e.isNodeOf i).toNat + (occurrences i array + (occurrences i index + occurrences i value))
  | e@(.variadic _ _ arguments) => (e.isNodeOf i).toNat + occurrencesIn i arguments
  | e@(.callOn _ _ _ object arguments) =>
    (e.isNodeOf i).toNat + (occurrences i object + occurrencesIn i arguments)

/-- How many nodes of a list of trees are the node of an instruction. -/
def occurrencesIn (i : Instruction) : List Expr → Nat
  | [] => 0
  | e :: rest => occurrences i e + occurrencesIn i rest

end

section Counting

variable {i : Instruction} {e : Expr}

/-- No tree holds no node. -/
@[simp] theorem occurrencesIn_nil : occurrencesIn i [] = 0 := by rw [occurrencesIn]

/-- A list of trees holds the nodes of its first tree and those of the others. -/
@[simp] theorem occurrencesIn_cons (e : Expr) (rest : List Expr) :
    occurrencesIn i (e :: rest) = e.occurrences i + occurrencesIn i rest := by rw [occurrencesIn]

/-- Lists of trees put together hold the nodes of both. -/
@[simp] theorem occurrencesIn_append (es others : List Expr) :
    occurrencesIn i (es ++ others) = occurrencesIn i es + occurrencesIn i others := by
  -- By induction on the first list.
  induction es with
  | nil => simp
  | cons e es ih => simp [ih, Nat.add_assoc]

/-- The order of the trees does not matter to the count. -/
@[simp] theorem occurrencesIn_reverse (es : List Expr) :
    occurrencesIn i es.reverse = occurrencesIn i es := by
  induction es with
  | nil => rfl
  -- The first tree comes last, and addition does not mind.
  | cons e es ih => simp [ih, Nat.add_comm]

/-- Trees without a node of the instruction hold none together. -/
theorem occurrencesIn_eq_zero {es : List Expr} (none : ∀ e ∈ es, e.occurrences i = 0) :
    occurrencesIn i es = 0 := by
  -- The count is a sum of zeros.
  induction es with
  | nil => simp
  | cons e es ih =>
    rw [occurrencesIn_cons, none e List.mem_cons_self, ih fun other listed =>
      none other (List.mem_cons_of_mem _ listed)]

/-- Reading a duplicated value back evaluates nothing. -/
@[simp] theorem occurrences_dupLoad {origin : Origin} {id : Nat} {value : Expr} :
    (Expr.unary origin (.dupLoad id) value).occurrences i = 0 := by rw [occurrences]

/-- Storing a duplicated value evaluates that value. -/
@[simp] theorem occurrences_dupStore {origin : Origin} {id : Nat} {value : Expr} :
    (Expr.unary origin (.dupStore id) value).occurrences i = value.occurrences i := by
  simp [occurrences, isNodeOf, isMarker, Unary.isMarker]

/-- Leaving a value on the stack evaluates that value. -/
@[simp] theorem occurrences_leave {origin : Origin} {value : Expr} :
    (Expr.unary origin .leave value).occurrences i = value.occurrences i := by
  simp [occurrences, isNodeOf, isMarker, Unary.isMarker]

/-- A tree holds the node at its root and those of its operands. -/
theorem occurrences_eq (work : e.isMarker = false) :
    e.occurrences i = (e.origin.isOf i).toNat + occurrencesIn i e.operands := by
  -- Only markers are left out of the count or cut off below the root.
  have own : e.isNodeOf i = e.origin.isOf i := by simp [isNodeOf, work]
  cases e with
  | unary origin head value =>
    -- A duplicated value that is read back is a marker.
    cases head <;> first | (simp [occurrences, own, operands]; done) | cases work
  | _ => simp [occurrences, own, operands]

/-- An expression over a value is trivial only if it reads a duplicated one back. -/
theorem isTrivial_unary {origin : Origin} {head : Unary} {value : Expr}
    (work : head.isMarker = false) : (Expr.unary origin head value).isTrivial = false := by
  -- The one head that makes a trivial value is a marker.
  cases head <;> first | rfl | cases work

/-- A node that can be evaluated twice has no operands. -/
theorem operands_of_isTrivial (work : e.isMarker = false) (isTrivial : e.isTrivial = true) :
    e.operands = [] := by
  -- Of the expressions that are no markers, only leaves are trivial.
  cases e with
  | leaf => rfl
  | unary origin head value => cases (isTrivial_unary work).symm.trans isTrivial
  | _ => cases isTrivial

/-- A leaf that stands for a value that was there before is no node of an instruction. -/
theorem occurrences_marker {origin : Origin} {head : Leaf} (marker : head.isMarker = true) :
    (Expr.leaf origin head).occurrences i = 0 := by
  -- A marker is not counted whatever its origin is.
  simp [occurrences, isNodeOf, isMarker, marker]

end Counting

/-- What an instruction makes of the values it takes: a node of its own, with all of them as
operands but for some that have nothing to evaluate. -/
structure Over (origin : Origin) (values : List Expr) (e : Expr) : Prop where
  origin_eq : e.origin = origin
  work : e.isMarker = false
  taken : ∃ dropped, values = e.operands.reverse ++ dropped ∧
    ∀ value ∈ dropped, value.isTrivial = true

/-- A node of an instruction over all values that it takes. -/
theorem Over.all {origin : Origin} {values : List Expr} {e : Expr} (origin_eq : e.origin = origin)
    (work : e.isMarker = false) (taken : values = e.operands.reverse) : e.Over origin values :=
  ⟨origin_eq, work, [],
    by rw [taken, List.append_nil], fun _ listed => absurd listed List.not_mem_nil⟩

end Expr

/-- What an instruction can do to a frame. -/
inductive Instruction.Acts (j : Instruction) : Frame → Frame → Prop
  | nothing {frame : Frame} (idle : j.computes = false) : Acts j frame frame
  /-- It takes values and pushes a node over them; only a free instruction pushes a trivial one. -/
  | push {frame rest : Frame} {values : List Expr} {e : Expr}
      (takes : frame.Takes j.origin values rest) (node : e.Over j.origin values)
      (idle : e.isTrivial = true → j.computes = false) : Acts j frame (rest.push e)
  | emit {frame rest : Frame} {values : List Expr} {e : Expr}
      (takes : frame.Takes j.origin values rest) (node : e.Over j.origin values) :
      Acts j frame (rest.emit e)
  | terminate {frame rest : Frame} {values : List Expr} {e : Expr}
      (takes : frame.Takes j.origin values rest) (node : e.Over j.origin values)
      (ends : j.opcode.endsBlock = true) : Acts j frame (rest.terminate e)
  /-- It takes values and evaluates each for nothing. -/
  | discard {frame rest : Frame} {values : List Expr} (idle : j.computes = false)
      (takes : frame.Takes j.origin values.reverse rest) :
      Acts j frame (values.foldl (fun frame value => frame.emit (.unary j.origin .pop value)) rest)
  /-- It takes values and pushes some of them twice, around the others. -/
  | copy {frame rest : Frame} (values buried : List Expr) (idle : j.computes = false)
      (takes : frame.Takes j.origin (values.reverse ++ buried.reverse) rest) :
      Acts j frame (rest.pushAround j.origin values buried)
  | swap {frame rest : Frame} {top below : Expr} (idle : j.computes = false)
      (takes : frame.Takes j.origin [top, below] rest) : Acts j frame (rest.pushAll [top, below])

namespace Frame

variable {frame rest last : Frame} {origin : Origin} {pool : Option Pool}

/-- The top of a stack is taken by one pop. -/
theorem takes_pop : frame.Takes origin [(frame.pop origin).1] (frame.pop origin).2 := .pop rfl .done

/-- Values are taken one lot after the other. -/
theorem Takes.append {values others : List Expr} (takes : frame.Takes origin values rest)
    (more : rest.Takes origin others last) : frame.Takes origin (values ++ others) last := by
  -- Values are taken from the top, so the rest is taken after the last of the first ones.
  induction takes with
  | done => exact more
  | pop isTop _ ih => exact .pop isTop (ih more)

/-- A further value can be taken from what is left. -/
theorem Takes.append_pop {values : List Expr} (takes : frame.Takes origin values rest) :
    frame.Takes origin (values ++ [(rest.pop origin).1]) (rest.pop origin).2 :=
  takes.append takes_pop

/-- Popping a number of values takes them, the last one first. -/
theorem takes_popMany (origin : Origin) (count : Nat) (frame : Frame) :
    frame.Takes origin (popMany origin count frame).1.reverse (popMany origin count frame).2 := by
  -- By induction on the number of values.
  induction count generalizing frame with
  | zero => exact .done
  | succ count ih =>
    -- The top value comes last in the order of pushing, and first in that of taking.
    simp only [popMany, List.reverse_append, List.reverse_singleton]
    exact takes_pop.append (ih _)

/-- Popping a pair takes two values, or one that is wide. -/
theorem takes_popPair :
    frame.Takes origin (frame.popPair pool origin).1.reverse (frame.popPair pool origin).2 := by
  -- A wide value is taken alone.
  simp only [popPair]
  split
  · exact takes_pop
  · exact takes_pop.append_pop

end Frame

namespace Instruction

variable {j : Instruction} {frame rest : Frame} {pool : Option Pool}

/-- An expression over the top value. -/
theorem over_popUnary (head : Unary) (work : head.isMarker = false) :
    (frame.popUnary j.origin head).1.Over j.origin [(frame.pop j.origin).1] :=
  .all rfl work rfl

/-- Pushing an expression over the top value takes that value. -/
theorem acts_pushUnary {head : Unary} (work : head.isMarker = false) :
    j.Acts frame (frame.pushUnary j.origin head) := by
  -- An expression over a value that is no marker is not trivial.
  refine .push Frame.takes_pop (over_popUnary head work) fun isTrivial => ?_
  cases (Expr.isTrivial_unary work).symm.trans isTrivial

/-- A statement over the top value takes that value. -/
theorem acts_emitUnary {head : Unary} (work : head.isMarker = false) :
    j.Acts frame (frame.emitUnary j.origin head) :=
  .emit Frame.takes_pop (over_popUnary head work)

/-- A terminator over the top value takes that value. -/
theorem acts_terminateUnary {head : Unary} (work : head.isMarker = false)
    (ends : j.opcode.endsBlock = true) : j.Acts frame (frame.terminateUnary j.origin head) :=
  .terminate Frame.takes_pop (over_popUnary head work) ends

/-- An expression over two values takes both, the right one first. -/
theorem takes_popBinary {origin : Origin} (head : Binary) :
    frame.Takes origin (frame.popBinary origin head).1.operands.reverse
      (frame.popBinary origin head).2 :=
  Frame.takes_pop.append_pop

/-- Pushing an expression over two values takes both. -/
theorem acts_pushBinary {head : Binary} : j.Acts frame (frame.pushBinary j.origin head) :=
  .push (takes_popBinary head) (.all rfl rfl rfl) fun isTrivial => by cases isTrivial

/-- A statement over two values takes both. -/
theorem acts_emitBinary {head : Binary} : j.Acts frame (frame.emitBinary j.origin head) :=
  .emit (takes_popBinary head) (.all rfl rfl rfl)

/-- A terminator over two values takes both. -/
theorem acts_terminateBinary {head : Binary} (ends : j.opcode.endsBlock = true) :
    j.Acts frame (frame.terminateBinary j.origin head) :=
  .terminate (takes_popBinary head) (.all rfl rfl rfl) ends

/-- Storing an element takes the value, the index and the array. -/
theorem acts_arrayStore {element : ElementKind} :
    j.Acts frame (frame.arrayStore j.origin element) :=
  .emit Frame.takes_pop.append_pop.append_pop (.all rfl rfl rfl)

/-- A call takes its values and stands for a value or a statement over them. -/
theorem acts_pushCall {values : List Expr} {call : Expr} (returnsValue : Bool)
    (takes : frame.Takes j.origin values rest) (node : call.Over j.origin values)
    (nontrivial : call.isTrivial = false) : j.Acts frame (rest.pushCall call returnsValue) := by
  -- A call stands for a value or for a statement, and is never trivial.
  cases returnsValue with
  | true => exact .push takes node fun isTrivial => by rw [nontrivial] at isTrivial; cases isTrivial
  | false => exact .emit takes node

/-- The creation of an object takes one reference to it, or both that there are. -/
theorem acts_pushCreation {type constructor : PoolIndex} {origin : Origin} {arguments : List Expr}
    (takes : frame.Takes j.origin (arguments.reverse ++ [.leaf origin (.new type)]) rest) :
    j.Acts frame (rest.pushCreation j.origin type constructor arguments) := by
  -- Without a second reference to the object, the creation is a statement.
  have emitted :
      j.Acts frame (rest.emit (.variadic j.origin (.create type constructor) arguments)) := by
    refine .emit takes ⟨rfl, rfl, [.leaf origin (.new type)], rfl, fun value listed => ?_⟩
    cases List.mem_singleton.mp listed
    rfl
  simp only [Frame.pushCreation]
  split
  · next other top below found =>
    -- Only a reference to the same class can be the second one.
    split
    · -- The reference on the stack is the one that the creation replaces.
      have second : rest.Takes j.origin [.leaf other (.new top)] { rest with stack := below } :=
        .pop (by rw [Frame.pop, found]) .done
      refine .push (e := .variadic j.origin (.create type constructor) arguments)
        (takes.append second)
        ⟨rfl, rfl, [.leaf origin (.new type), .leaf other (.new top)], List.append_assoc _ _ _,
          fun value listed => ?_⟩ ?_
      · rcases List.mem_pair.mp listed with rfl | rfl <;> rfl
      · intro isTrivial
        cases isTrivial
    · exact emitted
  · exact emitted

/-- A call takes its arguments, and its receiver if it has one. -/
theorem acts_call {kind : CallKind} {index : PoolIndex} {descriptor : MethodDescriptor}
    {isConstructor : Bool} :
    j.Acts frame (frame.call j.origin kind index descriptor isConstructor) := by
  have takes := Frame.takes_popMany j.origin descriptor.parameters.length frame
  simp only [Frame.call]
  -- A static call has no receiver.
  split
  · exact acts_pushCall _ takes (.all rfl rfl rfl) rfl
  · -- The receiver of a constructor may be a fresh object, which the creation takes along.
    split
    · next isNew => exact acts_pushCreation (isNew ▸ takes.append_pop)
    · exact acts_pushCall _ takes.append_pop (.all rfl rfl (by simp [Expr.operands])) rfl

/-- An instruction that calls acts as a call does. -/
theorem acts_callEffect {kind : CallKind} {f : Frame → Frame}
    (isEffect : j.callEffect pool kind = .ok f) : j.Acts frame (f frame) := by
  -- The index is read before the descriptor, and without either there is no effect.
  obtain ⟨index, -, isEffect⟩ := bind_eq_ok.mp isEffect
  simp only at isEffect
  split at isEffect
  · cases isEffect
    exact acts_call
  · cases isEffect

/-- Every instruction acts on a frame in one of those ways. -/
theorem acts_effect {f : Frame → Frame} (isEffect : j.effect pool = .ok f) :
    j.Acts frame (f frame) := by
  unfold effect at isEffect
  -- An opcode without an operation has no effect at all.
  cases isOperation : j.opcode.operation? with
  | none =>
    rw [isOperation] at isEffect
    cases isEffect
  | some operation =>
    rw [isOperation] at isEffect
    -- Whether the instruction computes and whether it ends its block is read off the operation.
    have idle : operation.isFree = true → j.computes = false := fun isFree => by
      simp [computes, Opcode.satisfies, isOperation, isFree]
    have ends : operation.endsBlock = true → j.opcode.endsBlock = true := fun isEnd => by
      simp [Opcode.endsBlock, Opcode.satisfies, isOperation, isEnd]
    -- A leaf of the instruction takes no values.
    have leaf : ∀ {head : Leaf}, head.isMarker = false →
        (Expr.leaf j.origin head).Over j.origin [] := fun work => .all rfl work rfl
    -- One case per operation, or per group of operations that act in the same way.
    cases operation with
    | nothing | goto =>
      cases isEffect
      exact .nothing (idle rfl)
    | null | int | long | float | double =>
      cases isEffect
      exact .push .done (leaf rfl) fun _ => idle rfl
    | immediate =>
      simp only at isEffect
      split at isEffect <;> cases isEffect
      exact .push .done (leaf rfl) fun _ => idle rfl
    | constant | new | load =>
      obtain ⟨_, -, isEffect⟩ := bind_eq_ok.mp isEffect
      cases isEffect
      exact .push .done (leaf rfl) fun _ => idle rfl
    | getStatic =>
      obtain ⟨_, -, isEffect⟩ := bind_eq_ok.mp isEffect
      cases isEffect
      exact .push .done (leaf rfl) fun isTrivial => by cases isTrivial
    | increment =>
      simp only at isEffect
      split at isEffect <;> cases isEffect
      exact .emit .done (leaf rfl)
    | jsr =>
      simp only at isEffect
      split at isEffect <;> cases isEffect
      exact .terminate .done (leaf rfl) (ends rfl)
    | ret =>
      obtain ⟨_, -, isEffect⟩ := bind_eq_ok.mp isEffect
      cases isEffect
      exact .terminate .done (leaf rfl) (ends rfl)
    | returnVoid =>
      cases isEffect
      exact .terminate .done (leaf rfl) (ends rfl)
    | store | putStatic =>
      obtain ⟨_, -, isEffect⟩ := bind_eq_ok.mp isEffect
      cases isEffect
      exact acts_emitUnary rfl
    | pop | monitor =>
      cases isEffect
      exact acts_emitUnary rfl
    | getField | newObjectArray | checkCast | instanceOf =>
      obtain ⟨_, -, isEffect⟩ := bind_eq_ok.mp isEffect
      cases isEffect
      exact acts_pushUnary rfl
    | newArray =>
      simp only at isEffect
      split at isEffect <;> cases isEffect
      exact acts_pushUnary rfl
    | negate | convert | arrayLength =>
      cases isEffect
      exact acts_pushUnary rfl
    | ifZero | ifNull | switch | returnValue | throw =>
      cases isEffect
      exact acts_terminateUnary rfl (ends rfl)
    | arith | compare | arrayLoad =>
      cases isEffect
      exact acts_pushBinary
    | putField =>
      obtain ⟨_, -, isEffect⟩ := bind_eq_ok.mp isEffect
      cases isEffect
      exact acts_emitBinary
    | ifCompare =>
      cases isEffect
      exact acts_terminateBinary (ends rfl)
    | arrayStore =>
      cases isEffect
      exact acts_arrayStore
    | newMultiArray =>
      simp only at isEffect
      split at isEffect <;> cases isEffect
      exact .push (Frame.takes_popMany ..) (.all rfl rfl rfl) fun isTrivial => by cases isTrivial
    | invoke => exact acts_callEffect isEffect
    | pop2 =>
      cases isEffect
      exact .discard (idle rfl) Frame.takes_popPair
    | dup =>
      cases isEffect
      exact .copy [_] [] (idle rfl) (Frame.takes_pop.append .done)
    | dupX1 =>
      cases isEffect
      exact .copy [_] [_] (idle rfl) Frame.takes_pop.append_pop
    | dupX2 =>
      cases isEffect
      exact .copy [_] _ (idle rfl) (Frame.takes_pop.append Frame.takes_popPair)
    | dup2 =>
      cases isEffect
      exact .copy _ [] (idle rfl) (Frame.takes_popPair.append .done)
    | dup2X1 =>
      cases isEffect
      exact .copy _ [_] (idle rfl) Frame.takes_popPair.append_pop
    | dup2X2 =>
      cases isEffect
      exact .copy _ _ (idle rfl) (Frame.takes_popPair.append Frame.takes_popPair)
    | swap =>
      cases isEffect
      exact .swap (idle rfl) Frame.takes_pop.append_pop

end Instruction

namespace Frame

/-- How many nodes that a frame holds are the node of an instruction. -/
def holdings (i : Instruction) (frame : Frame) : Nat :=
  Expr.occurrencesIn i frame.stack + Expr.occurrencesIn i frame.statements +
    Expr.occurrencesIn i frame.terminator.toList

/-- A frame amid its block, whose values can be copied without copying the node
of an instruction. -/
structure Amid (i : Instruction) (frame : Frame) : Prop where
  free : ∀ value ∈ frame.stack, value.isTrivial = true → value.occurrences i = 0
  unended : frame.terminator = none

variable {i : Instruction} {frame rest : Frame} {origin : Origin} {values : List Expr}

/-- A further statement is held beside what was held before. -/
@[simp] theorem holdings_emit (e : Expr) :
    (frame.emit e).holdings i = frame.holdings i + e.occurrences i := by
  -- The sums differ in the order of their terms.
  simp only [holdings, emit, Expr.occurrencesIn_append, Expr.occurrencesIn_cons,
    Expr.occurrencesIn_nil]
  omega

/-- Further values on the stack are held beside what was held before. -/
@[simp] theorem holdings_pushed (values : List Expr) :
    (frame.pushed values).holdings i = frame.holdings i + Expr.occurrencesIn i values := by
  -- As for a statement, up to the order of the terms.
  simp only [holdings, pushed, Expr.occurrencesIn_append]
  omega

/-- Pushing one value is pushing a list of one. -/
theorem push_eq_pushed (e : Expr) : frame.push e = frame.pushed [e] := rfl

/-- A terminator is held beside what was held before, if there was none. -/
theorem Amid.holdings_terminate (amid : frame.Amid i) (e : Expr) :
    (frame.terminate e).holdings i = frame.holdings i + e.occurrences i := by
  -- Amid a block the place of the terminator is empty.
  simp [holdings, terminate, amid.unended]

/-- A statement leaves the stack and the end of the block alone. -/
theorem Amid.emit (amid : frame.Amid i) (e : Expr) : (frame.emit e).Amid i :=
  ⟨amid.free, amid.unended⟩

/-- Pushing values that are free of the node keeps the frame amid its block. -/
theorem Amid.pushed (amid : frame.Amid i)
    (free : ∀ value ∈ values, value.isTrivial = true → value.occurrences i = 0) :
    (frame.pushed values).Amid i :=
  ⟨fun value listed => (List.mem_append.mp listed).elim (free value) (amid.free value),
    amid.unended⟩

/-- What is taken from a frame is no longer held by it. -/
theorem Takes.holdings_eq (takes : frame.Takes origin values rest) :
    rest.holdings i + Expr.occurrencesIn i values = frame.holdings i := by
  obtain ⟨own, deeper, rfl, stack, isDeeper⟩ := takes.exists_own
  -- A value of an earlier block was not held before, and has no node of an instruction.
  have none : Expr.occurrencesIn i deeper = 0 := by
    refine Expr.occurrencesIn_eq_zero fun e listed => ?_
    obtain ⟨depth, rfl⟩ := isDeeper e listed
    exact Expr.occurrences_marker rfl
  simp only [holdings, stack, takes.kept, Expr.occurrencesIn_append, none]
  omega

/-- What is left and what was taken are as free of the node as the stack was. -/
theorem Amid.of_takes (amid : frame.Amid i) (takes : frame.Takes origin values rest) :
    rest.Amid i ∧ ∀ value ∈ values, value.isTrivial = true → value.occurrences i = 0 := by
  -- Values of earlier blocks are markers, so nothing is known of the stack but its own values.
  obtain ⟨left, taken⟩ := takes.forall_mem amid.free fun _ _ => Expr.occurrences_marker rfl
  exact ⟨⟨left, takes.kept.2.trans amid.unended⟩, taken⟩

/-- Copies of values: the frame holds the values as statements,
and the copies have nothing to evaluate. -/
structure Stores (i : Instruction) (frame : Frame) (values copies : List Expr) (rest : Frame) :
    Prop where
  holdings_eq : rest.holdings i = frame.holdings i + Expr.occurrencesIn i values
  copies_free : ∀ copy ∈ copies, copy.occurrences i = 0
  stack_eq : rest.stack = frame.stack
  terminator_eq : rest.terminator = frame.terminator

/-- Duplicating a value stores it, unless there is nothing in it to evaluate. -/
theorem stores_duplicate (frame : Frame) (origin : Origin) {value : Expr}
    (free : value.isTrivial = true → value.occurrences i = 0) :
    frame.Stores i [value] [(frame.duplicate origin value).1] (frame.duplicate origin value).2 := by
  rw [duplicate]
  split
  · next isTrivial =>
    -- A trivial value is its own copy, as there is nothing in it to evaluate.
    exact ⟨by simp [free isTrivial], by simp [free isTrivial], rfl, rfl⟩
  · -- Any other value becomes a statement, and the copy reads it back.
    refine ⟨?_, by simp, rfl, rfl⟩
    show (frame.emit _).holdings i = _
    simp

/-- Duplicating values stores those that have something to evaluate. -/
theorem stores_duplicateAll (frame : Frame) (origin : Origin)
    (free : ∀ value ∈ values, value.isTrivial = true → value.occurrences i = 0) :
    frame.Stores i values (duplicateAll origin values frame).1
      (duplicateAll origin values frame).2 := by
  -- A stored value is a statement from then on, so the values after it find the same stack.
  induction values generalizing frame with
  | nil => exact ⟨by simp [duplicateAll], by simp [duplicateAll], rfl, rfl⟩
  | cons value values ih =>
    have first := stores_duplicate frame origin (free value List.mem_cons_self)
    have others := ih (frame.duplicate origin value).2 fun other listed =>
      free other (List.mem_cons_of_mem _ listed)
    refine ⟨?_, fun copy listed => ?_, others.stack_eq.trans first.stack_eq,
      others.terminator_eq.trans first.terminator_eq⟩
    · -- The first value is stored before the others, and what they hold adds up.
      refine others.holdings_eq.trans ?_
      rw [first.holdings_eq]
      simp [Nat.add_assoc]
    · -- A copy is that of the first value or of one of the others.
      rcases List.mem_cons.mp listed with rfl | listed
      · exact first.copies_free _ List.mem_cons_self
      · exact others.copies_free copy listed

end Frame

namespace Instruction

variable {i j : Instruction} {frame after : Frame}

/-- An instruction that evaluates nothing is not one that does. -/
theorem isOf_eq_false (computes : i.computes = true) (idle : j.computes = false) :
    j.origin.isOf i = false := by
  -- The opcode alone says whether an instruction computes.
  rw [← Bool.not_eq_true]
  intro same
  have sameOpcode : j.opcode = i.opcode := beq_iff_eq.mp (Bool.and_eq_true_iff.mp same).1
  rw [Instruction.computes, sameOpcode] at idle
  exact Bool.false_ne_true (idle.symm.trans computes)

/-- The node that an instruction puts over values adds itself to what they held. -/
theorem occurrences_of_over {values : List Expr} {e : Expr} (node : e.Over j.origin values)
    (free : ∀ value ∈ values, value.isTrivial = true → value.occurrences i = 0) :
    e.occurrences i = Expr.occurrencesIn i values + (j.origin.isOf i).toNat := by
  -- What is dropped is trivial, like the reference to a fresh object that its creation replaces.
  obtain ⟨dropped, rfl, trivial⟩ := node.taken
  have none : Expr.occurrencesIn i dropped = 0 := Expr.occurrencesIn_eq_zero fun value listed =>
    free value (List.mem_append_right _ listed) (trivial value listed)
  rw [Expr.occurrences_eq node.work, node.origin_eq]
  simp [none, Nat.add_comm]

/-- Discarding values makes each of them a statement. -/
theorem holdings_discard (idle : j.origin.isOf i = false) (values : List Expr) (frame : Frame) :
    (values.foldl (fun frame value => frame.emit (.unary j.origin .pop value)) frame).holdings i =
      frame.holdings i + Expr.occurrencesIn i values := by
  -- By induction on the values: a `pop` node is not counted, so each statement
  -- holds what its value held.
  induction values generalizing frame with
  | nil => simp
  | cons value values ih =>
    have popped : (Expr.unary j.origin .pop value).occurrences i = value.occurrences i := by
      rw [Expr.occurrences_eq rfl]
      simp [Expr.origin, Expr.operands, idle]
    rw [List.foldl_cons, ih, Frame.holdings_emit, popped, Expr.occurrencesIn_cons, Nat.add_assoc]

/-- Discarding values leaves the stack and the end of the block alone. -/
theorem amid_discard (amid : frame.Amid i) (values : List Expr) :
    (values.foldl (fun frame value => frame.emit (.unary j.origin .pop value)) frame).Amid i :=
  -- Each discarded value is one more statement.
  List.foldlRecOn values _ amid fun _ amid _ _ => amid.emit _

/-- Pushing values twice holds them once, as far as there is something to evaluate in them. -/
theorem pushAround_holdings_amid (amid : frame.Amid i) {values buried : List Expr} (origin : Origin)
    (free : ∀ value ∈ values.reverse ++ buried.reverse, value.isTrivial = true →
      value.occurrences i = 0) :
    (frame.pushAround origin values buried).Amid i ∧
      (frame.pushAround origin values buried).holdings i =
      frame.holdings i + (Expr.occurrencesIn i values + Expr.occurrencesIn i buried) := by
  have stores := Frame.stores_duplicateAll frame origin fun value listed =>
    free value (List.mem_append_left _ (List.mem_reverse.mpr listed))
  have none := Expr.occurrencesIn_eq_zero stores.copies_free
  have amidStored : (Frame.duplicateAll origin values frame).2.Amid i :=
    ⟨stores.stack_eq ▸ amid.free, stores.terminator_eq.trans amid.unended⟩
  simp only [Frame.pushAround, Frame.pushAll_eq]
  -- The values are held once, by the statements that store them, and the copies hold nothing.
  constructor
  · refine amidStored.pushed fun value listed => ?_
    rw [List.mem_reverse, List.append_assoc] at listed
    -- Pushed are the copies, the buried values and the copies once more.
    rcases List.mem_append.mp listed with isCopy | listed
    · exact fun _ => stores.copies_free value isCopy
    · rcases List.mem_append.mp listed with isBuried | isCopy
      · exact free value (List.mem_append_right _ (List.mem_reverse.mpr isBuried))
      · exact fun _ => stores.copies_free value isCopy
  · rw [Frame.holdings_pushed, stores.holdings_eq]
    simp [none, Nat.add_assoc]

/-- One instruction adds its own node to what a frame holds, and nothing else. -/
theorem Acts.holdings_eq (acts : j.Acts frame after) (computes : i.computes = true)
    (amid : frame.Amid i) : after.holdings i = frame.holdings i + (j.origin.isOf i).toNat := by
  -- One case per kind of action: what is taken is still held, and a node adds itself.
  cases acts with
  | nothing idle => simp [isOf_eq_false computes idle]
  | push takes node idle =>
    -- What the node takes moves from the frame into the node, which adds itself.
    obtain ⟨-, free⟩ := amid.of_takes takes
    rw [Frame.push_eq_pushed, Frame.holdings_pushed, Expr.occurrencesIn_cons,
      Expr.occurrencesIn_nil, occurrences_of_over node free, ← takes.holdings_eq, Nat.add_zero,
      Nat.add_assoc]
  -- A statement holds the node in the same way.
  | emit takes node =>
    obtain ⟨-, free⟩ := amid.of_takes takes
    rw [Frame.holdings_emit, occurrences_of_over node free, ← takes.holdings_eq, Nat.add_assoc]
  -- So does a terminator, of which there was none.
  | terminate takes node ends =>
    obtain ⟨left, free⟩ := amid.of_takes takes
    rw [left.holdings_terminate, occurrences_of_over node free, ← takes.holdings_eq, Nat.add_assoc]
  | discard idle takes =>
    -- Discarded values stay as statements, so they are still evaluated.
    have other := isOf_eq_false computes idle
    rw [holdings_discard other, ← takes.holdings_eq, Expr.occurrencesIn_reverse, other]
    rfl
  -- The copies hold nothing, and what they are copies of is stored once.
  | copy values buried idle takes =>
    obtain ⟨left, free⟩ := amid.of_takes takes
    rw [(pushAround_holdings_amid left j.origin free).2, ← takes.holdings_eq,
      isOf_eq_false computes idle]
    simp
  -- Both values are still there, in the other order.
  | swap idle takes =>
    rw [Frame.pushAll_eq, Frame.holdings_pushed, ← takes.holdings_eq, isOf_eq_false computes idle]
    simp [Nat.add_comm]

/-- Only the end of a block leaves its frame other than amid the block. -/
theorem Acts.amid (acts : j.Acts frame after) (computes : i.computes = true)
    (plain : j.opcode.endsBlock = false) (amid : frame.Amid i) : after.Amid i := by
  -- Only an instruction that ends its block sets a terminator.
  cases acts with
  | nothing idle => exact amid
  | push takes node idle =>
    obtain ⟨left, free⟩ := amid.of_takes takes
    rw [Frame.push_eq_pushed]
    refine left.pushed fun value listed isTrivial => ?_
    -- A trivial node is a leaf, and the instruction that pushes it is not the counted one.
    cases List.mem_singleton.mp listed
    rw [Expr.occurrences_eq node.work, node.origin_eq, isOf_eq_false computes (idle isTrivial),
      Expr.operands_of_isTrivial node.work isTrivial]
    simp
  | emit takes node => exact (amid.of_takes takes).1.emit _
  | terminate takes node ends => cases plain.symm.trans ends
  | discard idle takes => exact amid_discard (amid.of_takes takes).1 _
  | copy values buried idle takes =>
    obtain ⟨left, free⟩ := amid.of_takes takes
    exact (pushAround_holdings_amid left j.origin free).1
  | swap idle takes =>
    obtain ⟨left, free⟩ := amid.of_takes takes
    rw [Frame.pushAll_eq]
    exact left.pushed fun value listed => free value (by simpa [or_comm] using listed)

end Instruction

/-- Running code adds the nodes of its instructions to what a frame holds, one for each of them. -/
theorem Frame.holdings_run {i : Instruction} {pool : Option Pool} {code : List Instruction}
    {frame after : Frame} (computes : i.computes = true)
    (plain : ∀ j ∈ code.dropLast, j.opcode.endsBlock = false) (amid : frame.Amid i)
    (ran : frame.run pool code = .ok after) :
    after.holdings i = frame.holdings i + code.countP (·.origin.isOf i) := by
  -- By induction on the code: all but the last instruction leave the frame amid its block.
  induction code generalizing frame with
  -- Without code nothing is added.
  | nil =>
    cases ran
    simp
  | cons j rest ih =>
    obtain ⟨f, isEffect, ran⟩ := bind_eq_ok.mp ran
    have acts : j.Acts frame (f frame) := Instruction.acts_effect isEffect
    cases rest with
    | nil =>
      -- The last instruction may end the block.
      cases ran
      rw [acts.holdings_eq computes amid, List.countP_singleton]
      cases j.origin.isOf i <;> rfl
    | cons second rest =>
      have amidNext := acts.amid computes (plain j List.mem_cons_self) amid
      rw [ih (fun other listed => plain other (List.mem_cons_of_mem _ listed)) amidNext ran,
        acts.holdings_eq computes amid, List.countP_cons (l := second :: rest), Nat.add_assoc,
        Nat.add_comm (Bool.toNat _)]
      cases j.origin.isOf i <;> rfl

/-- The expressions of a block are those that its frame holds. -/
theorem Frame.occurrencesIn_expressions (i : Instruction) (frame : Frame) :
    Expr.occurrencesIn i frame.expressions = frame.holdings i := by
  -- A value that is left on the stack is wrapped in a marker, which is not counted.
  have left : ∀ stack : List Expr, Expr.occurrencesIn i
      (stack.map fun value => .unary value.origin .leave value) =
      Expr.occurrencesIn i stack := by
    intro stack
    induction stack with
    | nil => rfl
    | cons value stack ih => simp [ih]
  simp only [expressions, holdings, Expr.occurrencesIn_append, left, Expr.occurrencesIn_reverse]
  omega

section Runs

variable {m : Method} {pool : Option Pool}

/-- A run of a method starts amid its block with nothing to evaluate. -/
theorem Frame.amid_entered (i : Instruction) (head : Instruction) (nextDup : Nat) :
    Frame.Amid i { stack := (m.thrown? head).toList, nextDup } ∧
      Frame.holdings i { stack := (m.thrown? head).toList, nextDup } = 0 := by
  -- The exception that a handler starts with is a marker.
  rw [Method.thrown?]
  -- A block that is no handler starts with an empty stack.
  cases m.exceptions.find? (·.handler == head.offset) with
  | none =>
    exact ⟨⟨fun value listed => absurd listed List.not_mem_nil, rfl⟩, by simp [Frame.holdings]⟩
  | some row =>
    have none : (Expr.leaf head.origin (.caught row.catchType)).occurrences i = 0 :=
      Expr.occurrences_marker rfl
    refine ⟨⟨fun value listed _ => ?_, rfl⟩, by simp [Frame.holdings, none]⟩
    cases List.mem_singleton.mp listed
    exact none

/-- The expressions that a run of a method becomes hold one node for each
of its instructions with something to evaluate. -/
theorem Run.occurrencesIn_expressions {run : Run} (listed : run ∈ m.runs) {i : Instruction}
    (computes : i.computes = true) {nextDup : Nat} {frame : Frame}
    (ran : Frame.run { stack := (m.thrown? run.head).toList, nextDup } pool run.code = .ok frame) :
    Expr.occurrencesIn i frame.expressions = run.code.countP (·.origin.isOf i) := by
  -- Blocks are cut behind every instruction that ends one, so only the last of a run does.
  obtain ⟨amid, empty⟩ := Frame.amid_entered (m := m) i run.head nextDup
  have cut : ∀ offset ∈ followers m.code, offset ∈ m.leaders := fun offset isFollower => by
    simp [Method.leaders, isFollower]
  rw [Frame.occurrencesIn_expressions,
    Frame.holdings_run computes (Run.plain_of_mem_split cut listed) amid ran, empty, Nat.zero_add]

/-- An instruction of a method stands at most once in a run, and no other one has its offset. -/
theorem Run.countP_isOf {run : Run} (listed : run ∈ m.runs) (ordered : m.offsets.Pairwise (· < ·))
    {i : Instruction} (isCode : i ∈ m.code) :
    run.code.countP (·.origin.isOf i) = if i ∈ run.code then 1 else 0 := by
  -- Offsets increase along the code, so they tell its instructions apart.
  have inside : run.code.Sublist m.code := by
    rw [← Run.flatMap_code_split m.leaders m.code]
    exact List.sublist_flatten_of_mem (List.mem_map.mpr ⟨run, listed, rfl⟩)
  have distinct : m.offsets.Nodup := ordered.imp fun less => UInt32.ne_of_lt less
  -- So an origin names an instruction exactly if it is that instruction.
  have same : ∀ j ∈ run.code, j.origin.isOf i = true ↔ (j == i) = true := by
    intro j isListed
    rw [beq_iff_eq]
    constructor
    · intro isOf
      have sameOffset : j.offset = i.offset := beq_iff_eq.mp (Bool.and_eq_true_iff.mp isOf).2
      exact List.inj_on_of_nodup_map distinct (inside.subset isListed) isCode sameOffset
    · rintro rfl
      simp [Origin.isOf, Instruction.origin]
  rw [List.countP_congr same]
  exact (distinct.of_map _ |>.sublist inside).count

/-- A run becomes the expressions of its simulation. -/
theorem Run.code_toBlocks {blockAt : Offset → Option BlockId} {runs : List Run} {id nextDup : Nat}
    {blocks : List Block} (made : Run.toBlocks m pool blockAt runs id nextDup = .ok blocks)
    {k : Nat} {run : Run} (found : runs[k]? = some run) :
    ∃ b nextDup frame, blocks[k]? = some b ∧
      Frame.run { stack := (m.thrown? run.head).toList, nextDup } pool run.code = .ok frame ∧
        b.code = frame.expressions := by
  -- Each run is simulated from a frame of its own, and only the number
  -- of duplicated values is handed on.
  induction runs generalizing id nextDup blocks k with
  | nil => cases found
  | cons first rest ih =>
    obtain ⟨b, frame, others, rfl, ran, linked, later⟩ := toBlocks_cons_eq_ok made
    cases k with
    | zero =>
      cases found
      exact ⟨b, _, frame, rfl, ran, (Block.linked_kept linked).2.2.2⟩
    | succ k => exact ih later found

end Runs

namespace Graph

variable {g h : Graph} {m : Method} {pool : Option Pool} {options : BuildOptions}

/-- Entering a protected range keeps the expressions of a block. -/
theorem Protects.code_eq {first id : BlockId} {entry : Block} {accept : BlockId → Bool}
    (protects : Protects g first entry accept h) (old : id < g.size) :
    (h.bare id).code = (g.bare id).code := by
  -- The redirection of a block replaces targets, and its code is no target.
  rw [protects.others id (Nat.ne_of_lt old)]
  split <;> rfl

/-- The blocks of a graph hold the expressions of the runs of its method. -/
theorem code_of_build (made : build m pool options = .ok g) {k : Nat} {run : Run}
    (found : m.runs[k]? = some run) :
    ∃ nextDup frame, Frame.run { stack := (m.thrown? run.head).toList, nextDup } pool run.code =
      .ok frame ∧ (g.block (k + 1)).code = frame.expressions := by
  obtain ⟨faultless, blocks, h, isBlocks, isProtected, rfl⟩ := build_cases made
  obtain ⟨length, regular⟩ := regular_of_toBlocks faultless isBlocks
  obtain ⟨b, nextDup, frame, isBlock, ran, isCode⟩ := Run.code_toBlocks isBlocks found
  refine ⟨nextDup, frame, ran, ?_⟩
  -- Neither the entries of ranges nor pruning touch the expressions of a block.
  obtain ⟨-, -, kept⟩ := foldlM_protect_induction
    (motive := fun mid => k + 1 < mid.size ∧ (mid.bare (k + 1)).code = frame.expressions)
    regular.toLinked (fun offset id => blockAt?_lt_size length)
    ⟨by simpa [ofBlocks, Graph.size, relink] using (List.getElem?_eq_some_iff.mp isBlock).1,
      by rw [bare_ofBlocks_succ, isBlock]; exact isCode⟩
    (fun _ kept _ protects =>
      ⟨protects.size ▸ Nat.lt_succ_of_lt kept.1, (protects.code_eq kept.1).trans kept.2⟩)
      isProtected
  show (h.prune.bare (k + 1)).code = _
  rw [bare_prune]
  split <;> exact kept

/-- No operation is dropped or evaluated twice: of the blocks that the runs of a method become, the
one whose run an instruction belongs to holds its node once, and the others do not hold it. -/
theorem occurrencesIn_of_build (made : build m pool options = .ok g) {k : Nat} {run : Run}
    (found : m.runs[k]? = some run) {i : Instruction} (isCode : i ∈ m.code)
    (computes : i.computes = true) :
    (g.block (k + 1)).isCode = true ∧ (g.block (k + 1)).start = run.head.offset ∧
      Expr.occurrencesIn i (g.block (k + 1)).code = if i ∈ run.code then 1 else 0 := by
  -- The layout names the block of the run, and the simulation
  -- of the run counts what the block holds.
  have covered := covered_of_build made
  have laid := Method.fault?_eq_none_iff.mp (build_cases made).1
  have listed := List.mem_of_getElem? found
  have bound := (List.getElem?_eq_some_iff.mp found).1
  obtain ⟨nextDup, frame, ran, same⟩ := code_of_build made found
  refine ⟨(covered.numbered (k + 1)).mpr ⟨Nat.succ_pos k, bound⟩, (covered.spans k run found).1, ?_⟩
  rw [same, Run.occurrencesIn_expressions listed computes ran,
    Run.countP_isOf listed laid.ordered isCode]

/-- A method that stores a new object twice: `new; dup; invokespecial; dup; astore_1;
astore_2; return`. -/
def storesTwice : Method where
  code := [⟨0, ⟨187⟩, .pool 2, none⟩, ⟨3, ⟨89⟩, .absent, none⟩, ⟨4, ⟨183⟩, .pool 6, none⟩,
    ⟨7, ⟨89⟩, .absent, none⟩, ⟨8, ⟨76⟩, .absent, none⟩, ⟨9, ⟨77⟩, .absent, none⟩,
    ⟨10, ⟨177⟩, .absent, none⟩]
  codeLength := 11

/-- A pool with the constructor that is called there. -/
def creator : Pool := (({} : Pool).internMethod "A" "<init>" "()V").2

/-- The object is created once, although the second duplicate carries its creation along twice. -/
theorem storesTwice_creates_once : ∃ g run i, build storesTwice (some creator) {} = .ok g ∧
    storesTwice.runs[0]? = some run ∧ i ∈ run.code ∧ i.opcode = ⟨183⟩ ∧ i.computes = true ∧
      Expr.occurrencesIn i (g.block 1).code = 1 := by
  -- The method is accepted, and its first run starts at the creation.
  have accepted : (build storesTwice (some creator) {}).isOk = true := by decide +kernel
  have isRun : storesTwice.runs[0]? = some ⟨⟨0, ⟨187⟩, .pool 2, none⟩, storesTwice.code.tail⟩ := by
    decide +kernel
  cases made : build storesTwice (some creator) {} with
  | error fault =>
    rw [made] at accepted
    cases accepted
  | ok g =>
    exact ⟨g, _, ⟨4, ⟨183⟩, .pool 6, none⟩, rfl, isRun, by decide, rfl, by decide,
      (occurrencesIn_of_build made isRun (by decide) (by decide)).2.2⟩

end Graph

end Unjump
