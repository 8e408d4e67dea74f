import Unjump.Proofs.Descriptor
import Unjump.Proofs.Evaluation

/-!
Which values of a simulated block take two stack slots.

A machine that knows the kinds of the values on its stack and nothing else can tell which of them
are wide, and so which form of `pop2` or `dup2` it is to take. The simulation has expressions on its
stack instead and goes by the types that it infers for them. In straight code both agree
after every instruction.
-/

namespace Unjump

/-! ### Kinds -/

/-- Whether values of a kind take two stack slots. -/
def ValueKind.isWide : ValueKind → Bool
  | .long | .double => true
  | .int | .float | .reference => false

/-- The kind that an array element has on the stack. -/
def ElementKind.kind : ElementKind → ValueKind
  | .int | .byte | .char | .short => .int
  | .long => .long
  | .float => .float
  | .double => .double
  | .reference => .reference

/-- The kind of the right operand of an operator, which for a shift is a distance. -/
def ArithOp.rightKind (kind : ValueKind) : ArithOp → ValueKind
  | .shl | .shr | .ushr => .int
  | _ => kind

/-- The kind of the values of a type, which its first character tells. -/
def Signature.kind (type : Signature) : ValueKind :=
  match type.text.toList with
  | 'J' :: _ => .long
  | 'F' :: _ => .float
  | 'D' :: _ => .double
  | 'L' :: _ | '[' :: _ => .reference
  | _ => .int

/-- The kind of value that loading a constant pushes. -/
def Constant.kind? : Constant → Option ValueKind
  | .integer _ => some .int
  | .long _ => some .long
  | .float _ => some .float
  | .double _ => some .double
  | .string _ | .classRef _ | .methodType _ | .methodHandle _ _ => some .reference
  | _ => none

/-- The kind of number that a conversion or a comparison reads, which its mnemonic starts with. -/
def Opcode.numberKind? (opcode : Opcode) : Option ValueKind :=
  match opcode.mnemonic?.bind (·.toList.head?) with
  | some 'i' => some .int
  | some 'l' => some .long
  | some 'f' => some .float
  | some 'd' => some .double
  | _ => none

namespace MethodDescriptor

/-- The kinds of what a call takes off the stack: its arguments, the last of them on top,
and its receiver. -/
def takenKinds (descriptor : MethodDescriptor) (kind : CallKind) : List ValueKind :=
  (descriptor.parameters.map Signature.kind).reverse ++
    if kind.isReceiverless then [] else [.reference]

/-- The kind of what a call puts on the stack, if it returns a value. -/
def givenKinds (descriptor : MethodDescriptor) : List ValueKind :=
  if descriptor.returnsValue then [descriptor.returnType.kind] else []

end MethodDescriptor

/-! ### The machine -/

/-- What an instruction for two stack slots works on: one wide value or two others. -/
inductive IsPair : List ValueKind → Prop where
  | wide {kind : ValueKind} (isWide : kind.isWide = true) : IsPair [kind]
  | narrow {top below : ValueKind} (isNarrow : top.isWide = false)
      (isNarrow' : below.isWide = false) : IsPair [top, below]

/-- The kinds that an operation copies, and those below them that it puts the copies under,
both from the top down. -/
inductive Operation.Copies : Operation → List ValueKind → List ValueKind → Prop where
  | dup {top : ValueKind} (isNarrow : top.isWide = false) : Copies .dup [top] []
  | dupX1 {top below : ValueKind} (isNarrow : top.isWide = false)
      (isNarrow' : below.isWide = false) : Copies .dupX1 [top] [below]
  | dupX2 {top : ValueKind} {buried : List ValueKind} (isNarrow : top.isWide = false)
      (isPair : IsPair buried) : Copies .dupX2 [top] buried
  | dup2 {kinds : List ValueKind} (isPair : IsPair kinds) : Copies .dup2 kinds []
  | dup2X1 {kinds : List ValueKind} {below : ValueKind} (isPair : IsPair kinds)
      (isNarrow : below.isWide = false) : Copies .dup2X1 kinds [below]
  | dup2X2 {kinds buried : List ValueKind} (isPair : IsPair kinds) (isPair' : IsPair buried) :
      Copies .dup2X2 kinds buried

/-- What an instruction that does not end its block takes off the stack and what it puts there
instead, both from the top down. -/
inductive Instruction.Exchanges (pool : Pool) (i : Instruction) :
    Operation → List ValueKind → List ValueKind → Prop where
  | nothing : Exchanges pool i .nothing [] []
  | null : Exchanges pool i .null [] [.reference]
  | int {value : Int32} : Exchanges pool i (.int value) [] [.int]
  | long {value : Int64} : Exchanges pool i (.long value) [] [.long]
  | float {value : Single} : Exchanges pool i (.float value) [] [.float]
  | double {value : Double} : Exchanges pool i (.double value) [] [.double]
  | immediate {value : Int32} (isOperand : i.operand = .int value) :
      Exchanges pool i .immediate [] [.int]
  | constant {index : PoolIndex} {entry : Constant} {kind : ValueKind}
      (isIndex : i.poolIndex = .ok index) (isEntry : pool.get? index = some entry)
      (isKind : entry.kind? = some kind) : Exchanges pool i .constant [] [kind]
  | load {kind : ValueKind} {implied : Option Slot} {slot : Slot}
      (isSlot : i.slotOr implied = .ok slot) : Exchanges pool i (.load kind implied) [] [kind]
  | store {kind : ValueKind} {implied : Option Slot} {slot : Slot}
      (isSlot : i.slotOr implied = .ok slot) : Exchanges pool i (.store kind implied) [kind] []
  | increment {slot : Slot} {delta : Int16} (isOperand : i.operand = .increment slot delta) :
      Exchanges pool i .increment [] []
  | arrayLoad {element : ElementKind} :
      Exchanges pool i (.arrayLoad element) [.int, .reference] [element.kind]
  | arrayStore {element : ElementKind} :
      Exchanges pool i (.arrayStore element) [element.kind, .int, .reference] []
  | arrayLength : Exchanges pool i .arrayLength [.reference] [.int]
  | arith {op : ArithOp} {kind : ValueKind} :
      Exchanges pool i (.arith op kind) [op.rightKind kind, kind] [kind]
  | negate {kind : ValueKind} : Exchanges pool i (.negate kind) [kind] [kind]
  | convert {source : ValueKind} {target : Signature}
      (isSource : i.opcode.numberKind? = some source) :
      Exchanges pool i (.convert target) [source] [target.kind]
  | compare {source : ValueKind} (isSource : i.opcode.numberKind? = some source) :
      Exchanges pool i .compare [source, source] [.int]
  | pop {top : ValueKind} (isNarrow : top.isWide = false) : Exchanges pool i .pop [top] []
  | pop2 {kinds : List ValueKind} (isPair : IsPair kinds) : Exchanges pool i .pop2 kinds []
  | swap {top below : ValueKind} (isNarrow : top.isWide = false)
      (isNarrow' : below.isWide = false) : Exchanges pool i .swap [top, below] [below, top]
  | copy {operation : Operation} {kinds buried : List ValueKind}
      (copies : operation.Copies kinds buried) :
      Exchanges pool i operation (kinds ++ buried) (kinds ++ buried ++ kinds)
  | getStatic {index : PoolIndex} {type : Signature} (isIndex : i.poolIndex = .ok index)
      (isField : pool.memberDescriptor? index = some type.text)
      (isType : IsFieldType type.text.toList) : Exchanges pool i .getStatic [] [type.kind]
  | putStatic {index : PoolIndex} {type : Signature} (isIndex : i.poolIndex = .ok index)
      (isField : pool.memberDescriptor? index = some type.text)
      (isType : IsFieldType type.text.toList) : Exchanges pool i .putStatic [type.kind] []
  | getField {index : PoolIndex} {type : Signature} (isIndex : i.poolIndex = .ok index)
      (isField : pool.memberDescriptor? index = some type.text)
      (isType : IsFieldType type.text.toList) : Exchanges pool i .getField [.reference] [type.kind]
  | putField {index : PoolIndex} {type : Signature} (isIndex : i.poolIndex = .ok index)
      (isField : pool.memberDescriptor? index = some type.text)
      (isType : IsFieldType type.text.toList) :
      Exchanges pool i .putField [type.kind, .reference] []
  | invoke {kind : CallKind} {index : PoolIndex} {descriptor : MethodDescriptor}
      (isIndex : i.poolIndex = .ok index)
      (isMethod : pool.memberDescriptor? index = some descriptor.text)
      (isGrammatical : descriptor.IsGrammatical) :
      Exchanges pool i (.invoke kind) (descriptor.takenKinds kind) descriptor.givenKinds
  | new {type : PoolIndex} (isIndex : i.poolIndex = .ok type) :
      Exchanges pool i .new [] [.reference]
  | newArray {code : UInt8} (isOperand : i.operand = .arrayType code) :
      Exchanges pool i .newArray [.int] [.reference]
  | newObjectArray {type : PoolIndex} (isIndex : i.poolIndex = .ok type) :
      Exchanges pool i .newObjectArray [.int] [.reference]
  | newMultiArray {type : PoolIndex} {dimensions : UInt8}
      (isOperand : i.operand = .multiArray type dimensions) :
      Exchanges pool i .newMultiArray (List.replicate dimensions.toNat .int) [.reference]
  | checkCast {type : PoolIndex} (isIndex : i.poolIndex = .ok type) :
      Exchanges pool i .checkCast [.reference] [.reference]
  | instanceOf {type : PoolIndex} (isIndex : i.poolIndex = .ok type) :
      Exchanges pool i .instanceOf [.reference] [.int]
  | monitor {action : MonitorAction} : Exchanges pool i (.monitor action) [.reference] []

/-- The runs of a machine that checks the kinds of what it takes off its stack: its stack before
some straight code, the code, and its stack behind it. -/
inductive Accepts (pool : Pool) : List ValueKind → List Instruction → List ValueKind → Prop where
  | done {kinds : List ValueKind} : Accepts pool kinds [] kinds
  | step {i : Instruction} {rest : List Instruction} {operation : Operation}
      {taken given below kinds : List ValueKind}
      (isOperation : i.opcode.operation? = some operation)
      (exchanges : i.Exchanges pool operation taken given)
      (later : Accepts pool (given ++ below) rest kinds) :
      Accepts pool (taken ++ below) (i :: rest) kinds

/-! ### What the simulation may meet -/

namespace Frame

/-- Whether a load of references or bytes finds no array whose inferred type has longs
or doubles for elements. -/
def elementsFit (pool : Pool) (frame : Frame) (i : Instruction) : Bool :=
  match i.opcode.operation? with
  | some (.arrayLoad .reference) | some (.arrayLoad .byte) =>
    frame.stack[1]?.all fun array => (array.type? (some pool) none).all fun type =>
      type != .arrayOf .long && type != .arrayOf .double
  | _ => true

/-- Whether the constructor that is called on a fresh object returns nothing. -/
def constructsVoid (pool : Pool) (frame : Frame) (i : Instruction) : Bool :=
  match i.opcode.operation?, i.poolIndex with
  | some (.invoke .special), .ok index =>
    pool.memberName? index != some "<init>" ||
      ((pool.memberDescriptor? index).bind MethodDescriptor.parse?).all fun descriptor =>
        match frame.stack[descriptor.parameters.length]? with
        | some (.leaf _ (.new _)) => !descriptor.returnsValue
        | _ => true
  | _, _ => true

/-- Whether a test holds of each instruction of a simulated run and the frame that it finds. -/
def throughout (pool : Pool) (test : Frame → Instruction → Bool) : Frame → List Instruction → Bool
  | _, [] => true
  | frame, i :: rest => test frame i && match i.effect (some pool) with
    | .ok effect => (effect frame).throughout pool test rest
    | .error _ => true

end Frame

/-! ### Types -/

namespace Signature

variable {type : Signature}

/-- The wide types are those of longs and doubles. -/
theorem isWide_iff : type.isWide = true ↔ type.text.toList = ['J'] ∨ type.text.toList = ['D'] := by
  -- A type is told by the characters of its text.
  have named : ∀ text : String, type = ⟨text⟩ ↔ type.text.toList = text.toList := fun text => by
    cases type
    simp [String.toList_inj]
  simp only [isWide, long, double, Bool.or_eq_true, beq_iff_eq, named]
  exact Iff.rfl

/-- No class and no array takes two stack slots. -/
theorem isWide_of_isReference (isReference : type.isReference = true) : type.isWide = false := by
  -- A class starts with `L` and an array with a bracket, which neither wide type does.
  refine Bool.eq_false_iff.mpr fun isWide => ?_
  rcases isWide_iff.mp isWide with isText | isText <;>
    simp [Signature.isReference, isArray, isText] at isReference

/-- The type of a value tells its width as its kind does. -/
theorem isWide_eq_isWide_kind (isType : IsFieldType type.text.toList) :
    type.isWide = type.kind.isWide := by
  -- In a field type, `J` and `D` can only come first when they stand alone.
  rw [Bool.eq_iff_iff, isWide_iff, kind]
  generalize type.text.toList = text at isType ⊢
  cases isType with
  -- The primitive types are gone through one by one.
  | primitive known =>
    simp only [List.mem_cons, List.not_mem_nil, or_false] at known
    rcases known with rfl | rfl | rfl | rfl | rfl | rfl | rfl | rfl <;> simp [ValueKind.isWide]
  | object | array => simp [ValueKind.isWide]

/-- The type that is adopted from one of two narrow values is narrow. -/
theorem isWide_or {type other : Option Signature} (narrow : type.any isWide = false)
    (narrow' : other.any isWide = false) : (type.or other).any isWide = false := by
  -- The first type is adopted if there is one.
  cases type with
  | none => exact narrow'
  | some => exact narrow

/-- The elements of arrays are narrow, but for two types of arrays. -/
theorem isWide_element? (long : type ≠ arrayOf .long) (double : type ≠ arrayOf .double) :
    type.element?.any isWide = false := by
  -- The text of a type determines the type.
  have named : ∀ {text : List Char}, type.text.toList = text → type = ⟨String.ofList text⟩ := by
    rintro text rfl
    rw [String.ofList_toList]
  rw [element?]
  split
  · next element isText =>
    -- A wide element leaves one of two texts for the array.
    refine Bool.eq_false_iff.mpr fun isWide => ?_
    rcases isWide_iff.mp isWide with isElement | isElement
    · rw [String.toList_ofList] at isElement
      exact long (named (isText.trans (congrArg _ isElement)))
    · rw [String.toList_ofList] at isElement
      exact double (named (isText.trans (congrArg _ isElement)))
  · rfl

/-- The type of an array is a reference type. -/
theorem isReference_arrayOf (type : Signature) : type.arrayOf.isReference = true := by
  simp [isReference, isArray, arrayOf]

/-- An array is narrow, whatever its elements are. -/
theorem isWide_map_arrayOf (type : Option Signature) : (type.map arrayOf).any isWide = false := by
  -- An unknown type counts as narrow, and an array is a reference.
  cases type with
  | none => rfl
  | some type => exact isWide_of_isReference (isReference_arrayOf type)

/-- The type of a class is a reference type. -/
theorem isReference_ofClassName (name : String) : (ofClassName name).isReference = true := by
  -- The name of an array class is its type already, and any other name is wrapped in one.
  rw [ofClassName]
  split
  · next isArray => simp [isReference, Signature.isArray, isArray]
  · simp [isReference]

end Signature

/-- A class that the pool names is narrow. -/
theorem Pool.isWide_classType? (pool : Pool) (index : PoolIndex) :
    (pool.classType? index).any Signature.isWide = false := by
  -- A class is a reference type, whatever its name, and references are narrow.
  rw [classType?]
  cases pool.className? index with
  | none => rfl
  | some name => exact Signature.isWide_of_isReference (Signature.isReference_ofClassName name)

/-- A field is as wide as the kind of its type. -/
theorem Pool.isWide_memberDescriptor? {pool : Pool} {index : PoolIndex} {type : Signature}
    (isField : pool.memberDescriptor? index = some type.text)
    (isType : IsFieldType type.text.toList) :
    ((pool.memberDescriptor? index).map Signature.mk).any Signature.isWide = type.kind.isWide := by
  rw [isField]
  exact Signature.isWide_eq_isWide_kind isType

/-- What a method returns is typed by its descriptor. -/
theorem Pool.isWide_returnType? {pool : Pool} {index : PoolIndex} {descriptor : MethodDescriptor}
    (isMethod : pool.memberDescriptor? index = some descriptor.text)
    (isGrammatical : descriptor.IsGrammatical) (returns : descriptor.returnsValue = true) :
    (pool.returnType? index).any Signature.isWide = descriptor.returnType.isWide := by
  -- The descriptor is read back from its text as it is.
  have parsed := MethodDescriptor.parse?_eq_some_iff.mpr ⟨isGrammatical, rfl⟩
  simp [returnType?, isMethod, parsed, returns]

/-- The constants that can be loaded are as wide as their kinds. -/
theorem Pool.isWide_loadableType? {pool : Pool} {index : PoolIndex} {entry : Constant}
    {kind : ValueKind} (isEntry : pool.get? index = some entry) (isKind : entry.kind? = some kind) :
    (pool.loadableType? index).any Signature.isWide = kind.isWide := by
  -- One case per kind of constant, of which those without a kind cannot be loaded.
  rw [loadableType?, isEntry]
  cases entry <;> cases isKind <;> rfl

/-- The types that numbers are converted to are as wide as their kinds. -/
theorem Opcode.isWide_of_convert {opcode : Opcode} {target : Signature}
    (isOperation : opcode.operation? = some (.convert target)) :
    target.isWide = target.kind.isWide := by
  obtain ⟨entry, isEntry, isConvert⟩ := Option.map_eq_some_iff.mp isOperation
  -- Asked of every opcode at once, as there are only finitely many.
  have all : table.all (fun entry => match entry.2 with
      | .convert target => target.isWide == target.kind.isWide
      | _ => true) = true := by
    decide +kernel
  have this := List.all_eq_true.mp all entry (List.mem_of_getElem? isEntry)
  rw [isConvert] at this
  exact beq_iff_eq.mp this

namespace Expr

variable {pool : Pool} {origin : Origin}

/-- A local variable is as wide as the load has it. -/
theorem isWide_load (kind : ValueKind) (slot : Slot) :
    (Expr.leaf origin (.load kind slot)).isWide (some pool) = kind.isWide := by
  cases kind <;> rfl

/-- The negation of a value is as wide as the value. -/
theorem isWide_negate {kind : ValueKind} {value : Expr}
    (same : value.isWide (some pool) = kind.isWide) :
    (Expr.unary origin (.negate kind) value).isWide (some pool) = kind.isWide := by
  -- Only the negation of an int takes its type from the value.
  cases kind with
  | int => exact Signature.isWide_or same rfl
  | _ => rfl

/-- An operator on ints adopts the type of one of its operands. -/
theorem isWide_arith {op : ArithOp} {kind : ValueKind} {left right : Expr}
    (same : left.isWide (some pool) = kind.isWide)
    (same' : right.isWide (some pool) = (op.rightKind kind).isWide) :
    (Expr.binary origin (.arith op kind) left right).isWide (some pool) = kind.isWide := by
  -- Only ints take their type from an operand; every other kind has a type of its own.
  cases kind with
  | int =>
    have isInt : (op.rightKind .int).isWide = false := by cases op <;> rfl
    rw [isInt] at same'
    rw [isWide, type?]
    split
    · exact Signature.isWide_or same' same
    · exact Signature.isWide_or same same'
  | _ => rfl

/-- The element of an array is as wide as the load has it, if the type of the array
is not one of the two others. -/
theorem isWide_arrayLoad {element : ElementKind} {array index : Expr}
    (fits : element = .reference ∨ element = .byte →
      ∀ type ∈ array.type? (some pool) none, type ≠ .arrayOf .long ∧ type ≠ .arrayOf .double) :
    (Expr.binary origin (.arrayLoad element) array index).isWide (some pool) =
      element.kind.isWide := by
  -- Of such an array the elements are narrow, or their type is not known.
  have narrow : element = .reference ∨ element = .byte →
      ((array.type? (some pool) none).bind Signature.element?).any Signature.isWide = false := by
    intro isRead
    cases found : array.type? (some pool) none with
    | none => rfl
    | some type =>
      obtain ⟨long, double⟩ := fits isRead type found
      exact Signature.isWide_element? long double
  -- Only loads of references and of bytes ask what type the array has.
  cases element with
  | reference => exact narrow (.inl rfl)
  | byte => exact Signature.isWide_or (narrow (.inr rfl)) rfl
  | _ => rfl

end Expr

/-! ### Frames -/

/-- A frame that holds values of some kinds, as far as their widths tell,
and has taken nothing from below them. -/
structure Frame.Holds (pool : Pool) (frame : Frame) (kinds : List ValueKind) : Prop where
  widths : frame.stack.map (·.isWide (some pool)) = kinds.map ValueKind.isWide
  inherited : frame.inherited = 0

namespace Frame

variable {pool : Pool} {frame : Frame} {origin : Origin} {kind given : ValueKind}
    {kinds below : List ValueKind}

/-- A pushed value comes before the others. -/
theorem Holds.push {value : Expr} (holds : frame.Holds pool kinds)
    (isWide : value.isWide (some pool) = kind.isWide) :
    (frame.push value).Holds pool (kind :: kinds) :=
  ⟨congrArg₂ List.cons isWide holds.widths, holds.inherited⟩

/-- A statement leaves the stack alone. -/
theorem Holds.emit (holds : frame.Holds pool kinds) (statement : Expr) :
    (frame.emit statement).Holds pool kinds :=
  ⟨holds.widths, holds.inherited⟩

/-- What is popped is a value of the frame itself. -/
theorem Holds.pop (holds : frame.Holds pool (kind :: kinds)) (origin : Origin) :
    ∃ value rest, frame.pop origin = (value, rest) ∧ frame.stack = value :: rest.stack ∧
      value.isWide (some pool) = kind.isWide ∧ rest.Holds pool kinds := by
  -- The frame has a value for each of the kinds, so that none is taken from below.
  obtain ⟨widths, inherited⟩ := holds
  obtain ⟨value, rest, isStack, isWide, widths⟩ := List.map_eq_cons_iff.mp widths
  refine ⟨value, { frame with stack := rest }, ?_, isStack, isWide, widths, inherited⟩
  rw [Frame.pop, isStack]

/-- A statement over the top value takes it off the stack. -/
theorem Holds.emitUnary (holds : frame.Holds pool (kind :: kinds)) (head : Unary) :
    (frame.emitUnary origin head).Holds pool kinds := by
  -- The top is a value of the frame, and nothing is put in its place.
  obtain ⟨value, rest, isTop, -, -, holds⟩ := holds.pop origin
  simp only [Frame.emitUnary, popUnary, isTop]
  exact holds.emit _

/-- An expression over the top value takes its place. -/
theorem Holds.pushUnary {head : Unary} (holds : frame.Holds pool (kind :: kinds))
    (isWide : ∀ value : Expr, value.isWide (some pool) = kind.isWide →
      (Expr.unary origin head value).isWide (some pool) = given.isWide) :
    (frame.pushUnary origin head).Holds pool (given :: kinds) := by
  -- What is pushed is as wide as its kind for any value that is as wide as the top.
  obtain ⟨value, rest, isTop, -, same, holds⟩ := holds.pop origin
  simp only [Frame.pushUnary, popUnary, isTop]
  exact holds.push (isWide value same)

/-- A statement over two values takes both off the stack. -/
theorem Holds.emitBinary {left right : ValueKind}
    (holds : frame.Holds pool (right :: left :: kinds)) (head : Binary) :
    (frame.emitBinary origin head).Holds pool kinds := by
  -- The right operand is on top of the left one.
  obtain ⟨value, rest, isTop, -, -, holds⟩ := holds.pop origin
  obtain ⟨other, rest, isNext, -, -, holds⟩ := holds.pop origin
  simp only [Frame.emitBinary, popBinary, isTop, isNext]
  exact holds.emit _

/-- An expression over two values takes their place. -/
theorem Holds.pushBinary {head : Binary} {left right : ValueKind}
    (holds : frame.Holds pool (right :: left :: kinds))
    (isWide : ∀ first second : Expr, frame.stack[1]? = some first →
      first.isWide (some pool) = left.isWide → second.isWide (some pool) = right.isWide →
      (Expr.binary origin head first second).isWide (some pool) = given.isWide) :
    (frame.pushBinary origin head).Holds pool (given :: kinds) := by
  -- The left operand is the second value of the stack, which the width may depend on.
  obtain ⟨second, rest, isTop, isStack, same, holds⟩ := holds.pop origin
  obtain ⟨first, last, isNext, isRest, same', holds⟩ := holds.pop origin
  simp only [Frame.pushBinary, popBinary, isTop, isNext]
  exact holds.push (isWide first second (by rw [isStack, isRest]; rfl) same' same)

/-- Storing an element takes three values off the stack. -/
theorem Holds.arrayStore {value index array : ValueKind}
    (holds : frame.Holds pool (value :: index :: array :: kinds)) (element : ElementKind) :
    (frame.arrayStore origin element).Holds pool kinds := by
  -- The value is on top of the index, and the index on top of the array.
  obtain ⟨value, rest, isTop, -, -, holds⟩ := holds.pop origin
  obtain ⟨index, rest, isNext, -, -, holds⟩ := holds.pop origin
  obtain ⟨array, rest, isLast, -, -, holds⟩ := holds.pop origin
  simp only [Frame.arrayStore, isTop, isNext, isLast]
  exact holds.emit _

/-- Values of some kinds are popped from the frame itself. -/
theorem Holds.popMany (holds : frame.Holds pool (kinds ++ below)) (origin : Origin) :
    ∃ values rest, Frame.popMany origin kinds.length frame = (values, rest) ∧
      rest.stack = frame.stack.drop kinds.length ∧ rest.Holds pool below := by
  -- By induction on the kinds, which stand in the order of popping.
  induction kinds generalizing frame with
  | nil => exact ⟨[], frame, rfl, rfl, holds⟩
  | cons kind kinds ih =>
    obtain ⟨value, next, isTop, isStack, -, holds⟩ := holds.pop origin
    obtain ⟨values, rest, isMany, isRest, holds⟩ := ih holds
    refine ⟨values ++ [value], rest, ?_, ?_, holds⟩
    · simp only [List.length_cons, Frame.popMany, isTop, isMany]
    · rw [isRest, isStack, List.length_cons, List.drop_succ_cons]

/-- A pair is popped as what it is, one wide value or two others. -/
theorem Holds.popPair (holds : frame.Holds pool (kinds ++ below)) (isPair : IsPair kinds)
    (origin : Origin) :
    ∃ values rest, frame.popPair (some pool) origin = (values, rest) ∧
      values.reverse.map (·.isWide (some pool)) = kinds.map ValueKind.isWide ∧
      rest.Holds pool below := by
  -- The width of the top value decides, and it is the one that the machine has.
  cases isPair with
  | wide isWide =>
    obtain ⟨top, rest, isTop, -, same, holds⟩ := holds.pop origin
    refine ⟨[top], rest, ?_, by simp [same], holds⟩
    simp [Frame.popPair, isTop, same, isWide]
  | narrow isNarrow isNarrow' =>
    obtain ⟨top, next, isTop, -, same, holds⟩ := holds.pop origin
    obtain ⟨below, rest, isNext, -, same', holds⟩ := holds.pop origin
    refine ⟨[below, top], rest, ?_, by simp [same, same'], holds⟩
    simp [Frame.popPair, isTop, isNext, same, isNarrow]

/-- Discarding values leaves the stack alone. -/
theorem Holds.discard (holds : frame.Holds pool kinds) (values : List Expr) :
    (values.foldl (fun frame value => frame.emit (.unary origin .pop value)) frame).Holds
      pool kinds := by
  -- Each of them is one more statement.
  induction values generalizing frame with
  | nil => exact holds
  | cons value values ih => exact ih (holds.emit _)

/-- Copies are as wide as the values that they are copies of. -/
theorem Holds.duplicateAll (holds : frame.Holds pool kinds) (values : List Expr) (origin : Origin) :
    ∃ copies rest, Frame.duplicateAll origin values frame = (copies, rest) ∧
      copies.map (·.isWide (some pool)) = values.map (·.isWide (some pool)) ∧
      rest.Holds pool kinds := by
  -- By induction on the values: each is stored as a statement, which leaves the stack alone.
  induction values generalizing frame with
  | nil => exact ⟨[], frame, rfl, rfl, holds⟩
  | cons value values ih =>
    obtain ⟨copy, next, isCopy, isWide, holds⟩ : ∃ copy next,
        frame.duplicate origin value = (copy, next) ∧
        copy.isWide (some pool) = value.isWide (some pool) ∧ next.Holds pool kinds := by
      -- A copy is the value itself, or reads it back and is typed as the value is.
      rw [duplicate]
      split
      · exact ⟨_, _, rfl, rfl, holds⟩
      · exact ⟨_, _, rfl, rfl, holds.widths, holds.inherited⟩
    obtain ⟨copies, rest, isCopies, widths, holds⟩ := ih holds
    refine ⟨copy :: copies, rest, ?_, congrArg₂ List.cons isWide widths, holds⟩
    simp only [Frame.duplicateAll, isCopy, isCopies]

/-- Pushed values come before the others. -/
theorem Holds.pushed {values : List Expr} (holds : frame.Holds pool below)
    (widths : values.map (·.isWide (some pool)) = kinds.map ValueKind.isWide) :
    (frame.pushed values).Holds pool (kinds ++ below) := by
  -- Widths are compared value by value.
  refine ⟨?_, holds.inherited⟩
  rw [Frame.pushed, List.map_append, List.map_append, widths, holds.widths]

/-- The list of one value is as wide as the list of its kind. -/
theorem widths_singleton {value : Expr} (same : value.isWide (some pool) = kind.isWide) :
    [value].reverse.map (·.isWide (some pool)) = [kind].map ValueKind.isWide := by
  simp [same]

/-- Copies end up on top of the buried values and below them. -/
theorem Holds.pushAround {values buried : List Expr} {buriedKinds : List ValueKind}
    (holds : frame.Holds pool below)
    (widths : values.reverse.map (·.isWide (some pool)) = kinds.map ValueKind.isWide)
    (widths' : buried.reverse.map (·.isWide (some pool)) = buriedKinds.map ValueKind.isWide) :
    (frame.pushAround origin values buried).Holds pool
      (kinds ++ buriedKinds ++ kinds ++ below) := by
  obtain ⟨copies, rest, isCopies, same, holds⟩ := holds.duplicateAll values origin
  -- A copy has the type of what it copies, whether it is stored or not.
  have widths'' : copies.reverse.map (·.isWide (some pool)) = kinds.map ValueKind.isWide := by
    rw [← widths, List.map_reverse, List.map_reverse, same]
  simp only [Frame.pushAround, isCopies, pushAll_eq]
  refine holds.pushed ?_
  simp only [List.reverse_append, List.map_append, widths'', widths', List.append_assoc]

/-- The creation of an object is as wide as the reference that it replaces. -/
theorem Holds.pushCreation (holds : frame.Holds pool kinds) (type constructor : PoolIndex)
    (arguments : List Expr) :
    (frame.pushCreation origin type constructor arguments).Holds pool kinds := by
  simp only [Frame.pushCreation]
  -- A second reference to the object is replaced by the creation, and without
  -- one it is a statement.
  split
  · next other top rest isStack =>
    split
    · next same =>
      -- Both are typed by the class of the object.
      have widths := holds.widths
      rw [isStack, same] at widths
      exact ⟨widths, holds.inherited⟩
    · exact holds.emit _
  · exact holds.emit _

/-- A returned value is as wide as its type says. -/
theorem Holds.pushCall {call : Expr} {descriptor : MethodDescriptor}
    (holds : frame.Holds pool below) (isGrammatical : descriptor.IsGrammatical)
    (isWide : descriptor.returnsValue = true →
      call.isWide (some pool) = descriptor.returnType.isWide) :
    (frame.pushCall call descriptor.returnsValue).Holds pool (descriptor.givenKinds ++ below) := by
  -- A call without a result becomes a statement and leaves nothing.
  rw [Frame.pushCall, MethodDescriptor.givenKinds]
  cases returns : descriptor.returnsValue with
  | false => exact holds.emit call
  | true =>
    have isType : IsFieldType descriptor.returnType.text.toList :=
      isGrammatical.returnType.resolve_left (bne_iff_ne.mp returns)
    exact holds.push ((isWide returns).trans (Signature.isWide_eq_isWide_kind isType))

/-- A call takes its arguments and its receiver, and leaves its result. -/
theorem Holds.call {kind : CallKind} {index : PoolIndex} {descriptor : MethodDescriptor}
    {isConstructor : Bool} (holds : frame.Holds pool (descriptor.takenKinds kind ++ below))
    (isMethod : pool.memberDescriptor? index = some descriptor.text)
    (isGrammatical : descriptor.IsGrammatical)
    (isVoid : isConstructor = true →
      ∀ {source type}, frame.stack[descriptor.parameters.length]? =
        some (.leaf source (.new type)) → descriptor.returnsValue = false) :
    (frame.call origin kind index descriptor isConstructor).Holds pool
      (descriptor.givenKinds ++ below) := by
  have isWide := Pool.isWide_returnType? isMethod isGrammatical
  -- The arguments are popped first, down to the receiver.
  rw [MethodDescriptor.takenKinds, List.append_assoc] at holds
  obtain ⟨arguments, rest, isMany, isRest, holds⟩ := holds.popMany origin
  rw [List.length_reverse, List.length_map] at isMany isRest
  simp only [Frame.call, isMany]
  cases receiverless : kind.isReceiverless with
  -- A call without a receiver is done with its arguments.
  | true =>
    rw [receiverless, if_pos rfl] at holds
    exact holds.pushCall isGrammatical isWide
  | false =>
    rw [receiverless, if_neg Bool.false_ne_true] at holds
    rw [if_neg Bool.false_ne_true]
    obtain ⟨object, last, isObject, isStack, -, holds⟩ := holds.pop origin
    simp only [isObject]
    split
    · next source type =>
      -- The receiver is the value below the arguments.
      have isReceiver : frame.stack[descriptor.parameters.length]? =
          some (.leaf source (.new type)) := by
        rw [← List.head?_drop, ← isRest, isStack]
        rfl
      rw [MethodDescriptor.givenKinds, isVoid rfl isReceiver]
      exact holds.pushCreation type index arguments
    · exact holds.pushCall isGrammatical isWide

end Frame

/-! ### Instructions -/

/-- A computation goes on with the result of its first part. -/
private theorem bind_of_eq_ok {ε α β : Type} {x : Except ε α} {a : α} (found : x = .ok a)
    (f : α → Except ε β) : (x >>= f) = f a := by
  rw [found]
  rfl

namespace Instruction

variable {pool : Pool} {i : Instruction} {frame : Frame} {operation : Operation}

/-- An operation that copies values copies what the machine copies. -/
theorem exists_effect_of_copies {kinds buried below : List ValueKind}
    (isOperation : i.opcode.operation? = some operation) (copies : operation.Copies kinds buried)
    (holds : frame.Holds pool (kinds ++ buried ++ below)) :
    ∃ f, i.effect (some pool) = .ok f ∧
      (f frame).Holds pool (kinds ++ buried ++ kinds ++ below) := by
  rw [effect, isOperation]
  -- A pair is one wide value or two others, and is copied as what it is.
  cases copies with
  | dup =>
    -- One value, onto itself.
    obtain ⟨top, rest, isTop, -, same, holds⟩ := holds.pop i.origin
    refine ⟨_, rfl, ?_⟩
    simp only [Frame.dup, isTop]
    exact holds.pushAround (Frame.widths_singleton same) rfl
  | dupX1 =>
    -- One value, below another one.
    obtain ⟨top, rest, isTop, -, same, holds⟩ := holds.pop i.origin
    obtain ⟨below, rest, isNext, -, same', holds⟩ := holds.pop i.origin
    refine ⟨_, rfl, ?_⟩
    simp only [Frame.dupX1, isTop, isNext]
    exact holds.pushAround (Frame.widths_singleton same) (Frame.widths_singleton same')
  | dupX2 isNarrow isPair =>
    -- One value, below a pair.
    obtain ⟨top, rest, isTop, -, same, holds⟩ := holds.pop i.origin
    obtain ⟨values, rest, isNext, same', holds⟩ := holds.popPair isPair i.origin
    refine ⟨_, rfl, ?_⟩
    simp only [Frame.dupX2, isTop, isNext]
    exact holds.pushAround (Frame.widths_singleton same) same'
  | dup2 isPair =>
    rw [List.append_assoc] at holds
    -- A pair, onto itself.
    obtain ⟨values, rest, isTop, same, holds⟩ := holds.popPair isPair i.origin
    refine ⟨_, rfl, ?_⟩
    simp only [Frame.dup2, isTop]
    exact holds.pushAround same rfl
  | dup2X1 isPair =>
    rw [List.append_assoc] at holds
    -- A pair, below one value.
    obtain ⟨values, rest, isTop, same, holds⟩ := holds.popPair isPair i.origin
    obtain ⟨below, rest, isNext, -, same', holds⟩ := holds.pop i.origin
    refine ⟨_, rfl, ?_⟩
    simp only [Frame.dup2X1, isTop, isNext]
    exact holds.pushAround same (Frame.widths_singleton same')
  | dup2X2 isPair isPair' =>
    rw [List.append_assoc] at holds
    -- A pair, below another pair.
    obtain ⟨values, rest, isTop, same, holds⟩ := holds.popPair isPair i.origin
    obtain ⟨others, rest, isNext, same', holds⟩ := holds.popPair isPair' i.origin
    refine ⟨_, rfl, ?_⟩
    simp only [Frame.dup2X2, isTop, isNext]
    exact holds.pushAround same same'

/-- The array that a load finds is of no type that would make its elements wider
than the load has them. -/
theorem ne_of_elementsFit {element : ElementKind} {array : Expr}
    (fits : frame.elementsFit pool i = true)
    (isOperation : i.opcode.operation? = some (.arrayLoad element))
    (isArray : frame.stack[1]? = some array) :
    element = .reference ∨ element = .byte → ∀ type ∈ array.type? (some pool) none,
      type ≠ .arrayOf .long ∧ type ≠ .arrayOf .double := by
  -- The check asks this of the second value on the stack, for these two loads alone.
  intro isRead type isType
  rcases isRead with rfl | rfl <;>
    simpa [Frame.elementsFit, isOperation, isArray, Option.mem_def.mp isType] using fits

/-- A call that the pool describes takes effect by its descriptor. -/
theorem callEffect_eq {kind : CallKind} {index : PoolIndex} {descriptor : MethodDescriptor}
    (isIndex : i.poolIndex = .ok index)
    (isMethod : pool.memberDescriptor? index = some descriptor.text)
    (isGrammatical : descriptor.IsGrammatical) :
    i.callEffect (some pool) kind = .ok fun frame =>
      frame.call i.origin kind index descriptor
        (kind == .special && pool.memberName? index == some "<init>") := by
  -- The descriptor is read back from its text as it is.
  have parsed := MethodDescriptor.parse?_eq_some_iff.mpr ⟨isGrammatical, rfl⟩
  simp [callEffect, isIndex, isMethod, parsed, bind, Except.bind, pure, Except.pure]

/-- The constructor that is called on a fresh object returns nothing. -/
theorem returnsValue_of_constructsVoid {kind : CallKind} {index : PoolIndex}
    {descriptor : MethodDescriptor} (isVoid : frame.constructsVoid pool i = true)
    (isOperation : i.opcode.operation? = some (.invoke kind)) (isIndex : i.poolIndex = .ok index)
    (isMethod : pool.memberDescriptor? index = some descriptor.text)
    (isGrammatical : descriptor.IsGrammatical)
    (isConstructor : (kind == .special && pool.memberName? index == some "<init>") = true)
    {source : Origin} {type : PoolIndex}
    (isFresh : frame.stack[descriptor.parameters.length]? = some (.leaf source (.new type))) :
    descriptor.returnsValue = false := by
  -- The check reads the same descriptor out of the pool and parses it back.
  obtain ⟨isSpecial, isNamed⟩ := Bool.and_eq_true_iff.mp isConstructor
  obtain rfl := beq_iff_eq.mp isSpecial
  have parsed := MethodDescriptor.parse?_eq_some_iff.mpr ⟨isGrammatical, rfl⟩
  simpa [Frame.constructsVoid, isOperation, isIndex, beq_iff_eq.mp isNamed, isMethod, parsed,
    isFresh] using isVoid

/-- What an instruction does to the kinds on the stack of the machine, it does to the widths
of the simulated values. -/
theorem exists_effect_of_exchanges {taken given below : List ValueKind}
    (isOperation : i.opcode.operation? = some operation)
    (exchanges : i.Exchanges pool operation taken given) (fits : frame.elementsFit pool i = true)
    (isVoid : frame.constructsVoid pool i = true) (holds : frame.Holds pool (taken ++ below)) :
    ∃ f, i.effect (some pool) = .ok f ∧ (f frame).Holds pool (given ++ below) := by
  rw [effect, isOperation]
  -- The cases are the rules of the machine: what is pushed in each is typed as wide exactly
  -- if its kind is.
  cases exchanges with
  | nothing => exact ⟨_, rfl, holds⟩
  | null | int | long | float | double => exact ⟨_, rfl, holds.push rfl⟩
  | immediate isOperand =>
    refine ⟨_, by rw [isOperand], ?_⟩
    exact holds.push rfl
  | constant isIndex isEntry isKind =>
    exact ⟨_, bind_of_eq_ok isIndex _, holds.push (Pool.isWide_loadableType? isEntry isKind)⟩
  | load isSlot =>
    exact ⟨_, bind_of_eq_ok isSlot _, holds.push (Expr.isWide_load _ _)⟩
  | store isSlot =>
    exact ⟨_, bind_of_eq_ok isSlot _, holds.emitUnary _⟩
  | increment isOperand =>
    refine ⟨_, by rw [isOperand], ?_⟩
    exact holds.emit _
  -- The array is the second value, and it was checked to fit the load.
  | arrayLoad =>
    refine ⟨_, rfl, holds.pushBinary fun array index isArray _ _ => Expr.isWide_arrayLoad ?_⟩
    exact ne_of_elementsFit fits isOperation isArray
  | arrayStore => exact ⟨_, rfl, holds.arrayStore _⟩
  | arrayLength => exact ⟨_, rfl, holds.pushUnary fun _ _ => rfl⟩
  | arith => exact ⟨_, rfl, holds.pushBinary fun _ _ _ => Expr.isWide_arith⟩
  | negate => exact ⟨_, rfl, holds.pushUnary fun _ => Expr.isWide_negate⟩
  | convert => exact ⟨_, rfl, holds.pushUnary fun _ _ => Opcode.isWide_of_convert isOperation⟩
  | compare => exact ⟨_, rfl, holds.pushBinary fun _ _ _ _ _ => rfl⟩
  | pop => exact ⟨_, rfl, holds.emitUnary _⟩
  -- A pair is discarded as what it is.
  | pop2 isPair =>
    refine ⟨_, rfl, ?_⟩
    obtain ⟨values, rest, isPopped, -, holds⟩ := holds.popPair isPair i.origin
    simp only [Frame.pop2, isPopped]
    exact holds.discard values
  | swap =>
    refine ⟨_, rfl, ?_⟩
    obtain ⟨top, rest, isTop, -, same, holds⟩ := holds.pop i.origin
    obtain ⟨next, rest, isNext, -, same', holds⟩ := holds.pop i.origin
    simp only [Frame.swap, isTop, isNext]
    exact (holds.push same).push same'
  | copy copies =>
    have copied := exists_effect_of_copies isOperation copies holds
    rwa [effect, isOperation] at copied
  | getStatic isIndex isField isType =>
    exact ⟨_, bind_of_eq_ok isIndex _, holds.push (Pool.isWide_memberDescriptor? isField isType)⟩
  | putStatic isIndex =>
    exact ⟨_, bind_of_eq_ok isIndex _, holds.emitUnary _⟩
  | getField isIndex isField isType =>
    exact ⟨_, bind_of_eq_ok isIndex _, holds.pushUnary fun _ _ =>
      Pool.isWide_memberDescriptor? isField isType⟩
  | putField isIndex =>
    exact ⟨_, bind_of_eq_ok isIndex _, holds.emitBinary _⟩
  -- Constructors are the only calls whose result the simulation may not push.
  | invoke isIndex isMethod isGrammatical =>
    refine ⟨_, callEffect_eq isIndex isMethod isGrammatical, ?_⟩
    refine holds.call isMethod isGrammatical fun isConstructor _ _ isFresh => ?_
    exact returnsValue_of_constructsVoid isVoid isOperation isIndex isMethod isGrammatical
      isConstructor isFresh
  | new isIndex =>
    exact ⟨_, bind_of_eq_ok isIndex _, holds.push (pool.isWide_classType? _)⟩
  | newArray isOperand =>
    refine ⟨_, by rw [isOperand], ?_⟩
    exact holds.pushUnary fun _ _ => Signature.isWide_map_arrayOf _
  | newObjectArray isIndex =>
    exact ⟨_, bind_of_eq_ok isIndex _, holds.pushUnary fun _ _ => Signature.isWide_map_arrayOf _⟩
  | newMultiArray isOperand =>
    refine ⟨_, by rw [isOperand], ?_⟩
    obtain ⟨lengths, rest, isMany, -, holds⟩ := holds.popMany i.origin
    rw [List.length_replicate] at isMany
    simp only [Frame.newMultiArray, isMany]
    exact holds.push (pool.isWide_classType? _)
  | checkCast isIndex =>
    exact ⟨_, bind_of_eq_ok isIndex _, holds.pushUnary fun _ _ => pool.isWide_classType? _⟩
  | instanceOf isIndex =>
    exact ⟨_, bind_of_eq_ok isIndex _, holds.pushUnary fun _ _ => rfl⟩
  | monitor => exact ⟨_, rfl, holds.emitUnary _⟩

end Instruction

/-! ### Runs -/

section Throughout

variable {pool : Pool} {test : Frame → Instruction → Bool} {frame : Frame} {i : Instruction}
    {rest : List Instruction}

/-- What holds throughout a run holds at its first instruction. -/
theorem Frame.throughout_head (holds : frame.throughout pool test (i :: rest) = true) :
    test frame i = true := by
  rw [throughout] at holds
  exact (Bool.and_eq_true_iff.mp holds).1

/-- What holds throughout a run holds throughout what follows its first instruction. -/
theorem Frame.throughout_tail {f : Frame → Frame} (isEffect : i.effect (some pool) = .ok f)
    (holds : frame.throughout pool test (i :: rest) = true) :
    (f frame).throughout pool test rest = true := by
  rw [throughout, isEffect] at holds
  exact (Bool.and_eq_true_iff.mp holds).2

end Throughout

/-- From a frame that holds values of the kinds on the machine's stack,
the simulation keeps up with the machine. -/
theorem Accepts.exists_run {pool : Pool} {start kinds : List ValueKind}
    {earlier later : List Instruction} {frame : Frame}
    (accepted : Accepts pool start (earlier ++ later) kinds) (holds : frame.Holds pool start)
    (fits : frame.throughout pool (Frame.elementsFit pool) (earlier ++ later) = true)
    (isVoid : frame.throughout pool (Frame.constructsVoid pool) (earlier ++ later) = true) :
    ∃ reached after, Accepts pool start earlier reached ∧ Accepts pool reached later kinds ∧
      frame.run (some pool) earlier = .ok after ∧ after.Holds pool reached := by
  -- By induction on the code behind, with the machine and the simulation moving on together.
  induction earlier generalizing start frame with
  | nil => exact ⟨start, frame, .done, accepted, rfl, holds⟩
  | cons i earlier ih =>
    cases accepted with
    | step isOperation exchanges rest =>
      obtain ⟨f, isEffect, holds⟩ := Instruction.exists_effect_of_exchanges isOperation exchanges
        (Frame.throughout_head fits) (Frame.throughout_head isVoid) holds
      obtain ⟨reached, after, begun, ended, isRun, holds⟩ :=
        ih rest holds (Frame.throughout_tail isEffect fits)
          (Frame.throughout_tail isEffect isVoid)
      refine ⟨reached, after, .step isOperation exchanges begun, ended, ?_, holds⟩
      rw [Frame.run, isEffect]
      exact isRun

/-- After each instruction of straight code that the machine accepts, the simulation has as many
values on its stack as the machine, none of them from below, and finds exactly those wide that the
machine has as longs or doubles. So whatever works on two stack slots next takes the form
that the machine takes. -/
theorem widths_of_accepts {pool : Pool} {code earlier later : List Instruction}
    {kinds : List ValueKind} {nextDup : Nat} (accepted : Accepts pool [] code kinds)
    (isCode : code = earlier ++ later)
    (fits : Frame.throughout pool (Frame.elementsFit pool) { nextDup } code = true)
    (isVoid : Frame.throughout pool (Frame.constructsVoid pool) { nextDup } code = true) :
    ∃ reached frame, Accepts pool [] earlier reached ∧ Accepts pool reached later kinds ∧
      Frame.run { nextDup } (some pool) earlier = .ok frame ∧ frame.inherited = 0 ∧
      frame.stack.map (·.isWide (some pool)) = reached.map ValueKind.isWide ∧
      ∀ pair below origin, reached = pair ++ below → IsPair pair →
        (frame.popPair (some pool) origin).1.length = pair.length := by
  subst isCode
  -- A block starts with an empty stack, of which the machine knows all kinds.
  have empty : Frame.Holds pool { nextDup } [] := ⟨rfl, rfl⟩
  obtain ⟨reached, frame, begun, ended, isRun, holds⟩ := accepted.exists_run empty fits isVoid
  refine ⟨reached, frame, begun, ended, isRun, holds.inherited, holds.widths,
    fun pair below origin isReached isPair => ?_⟩
  -- What is popped as a pair is as many values as the pair has kinds.
  obtain ⟨values, rest, isPopped, widths, -⟩ := (isReached ▸ holds).popPair isPair origin
  rw [isPopped]
  simpa using congrArg List.length widths

/-- The pool of a class with one constructor. -/
def constructorPool (descriptor : String) : Pool :=
  (({} : Pool).internMethod "A" "<init>" descriptor).2

/-- A box for a long is created, and another long copied to below it. -/
def boxing : List Instruction := [
  ⟨0, ⟨0xbb⟩, .pool 2, none⟩, ⟨3, ⟨0x59⟩, .absent, none⟩, ⟨4, ⟨0x0a⟩, .absent, none⟩,
  ⟨5, ⟨0xb7⟩, .pool 6, none⟩,
  ⟨8, ⟨0x09⟩, .absent, none⟩, ⟨9, ⟨0x5d⟩, .absent, none⟩, ⟨10, ⟨0x58⟩, .absent, none⟩]

/-- The machine accepts that code. -/
theorem accepts_boxing : Accepts (constructorPool "(J)V") [] boxing [.reference, .long] := by
  -- The constructor takes a long and returns nothing.
  have isMethod : (constructorPool "(J)V").memberDescriptor? 6 =
      some (MethodDescriptor.text ⟨[.long], .void⟩) := by
    decide +kernel
  have isGrammatical : (⟨[.long], .void⟩ : MethodDescriptor).IsGrammatical := by
    refine ⟨fun type listed => ?_, .inl rfl⟩
    obtain rfl := List.mem_singleton.mp listed
    exact ⟨.primitive (by decide), by decide⟩
  -- From the last instruction to the first, as each step is put before those behind it.
  have discarded : Accepts (constructorPool "(J)V") [.long, .reference, .long]
      (boxing.drop 6) [.reference, .long] :=
    .step rfl (.pop2 (.wide rfl)) .done
  have copied : Accepts (constructorPool "(J)V") [.long, .reference]
      (boxing.drop 5) [.reference, .long] :=
    .step rfl (.copy (.dup2X1 (.wide rfl) rfl)) discarded
  have loaded : Accepts (constructorPool "(J)V") [.reference] (boxing.drop 4) [.reference, .long] :=
    .step rfl .long copied
  have exchanges : Instruction.Exchanges (constructorPool "(J)V") ⟨5, ⟨0xb7⟩, .pool 6, none⟩
      (.invoke .special) [.long, .reference] [] :=
    .invoke rfl isMethod isGrammatical
  have constructed : Accepts (constructorPool "(J)V") [.long, .reference, .reference]
      (boxing.drop 3) [.reference, .long] :=
    .step rfl exchanges loaded
  have doubled : Accepts (constructorPool "(J)V") [.reference, .reference]
      (boxing.drop 2) [.reference, .long] :=
    .step rfl .long constructed
  have created : Accepts (constructorPool "(J)V") [.reference]
      (boxing.drop 1) [.reference, .long] :=
    .step rfl (.copy (.dup rfl)) doubled
  exact .step rfl (.new rfl) created

/-- Before the last instruction the copy of the second long lies below the box. -/
theorem boxing_widths_of_accepts :
    Accepts (constructorPool "(J)V") [] boxing [.reference, .long] ∧
    ∃ reached frame, Accepts (constructorPool "(J)V") [] (boxing.take 6) reached ∧
      Accepts (constructorPool "(J)V") reached (boxing.drop 6) [.reference, .long] ∧
      Frame.run {} (some (constructorPool "(J)V")) (boxing.take 6) = .ok frame ∧
      frame.inherited = 0 ∧
      frame.stack.map (·.isWide (some (constructorPool "(J)V"))) = reached.map ValueKind.isWide ∧
      ∀ pair below origin, reached = pair ++ below → IsPair pair →
        (frame.popPair (some (constructorPool "(J)V")) origin).1.length = pair.length :=
  ⟨accepts_boxing, widths_of_accepts accepts_boxing (List.take_append_drop 6 boxing).symm
    (by decide +kernel) (by decide +kernel)⟩

/-- A constructor that returns an int leaves it on the stack of the machine,
but not on that of the simulation. -/
theorem exists_result_not_simulated : ∃ (pool : Pool) (code : List Instruction) (frame : Frame),
    Accepts pool [] code [.int] ∧ Frame.throughout pool (Frame.elementsFit pool) {} code = true ∧
      Frame.run {} (some pool) code = .ok frame ∧ frame.stack = [] := by
  -- The constructor takes nothing and returns an int.
  have isMethod : (constructorPool "()I").memberDescriptor? 6 =
      some (MethodDescriptor.text ⟨[], .int⟩) := by
    decide +kernel
  have isGrammatical : (⟨[], .int⟩ : MethodDescriptor).IsGrammatical :=
    ⟨nofun, .inr (.primitive (by decide))⟩
  have exchanges : Instruction.Exchanges (constructorPool "()I") ⟨3, ⟨0xb7⟩, .pool 6, none⟩
      (.invoke .special) [.reference] [.int] :=
    .invoke rfl isMethod isGrammatical
  have called : Accepts (constructorPool "()I") [.reference] [⟨3, ⟨0xb7⟩, .pool 6, none⟩] [.int] :=
    .step rfl exchanges .done
  have isConstructor : (constructorPool "()I").memberName? 6 = some "<init>" := by decide +kernel
  -- The creation replaces the one reference to the object and is only a statement.
  have isRun : ∀ frame : Frame,
      frame.run (some (constructorPool "()I")) [⟨3, ⟨0xb7⟩, .pool 6, none⟩] =
        .ok (frame.call ⟨⟨0xb7⟩, 3, none⟩ .special 6 ⟨[], .int⟩ true) := fun frame => by
    have isEffect :
        Instruction.effect ⟨3, ⟨0xb7⟩, .pool 6, none⟩ (some (constructorPool "()I")) = _ :=
      Instruction.callEffect_eq rfl isMethod isGrammatical
    rw [Frame.run, isEffect, isConstructor]
    rfl
  exact ⟨constructorPool "()I", [⟨0, ⟨0xbb⟩, .pool 2, none⟩, ⟨3, ⟨0xb7⟩, .pool 6, none⟩], _,
    .step rfl (.new rfl) called, by decide +kernel, isRun _, rfl⟩

end Unjump
