import Unjump.Opcode

/-! The constant pool of a class: its entries, interning, and the names
and types they resolve to. -/

namespace Unjump

/-- An entry of a constant pool. -/
inductive Constant where
  | utf8 (text : String)
  | integer (value : Int32)
  | float (value : Single)
  | long (value : Int64)
  | double (value : Double)
  | classRef (name : PoolIndex)
  | string (text : PoolIndex)
  | field (owner : PoolIndex) (nameAndType : PoolIndex)
  | method (owner : PoolIndex) (nameAndType : PoolIndex)
  | interfaceMethod (owner : PoolIndex) (nameAndType : PoolIndex)
  | nameAndType (name : PoolIndex) (descriptor : PoolIndex)
  | methodHandle (kind : UInt8) (reference : PoolIndex)
  | methodType (descriptor : PoolIndex)
  | invokeDynamic (bootstrap : UInt16) (nameAndType : PoolIndex)
  /-- The unusable second position of a long or a double. -/
  | gap
deriving DecidableEq, Inhabited, Repr

namespace Constant

/-- Whether the entry takes two positions. -/
def isWide : Constant → Bool
  | .long _ | .double _ => true
  | _ => false

/-- Whether two entries are interchangeable, floating-point numbers being compared as numbers. -/
def same : Constant → Constant → Bool
  | .float x, .float y => x.sameNumber y
  | .double x, .double y => x.sameNumber y
  | x, y => x == y

/-- The type of the value that loading the entry pushes. -/
def loadableType? : Constant → Option Signature
  | .integer _ => some .int
  | .float _ => some .float
  | .long _ => some .long
  | .double _ => some .double
  | .string _ => some .string
  | .classRef _ => some .classObject
  | .methodType _ => some .methodType
  | .methodHandle _ _ => some .methodHandle
  | _ => none

end Constant

/-- A constant pool, whose first entry has index one. -/
structure Pool where
  entries : List Constant := []
  /-- The index of the first entry of every text. -/
  texts : List (String × PoolIndex) := []
deriving DecidableEq, Inhabited, Repr

namespace Pool

/-- The number of positions, gaps included. -/
def size (pool : Pool) : Nat := pool.entries.length

/-- The entry at an index, which is neither zero nor a gap. -/
def get? (pool : Pool) (index : PoolIndex) : Option Constant :=
  if index = 0 then none
  else (pool.entries[index.toNat - 1]?).filter (· != .gap)

/-- The indexes of the texts after an entry was put at an index: a text that has one keeps it. -/
def noted (texts : List (String × PoolIndex)) (index : PoolIndex) :
    Constant → List (String × PoolIndex)
  | .utf8 text => if (texts.lookup text).isSome then texts else (text, index) :: texts
  | _ => texts

/-- Appends an entry, with a gap after a wide one, and returns its index. -/
def push (pool : Pool) (constant : Constant) : PoolIndex × Pool :=
  let index := UInt16.ofNat (pool.size + 1)
  (index, { entries := pool.entries ++ constant :: if constant.isWide then [.gap] else []
            texts := noted pool.texts index constant })

/-- The pool of a list of entries pushed in order. -/
def ofConstants (constants : List Constant) : Pool :=
  constants.foldl (fun pool constant => (pool.push constant).2) {}

/-- The index that is noted for a text. -/
def noted? (pool : Pool) : Constant → Option PoolIndex
  | .utf8 text => pool.texts.lookup text
  | _ => none

/-- The index of the first interchangeable entry. -/
def first? (pool : Pool) (constant : Constant) : Option PoolIndex :=
  (pool.entries.findIdx? (·.same constant)).map fun position => UInt16.ofNat (position + 1)

/-- The index of an interchangeable entry, or of a new one at the end. For a text it is looked up,
and the entries are searched only if it is not noted. -/
def intern (pool : Pool) (constant : Constant) : PoolIndex × Pool :=
  match (pool.noted? constant).or (pool.first? constant) with
  | some index => (index, pool)
  | none => pool.push constant

/-- Interns a text. -/
def internUtf8 (pool : Pool) (text : String) : PoolIndex × Pool := pool.intern (.utf8 text)

/-- Interns a class by its internal name. -/
def internClass (pool : Pool) (name : String) : PoolIndex × Pool :=
  let (index, pool) := pool.internUtf8 name
  pool.intern (.classRef index)

/-- Interns a string constant. -/
def internString (pool : Pool) (text : String) : PoolIndex × Pool :=
  let (index, pool) := pool.internUtf8 text
  pool.intern (.string index)

/-- Interns the name and the descriptor of a member. -/
def internNameAndType (pool : Pool) (name descriptor : String) : PoolIndex × Pool :=
  let (nameIndex, pool) := pool.internUtf8 name
  let (descriptorIndex, pool) := pool.internUtf8 descriptor
  pool.intern (.nameAndType nameIndex descriptorIndex)

/-- Interns a member of a class, as the kind of entry that a constructor builds. -/
def internMember (pool : Pool) (entry : PoolIndex → PoolIndex → Constant)
    (owner name descriptor : String) : PoolIndex × Pool :=
  let (ownerIndex, pool) := pool.internClass owner
  let (nameAndType, pool) := pool.internNameAndType name descriptor
  pool.intern (entry ownerIndex nameAndType)

/-- Interns a field. -/
def internField (pool : Pool) (owner name descriptor : String) : PoolIndex × Pool :=
  pool.internMember .field owner name descriptor

/-- Interns a method of a class. -/
def internMethod (pool : Pool) (owner name descriptor : String) : PoolIndex × Pool :=
  pool.internMember .method owner name descriptor

/-- Interns a method of an interface. -/
def internInterfaceMethod (pool : Pool) (owner name descriptor : String) : PoolIndex × Pool :=
  pool.internMember .interfaceMethod owner name descriptor

/-- Interns a dynamic call site under the first bootstrap method. -/
def internDynamic (pool : Pool) (name descriptor : String) : PoolIndex × Pool :=
  let (nameAndType, pool) := pool.internNameAndType name descriptor
  pool.intern (.invokeDynamic 0 nameAndType)

/-- The text at an index. -/
def utf8? (pool : Pool) (index : PoolIndex) : Option String :=
  match pool.get? index with
  | some (.utf8 text) => some text
  | _ => none

/-- The internal name of the class at an index. -/
def className? (pool : Pool) (index : PoolIndex) : Option String :=
  match pool.get? index with
  | some (.classRef name) => pool.utf8? name
  | _ => none

/-- The index of the name and type of the member at an index. -/
def nameAndType? (pool : Pool) (index : PoolIndex) : Option PoolIndex :=
  match pool.get? index with
  | some (.field _ nameAndType) | some (.method _ nameAndType) | some (.interfaceMethod _
    nameAndType)
  | some (.invokeDynamic _ nameAndType) => some nameAndType
  | _ => none

/-- The indexes of the name and of the descriptor of the member at an index. -/
def member? (pool : Pool) (index : PoolIndex) : Option (PoolIndex × PoolIndex) := do
  match pool.get? (← pool.nameAndType? index) with
  | some (.nameAndType name descriptor) => some (name, descriptor)
  | _ => none

/-- The name of the member at an index. -/
def memberName? (pool : Pool) (index : PoolIndex) : Option String := do
  pool.utf8? (← pool.member? index).1

/-- The descriptor of the member at an index. -/
def memberDescriptor? (pool : Pool) (index : PoolIndex) : Option String := do
  pool.utf8? (← pool.member? index).2

/-- The type of the value that loading the entry at an index pushes. -/
def loadableType? (pool : Pool) (index : PoolIndex) : Option Signature := do
  (← pool.get? index).loadableType?

/-- The type of the class at an index. -/
def classType? (pool : Pool) (index : PoolIndex) : Option Signature :=
  (pool.className? index).map Signature.ofClassName

end Pool

end Unjump
