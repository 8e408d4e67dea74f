/-! Type descriptors of fields and methods, such as `I`, `[B`, `Ljava/lang/String;` and `(IJ)V`. -/

namespace Unjump

/-- A field type in descriptor notation. -/
structure Signature where
  text : String
deriving DecidableEq, Inhabited, Repr

namespace Signature

def boolean : Signature := ⟨"Z"⟩
def byte : Signature := ⟨"B"⟩
def char : Signature := ⟨"C"⟩
def short : Signature := ⟨"S"⟩
def int : Signature := ⟨"I"⟩
def long : Signature := ⟨"J"⟩
def float : Signature := ⟨"F"⟩
def double : Signature := ⟨"D"⟩
def void : Signature := ⟨"V"⟩
def object : Signature := ⟨"Ljava/lang/Object;"⟩
def string : Signature := ⟨"Ljava/lang/String;"⟩
def classObject : Signature := ⟨"Ljava/lang/Class;"⟩
def throwable : Signature := ⟨"Ljava/lang/Throwable;"⟩
def methodType : Signature := ⟨"Ljava/lang/invoke/MethodType;"⟩
def methodHandle : Signature := ⟨"Ljava/lang/invoke/MethodHandle;"⟩

/-- Whether the type is an array. -/
def isArray (type : Signature) : Bool := type.text.toList.head? == some '['

/-- Whether the type is a class or an array. -/
def isReference (type : Signature) : Bool := type.text.toList.head? == some 'L' || type.isArray

/-- Whether a value of the type takes two stack slots. -/
def isWide (type : Signature) : Bool := type == long || type == double

/-- The type of arrays with elements of this type. -/
def arrayOf (type : Signature) : Signature := ⟨"[" ++ type.text⟩

/-- The element type of an array type. -/
def element? (type : Signature) : Option Signature :=
  match type.text.toList with
  | '[' :: element => some ⟨String.ofList element⟩
  | _ => none

/-- The type of a class given by its internal name, where array classes are named
by their descriptor. -/
def ofClassName (name : String) : Signature :=
  if name.toList.head? == some '[' then ⟨name⟩ else ⟨"L" ++ name ++ ";"⟩

/-- The element type that a primitive array type code selects. -/
def ofArrayCode? (code : UInt8) : Option Signature :=
  match code.toNat with
  | 4 => some boolean
  | 5 => some char
  | 6 => some float
  | 7 => some double
  | 8 => some byte
  | 9 => some short
  | 10 => some int
  | 11 => some long
  | _ => none

end Signature

/-- Splits a text after the first occurrence of a character, which ends the first part. -/
def splitAfter? (mark : Char) : List Char → Option (List Char × List Char)
  | [] => none
  | c :: rest =>
    if c = mark then some ([c], rest)
    else (splitAfter? mark rest).map fun (before, after) => (c :: before, after)

/-- Splits the leading field type off a text. -/
def splitFieldType? : List Char → Option (List Char × List Char)
  | [] => none
  | '[' :: rest => (splitFieldType? rest).map fun (type, after) => ('[' :: type, after)
  | 'L' :: rest => (splitAfter? ';' rest).map fun (name, after) => ('L' :: name, after)
  | c :: rest => if c ∈ ['B', 'C', 'D', 'F', 'I', 'J', 'S', 'Z'] then some ([c], rest) else none

/-- Splitting after a mark leaves a shorter rest. -/
theorem splitAfter?_length {mark : Char} {text before after : List Char}
    (split : splitAfter? mark text = some (before, after)) : after.length < text.length := by
  induction text generalizing before after with
  | nil => simp [splitAfter?] at split
  | cons c rest ih =>
    simp only [splitAfter?] at split
    by_cases here : c = mark
    · rw [if_pos here] at split
      simp only [Option.some.injEq, Prod.mk.injEq] at split
      simp [← split.2]
    · rw [if_neg here] at split
      obtain ⟨inner, found, same⟩ := Option.map_eq_some_iff.mp split
      have shorter := ih found
      have rest_eq : inner.2 = after := congrArg Prod.snd same
      rw [List.length_cons, ← rest_eq]
      omega

/-- Splitting a field type off a text leaves a shorter rest. -/
theorem splitFieldType?_length {text type after : List Char}
    (split : splitFieldType? text = some (type, after)) : after.length < text.length := by
  induction text generalizing type after with
  | nil => simp [splitFieldType?] at split
  | cons c rest ih =>
    unfold splitFieldType? at split
    split at split
    · contradiction
    · rename_i same
      obtain ⟨rfl, rfl⟩ := List.cons.inj same
      obtain ⟨inner, found, same⟩ := Option.map_eq_some_iff.mp split
      have shorter := ih found
      have rest_eq : inner.2 = after := congrArg Prod.snd same
      rw [List.length_cons, ← rest_eq]
      omega
    · rename_i same
      obtain ⟨rfl, rfl⟩ := List.cons.inj same
      obtain ⟨inner, found, same⟩ := Option.map_eq_some_iff.mp split
      have shorter := splitAfter?_length found
      have rest_eq : inner.2 = after := congrArg Prod.snd same
      rw [List.length_cons, ← rest_eq]
      omega
    · rename_i same
      obtain ⟨rfl, rfl⟩ := List.cons.inj same
      by_cases primitive : c ∈ ['B', 'C', 'D', 'F', 'I', 'J', 'S', 'Z']
      · rw [if_pos primitive] at split
        simp only [Option.some.injEq, Prod.mk.injEq] at split
        simp [← split.2]
      · rw [if_neg primitive] at split
        contradiction

/-- Splits a text into the field types it consists of. -/
def splitFieldTypes? (text : List Char) : Option (List (List Char)) :=
  if text.isEmpty then some []
  else match split : splitFieldType? text with
    | none => none
    | some (type, rest) =>
      have := splitFieldType?_length split
      (splitFieldTypes? rest).map (type :: ·)
termination_by text.length

/-- The parameter types and the return type of a method. -/
structure MethodDescriptor where
  parameters : List Signature
  returnType : Signature
deriving DecidableEq, Inhabited, Repr

namespace MethodDescriptor

/-- Whether a text is a return type: `V` or one field type. -/
def isReturnType (text : List Char) : Bool :=
  text == ['V'] || (splitFieldType? text).any fun (_, rest) => rest.isEmpty

/-- Reads a method descriptor, whose parameter list ends at the first closing parenthesis. -/
def parse? (descriptor : String) : Option MethodDescriptor :=
  match descriptor.toList with
  | '(' :: text => do
    let (inner, result) ← splitAfter? ')' text
    let parameters ← splitFieldTypes? inner.dropLast
    if isReturnType result then
      some ⟨parameters.map fun type => ⟨String.ofList type⟩, ⟨String.ofList result⟩⟩
    else none
  | _ => none

/-- Whether the method hands a value back. -/
def returnsValue (descriptor : MethodDescriptor) : Bool := descriptor.returnType != Signature.void

end MethodDescriptor

end Unjump
