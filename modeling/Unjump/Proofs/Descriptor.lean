import Unjump.Descriptor

/-!
The grammar of method descriptors.

A descriptor is a list of field types in parentheses and a return type behind them. The texts of
field types form a code in which none begins another, so a text is a descriptor in one way at most.
The reader finds that way wherever there is one, although it looks for the first closing parenthesis
before it looks at any type: a class name among the parameters cannot hold that character, while the
name of a returned class can.
-/

namespace Unjump

/-- The texts of field types: array brackets before a primitive type,
or before a class name between `L` and `;`. -/
inductive IsFieldType : List Char → Prop where
  | primitive {c : Char} (known : c ∈ ['B', 'C', 'D', 'F', 'I', 'J', 'S', 'Z']) : IsFieldType [c]
  | object {name : List Char} (unmarked : ';' ∉ name) : IsFieldType ('L' :: (name ++ [';']))
  | array {element : List Char} (isElement : IsFieldType element) : IsFieldType ('[' :: element)

/-- Splitting after a mark finds the first one. -/
theorem splitAfter?_eq_some_iff {mark : Char} {text before after : List Char} :
    splitAfter? mark text = some (before, after) ↔
      ∃ name, mark ∉ name ∧ before = name ++ [mark] ∧ text = name ++ mark :: after := by
  -- The text before the mark grows by one character for each that is read.
  induction text generalizing before with
  | nil => simp [splitAfter?]
  | cons c rest ih =>
    rw [splitAfter?]
    by_cases here : c = mark
    · -- The text starts with the mark, so nothing stands before it.
      subst here
      rw [if_pos rfl]
      constructor
      · intro split
        cases split
        exact ⟨[], List.not_mem_nil, rfl, rfl⟩
      · rintro ⟨name, unmarked, rfl, same⟩
        cases name with
        | nil => cases same; rfl
        | cons first others =>
          exact absurd (List.cons.inj same).1 fun isMark => unmarked (isMark ▸ List.mem_cons_self)
    · -- Any other first character belongs to what stands before the mark.
      rw [if_neg here]
      constructor
      · intro split
        obtain ⟨⟨inner, behind⟩, found, same⟩ := Option.map_eq_some_iff.mp split
        cases same
        obtain ⟨name, unmarked, rfl, rfl⟩ := ih.mp found
        exact ⟨c :: name, by simp [unmarked, Ne.symm here], rfl, rfl⟩
      · rintro ⟨name, unmarked, rfl, same⟩
        cases name with
        | nil => exact absurd (List.cons.inj same).1 here
        | cons first others =>
          obtain ⟨rfl, rfl⟩ : c = first ∧ rest = others ++ mark :: after := List.cons.inj same
          have found : splitAfter? mark (others ++ mark :: after) =
              some (others ++ [mark], after) :=
            ih.mpr ⟨others, fun isMark => unmarked (List.mem_cons_of_mem _ isMark), rfl, rfl⟩
          rw [found]
          rfl

/-- What is split off a text is a field type, and nothing of the text is lost. -/
theorem isFieldType_of_splitFieldType? {text type after : List Char}
    (split : splitFieldType? text = some (type, after)) :
    IsFieldType type ∧ text = type ++ after := by
  -- As the reader goes: through the dimensions of an array, down to a class name
  -- or a primitive type.
  fun_induction splitFieldType? text generalizing type with
  | case1 => cases split
  | case2 rest ih =>
    obtain ⟨⟨element, behind⟩, found, same⟩ := Option.map_eq_some_iff.mp split
    cases same
    obtain ⟨isElement, rfl⟩ := ih found
    exact ⟨.array isElement, rfl⟩
  | case3 rest =>
    obtain ⟨⟨inner, behind⟩, found, same⟩ := Option.map_eq_some_iff.mp split
    cases same
    obtain ⟨name, unmarked, rfl, rfl⟩ := splitAfter?_eq_some_iff.mp found
    exact ⟨.object unmarked, by simp⟩
  | case4 c rest _ _ known =>
    cases split
    exact ⟨.primitive known, rfl⟩
  | case5 => cases split

/-- A field type is split off whatever follows it. -/
theorem IsFieldType.splitFieldType?_append {type : List Char} (isType : IsFieldType type)
    (after : List Char) : splitFieldType? (type ++ after) = some (type, after) := by
  -- By induction on the type: brackets are taken off one by one.
  induction isType with
  | @primitive c known =>
    -- No primitive type is written as a bracket or an `L`, which are read otherwise.
    have notArray : c ≠ '[' := by rintro rfl; simp at known
    have notObject : c ≠ 'L' := by rintro rfl; simp at known
    simp only [List.singleton_append]
    rw [splitFieldType?, if_pos known] <;> simp [notArray, notObject]
  | @object name unmarked =>
    have found : splitAfter? ';' (name ++ ';' :: after) = some (name ++ [';'], after) :=
      splitAfter?_eq_some_iff.mpr ⟨name, unmarked, rfl, rfl⟩
    simp [splitFieldType?, found]
  | array _ ih => simp [splitFieldType?, ih]

/-- Splitting finds the field type that a text starts with. -/
theorem splitFieldType?_eq_some_iff {text type after : List Char} :
    splitFieldType? text = some (type, after) ↔ IsFieldType type ∧ text = type ++ after :=
  ⟨isFieldType_of_splitFieldType?, fun ⟨isType, same⟩ => same ▸ isType.splitFieldType?_append after⟩

/-- A field type is written with one character at least. -/
theorem IsFieldType.ne_nil {type : List Char} (isType : IsFieldType type) : type ≠ [] := by
  cases isType <;> exact List.cons_ne_nil _ _

/-- Splitting a text into field types finds the only way in which it consists of them. -/
theorem splitFieldTypes?_eq_some_iff {text : List Char} {types : List (List Char)} :
    splitFieldTypes? text = some types ↔
      (∀ type ∈ types, IsFieldType type) ∧ text = types.flatten := by
  -- The first type is the one that the text starts with, and the others
  -- are those of what it leaves.
  fun_induction splitFieldTypes? text generalizing types with
  -- An empty text has no types, since no type is empty.
  | case1 text empty =>
    obtain rfl := List.isEmpty_iff.mp empty
    constructor
    · intro split
      cases split
      exact ⟨fun _ listed => absurd listed List.not_mem_nil, rfl⟩
    · rintro ⟨areTypes, same⟩
      cases types with
      | nil => rfl
      | cons first others =>
        obtain ⟨isEmpty, -⟩ := List.append_eq_nil_iff.mp same.symm
        exact absurd isEmpty (areTypes first List.mem_cons_self).ne_nil
  -- A text that starts with no type consists of none.
  | case2 text full stuck =>
    constructor
    · intro split
      cases split
    · rintro ⟨areTypes, rfl⟩
      cases types with
      | nil => exact absurd rfl full
      | cons first others =>
        rw [List.flatten_cons, (areTypes first List.mem_cons_self).splitFieldType?_append] at stuck
        cases stuck
  -- The first type is split off, and the rest is read in the same way.
  | case3 text full type rest split shorter ih =>
    obtain ⟨isType, rfl⟩ := splitFieldType?_eq_some_iff.mp split
    constructor
    · intro splits
      obtain ⟨others, found, rfl⟩ := Option.map_eq_some_iff.mp splits
      obtain ⟨areTypes, rfl⟩ := ih.mp found
      exact ⟨List.forall_mem_cons.mpr ⟨isType, areTypes⟩, rfl⟩
    · rintro ⟨areTypes, same⟩
      cases types with
      | nil => exact absurd (List.append_eq_nil_iff.mp same).1 isType.ne_nil
      | cons first others =>
        obtain ⟨isFirst, areOthers⟩ := List.forall_mem_cons.mp areTypes
        rw [same, List.flatten_cons, isFirst.splitFieldType?_append] at split
        cases split
        rw [ih.mpr ⟨areOthers, rfl⟩]
        rfl

namespace MethodDescriptor

/-- A descriptor as it is written in class files. -/
def text (descriptor : MethodDescriptor) : String :=
  "(" ++ String.join (descriptor.parameters.map (·.text)) ++ ")" ++ descriptor.returnType.text

/-- The descriptors that can be written: of field types, which do not hold the end of the parameter
list where they are parameters, and of nothing or a field type to return. -/
structure IsGrammatical (descriptor : MethodDescriptor) : Prop where
  parameters : ∀ type ∈ descriptor.parameters, IsFieldType type.text.toList ∧ ')' ∉ type.text.toList
  returnType : descriptor.returnType = .void ∨ IsFieldType descriptor.returnType.text.toList

/-- What may be returned is nothing or a field type. -/
theorem isReturnType_iff {result : List Char} :
    isReturnType result = true ↔ result = ['V'] ∨ IsFieldType result := by
  -- A field type must be all that is left of the text.
  rw [isReturnType, Bool.or_eq_true, beq_iff_eq, Option.any_eq_true]
  refine or_congr Iff.rfl ⟨?_, fun isType => ?_⟩
  · rintro ⟨⟨type, rest⟩, split, empty⟩
    obtain ⟨isType, rfl⟩ := splitFieldType?_eq_some_iff.mp split
    obtain rfl := List.isEmpty_iff.mp empty
    rwa [List.append_nil]
  · exact ⟨(result, []), splitFieldType?_eq_some_iff.mpr ⟨isType, (List.append_nil _).symm⟩, rfl⟩

/-- The text of a descriptor, character by character. -/
theorem toList_text (descriptor : MethodDescriptor) : descriptor.text.toList =
    '(' :: ((descriptor.parameters.map fun type => type.text.toList).flatten ++ ')' ::
      descriptor.returnType.text.toList) := by
  simp [text, String.toList_join, List.flatMap_def, Function.comp_def]

/-- The parts that the reader finds in a text, in the order in which it looks for them. -/
theorem parse?_eq_some_iff_exists {descriptor : String} {read : MethodDescriptor} :
    parse? descriptor = some read ↔ ∃ (types : List (List Char)) (result : List Char),
      descriptor.toList = '(' :: (types.flatten ++ ')' :: result) ∧ ')' ∉ types.flatten ∧
      (∀ type ∈ types, IsFieldType type) ∧
      (result = ['V'] ∨ IsFieldType result) ∧
      read = ⟨types.map fun type => ⟨String.ofList type⟩, ⟨String.ofList result⟩⟩ := by
  -- The first closing parenthesis ends the list of parameters, so that none
  -- of their types can hold one.
  rw [parse?]
  split
  · next text opens =>
    constructor
    · intro parsed
      obtain ⟨⟨inner, result⟩, split, parsed⟩ := Option.bind_eq_some_iff.mp parsed
      obtain ⟨types, splits, parsed⟩ := Option.bind_eq_some_iff.mp parsed
      obtain ⟨isResult, same⟩ := Option.ite_none_right_eq_some.mp parsed
      obtain ⟨list, closed, rfl, rfl⟩ := splitAfter?_eq_some_iff.mp split
      rw [List.dropLast_concat] at splits
      obtain ⟨areTypes, rfl⟩ := splitFieldTypes?_eq_some_iff.mp splits
      exact ⟨types, result, opens, closed, areTypes, isReturnType_iff.mp isResult,
        (Option.some.inj same).symm⟩
    · -- The first closing parenthesis is the one behind the parameters, none of which holds one.
      rintro ⟨types, result, same, closed, areTypes, isResult, rfl⟩
      obtain ⟨-, rfl⟩ := List.cons.inj (opens.symm.trans same)
      have split : splitAfter? ')' (types.flatten ++ ')' :: result) =
          some (types.flatten ++ [')'], result) :=
        splitAfter?_eq_some_iff.mpr ⟨_, closed, rfl, rfl⟩
      have splits : splitFieldTypes? types.flatten = some types :=
        splitFieldTypes?_eq_some_iff.mpr ⟨areTypes, rfl⟩
      simp [split, splits, isReturnType_iff.mpr isResult]
  · -- A text that does not open with a parenthesis is no descriptor.
    next shut =>
    constructor
    · intro parsed
      cases parsed
    · rintro ⟨types, result, opens, -⟩
      exact absurd opens (shut _)

/-- The reader accepts the texts of grammatical descriptors, and each as the descriptor
that it is the text of. -/
theorem parse?_eq_some_iff {descriptor : String} {read : MethodDescriptor} :
    parse? descriptor = some read ↔ read.IsGrammatical ∧ read.text = descriptor := by
  rw [parse?_eq_some_iff_exists]
  constructor
  · rintro ⟨types, result, opens, closed, areTypes, isResult, rfl⟩
    refine ⟨⟨fun type listed => ?_, ?_⟩, ?_⟩
    · obtain ⟨text, isText, rfl⟩ := List.mem_map.mp listed
      rw [String.toList_ofList]
      exact ⟨areTypes text isText,
        fun closes => closed (List.mem_flatten.mpr ⟨text, isText, closes⟩)⟩
    · rw [String.toList_ofList]
      exact isResult.imp_left fun isVoid => congrArg (Signature.mk ∘ String.ofList) isVoid
    · refine String.toList_inj.mp ?_
      rw [toList_text, opens]
      simp [Function.comp_def]
  -- The parts of a grammatical descriptor are what the reader looks for in its text.
  · rintro ⟨⟨areTypes, isResult⟩, rfl⟩
    refine ⟨read.parameters.map (·.text.toList), read.returnType.text.toList, read.toList_text,
      ?_, ?_, ?_, ?_⟩
    · intro closes
      obtain ⟨text, listed, closes⟩ := List.mem_flatten.mp closes
      obtain ⟨type, isType, rfl⟩ := List.mem_map.mp listed
      exact (areTypes type isType).2 closes
    · intro text listed
      obtain ⟨type, isType, rfl⟩ := List.mem_map.mp listed
      exact (areTypes type isType).1
    · exact isResult.imp_left fun isVoid => congrArg (·.text.toList) isVoid
    · simp [Function.comp_def]

/-- Reading a method descriptor is exact: it succeeds on the written descriptors and only on them,
gives the one descriptor that a text is written from, and gives every written descriptor back. -/
theorem parse?_exact (descriptor : String) (read : MethodDescriptor) :
    (parse? descriptor = some read ↔ read.IsGrammatical ∧ read.text = descriptor) ∧
      (∀ other : MethodDescriptor, read.IsGrammatical ∧ other.IsGrammatical ∧
        read.text = other.text → read = other) ∧
      (parse? read.text = some read ↔ read.IsGrammatical) := by
  refine ⟨parse?_eq_some_iff, fun other ⟨isRead, isOther, same⟩ => ?_, by simp [parse?_eq_some_iff]⟩
  -- Both are what the reader finds in the one text.
  have found : parse? other.text = some read := parse?_eq_some_iff.mpr ⟨isRead, same⟩
  have foundToo : parse? other.text = some other := parse?_eq_some_iff.mpr ⟨isOther, rfl⟩
  exact Option.some.inj (found.symm.trans foundToo)

/-- A returned class may have a name with a closing parenthesis in it, a parameter may not. -/
example :
    parse? "([[ILé;)L)a;" = some ⟨[⟨"[[I"⟩, ⟨"Lé;"⟩], ⟨"L)a;"⟩⟩ ∧ parse? "(L)a;)V" = none := by
  cbv

end MethodDescriptor

end Unjump
