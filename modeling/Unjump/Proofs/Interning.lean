import Unjump.Pool
import Mathlib.Data.List.Basic

/-!
Interning gives every request one index, for good.

A pool only grows at its end, so whatever an index resolves to, it resolves to in every later pool.
The indexes that it notes for texts are those of their first entries, whatever calls have led to it,
so looking a text up is searching for it. A request is interned in up to six steps, each of which
finds its entry again in all pools to come: so does the whole request.
-/

namespace Unjump

namespace Constant

/-- Whether the entry is a usable one that is interchangeable with itself alone. -/
def isExact : Constant → Bool
  | .float _ | .double _ | .gap => false
  | _ => true

/-- An exact entry is interchangeable with itself alone. -/
theorem same_iff_eq {constant other : Constant} (exact : constant.isExact) :
    other.same constant ↔ other = constant := by
  -- Only two floating-point numbers of the same width are compared as numbers,
  -- and the second entry is none.
  cases constant with
  -- Numbers and gaps are not exact.
  | float | double | gap => cases exact
  | _ => cases other <;> simp [same]

end Constant

namespace Pool

/-- What an entry is asked for by: the texts it stands for. -/
inductive Request where
  | utf8 (text : String)
  | classRef (name : String)
  | string (text : String)
  | nameAndType (name descriptor : String)
  | field (owner name descriptor : String)
  | method (owner name descriptor : String)
  | interfaceMethod (owner name descriptor : String)
deriving DecidableEq, Repr

/-- Interns what a request asks for. -/
def Request.intern (pool : Pool) : Request → PoolIndex × Pool
  | .utf8 text => pool.internUtf8 text
  | .classRef name => pool.internClass name
  | .string text => pool.internString text
  | .nameAndType name descriptor => pool.internNameAndType name descriptor
  | .field owner name descriptor => pool.internField owner name descriptor
  | .method owner name descriptor => pool.internMethod owner name descriptor
  | .interfaceMethod owner name descriptor => pool.internInterfaceMethod owner name descriptor

/-- The kinds of member that can be asked for. -/
inductive MemberKind where
  | field | method | interfaceMethod

/-- The entry that refers to a member of a kind. -/
def MemberKind.entry : MemberKind → PoolIndex → PoolIndex → Constant
  | .field => .field
  | .method => .method
  | .interfaceMethod => .interfaceMethod

/-- Whether an index of a pool resolves to a member of a class. -/
structure IsMember (pool : Pool) (kind : MemberKind) (owner name descriptor : String)
    (index : PoolIndex) : Prop where
  owner : ∃ i j, pool.get? index = some (kind.entry i j) ∧ pool.className? i = some owner
  name : pool.memberName? index = some name
  descriptor : pool.memberDescriptor? index = some descriptor

/-- Whether an index of a pool resolves to the texts of a request. -/
def Request.ResolvesAt (pool : Pool) (index : PoolIndex) : Request → Prop
  | .utf8 text => pool.utf8? index = some text
  | .classRef name => pool.className? index = some name
  | .string text => ∃ i, pool.get? index = some (.string i) ∧ pool.utf8? i = some text
  | .nameAndType name descriptor => ∃ i j, pool.get? index = some (.nameAndType i j) ∧
      pool.utf8? i = some name ∧ pool.utf8? j = some descriptor
  | .field owner name descriptor => pool.IsMember .field owner name descriptor index
  | .method owner name descriptor => pool.IsMember .method owner name descriptor index
  | .interfaceMethod owner name descriptor =>
    pool.IsMember .interfaceMethod owner name descriptor index

/-- A call that may add entries to a pool. -/
inductive Call where
  | push (constant : Constant)
  | intern (constant : Constant)
  | request (wanted : Request)
deriving DecidableEq, Repr

/-- The pool after a call. -/
def Call.run (pool : Pool) : Call → Pool
  | .push constant => (pool.push constant).2
  | .intern constant => (pool.intern constant).2
  | .request wanted => (wanted.intern pool).2

/-- The pool after some calls. -/
def after (pool : Pool) (calls : List Call) : Pool := calls.foldl Call.run pool

/-- Whether every position of a pool has an index. -/
def Fits (pool : Pool) : Prop := pool.size < UInt16.size

instance (pool : Pool) : Decidable pool.Fits :=
  inferInstanceAs (Decidable (pool.size < UInt16.size))

/-! ### Pools grow at their end -/

/-- Whether a later pool starts with the entries of a pool. -/
def Begins (pool later : Pool) : Prop := pool.entries <+: later.entries

section Growth

variable {pool later : Pool} {index : PoolIndex}

/-- A pool starts with its own entries. -/
theorem Begins.refl (pool : Pool) : pool.Begins pool := List.prefix_refl _

/-- What a pool starts with, every later pool starts with. -/
theorem Begins.trans {last : Pool} (begins : pool.Begins later) (begins' : later.Begins last) :
    pool.Begins last :=
  List.IsPrefix.trans begins begins'

/-- Pushing an entry leaves those in front of it alone. -/
theorem begins_push (pool : Pool) (constant : Constant) : pool.Begins (pool.push constant).2 :=
  List.prefix_append pool.entries _

/-- Interning an entry leaves those in front of it alone. -/
theorem begins_intern (pool : Pool) (constant : Constant) :
    pool.Begins (pool.intern constant).2 := by
  -- A constant that is there already changes nothing, and any other goes to the end.
  rw [intern]
  split
  · exact .refl pool
  · exact begins_push pool constant

/-- What a small enough pool starts with is small enough. -/
theorem Fits.of_begins (fits : later.Fits) (begins : pool.Begins later) : pool.Fits :=
  Nat.lt_of_le_of_lt begins.length_le fits

/-- The entry at an index stays there. -/
theorem Begins.get? (begins : pool.Begins later) {constant : Constant}
    (found : pool.get? index = some constant) : later.get? index = some constant := by
  -- Entries are only added behind, so that those in front keep their positions.
  rw [Pool.get?] at found ⊢
  split at found
  · cases found
  · next nonzero =>
    rw [if_neg nonzero]
    obtain ⟨there, usable⟩ := Option.filter_eq_some_iff.mp found
    obtain ⟨within, isEntry⟩ := List.getElem?_eq_some_iff.mp there
    refine Option.filter_eq_some_iff.mpr ⟨?_, usable⟩
    rw [List.getElem?_eq_getElem (Nat.lt_of_lt_of_le within begins.length_le),
      ← begins.getElem within, isEntry]

/-- A text stays at its index. -/
theorem Begins.utf8? (begins : pool.Begins later) {text : String}
    (found : pool.utf8? index = some text) : later.utf8? index = some text := by
  -- Only a text answers, and it is still where it was.
  rw [Pool.utf8?] at found ⊢
  split at found
  · next isEntry =>
    rw [begins.get? isEntry]
    exact found
  · cases found

/-- A class stays at its index, and so does its name. -/
theorem Begins.className? (begins : pool.Begins later) {name : String}
    (found : pool.className? index = some name) : later.className? index = some name := by
  -- Both the class and the text that it refers to are still where they were.
  rw [Pool.className?] at found ⊢
  split at found
  · next isEntry =>
    rw [begins.get? isEntry]
    exact begins.utf8? found
  · cases found

/-- A member goes on referring to the same name and type. -/
theorem Begins.nameAndType? (begins : pool.Begins later) {entry : PoolIndex}
    (found : pool.nameAndType? index = some entry) : later.nameAndType? index = some entry := by
  rw [Pool.nameAndType?] at found ⊢
  -- One case for each kind of member.
  split at found
  · next isEntry => rw [begins.get? isEntry]; exact found
  · next isEntry => rw [begins.get? isEntry]; exact found
  · next isEntry => rw [begins.get? isEntry]; exact found
  · next isEntry => rw [begins.get? isEntry]; exact found
  · cases found

/-- A member goes on referring to the same two texts. -/
theorem Begins.member? (begins : pool.Begins later) {member : PoolIndex × PoolIndex}
    (found : pool.member? index = some member) : later.member? index = some member := by
  -- The entry, its name and type and the two texts are found one through the other.
  obtain ⟨entry, isEntry, found⟩ := Option.bind_eq_some_iff.mp found
  refine Option.bind_eq_some_iff.mpr ⟨entry, begins.nameAndType? isEntry, ?_⟩
  split at found
  · next isNameAndType =>
    rw [begins.get? isNameAndType]
    exact found
  · cases found

/-- The name of a member stays. -/
theorem Begins.memberName? (begins : pool.Begins later) {name : String}
    (found : pool.memberName? index = some name) : later.memberName? index = some name := by
  -- The name is the first of the two texts.
  obtain ⟨member, isMember, isName⟩ := Option.bind_eq_some_iff.mp found
  exact Option.bind_eq_some_iff.mpr ⟨member, begins.member? isMember, begins.utf8? isName⟩

/-- The descriptor of a member stays. -/
theorem Begins.memberDescriptor? (begins : pool.Begins later) {descriptor : String}
    (found : pool.memberDescriptor? index = some descriptor) :
    later.memberDescriptor? index = some descriptor := by
  -- The descriptor is the second of the two texts.
  obtain ⟨member, isMember, isDescriptor⟩ := Option.bind_eq_some_iff.mp found
  exact Option.bind_eq_some_iff.mpr ⟨member, begins.member? isMember, begins.utf8? isDescriptor⟩

end Growth

/-- Everything that a pool has at an index, a later pool has there too. -/
structure KeptIn (pool later : Pool) : Prop where
  get? : ∀ {index constant}, pool.get? index = some constant → later.get? index = some constant
  utf8? : ∀ {index text}, pool.utf8? index = some text → later.utf8? index = some text
  className? : ∀ {index name}, pool.className? index = some name →
    later.className? index = some name
  memberName? : ∀ {index name}, pool.memberName? index = some name →
    later.memberName? index = some name
  memberDescriptor? : ∀ {index descriptor},
    pool.memberDescriptor? index = some descriptor → later.memberDescriptor? index = some descriptor

/-- What is at an index of a pool is there in all pools that begin with it. -/
theorem Begins.keptIn {pool later : Pool} (begins : pool.Begins later) : pool.KeptIn later :=
  ⟨begins.get?, begins.utf8?, begins.className?, begins.memberName?, begins.memberDescriptor?⟩

/-! ### The noted indexes of texts -/

/-- Whether the index noted for a text is that of its first entry, and is missing
if there is none. -/
def Agrees (pool : Pool) : Prop := ∀ text, pool.texts.lookup text = pool.first? (.utf8 text)

/-- An empty pool has neither entries nor noted texts. -/
theorem agrees_empty : Agrees {} := fun _ => rfl

section Agreement

variable {pool : Pool} {constant : Constant}

/-- An entry that is there already keeps its first index when another one is pushed. -/
theorem first?_push_of_some {other : Constant} {index : PoolIndex}
    (found : pool.first? constant = some index) :
    (pool.push other).2.first? constant = some index := by
  -- The search ends before it comes to the new entry.
  obtain ⟨position, isFirst, rfl⟩ := Option.map_eq_some_iff.mp found
  rw [first?, push, List.findIdx?_append, isFirst]
  rfl

/-- An entry that was not there is first found where it is pushed. -/
theorem first?_push_of_none (self : constant.same constant) (absent : pool.first? constant = none) :
    (pool.push constant).2.first? constant = some (pool.push constant).1 := by
  -- No entry in front is interchangeable, so the search comes to the new one.
  rw [first?, push, List.findIdx?_append, Option.map_eq_none_iff.mp absent, Option.none_or,
    List.findIdx?_cons, if_pos self]
  simp [size]

/-- A text is not found where another entry is pushed. -/
theorem first?_push_of_ne {text : String} {other : Constant} (differ : other ≠ .utf8 text)
    (absent : pool.first? (.utf8 text) = none) :
    (pool.push other).2.first? (.utf8 text) = none := by
  -- Only the text itself is interchangeable with a text.
  have notSame : ∀ {constant : Constant}, constant ≠ .utf8 text →
      constant.same (.utf8 text) = false := fun differ =>
    Bool.eq_false_iff.mpr (mt (Constant.same_iff_eq rfl).mp differ)
  rw [first?, push, List.findIdx?_append, Option.map_eq_none_iff.mp absent, Option.none_or,
    List.findIdx?_cons, notSame differ, if_neg Bool.false_ne_true]
  -- What follows the entry is a gap at most.
  split <;> simp [Constant.same]

/-- Noting an entry gives its text the index, unless the text has one already. -/
theorem lookup_noted {texts : List (String × PoolIndex)} {index : PoolIndex} {text : String} :
    (noted texts index constant).lookup text =
      (texts.lookup text).or (if constant = .utf8 text then some index else none) := by
  -- Entries that are no texts are not noted.
  cases constant with
  | utf8 other =>
    rw [noted]
    by_cases here : other = text
    · subst here
      cases known : texts.lookup other with
      -- A text that was noted before keeps its index.
      | some old => simp [known]
      | none => simp
    · -- A pair for another text does not matter.
      have differ : (text == other) = false := by simpa using Ne.symm here
      split <;> simp [List.lookup_cons, differ, here]
  | _ => simp [noted]

/-- Pushing an entry notes the index of a text that comes for the first time, and no other. -/
theorem Agrees.push (agrees : pool.Agrees) (constant : Constant) :
    (pool.push constant).2.Agrees := by
  intro text
  -- The new list of texts is asked through the old one, which agrees with the entries.
  have noted : (pool.push constant).2.texts.lookup text =
      (pool.first? (.utf8 text)).or
        (if constant = .utf8 text then some (pool.push constant).1 else none) := by
    rw [← agrees text]
    exact lookup_noted
  rw [noted]
  cases found : pool.first? (.utf8 text) with
  -- A text that was found before is found at the same index.
  | some index => rw [first?_push_of_some found, Option.some_or]
  | none =>
    rw [Option.none_or]
    split
    · next isText =>
      subst isText
      exact (first?_push_of_none (by simp [Constant.same]) found).symm
    · next differ => exact (first?_push_of_ne differ found).symm

/-- Where the noted indexes agree with the entries, looking a text up is searching for it. -/
theorem Agrees.intern_eq (agrees : pool.Agrees) (constant : Constant) : pool.intern constant =
    match pool.first? constant with
    | some index => (index, pool)
    | none => pool.push constant := by
  -- Only texts are looked up, and for those the lookup agrees with the search.
  have found : (pool.noted? constant).or (pool.first? constant) = pool.first? constant := by
    cases constant with
    | utf8 text => rw [noted?, agrees text, Option.or_self]
    | _ => rfl
  cases first : pool.first? constant with
  | some index => simp only [Pool.intern, found.trans first]
  | none => simp only [Pool.intern, found.trans first]

/-- Interning keeps the noted indexes in step with the entries. -/
theorem Agrees.intern (agrees : pool.Agrees) (constant : Constant) :
    (pool.intern constant).2.Agrees := by
  rw [agrees.intern_eq]
  -- The pool stays as it is, or it gets one entry.
  split
  · exact agrees
  · exact agrees.push constant

end Agreement

/-! ### One step -/

/-- An entry is at the index one past its position, which the size of the pool bounds. -/
theorem get?_ofNat_succ {pool : Pool} {constant : Constant} (exact : constant.isExact)
    (fits : pool.Fits) {position : Nat} (there : pool.entries[position]? = some constant) :
    pool.get? (UInt16.ofNat (position + 1)) = some constant := by
  -- The bound keeps the index from wrapping around, and above all from becoming zero.
  have within : position + 1 < UInt16.size := by
    have := (List.getElem?_eq_some_iff.mp there).1
    rw [Fits, size] at fits
    omega
  have toNat : (UInt16.ofNat (position + 1)).toNat = position + 1 := by
    rw [UInt16.toNat_ofNat', Nat.mod_eq_of_lt within]
  have nonzero : UInt16.ofNat (position + 1) ≠ 0 := by
    intro isZero
    rw [isZero] at toNat
    cases toNat
  rw [get?, if_neg nonzero, toNat, Nat.add_sub_cancel, there]
  cases constant with
  | gap => cases exact
  | _ => rfl

/-- The entry just interned is at its index. -/
theorem get?_intern {pool : Pool} {constant : Constant} (agrees : pool.Agrees)
    (exact : constant.isExact) (fits : (pool.intern constant).2.Fits) :
    (pool.intern constant).2.get? (pool.intern constant).1 = some constant := by
  rw [agrees.intern_eq] at fits ⊢
  -- An interchangeable entry is taken, or a new one is put at the end.
  cases found : pool.first? constant with
  -- An exact entry that is interchangeable with the constant is the constant.
  | some index =>
    rw [found] at fits
    obtain ⟨position, isFirst, rfl⟩ := Option.map_eq_some_iff.mp found
    obtain ⟨within, isSame, -⟩ := List.findIdx?_eq_some_iff_getElem.mp isFirst
    refine get?_ofNat_succ exact fits ?_
    rw [List.getElem?_eq_getElem within, (Constant.same_iff_eq exact).mp isSame]
  -- A new entry is at the position that was the size of the pool.
  | none =>
    rw [found] at fits
    refine get?_ofNat_succ exact fits ?_
    rw [push, size, List.getElem?_append_right (Nat.le_refl _), Nat.sub_self]
    rfl

/-- A step that only adds entries and notes their texts,
and that later finds again what it has added. -/
structure Settles (step : Pool → PoolIndex × Pool) : Prop where
  begins : ∀ pool : Pool, pool.Begins (step pool).2
  agrees : ∀ {pool : Pool}, pool.Agrees → (step pool).2.Agrees
  again : ∀ {pool later : Pool}, pool.Agrees → later.Agrees → (step pool).2.Begins later →
    step later = ((step pool).1, later)

/-- The first entry stays the first in a pool that has grown. -/
theorem Begins.first? {pool later : Pool} (begins : pool.Begins later) {constant : Constant}
    {index : PoolIndex} (found : pool.first? constant = some index) :
    later.first? constant = some index := by
  -- The entries in front are the same, so the search ends at the same position.
  obtain ⟨position, isFirst, rfl⟩ := Option.map_eq_some_iff.mp found
  exact Option.map_eq_some_iff.mpr ⟨position, List.IsPrefix.findIdx?_eq_some begins isFirst, rfl⟩

/-- Interning an exact entry finds it again in every later pool. -/
theorem settles_intern {constant : Constant} (exact : constant.isExact) :
    Settles (·.intern constant) where
  begins pool := begins_intern pool constant
  agrees isAgreed := isAgreed.intern constant
  again {pool later} agrees agrees' begins := by
    -- The first interchangeable entry of the grown pool is the one that the index stands for.
    have isFirst : (pool.intern constant).2.first? constant = some (pool.intern constant).1 := by
      rw [agrees.intern_eq]
      cases found : pool.first? constant with
      | some index => exact found
      | none => exact first?_push_of_none ((Constant.same_iff_eq exact).mpr rfl) found
    rw [agrees'.intern_eq, begins.first? isFirst]

/-- One step after the other, where the second may use the index that the first returns. -/
theorem Settles.bind {step : Pool → PoolIndex × Pool} {next : PoolIndex → Pool → PoolIndex × Pool}
    (settles : Settles step) (settles' : ∀ index, Settles (next index)) :
    Settles fun pool => next (step pool).1 (step pool).2 where
  begins pool := (settles.begins pool).trans ((settles' _).begins _)
  agrees isAgreed := (settles' _).agrees (settles.agrees isAgreed)
  again {pool later} agrees agrees' begins := by
    -- The first step finds its entry in all that the second one has left, and so changes nothing.
    have first : step later = ((step pool).1, later) :=
      settles.again agrees agrees' (((settles' _).begins (step pool).2).trans begins)
    simp only [first]
    exact (settles' _).again (settles.agrees agrees) agrees' begins

/-! ### Requests -/

/-- Members are interchangeable with themselves alone. -/
theorem MemberKind.isExact_entry (kind : MemberKind) (owner nameAndType : PoolIndex) :
    (kind.entry owner nameAndType).isExact := by
  cases kind <;> rfl

/-- Interning a text settles. -/
theorem settles_internUtf8 (text : String) : Settles (·.internUtf8 text) := settles_intern rfl

/-- Interning a class settles: first its name, then the class. -/
theorem settles_internClass (name : String) : Settles (·.internClass name) :=
  (settles_internUtf8 name).bind fun _ => settles_intern rfl

/-- Interning a name and a descriptor settles: first both texts, then the entry. -/
theorem settles_internNameAndType (name descriptor : String) :
    Settles (·.internNameAndType name descriptor) :=
  (settles_internUtf8 name).bind fun _ => (settles_internUtf8 descriptor).bind fun _ =>
  settles_intern rfl

/-- Interning a member settles: first its class, then its name and descriptor, then the member. -/
theorem settles_internMember (kind : MemberKind) (owner name descriptor : String) :
    Settles (·.internMember kind.entry owner name descriptor) :=
  (settles_internClass owner).bind fun ownerIndex =>
  (settles_internNameAndType name descriptor).bind fun nameAndType =>
    settles_intern (kind.isExact_entry ownerIndex nameAndType)

/-- Interning what a request asks for settles. -/
theorem Request.settles (request : Request) : Settles request.intern := by
  -- Texts come first and what refers to them after, each of which settles by itself.
  cases request with
  | utf8 text => exact settles_internUtf8 text
  | classRef name => exact settles_internClass name
  | string text => exact (settles_internUtf8 text).bind fun _ => settles_intern rfl
  | nameAndType name descriptor => exact settles_internNameAndType name descriptor
  | field owner name descriptor => exact settles_internMember .field owner name descriptor
  | method owner name descriptor => exact settles_internMember .method owner name descriptor
  | interfaceMethod owner name descriptor =>
    exact settles_internMember .interfaceMethod owner name descriptor

section Resolution

variable {pool : Pool} (agrees : pool.Agrees)

include agrees

/-- The text just interned is at its index. -/
theorem utf8?_internUtf8 {text : String} (fits : (pool.internUtf8 text).2.Fits) :
    (pool.internUtf8 text).2.utf8? (pool.internUtf8 text).1 = some text := by
  -- A text is exact, so the entry at the index is that text.
  have isEntry : (pool.internUtf8 text).2.get? (pool.internUtf8 text).1 = some (.utf8 text) :=
    get?_intern agrees rfl fits
  rw [utf8?, isEntry]

/-- The class just interned is at its index, with its name. -/
theorem className?_internClass {name : String} (fits : (pool.internClass name).2.Fits) :
    (pool.internClass name).2.className? (pool.internClass name).1 = some name := by
  -- The text is interned before the class, which leaves it in place.
  have begins : (pool.internUtf8 name).2.Begins (pool.internClass name).2 := begins_intern _ _
  have isEntry : (pool.internClass name).2.get? (pool.internClass name).1 =
      some (.classRef (pool.internUtf8 name).1) := get?_intern (agrees.intern _) rfl fits
  rw [className?, isEntry]
  exact begins.utf8? (utf8?_internUtf8 agrees (fits.of_begins begins))

/-- The entry of a name and a descriptor refers to the two texts. -/
theorem exists_internNameAndType {name descriptor : String}
    (fits : (pool.internNameAndType name descriptor).2.Fits) :
    ∃ i j, (pool.internNameAndType name descriptor).2.get?
        (pool.internNameAndType name descriptor).1 = some (.nameAndType i j) ∧
      (pool.internNameAndType name descriptor).2.utf8? i = some name ∧
      (pool.internNameAndType name descriptor).2.utf8? j = some descriptor := by
  -- The name, the descriptor and the entry of both are interned in this order, each
  -- in what the last has left.
  have named : (pool.internUtf8 name).2.Begins ((pool.internUtf8 name).2.internUtf8 descriptor).2 :=
    begins_intern _ _
  have described : ((pool.internUtf8 name).2.internUtf8 descriptor).2.Begins
      (pool.internNameAndType name descriptor).2 :=
    begins_intern _ _
  have fits' := fits.of_begins described
  have agrees' : (pool.internUtf8 name).2.Agrees := agrees.intern _
  exact ⟨_, _, get?_intern (agrees'.intern _) rfl fits,
    (named.trans described).utf8? (utf8?_internUtf8 agrees (fits'.of_begins named)),
    described.utf8? (utf8?_internUtf8 agrees' fits')⟩

omit agrees in
/-- The texts of a member are those that its name and type refer to. -/
theorem member?_of_get? {kind : MemberKind} {index owner nameAndType i j : PoolIndex}
    (isEntry : pool.get? index = some (kind.entry owner nameAndType))
    (found : pool.get? nameAndType = some (.nameAndType i j)) :
    pool.member? index = some (i, j) := by
  -- All three kinds of members hold the index of their name and type at the same place.
  have isMember : pool.nameAndType? index = some nameAndType := by
    rw [nameAndType?, isEntry]
    cases kind <;> rfl
  rw [member?, isMember, Option.bind_eq_bind, Option.bind_some, found]

/-- An entry that refers to a class and to a name and a descriptor is a member of this class. -/
theorem isMember_intern (kind : MemberKind) {owner name descriptor : String}
    {ownerIndex nameAndType i j : PoolIndex}
    (fits : (pool.intern (kind.entry ownerIndex nameAndType)).2.Fits)
    (isOwner : pool.className? ownerIndex = some owner)
    (isNameAndType : pool.get? nameAndType = some (.nameAndType i j))
    (isName : pool.utf8? i = some name) (isDescriptor : pool.utf8? j = some descriptor) :
    (pool.intern (kind.entry ownerIndex nameAndType)).2.IsMember kind owner name descriptor
      (pool.intern (kind.entry ownerIndex nameAndType)).1 := by
  -- The parts were there before the entry, and stay there.
  have begins := begins_intern pool (kind.entry ownerIndex nameAndType)
  have isEntry := get?_intern agrees (kind.isExact_entry ownerIndex nameAndType) fits
  have isMember := member?_of_get? isEntry (begins.get? isNameAndType)
  refine ⟨⟨_, _, isEntry, begins.className? isOwner⟩, ?_, ?_⟩
  · rw [memberName?, isMember]
    exact begins.utf8? isName
  · rw [memberDescriptor?, isMember]
    exact begins.utf8? isDescriptor

/-- The member just interned is at its index, with its class, name and descriptor. -/
theorem isMember_internMember (kind : MemberKind) {owner name descriptor : String}
    (fits : (pool.internMember kind.entry owner name descriptor).2.Fits) :
    (pool.internMember kind.entry owner name descriptor).2.IsMember kind owner name descriptor
      (pool.internMember kind.entry owner name descriptor).1 := by
  -- The owner comes first and stays there while the name and the descriptor are interned.
  have owned : (pool.internClass owner).2.Begins
      ((pool.internClass owner).2.internNameAndType name descriptor).2 :=
    (settles_internNameAndType name descriptor).begins _
  have fits' : ((pool.internClass owner).2.internNameAndType name descriptor).2.Fits :=
    fits.of_begins (begins_intern _ _)
  have agrees' := (settles_internClass owner).agrees agrees
  obtain ⟨i, j, isNameAndType, isName, isDescriptor⟩ := exists_internNameAndType agrees' fits'
  have isOwner := owned.className? (className?_internClass agrees (fits'.of_begins owned))
  exact isMember_intern ((settles_internNameAndType name descriptor).agrees agrees') kind fits
    isOwner isNameAndType isName isDescriptor

/-- What a request asks for is at the index that interning returns. -/
theorem Request.resolvesAt {request : Request} (fits : (request.intern pool).2.Fits) :
    request.ResolvesAt (request.intern pool).2 (request.intern pool).1 := by
  -- One case per kind of request, where members differ in their kind alone.
  cases request with
  | utf8 text => exact utf8?_internUtf8 agrees fits
  | classRef name => exact className?_internClass agrees fits
  | string text =>
    have begins : (pool.internUtf8 text).2.Begins (pool.internString text).2 := begins_intern _ _
    exact ⟨_, get?_intern (agrees.intern _) rfl fits,
      begins.utf8? (utf8?_internUtf8 agrees (fits.of_begins begins))⟩
  | nameAndType name descriptor => exact exists_internNameAndType agrees fits
  | field => exact isMember_internMember agrees .field fits
  | method => exact isMember_internMember agrees .method fits
  | interfaceMethod => exact isMember_internMember agrees .interfaceMethod fits

omit agrees in
/-- An index goes on resolving to the texts of a request. -/
theorem Request.ResolvesAt.of_begins {request : Request} {index : PoolIndex} {later : Pool}
    (begins : pool.Begins later) (resolves : request.ResolvesAt pool index) :
    request.ResolvesAt later index := by
  -- The three kinds of members differ in nothing that is asked here.
  have keeps : ∀ {kind owner name descriptor}, pool.IsMember kind owner name descriptor index →
      later.IsMember kind owner name descriptor index := by
    intro kind owner name descriptor isMember
    obtain ⟨i, j, isEntry, isOwner⟩ := isMember.owner
    exact ⟨⟨i, j, begins.get? isEntry, begins.className? isOwner⟩, begins.memberName? isMember.name,
      begins.memberDescriptor? isMember.descriptor⟩
  cases request with
  -- In each case the entries that the texts are found through stay where they are.
  | utf8 text => exact begins.utf8? resolves
  | classRef name => exact begins.className? resolves
  | string text =>
    obtain ⟨i, isEntry, isText⟩ := resolves
    exact ⟨i, begins.get? isEntry, begins.utf8? isText⟩
  | nameAndType name descriptor =>
    obtain ⟨i, j, isEntry, isName, isDescriptor⟩ := resolves
    exact ⟨i, j, begins.get? isEntry, begins.utf8? isName, begins.utf8? isDescriptor⟩
  | field | method | interfaceMethod => exact keeps resolves

end Resolution

/-! ### Runs -/

/-- A single call takes nothing away from a pool. -/
theorem begins_run (pool : Pool) (call : Call) : pool.Begins (call.run pool) := by
  -- Requests are made of single steps, none of which takes anything away.
  cases call with
  | push constant => exact begins_push pool constant
  | intern constant => exact begins_intern pool constant
  | request wanted => exact wanted.settles.begins pool

/-- No call takes anything away from a pool. -/
theorem begins_after (pool : Pool) (calls : List Call) : pool.Begins (pool.after calls) := by
  -- By induction on the calls, as beginning is transitive.
  induction calls generalizing pool with
  | nil => exact .refl pool
  | cons call rest ih => exact (begins_run pool call).trans (ih (call.run pool))

/-- A single call keeps the noted indexes in step with the entries. -/
theorem Agrees.run {pool : Pool} (agrees : pool.Agrees) (call : Call) : (call.run pool).Agrees := by
  -- As for the entries, one case per kind of call.
  cases call with
  | push constant => exact agrees.push constant
  | intern constant => exact agrees.intern constant
  | request wanted => exact wanted.settles.agrees agrees

/-- Whatever calls have led to a pool, the indexes that it notes for texts
are those of their first entries. -/
theorem Agrees.after {pool : Pool} (agrees : pool.Agrees) (calls : List Call) :
    (pool.after calls).Agrees := by
  -- By induction on the calls, each of which keeps the agreement.
  induction calls generalizing pool with
  | nil => exact agrees
  | cons call rest ih => exact ih (agrees.run call)

/-- The index that a request is given resolves to its texts, everything that resolved before still
does, and asking again returns the same index and adds nothing: at once,
and after any further calls. -/
theorem interned_for_good (earlier later : List Call) (request : Request)
    (fits : (request.intern (after {} earlier)).2.Fits) :
    let pool := after {} earlier
    let index := (request.intern pool).1
    let grown := (request.intern pool).2.after later
    request.ResolvesAt grown index ∧ pool.KeptIn grown ∧ request.intern grown = (index, grown) := by
  -- Whatever calls follow, the pool begins with what the request has left.
  intro pool index grown
  have begins : (request.intern pool).2.Begins grown := begins_after _ later
  have agrees : pool.Agrees := agrees_empty.after earlier
  have agrees' : grown.Agrees := (request.settles.agrees agrees).after later
  exact ⟨(Request.resolvesAt agrees fits).of_begins begins,
    ((request.settles.begins pool).trans begins).keptIn,
    request.settles.again agrees agrees' begins⟩

/-- A pool with a wide number, a reference to nothing and a text twice. -/
def crossed : List Call :=
  [.push (.long 7), .push (.method 99 4), .push (.utf8 "A"), .push (.utf8 "A"), .intern .gap]

/-- A method interned there, before its class is named once more. -/
theorem crossed_interned_for_good :
    let request := Request.method "A" "f" "()V"
    let pool := after {} crossed
    let grown := (request.intern pool).2.after [.push (.utf8 "f"), .request (.classRef "A")]
    (request.intern pool).1 = 10 ∧ request.ResolvesAt grown 10 ∧ pool.KeptIn grown ∧
    request.intern grown = (10, grown) := by
  -- The pool stays small, and the request is given index 10.
  have fits : ((Request.method "A" "f" "()V").intern (after {} crossed)).2.Fits := by decide +kernel
  have isTen : ((Request.method "A" "f" "()V").intern (after {} crossed)).1 = 10 := by
    decide +kernel
  have interned :=
    interned_for_good crossed [.push (.utf8 "f"), .request (.classRef "A")]
      (.method "A" "f" "()V") fits
  simp only [isTen] at interned
  exact ⟨isTen, interned⟩

end Pool

end Unjump
