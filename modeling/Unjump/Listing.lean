import Unjump.Floating.Reader
import Unjump.Method
import Unjump.Pool
import Unjump.Text.Lines
import Unjump.Text.Word

/-!
Assembling methods from textual listings.

A listing has one instruction a line, `offset: mnemonic operand`, between comments that start with
`#` and the directives `.catch start end handler class`, `.local slot start length name descriptor
signature` and `.line number`.
-/

namespace Unjump

/-- Why a listing cannot be assembled. -/
inductive ListingError where
  | syntaxError (line : Nat) (text : String)
  | unknownMnemonic (line : Nat) (mnemonic : String)
  | invalidOperand (line : Nat) (mnemonic : String) (operand : String)
  | unknownDirective (line : Nat) (directive : String)
  | noInstructions
deriving DecidableEq, Inhabited, Repr

/-- The complaint about a listing. -/
def ListingError.message : ListingError → String
  | .syntaxError line text => s!"line {line}: cannot parse `{text}`"
  | .unknownMnemonic line mnemonic => s!"line {line}: unknown mnemonic `{mnemonic}`"
  | .invalidOperand line mnemonic operand =>
    s!"line {line}: invalid operand `{operand}` for `{mnemonic}`"
  | .unknownDirective line directive => s!"line {line}: unknown directive `{directive}`"
  | .noInstructions => "listing contains no instructions"

/-- The operand notation that an operation takes in a listing. -/
inductive OperandForm where
  | absent | int | slot | increment | constant | field | method | interfaceMethod | dynamic
  | type | multiArray | arrayType | branch | switch
deriving DecidableEq, Inhabited, Repr

/-- The operand notation of each operation. -/
def Operation.operandForm : Operation → OperandForm
  | .immediate => .int
  | .load _ none | .store _ none | .ret => .slot
  | .increment => .increment
  | .constant => .constant
  | .getStatic | .putStatic | .getField | .putField => .field
  | .invoke .interface => .interfaceMethod
  | .invoke .dynamic => .dynamic
  | .invoke _ => .method
  | .new | .newObjectArray | .checkCast | .instanceOf => .type
  | .newMultiArray => .multiArray
  | .newArray => .arrayType
  | .ifZero _ | .ifCompare _ | .ifNull _ | .goto | .jsr => .branch
  | .switch => .switch
  | _ => .absent

/-- Whether a character can stand in the name of a class. -/
def isClassChar (c : Char) : Bool := isWord c || c == '/' || c == '$'

/-- Whether a character can stand in the name of a member. -/
def isMemberChar (c : Char) : Bool := isWord c || c == '$' || c == '<' || c == '>'

/-- Splits a non-empty run of characters off a text. -/
def splitRun? (test : Char → Bool) (text : List Char) : Option (String × List Char) :=
  let run := text.takeWhile test
  if run.isEmpty then none else some (String.ofList run, text.dropWhile test)

/-- Reads the class and the member name in front of a type, as in `java/lang/System.out`. -/
def readMember? (text : List Char) : Option (String × String × List Char) := do
  let (owner, rest) ← splitRun? isClassChar text
  match rest with
  | '.' :: rest =>
    let (name, rest) ← splitRun? isMemberChar rest
    return (owner, name, rest)
  | _ => none

/-- Reads a field type after its colon, a non-empty text without blanks. -/
def readFieldType? : List Char → Option String
  | ':' :: type => if type.isEmpty || type.any isBlank then none else some (String.ofList type)
  | _ => none

/-- Reads a method type: a text without blanks from its parenthesis on, with more
after a closing one. -/
def readMethodType? : List Char → Option String
  | '(' :: type =>
    if type.any isBlank || !type.dropLast.contains ')' then none
      else some (String.ofList ('(' :: type))
  | _ => none

/-- Reads the name of a class, a non-empty text without blanks. -/
def readClassName? (text : List Char) : Option String :=
  if text.isEmpty || text.any isBlank then none else some (String.ofList text)

/-- Reads a primitive element type by name or by number. -/
def readArrayType? (text : List Char) : Option UInt8 :=
  match String.ofList text with
  | "boolean" => some 4
  | "char" => some 5
  | "float" => some 6
  | "double" => some 7
  | "byte" => some 8
  | "short" => some 9
  | "int" => some 10
  | "long" => some 11
  | _ => readUInt8? text

/-- Reads a switch case, written `key:target`. -/
def readCase? (text : List Char) : Option (Int32 × Offset) :=
  -- Neither side takes a plus sign here.
  if text.contains '+' then none
  else match splitAtChar ':' text with
    | [key, target] => do return (← readInt32? key, ← readUInt32? target)
    | _ => none

/-- Reads a switch table, written as its default followed by the cases. -/
def readSwitch? (text : List Char) : Option Operand :=
  match splitWords text with
  | [] => none
  | default :: cases => do return .switch (← readUInt32? default) (← cases.mapM readCase?)

/-- Reads a number constant, whose type its last letter or a point tells. -/
def readNumber? (text : List Char) : Option Constant :=
  let digits := text.dropLast
  match text.getLast? with
  | some 'L' | some 'l' => (readInt64? digits).map .long
  | some 'F' | some 'f' => (Single.read? digits).map .float
  | some 'D' | some 'd' => (Double.read? digits).map .double
  | _ =>
    if text.contains '.' then (Double.read? text).map .double
    else (readInt32? text).map .integer

/-- The text between a pair of quotes. -/
def readQuoted? : List Char → Option String
  | '"' :: rest => if rest.getLast? == some '"' then some (String.ofList rest.dropLast) else none
  | _ => none

/-- The text after the keyword of a class constant. -/
def readClassKeyword? : List Char → Option (List Char)
  | 'c' :: 'l' :: 'a' :: 's' :: 's' :: ' ' :: rest => some rest
  | _ => none

/-- Reads a loadable constant: a pool reference, a quoted string, a class or a number. -/
def readLoadable? (pool : Pool) (text : List Char) : Option (PoolIndex × Pool) :=
  match text with
  | '#' :: index => (readUInt16? index).map (·, pool)
  | _ => match readQuoted? text with
    | some quoted => some (pool.internString quoted)
    | none => match readClassKeyword? text with
      | some name => (readClassName? (trim name)).map pool.internClass
      | none => (readNumber? text).map pool.intern

/-- Reads an operand in the notation its operation takes, interning whatever it names. -/
def readOperand? (pool : Pool) (form : OperandForm) (text : List Char) : Option (Operand × Pool) :=
  let pooled := fun (entry : PoolIndex × Pool) => (Operand.pool entry.1, entry.2)
  match form with
  | .absent => if text.isEmpty then some (.absent, pool) else none
  | .int => (readInt32? text).map (.int ·, pool)
  | .slot => (readUInt16? text).map (.slot ·, pool)
  | .increment => match splitWords text with
    | [slot, delta] => do return (.increment (← readUInt16? slot) (← readInt16? delta), pool)
    | _ => none
  | .constant => (readLoadable? pool text).map pooled
  | .field => do
    let (owner, name, rest) ← readMember? text
    return pooled (pool.internField owner name (← readFieldType? rest))
  | .method => do
    let (owner, name, rest) ← readMember? text
    return pooled (pool.internMethod owner name (← readMethodType? rest))
  | .interfaceMethod => do
    let (owner, name, rest) ← readMember? text
    return pooled (pool.internInterfaceMethod owner name (← readMethodType? rest))
  | .dynamic => do
    let (name, rest) ← splitRun? isMemberChar text
    return pooled (pool.internDynamic name (← readMethodType? rest))
  | .type => do return pooled (pool.internClass (← readClassName? text))
  | .multiArray => match splitWords text with
    | [type, dimensions] => do
      let (index, pool) := pool.internClass (← readClassName? type)
      return (.multiArray index (← readUInt8? dimensions), pool)
    | _ => none
  | .arrayType => (readArrayType? text).map (.arrayType ·, pool)
  | .branch => (readUInt32? text).map (.branch ·, pool)
  | .switch => (readSwitch? text).map (·, pool)

/-- An assembled method with the tables that its code refers to. -/
structure Listing where
  method : Method := {}
  pool : Pool := {}
  locals : Locals := []
deriving DecidableEq, Inhabited, Repr

/-- What has been assembled so far, and the source line of the instructions to come. -/
structure Assembly where
  listing : Listing := {}
  line : Option Line := none
deriving DecidableEq, Inhabited, Repr

namespace Assembly

/-- Adds the exception table row that a directive describes. -/
def addCatch? (state : Assembly) (words : List (List Char)) : Option Assembly :=
  match words with
  | [start, finish, handler, type] => do
    let listing := state.listing
    let (catchType, pool) :=
      if type = "any".toList then (none, listing.pool)
      else
        let (index, pool) := listing.pool.internClass (String.ofList type)
        (some index, pool)
    let row := ⟨← readUInt32? start, ← readUInt32? finish, ← readUInt32? handler, catchType⟩
    let exceptions := listing.method.exceptions ++ [row]
    return { state with listing := { listing with
      method := { listing.method with exceptions }, pool } }
  | _ => none

/-- Adds the local variable that a directive describes, with its generic type if there is one. -/
def addLocal? (state : Assembly) (slot start length name descriptor : List Char)
    (signature : Option (List Char)) : Option Assembly := do
  let listing := state.listing
  let slot ← readUInt16? slot
  let start ← readUInt32? start
  let length ← readUInt32? length
  let (name, pool) := listing.pool.internUtf8 (String.ofList name)
  let (descriptor, pool) := pool.internUtf8 (String.ofList descriptor)
  let (signature, pool) := match signature with
    | some signature => pool.internUtf8 (String.ofList signature)
    | none => (0, pool)
  let locals := listing.locals ++ [⟨slot, start, length, name, descriptor, signature⟩]
  return { state with listing := { listing with pool, locals } }

/-- Follows the words of a directive, which fails when they do not fit its name. -/
def direct? (state : Assembly) (directive : String) (words : List (List Char)) : Option Assembly :=
  match directive, words with
  | "catch", words => state.addCatch? words
  | "local", [slot, start, length, name, descriptor] =>
    state.addLocal? slot start length name descriptor none
  | "local", [slot, start, length, name, descriptor, signature] =>
    state.addLocal? slot start length name descriptor (some signature)
  | "line", number :: _ => (readUInt32? number).map fun line => { state with line := some line }
  | _, _ => none

/-- Whether a character can stand in a mnemonic. -/
def isMnemonicChar (c : Char) : Bool := 'a' ≤ c && c ≤ 'z' || c.isDigit || c == '_'

/-- Splits an instruction line into offset, mnemonic and operand. -/
def splitInstruction? (content : List Char) : Option (Offset × String × List Char) := do
  let (offset, rest) ← splitRun? Char.isDigit content
  match rest with
  | ':' :: rest =>
    let (mnemonic, rest) ← splitRun? isMnemonicChar (rest.dropWhile isBlank)
    -- Only blanks may separate the mnemonic from its operand.
    if (rest.head?.map isBlank).getD true
      then return (← readUInt32? offset.toList, mnemonic, trim rest)
    else none
  | _ => none

/-- Assembles an instruction line. -/
def addInstruction (state : Assembly) (number : Nat) (content : List Char) :
    Except ListingError Assembly :=
  match splitInstruction? content with
  | none => .error (.syntaxError number (String.ofList content))
  | some (offset, mnemonic, operandText) =>
    match Opcode.ofMnemonic? mnemonic with
    | none => .error (.unknownMnemonic number mnemonic)
    | some opcode =>
      let form := (opcode.operation?.map Operation.operandForm).getD .absent
      match readOperand? state.listing.pool form operandText with
      | none => .error (.invalidOperand number mnemonic (String.ofList operandText))
      | some (operand, pool) =>
        let method := state.listing.method
        let code := method.code ++ [{ offset, opcode, operand, line := state.line }]
        .ok { state with listing := { state.listing with method := { method with code }, pool } }

/-- The name of a directive line and the text after it. -/
def splitDirective? : List Char → Option (String × List Char)
  | '.' :: rest => splitRun? isWord rest
  | _ => none

/-- Assembles one line without the blanks around it. -/
def addLine (state : Assembly) (number : Nat) (content : List Char) :
    Except ListingError Assembly :=
  if content.isEmpty || content.head? == some '#' then .ok state
  else match splitDirective? content with
    | some (directive, rest) =>
      if directive ∈ ["catch", "local", "line"] then
        match state.direct? directive (splitWords rest) with
        | some state => .ok state
        | none => .error (.syntaxError number (String.ofList content))
      else .error (.unknownDirective number directive)
    | none => state.addInstruction number content

/-- Assembles lines that are numbered upwards from a first one. -/
def addLines (state : Assembly) (number : Nat) : List (List Char) → Except ListingError Assembly
  | [] => .ok state
  | line :: rest => do (← state.addLine number (trim line)).addLines (number + 1) rest

end Assembly

/-- Assembles a listing, whose code ends one past its last offset. -/
def Listing.assemble (text : String) : Except ListingError Listing := do
  let listing := (← Assembly.addLines {} 1 (splitAtChar '\n' text.toList)).listing
  match listing.method.code.getLast? with
  | none => .error .noInstructions
  | some last =>
    return { listing with method := { listing.method with codeLength := last.offset + 1 } }

end Unjump
