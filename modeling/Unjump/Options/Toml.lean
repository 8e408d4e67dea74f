import Unjump.Structuring
import Unjump.Text.Lines

/-!
Settings as TOML text.

Read are bare and dotted keys, the `[builder]` table in its three forms, booleans and integers. A
key that names no setting, a value of another kind, and a second definition make the text
unreadable.
-/

namespace Unjump

namespace Toml

/-- A lexical unit of a line. -/
inductive Token where
  | word (text : List Char)
  | mark (char : Char)
deriving DecidableEq, Inhabited, Repr

/-- Whether a character belongs to keys, numbers and booleans. -/
def isWordChar (c : Char) : Bool := c.isAlphanum || c == '_' || c == '-' || c == '+'

/-- Whether a character may stand in a comment. -/
def isCommentChar (c : Char) : Bool := c == '\t' || (' ' ≤ c && c.toNat ≠ 0x7f)

/-- Puts a character in front of the tokens of the text after it. -/
def consToken (c : Char) (rest : List Char) (tokens : List Token) : Option (List Token) :=
  if isWordChar c then
    -- A word goes on when the next character belongs to one too.
    match rest, tokens with
    | next :: _, .word word :: tokens =>
      if isWordChar next then some (.word (c :: word) :: tokens)
        else some (.word [c] :: .word word :: tokens)
    | _, tokens => some (.word [c] :: tokens)
  else if c ∈ ['.', '=', ',', '[', ']', '\x7b', '\x7d'] then some (.mark c :: tokens)
  else none

/-- The tokens of a line without its comment. -/
def tokens? : List Char → Option (List Token)
  | [] => some []
  | c :: rest =>
    if c = '#' then if rest.all isCommentChar then some [] else none
    else if c = ' ' ∨ c = '\t' then tokens? rest
    else (tokens? rest).bind (consToken c rest)

/-- A value that is no table. -/
inductive Scalar where
  | boolean (value : Bool)
  | integer (value : Int)
deriving DecidableEq, Inhabited, Repr

/-- The value of a digit in a base. -/
def digit? (base : Nat) (c : Char) : Option Nat :=
  let value :=
    if c.isDigit then c.toNat - '0'.toNat
    else if 'a' ≤ c ∧ c ≤ 'f' then c.toNat - 'a'.toNat + 10
    else if 'A' ≤ c ∧ c ≤ 'F' then c.toNat - 'A'.toNat + 10
    else base
  if value < base then some value else none

/-- Reads digits in groups that single underscores part. -/
def readGroups? (base : Nat) (text : List Char) : Option Nat :=
  let groups := splitAtChar '_' text
  if groups.any (·.isEmpty) then none
  else groups.flatten.foldlM (fun value c => (digit? base c).map (value * base + ·)) 0

/-- Reads a decimal number without superfluous zeros. -/
def readDecimal? : List Char → Option Nat
  | ['0'] => some 0
  | '0' :: _ => none
  | digits => readGroups? 10 digits

/-- Reads an integer: a decimal number with an optional sign, or an unsigned one in another base. -/
def readInteger? : List Char → Option Int
  | '0' :: 'x' :: digits => (readGroups? 16 digits).map Int.ofNat
  | '0' :: 'o' :: digits => (readGroups? 8 digits).map Int.ofNat
  | '0' :: 'b' :: digits => (readGroups? 2 digits).map Int.ofNat
  | '+' :: digits => (readDecimal? digits).map Int.ofNat
  | '-' :: digits => (readDecimal? digits).map fun value => -(value : Int)
  | digits => (readDecimal? digits).map Int.ofNat

/-- Reads a boolean or an integer. -/
def Scalar.read? (word : List Char) : Option Scalar :=
  if word = ['t', 'r', 'u', 'e'] then some (.boolean true)
  else if word = ['f', 'a', 'l', 's', 'e'] then some (.boolean false)
  else (readInteger? word).map .integer

/-- What a line says. -/
inductive Line where
  | blank
  /-- Opens a table. -/
  | header (path : List String)
  | entry (path : List String) (value : Scalar)
  /-- Defines a table by its entries. -/
  | inlineTable (path : List String) (entries : List (String × Scalar))
deriving DecidableEq, Inhabited, Repr

/-- Reads a key, whose parts stand between dots. -/
def readPath : List Token → Option (List String × List Token)
  | .word part :: .mark '.' :: rest =>
    (readPath rest).map fun (path, rest) => (String.ofList part :: path, rest)
  | .word part :: rest => some ([String.ofList part], rest)
  | _ => none

/-- Reads one or more entries of a table up to the brace that closes it. -/
def readEntries? : List Token → Option (List (String × Scalar))
  | [.word key, .mark '=', .word value, .mark '\x7d'] => do
    return [(String.ofList key, ← Scalar.read? value)]
  | .word key :: .mark '=' :: .word value :: .mark ',' :: rest => do
    return (String.ofList key, ← Scalar.read? value) :: (← readEntries? rest)
  | _ => none

/-- Reads the tokens of a line. -/
def Line.ofTokens? : List Token → Option Line
  | [] => some .blank
  | .mark '[' :: rest => match readPath rest with
    | some (path, [.mark ']']) => some (.header path)
    | _ => none
  | tokens => match readPath tokens with
    | some (path, [.mark '=', .word value]) => (Scalar.read? value).map (.entry path)
    | some (path, [.mark '=', .mark '\x7b', .mark '\x7d']) => some (.inlineTable path [])
    | some (path, .mark '=' :: .mark '\x7b' :: rest) => (readEntries? rest).map (.inlineTable path)
    | _ => none

/-- A text without the byte order mark that may stand in front of it. -/
def dropMark : List Char → List Char
  | '\ufeff' :: text => text
  | text => text

/-- Reads a text line by line. -/
def readLines? (text : String) : Option (List Line) :=
  (splitLines (dropMark text.toList)).mapM fun line => (tokens? line).bind Line.ofTokens?

end Toml

/-- The settings that a text can hold. -/
inductive Setting where
  | roundFactor | verifyEachStep | shareReturns | foldFinally | mergeCatches
deriving DecidableEq, Inhabited, Repr

namespace Setting

/-- All settings. -/
def all : List Setting :=
  [.roundFactor, .verifyEachStep, .shareReturns, .foldFinally, .mergeCatches]

/-- The key of a setting. -/
def path : Setting → List String
  | .roundFactor => ["round_limit_factor"]
  | .verifyEachStep => ["verify_each_step"]
  | .shareReturns => ["return_sentinel"]
  | .foldFinally => ["builder", "fold_finally_ranges"]
  | .mergeCatches => ["builder", "merge_multi_catch"]

/-- The setting of a key. -/
def ofPath? (path : List String) : Option Setting := all.find? (·.path == path)

end Setting

/-- Integers reach up to this limit. -/
def tomlLimit : Nat := 0x8000000000000000

namespace Options

/-- Gives a setting a value of its kind. -/
def set? (options : Options) (setting : Setting) (value : Toml.Scalar) : Option Options :=
  match setting, value with
  | .roundFactor, .integer value =>
    if 0 ≤ value ∧ value < tomlLimit then some { options with roundFactor := value.toNat } else none
  | .verifyEachStep, .boolean value => some { options with verifyEachStep := value }
  | .shareReturns, .boolean value => some { options with shareReturns := value }
  | .foldFinally, .boolean value => some { options with build.foldFinally := value }
  | .mergeCatches, .boolean value => some { options with build.mergeCatches := value }
  | _, _ => none

end Options

/-- How a table was defined, which only dotted keys can do more than once. -/
inductive TableForm where
  | header | dotted | inlined
deriving DecidableEq, Inhabited, Repr

/-- The settings read so far. -/
structure SettingsReading where
  options : Options := {}
  assigned : List Setting := []
  /-- The table that the keys of a line belong to. -/
  table : List String := []
  /-- How the builder table was defined. -/
  builder : Option TableForm := none
deriving DecidableEq, Inhabited, Repr

namespace SettingsReading

/-- Assigns a setting that has no value yet. -/
def assign? (reading : SettingsReading) (path : List String) (value : Toml.Scalar) :
    Option SettingsReading := do
  let setting ← Setting.ofPath? path
  if setting ∈ reading.assigned then none
  let options ← reading.options.set? setting value
  return { reading with options, assigned := setting :: reading.assigned }

/-- Defines the builder table. -/
def define? (reading : SettingsReading) (form : TableForm) : Option SettingsReading :=
  if reading.builder = none ∨ (reading.builder = some .dotted ∧ form = .dotted) then
    some { reading with builder := some form }
  else none

/-- Takes in a line. -/
def addLine? (reading : SettingsReading) : Toml.Line → Option SettingsReading
  | .blank => some reading
  | .header path =>
    if path = ["builder"] then (reading.define? .header).map ({ · with table := path }) else none
  | .entry [key] value => reading.assign? (reading.table ++ [key]) value
  | .entry path value => do (← reading.define? .dotted).assign? (reading.table ++ path) value
  | .inlineTable path entries => do
    if reading.table ++ path ≠ ["builder"] then none
    entries.foldlM (fun reading (key, value) => reading.assign? ["builder", key] value)
      (← reading.define? .inlined)

end SettingsReading

namespace Options

/-- Reads settings from a text, where those that it does not give keep their defaults. -/
def ofToml? (text : String) : Option Options := do
  let reading ← (← Toml.readLines? text).foldlM SettingsReading.addLine? {}
  return reading.options

/-- The settings as a text, which cannot hold a factor beyond the range of integers. -/
def toToml? (options : Options) : Option String :=
  if options.roundFactor < tomlLimit then
    some <| s!"round_limit_factor = {options.roundFactor}\n" ++
      s!"verify_each_step = {options.verifyEachStep}\n" ++
      s!"return_sentinel = {options.shareReturns}\n" ++ "\n[builder]\n" ++
      s!"fold_finally_ranges = {options.build.foldFinally}\n" ++
      s!"merge_multi_catch = {options.build.mergeCatches}\n"
  else none

end Options

end Unjump
