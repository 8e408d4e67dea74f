/-!
The lines, words and numbers of a text.

Blank characters are those with the white space property of all scripts. A line ends with a line
feed that a carriage return may precede. Integers are written in decimal notation,
with an optional sign and a fixed range.
-/

namespace Unjump

/-! ### Words -/

/-- Whether a character is white space. -/
def isBlank (c : Char) : Bool :=
  let code := c.toNat
  0x9 ≤ code && code ≤ 0xd || code == 0x20 || code == 0x85 || code == 0xa0 || code == 0x1680 ||
    0x2000 ≤ code && code ≤ 0x200a || code == 0x2028 || code == 0x2029 || code == 0x202f ||
    code == 0x205f || code == 0x3000

/-- The text without blanks at its end. -/
def trimEnd (text : List Char) : List Char := (text.reverse.dropWhile isBlank).reverse

/-- The text without blanks at either end. -/
def trim (text : List Char) : List Char := trimEnd (text.dropWhile isBlank)

/-- Adds a character in front of the first of some parts. -/
def consPart (c : Char) : List (List Char) → List (List Char)
  | [] => [[c]]
  | part :: parts => (c :: part) :: parts

/-- Splits a text at every occurrence of a character, which belongs to no part. -/
def splitAtChar (separator : Char) (text : List Char) : List (List Char) :=
  text.foldr (fun c parts => if c = separator then [] :: parts else consPart c parts) [[]]

/-- Adds a character in front of the words of the text after it. -/
def consWord (c : Char) (rest : List Char) (words : List (List Char)) : List (List Char) :=
  if isBlank c then words
  -- A word goes on when the next character is not blank, and starts a new list entry otherwise.
  else match rest, words with
    | next :: _, word :: words =>
      if isBlank next then [c] :: word :: words else (c :: word) :: words
    | _, words => [c] :: words

/-- The words of a text, the maximal runs of characters that are not blank. -/
def splitWords : List Char → List (List Char)
  | [] => []
  | c :: rest => consWord c rest (splitWords rest)

/-! ### Lines -/

/-- The text before a line feed without the carriage return that belongs to the line's end. -/
def dropReturn (line : List Char) : List Char :=
  if line.getLast? = some '\r' then line.dropLast else line

/-- The lines of a text and what follows the last of them, which is empty when the text ends
with a line. -/
def splitLines (text : List Char) : List (List Char) :=
  let parts := splitAtChar '\n' text
  parts.dropLast.map dropReturn ++ parts.getLast?.toList

/-- The lines of a text, the last of which need not be ended. -/
def textLines (text : String) : List String :=
  let parts := splitLines text.toList
  (if parts.getLast? = some [] then parts.dropLast else parts).map String.ofList

/-! ### Numbers -/

/-- The number that a run of decimal digits denotes, none giving zero. -/
def digitsValue (digits : List Char) : Nat :=
  digits.foldl (fun value digit => value * 10 + (digit.toNat - '0'.toNat)) 0

/-- Reads a non-empty run of decimal digits. -/
def readDigits? (text : List Char) : Option Nat :=
  if text.isEmpty || !text.all Char.isDigit then none else some (digitsValue text)

/-- Reads an unsigned number below a limit, with an optional plus sign. -/
def readUnsigned? (limit : Nat) (text : List Char) : Option Nat :=
  let digits := match text with
    | '+' :: digits => digits
    | digits => digits
  (readDigits? digits).filter (· < limit)

/-- Reads a signed number in the range from `-limit` up to, but not including, `limit`. -/
def readSigned? (limit : Nat) (text : List Char) : Option Int :=
  let value := match text with
    | '-' :: digits => (readDigits? digits).map fun value => -(value : Int)
    | '+' :: digits => (readDigits? digits).map fun value => (value : Int)
    | digits => (readDigits? digits).map fun value => (value : Int)
  value.filter fun value => decide (-(limit : Int) ≤ value ∧ value < limit)

/-- Reads an 8-bit unsigned number. -/
def readUInt8? (text : List Char) : Option UInt8 := (readUnsigned? UInt8.size text).map UInt8.ofNat

/-- Reads a 16-bit unsigned number. -/
def readUInt16? (text : List Char) : Option UInt16 :=
  (readUnsigned? UInt16.size text).map UInt16.ofNat

/-- Reads a 32-bit unsigned number. -/
def readUInt32? (text : List Char) : Option UInt32 :=
  (readUnsigned? UInt32.size text).map UInt32.ofNat

/-- Reads a 16-bit signed number. -/
def readInt16? (text : List Char) : Option Int16 := (readSigned? 0x8000 text).map Int16.ofInt

/-- Reads a 32-bit signed number. -/
def readInt32? (text : List Char) : Option Int32 := (readSigned? 0x80000000 text).map Int32.ofInt

/-- Reads a 64-bit signed number. -/
def readInt64? (text : List Char) : Option Int64 :=
  (readSigned? 0x8000000000000000 text).map Int64.ofInt

end Unjump
