import Unjump.Floating.Format
import Unjump.Text.Lines

/-! Reading decimal text as the nearest floating-point number, ties going
to the even significand. -/

namespace Unjump

/-- The quotient of two numbers rounded to the nearest integer, a half going to the even one. -/
def roundHalfEven (numerator denominator : Nat) : Nat :=
  let quotient := numerator / denominator
  let rest := 2 * (numerator % denominator)
  if denominator < rest || rest == denominator && quotient % 2 == 1 then quotient + 1 else quotient

/-- The pattern of the number nearest to a positive fraction, or of infinity
when it is too large. -/
def FloatFormat.nearest (format : FloatFormat) (numerator denominator : Nat) : Nat :=
  -- The binary exponent is the difference of the lengths, or one less.
  let guess : Int := (numerator.log2 : Int) - denominator.log2
  let exponent :=
    if numerator * Nat.pow 2 (-guess).toNat < denominator * Nat.pow 2 guess.toNat then guess - 1
      else guess
  -- Numbers below the smallest normal one keep its spacing.
  let power := max (exponent - format.fractionBits) format.leastPower
  let significand :=
    roundHalfEven (numerator * Nat.pow 2 (-power).toNat) (denominator * Nat.pow 2 power.toNat)
  -- The hidden bit adds the missing one to the exponent field, and so does a carry out
  -- of the rounding.
  min ((power - format.leastPower).toNat * Nat.pow 2 format.fractionBits + significand)
    format.infinity

/-- The pattern of the number nearest to `digits * 10 ^ exponent`. -/
def FloatFormat.ofDecimal (format : FloatFormat) (digits : Nat) (exponent : Int) : Nat :=
  let length : Int := (toString digits).length
  if digits = 0 then 0
  -- Far outside the range of every format the exact power of ten is not needed.
  else if 400 < length + exponent then format.infinity
  else if length + exponent < -400 then 0
  else format.nearest (digits * Nat.pow 10 exponent.toNat) (Nat.pow 10 (-exponent).toNat)

/-- Reads the exponent part of a decimal, which may be missing but not empty. -/
def decimalExponent? : List Char → Option Int
  | [] => some 0
  | mark :: rest =>
    if mark = 'e' || mark = 'E' then
      let (negative, digits) := match rest with
        | '-' :: digits => (true, digits)
        | '+' :: digits => (false, digits)
        | digits => (false, digits)
      (readDigits? digits).map fun value => if negative then -(value : Int) else value
    else none

/-- Reads an unsigned decimal with digits on at least one side of its point. -/
def FloatFormat.readDecimal? (format : FloatFormat) (text : List Char) : Option Nat := do
  let whole := text.takeWhile Char.isDigit
  let (fraction, rest) := match text.dropWhile Char.isDigit with
    | '.' :: rest => (rest.takeWhile Char.isDigit, rest.dropWhile Char.isDigit)
    | rest => ([], rest)
  if whole.isEmpty && fraction.isEmpty then none
  let exponent ← decimalExponent? rest
  return format.ofDecimal (digitsValue (whole ++ fraction)) (exponent - fraction.length)

/-- Reads an unsigned number: a decimal, an infinity or a NaN, the words in either case. -/
def FloatFormat.readMagnitude? (format : FloatFormat) (text : List Char) : Option Nat :=
  let word := String.ofList (text.map Char.toLower)
  if word = "inf" || word = "infinity" then some format.infinity
  else if word = "nan" then some format.nan
  else format.readDecimal? text

/-- Reads a number with an optional sign as a bit pattern. -/
def FloatFormat.read? (format : FloatFormat) : List Char → Option Nat
  | '-' :: text => (format.readMagnitude? text).map (format.signBit + ·)
  | '+' :: text => format.readMagnitude? text
  | text => format.readMagnitude? text

/-- Reads a 32-bit number. -/
def Single.read? (text : List Char) : Option Single :=
  (FloatFormat.single.read? text).map fun bits => ⟨UInt32.ofNat bits⟩

/-- Reads a 64-bit number. -/
def Double.read? (text : List Char) : Option Double :=
  (FloatFormat.double.read? text).map fun bits => ⟨UInt64.ofNat bits⟩

end Unjump
