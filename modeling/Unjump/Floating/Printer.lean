import Unjump.Floating.Format

/-! Decimal text of floating-point numbers: the fewest digits that still read back
as the same number. -/

namespace Unjump

/-- A positive decimal number, `digits * 10 ^ exponent`. -/
structure Decimal where
  digits : Nat
  exponent : Int
deriving DecidableEq, Repr

/-- A fraction of natural numbers that equals `n * 2 ^ p / 10 ^ q` for a common pair of scales. -/
structure DecimalScale where
  numerator : Nat
  denominator : Nat

/-- The scales that turn a multiple of `2 ^ power` into a multiple of `10 ^ exponent`. -/
def DecimalScale.between (power exponent : Int) : DecimalScale where
  numerator := Nat.pow 2 power.toNat * Nat.pow 10 (-exponent).toNat
  denominator := Nat.pow 2 (-power).toNat * Nat.pow 10 exponent.toNat

/-- The multiple of `10 ^ exponent` nearest to the number among those that read back as it. -/
def Decimal.onGrid? (significand : Nat) (power : Int) (lowerIsNear : Bool) (exponent : Int) :
    Option Decimal :=
  -- In quarters of the last place, the ends of the interval that rounds to the number are whole.
  let scale := DecimalScale.between (power - 2) exponent
  let middle := 4 * significand * scale.numerator
  let low := (4 * significand - if lowerIsNear then 1 else 2) * scale.numerator
  let high := (4 * significand + 2) * scale.numerator
  let below := middle / scale.denominator
  let above := below + 1
  -- Numbers with an even significand own the ends of their interval.
  let even := significand % 2 == 0
  let lowFits := low < below * scale.denominator || even && low == below * scale.denominator
  let highFits := above * scale.denominator < high || even && above * scale.denominator == high
  let nearerBelow := 2 * (middle % scale.denominator) < scale.denominator
  if lowFits && highFits then some ⟨if nearerBelow then below else above, exponent⟩
  else if lowFits then some ⟨below, exponent⟩
  else if highFits then some ⟨above, exponent⟩
  else none

/-- The first hit on grids that grow finer by one place at a time,
for a given number of refinements. -/
def Decimal.search (significand : Nat) (power : Int) (lowerIsNear : Bool) :
    (refinements : Nat) → (exponent : Int) → Decimal
  | 0, exponent => ⟨0, exponent⟩
  | refinements + 1, exponent =>
    match Decimal.onGrid? significand power lowerIsNear exponent with
    | some decimal => decimal
    | none => Decimal.search significand power lowerIsNear refinements (exponent - 1)

/-- The shortest decimal that reads back as a positive number, nearest to it among
those of its length. -/
def Decimal.shortest (significand : Nat) (power : Int) (lowerIsNear : Bool) : Decimal :=
  -- Three tenths of the binary exponent bound the decimal one, and seventeen digits always suffice.
  let magnitude : Int := significand.log2 + power
  Decimal.search significand power lowerIsNear 24 (magnitude * 30103 / 100000 + 2)

/-- Where positional notation starts and ends, counted in powers of ten. -/
structure DecimalLayout where
  leastPositional : Int
  firstScientific : Int

/-- Numbers are written positionally from a ten-thousandth up to ten quadrillion. -/
def Decimal.layout : DecimalLayout := ⟨-4, 16⟩

/-- The text of a decimal, always with a fraction or an exponent. -/
def Decimal.text (decimal : Decimal) : String :=
  let digits := (toString decimal.digits).toList
  -- The power of ten of the first digit.
  let leading : Int := decimal.exponent + digits.length - 1
  if Decimal.layout.leastPositional ≤ leading && leading < Decimal.layout.firstScientific then
    if 0 ≤ decimal.exponent then
      String.ofList (digits ++ List.replicate decimal.exponent.toNat '0') ++ ".0"
    else if 0 ≤ leading then
      String.ofList (digits.take (leading.toNat + 1)) ++ "." ++
        String.ofList (digits.drop (leading.toNat + 1))
    else
      "0." ++ String.ofList (List.replicate (-leading - 1).toNat '0' ++ digits)
  else
    match digits with
    | [] => ""
    | [digit] => s!"{digit}e{leading}"
    | digit :: rest =>
      let fraction := String.ofList rest
      s!"{digit}.{fraction}e{leading}"

/-- The text of a value. -/
def FloatValue.text : FloatValue → String
  | .nan => "NaN"
  | .infinite negative => if negative then "-inf" else "inf"
  | .finite negative significand power lowerIsNear =>
    (if negative then "-" else "") ++
      if significand = 0 then "0.0" else (Decimal.shortest significand power lowerIsNear).text

/-- The text of a 32-bit number. -/
def Single.text (x : Single) : String := x.value.text

/-- The text of a 64-bit number. -/
def Double.text (x : Double) : String := x.value.text

end Unjump
