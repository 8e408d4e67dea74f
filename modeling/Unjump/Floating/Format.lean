/-! Binary floating-point numbers of both widths, held as their bit patterns. -/

namespace Unjump

/-- The widths of the stored significand and of the exponent in a bit pattern below its sign. -/
structure FloatFormat where
  fractionBits : Nat
  exponentBits : Nat

namespace FloatFormat

/-- The 32-bit layout. -/
def single : FloatFormat := ⟨23, 8⟩

/-- The 64-bit layout. -/
def double : FloatFormat := ⟨52, 11⟩

/-- The exponent field of infinities and NaNs, all bits set. -/
def topExponent (format : FloatFormat) : Nat := Nat.pow 2 format.exponentBits - 1

/-- The power of two that the last significand bit of the smallest numbers stands for. -/
def leastPower (format : FloatFormat) : Int :=
  2 - Nat.pow 2 (format.exponentBits - 1) - format.fractionBits

/-- The pattern of positive infinity, which is also the first pattern no finite number has. -/
def infinity (format : FloatFormat) : Nat := format.topExponent * Nat.pow 2 format.fractionBits

/-- The pattern of the default NaN, whose only fraction bit is the highest. -/
def nan (format : FloatFormat) : Nat := format.infinity + Nat.pow 2 (format.fractionBits - 1)

/-- The sign bit of a pattern. -/
def signBit (format : FloatFormat) : Nat := Nat.pow 2 (format.fractionBits + format.exponentBits)

end FloatFormat

/-- What a bit pattern stands for. -/
inductive FloatValue where
  /-- No number. -/
  | nan
  /-- An infinity of either sign. -/
  | infinite (negative : Bool)
  /-- The number `significand * 2 ^ power`, and whether its lower neighbour is only half
  as far as its upper. -/
  | finite (negative : Bool) (significand : Nat) (power : Int) (lowerIsNear : Bool)
deriving DecidableEq, Repr

/-- The value of a bit pattern. -/
def FloatFormat.decode (format : FloatFormat) (bits : Nat) : FloatValue :=
  let negative := bits / format.signBit % 2 == 1
  let magnitude := bits % format.signBit
  let exponent := magnitude / Nat.pow 2 format.fractionBits
  let fraction := magnitude % Nat.pow 2 format.fractionBits
  if exponent = format.topExponent then
    if fraction = 0 then .infinite negative else .nan
  else if exponent = 0 then
    -- Subnormal numbers have no hidden bit and share the power of the smallest normal ones.
    .finite negative fraction format.leastPower false
  else
    -- Below a power of two the spacing halves, except at the first normal number.
    .finite negative (Nat.pow 2 format.fractionBits + fraction)
      (format.leastPower + (exponent - 1 : Nat)) (fraction == 0 && exponent != 1)

/-- A 32-bit floating-point number. -/
structure Single where
  bits : UInt32
deriving DecidableEq, Inhabited, Repr

/-- A 64-bit floating-point number. -/
structure Double where
  bits : UInt64
deriving DecidableEq, Inhabited, Repr

/-- What a 32-bit number stands for. -/
def Single.value (x : Single) : FloatValue := FloatFormat.single.decode x.bits.toNat

/-- What a 64-bit number stands for. -/
def Double.value (x : Double) : FloatValue := FloatFormat.double.decode x.bits.toNat

/-- Whether a value is a zero of either sign. -/
def FloatValue.isZero : FloatValue → Bool
  | .finite _ significand _ _ => significand == 0
  | _ => false

/-- Numeric equality of two values: a NaN differs from everything, and the zeros agree. -/
def FloatValue.sameNumber : FloatValue → FloatValue → Bool
  | .nan, _ => false
  | _, .nan => false
  | x, y => x == y || x.isZero && y.isZero

/-- Numeric equality of 32-bit numbers. -/
def Single.sameNumber (x y : Single) : Bool := x.value.sameNumber y.value

/-- Numeric equality of 64-bit numbers. -/
def Double.sameNumber (x y : Double) : Bool := x.value.sameNumber y.value

end Unjump
