/-!
# Binary64 numbers as exact fractions

`decode` splits a number into sign, whole significand and power of two; `Finite.numerator` and
`Finite.denominator` give its magnitude as a fraction of whole numbers, so that rounding and
printing can be done in exact arithmetic.
-/

namespace Prognosis.Decimal

/-- A finite binary64 number, `± significand * 2 ^ exponent`. -/
structure Finite where
  negative : Bool
  significand : Nat
  exponent : Int
  deriving DecidableEq, Repr

namespace Finite

/-- The magnitude is `numerator / denominator`. -/
def numerator (v : Finite) : Nat := v.significand * Nat.pow 2 v.exponent.toNat

/-- The magnitude is `numerator / denominator`. -/
def denominator (v : Finite) : Nat := Nat.pow 2 (-v.exponent).toNat

theorem denominator_pos (v : Finite) : 0 < v.denominator := Nat.two_pow_pos _

end Finite

/-- What a binary64 number stands for. -/
inductive Binary64 where
  | nan
  | infinite (negative : Bool)
  | finite (value : Finite)
  deriving DecidableEq, Repr

/-- The exponent of the least subnormal number. -/
def leastExponent : Int := -1074

/-- The significand of a normal number has this leading bit. -/
def leadingBit : Nat := Nat.pow 2 52

/-- Reads the three fields of the encoding: one sign bit, eleven exponent bits, 52 fraction bits. -/
def decode (x : Float) : Binary64 :=
  let bits := x.toBits.toNat
  let negative := decide (UInt64.size ≤ 2 * bits)
  let biased : Nat := bits / leadingBit % 2048
  let fraction := bits % leadingBit
  if biased = 2047 then
    if fraction = 0 then .infinite negative else .nan
  else if biased = 0 then
    .finite ⟨negative, fraction, leastExponent⟩
  else
    .finite ⟨negative, leadingBit + fraction, leastExponent + (biased : Int) - 1⟩

end Prognosis.Decimal
