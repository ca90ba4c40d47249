import Prognosis.Decimal.Binary64

/-!
# Whole numbers and tenths nearest to a fraction

`nearestEven` and `nearestUp` round a fraction to the nearest whole number and differ on halves
only; `fixedTenths` writes a binary64 number with one decimal, rounded from its exact value.
-/

namespace Prognosis.Decimal

/-- The whole number nearest to `n / d`; a half goes to the even neighbour. -/
def nearestEven (n d : Nat) : Nat :=
  let q := n / d
  let twice := 2 * (n % d)
  if twice < d then q else if d < twice then q + 1 else q + q % 2

/-- The whole number nearest to `n / d`; a half goes up. -/
def nearestUp (n d : Nat) : Nat := (2 * n + d) / (2 * d)

/-- Writes a count of tenths with its decimal point. -/
def tenthsText (t : Nat) : String := toString (t / 10) ++ "." ++ toString (t % 10)

/-- The sign in front of a magnitude; a plus is written only when asked for. -/
def signText (signed negative : Bool) : String :=
  if negative then "-" else if signed then "+" else ""

/-- One decimal, rounded from the exact value with halves to even.  The sign of zero is kept, and
a number that is none has no sign. -/
def fixedTenths (signed : Bool) (x : Float) : String :=
  match decode x with
  | .nan => "NaN"
  | .infinite negative => signText signed negative ++ "inf"
  | .finite v =>
    signText signed v.negative ++ tenthsText (nearestEven (10 * v.numerator) v.denominator)

/-- Half of the number of 64-bit words: whole numbers of 64 bits lie below it in magnitude, and one
lies at it. -/
def halfWord : Nat := UInt64.size / 2

/-- The whole number nearest to `x`, halves away from zero, held within 64 bits; zero for a number
that is none. -/
def nearestInt64 (x : Float) : Int :=
  match decode x with
  | .nan => 0
  | .infinite negative => if negative then -halfWord else halfWord - 1
  | .finite v =>
    let n := nearestUp v.numerator v.denominator
    if v.negative then -(min n halfWord : Nat) else (min n (halfWord - 1) : Nat)

end Prognosis.Decimal
