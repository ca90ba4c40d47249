import Prognosis.Decimal.Binary64

/-!
# The shortest decimal that reads back

Every binary64 number owns an interval of reals that round to it.  `shortest` finds the coarsest
decimal grid with a point in that interval and takes the grid point nearest to the number.  The way
back from a decimal to the nearest number is `Scaled.toFloat`.
-/

namespace Prognosis.Decimal

/-- The decimal `digits * 10 ^ exponent`. -/
structure Scaled where
  digits : Nat
  exponent : Int
  deriving DecidableEq, Repr

/-- The fraction `num / den` brought to the grid of step `10 ^ step`. -/
def onGrid (num den : Nat) (step : Int) : Nat × Nat :=
  (num * Nat.pow 10 (-step).toNat, den * Nat.pow 10 step.toNat)

/-- The place of the leading digit: `10 ^ (place - 1) ≤ num / den < 10 ^ place`. -/
def leadingPlace (num den : Nat) : Int :=
  if den ≤ num then
    (toString (num / den)).length
  else
    let inverse := (toString (den / num)).length
    if den = num * Nat.pow 10 (inverse - 1) then 2 - inverse else 1 - inverse

/-- The interval of a finite number, in quarters of its last binary place: the distances to the
lower and the upper end. -/
def halfGaps (v : Finite) : Nat × Nat :=
  if v.significand = leadingBit ∧ leastExponent < v.exponent then (1, 2) else (2, 2)

/-- Whether the grid point `c * 10 ^ step` rounds to `v`; an end of the interval belongs to the
number with the even significand. -/
def roundsTo (v : Finite) (c : Nat) (step : Int) : Bool :=
  let (below, above) := halfGaps v
  let unit := Nat.pow 2 v.exponent.toNat
  let quarter := 4 * v.denominator
  let point := c * Nat.pow 10 step.toNat * quarter
  let scale := Nat.pow 10 (-step).toNat
  let low := (4 * v.significand - below) * unit * scale
  let high := (4 * v.significand + above) * unit * scale
  if v.significand % 2 = 0 then low ≤ point && point ≤ high else low < point && point < high

/-- The nearer of the number's two neighbours on a grid, among those that round to it. -/
def onGrid? (v : Finite) (step : Int) : Option Nat :=
  let (n, d) := onGrid v.numerator v.denominator step
  let c := n / d
  match roundsTo v c step, roundsTo v (c + 1) step with
  | true, true => some (if 2 * (n % d) < d then c else c + 1)
  | true, false => some c
  | false, true => some (c + 1)
  | false, false => none

/-- Tries grids of ever more digits; seventeen always suffice, so the last entry is never used
up. -/
def search (v : Finite) (place : Int) : List Nat → Scaled
  | [] => ⟨0, 0⟩
  | n :: more =>
    match onGrid? v (place - n) with
    | some c => ⟨c, place - n⟩
    | none => search v place more

/-- Moves the zeros at the end of the digits into the exponent. -/
def Scaled.trim (d : Scaled) : (fuel : Nat) → Scaled
  | 0 => d
  | fuel + 1 =>
    if d.digits ≠ 0 ∧ d.digits % 10 = 0 then trim ⟨d.digits / 10, d.exponent + 1⟩ fuel else d

/-- The shortest decimal that rounds to the magnitude of `v`, the nearest one if there are more. -/
def shortest (v : Finite) : Scaled :=
  if v.significand = 0 then ⟨0, 0⟩
  else
    (search v (leadingPlace v.numerator v.denominator)
      [1, 2, 3, 4, 5, 6, 7, 8, 9, 10, 11, 12, 13, 14, 15, 16, 17]).trim 18

/-! ## The nearest binary64 number -/

/-- The place of the leading digit of `d`, counted from the point. -/
def Scaled.place (d : Scaled) : Int := (toString d.digits).length + d.exponent

/-- The nearest binary64 number.  Decimals far outside its range are settled by their leading
place. -/
def Scaled.toFloat (d : Scaled) : Float :=
  if d.digits = 0 then 0.0
  else if 310 < d.place then 1.0 / 0.0
  else if d.place < -330 then 0.0
  else Float.ofScientific d.digits (decide (d.exponent < 0)) d.exponent.natAbs

end Prognosis.Decimal
