import Prognosis.Decimal.Fixed

/-!
# The numbers an assessment is computed in

Trends, rules and scores are written once, over any type of scalars, and so is the wording of what
they find.  The program runs them on binary64 numbers (`Float`); the same definitions over exact
fractions say what the formulas mean before rounding.
-/

namespace Prognosis

/-- What trends, rules and scores need of their numbers. -/
class Scalar (α : Type) extends Add α, Sub α, Mul α, Div α, LT α where
  /-- The scalar of a whole number. -/
  num : Nat → α
  decidableLT : DecidableLT α
  /-- False only for the marker of an undefined result. -/
  defined : α → Bool
  /-- Whether a scalar is an ordinary number. -/
  finite : α → Bool
  /-- The nearest whole number, halves away from zero; zero where undefined. -/
  nearest : α → Int
  /-- The text with one decimal; a plus sign is written only when asked for. -/
  tenths : (signed : Bool) → α → String

namespace Scalar

variable {α : Type} [Scalar α]

instance : DecidableLT α := Scalar.decidableLT

def halves (n : Nat) : α := num n / num 2

/-- The smaller of two scalars.  An undefined one gives way to the other, and of equal ones the
first is kept. -/
def least (a b : α) : α := if b < a then b else if defined a then a else b

/-- `a` moved into the range from `low` to `high`; undefined stays undefined. -/
def clamp (low high a : α) : α :=
  let a := if a < low then low else a
  if high < a then high else a

end Scalar

instance : Scalar Float where
  num := Float.ofNat
  decidableLT := fun a b => inferInstanceAs (Decidable (a < b))
  defined := fun x => !x.isNaN
  finite := Float.isFinite
  nearest := Decimal.nearestInt64
  tenths := Decimal.fixedTenths

end Prognosis

/-! ## Texts for durations, rates and levels -/

namespace Prognosis.Wording

open Scalar

variable {α : Type} [Scalar α]

/-- A time to come, given in hours: whole minutes under an hour, tenths of hours under a day, tenths
of days from there on. -/
def duration (hours : α) : String :=
  if hours < num 1 then toString (nearest (hours * num 60)) ++ " minutes"
  else if hours < num 24 then tenths false hours ++ " hours"
  else tenths false (hours / num 24) ++ " days"

/-- A signed change per hour, such as `+12.0%/h`. -/
def rate (perHour : α) (unit : String) : String := tenths true perHour ++ unit ++ "/h"

/-- A reading, such as `90.0%`. -/
def level (value : α) (unit : String) : String := tenths false value ++ unit

end Prognosis.Wording
