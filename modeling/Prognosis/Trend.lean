import Prognosis.Scalar

/-!
# Least-squares trends

The slope of a series against the indices 0, 1, 2, … of its values, from running sums taken in the
order of the series, and the same slope as a rate per hour for a series of fixed cadence.
-/

namespace Prognosis.Trend

open Scalar

variable {α : Type} [Scalar α]

/-- The sums that fix a least-squares line: of indices, values, products and squared indices. -/
structure Sums (α : Type) where
  index : α
  value : α
  product : α
  square : α

namespace Sums

def zero : Sums α := ⟨num 0, num 0, num 0, num 0⟩

def add (s : Sums α) (i : Nat) (y : α) : Sums α :=
  let x : α := num i
  ⟨s.index + x, s.value + y, s.product + x * y, s.square + x * x⟩

/-- Takes in values at consecutive indices, the first of them `i`. -/
def addFrom (s : Sums α) (i : Nat) : List α → Sums α
  | [] => s
  | y :: ys => (s.add i y).addFrom (i + 1) ys

end Sums

def sums (values : List α) : Sums α := Sums.zero.addFrom 0 values

/-- The slope per step of the series; a series of fewer than two values is flat. -/
def slope (values : List α) : α :=
  if values.length < 2 then num 0
  else
    let n : α := num values.length
    let s := sums values
    (n * s.product - s.index * s.value) / (n * s.square - s.index * s.index)

/-- The slope per hour of a series with `perHour` values an hour. -/
def hourly (perHour : α) (values : List α) : α := slope values * perHour

end Prognosis.Trend
