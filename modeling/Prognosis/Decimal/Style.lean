import Prognosis.Decimal.Fixed
import Prognosis.Decimal.Shortest

/-!
# Ways to write a decimal

`Style` collects the decisions a format takes about numbers: where positional writing ends,
whether a whole number keeps a decimal point, and the words for what is no finite number.
-/

namespace Prognosis.Decimal

/-- How a format writes a binary64 number. -/
structure Style where
  /-- Whether a number whose leading digit stands at this place is written positionally. -/
  positional : Int → Bool
  /-- What follows a positional number without a fraction. -/
  whole : String
  nan : String
  infinity : String

def zeros (count : Nat) : String := String.ofList (List.replicate count '0')

/-- The digits with a point after the first `n`. -/
def pointAfter (digits : List Char) (n : Nat) : String :=
  String.ofList (digits.take n) ++ "." ++ String.ofList (digits.drop n)

/-- Positional writing: zeros fill the places between the digits and the point. -/
def Scaled.positional (whole : String) (d : Scaled) : String :=
  let digits := (toString d.digits).toList
  let place := digits.length + d.exponent
  if 0 ≤ d.exponent then toString d.digits ++ zeros d.exponent.toNat ++ whole
  else if 0 < place then pointAfter digits place.toNat
  else "0." ++ zeros (-place).toNat ++ toString d.digits

/-- One digit before the point, the rest after it, then the power of ten. -/
def Scaled.scientific (d : Scaled) : String :=
  let digits := (toString d.digits).toList
  let mantissa := if digits.length ≤ 1 then toString d.digits else pointAfter digits 1
  mantissa ++ "e" ++ toString (digits.length + d.exponent - 1)

/-- The shortest text in a style that reads back to `x`. -/
def Style.write (form : Style) (x : Float) : String :=
  match decode x with
  | .nan => form.nan
  | .infinite negative => signText false negative ++ form.infinity
  | .finite v =>
    let d := shortest v
    signText false v.negative ++
      if form.positional ((toString d.digits).length + d.exponent) then d.positional form.whole
      else d.scientific

/-- Always positional, and a whole number stands without a point. -/
def plain : Style where
  positional := fun _ => true
  whole := ""
  nan := "NaN"
  infinity := "inf"

end Prognosis.Decimal
