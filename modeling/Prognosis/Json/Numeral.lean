import Prognosis.Document.Value
import Prognosis.Text.Digits

/-!
# JSON numerals

A `Numeral` is a number as it is spelled; `number?` is the number it stands for.  Whole numbers of
64 bits are exact.  All others take as many digits as fit in 64 bits and are scaled by powers of
ten in binary64, so the result may miss the nearest binary64 number by a little; a numeral beyond
the range of binary64 stands for no number.
-/

namespace Prognosis.Json

open Prognosis.Document Prognosis.Text

/-- A number as it is spelled. -/
structure Numeral where
  negative : Bool
  whole : List Nat
  /-- The digits after the point, empty where there is none. -/
  fraction : List Nat
  /-- The sign and the digits of the exponent. -/
  exponent : Option (Bool × List Nat)

/-! ## Spelling -/

/-- The digits after a point, if there is one; at least one has to follow it. -/
def fractionPart? (cs : List Char) : Option (List Nat × List Char) :=
  match cs with
  | [] => some ([], [])
  | c :: rest =>
    if c = '.' then
      let (ds, after) := digitRun rest
      if ds = [] then none else some (ds, after)
    else some ([], c :: rest)

/-- The sign in front of an exponent; without one it is positive. -/
def exponentSign (cs : List Char) : Bool × List Char :=
  match cs with
  | [] => (false, [])
  | c :: rest =>
    if c = '-' then (true, rest) else if c = '+' then (false, rest) else (false, c :: rest)

/-- The exponent, if there is one; at least one digit has to follow its mark. -/
def exponentPart? (cs : List Char) : Option (Option (Bool × List Nat) × List Char) :=
  match cs with
  | [] => some (none, [])
  | c :: rest =>
    if c = 'e' ∨ c = 'E' then
      let (negative, rest) := exponentSign rest
      let (ds, after) := digitRun rest
      if ds = [] then none else some (some (negative, ds), after)
    else some (none, c :: rest)

/-- A numeral without its sign; more than one digit may not start with zero. -/
def unsigned? (negative : Bool) (cs : List Char) : Option (Numeral × List Char) := do
  let (whole, rest) := digitRun cs
  if whole = [] ∨ (whole.head? = some 0 ∧ 1 < whole.length) then none
  else
    let (fraction, rest) ← fractionPart? rest
    let (exponent, rest) ← exponentPart? rest
    some (⟨negative, whole, fraction, exponent⟩, rest)

/-- The numeral at the start of a text, and the text after it. -/
def numeral? (cs : List Char) : Option (Numeral × List Char) :=
  match cs with
  | [] => none
  | c :: rest => if c = '-' then unsigned? true rest else unsigned? false (c :: rest)

/-! ## Value -/

/-- Appends digits to a significand while it fits in 64 bits: the significand, and the digits left
over. -/
def takeDigits : Nat → List Nat → Nat × List Nat
  | m, [] => (m, [])
  | m, d :: ds => if 10 * m + d < UInt64.size then takeDigits (10 * m + d) ds else (m, d :: ds)

/-- The power of ten, rounded to binary64. -/
def powerOfTen (n : Nat) : Float := Float.ofScientific 1 false n

/-- `m * 10 ^ e` by one multiplication or division, two divisions for the smallest numbers; none
where the result is too large. -/
def scale? (m : Nat) (e : Int) : Option Float :=
  let x := Float.ofNat m
  if 0 ≤ e then
    if m = 0 then some x
    else if e ≤ 308 then
      let y := x * powerOfTen e.toNat
      if y.isInf then none else some y
    else none
  else if -308 ≤ e then some (x / powerOfTen (-e).toNat)
  else if -616 ≤ e then some (x / powerOfTen 308 / powerOfTen (-e - 308).toNat)
  else some 0.0

/-- Gives a magnitude its sign. -/
def withSign (negative : Bool) (x : Float) : Float := if negative then -x else x

namespace Numeral

/-- The significand, the digits it has no room for, and the power of ten that remains. -/
def significand (n : Numeral) : Nat × List Nat × Int :=
  let (m, left) := takeDigits 0 n.whole
  let (m, unread) := takeDigits m n.fraction
  (m, left, (left.length : Int) - (n.fraction.length - unread.length : Nat))

/-- An exponent is held within 32 bits; beyond that it empties or overflows any number. -/
def exponentLimit : Nat := 2147483647

/-- A numeral with a point, an exponent or too many digits. -/
def real? (n : Numeral) : Option Float :=
  let (m, _, shift) := n.significand
  let magnitude := match n.exponent with
    | none => scale? m shift
    | some (negative, ds) =>
      let e := ofDigits ds
      if exponentLimit < e then if m = 0 ∨ negative then some 0.0 else none
      else scale? m (if negative then shift - e else shift + e)
  magnitude.map (withSign n.negative)

/-- The number a numeral stands for.  Minus zero is no whole number. -/
def number? (n : Numeral) : Option Number :=
  let (m, left, _) := n.significand
  if n.fraction = [] ∧ n.exponent = none ∧ left = [] then
    if ¬ n.negative then some (.int m)
    else if 0 < m ∧ 2 * m ≤ UInt64.size then some (.int (-m))
    else some (.float (-Float.ofNat m))
  else n.real?.map .float

end Numeral

end Prognosis.Json
