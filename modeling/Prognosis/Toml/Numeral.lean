import Prognosis.Decimal.Fixed
import Prognosis.Decimal.Shortest
import Prognosis.Document.Value
import Prognosis.Toml.Lexeme

/-!
# Numbers and dates of TOML
-/

namespace Prognosis.Toml

open Prognosis.Text Prognosis.Document

/-! ## Digits -/

/-- More digits; an underscore has to stand between two of them. -/
def moreDigits? (digit? : Char → Option Nat) : List Char → Option (List Nat × List Char)
  | [] => some ([], [])
  | c :: cs =>
    match digit? c with
    | some d => (moreDigits? digit? cs).map fun (ds, rest) => (d :: ds, rest)
    | none =>
      if c = '_' then
        match cs with
        | [] => none
        | e :: es =>
          match digit? e with
          | some d => (moreDigits? digit? es).map fun (ds, rest) => (d :: ds, rest)
          | none => none
      else some ([], c :: cs)

def digits? (digit? : Char → Option Nat) (cs : List Char) : Option (List Nat × List Char) :=
  match cs with
  | [] => none
  | c :: rest =>
    match digit? c with
    | some d => (moreDigits? digit? rest).map fun (ds, rest) => (d :: ds, rest)
    | none => none

/-- A digit below a base. -/
def digitBelow? (base : Nat) (c : Char) : Option Nat := (hexDigit? c).filter fun d => d < base

/-- The digits of a whole number: zero stands alone. -/
def wholeDigits? (cs : List Char) : Option (List Nat × List Char) :=
  match cs with
  | [] => none
  | c :: rest => if c = '0' then some ([0], rest) else digits? digit? (c :: rest)

def sign (cs : List Char) : Bool × List Char :=
  match cs with
  | [] => (false, [])
  | c :: rest =>
    if c = '-' then (true, rest) else if c = '+' then (false, rest) else (false, c :: rest)

/-! ## Numbers -/

def int? (i : Int) : Option Value :=
  if -Decimal.halfWord ≤ i ∧ i < Decimal.halfWord then some (.num (.int i)) else none

def signedInt (negative : Bool) (n : Nat) : Int := if negative then -n else n

/-- A number with digits before and after the point and an exponent.  A number above the range of
binary64 is refused, one below it is minus infinity. -/
def real? (negative : Bool) (whole fraction : List Nat) (exponent : Int) : Option Value :=
  let x := (⟨ofDigits (whole ++ fraction), exponent - fraction.length⟩ : Decimal.Scaled).toFloat
  if negative then some (.num (.float (-x)))
  else if x.isInf then none
  else some (.num (.float x))

/-- The exponent of a number, if there is one. -/
def exponent? (cs : List Char) : Option (Option Int × List Char) :=
  match cs with
  | [] => some (none, [])
  | c :: rest =>
    if c = 'e' ∨ c = 'E' then
      let (negative, rest) := sign rest
      (digits? digit? rest).map fun (ds, rest) => (some (signedInt negative (ofDigits ds)), rest)
    else some (none, c :: rest)

/-- A number in decimal digits; with a point or an exponent it is no whole number. -/
def decimal? (cs : List Char) : Option (Value × List Char) := do
  let (negative, rest) := sign cs
  let (whole, rest) ← wholeDigits? rest
  match expect? '.' rest with
  | some rest =>
    let (fraction, rest) ← digits? digit? rest
    let (exponent, rest) ← exponent? rest
    some (← real? negative whole fraction (exponent.getD 0), rest)
  | none =>
    match ← exponent? rest with
    | (none, rest) => some (← int? (signedInt negative (ofDigits whole)), rest)
    | (some exponent, rest) => some (← real? negative whole [] exponent, rest)

/-- The base of a number whose first two characters name it. -/
def base? (cs : List Char) : Option (Nat × List Char) :=
  match cs with
  | z :: b :: rest =>
    if z ≠ '0' then none
    else if b = 'x' then some (16, rest)
    else if b = 'o' then some (8, rest)
    else if b = 'b' then some (2, rest)
    else none
  | _ => none

def afterWord? : List Char → List Char → Option (List Char)
  | [], cs => some cs
  | _, [] => none
  | w :: ws, c :: cs => if w = c then afterWord? ws cs else none

/-- Infinity or no number, with or without a sign. -/
def special? (cs : List Char) : Option (Value × List Char) :=
  let (negative, rest) := sign cs
  match afterWord? ['i', 'n', 'f'] rest, afterWord? ['n', 'a', 'n'] rest with
  | some rest, _ => some (.num (.float (if negative then -1.0 / 0.0 else 1.0 / 0.0)), rest)
  | none, some rest => some (.num (.float (0.0 / 0.0)), rest)
  | none, none => none

/-- A number in any base, infinity or no number. -/
def number? (cs : List Char) : Option (Value × List Char) :=
  match special? cs, base? cs with
  | some r, _ => some r
  | none, some (base, rest) => do
    let (ds, rest) ← digits? (digitBelow? base) rest
    some (← int? (ds.foldl (fun n d => base * n + d) 0 : Nat), rest)
  | none, none => decimal? cs

/-! ## Dates and times -/

/-- A number of exactly `n` digits between two bounds. -/
def field? (n low high : Nat) (cs : List Char) : Option (Nat × List Char) :=
  let ds := (digitRun (cs.take n)).1
  if ds.length = n ∧ low ≤ ofDigits ds ∧ ofDigits ds ≤ high then some (ofDigits ds, cs.drop n)
  else none

/-- The number of days of a month of the Gregorian calendar. -/
def lastDay (year month : Nat) : Nat :=
  if month = 2 then
    if year % 4 = 0 ∧ (year % 100 ≠ 0 ∨ year % 400 = 0) then 29 else 28
  else if month = 4 ∨ month = 6 ∨ month = 9 ∨ month = 11 then 30
  else 31

def afterDate? (cs : List Char) : Option (List Char) := do
  let (year, cs) ← field? 4 0 9999 cs
  let (month, cs) ← field? 2 1 12 (← expect? '-' cs)
  let (_, cs) ← field? 2 1 (lastDay year month) (← expect? '-' cs)
  some cs

def afterFraction (cs : List Char) : List Char :=
  match expect? '.' cs with
  | none => cs
  | some rest =>
    let (ds, after) := digitRun rest
    if ds = [] then cs else after

def afterTime? (cs : List Char) : Option (List Char) := do
  let (_, cs) ← field? 2 0 23 cs
  let (_, cs) ← field? 2 0 59 (← expect? ':' cs)
  let (_, cs) ← field? 2 0 60 (← expect? ':' cs)
  some (afterFraction cs)

def afterOffset? (cs : List Char) : Option (List Char) :=
  match cs with
  | [] => none
  | c :: rest =>
    if c = 'Z' ∨ c = 'z' then some rest
    else if c = '+' ∨ c = '-' then do
      let (_, rest) ← field? 2 0 23 rest
      let (_, rest) ← field? 2 0 59 (← expect? ':' rest)
      some rest
    else none

def afterTimeOfDate? (cs : List Char) : Option (List Char) :=
  match cs with
  | [] => none
  | c :: rest =>
    if c = 'T' ∨ c = 't' ∨ c = ' ' then (afterTime? rest).map fun cs => (afterOffset? cs).getD cs
    else none

/-- A date stands for a table without any member that a record knows. -/
def dateValue : Value := .table [("date", .null)]

/-- A date, a time or both. -/
def date? (cs : List Char) : Option (Value × List Char) :=
  match afterDate? cs with
  | some rest => some (dateValue, (afterTimeOfDate? rest).getD rest)
  | none => (afterTime? cs).map fun rest => (dateValue, rest)

end Prognosis.Toml
