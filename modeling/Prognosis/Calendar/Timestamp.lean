import Prognosis.Calendar.Date
import Prognosis.Text.Digits

/-!
# Instants in universal time

A `Timestamp` is a UTC date and a time of day to the nanosecond; second 60 is a leap second.
`read?` accepts the date and time format of the internet with the freedoms of hand-written dates:
blanks around the parts, short numbers, signed years, any offset within a day.  A blank is any
character with the `White_Space` property.  `write` gives the one canonical text.
-/

/-! ## Blanks -/

namespace Prognosis.Text

/-- The ranges of the `White_Space` property, both ends included. -/
def blankRanges : List (Nat × Nat) :=
  [(0x09, 0x0D), (0x20, 0x20), (0x85, 0x85), (0xA0, 0xA0), (0x1680, 0x1680), (0x2000, 0x200A),
   (0x2028, 0x2029), (0x202F, 0x202F), (0x205F, 0x205F), (0x3000, 0x3000)]

def isBlank (c : Char) : Bool :=
  blankRanges.any fun (first, last) => first ≤ c.toNat && c.toNat ≤ last

def dropBlanks (cs : List Char) : List Char := cs.dropWhile isBlank

end Prognosis.Text

/-! ## Instants -/

namespace Prognosis.Calendar

open Prognosis.Text

/-- An instant of universal time. -/
structure Timestamp where
  date : Date
  /-- The minute of the day. -/
  minute : Fin 1440
  /-- The second of the minute; 60 is a leap second. -/
  second : Fin 61
  nano : Fin 1000000000
  deriving DecidableEq

namespace Timestamp

def epoch : Timestamp := ⟨.epoch, 0, 0, 0⟩

instance : Inhabited Timestamp := ⟨epoch⟩

/-! ## Writing -/

/-- Years 0 to 9999 have four digits; all others a sign and at least four digits. -/
def yearText (year : Int) : String :=
  if 0 ≤ year ∧ year ≤ 9999 then padded 4 year.toNat
  else (if year < 0 then "-" else "+") ++ padded 4 year.natAbs

/-- No digits, milliseconds, microseconds or nanoseconds: the first that lose nothing. -/
def fractionText (nano : Nat) : String :=
  if nano = 0 then ""
  else if nano % 1000000 = 0 then "." ++ padded 3 (nano / 1000000)
  else if nano % 1000 = 0 then "." ++ padded 6 (nano / 1000)
  else "." ++ padded 9 nano

def write (t : Timestamp) : String :=
  yearText t.date.year ++ "-" ++ padded 2 t.date.month ++ "-" ++ padded 2 t.date.day ++ "T" ++
    padded 2 (t.minute / 60) ++ ":" ++ padded 2 (t.minute % 60) ++ ":" ++ padded 2 t.second ++
    fractionText t.nano ++ "Z"

/-! ## Reading -/

/-- Drops blanks and then exactly the character `mark`. -/
def expect? (mark : Char) (cs : List Char) : Option (List Char) :=
  match dropBlanks cs with
  | [] => none
  | c :: rest => if c = mark then some rest else none

/-- A year: with a sign it may have any number of digits, without one at most four. -/
def year? (cs : List Char) : Option (Int × List Char) :=
  match dropBlanks cs with
  | [] => none
  | c :: rest =>
    if c = '-' then (number? rest.length rest).map fun (n, r) => (-(n : Int), r)
    else if c = '+' then (number? rest.length rest).map fun (n, r) => ((n : Int), r)
    else (number? 4 (c :: rest)).map fun (n, r) => ((n : Int), r)

/-- A number of one or two digits, blanks in front allowed. -/
def short? (cs : List Char) : Option (Nat × List Char) := number? 2 (dropBlanks cs)

/-- A fraction of a second, if there is a point: nine digits count, more are skipped. -/
def fraction? (cs : List Char) : Option (Nat × List Char) :=
  match cs with
  | [] => some (0, [])
  | c :: rest =>
    if c = '.' then
      let (ds, after) := digitRun rest
      if ds = [] then none
      else
        let kept := ds.take 9
        some (ofDigits kept * Nat.pow 10 (9 - kept.length), after)
    else some (0, c :: rest)

def pair? (cs : List Char) : Option (Nat × List Char) :=
  match cs with
  | a :: b :: rest =>
    match digit? a, digit? b with
    | some x, some y => some (10 * x + y, rest)
    | _, _ => none
  | _ => none

/-- Hours and minutes of an offset, with colons and blanks between them, in minutes. -/
def offsetMinutes? (cs : List Char) : Option (Nat × List Char) := do
  let (hours, rest) ← pair? cs
  let (minutes, rest) ← pair? (rest.dropWhile fun c => c = ':' || isBlank c)
  if minutes < 60 then some (60 * hours + minutes, rest) else none

/-- An offset from universal time in minutes: the letters `UTC` or `Z`, or a sign and a time. -/
def offset? (cs : List Char) : Option (Int × List Char) :=
  match dropBlanks cs with
  | [] => none
  | c :: rest =>
    if (c :: rest.take 2).map Char.toUpper = ['U', 'T', 'C'] then some (0, rest.drop 2)
    else if c = 'Z' ∨ c = 'z' then some (0, rest)
    else if c = '+' then (offsetMinutes? rest).map fun (n, r) => ((n : Int), r)
    else if c = '-' ∨ c = '\u2212' then
      (offsetMinutes? rest).map fun (n, r) => (-(n : Int), r)
    else none

/-- Moves a local date and minute to universal time. -/
def shift? (date : Date) (minute : Nat) (offset : Int) : Option (Date × Fin 1440) := do
  let minute := (minute : Int) - offset
  if h : 0 ≤ minute ∧ minute < 1440 then some (date, ⟨minute.toNat, by omega⟩)
  else if h : minute < 0 ∧ 0 ≤ minute + 1440 then
    some (← date.previous?, ⟨(minute + 1440).toNat, by omega⟩)
  else if h : 1440 ≤ minute ∧ minute < 2880 then
    some (← date.next?, ⟨(minute - 1440).toNat, by omega⟩)
  else none

/-- The instant given by local fields and an offset of less than a day. -/
def ofFields? (date : Date) (hour minute second nano : Nat) (offset : Int) :
    Option Timestamp := do
  if h : second < 61 ∧ nano < 1000000000 then
    if hour < 24 ∧ minute < 60 ∧ offset.natAbs < 1440 then
      let (date, minute) ← shift? date (60 * hour + minute) offset
      some ⟨date, minute, ⟨second, h.1⟩, ⟨nano, h.2⟩⟩
    else none
  else none

def date? (cs : List Char) : Option (Date × List Char) := do
  let (year, cs) ← year? cs
  let (month, cs) ← short? (← expect? '-' cs)
  let (day, cs) ← short? (← expect? '-' cs)
  some (← Date.of? year month day, cs)

def separator? (cs : List Char) : Option (List Char) :=
  match cs with
  | [] => none
  | c :: rest => if c = 'T' ∨ c = 't' ∨ c = ' ' then some rest else none

/-- Reads a date, a time and an offset that fill the text up to blanks at its end. -/
def read? (text : String) : Option Timestamp := do
  let (date, cs) ← date? text.toList
  let (hour, cs) ← short? (← separator? cs)
  let (minute, cs) ← short? (← expect? ':' cs)
  let (second, cs) ← short? (← expect? ':' cs)
  let (nano, cs) ← fraction? cs
  let (offset, cs) ← offset? cs
  if dropBlanks cs = [] then ofFields? date hour minute second nano offset else none

end Timestamp

end Prognosis.Calendar
