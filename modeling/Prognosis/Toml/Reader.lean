import Prognosis.Document.Decode
import Prognosis.Toml.Numeral
import Prognosis.Toml.Section

/-!
# Reading TOML

`parse?` gives the table of a document, or none where the text breaks the rules of TOML.
-/

namespace Prognosis.Toml

open Prognosis.Document

/-! ## Values -/

/-- Arrays and inline tables are nested in fewer than 80 levels. -/
def roomForNesting : Nat := 79

/-- The table of an inline table's keys. -/
def inlineTable? (kvs : KeyValues) : Option Value :=
  (addKeys? [] kvs).map fun ms => .table (memberValues ms)

mutual

/-- The value at the start of a text, with `room` for arrays and inline tables inside each
other. -/
def value? : (fuel : Nat) → (room : Nat) → List Char → Option (Value × List Char)
  | 0, _, _ => none
  | _ + 1, _, [] => none
  | fuel + 1, room, c :: cs =>
    if c = '"' ∨ c = '\'' then (string? fuel (c :: cs)).map fun (s, rest) => (.text s, rest)
    else if c = '[' then
      if room = 0 then none
      else do
        let (vs, rest) ← array? fuel (room - 1) cs
        some (.list vs, rest)
    else if c = '\x7b' then
      if room = 0 then none
      else do
        let (kvs, rest) ← inline? fuel (room - 1) cs
        some (← inlineTable? kvs, rest)
    else if c = 't' then (afterWord? ['r', 'u', 'e'] cs).map fun rest => (.bool true, rest)
    else if c = 'f' then (afterWord? ['a', 'l', 's', 'e'] cs).map fun rest => (.bool false, rest)
    else
      match date? (c :: cs) with
      | some r => some r
      | none => number? (c :: cs)

/-- The items of an array whose opening mark is read.  The last one may be followed by a comma. -/
def array? : (fuel : Nat) → (room : Nat) → List Char → Option (List Value × List Char)
  | 0, _, _ => none
  | fuel + 1, room, cs =>
    let cs := dropGap false cs
    match expect? ']' cs with
    | some rest => some ([], rest)
    | none => do
      let (v, rest) ← value? fuel room cs
      let rest := dropGap false rest
      match expect? ',' rest with
      | some rest =>
        let (vs, rest) ← array? fuel room rest
        some (v :: vs, rest)
      | none => some ([v], ← expect? ']' rest)

/-- The keys and values of an inline table whose opening mark is read. -/
def inline? : (fuel : Nat) → (room : Nat) → List Char → Option (KeyValues × List Char)
  | 0, _, _ => none
  | fuel + 1, room, cs =>
    match expect? '\x7d' (dropBlanks cs) with
    | some rest => some ([], rest)
    | none => inlineMore? fuel room cs

/-- At least one key with its value, all on one line. -/
def inlineMore? : (fuel : Nat) → (room : Nat) → List Char → Option (KeyValues × List Char)
  | 0, _, _ => none
  | fuel + 1, room, cs => do
    let (key, rest) ← key? fuel cs
    let (v, rest) ← value? fuel room (dropBlanks (← expect? '=' rest))
    let rest := dropBlanks rest
    match expect? ',' rest with
    | some rest =>
      let (kvs, rest) ← inlineMore? fuel room rest
      some ((key, v) :: kvs, rest)
    | none => some ([(key, v)], ← expect? '\x7d' rest)

end

/-! ## Documents -/

def keyLine? (fuel : Nat) (cs : List Char) : Option ((List String × Value) × List Char) := do
  let (key, rest) ← key? fuel cs
  let (v, rest) ← value? fuel roomForNesting (dropBlanks (← expect? '=' rest))
  some ((key, v), ← restOfLine? rest)

/-- A header on a line of its own, its first bracket read. -/
def headerLine? (fuel : Nat) (cs : List Char) : Option (Section × List Char) :=
  match expect? '[' cs with
  | some rest => do
    let (path, rest) ← key? fuel rest
    some (⟨true, path, []⟩, ← restOfLine? (← expect? ']' (← expect? ']' rest)))
  | none => do
    let (path, rest) ← key? fuel cs
    some (⟨false, path, []⟩, ← restOfLine? (← expect? ']' rest))

/-- The keys before the first header, and the sections after it. -/
abbrev Outline := KeyValues × List Section

/-- Puts a header in front of an outline, whose first keys belong to it. -/
def Outline.under (header : Section) (rest : Outline) : Outline :=
  ([], { header with keys := rest.1 } :: rest.2)

/-- Reads a document line by line. -/
def outline? : (fuel : Nat) → List Char → Option Outline
  | 0, _ => none
  | fuel + 1, cs =>
    match dropBlanks cs with
    | [] => some ([], [])
    | c :: cs =>
      if c = '#' then
        match lineEnd? (dropComment (c :: cs)) with
        | some rest => outline? fuel rest
        | none => none
      else if c = '[' then
        match headerLine? fuel cs with
        | some (header, rest) => (outline? fuel rest).map fun o => .under header o
        | none => none
      else
        match lineBreak? (c :: cs) with
        | some rest => outline? fuel rest
        | none =>
          match keyLine? fuel (c :: cs) with
          | some (kv, rest) => (outline? fuel rest).map fun o => (kv :: o.1, o.2)
          | none => none

/-- Builds the tables of an outline. -/
def Outline.build? (o : Outline) : Option Members := do
  o.2.foldlM (fun root s => s.addTo? root) (← addKeys? [] o.1)

/-- A document may start with a byte order mark. -/
def dropMark (cs : List Char) : List Char :=
  match cs with
  | [] => []
  | c :: rest => if c = '\ufeff' then rest else c :: rest

def parse? (s : String) : Option (List (String × Value)) := do
  let o ← outline? (2 * s.length + 3) (dropMark s.toList)
  (o.build?).map memberValues

/-- How TOML spells records and named values. -/
def dialect : Dialect where
  filler := fun n => match n with
    | .list [] _ | .table [] _ => true
    | _ => false
  surplus := true
  room := none

end Prognosis.Toml
