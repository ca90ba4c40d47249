import Prognosis.Document.Decode
import Prognosis.Json.Numeral
import Prognosis.Json.Quoted
import Prognosis.Text.Bytes

/-!
# Reading JSON

`Text.ofString` reads a text as far as it goes into a tree with its faults in place, and says
whether only blanks follow.  `decode` runs a decoder on that tree; `parse?` gives the value of a
text that has no fault.
-/

namespace Prognosis.Json

open Prognosis.Document

/-- The four blanks of JSON. -/
def isBlank (c : Char) : Bool := c = ' ' || c = '\n' || c = '\t' || c = '\r'

def dropBlanks (cs : List Char) : List Char := cs.dropWhile isBlank

/-- The rest of a text after a word, if it starts with it. -/
def afterWord? : List Char → List Char → Option (List Char)
  | [], cs => some cs
  | _, [] => none
  | w :: ws, c :: cs => if w = c then afterWord? ws cs else none

/-- A piece that was read and the text after it, none where reading stopped inside. -/
abbrev Read (β : Type) := β × Option (List Char)

def word (w : List Char) (value : Node) (cs : List Char) : Read Node :=
  match afterWord? w cs with
  | some rest => (value, some rest)
  | none => (.broken, none)

def string (fuel : Nat) (cs : List Char) : Read Node :=
  match unquote? fuel cs with
  | some (s, rest) => (.text s, some rest)
  | none => (.broken, none)

def number (cs : List Char) : Read Node :=
  match numeral? cs with
  | some (n, rest) => (.num n.number?, some rest)
  | none => (.broken, none)

/-- The items or members of a list or table, and whether it was closed. -/
abbrev Run (β : Type) := Read (List β × Bool)

/-- Puts a piece in front of a run. -/
def Run.cons {β : Type} (b : β) (run : Run β) : Run β := ((b :: run.1.1, run.1.2), run.2)

/-- A run that stops after one piece. -/
def Run.stop {β : Type} (b : β) : Run β := (([b], false), none)

mutual

/-- The value at the start of a text. -/
def value : (fuel : Nat) → List Char → Read Node
  | 0, _ => (.broken, none)
  | fuel + 1, cs =>
    match dropBlanks cs with
    | [] => (.broken, none)
    | c :: rest =>
      if c = '"' then string fuel rest
      else if c = '[' then
        let ((items, closed), rest) := items fuel rest
        (.list items closed, rest)
      else if c = '{' then
        let ((members, closed), rest) := members fuel rest
        (.table members closed, rest)
      else if c = 'n' then word ['u', 'l', 'l'] .null rest
      else if c = 't' then word ['r', 'u', 'e'] (.bool true) rest
      else if c = 'f' then word ['a', 'l', 's', 'e'] (.bool false) rest
      else number (c :: rest)

/-- The items of a list whose opening mark is read. -/
def items : (fuel : Nat) → List Char → Run Node
  | 0, _ => (([], false), none)
  | fuel + 1, cs =>
    match dropBlanks cs with
    | [] => (([], false), none)
    | c :: rest => if c = ']' then (([], true), some rest) else moreItems fuel (c :: rest)

/-- At least one item and all that follow it. -/
def moreItems : (fuel : Nat) → List Char → Run Node
  | 0, _ => (([], false), none)
  | fuel + 1, cs =>
    match value fuel cs with
    | (n, none) => .stop n
    | (n, some cs) =>
      match dropBlanks cs with
      | [] => .stop n
      | c :: rest =>
        if c = ',' then .cons n (moreItems fuel rest)
        else if c = ']' then (([n], true), some rest)
        else .stop n

/-- The members of a table whose opening mark is read. -/
def members : (fuel : Nat) → List Char → Run (Option String × Node)
  | 0, _ => (([], false), none)
  | fuel + 1, cs =>
    match dropBlanks cs with
    | [] => (([], false), none)
    | c :: rest => if c = '}' then (([], true), some rest) else moreMembers fuel (c :: rest)

/-- At least one member and all that follow it. -/
def moreMembers : (fuel : Nat) → List Char → Run (Option String × Node)
  | 0, _ => (([], false), none)
  | fuel + 1, cs =>
    match dropBlanks cs with
    | [] => (([], false), none)
    | c :: rest =>
      if c = '"' then
        match unquote? fuel rest with
        | none => (([], false), none)
        | some (key, rest) =>
          match dropBlanks rest with
          | [] => .stop (key, .broken)
          | c :: rest =>
            if c = ':' then
              match value fuel rest with
              | (n, none) => .stop (key, n)
              | (n, some rest) =>
                match dropBlanks rest with
                | [] => .stop (key, n)
                | c :: rest =>
                  if c = ',' then .cons (key, n) (moreMembers fuel rest)
                  else if c = '}' then (([(key, n)], true), some rest)
                  else .stop (key, n)
            else .stop (key, .broken)
      else (([], false), none)

end

/-- A text as a tree, and whether nothing but blanks follows the value. -/
structure Text where
  root : Node
  complete : Bool

/-- Reads a text.  Every two steps read at least one character, so twice its length is enough
fuel. -/
def Text.ofString (s : String) : Text :=
  let (root, rest) := value (2 * s.length + 3) s.toList
  ⟨root, rest.any fun cs => dropBlanks cs = []⟩

/-- Bytes as a text to be read.  Where they are no character, half a surrogate pair stands behind a
letter.  No string can hold it and nothing but a string can begin with it, so it is refused, unless
it stands in a string that is passed over. -/
def ofBytes (bytes : ByteArray) : String :=
  String.ofList <|
    (Prognosis.Text.characters bytes).flatMap fun c => c.elim ['x', '\\', 'u', 'd', 'c', '0', '0'] ([·])

theorem ofBytes_toByteArray (s : String) : ofBytes s.toByteArray = s := by
  rw [ofBytes, Text.characters_toByteArray, List.flatMap_map]
  simp

/-- How JSON spells records and named values. -/
def dialect : Dialect where
  filler := fun n => match n with
    | .null => true
    | _ => false
  surplus := false
  room := some 127

/-- Runs a decoder on a text.  What follows the value is looked at last. -/
def decode {β : Type} (d : Decoder β) (s : String) : Except Fault β := do
  let text := Text.ofString s
  let b ← d text.root
  Decoder.ended text.complete
  .ok b

/-- The value of a text without faults and not nested too deep. -/
def parse? (s : String) : Option Value :=
  match decode (Decoder.kept dialect fun n => orMismatch n.sound?) s with
  | .ok v => some v
  | .error _ => none

end Prognosis.Json
