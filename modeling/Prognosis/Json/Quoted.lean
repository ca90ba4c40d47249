import Prognosis.Text.Digits

/-!
# JSON strings

`quote` writes a string between quotation marks; `unquote?` reads one whose opening mark is already
read.  An escape of half a surrogate pair makes the string no text, but does not stop the reader.
-/

namespace Prognosis.Json

open Prognosis.Text

/-! ## Writing -/

def hexLower (n : Nat) : Char := Nat.digitChar n

/-- Quotation marks, backslashes and control characters are escaped, all else stands for itself. -/
def escaped (c : Char) : List Char :=
  if c = '"' then ['\\', '"']
  else if c = '\\' then ['\\', '\\']
  else if c = '\x08' then ['\\', 'b']
  else if c = '\x0c' then ['\\', 'f']
  else if c = '\n' then ['\\', 'n']
  else if c = '\r' then ['\\', 'r']
  else if c = '\t' then ['\\', 't']
  else if c.toNat < 32 then
    ['\\', 'u', '0', '0', hexLower (c.toNat / 16), hexLower (c.toNat % 16)]
  else [c]

def quote (s : String) : String :=
  "\"" ++ String.ofList (s.toList.flatMap escaped) ++ "\""

/-! ## Reading -/

/-- The character of a short escape. -/
def shortEscape? (c : Char) : Option Char :=
  if c = '"' ∨ c = '\\' ∨ c = '/' then some c
  else if c = 'b' then some '\x08'
  else if c = 'f' then some '\x0c'
  else if c = 'n' then some '\n'
  else if c = 'r' then some '\r'
  else if c = 't' then some '\t'
  else none

def fourHex? (a b c d : Char) : Option Nat := do
  some (((← hexDigit? a) * 16 + (← hexDigit? b)) * 256 + (← hexDigit? c) * 16 + (← hexDigit? d))

def isLead (n : Nat) : Bool := 0xD800 ≤ n && n < 0xDC00

def isTrail (n : Nat) : Bool := 0xDC00 ≤ n && n < 0xE000

def ofPair (lead trail : Nat) : Char :=
  Char.ofNat (0x10000 + (lead - 0xD800) * 1024 + (trail - 0xDC00))

/-- The second half of a pair at the start of a text, spelled as an escape. -/
def trail? : List Char → Option Nat
  | x :: u :: a :: b :: c :: d :: _ =>
    if x = '\\' ∧ u = 'u' then
      match fourHex? a b c d with
      | some n => if isTrail n then some n else none
      | none => none
    else none
  | _ => none

/-- What the four digits of an escape stand for, together with the second half of a pair behind
them: a character, or none for half a pair alone. -/
def codeEscape? : List Char → Option (Option Char × List Char)
  | a :: b :: c :: d :: cs =>
    match fourHex? a b c d with
    | none => none
    | some n =>
      if isLead n then
        match trail? cs with
        | some m => some (some (ofPair n m), cs.drop 6)
        | none => some (none, cs)
      else if isTrail n then some (none, cs)
      else some (some (Char.ofNat n), cs)
  | _ => none

/-- What an escape stands for whose backslash is already read. -/
def escape? : List Char → Option (Option Char × List Char)
  | [] => none
  | c :: cs => if c = 'u' then codeEscape? cs else (shortEscape? c).map fun e => (some e, cs)

/-- Puts a character in front of those read before, unless one of them is missing. -/
def keep (c : Option Char) (read : Option (List Char)) : Option (List Char) :=
  match c, read with
  | some c, some r => some (c :: r)
  | _, _ => none

/-- Reads up to the closing quotation mark.  `read` holds the characters before, last one first,
or none once half a pair was met. -/
def unquoteFrom? : (fuel : Nat) → List Char → (read : Option (List Char)) →
    Option (Option String × List Char)
  | 0, _, _ => none
  | _ + 1, [], _ => none
  | fuel + 1, c :: cs, read =>
    if c = '"' then some (read.map fun r => String.ofList r.reverse, cs)
    else if c = '\\' then
      match escape? cs with
      | some (e, cs) => unquoteFrom? fuel cs (keep e read)
      | none => none
    else if c.toNat < 32 then none
    else unquoteFrom? fuel cs (keep (some c) read)

/-- The string up to its closing quotation mark, and the text after it, where `fuel` is more than
the length of the text. -/
def unquote? (fuel : Nat) (cs : List Char) : Option (Option String × List Char) :=
  unquoteFrom? fuel cs (some [])

end Prognosis.Json
