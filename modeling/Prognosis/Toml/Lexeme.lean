import Prognosis.Text.Digits

/-!
# Blanks, comments, strings and keys of TOML

Every reader here takes the text from its place on, and gives back what it read and the text after
it, or none where the text breaks the rules.
-/

namespace Prognosis.Toml

open Prognosis.Text

/-! ## Characters -/

def isBlank (c : Char) : Bool := c = ' ' || c = '\t'

/-- A character of a comment or string: everything but control characters, except the tab. -/
def isPlain (c : Char) : Bool := c = '\t' || (32 ≤ c.toNat && c.toNat ≠ 127)

/-- A character of a key without quotation marks. -/
def isBare (c : Char) : Bool := c.isAlphanum || c = '-' || c = '_'

def dropBlanks (cs : List Char) : List Char := cs.dropWhile isBlank

/-- The text after exactly this character. -/
def expect? (mark : Char) (cs : List Char) : Option (List Char) :=
  match cs with
  | [] => none
  | c :: rest => if c = mark then some rest else none

/-- The text after a line break, if one stands here. -/
def lineBreak? (cs : List Char) : Option (List Char) :=
  match cs with
  | [] => none
  | c :: rest => if c = '\n' then some rest else if c = '\r' then expect? '\n' rest else none

/-- The text after a comment, if one stands here. -/
def dropComment (cs : List Char) : List Char :=
  match cs with
  | [] => []
  | c :: rest => if c = '#' then rest.dropWhile isPlain else c :: rest

def lineEnd? (cs : List Char) : Option (List Char) := if cs = [] then some [] else lineBreak? cs

/-- The rest of a line that may hold blanks and a comment only. -/
def restOfLine? (cs : List Char) : Option (List Char) := lineEnd? (dropComment (dropBlanks cs))

/-- The text without blanks, line breaks and comments in front. -/
def dropGap (inComment : Bool) : List Char → List Char
  | [] => []
  | c :: cs =>
    if c = '\n' then dropGap false cs
    else if c = '\r' ∧ cs.head? = some '\n' then dropGap false cs
    else if inComment then if isPlain c then dropGap true cs else c :: cs
    else if isBlank c then dropGap false cs
    else if c = '#' then dropGap true cs
    else c :: cs

/-! ## Strings -/

/-- The number of exactly `n` hexadecimal digits. -/
def hex? : (n : Nat) → (value : Nat) → List Char → Option (Nat × List Char)
  | 0, value, cs => some (value, cs)
  | _ + 1, _, [] => none
  | n + 1, value, c :: cs =>
    match hexDigit? c with
    | some d => hex? n (16 * value + d) cs
    | none => none

/-- The character with a code written in `n` hexadecimal digits. -/
def coded? (n : Nat) (cs : List Char) : Option (Char × List Char) :=
  match hex? n 0 cs with
  | some (code, rest) => if code.isValidChar then some (Char.ofNat code, rest) else none
  | none => none

/-- The character of an escape whose backslash is read. -/
def escape? (cs : List Char) : Option (Char × List Char) :=
  match cs with
  | [] => none
  | c :: rest =>
    if c = 'b' then some ('\x08', rest)
    else if c = 'f' then some ('\x0c', rest)
    else if c = 'n' then some ('\n', rest)
    else if c = 'r' then some ('\r', rest)
    else if c = 't' then some ('\t', rest)
    else if c = '"' ∨ c = '\\' then some (c, rest)
    else if c = 'u' then coded? 4 rest
    else if c = 'U' then coded? 8 rest
    else none

/-- Drops blanks and line breaks. -/
def dropLines (cs : List Char) : List Char :=
  match cs with
  | [] => []
  | c :: rest =>
    if isBlank c ∨ c = '\n' then dropLines rest
    else if c = '\r' ∧ rest.head? = some '\n' then dropLines rest
    else c :: rest

/-- The text after a line break that an escape takes away together with all blanks around it. -/
def foldedLine? (cs : List Char) : Option (List Char) := (lineBreak? (dropBlanks cs)).map dropLines

/-- The number of times a character stands in front of a text. -/
def countFront (mark : Char) : List Char → Nat
  | [] => 0
  | c :: cs => if c = mark then countFront mark cs + 1 else 0

/-- A string in quotation marks on one line, its opening mark read; `read` holds the characters
before, last one first. -/
def basicFrom? : (fuel : Nat) → List Char → (read : List Char) → Option (String × List Char)
  | 0, _, _ => none
  | _ + 1, [], _ => none
  | fuel + 1, c :: cs, read =>
    if c = '"' then some (String.ofList read.reverse, cs)
    else if c = '\\' then
      match escape? cs with
      | some (e, rest) => basicFrom? fuel rest (e :: read)
      | none => none
    else if isPlain c then basicFrom? fuel cs (c :: read)
    else none

/-- A string between apostrophes on one line, its opening mark read: it has no escapes. -/
def literalFrom? (cs : List Char) : Option (String × List Char) :=
  let (inside, rest) := cs.span fun c => c ≠ '\'' && isPlain c
  (expect? '\'' rest).map fun rest => (String.ofList inside, rest)

/-- Closes a string of several lines at a run of `n` marks, three of which end it; at most two marks
may stand before these. -/
def closeLines (mark : Char) (n : Nat) (cs read : List Char) : String × List Char :=
  let inside := min (n - 3) 2
  (String.ofList (read.reverse ++ List.replicate inside mark), cs.drop (inside + 3))

/-- A string of several lines, its opening marks read. -/
def linesFrom? (mark : Char) (escapes : Bool) : (fuel : Nat) → List Char → (read : List Char) →
    Option (String × List Char)
  | 0, _, _ => none
  | _ + 1, [], _ => none
  | fuel + 1, c :: cs, read =>
    if c = mark then
      let n := countFront mark (c :: cs)
      if 3 ≤ n then some (closeLines mark n (c :: cs) read)
      else linesFrom? mark escapes fuel cs (c :: read)
    else if escapes ∧ c = '\\' then
      match foldedLine? cs with
      | some rest => linesFrom? mark escapes fuel rest read
      | none =>
        match escape? cs with
        | some (e, rest) => linesFrom? mark escapes fuel rest (e :: read)
        | none => none
    else if isPlain c then linesFrom? mark escapes fuel cs (c :: read)
    else
      match lineBreak? (c :: cs) with
      | some rest => linesFrom? mark escapes fuel rest ('\n' :: read)
      | none => none

/-- Three marks open a string of several lines; a line break right behind them does not count. -/
def opensLines? (mark : Char) (cs : List Char) : Option (List Char) := do
  let rest ← expect? mark (← expect? mark (← expect? mark cs))
  some ((lineBreak? rest).getD rest)

/-- A string of one line, in either kind of marks. -/
def lineString? (fuel : Nat) (cs : List Char) : Option (String × List Char) :=
  match cs with
  | [] => none
  | c :: rest =>
    if c = '"' then basicFrom? fuel rest []
    else if c = '\'' then literalFrom? rest
    else none

def string? (fuel : Nat) (cs : List Char) : Option (String × List Char) :=
  match opensLines? '"' cs, opensLines? '\'' cs with
  | some rest, _ => linesFrom? '"' true fuel rest []
  | none, some rest => linesFrom? '\'' false fuel rest []
  | none, none => lineString? fuel cs

/-! ## Keys -/

def keyPart? (fuel : Nat) (cs : List Char) : Option (String × List Char) :=
  match lineString? fuel cs with
  | some r => some r
  | none =>
    let (bare, rest) := cs.span isBare
    if bare = [] then none else some (String.ofList bare, rest)

/-- The parts of a key, between points and blanks. -/
def keyFrom? : (fuel : Nat) → List Char → Option (List String × List Char)
  | 0, _ => none
  | fuel + 1, cs => do
    let (part, rest) ← keyPart? fuel (dropBlanks cs)
    let rest := dropBlanks rest
    match expect? '.' rest with
    | none => some ([part], rest)
    | some rest =>
      let (parts, rest) ← keyFrom? fuel rest
      some (part :: parts, rest)

/-- Keys have fewer than 80 parts. -/
def key? (fuel : Nat) (cs : List Char) : Option (List String × List Char) := do
  let (parts, rest) ← keyFrom? fuel cs
  if parts.length < 80 then some (parts, rest) else none

end Prognosis.Toml
