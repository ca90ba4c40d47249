import Prognosis.Decimal.Style
import Prognosis.Toml.Lexeme

/-!
# Writing TOML scalars

A string takes the first of four spellings that can hold it without escapes, and falls back on
escapes; whole floating-point numbers keep a decimal point.
-/

namespace Prognosis.Toml

/-! ## Numbers -/

/-- Always positional, a decimal behind whole numbers, and TOML's own words for the rest. -/
def numberStyle : Decimal.Style where
  positional := fun _ => true
  whole := ".0"
  nan := "nan"
  infinity := "inf"

/-! ## Strings -/

/-- The length of the longest run of a character. -/
def longestRun (mark : Char) (cs : List Char) : Nat :=
  (cs.foldl (fun (run, longest) c =>
    if c = mark then (run + 1, max longest (run + 1)) else (0, longest)) (0, 0)).2

/-- A character that no spelling without escapes can hold. -/
def needsEscape (c : Char) : Bool := !isPlain c && c != '\n'

def fourHex (n : Nat) : List Char :=
  [n / 4096 % 16, n / 256 % 16, n / 16 % 16, n % 16].map fun d => (Nat.digitChar d).toUpper

/-- A character inside quotation marks; `marks` counts the quotation marks right before it. -/
def escaped (lines : Bool) (marks : Nat) (c : Char) : List Char :=
  if c = '"' then if marks < (if lines then 2 else 0) then [c] else ['\\', c]
  else if c = '\\' then ['\\', c]
  else if c = '\x08' then ['\\', 'b']
  else if c = '\t' then ['\\', 't']
  else if c = '\n' then if lines then [c] else ['\\', 'n']
  else if c = '\x0c' then ['\\', 'f']
  else if c = '\r' then ['\\', 'r']
  else if needsEscape c then '\\' :: 'u' :: fourHex c.toNat
  else [c]

/-- All characters inside quotation marks; an escaped mark ends a run of marks. -/
def escapedFrom (lines : Bool) (marks : Nat) : List Char → List Char
  | [] => []
  | c :: cs =>
    let written := escaped lines marks c
    written ++ escapedFrom lines (if c = '"' ∧ written.length = 1 then marks + 1 else 0) cs

def basic (cs : List Char) : List Char := '"' :: escapedFrom false 0 cs ++ ['"']

/-- What follows the opening mark of a spelling for several lines: a string with a line break starts
on a line of its own. -/
def opening (cs : List Char) : List Char := if cs.contains '\n' then ['\n'] else []

/-- A string on several lines with escapes. -/
def basicLines (cs : List Char) : List Char :=
  ['"', '"', '"'] ++ opening cs ++ escapedFrom true 0 cs ++ ['"', '"', '"']

def literal (cs : List Char) : List Char := '\'' :: cs ++ ['\'']

/-- A string on several lines without escapes. -/
def literalLines (cs : List Char) : List Char :=
  ['\'', '\'', '\''] ++ opening cs ++ cs ++ ['\'', '\'', '\'']

def stringText (s : String) : String :=
  let cs := s.toList
  let control := cs.any needsEscape
  let backslash := cs.contains '\\'
  let lines := cs.contains '\n'
  let double := longestRun '"' cs
  let single := longestRun '\'' cs
  String.ofList <|
    if !control && !backslash && double = 0 && !lines then basic cs
    else if !control && single = 0 && !lines then literal cs
    else if !control && !backslash && double ≤ 2 then basicLines cs
    else if !control && single ≤ 2 then literalLines cs
    else if lines then basicLines cs
    else basic cs

end Prognosis.Toml
