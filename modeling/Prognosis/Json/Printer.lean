import Prognosis.Decimal.Style
import Prognosis.Document.Value
import Prognosis.Json.Quoted

/-!
# Writing JSON

`compact` leaves out all blanks; `pretty` puts every item and member on a line of its own, indented
by two blanks a level.
-/

namespace Prognosis.Json

open Prognosis.Document

/-- Numbers between 0.00001 and 10^16 are written positionally, and whole ones keep a decimal.
JSON has no word for what is no finite number, and null stands for it. -/
def numberStyle : Decimal.Style where
  positional := fun place => -5 < place && place ≤ 16
  whole := ".0"
  nan := "null"
  infinity := "null"

def numberText : Number → String
  | .int i => toString i
  | .float x => if x.isFinite then numberStyle.write x else "null"

def boolText (b : Bool) : String := if b then "true" else "false"

def joined (separator : String) : List String → String
  | [] => ""
  | [s] => s
  | s :: t :: rest => s ++ separator ++ joined separator (t :: rest)

mutual

/-- A value without blanks. -/
def compact : Value → String
  | .null => "null"
  | .bool b => boolText b
  | .num n => numberText n
  | .text s => quote s
  | .list items => "[" ++ joined "," (compactItems items) ++ "]"
  | .table members => "\x7b" ++ joined "," (compactMembers members) ++ "\x7d"

def compactItems : List Value → List String
  | [] => []
  | v :: vs => compact v :: compactItems vs

def compactMembers : List (String × Value) → List String
  | [] => []
  | (k, v) :: ms => (quote k ++ ":" ++ compact v) :: compactMembers ms

end

/-- A new line at a level. -/
def newLine (level : Nat) : String := "\n" ++ String.ofList (List.replicate (2 * level) ' ')

/-- Pieces on lines of their own between two marks; nothing stands between the marks of none. -/
def block (level : Nat) (first last : String) (pieces : List String) : String :=
  if pieces = [] then first ++ last
  else
    first ++ newLine (level + 1) ++ joined ("," ++ newLine (level + 1)) pieces ++ newLine level ++
      last

mutual

/-- A value at a level, on lines of its own. -/
def prettyAt (level : Nat) : Value → String
  | .null => "null"
  | .bool b => boolText b
  | .num n => numberText n
  | .text s => quote s
  | .list items => block level "[" "]" (prettyItems (level + 1) items)
  | .table members => block level "\x7b" "\x7d" (prettyMembers (level + 1) members)

def prettyItems (level : Nat) : List Value → List String
  | [] => []
  | v :: vs => prettyAt level v :: prettyItems level vs

def prettyMembers (level : Nat) : List (String × Value) → List String
  | [] => []
  | (k, v) :: ms => (quote k ++ ": " ++ prettyAt level v) :: prettyMembers level ms

end

/-- A value on lines of its own. -/
def pretty (v : Value) : String := prettyAt 0 v

end Prognosis.Json
