/-!
# Document values

The values that structured texts carry.  A table keeps its members in the order of the text, so
that nothing a text says is lost before it is judged.  Values of a finite type are written by their
names (`Named`).
-/

namespace Prognosis

/-! ## Finite types with named values -/

/-- A finite type whose values have names. -/
class Named (α : Type) where
  all : List α
  name : α → String

def Named.ofName? {α : Type} [Named α] (s : String) : Option α :=
  Named.all.find? fun a => Named.name a = s

end Prognosis

/-! ## Values -/

namespace Prognosis.Document

/-- A number: whole numbers are kept exact, all others are binary64. -/
inductive Number where
  | int (i : Int)
  | float (x : Float)

namespace Number

/-- The binary64 number nearest to a number. -/
def toFloat : Number → Float
  | int i => Float.ofInt i
  | float x => x

/-- The whole number below a bound that a number is; a number written as a fraction is none. -/
def below? (bound : Nat) : Number → Option Nat
  | int i => if 0 ≤ i ∧ i < bound then some i.toNat else none
  | float _ => none

end Number

/-- A document value. -/
inductive Value where
  | null
  | bool (b : Bool)
  | num (n : Number)
  | text (s : String)
  | list (items : List Value)
  | table (members : List (String × Value))

instance : Inhabited Value := ⟨.null⟩

namespace Value

def nat (n : Nat) : Value := .num (.int n)

def ofText? : Option String → Value
  | some s => .text s
  | none => .null

/-- The member of a table with a name; where a name is repeated the last one counts. -/
def get? (name : String) : Value → Option Value
  | table members => (members.reverse.find? fun m => m.1 = name).map (·.2)
  | _ => none

end Value

end Prognosis.Document
