import Prognosis.Document.Node

/-!
# Decoding values

A decoder reads a value of a given type off a tree.  It goes through the tree in the order of the
text and reports the first fault it meets: so a text with two faults is judged by the earlier one,
and what a decoder passes over is held to the rules of punctuation alone.
-/

namespace Prognosis.Document

/-- Reads a value of type `β` off a tree. -/
abbrev Decoder (β : Type) := Node → Except Fault β

/-- What is reported where another kind of value is wanted.  A scalar is read to its end before it
is refused; a list or table is refused at once. -/
def Node.unexpected : Node → Fault
  | .num none | .text none | .broken => .malformed
  | _ => .mismatch

/-- A mismatch where there is no result. -/
def orMismatch {β : Type} : Option β → Except Fault β
  | some b => .ok b
  | none => .error .mismatch

namespace Decoder

/-- Any number, as binary64. -/
def float : Decoder Float
  | .num (some n) => .ok n.toFloat
  | n => .error n.unexpected

/-- A whole number below a bound. -/
def nat (bound : Nat) : Decoder Nat
  | .num (some n) => orMismatch (n.below? bound)
  | n => .error n.unexpected

def text : Decoder String
  | .text (some s) => .ok s
  | n => .error n.unexpected

def textWith {β : Type} (read? : String → Option β) : Decoder β := fun n => do
  orMismatch (read? (← text n))

/-- Null or a value. -/
def optional {β : Type} (d : Decoder β) : Decoder (Option β)
  | .null => .ok none
  | n => (d n).map some

def items {β : Type} (d : Decoder β) : List Node → Except Fault (List β)
  | [] => .ok []
  | n :: ns => do
    let b ← d n
    let bs ← items d ns
    .ok (b :: bs)

/-- A list ends with its mark. -/
def ended (closed : Bool) : Except Fault Unit := if closed then .ok () else .error .malformed

/-- A list of values. -/
def list {β : Type} (d : Decoder β) : Decoder (List β)
  | .list ns closed => do
    let bs ← items d ns
    ended closed
    .ok bs
  | n => .error n.unexpected

end Decoder

/-! ## Dialects -/

/-- Where formats differ in what they accept for a record or a named value. -/
structure Dialect where
  /-- What may stand beside the name of a named value, in its long spelling. -/
  filler : Node → Bool
  /-- Whether a record written as a list may have more items than fields. -/
  surplus : Bool
  /-- How deep a value may be that is kept for a second look; none for any depth. -/
  room : Option Nat

/-- The dialect some levels further down, where less room is left. -/
def Dialect.below (dialect : Dialect) (levels : Nat) : Dialect :=
  { dialect with room := dialect.room.map (· - levels) }

/-! ## Named values -/

/-- A named value: its name as a text, or a table with the name as its only member. -/
def Decoder.named {β : Type} [Named β] (dialect : Dialect) : Decoder β
  | .table [(k, n)] closed =>
    match k, dialect.filler n, closed with
    | none, _, _ | _, _, false => .error .malformed
    | some name, true, true => orMismatch (Named.ofName? name)
    | some _, false, true => .error n.unexpected
  | n => Decoder.textWith Named.ofName? n

/-! ## Records -/

namespace Record

/-- A field of a record: its name, and how a value given for it changes the record. -/
structure Field (δ : Type) where
  name : String
  store : Node → δ → Except Fault δ

/-- A field whose value is read by a decoder and put into the record by a setter. -/
def Field.of {β δ : Type} (name : String) (d : Decoder β) (set : β → δ → δ) : Field δ :=
  ⟨name, fun n r => (d n).map fun b => set b r⟩

/-- A field of a record that is read and written. -/
structure Column (δ : Type) where
  {β : Type}
  name : String
  read : Decoder β
  write : β → Value
  get : δ → β
  set : β → δ → δ

variable {δ : Type}

def Column.field (c : Column δ) : Field δ := .of c.name c.read c.set

/-- What is written of a record in a column. -/
def Column.member (c : Column δ) (r : δ) : String × Value := (c.name, c.write (c.get r))

/-- Takes in the members of a table in their order.  Names that are no field are passed over; a
field given twice is a mismatch, noticed as soon as its name is read again. -/
def members (fields : List (Field δ)) :
    List (Option String × Node) → List String → δ → Except Fault δ
  | [], _, r => .ok r
  | (none, _) :: _, _, _ => .error .malformed
  | (some k, n) :: ms, seen, r =>
    match fields.find? fun f => f.name = k with
    | none => if n.passable then members fields ms seen r else .error .malformed
    | some f =>
      if k ∈ seen then .error .mismatch
      else do
        let r ← f.store n r
        members fields ms (k :: seen) r

/-- Takes in items for the fields in their order; fields without an item stay as they are. -/
def items (surplus : Bool) : List (Field δ) → List Node → δ → Except Fault δ
  | _, [], r => .ok r
  | [], _ :: _, r => if surplus then .ok r else .error .malformed
  | f :: fs, n :: ns, r => do
    let r ← f.store n r
    items surplus fs ns r

/-- Changes a record by a table of members or a list of items. -/
def read (dialect : Dialect) (fields : List (Field δ)) (start : δ) : Decoder δ
  | .table ms closed => do
    let r ← members fields ms [] start
    Decoder.ended closed
    .ok r
  | .list ns closed => do
    let r ← items dialect.surplus fields ns start
    Decoder.ended closed
    .ok r
  | n => .error n.unexpected

end Record

/-- Whether a value can be kept for a second look: it has no fault and is not too deep. -/
def Dialect.keeps (dialect : Dialect) (n : Node) : Bool :=
  n.sound?.isSome && dialect.room.all fun room => n.depth ≤ room

/-- Reads a value that is kept first: any fault of its text comes before all else, and after that
nothing but a mismatch can be found. -/
def Decoder.kept {β : Type} (dialect : Dialect) (d : Decoder β) : Decoder β := fun n =>
  if dialect.keeps n then (d n).mapError fun _ => .mismatch else .error .malformed

end Prognosis.Document
