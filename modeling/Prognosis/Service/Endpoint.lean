import Prognosis.Text.Digits

/-!
# Addresses to listen at

`Endpoint.read?` reads an address and the number of a socket: four octets with points between them,
as in `127.0.0.1:80`, or eight groups in brackets, as in `[::1]:80`, where two colons stand for
groups that are zero.
-/

namespace Prognosis.Service

open Text

inductive Host where
  | octets (values : List Nat)
  | groups (values : List Nat) (scope : Nat)
  deriving DecidableEq, Repr

/-- A host and the number of one of its sockets. -/
structure Endpoint where
  host : Host
  socket : Nat
  deriving DecidableEq, Repr

namespace Endpoint

/-! ## Numbers -/

/-- The longest run of hexadecimal digits at the start of a text, and the text after it. -/
def hexRun : List Char → List Nat × List Char
  | [] => ([], [])
  | c :: cs =>
    match hexDigit? c with
    | some d => let (ds, rest) := hexRun cs; (d :: ds, rest)
    | none => ([], c :: cs)

/-- A decimal number below a bound, zeros in front allowed. -/
def below? (bound : Nat) (cs : List Char) : Option (Nat × List Char) :=
  let (ds, rest) := digitRun cs
  if ds = [] ∨ bound ≤ ofDigits ds then none else some (ofDigits ds, rest)

def octet? (cs : List Char) : Option (Nat × List Char) :=
  match digitRun cs with
  | ([d], rest) => some (d, rest)
  | (d :: ds, rest) =>
    if d = 0 ∨ 255 < ofDigits (d :: ds) then none else some (ofDigits (d :: ds), rest)
  | ([], _) => none

/-- A group of at most four hexadecimal digits. -/
def group? (cs : List Char) : Option (Nat × List Char) :=
  let (ds, rest) := hexRun cs
  if ds = [] ∨ 4 < ds.length then none
  else some (ds.foldl (fun n d => 16 * n + d) 0, rest)

/-! ## Octets with points between them -/

/-- More octets, each after a point. -/
def moreOctets? : (count : Nat) → List Char → Option (List Nat × List Char)
  | 0, cs => some ([], cs)
  | count + 1, cs => do
    let ('.' :: cs) := cs | none
    let (o, cs) ← octet? cs
    let (os, cs) ← moreOctets? count cs
    some (o :: os, cs)

def octets? (cs : List Char) : Option (List Nat × List Char) := do
  let (o, cs) ← octet? cs
  let (os, cs) ← moreOctets? 3 cs
  some (o :: os, cs)

def pairs : List Nat → List Nat
  | high :: low :: rest => (256 * high + low) :: pairs rest
  | rest => rest

/-! ## Groups with colons between them -/

/-- Groups as far as they could be read. -/
structure Groups where
  values : List Nat
  /-- Whether the last two were given as octets. -/
  dotted : Bool
  rest : List Char

def Groups.cons (g : Nat) (more : Groups) : Groups := { more with values := g :: more.values }

/-- The text of the next group; all but the first follow a colon. -/
def next? (first : Bool) (cs : List Char) : Option (List Char) :=
  if first then some cs
  else
    match cs with
    | ':' :: cs => some cs
    | _ => none

/-- As many groups as there are and fit.  Where two fit, four octets may stand for them, and end
the groups. -/
def groups : (room : Nat) → (first : Bool) → List Char → Groups
  | 0, _, cs => ⟨[], false, cs⟩
  | room + 1, first, cs =>
    match next? first cs with
    | none => ⟨[], false, cs⟩
    | some inner =>
      match if 0 < room then octets? inner else none with
      | some (os, rest) => ⟨pairs os, true, rest⟩
      | none =>
        match group? inner with
        | some (g, rest) => (groups room false rest).cons g
        | none => ⟨[], false, cs⟩

/-- Eight groups, or fewer with two colons for at least one that is zero. -/
def eight? (cs : List Char) : Option (List Nat × List Char) :=
  let front := groups 8 true cs
  if front.values.length = 8 then some (front.values, front.rest)
  else if front.dotted then none
  else
    match front.rest with
    | ':' :: ':' :: rest =>
      let back := groups (7 - front.values.length) true rest
      let missing := 8 - front.values.length - back.values.length
      some (front.values ++ List.replicate missing 0 ++ back.values, back.rest)
    | _ => none

/-! ## Endpoints -/

def socket? (cs : List Char) : Option Nat := do
  let (':' :: cs) := cs | none
  let (number, []) ← below? UInt16.size cs | none
  some number

/-- The scope between an address and its closing bracket; zero where none is given. -/
def scope? (cs : List Char) : Option (Nat × List Char) :=
  match cs with
  | '%' :: cs => below? UInt32.size cs
  | cs => some (0, cs)

def ofOctets? (cs : List Char) : Option Endpoint := do
  let (os, cs) ← octets? cs
  some ⟨.octets os, ← socket? cs⟩

/-- Eight groups in brackets and a socket. -/
def ofGroups? (cs : List Char) : Option Endpoint := do
  let ('[' :: cs) := cs | none
  let (gs, cs) ← eight? cs
  let (scope, ']' :: cs) ← scope? cs | none
  some ⟨.groups gs scope, ← socket? cs⟩

def read? (s : String) : Option Endpoint := ofOctets? s.toList <|> ofGroups? s.toList

end Endpoint

end Prognosis.Service
