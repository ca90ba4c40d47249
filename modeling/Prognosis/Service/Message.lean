import Prognosis.Document.Value
import Prognosis.Text.Digits

/-!
# Requests, responses and routes

A route is found in the path alone; which method it takes is looked at afterwards.
-/

namespace Prognosis.Service

open Document Text

/-! ## Messages -/

/-- A request as it was sent. -/
structure Request where
  method : String
  path : String
  contentType : Option String := none
  body : ByteArray := .empty

/-- The content of a response. -/
inductive Content where
  | json (v : Value)
  | plain (s : String)
  /-- A reason for a refusal, in words that are left open. -/
  | reason

/-- A response.  The content of a response to `HEAD` is not sent. -/
structure Response where
  status : Nat
  content : Content
  sent : Bool := true

/-! ## Routes -/

/-- What a path leads to.  The name of a node is still encoded. -/
inductive Route where
  | health
  | predict
  | nodes
  | samples (node : List Char)
  | prediction (node : List Char)
  deriving DecidableEq, Repr

def segments : List Char → List (List Char)
  | [] => [[]]
  | c :: cs =>
    match segments cs with
    | [] => [[c]]
    | s :: rest => if c = '/' then [] :: s :: rest else (c :: s) :: rest

/-- A target without a scheme and an authority in front of its path. -/
def withoutAuthority (cs : List Char) : List Char :=
  match cs.dropWhile fun c => c ≠ ':' && c ≠ '/' with
  | ':' :: '/' :: '/' :: rest => rest.dropWhile fun c => c ≠ '/' && c ≠ '?' && c ≠ '#'
  | _ => cs

/-- The path in a target, without the query and the fragment. -/
def bare (target : String) : List Char :=
  (withoutAuthority target.toList).takeWhile fun c => c ≠ '?' && c ≠ '#'

def Route.ofPath? (path : String) : Option Route :=
  match (segments (bare path)).map String.ofList with
  | "" :: "api" :: "v1" :: rest =>
    match rest with
    | ["health"] => some health
    | ["predict"] => some predict
    | ["nodes"] => some nodes
    | ["nodes", node, "samples"] => some (samples node.toList)
    | ["nodes", node, "prediction"] => some (prediction node.toList)
    | _ => none
  | _ => none

/-- Whether a route only reads, and so is asked by `GET` or `HEAD`; the others take `POST`. -/
def Route.reads : Route → Bool
  | health | nodes | prediction _ => true
  | predict | samples _ => false

def Route.takes (route : Route) (method : String) : Bool :=
  if route.reads then method = "GET" || method = "HEAD" else method = "POST"

/-! ## Names in paths -/

def byte? (high low : UInt8) : Option UInt8 := do
  let h ← hexDigit? (Char.ofNat high.toNat)
  let l ← hexDigit? (Char.ofNat low.toNat)
  some (16 * h + l).toUInt8

/-- Replaces each percent sign and the two digits after it by their byte; a percent sign without
digits stands for itself. -/
def unescaped : List UInt8 → List UInt8
  | [] => []
  | [a] => [a]
  | [a, b] => [a, b]
  | a :: h :: l :: rest =>
    match if a = 37 then byte? h l else none with
    | some b => b :: unescaped rest
    | none => a :: unescaped (h :: l :: rest)

/-- The name that a segment encodes, none where its bytes are no text. -/
def decodeName? (segment : List Char) : Option String :=
  let bytes := (String.ofList segment).toUTF8.data.toList
  String.fromUTF8? ⟨(unescaped bytes).toArray⟩

/-! ## Content types -/

/-- A character of the names in a content type. -/
def isToken (c : Char) : Bool := c.isAlphanum || "!#$%&'*+-.^_`|~".toList.contains c

/-- The text after a name, which may not be empty. -/
def afterToken? (cs : List Char) : Option (List Char) :=
  let rest := cs.dropWhile isToken
  if rest.length < cs.length then some rest else none

/-- A character between quotation marks in a parameter. -/
def isQuotable (c : Char) : Bool := 32 ≤ c.toNat && c.toNat < 127

/-- The text after a string whose opening mark is read.  The string has at least one character, so
the first one never closes it. -/
def afterQuoted? (cs : List Char) : Option (List Char) :=
  match cs with
  | [] => none
  | c :: rest =>
    if isQuotable c then
      match rest.dropWhile fun c => isQuotable c && c ≠ '"' with
      | '"' :: after => some after
      | _ => none
    else none

/-- The text after the value of a parameter: a name, possibly empty at the end, or a string in
quotation marks with blanks after it. -/
def afterParameter? (cs : List Char) : Option (List Char) :=
  match cs with
  | [] => some []
  | '"' :: rest => (afterQuoted? rest).map fun after => after.dropWhile (· = ' ')
  | cs => afterToken? cs

/-- Whether a text is a list of parameters, each a name, an equals sign and a value. -/
def areParameters : (fuel : Nat) → List Char → Bool
  | 0, _ => false
  | fuel + 1, cs =>
    match cs.dropWhile (· = ' ') with
    | [] => true
    | c :: rest =>
      match afterToken? (c :: rest) with
      | some ('=' :: rest) =>
        match afterParameter? rest with
        | some [] => true
        | some (';' :: rest) => areParameters fuel rest
        | _ => false
      | _ => false

/-- Whether a subtype is JSON or ends in the suffix `+json`; a plus sign in front is no suffix
mark. -/
def isJsonSubtype (subtype : List Char) : Bool :=
  match subtype.reverse.span (· ≠ '+') with
  | (suffix, '+' :: base) =>
    if base = [] then false
    else base.reverse = "json".toList || suffix.reverse = "json".toList
  | _ => subtype = "json".toList

/-- Whether a content type says that the body is JSON. -/
def isJson (contentType : String) : Bool :=
  let (kind, rest) := (contentType.toList.map Char.toLower).span isToken
  match rest with
  | '/' :: rest =>
    let (subtype, parameters) := rest.span isToken
    kind = "application".toList && isJsonSubtype subtype &&
      match parameters with
      | [] => true
      | ';' :: parameters => areParameters (parameters.length + 1) parameters
      | _ => false
  | _ => false

end Prognosis.Service
