import Prognosis.Document.Value

/-!
# Building tables from keys and headers

A document is a list of entries and headers; the same key may not be given twice, and a table may be
continued only in the way it was begun.  `Entry` keeps, beside the values, how each table came to
be.
-/

namespace Prognosis.Toml

open Prognosis.Document

/-- How a table came to be. -/
inductive Origin where
  /-- By a header of its own. -/
  | header
  /-- By the header of a table inside it. -/
  | implied
  /-- By a key with several parts. -/
  | dotted
  deriving DecidableEq

/-- What a key holds while a document is built. -/
inductive Entry where
  /-- A finished value. -/
  | value (v : Value)
  | table (origin : Origin) (members : List (String × Entry))
  /-- Tables under headers of the same name, in order. -/
  | tables (all : List (List (String × Entry)))

/-- The members of a table while it is built, in the order they were given. -/
abbrev Members := List (String × Entry)

namespace Members

def find? (key : String) (ms : Members) : Option Entry :=
  (List.find? (fun m => m.1 = key) ms).map (·.2)

/-- Puts an entry in the place of the key, or at the end. -/
def put (key : String) (e : Entry) : Members → Members
  | [] => [(key, e)]
  | (k, old) :: ms => if k = key then (k, e) :: ms else (k, old) :: put key e ms

end Members

/-- Changes the last element of a list, if there is one. -/
def changeLast? {β : Type} (f : β → Option β) : List β → Option (List β)
  | [] => none
  | [b] => (f b).map fun b => [b]
  | b :: c :: rest => (changeLast? f (c :: rest)).map (b :: ·)

/-- Changes the table that a header's path leads to.  Tables that do not exist come to be, of
several tables the last one is meant, and no path leads through a finished value. -/
def underHeader? (change : Members → Option Members) : List String → Members → Option Members
  | [], ms => change ms
  | key :: path, ms => do
    let e ← match ms.find? key with
      | none => (underHeader? change path []).map (Entry.table .implied)
      | some (.table origin inner) => (underHeader? change path inner).map (Entry.table origin)
      | some (.tables all) => (changeLast? (underHeader? change path) all).map Entry.tables
      | some (.value _) => none
    some (ms.put key e)

/-- Adds a value under the last part of a key, if the table it belongs to was begun by keys. -/
def addLast? (own : Bool) (key : String) (v : Value) (ms : Members) : Option Members :=
  if own ∧ (ms.find? key).isNone then some (ms.put key (.value v)) else none

/-- Adds a value under a key of several parts; `own` tells whether the table may get members by
keys.  A table with a header of its own is closed to keys from outside. -/
def addKey? (own : Bool) (v : Value) : List String → Members → Option Members
  | [], _ => none
  | [key], ms => addLast? own key v ms
  | key :: path, ms => do
    let e ← match ms.find? key with
      | none => (addKey? true v path []).map (Entry.table .dotted)
      | some (.table .dotted inner) => (addKey? true v path inner).map (Entry.table .dotted)
      | some (.table .implied inner) => (addKey? false v path inner).map (Entry.table .implied)
      | some (.tables all) => (changeLast? (addKey? false v path) all).map Entry.tables
      | some (.table .header _) | some (.value _) => none
    some (ms.put key e)

/-- Keys with their values, in the order of the text. -/
abbrev KeyValues := List (List String × Value)

/-- Adds all keys to a table. -/
def addKeys? (ms : Members) (kvs : KeyValues) : Option Members :=
  kvs.foldlM (fun ms (key, v) => addKey? true v key ms) ms

/-- Begins a table under its name, from what headers of inner tables have left there. -/
def beginTable? (key : String) (kvs : KeyValues) (ms : Members) : Option Members := do
  let inner ← match ms.find? key with
    | none => some []
    | some (.table .implied inner) => some inner
    | some _ => none
  some (ms.put key (.table .header (← addKeys? inner kvs)))

/-- Begins one more of the tables that share a name. -/
def beginItem? (key : String) (kvs : KeyValues) (ms : Members) : Option Members := do
  let before ← match ms.find? key with
    | none => some []
    | some (.tables all) => some all
    | some _ => none
  some (ms.put key (.tables (before ++ [← addKeys? [] kvs])))

/-- A header and the keys under it. -/
structure Section where
  /-- Whether the header adds one more table to those of its name. -/
  item : Bool
  path : List String
  keys : KeyValues

/-- Adds a section to a document. -/
def Section.addTo? (s : Section) (root : Members) : Option Members := do
  let key ← s.path.getLast?
  let begin? := if s.item then beginItem? key s.keys else beginTable? key s.keys
  underHeader? begin? s.path.dropLast root

mutual

/-- The value of an entry, once all is built. -/
def Entry.toValue : Entry → Value
  | .value v => v
  | .table _ ms => .table (memberValues ms)
  | .tables all => .list (tableValues all)

def memberValues : List (String × Entry) → List (String × Value)
  | [] => []
  | (k, e) :: ms => (k, e.toValue) :: memberValues ms

def tableValues : List (List (String × Entry)) → List Value
  | [] => []
  | ms :: rest => .table (memberValues ms) :: tableValues rest

end

end Prognosis.Toml
