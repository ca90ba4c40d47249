import Prognosis.Document.Decode
import Prognosis.Rule

/-!
# Rules as records

A trigger tells its kind in the member `kind`, or as the first item of a list; it is kept whole
before it is read, since its kind may come last.
-/

namespace Prognosis

open Document

/-! ## Triggers -/

namespace Trigger

inductive Kind where
  | trending
  | elevated
  deriving DecidableEq

def Kind.name : Kind → String
  | trending => "trending"
  | elevated => "elevated"

instance : Named Kind := ⟨[.trending, .elevated], Kind.name⟩

structure Draft where
  minTrend : Option Float := none
  minCurrent : Option Float := none

def minTrendField : Record.Field Draft :=
  .of "min_trend" .float fun v d => { d with minTrend := some v }

def minCurrentField : Record.Field Draft :=
  .of "min_current" .float fun v d => { d with minCurrent := some v }

def fieldsOf : Kind → List (Record.Field Draft)
  | .trending => [minTrendField, minCurrentField]
  | .elevated => [minCurrentField]

/-- The trigger of a kind once all its thresholds are given. -/
def ofDraft? : Kind → Draft → Option (Trigger Float)
  | .trending, ⟨some t, some c⟩ => some (.trending t c)
  | .elevated, ⟨_, some c⟩ => some (.elevated c)
  | _, _ => none

def kind : Decoder Kind := .textWith Named.ofName?

/-- Takes the members called `kind` out of a table. -/
def splitKind (ms : List (Option String × Node)) :
    List Node × List (Option String × Node) :=
  ((ms.filter fun m => m.1 = some "kind").map (·.2), ms.filter fun m => m.1 ≠ some "kind")

/-- Reads the thresholds of a kind.  A list may not have more of them than the kind has fields. -/
def body (dialect : Dialect) (k : Kind) (n : Node) : Except Fault (Trigger Float) := do
  orMismatch (ofDraft? k (← Record.read { dialect with surplus := false } (fieldsOf k) {} n))

/-- A trigger with its kind inside. -/
def tagged (dialect : Dialect) : Decoder (Trigger Float)
  | .table ms closed =>
    match splitKind ms with
    | ([k], rest) => do body dialect (← kind k) (.table rest closed)
    | _ => .error .mismatch
  | .list (k :: rest) closed => do body dialect (← kind k) (.list rest closed)
  | _ => .error .mismatch

def decode (dialect : Dialect) : Decoder (Trigger Float) := .kept dialect (tagged dialect)

def toValue : Trigger Float → Value
  | trending t c =>
    .table [("kind", .text Kind.trending.name), ("min_trend", .num (.float t)),
      ("min_current", .num (.float c))]
  | elevated c => .table [("kind", .text Kind.elevated.name), ("min_current", .num (.float c))]

end Trigger

/-! ## Arms -/

namespace Arm

structure Draft where
  trigger : Option (Trigger Float) := none
  points : Option Float := none
  projection : Option Float := none
  label : Option String := none

def fields (dialect : Dialect) : List (Record.Field Draft) :=
  [ .of "trigger" (Trigger.decode dialect) fun v d => { d with trigger := some v },
    .of "points" .float fun v d => { d with points := some v },
    .of "projection" (.optional .float) fun v d => { d with projection := v },
    .of "label" .text fun v d => { d with label := some v } ]

/-- The arm once all fields but the projection are given. -/
def ofDraft? : Draft → Option (Arm Float)
  | ⟨some trigger, some points, projection, some label⟩ =>
    some ⟨trigger, points, projection, label⟩
  | _ => none

def decode (dialect : Dialect) : Decoder (Arm Float) := fun n => do
  orMismatch (ofDraft? (← Record.read dialect (fields dialect) {} n))

end Arm

/-! ## Rules -/

namespace Rule

structure Draft where
  signal : Option Signal := none
  severity : Option Severity := none
  arms : Option (List (Arm Float)) := none

def fields (dialect : Dialect) : List (Record.Field Draft) :=
  [ .of "signal" (.named dialect) fun v d => { d with signal := some v },
    .of "severity" (.named dialect) fun v d => { d with severity := some v },
    .of "arms" (.list (Arm.decode dialect)) fun v d => { d with arms := some v } ]

/-- The rule once all fields are given. -/
def ofDraft? : Draft → Option (Rule Float)
  | ⟨some signal, some severity, some arms⟩ => some ⟨signal, severity, arms⟩
  | _ => none

def decode (dialect : Dialect) : Decoder (Rule Float) := fun n => do
  orMismatch (ofDraft? (← Record.read dialect (fields dialect) {} n))

/-- Reads a list of rules.  A trigger, which is kept whole, lies below four levels: the list, a
rule, its arms and an arm. -/
def decodeAll (dialect : Dialect) : Decoder (List (Rule Float)) :=
  .list (decode (dialect.below 4))

end Rule

end Prognosis
