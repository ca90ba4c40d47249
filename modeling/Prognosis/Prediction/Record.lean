import Prognosis.Document.Decode
import Prognosis.Prediction

/-!
# Predictions as records
-/

namespace Prognosis

open Document

/-! ## Issues -/

namespace Issue

structure Draft where
  metric : Option Signal := none
  severity : Option Severity := none
  description : Option String := none
  trend : Option Direction := none
  trendRate : Option String := none

def fields (dialect : Dialect) : List (Record.Field Draft) :=
  [ .of "metric" (.named dialect) fun v d => { d with metric := some v },
    .of "severity" (.named dialect) fun v d => { d with severity := some v },
    .of "description" .text fun v d => { d with description := some v },
    .of "trend" (.named dialect) fun v d => { d with trend := some v },
    .of "trend_rate" .text fun v d => { d with trendRate := some v } ]

/-- The issue once all fields are given. -/
def ofDraft? : Draft → Option Issue
  | ⟨some metric, some severity, some description, some trend, some trendRate⟩ =>
    some ⟨metric, severity, description, trend, trendRate⟩
  | _ => none

def decode (dialect : Dialect) : Decoder Issue := fun n => do
  orMismatch (ofDraft? (← Record.read dialect (fields dialect) {} n))

def toValue (i : Issue) : Value :=
  .table
    [ ("metric", .text i.metric.name),
      ("severity", .text i.severity.name),
      ("description", .text i.description),
      ("trend", .text i.trend.name),
      ("trend_rate", .text i.trendRate) ]

end Issue

/-! ## Predictions -/

namespace Prediction

structure Draft where
  status : Option Status := none
  failureProbability : Option Nat := none
  timeToFailure : Option String := none
  confidence : Option Nat := none
  issues : Option (List Issue) := none
  recommendation : Option String := none

def fields (dialect : Dialect) : List (Record.Field Draft) :=
  [ .of "status" (.named dialect) fun v d => { d with status := some v },
    .of "failure_probability" (.nat 256) fun v d => { d with failureProbability := some v },
    .of "time_to_failure" (.optional .text) fun v d => { d with timeToFailure := v },
    .of "confidence" (.nat 256) fun v d => { d with confidence := some v },
    .of "issues" (.list (Issue.decode dialect)) fun v d => { d with issues := some v },
    .of "recommendation" .text fun v d => { d with recommendation := some v } ]

/-- The prediction once all fields but the time to failure are given. -/
def ofDraft? : Draft → Option Prediction
  | ⟨some status, some probability, time, some confidence, some issues, some advice⟩ =>
    some ⟨status, probability, time, confidence, issues, advice⟩
  | _ => none

def decode (dialect : Dialect) : Decoder Prediction := fun n => do
  orMismatch (ofDraft? (← Record.read dialect (fields dialect) {} n))

def toValue (p : Prediction) : Value :=
  .table
    [ ("status", .text p.status.name),
      ("failure_probability", .nat p.failureProbability),
      ("time_to_failure", .ofText? p.timeToFailure),
      ("confidence", .nat p.confidence),
      ("issues", .list (p.issues.map Issue.toValue)),
      ("recommendation", .text p.recommendation) ]

end Prediction

end Prognosis
