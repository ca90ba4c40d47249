import Prognosis.Document.Value
import Prognosis.Scalar

/-!
# Grades: the status of a node, the severity of an issue, the direction of a signal

Each grade is a short list of named values.
-/

namespace Prognosis

open Scalar

/-- The overall state of a node. -/
inductive Status where
  | healthy
  | warning
  | critical
  deriving DecidableEq, Repr

namespace Status

def name : Status → String
  | healthy => "healthy"
  | warning => "warning"
  | critical => "critical"

instance : Named Status := ⟨[healthy, warning, critical], name⟩

/-- Below 20 healthy, from there below 50 warning, everything else critical. -/
def ofProbability {α : Type} [Scalar α] (probability : α) : Status :=
  if probability < num 20 then healthy
  else if probability < num 50 then warning
  else critical

/-- Statuses from best to worst. -/
def rank : Status → Nat
  | healthy => 0
  | warning => 1
  | critical => 2

end Status

/-- How grave an issue is. -/
inductive Severity where
  | low
  | medium
  | high
  deriving DecidableEq, Repr

namespace Severity

def name : Severity → String
  | low => "low"
  | medium => "medium"
  | high => "high"

instance : Named Severity := ⟨[low, medium, high], name⟩

end Severity

/-- Where a signal is heading; every watched signal gets worse as it grows. -/
inductive Direction where
  | stable
  | improving
  | degrading
  deriving DecidableEq, Repr

namespace Direction

def name : Direction → String
  | stable => "stable"
  | improving => "improving"
  | degrading => "degrading"

instance : Named Direction := ⟨[stable, improving, degrading], name⟩

/-- The direction of a rate: rising is degrading, falling improving. -/
def ofRate {α : Type} [Scalar α] (rate : α) : Direction :=
  if num 0 < rate then degrading else if rate < num 0 then improving else stable

end Direction

end Prognosis
