import Prognosis.Signal

/-!
# Rules: when a reading is an issue

A rule watches one signal at one severity.  Its arms are tried in order and the first whose trigger
matches decides: it gives the points, the wording and the threshold a crossing is projected to.
-/

namespace Prognosis

open Scalar

variable {α : Type}

/-- The condition under which an arm fires. -/
inductive Trigger (α : Type) where
  /-- Both the trend and the current value exceed their thresholds. -/
  | trending (minTrend minCurrent : α)
  /-- The current value exceeds its threshold, whatever the trend. -/
  | elevated (minCurrent : α)
  deriving BEq

namespace Trigger

def isTrending : Trigger α → Bool
  | trending .. => true
  | elevated _ => false

/-- Whether a reading lies strictly above the thresholds. -/
def fires [Scalar α] (t : Trigger α) (r : Reading α) : Bool :=
  match t with
  | trending minTrend minCurrent => decide (minTrend < r.trend) && decide (minCurrent < r.current)
  | elevated minCurrent => decide (minCurrent < r.current)

end Trigger

/-- One branch of a rule. -/
structure Arm (α : Type) where
  trigger : Trigger α
  /-- The points of failure probability it contributes. -/
  points : α
  /-- The threshold to which a crossing is projected, whatever the trigger. -/
  projection : Option α := none
  label : String
  deriving BEq

/-- The hours until a reading reaches its threshold at the current trend.  There are none while the
trend is flat or falling, nor when the crossing is not strictly in the future. -/
def Arm.crossing? [Scalar α] (a : Arm α) (r : Reading α) : Option α :=
  if num 0 < r.trend then
    match a.projection with
    | none => none
    | some threshold =>
      let hours := (threshold - r.current) / r.trend
      if finite hours ∧ num 0 < hours then some hours else none
  else none

/-- A detected issue, in words. -/
structure Issue where
  metric : Signal
  severity : Severity
  description : String
  trend : Direction
  trendRate : String
  deriving DecidableEq, Repr

/-- What a fired rule brings to the score. -/
structure Outcome (α : Type) where
  issue : Issue
  points : α
  hours : Option α

/-- One rung of a signal's ladder. -/
structure Rule (α : Type) where
  signal : Signal
  severity : Severity
  arms : List (Arm α)
  deriving BEq

namespace Rule

variable [Scalar α]

def firing? (rule : Rule α) (r : Reading α) : Option (Arm α) :=
  rule.arms.find? fun a => a.trigger.fires r

/-- A trending arm reports a degrading rate, an elevated one the level and where it is heading. -/
def finding (rule : Rule α) (a : Arm α) (r : Reading α) : Direction × String :=
  if a.trigger.isTrending then (.degrading, Wording.rate r.trend rule.signal.unit)
  else (.ofRate r.trend, Wording.level r.current rule.signal.unit)

def outcome (rule : Rule α) (a : Arm α) (r : Reading α) : Outcome α :=
  let (trend, rate) := rule.finding a r
  { issue :=
      { metric := rule.signal
        severity := rule.severity
        description := a.label ++ " (" ++ rate ++ ")"
        trend := trend
        trendRate := rate }
    points := a.points
    hours := a.crossing? r }

def evaluate (rule : Rule α) (r : Reading α) : Option (Outcome α) :=
  (rule.firing? r).map fun a => rule.outcome a r

end Rule

end Prognosis
