import Prognosis.Rule

/-!
# Risk: the running score of an assessment

A `Risk` starts from the load of the node, absorbs the outcomes of fired rules one by one, and gets
a bonus when grave issues coincide.
-/

namespace Prognosis

open Scalar

variable {α : Type} [Scalar α]

/-- Points, issues and the earliest projected crossing gathered so far. -/
structure Risk (α : Type) where
  points : α
  issues : List Issue
  earliest : Option α

def countOf (severity : Severity) (issues : List Issue) : Nat :=
  issues.countP fun i => i.severity = severity

/-- The points added for issues that coincide: two high ones weigh most, then a high one with a
medium one, then two medium ones. -/
def coincidenceBonus (issues : List Issue) : α :=
  let high := countOf .high issues
  let medium := countOf .medium issues
  if 2 ≤ high then num 20
  else if 1 ≤ high ∧ 1 ≤ medium then num 10
  else if 2 ≤ medium then num 5
  else num 0

namespace Risk

def zero : Risk α := ⟨num 0, [], none⟩

def add (r : Risk α) (points : α) : Risk α := { r with points := r.points + points }

/-- Takes note of a projected crossing; only the earliest is kept. -/
def project (r : Risk α) (hours : α) : Risk α :=
  { r with
    earliest := some (match r.earliest with
      | some current => least current hours
      | none => hours) }

/-- The share of the load: three points for every ten of utilization, at most 30. -/
def ofUtilization (utilization : α) : Risk α :=
  zero.add (least (utilization * num 30 / num 100) (num 30))

/-- Takes in the outcome of a fired rule. -/
def absorb (r : Risk α) (o : Outcome α) : Risk α :=
  let r := r.add o.points
  let r := match o.hours with
    | some hours => r.project hours
    | none => r
  { r with issues := r.issues ++ [o.issue] }

/-- Adds the bonus for coinciding issues. -/
def amplify (r : Risk α) : Risk α := r.add (coincidenceBonus r.issues)

def ofOutcomes (utilization : α) (outcomes : List (Outcome α)) : Risk α :=
  (outcomes.foldl absorb (ofUtilization utilization)).amplify

end Risk

end Prognosis
