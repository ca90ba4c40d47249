import Prognosis.Risk

/-!
# Predictions: what is reported about a node
-/

namespace Prognosis

open Scalar

/-- The result of one assessment. -/
structure Prediction where
  status : Status
  /-- Whole percent, rounded from the score; the status is taken from the score before rounding. -/
  failureProbability : Nat
  /-- Present only where a projected crossing falls inside the horizon. -/
  timeToFailure : Option String
  /-- Whole percent. -/
  confidence : Nat
  issues : List Issue
  recommendation : String
  deriving DecidableEq, Repr

/-- More issues are more evidence: 40 points and 15 for each issue, at most 95.  A healthy verdict
stays at 70 or below, a critical one gets 10 points more within the cap. -/
def confidenceIn {α : Type} [Scalar α] (issues : Nat) (status : Status) : α :=
  let base : α := least (num issues * num 15 + num 40) (num 95)
  match status with
  | .healthy => least base (num 70)
  | .warning => base
  | .critical => least (base + num 10) (num 95)

/-- The advice that goes with a status; a healthy node above ten points shows minor trends. -/
def recommendationFor {α : Type} [Scalar α] (status : Status) (probability : α) : String :=
  match status with
  | .critical =>
    "Immediate attention required: node shows multiple failure indicators. " ++
      "Consider scaling resources or redistributing load."
  | .warning =>
    "Monitor closely: degrading trends detected. " ++
      "Plan capacity adjustments within the next few hours."
  | .healthy =>
    if num 10 < probability then "Node is healthy with minor trends. Continue routine monitoring."
    else "Node is operating optimally. No action needed."

namespace Prediction

/-- The report on a history too short to assess. -/
def collecting (required : Nat) : Prediction where
  status := .healthy
  failureProbability := 0
  timeToFailure := none
  confidence := 0
  issues := []
  recommendation :=
    "Collecting metrics... need at least " ++ toString required ++ " samples for prediction."

/-- The report on a risk: status, confidence and advice follow the score held between 0 and 100. -/
def ofRisk {α : Type} [Scalar α] (horizon : α) (risk : Risk α) : Prediction :=
  let probability := clamp (num 0) (num 100) risk.points
  let status := Status.ofProbability probability
  { status := status
    failureProbability := (nearest probability).toNat
    timeToFailure := (risk.earliest.filter fun h => decide (h < horizon)).map Wording.duration
    confidence := (nearest (confidenceIn risk.issues.length status : α)).toNat
    issues := risk.issues
    recommendation := recommendationFor status probability }

end Prediction

end Prognosis
