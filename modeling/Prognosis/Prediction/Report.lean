import Prognosis.Prediction

/-!
# Predictions as reports

A report states the verdict line by line, then the issues as a table if there are any, then the
advice.
-/

namespace Prognosis.Prediction

/-- A text filled up with blanks to a width. -/
def column (width : Nat) (s : String) : String :=
  s ++ String.ofList (List.replicate (width - s.length) ' ')

def row (metric severity trend description : String) : String :=
  column 8 metric ++ " | " ++ column 8 severity ++ " | " ++ column 10 trend ++ " | " ++
    description ++ "\n"

def dashes (count : Nat) : String := String.ofList (List.replicate count '-')

def rule : String :=
  dashes 8 ++ "-|-" ++ dashes 8 ++ "-|-" ++ dashes 10 ++ "-|-" ++ dashes 40 ++ "\n"

def issueRow (i : Issue) : String := row i.metric.name i.severity.name i.trend.name i.description

def table (issues : List Issue) : String :=
  if issues = [] then ""
  else
    "\n" ++ row "Metric" "Severity" "Trend" "Description" ++ rule ++
      String.join (issues.map issueRow)

def report (p : Prediction) : String :=
  "\n=== noderisk Health Prediction ===\n" ++
    "Status:              " ++ p.status.name ++ "\n" ++
    "Failure probability: " ++ toString p.failureProbability ++ "%\n" ++
    "Confidence:          " ++ toString p.confidence ++ "%\n" ++
    "Time to failure:     " ++ p.timeToFailure.getD "-" ++ "\n" ++
    table p.issues ++
    "\nRecommendation: " ++ p.recommendation ++ "\n" ++
    "==================================\n\n"

end Prognosis.Prediction
