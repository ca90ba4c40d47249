import Prognosis.Engine

/-!
# The assessment as one procedure

The engine folds a table of rules.  Here the same assessment is written out as a procedure that
works through its checks one by one and keeps a tally.

1. A history that is shorter than the window is not assessed.
2. The window and the latest sample are all that is looked at.
3. The load gives the first points.
4. Processor use, memory use and latency are checked at three rungs each.
5. Issues that coincide give a bonus.
6. The score gives the status, the probability and the confidence.
7. The earliest crossing is reported if it is near.
8. The status gives the advice.
-/

namespace Prognosis.Procedure

open Scalar

/-! ## The tally -/

/-- What the procedure has gathered so far. -/
structure Tally where
  points : Float
  issues : List Issue
  /-- The hours until the earliest crossing, none while no crossing is in sight. -/
  soonest : Option Float

/-- Nothing is gathered before the first step. -/
def Tally.start : Tally := ⟨0, [], none⟩

/-- A step works on the tally. -/
abbrev Step : Type := StateM Tally Unit

def score (points : Float) : Step := modify fun t => { t with points := t.points + points }

def record (issue : Issue) : Step := modify fun t => { t with issues := t.issues ++ [issue] }

/-- Looks for the time at which a signal reaches a threshold.  Only a rising signal gets there, and
only a crossing that is still to come counts. -/
def forecast (threshold : Float) (r : Reading Float) : Step := do
  if 0 < r.trend then
    let hours := (threshold - r.current) / r.trend
    if hours.isFinite ∧ 0 < hours then
      modify fun t =>
        match t.soonest with
        | none => { t with soonest := some hours }
        | some earlier => { t with soonest := some (least earlier hours) }

def reportRising (signal : Signal) (severity : Severity) (label : String) (r : Reading Float) :
    Step :=
  let rate := Wording.rate r.trend signal.unit
  record ⟨signal, severity, label ++ " (" ++ rate ++ ")", .degrading, rate⟩

/-- Reports a signal for its level, with the direction that it takes. -/
def reportLevel (signal : Signal) (severity : Severity) (label : String) (r : Reading Float) :
    Step :=
  let level := Wording.level r.current signal.unit
  let direction : Direction :=
    if 0 < r.trend then .degrading
    else if r.trend < 0 then .improving
    else .stable
  record ⟨signal, severity, label ++ " (" ++ level ++ ")", direction, level⟩

/-! ## Step 4: processor use -/

def cpuLow (r : Reading Float) : Step := do
  if 2 < r.trend ∧ 50 < r.current then
    score 10
    forecast 80 r
    reportRising .cpu .low "CPU usage trending upward" r

def cpuMedium (r : Reading Float) : Step := do
  if (3 < r.trend ∧ 60 < r.current) ∨ 70 < r.current then
    score 20
    forecast 90 r
    if 3 < r.trend ∧ 60 < r.current then
      reportRising .cpu .medium "CPU usage rising rapidly" r
    else
      reportLevel .cpu .medium "CPU usage elevated" r

def cpuHigh (r : Reading Float) : Step := do
  if 5 < r.trend ∧ 70 < r.current then
    score 30
    forecast 100 r
    reportRising .cpu .high "CPU approaching saturation" r
  else if 85 < r.current then
    score 35
    reportLevel .cpu .high "CPU critically high" r

/-! ## Step 4: memory use -/

def memoryLow (r : Reading Float) : Step := do
  if 1.5 < r.trend ∧ 50 < r.current then
    score 10
    forecast 80 r
    reportRising .memory .low "Memory usage trending upward" r

def memoryMedium (r : Reading Float) : Step := do
  if (2 < r.trend ∧ 60 < r.current) ∨ 70 < r.current then
    score 20
    forecast 90 r
    if 2 < r.trend ∧ 60 < r.current then
      reportRising .memory .medium "Memory usage rising rapidly" r
    else
      reportLevel .memory .medium "Memory usage elevated" r

def memoryHigh (r : Reading Float) : Step := do
  if 4 < r.trend ∧ 60 < r.current then
    score (if 5 < r.trend then 35 else 30)
    forecast 100 r
    if 5 < r.trend then
      reportRising .memory .high "Memory growing fast, possible leak" r
    else
      reportRising .memory .high "Memory approaching exhaustion" r
  else if 90 < r.current then
    score 40
    reportLevel .memory .high "Memory critically high" r

/-! ## Step 4: network latency -/

def latencyLow (r : Reading Float) : Step := do
  if 0.5 < r.trend ∧ 5 < r.current then
    score 5
    reportRising .network .low "Network latency increasing" r

def latencyMedium (r : Reading Float) : Step := do
  if (1 < r.trend ∧ 10 < r.current) ∨ 15 < r.current then
    score 15
    if 1 < r.trend ∧ 10 < r.current then
      reportRising .network .medium "Network latency rising rapidly" r
    else
      reportLevel .network .medium "Network latency elevated" r

def latencyHigh (r : Reading Float) : Step := do
  if 2 < r.trend ∧ 15 < r.current then
    score 20
    reportRising .network .high "Network latency degrading severely" r
  else if 25 < r.current then
    score 25
    reportLevel .network .high "Network latency critically high" r

/-! ## Steps 3 to 5 -/

/-- Step 3: the share of the load, at most 30 points. -/
def baseline (utilization : Float) : Step := score (least (utilization * 30 / 100) 30)

/-- Step 5: one bonus for issues that coincide. -/
def compound : Step := do
  let issues := (← get).issues
  let high := (issues.filter fun i => i.severity = .high).length
  let medium := (issues.filter fun i => i.severity = .medium).length
  score (
    if 2 ≤ high then 20
    else if 1 ≤ high ∧ 1 ≤ medium then 10
    else if 2 ≤ medium then 5
    else 0)

def checks (utilization : Float) (cpu memory latency : Reading Float) : Step := do
  baseline utilization
  cpuLow cpu
  cpuMedium cpu
  cpuHigh cpu
  memoryLow memory
  memoryMedium memory
  memoryHigh memory
  latencyLow latency
  latencyMedium latency
  latencyHigh latency
  compound

/-! ## Readings -/

/-- Memory in use in percent of the total, which counts only if it is above zero. -/
def memoryPercent (used total : Float) : Float := if 0 < total then used / total * 100 else 0

/-- The least-squares slope of values against their indices, by the closed form over four sums. -/
def slope (values : List Float) : Float := Id.run do
  let mut index := 0
  let mut sumX : Float := 0
  let mut sumY : Float := 0
  let mut sumXY : Float := 0
  let mut sumXX : Float := 0
  for y in values do
    let x := Float.ofNat index
    sumX := sumX + x
    sumY := sumY + y
    sumXY := sumXY + x * y
    sumXX := sumXX + x * x
    index := index + 1
  let n := Float.ofNat values.length
  return if values.length < 2 then 0 else (n * sumXY - sumX * sumY) / (n * sumXX - sumX * sumX)

/-! ## Steps 6 to 8 -/

/-- Step 7: the time until the earliest crossing, if that is nearer than the horizon. -/
def remaining (horizon : Float) (soonest : Option Float) : Option String :=
  match soonest with
  | none => none
  | some hours => if hours < horizon then some (Wording.duration hours) else none

/-- What is reported about the final tally. -/
def conclude (horizon : Float) (tally : Tally) : Prediction :=
  let probability :=
    if tally.points < 0 then 0
    else if 100 < tally.points then 100
    else tally.points
  let status : Status :=
    if probability < 20 then .healthy
    else if probability < 50 then .warning
    else .critical
  let base := least (Float.ofNat tally.issues.length * 15 + 40) 95
  let confidence :=
    if status = .healthy then least base 70
    else if status = .critical then least (base + 10) 95
    else base
  let recommendation :=
    if status = .critical then
      "Immediate attention required: node shows multiple failure indicators. " ++
        "Consider scaling resources or redistributing load."
    else if status = .warning then
      "Monitor closely: degrading trends detected. " ++
        "Plan capacity adjustments within the next few hours."
    else if 10 < probability then
      "Node is healthy with minor trends. Continue routine monitoring."
    else "Node is operating optimally. No action needed."
  { status := status
    failureProbability := (Decimal.nearestInt64 probability).toNat
    timeToFailure := remaining horizon tally.soonest
    confidence := (Decimal.nearestInt64 confidence).toNat
    issues := tally.issues
    recommendation := recommendation }

/-! ## The whole procedure -/

/-- Assesses a history, oldest sample first. -/
def run (t : Tuning Float) (history : List Sample) : Prediction :=
  if history.length < t.window then
    { status := .healthy
      failureProbability := 0
      timeToFailure := none
      confidence := 0
      issues := []
      recommendation :=
        "Collecting metrics... need at least " ++ toString t.window ++ " samples for prediction." }
  else
    let window := history.drop (history.length - t.window)
    let latest := window.getLastD .empty
    let reading (value : Sample → Float) : Reading Float :=
      ⟨value latest, slope (window.map value) * t.samplesPerHour⟩
    let all := checks latest.utilizationScore (reading Sample.cpuUsage)
      (reading fun s => memoryPercent s.memoryUsed s.memoryTotal) (reading Sample.networkLatencyMs)
    conclude t.horizonHours (all.run .start).2

end Prognosis.Procedure
