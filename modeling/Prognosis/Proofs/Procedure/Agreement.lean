import Prognosis.Proofs.Binary64
import Prognosis.Proofs.Engine
import Prognosis.Proofs.Procedure
import Prognosis.Proofs.Rule

/-!
# The procedure and the fold agree

`Moves` relates a step to what it does to a risk, and `Mirrors` a chain of conditionals to a rule:
taking the first branch whose condition holds is evaluating the first arm that fires
(`Mirrors.cons`).  The nine rungs mirror the standard ladder one by one; put in sequence they fold
it (`moves_checks`).
-/

namespace Prognosis.Procedure

open Scalar

/-! ## Steps on risks -/

/-- The tally that shows a risk. -/
def tallyOf (risk : Risk Float) : Tally := ⟨risk.points, risk.issues, risk.earliest⟩

/-- A step changes the tally of every risk as a function changes the risk. -/
def Moves (step : Step) (f : Risk Float → Risk Float) : Prop :=
  ∀ risk, step.run (tallyOf risk) = ((), tallyOf (f risk))

section

variable {first second : Step} {f g : Risk Float → Risk Float}

/-- Steps in sequence move a risk in sequence. -/
theorem Moves.seq (hf : Moves first f) (hg : Moves second g) :
    Moves (do first; second) fun risk => g (f risk) := by
  intro risk
  rw [StateT.run_bind, hf risk]
  exact hg (f risk)

theorem moves_pure : Moves (pure ()) id := fun _ => rfl

theorem moves_score (points : Float) : Moves (score points) fun risk => risk.add points :=
  fun _ => rfl

theorem moves_record (issue : Issue) :
    Moves (record issue) fun risk => { risk with issues := risk.issues ++ [issue] } :=
  fun _ => rfl

theorem moves_forecast {a : Arm Float} {threshold : Float} (r : Reading Float)
    (projects : a.projection = some threshold) :
    Moves (forecast threshold r) fun risk => (a.crossing? r).elim risk risk.project := by
  intro risk
  have crossing : a.crossing? r =
      if 0 < r.trend then
        if ((threshold - r.current) / r.trend).isFinite ∧
            0 < (threshold - r.current) / r.trend then
          some ((threshold - r.current) / r.trend)
        else none
      else none := Arm.crossing?_of_projection projects r
  rw [forecast, crossing]
  by_cases rising : 0 < r.trend
  · by_cases ahead : ((threshold - r.current) / r.trend).isFinite ∧
        0 < (threshold - r.current) / r.trend
    · simp only [if_pos rising, if_pos ahead]
      rw [Option.elim_some]
      obtain ⟨points, issues, earliest⟩ := risk
      cases earliest with
      | none => rfl
      | some earlier => rfl
    · simp only [if_pos rising, if_neg ahead]
      rfl
  · simp only [if_neg rising]
    rfl

end

/-! ## Branches and arms -/

/-- A step takes in an outcome. -/
def Absorbs (step : Step) (o : Outcome Float) : Prop := Moves step fun risk => risk.absorb o

/-- Scoring, projecting and reporting is taking in an outcome with a crossing. -/
theorem absorbs_of_projection (issue : Issue) (points : Float) {a : Arm Float} {threshold : Float}
    (r : Reading Float) (projects : a.projection = some threshold) :
    Absorbs (do score points; forecast threshold r; record issue)
      ⟨issue, points, a.crossing? r⟩ := by
  intro risk
  rw [(moves_score points).seq ((moves_forecast r projects).seq (moves_record issue)) risk]
  cases a.crossing? r with
  | none => rfl
  | some hours => rfl

theorem absorbs_of_no_projection (issue : Issue) (points : Float) {a : Arm Float}
    (r : Reading Float) (nowhere : a.projection = none) :
    Absorbs (do score points; record issue) ⟨issue, points, a.crossing? r⟩ := by
  intro risk
  rw [(moves_score points).seq (moves_record issue) risk, Arm.crossing?_of_no_projection nowhere]
  rfl

/-- A step takes in what a rule finds in a reading. -/
def Mirrors (step : Step) (rule : Rule Float) (r : Reading Float) : Prop :=
  Moves step fun risk => (rule.evaluate r).elim risk risk.absorb

section

variable {signal : Signal} {severity : Severity} {r : Reading Float}

theorem Mirrors.nil : Mirrors (pure ()) ⟨signal, severity, []⟩ r := moves_pure

/-- Taking a branch is firing an arm, and going on to the next branch is going on to the next
arm. -/
theorem Mirrors.cons {a : Arm Float} {arms : List (Arm Float)} {c : Prop} [Decidable c]
    {hit miss : Step} (fires : a.trigger.fires r = true ↔ c)
    (here : Absorbs hit (Rule.outcome ⟨signal, severity, arms⟩ a r))
    (there : Mirrors miss ⟨signal, severity, arms⟩ r) :
    Mirrors (if c then hit else miss) ⟨signal, severity, a :: arms⟩ r := by
  by_cases taken : c
  · rw [if_pos taken, Mirrors, Rule.evaluate_cons_of_fires (fires.2 taken)]
    exact here
  · have idle : a.trigger.fires r = false := Bool.eq_false_iff.2 fun h => taken (fires.1 h)
    rw [if_neg taken, Mirrors, Rule.evaluate_cons_of_idle idle]
    exact there

/-- Two conditions with one branch are two arms; the report alone depends on which holds. -/
theorem Mirrors.either {a b : Arm Float} {c d : Prop} [Decidable c] [Decidable d]
    (block : Step → Step) {one other : Step} (fires_a : a.trigger.fires r = true ↔ c)
    (fires_b : b.trigger.fires r = true ↔ d)
    (here : Absorbs (block one) (Rule.outcome ⟨signal, severity, [b]⟩ a r))
    (there : Absorbs (block other) (Rule.outcome ⟨signal, severity, []⟩ b r)) :
    Mirrors (if c ∨ d then block (if c then one else other) else pure ())
      ⟨signal, severity, [a, b]⟩ r := by
  -- Where both hold the first decides, which is why the report asks for it alone.
  have branches : (if c ∨ d then block (if c then one else other) else pure ()) =
      if c then block one else if d then block other else pure () := by
    by_cases first : c
    · rw [if_pos (Or.inl first), if_pos first, if_pos first]
    · by_cases second : d
      · rw [if_pos (Or.inr second), if_neg first, if_neg first, if_pos second]
      · rw [if_neg (not_or.2 ⟨first, second⟩), if_neg first, if_neg second]
  rw [branches]
  exact Mirrors.cons fires_a here (Mirrors.cons fires_b there Mirrors.nil)

end

/-! ## Rates of the standard ladder

The ladder gives its rates in halves. -/

theorem halves_one : (halves 1 : Float) = 0.5 := by decide +kernel

theorem halves_two : (halves 2 : Float) = 1 := by decide

theorem halves_three : (halves 3 : Float) = 1.5 := by decide +kernel

theorem halves_four : (halves 4 : Float) = 2 := by decide

theorem halves_six : (halves 6 : Float) = 3 := by decide

theorem halves_eight : (halves 8 : Float) = 4 := by decide

theorem halves_ten : (halves 10 : Float) = 5 := by decide

/-! ## Arms of the standard ladder -/

section

variable {signal : Signal} {severity : Severity} {arms : List (Arm Float)}
  {trend current points threshold : Nat} {projection : Option Nat} {label : String}
  (r : Reading Float)

theorem fires_rising {rate : Float} (half : halves trend = rate) :
    (Ladder.trending trend current points projection label : Arm Float).trigger.fires r = true ↔
      rate < r.trend ∧ Float.ofNat current < r.current := by
  rw [← half]
  exact Ladder.fires_trending r

theorem fires_level :
    (Ladder.elevated current points projection label : Arm Float).trigger.fires r = true ↔
      Float.ofNat current < r.current :=
  Ladder.fires_elevated r

theorem absorbs_rising_to :
    Absorbs
      (do
        score (num points)
        forecast (num threshold) r
        reportRising signal severity label r)
      (Rule.outcome ⟨signal, severity, arms⟩
        (Ladder.trending trend current points (some threshold) label) r) := by
  rw [Ladder.outcome_trending, reportRising]
  exact absorbs_of_projection _ _ r rfl

theorem absorbs_level_to :
    Absorbs
      (do
        score (num points)
        forecast (num threshold) r
        reportLevel signal severity label r)
      (Rule.outcome ⟨signal, severity, arms⟩
        (Ladder.elevated current points (some threshold) label) r) := by
  rw [Ladder.outcome_elevated, reportLevel]
  exact absorbs_of_projection _ _ r rfl

theorem absorbs_rising :
    Absorbs
      (do
        score (num points)
        reportRising signal severity label r)
      (Rule.outcome ⟨signal, severity, arms⟩
        (Ladder.trending trend current points none label) r) := by
  rw [Ladder.outcome_trending, reportRising]
  exact absorbs_of_no_projection _ _ r rfl

theorem absorbs_level :
    Absorbs
      (do
        score (num points)
        reportLevel signal severity label r)
      (Rule.outcome ⟨signal, severity, arms⟩
        (Ladder.elevated current points none label) r) := by
  rw [Ladder.outcome_elevated, reportLevel]
  exact absorbs_of_no_projection _ _ r rfl

end

/-! ## Processor use -/

section

variable (r : Reading Float)

theorem mirrors_cpuLow :
    Mirrors (cpuLow r)
      ⟨.cpu, .low, [Ladder.trending 4 50 10 (some 80) "CPU usage trending upward"]⟩ r :=
  Mirrors.cons (fires_rising r halves_four) (absorbs_rising_to r) Mirrors.nil

theorem mirrors_cpuMedium :
    Mirrors (cpuMedium r)
      ⟨.cpu, .medium,
        [ Ladder.trending 6 60 20 (some 90) "CPU usage rising rapidly",
          Ladder.elevated 70 20 (some 90) "CPU usage elevated" ]⟩ r :=
  Mirrors.either (fun report => do score 20; forecast 90 r; report)
    (fires_rising r halves_six) (fires_level r) (absorbs_rising_to r)
    (absorbs_level_to r)

theorem mirrors_cpuHigh :
    Mirrors (cpuHigh r)
      ⟨.cpu, .high,
        [ Ladder.trending 10 70 30 (some 100) "CPU approaching saturation",
          Ladder.elevated 85 35 none "CPU critically high" ]⟩ r :=
  Mirrors.cons (fires_rising r halves_ten) (absorbs_rising_to r)
    (Mirrors.cons (fires_level r) (absorbs_level r) Mirrors.nil)

/-! ## Memory use -/

theorem mirrors_memoryLow :
    Mirrors (memoryLow r)
      ⟨.memory, .low, [Ladder.trending 3 50 10 (some 80) "Memory usage trending upward"]⟩ r :=
  Mirrors.cons (fires_rising r halves_three) (absorbs_rising_to r) Mirrors.nil

theorem mirrors_memoryMedium :
    Mirrors (memoryMedium r)
      ⟨.memory, .medium,
        [ Ladder.trending 4 60 20 (some 90) "Memory usage rising rapidly",
          Ladder.elevated 70 20 (some 90) "Memory usage elevated" ]⟩ r :=
  Mirrors.either (fun report => do score 20; forecast 90 r; report)
    (fires_rising r halves_four) (fires_level r) (absorbs_rising_to r)
    (absorbs_level_to r)

/-- What grows by more than five also grows by more than four, so the two grades of growth can be
told apart within one branch. -/
theorem memoryHigh_eq :
    memoryHigh r =
      if 5 < r.trend ∧ 60 < r.current then do
        score 35
        forecast 100 r
        reportRising .memory .high "Memory growing fast, possible leak" r
      else if 4 < r.trend ∧ 60 < r.current then do
        score 30
        forecast 100 r
        reportRising .memory .high "Memory approaching exhaustion" r
      else if 90 < r.current then do
        score 40
        reportLevel .memory .high "Memory critically high" r
      else pure () := by
  unfold memoryHigh
  by_cases fast : 5 < r.trend
  · have growing : 4 < r.trend := Binary64.lt_trans (by decide) fast
    by_cases much : 60 < r.current
    · simp only [if_pos fast, if_pos (And.intro growing much), if_pos (And.intro fast much)]
    · simp only [if_neg fun both : _ ∧ _ => much both.2]
  · simp only [if_neg fast, if_neg fun both : _ ∧ _ => fast both.1]

theorem mirrors_memoryHigh :
    Mirrors (memoryHigh r)
      ⟨.memory, .high,
        [ Ladder.trending 10 60 35 (some 100) "Memory growing fast, possible leak",
          Ladder.trending 8 60 30 (some 100) "Memory approaching exhaustion",
          Ladder.elevated 90 40 none "Memory critically high" ]⟩ r := by
  rw [memoryHigh_eq]
  exact Mirrors.cons (fires_rising r halves_ten) (absorbs_rising_to r)
    (Mirrors.cons (fires_rising r halves_eight) (absorbs_rising_to r)
      (Mirrors.cons (fires_level r) (absorbs_level r) Mirrors.nil))

/-! ## Network latency -/

theorem mirrors_latencyLow :
    Mirrors (latencyLow r)
      ⟨.network, .low, [Ladder.trending 1 5 5 none "Network latency increasing"]⟩ r :=
  Mirrors.cons (fires_rising r halves_one) (absorbs_rising r) Mirrors.nil

theorem mirrors_latencyMedium :
    Mirrors (latencyMedium r)
      ⟨.network, .medium,
        [ Ladder.trending 2 10 15 none "Network latency rising rapidly",
          Ladder.elevated 15 15 none "Network latency elevated" ]⟩ r :=
  Mirrors.either (fun report => do score 15; report) (fires_rising r halves_two)
    (fires_level r) (absorbs_rising r) (absorbs_level r)

theorem mirrors_latencyHigh :
    Mirrors (latencyHigh r)
      ⟨.network, .high,
        [ Ladder.trending 4 15 20 none "Network latency degrading severely",
          Ladder.elevated 25 25 none "Network latency critically high" ]⟩ r :=
  Mirrors.cons (fires_rising r halves_four) (absorbs_rising r)
    (Mirrors.cons (fires_level r) (absorbs_level r) Mirrors.nil)

end

/-! ## All checks -/

theorem moves_baseline (utilization : Float) :
    Moves (baseline utilization) fun risk =>
      risk.add (least (utilization * num 30 / num 100) (num 30)) :=
  moves_score _

theorem coincidenceBonus_eq (issues : List Issue) :
    (coincidenceBonus issues : Float) =
      if 2 ≤ (issues.filter fun i => i.severity = .high).length then 20
      else if 1 ≤ (issues.filter fun i => i.severity = .high).length ∧
          1 ≤ (issues.filter fun i => i.severity = .medium).length then 10
      else if 2 ≤ (issues.filter fun i => i.severity = .medium).length then 5
      else 0 := by
  rw [coincidenceBonus, countOf, countOf, List.countP_eq_length_filter,
    List.countP_eq_length_filter]
  rfl

theorem moves_compound : Moves compound Risk.amplify := by
  intro risk
  rw [Risk.amplify, coincidenceBonus_eq]
  rfl

/-- **All checks.**  Working through the checks is folding the standard ladder over the load. -/
theorem moves_checks (utilization : Float) (readings : Signal → Reading Float) :
    Moves (checks utilization (readings .cpu) (readings .memory) (readings .network)) fun risk =>
      ((Engine.outcomes Ladder.standard readings).foldl Risk.absorb
        (risk.add (least (utilization * num 30 / num 100) (num 30)))).amplify := by
  intro risk
  have fold := Engine.foldl_outcomes Ladder.standard readings
  simp only [fold]
  exact ((moves_baseline utilization).seq <|
    (mirrors_cpuLow _).seq <| (mirrors_cpuMedium _).seq <| (mirrors_cpuHigh _).seq <|
    (mirrors_memoryLow _).seq <| (mirrors_memoryMedium _).seq <| (mirrors_memoryHigh _).seq <|
    (mirrors_latencyLow _).seq <| (mirrors_latencyMedium _).seq <| (mirrors_latencyHigh _).seq
    moves_compound) risk

theorem run_checks (utilization : Float) (readings : Signal → Reading Float) :
    (checks utilization (readings .cpu) (readings .memory) (readings .network)).run .start =
      ((), tallyOf (.ofOutcomes utilization (Engine.outcomes Ladder.standard readings))) :=
  moves_checks utilization readings .zero

/-! ## The report -/

theorem clamp_eq (x : Float) :
    clamp (num 0) (num 100) x = if x < 0 then 0 else if 100 < x then 100 else x := by
  have low : ¬ (num 100 : Float) < num 0 := by decide
  unfold clamp
  by_cases below : x < num 0
  · rw [if_pos below]
    exact (if_neg low).trans (if_pos below).symm
  · rw [if_neg below]
    exact (if_neg below).symm

theorem confidenceIn_eq (issues : Nat) (status : Status) :
    (confidenceIn issues status : Float) =
      if status = .healthy then least (least (Float.ofNat issues * 15 + 40) 95) 70
      else if status = .critical then least (least (Float.ofNat issues * 15 + 40) 95 + 10) 95
      else least (Float.ofNat issues * 15 + 40) 95 := by
  cases status with
  | healthy => rfl
  | warning => rfl
  | critical => rfl

theorem recommendationFor_eq (status : Status) (probability : Float) :
    recommendationFor status probability =
      if status = .critical then
        "Immediate attention required: node shows multiple failure indicators. " ++
          "Consider scaling resources or redistributing load."
      else if status = .warning then
        "Monitor closely: degrading trends detected. " ++
          "Plan capacity adjustments within the next few hours."
      else if 10 < probability then
        "Node is healthy with minor trends. Continue routine monitoring."
      else "Node is operating optimally. No action needed." := by
  cases status with
  | healthy => rfl
  | warning => rfl
  | critical => rfl

theorem remaining_eq (horizon : Float) (soonest : Option Float) :
    remaining horizon soonest =
      (soonest.filter fun h => decide (h < horizon)).map Wording.duration := by
  cases soonest with
  | none => rfl
  | some hours =>
    rw [remaining, Option.filter_some]
    by_cases near : hours < horizon
    · rw [if_pos near, if_pos (decide_eq_true near), Option.map_some]
    · rw [if_neg near, if_neg fun h => near (of_decide_eq_true h), Option.map_none]

/-- What is reported about a tally is what is reported about the risk that it shows. -/
theorem conclude_tallyOf (horizon : Float) (risk : Risk Float) :
    conclude horizon (tallyOf risk) = .ofRisk horizon risk := by
  rw [conclude, Prediction.ofRisk, tallyOf, remaining_eq]
  simp only [clamp_eq, confidenceIn_eq, recommendationFor_eq]
  rfl

/-! ## Trends -/

/-- The variables of the loop: the next index, then the sums over indices, values, products and
squared indices. -/
abbrev LoopState : Type := Nat × Float × Float × Float × Float

/-- One pass through the loop. -/
def loopStep (b : LoopState) (y : Float) : LoopState :=
  (b.1 + 1, b.2.1 + Float.ofNat b.1, b.2.2.1 + y, b.2.2.2.1 + Float.ofNat b.1 * y,
    b.2.2.2.2 + Float.ofNat b.1 * Float.ofNat b.1)

/-- The sums among the variables. -/
def sumsOf (b : LoopState) : Trend.Sums Float := ⟨b.2.1, b.2.2.1, b.2.2.2.1, b.2.2.2.2⟩

theorem sumsOf_foldl_loopStep (values : List Float) (b : LoopState) :
    sumsOf (values.foldl loopStep b) = (sumsOf b).addFrom b.1 values := by
  induction values generalizing b with
  | nil => rfl
  | cons y values ih =>
    rw [List.foldl_cons, ih]
    rfl

theorem slope_eq (values : List Float) : slope values = Trend.slope values := by
  have loop : sumsOf (values.foldl loopStep (0, 0, 0, 0, 0)) = Trend.sums values :=
    sumsOf_foldl_loopStep values _
  rw [slope, Trend.slope, ← loop]
  simp only [List.forIn_pure_yield_eq_foldl, bind_pure_comp, map_pure, Id.run_pure]
  rfl

/-! ## The whole procedure -/

theorem memoryPercent_eq (s : Sample) :
    memoryPercent s.memoryUsed s.memoryTotal = s.memoryUsedPct := by
  have zero : (0 : Float) = 0.0 := by decide +kernel
  have hundred : (100 : Float) = 100.0 := by decide +kernel
  rw [memoryPercent, Sample.memoryUsedPct, zero, hundred]

theorem reading_eq (t : Tuning Float) {window : List Sample} {latest : Sample}
    (newest : window.getLast? = some latest) (signal : Signal) :
    Engine.reading t window signal =
      ⟨signal.value latest, slope (window.map signal.value) * t.samplesPerHour⟩ := by
  have current : (window.map signal.value).getLastD (num 0) = signal.value latest := by
    rw [List.getLastD_eq_getLast?, List.getLast?_map, newest]
    rfl
  rw [Engine.reading, Reading.ofSeries, current, slope_eq]
  rfl

/-- **The procedure.**  With a window of at least one sample, the engine with the standard ladder
predicts of every history what the procedure does. -/
theorem predict_standard_eq_run (t : Tuning Float) (pos : 1 ≤ t.window) (history : List Sample) :
    (Engine.mk t Ladder.standard).predict history = run t history := by
  by_cases short : history.length < t.window
  · rw [Engine.predict_of_short _ short, run, if_pos short]
    rfl
  · obtain ⟨latest, newest, assessed⟩ :=
      Engine.predict_of_full ⟨t, Ladder.standard⟩ pos (Nat.not_lt.1 short)
    have newest : (lastOf t.window history).getLast? = some latest :=
      (getLast?_lastOf pos history).trans newest
    have latest_eq : (lastOf t.window history).getLastD .empty = latest := by
      rw [List.getLastD_eq_getLast?, newest, Option.getD_some]
    rw [assessed, run, if_neg short]
    dsimp only
    rw [← lastOf, latest_eq]
    generalize lastOf t.window history = window at newest ⊢
    simp only [memoryPercent_eq]
    have cpu : Engine.reading t window .cpu =
        ⟨latest.cpuUsage, slope (window.map Sample.cpuUsage) * t.samplesPerHour⟩ :=
      reading_eq t newest .cpu
    have memory : Engine.reading t window .memory =
        ⟨latest.memoryUsedPct, slope (window.map Sample.memoryUsedPct) * t.samplesPerHour⟩ :=
      reading_eq t newest .memory
    have network : Engine.reading t window .network =
        ⟨latest.networkLatencyMs,
          slope (window.map Sample.networkLatencyMs) * t.samplesPerHour⟩ :=
      reading_eq t newest .network
    rw [← cpu, ← memory, ← network, run_checks, conclude_tallyOf, Engine.assess]

/-- A processor that stays at 90 percent: 20 and 35 points for its level, and 10 for the two issues
together. -/
theorem predict_of_busy_processor :
    let history := List.replicate 12 { Sample.empty with cpuUsage := 90 }
    let p := (Engine.mk .standard Ladder.standard).predict history
    p.failureProbability = 65 ∧ p.status = .critical ∧ p.issues.length = 2 := by
  intro history p
  have same : p = run .standard history := predict_standard_eq_run .standard (by decide) history
  rw [same]
  decide +kernel

end Prognosis.Procedure
