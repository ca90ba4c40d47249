import Prognosis.Proofs.Rule.Worth

/-!
# Severity and status under the standard ladder

What the rungs of a signal are worth depends on its reading alone (`cpu_worths`, `memory_worths`,
`network_worths`): the rung for grave issues fires above the one for medium issues, and together
they are worth at least 40 points.  With the bonus for coinciding issues that makes a critical
score, with no point to spare for latency (`fifty_le_score`), and a healthy score leaves room for
little (`minor_of_sum_lt`).  The two together are `severity_agrees_with_status`.
-/

namespace Prognosis

open Scalar Binary64 Engine Decimal

namespace Ladder

/-! ## Thresholds -/

theorem value_halves {n : ℕ} (digits : n < 2 ^ 53) :
    value (halves n) = n / 2 ∧ (halves n : Float).isNaN = false := by
  have two : value (num 2) = 2 := value_num (by norm_num)
  obtain ⟨exact, defined⟩ := value_div (finite_num digits) (finite_num (n := 2) (by norm_num))
    (by rw [two]; norm_num)
  have fraction : (n / 2 : ℚ) = n * 2 ^ (-1 : ℤ) := by rw [zpow_neg_one, div_eq_mul_inv]
  have nonneg : (0 : ℚ) ≤ n * 2 ^ (-1 : ℤ) := by positivity
  have below : (n * 2 ^ (-1 : ℤ) : ℚ) < edge := magnitude_lt_edge digits (by norm_num)
  have kept : nearest64 (n / 2 : ℚ) = n / 2 := by
    rw [fraction]
    exact nearest64_of_nearest (nearest_of_digits digits (by norm_num)) (by linarith [edge_pos])
      below.le
  rw [value_num digits, two, kept] at exact
  exact ⟨exact, defined⟩

section

variable {x : Float} {m n : ℕ}

theorem num_lt_of_le (less : num n < x) (le : m ≤ n) (digits : n < 2 ^ 53) : num m < x := by
  have x_defined := (defined_of_lt less).2
  have above := (num_lt_iff x_defined digits).1 less
  exact (num_lt_iff x_defined (by omega)).2 (lt_of_le_of_lt (by exact_mod_cast le) above)

theorem halves_lt_of_le (less : halves n < x) (le : m ≤ n) (digits : n < 2 ^ 53) :
    halves m < x := by
  have x_defined := (defined_of_lt less).2
  obtain ⟨n_value, n_defined⟩ := value_halves digits
  obtain ⟨m_value, m_defined⟩ := value_halves (show m < 2 ^ 53 by omega)
  rw [lt_iff_value n_defined x_defined, n_value] at less
  rw [lt_iff_value m_defined x_defined, m_value]
  have : (m : ℚ) ≤ n := by exact_mod_cast le
  linarith

end

/-! ## Worths -/

section

variable {signal : Signal} {severity : Severity} {arms : List (Arm Float)}
  {rate level points : ℕ} {projection : Option ℕ} {label : String} (r : Reading Float)

theorem worth_trending (digits : points < 2 ^ 53) :
    Rule.worth ⟨signal, severity, trending rate level points projection label :: arms⟩ r =
      if halves rate < r.trend ∧ num level < r.current then points
      else Rule.worth ⟨signal, severity, arms⟩ r := by
  rw [Rule.worth_cons]
  simp only [fires_trending]
  show ite _ (nearestInt64 (num points)).toNat _ = _
  rw [nearestInt64_num digits]
  rfl

theorem worth_elevated (digits : points < 2 ^ 53) :
    Rule.worth ⟨signal, severity, elevated level points projection label :: arms⟩ r =
      if num level < r.current then points else Rule.worth ⟨signal, severity, arms⟩ r := by
  rw [Rule.worth_cons]
  simp only [fires_elevated]
  show ite _ (nearestInt64 (num points)).toNat _ = _
  rw [nearestInt64_num digits]
  rfl

end

/-- What the rungs of processor or memory use can be worth. -/
structure LoadWorths (worth : Severity → ℕ) : Prop where
  low : worth .low = 0 ∨ worth .low = 10
  medium : worth .medium = 0 ∨ worth .medium = 20
  high : worth .high = 0 ∨ 30 ≤ worth .high ∧ worth .high ≤ 40 ∧ worth .medium = 20

theorem LoadWorths.sum_le {worth : Severity → ℕ} (h : LoadWorths worth) :
    worth .low + worth .medium + worth .high ≤ 70 := by
  have low := h.low
  have medium := h.medium
  have high := h.high
  omega

/-- What the rungs of network latency can be worth. -/
structure LatencyWorths (worth : Severity → ℕ) : Prop where
  low : worth .low = 0 ∨ worth .low = 5
  medium : worth .medium = 0 ∨ worth .medium = 15
  high : worth .high = 0 ∨
    worth .medium = 15 ∧ (worth .high = 25 ∨ worth .high = 20 ∧ worth .low = 5)

theorem LatencyWorths.sum_le {worth : Severity → ℕ} (h : LatencyWorths worth) :
    worth .low + worth .medium + worth .high ≤ 45 := by
  have low := h.low
  have medium := h.medium
  have high := h.high
  omega

theorem standard_whole : ∀ rule ∈ (standard : List (Rule Float)), rule.Whole := by
  have short (n : ℕ) (bounds : 0 < n ∧ n < 1000) :
      ∃ m, 0 < m ∧ m < 1000 ∧ num n = (num m : Float) :=
    ⟨n, bounds.1, bounds.2, rfl⟩
  simp only [standard, cpu, memory, network, List.cons_append, List.nil_append,
    List.forall_mem_cons, Rule.Whole, trending, elevated]
  and_intros
  all_goals first
    | exact short _ (by norm_num)
    | exact fun _ mem => absurd mem (List.not_mem_nil)

section

variable (readings : Signal → Reading Float)

theorem cpu_worths : LoadWorths (worthAt standard readings .cpu) := by
  have low : worthAt standard readings .cpu .low = _ := Nat.add_zero _
  have medium : worthAt standard readings .cpu .medium = _ := Nat.add_zero _
  have high : worthAt standard readings .cpu .high = _ := Nat.add_zero _
  simp (disch := norm_num) only [worth_trending, worth_elevated, Rule.worth_nil] at low medium high
  generalize readings .cpu = r at low medium high
  have level : num 85 < r.current → num 70 < r.current := fun less =>
    num_lt_of_le less (by norm_num) (by norm_num)
  have rate : halves 10 < r.trend → halves 6 < r.trend := fun less =>
    halves_lt_of_le less (by norm_num) (by norm_num)
  have lower : num 70 < r.current → num 60 < r.current := fun less =>
    num_lt_of_le less (by norm_num) (by norm_num)
  refine ⟨?_, ?_, ?_⟩ <;> grind

theorem memory_worths : LoadWorths (worthAt standard readings .memory) := by
  have low : worthAt standard readings .memory .low = _ := Nat.add_zero _
  have medium : worthAt standard readings .memory .medium = _ := Nat.add_zero _
  have high : worthAt standard readings .memory .high = _ := Nat.add_zero _
  simp (disch := norm_num) only [worth_trending, worth_elevated, Rule.worth_nil] at low medium high
  generalize readings .memory = r at low medium high
  have level : num 90 < r.current → num 70 < r.current := fun less =>
    num_lt_of_le less (by norm_num) (by norm_num)
  have fast : halves 10 < r.trend → halves 4 < r.trend := fun less =>
    halves_lt_of_le less (by norm_num) (by norm_num)
  have rate : halves 8 < r.trend → halves 4 < r.trend := fun less =>
    halves_lt_of_le less (by norm_num) (by norm_num)
  refine ⟨?_, ?_, ?_⟩ <;> grind

theorem network_worths : LatencyWorths (worthAt standard readings .network) := by
  have low : worthAt standard readings .network .low = _ := Nat.add_zero _
  have medium : worthAt standard readings .network .medium = _ := Nat.add_zero _
  have high : worthAt standard readings .network .high = _ := Nat.add_zero _
  simp (disch := norm_num) only [worth_trending, worth_elevated, Rule.worth_nil] at low medium high
  generalize readings .network = r at low medium high
  have level : num 25 < r.current → num 15 < r.current := fun less =>
    num_lt_of_le less (by norm_num) (by norm_num)
  have lower : num 15 < r.current → num 10 < r.current := fun less =>
    num_lt_of_le less (by norm_num) (by norm_num)
  have lowest : num 10 < r.current → num 5 < r.current := fun less =>
    num_lt_of_le less (by norm_num) (by norm_num)
  have fast : halves 4 < r.trend → halves 2 < r.trend := fun less =>
    halves_lt_of_le less (by norm_num) (by norm_num)
  have rate : halves 2 < r.trend → halves 1 < r.trend := fun less =>
    halves_lt_of_le less (by norm_num) (by norm_num)
  refine ⟨?_, ?_, ?_⟩ <;> grind

/-- The worths of the ladder, rung by rung. -/
theorem worths_standard :
    worths standard readings =
      [worthAt standard readings .cpu .low, worthAt standard readings .cpu .medium,
        worthAt standard readings .cpu .high, worthAt standard readings .memory .low,
        worthAt standard readings .memory .medium, worthAt standard readings .memory .high,
        worthAt standard readings .network .low, worthAt standard readings .network .medium,
        worthAt standard readings .network .high] := by
  rfl

theorem sum_worths_standard :
    (worths standard readings).sum =
      (worthAt standard readings .cpu .low + worthAt standard readings .cpu .medium +
          worthAt standard readings .cpu .high) +
        (worthAt standard readings .memory .low + worthAt standard readings .memory .medium +
          worthAt standard readings .memory .high) +
        (worthAt standard readings .network .low + worthAt standard readings .network .medium +
          worthAt standard readings .network .high) := by
  rw [worths_standard]
  simp only [List.sum_cons, List.sum_nil]
  ring

theorem sum_worths_le : (worths standard readings).sum ≤ 185 := by
  have cpu := (cpu_worths readings).sum_le
  have memory := (memory_worths readings).sum_le
  have network := (network_worths readings).sum_le
  rw [sum_worths_standard]
  omega

end

/-! ## Severity and status -/

end Ladder

/-- Whether an issue of a severity is reported for a signal. -/
def Prediction.Raises (p : Prediction) (signal : Signal) (severity : Severity) : Prop :=
  ∃ i ∈ p.issues, i.metric = signal ∧ i.severity = severity

instance (p : Prediction) (signal : Signal) (severity : Severity) :
    Decidable (p.Raises signal severity) :=
  inferInstanceAs (Decidable (∃ i ∈ p.issues, i.metric = signal ∧ i.severity = severity))

/-- What the severities that are raised and the status of a report have to do with each other. -/
structure Prediction.Graded (p : Prediction) : Prop where
  medium_of_high : ∀ signal, p.Raises signal .high → p.Raises signal .medium
  critical_of_high : ∀ signal, p.Raises signal .high →
    p.status = .critical ∧ 50 ≤ p.failureProbability
  minor_of_healthy : p.status = .healthy →
    (∀ signal, ¬ p.Raises signal .high) ∧ ¬ p.Raises .cpu .medium ∧ ¬ p.Raises .memory .medium
  few_of_healthy : p.status = .healthy → p.issues.length ≤ 2
  pair_of_healthy : p.status = .healthy → p.issues.length = 2 →
    p.Raises .network .low ∧ (p.Raises .cpu .low ∨ p.Raises .memory .low)
  /-- The confidence in a healthy verdict stays below its cap of 70 by itself. -/
  uncapped_of_healthy : p.status = .healthy →
    (num p.issues.length * num 15 + num 40 : Float) ≤ num 70 ∧
      p.confidence = 40 + 15 * p.issues.length

namespace Ladder

section

variable (horizon utilization : Float) (readings : Signal → Reading Float)

/-- What is raised can be told from the worths of the rungs. -/
theorem raises_iff (signal : Signal) (severity : Severity) :
    (Prediction.ofRisk horizon
        (.ofOutcomes utilization (outcomes standard readings))).Raises signal severity ↔
      0 < worthAt standard readings signal severity := by
  rw [← exists_outcome_iff standard_whole]
  show (∃ i ∈ Risk.issues _, _) ↔ _
  rw [Risk.issues_ofOutcomes]
  simp

theorem length_issues :
    (Prediction.ofRisk horizon
        (.ofOutcomes utilization (outcomes standard readings))).issues.length =
      (worths standard readings).countP (0 < ·) := by
  show (Risk.issues _).length = _
  rw [Risk.issues_ofOutcomes, List.length_map, length_outcomes standard_whole]

/-- Grave issues make a critical score; latency reaches it with no point to spare. -/
theorem fifty_le_score (nonneg : num 0 ≤ utilization) {signal : Signal}
    (raised : 0 < worthAt standard readings signal .high) :
    0 < worthAt standard readings signal .medium ∧
      50 ≤ value (Risk.ofOutcomes utilization (outcomes standard readings)).points := by
  have cpu := cpu_worths readings
  have memory := memory_worths readings
  have network := network_worths readings
  obtain ⟨medium, sum⟩ : 0 < worthAt standard readings signal .medium ∧
      50 ≤ (worths standard readings).sum + 10 := by
    rw [sum_worths_standard]
    cases signal with
    | cpu => have := cpu.high; omega
    | memory => have := memory.high; omega
    | network => have := network.high; omega
  refine ⟨medium, ?_⟩
  have score := le_value_ofOutcomes standard_whole nonneg (.inr ⟨rfl, ⟨_, raised⟩, ⟨_, medium⟩⟩)
    (by have := sum_worths_le readings; omega)
  calc (50 : ℚ) ≤ ((worths standard readings).sum + 10 : ℕ) := by exact_mod_cast sum
    _ ≤ _ := score

/-- What can be raised below 20 points. -/
theorem minor_of_sum_lt (small : (worths standard readings).sum < 20) :
    worthAt standard readings .cpu .medium = 0 ∧ worthAt standard readings .memory .medium = 0 ∧
      (worths standard readings).countP (0 < ·) ≤ 2 ∧
        ((worths standard readings).countP (0 < ·) = 2 →
          0 < worthAt standard readings .network .low ∧
            (0 < worthAt standard readings .cpu .low ∨
              0 < worthAt standard readings .memory .low)) := by
  rw [sum_worths_standard] at small
  rw [worths_standard]
  obtain ⟨cpu_low, cpu_medium, cpu_high⟩ := cpu_worths readings
  obtain ⟨memory_low, memory_medium, memory_high⟩ := memory_worths readings
  obtain ⟨network_low, network_medium, network_high⟩ := network_worths readings
  have cpu_medium := cpu_medium.resolve_right (by omega)
  have memory_medium := memory_medium.resolve_right (by omega)
  have cpu_high := cpu_high.resolve_right (by omega)
  have memory_high := memory_high.resolve_right (by omega)
  have network_high := network_high.resolve_right (by omega)
  refine ⟨cpu_medium, memory_medium, ?_⟩
  rw [cpu_medium, memory_medium, cpu_high, memory_high, network_high] at small ⊢
  rcases cpu_low with cpu_low | cpu_low <;> rcases memory_low with memory_low | memory_low <;>
    rcases network_low with network_low | network_low <;>
      rcases network_medium with network_medium | network_medium <;>
        rw [cpu_low, memory_low, network_low, network_medium] at small ⊢ <;> revert small <;> decide

/-- A healthy report has less than 20 points in worths. -/
theorem sum_worths_lt_of_healthy (nonneg : num 0 ≤ utilization)
    (healthy : (Prediction.ofRisk horizon
      (.ofOutcomes utilization (outcomes standard readings))).status = .healthy) :
    (worths standard readings).sum < 20 := by
  have score := @le_value_ofOutcomes _ readings standard_whole utilization 0 nonneg (.inl rfl)
    (by have := sum_worths_le readings; omega)
  have score_defined := Risk.defined_ofOutcomes utilization
    (@finite_outcome _ readings standard_whole)
  rw [Prediction.status_ofRisk score_defined] at healthy
  split_ifs at healthy with low
  have below : ((worths standard readings).sum + 0 : ℕ) < (20 : ℚ) := lt_of_le_of_lt score low
  exact_mod_cast below

theorem confidence_of_few {n : ℕ} (few : n ≤ 2) :
    (num n * num 15 + num 40 : Float) ≤ num 70 ∧
      (nearest (confidenceIn n .healthy : Float)).toNat = 40 + 15 * n := by
  obtain rfl | rfl | rfl : n = 0 ∨ n = 1 ∨ n = 2 := by omega
  · decide
  · decide
  · decide

theorem status_of_high (nonneg : num 0 ≤ utilization) {signal : Signal}
    (raised : 0 < worthAt standard readings signal .high) :
    (Prediction.ofRisk horizon
      (.ofOutcomes utilization (outcomes standard readings))).status = .critical := by
  have score := (fifty_le_score utilization readings nonneg raised).2
  rw [Prediction.status_ofRisk (Risk.defined_ofOutcomes _ (finite_outcome standard_whole)),
    if_neg (by linarith), if_neg (by linarith)]

theorem graded_ofOutcomes (nonneg : num 0 ≤ utilization) :
    (Prediction.ofRisk horizon (.ofOutcomes utilization (outcomes standard readings))).Graded := by
  have score_defined := Risk.defined_ofOutcomes utilization
    (@finite_outcome _ readings standard_whole)
  have raises := raises_iff horizon utilization readings
  have length := length_issues horizon utilization readings
  have agrees := @Prediction.agrees_ofRisk horizon _ score_defined
  have critical {signal} := @status_of_high horizon utilization readings nonneg signal
  have minor healthy := minor_of_sum_lt readings
    (sum_worths_lt_of_healthy horizon utilization readings nonneg healthy)
  constructor
  case medium_of_high =>
    intro signal raised
    rw [raises] at raised ⊢
    exact (fifty_le_score utilization readings nonneg raised).1
  case critical_of_high =>
    intro signal raised
    rw [raises] at raised
    rw [critical raised] at agrees
    exact ⟨critical raised, agrees⟩
  case minor_of_healthy =>
    intro healthy
    obtain ⟨cpu, memory, -⟩ := minor healthy
    refine ⟨fun signal raised => ?_, ?_, ?_⟩
    · rw [raises] at raised
      rw [critical raised] at healthy
      cases healthy
    · rw [raises, cpu]
      exact lt_irrefl 0
    · rw [raises, memory]
      exact lt_irrefl 0
  case few_of_healthy =>
    intro healthy
    rw [length]
    exact (minor healthy).2.2.1
  case pair_of_healthy =>
    intro healthy pair
    rw [length] at pair
    rw [raises, raises, raises]
    exact (minor healthy).2.2.2 pair
  case uncapped_of_healthy =>
    intro healthy
    have few := (minor healthy).2.2.1
    rw [← length] at few
    obtain ⟨below, whole⟩ := confidence_of_few few
    refine ⟨below, ?_⟩
    rw [← whole, ← healthy]
    rfl

end

/-- **Severity and status.**  Whatever the tuning and the readings are: under the standard ladder, a
full history whose latest load is not negative gets a report in which severities and status go
together. -/
theorem severity_agrees_with_status (t : Tuning Float) (pos : 1 ≤ t.window)
    {history : List Sample} {latest : Sample} (full : t.window ≤ history.length)
    (newest : history.getLast? = some latest) (load : 0 ≤ latest.utilizationScore) :
    ((Engine.mk t standard).predict history).Graded := by
  have same : history.getLastD .empty = latest := by
    rw [List.getLastD_eq_getLast?, newest, Option.getD_some]
  rw [predict_eq_ofRisk ⟨t, standard⟩ pos full, risk, same]
  exact graded_ofOutcomes _ _ _ load

/-- A processor at 90 percent raises its high issue, and with it the medium one. -/
theorem critical_of_busy_processor :
    let t := { Tuning.standard with window := 1 }
    let p := (Engine.mk t standard).predict [{ Sample.empty with cpuUsage := 90 }]
    p.Raises .cpu .medium ∧ p.status = .critical ∧ 50 ≤ p.failureProbability := by
  intro t p
  have graded : p.Graded :=
    severity_agrees_with_status t (by decide) (by decide) rfl (by decide)
  have high : p.Raises .cpu .high := by decide +kernel
  exact ⟨graded.medium_of_high _ high, graded.critical_of_high _ high⟩

end Ladder

end Prognosis
