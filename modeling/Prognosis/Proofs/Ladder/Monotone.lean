import Prognosis.Proofs.Ladder
import Prognosis.Proofs.Rule.Monotone
import Prognosis.Proofs.Score.Order

/-!
# The standard ladder on raised readings

A raised reading can take points back: above its ceiling a signal brings more points for its level
alone than for a fast trend, and the trend is looked at first.  That is the only way.  Under the
standard ladder the score is no lower where each reading is raised in its current value alone, or
stays within the ceiling of its signal (`assess_of_raised`).
-/

namespace Prognosis.Ladder

open Scalar Binary64 Engine

/-- The level above which the high rung of a signal fires whatever the trend is. -/
def ceiling : Signal → ℕ
  | .cpu => 85
  | .memory => 90
  | .network => 25

/-- A reading raised so that no rung takes points back: its trend is not raised, or its current
value stays within the ceiling. -/
structure RaisedWithin (signal : Signal) (r r' : Reading Float) : Prop where
  raised : r.Raised r'
  within : r'.trend ≤ r.trend ∨ r'.current ≤ num (ceiling signal)

/-! ## Worths -/

section

variable {signal : Signal} {r r' : Reading Float}

theorem RaisedWithin.cases (h : RaisedWithin signal r r') :
    (∀ n, halves n < r'.trend → halves n < r.trend) ∨ ¬ num (ceiling signal) < r'.current := by
  rcases h.within with same | low
  · left
    intro n less
    exact Binary64.lt_of_lt_of_le less same
  · right
    exact Binary64.not_lt_of_le low

variable (h : RaisedWithin signal r r')

include h

theorem RaisedWithin.level (n : ℕ) (less : num n < r.current) : num n < r'.current :=
  Binary64.lt_of_lt_of_le less h.raised.current

theorem RaisedWithin.rate (n : ℕ) (less : halves n < r.trend) : halves n < r'.trend :=
  Binary64.lt_of_lt_of_le less h.raised.trend

omit h

theorem cpu_worth_le (h : RaisedWithin .cpu r r') :
    ∀ rule ∈ (cpu : List (Rule Float)), rule.worth r ≤ rule.worth r' := by
  have rate := h.rate
  have level := h.level
  have busy : num 85 < r.current → num 70 < r.current := fun less =>
    num_lt_of_le less (by norm_num) (by norm_num)
  have within := h.cases
  simp only [cpu, List.forall_mem_cons]
  simp (disch := norm_num) only [worth_trending, worth_elevated, Rule.worth_nil]
  refine ⟨?_, ?_, ?_, List.forall_mem_nil _⟩
  · grind
  · grind
  -- On the high rung the level alone brings more than a fast trend.  Above the ceiling, where it
  -- does, no trend has become fast.
  · grind [ceiling]

theorem memory_worth_le (h : RaisedWithin .memory r r') :
    ∀ rule ∈ (memory : List (Rule Float)), rule.worth r ≤ rule.worth r' := by
  have rate := h.rate
  have level := h.level
  have full : num 90 < r.current → num 60 < r.current := fun less =>
    num_lt_of_le less (by norm_num) (by norm_num)
  have fast : halves 10 < r.trend → halves 8 < r.trend := fun less =>
    halves_lt_of_le less (by norm_num) (by norm_num)
  have within := h.cases
  simp only [memory, List.forall_mem_cons]
  simp (disch := norm_num) only [worth_trending, worth_elevated, Rule.worth_nil]
  refine ⟨?_, ?_, ?_, List.forall_mem_nil _⟩
  · grind
  · grind
  · grind [ceiling]

theorem network_worth_le (h : RaisedWithin .network r r') :
    ∀ rule ∈ (network : List (Rule Float)), rule.worth r ≤ rule.worth r' := by
  have rate := h.rate
  have level := h.level
  have slow : num 25 < r.current → num 15 < r.current := fun less =>
    num_lt_of_le less (by norm_num) (by norm_num)
  have within := h.cases
  simp only [network, List.forall_mem_cons]
  simp (disch := norm_num) only [worth_trending, worth_elevated, Rule.worth_nil]
  refine ⟨?_, ?_, ?_, List.forall_mem_nil _⟩
  · grind
  · grind
  · grind [ceiling]

theorem signal_of_mem {rule : Rule Float} :
    (rule ∈ cpu → rule.signal = .cpu) ∧ (rule ∈ memory → rule.signal = .memory) ∧
      (rule ∈ network → rule.signal = .network) := by
  simp only [cpu, memory, network, List.mem_cons, List.not_mem_nil, or_false]
  refine ⟨?_, ?_, ?_⟩ <;> rintro (rfl | rfl | rfl) <;> rfl

end

section

variable {readings readings' : Signal → Reading Float}

/-- Readings raised within the ceilings leave no rung worth less. -/
theorem standard_worth_le
    (within : ∀ signal, RaisedWithin signal (readings signal) (readings' signal)) :
    ∀ rule ∈ (standard : List (Rule Float)),
      rule.worth (readings rule.signal) ≤ rule.worth (readings' rule.signal) := by
  intro rule mem
  obtain ⟨of_cpu, of_memory, of_network⟩ := @signal_of_mem rule
  rw [standard, List.mem_append, List.mem_append] at mem
  obtain (mem | mem) | mem := mem
  · rw [of_cpu mem]
    exact cpu_worth_le (within .cpu) rule mem
  · rw [of_memory mem]
    exact memory_worth_le (within .memory) rule mem
  · rw [of_network mem]
    exact network_worth_le (within .network) rule mem

/-- The least trend, in halves, for which the high rung of a signal has an arm. -/
def steep : Signal → ℕ
  | .cpu => 10
  | .memory => 8
  | .network => 4

/-- The ceilings are the right ones: above them a steep trend takes points back. -/
theorem worthAt_lt_above_ceiling {signal : Signal}
    (above : num (ceiling signal) < (readings signal).current)
    (same : (readings' signal).current = (readings signal).current)
    (gentle : ¬ halves (steep signal) < (readings signal).trend)
    (rising : halves (steep signal) < (readings' signal).trend) :
    worthAt standard readings' signal .high < worthAt standard readings signal .high := by
  cases signal with
  | cpu =>
    have high readings : worthAt standard readings .cpu .high = _ := Nat.add_zero _
    simp (disch := norm_num) only [worth_trending, worth_elevated, Rule.worth_nil] at high
    have lower : num 70 < (readings .cpu).current :=
      num_lt_of_le above (by decide) (by norm_num [ceiling])
    rw [high, high]
    grind [ceiling, steep]
  | memory =>
    have high readings : worthAt standard readings .memory .high = _ := Nat.add_zero _
    simp (disch := norm_num) only [worth_trending, worth_elevated, Rule.worth_nil] at high
    have lower : num 60 < (readings .memory).current :=
      num_lt_of_le above (by decide) (by norm_num [ceiling])
    have gentler : ¬ halves 10 < (readings .memory).trend := fun less =>
      gentle (halves_lt_of_le less (by decide) (by norm_num))
    rw [high, high]
    grind [ceiling, steep]
  | network =>
    have high readings : worthAt standard readings .network .high = _ := Nat.add_zero _
    simp (disch := norm_num) only [worth_trending, worth_elevated, Rule.worth_nil] at high
    have lower : num 15 < (readings .network).current :=
      num_lt_of_le above (by decide) (by norm_num [ceiling])
    rw [high, high]
    grind [ceiling, steep]

end

/-! ## Verdicts on raised readings -/

/-- The score of a load and three readings under the standard ladder, before it is rounded. -/
def score (utilization : Float) (readings : Signal → Reading Float) : Float :=
  (Risk.ofOutcomes utilization (outcomes standard readings)).points

/-- **Raised readings.**  Under the standard ladder raised readings silence no rung and lower no
bonus.  Where each of them is raised in its current value alone, or stays within the ceiling of its
signal, the score is no lower and the verdict is no milder. -/
theorem assess_of_raised (t : Tuning Float) (utilization : Float)
    {readings readings' : Signal → Reading Float}
    (raised : ∀ signal, (readings signal).Raised (readings' signal)) :
    let p := (Engine.mk t standard).assess readings utilization
    let p' := (Engine.mk t standard).assess readings' utilization
    (∀ signal severity, p.Raises signal severity → p'.Raises signal severity) ∧
      (coincidenceBonus p.issues : Float) ≤ coincidenceBonus p'.issues ∧
      ((∀ signal, (readings' signal).trend ≤ (readings signal).trend ∨
          (readings' signal).current ≤ num (ceiling signal)) →
        score utilization readings ≤ score utilization readings' ∧ p.Milder p') := by
  intro p p'
  have issues (readings) : ((Engine.mk t standard).assess readings utilization).issues =
      (outcomes standard readings).map (·.issue) := Risk.issues_ofOutcomes _ _
  refine ⟨?_, ?_, ?_⟩
  · rintro signal severity ⟨i, mem, rfl, rfl⟩
    rw [issues] at mem
    obtain ⟨o, o_mem, rfl⟩ := List.mem_map.1 mem
    obtain ⟨o', o'_mem, metric, severity⟩ := exists_outcome_of_raised raised o_mem
    refine ⟨o'.issue, ?_, metric, severity⟩
    rw [issues]
    exact List.mem_map_of_mem o'_mem
  · rw [issues, issues]
    exact bonus_le raised
  · intro within
    have worths := standard_worth_le fun signal => ⟨raised signal, within signal⟩
    have le : score utilization readings ≤ score utilization readings' :=
      score_le standard_whole worths raised utilization
    exact ⟨le, Prediction.milder_of_le le⟩

/-- Readings given one by one. -/
def readingsOf (cpu memory network : Reading Float) : Signal → Reading Float
  | .cpu => cpu
  | .memory => memory
  | .network => network

/-- A processor that is busier at the same trend, with memory that fills up faster. -/
theorem assess_of_busier_processor :
    let before := readingsOf ⟨65, 4⟩ ⟨65, 1⟩ ⟨8, 0⟩
    let after := readingsOf ⟨95, 4⟩ ⟨80, 6⟩ ⟨8, 0⟩
    let p := (Engine.mk .standard standard).assess before 20
    let p' := (Engine.mk .standard standard).assess after 20
    (∀ signal, (before signal).Raised (after signal)) ∧ score 20 before ≤ score 20 after ∧
      p.Milder p' ∧ p.Raises .cpu .medium ∧ p'.Raises .cpu .medium ∧
      p.failureProbability = 36 ∧ p'.failureProbability = 100 := by
  intro before after p p'
  have raised signal : (before signal).Raised (after signal) := by
    cases signal <;> constructor <;> decide
  obtain ⟨raises, -, within⟩ := assess_of_raised .standard 20 raised
  obtain ⟨le, milder⟩ := within fun signal => by
    cases signal with
    | cpu => exact .inl (by decide)
    | memory => exact .inr (by decide)
    | network => exact .inl (by decide)
  have medium : p.Raises .cpu .medium := by decide +kernel
  exact ⟨raised, le, milder, medium, raises _ _ medium, by decide +kernel, by decide +kernel⟩

end Prognosis.Ladder
