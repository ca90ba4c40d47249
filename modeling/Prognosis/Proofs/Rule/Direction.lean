import Prognosis.Proofs.Document.Record
import Prognosis.Proofs.Ladder
import Prognosis.Settings.Record

/-!
# Directions of issues

An arm for a level reports where its signal is heading, an arm for a trend calls it degrading
without looking.  What an issue says of its direction is therefore true unless an arm for a trend
decides on a signal that does not rise (`Rule.tells_outcome_iff`), which takes a threshold below
zero (`Rule.negative_of_fires`).  The standard ladder has none (`Ladder.noneNegative_standard`), but
settings may bring one in (`degrading_of_falling_signal`).  Whether a rule is ever untrue can be
told from what it does on flat signals (`Rule.tells_always_iff`).
-/

namespace Prognosis

open Scalar Binary64

/-! ## True directions -/

namespace Direction

/-- A direction that is true of a rate: only what rises is degrading, only what falls improving, and
what does neither is stable. -/
structure Tells (d : Direction) (rate : Float) : Prop where
  degrading : d = .degrading ↔ num 0 < rate
  improving : d = .improving ↔ rate < num 0
  stable : d = .stable ↔ ¬ num 0 < rate ∧ ¬ rate < num 0

theorem not_falling_of_rising {rate : Float} (rising : num 0 < rate) : ¬ rate < num 0 := by
  intro falling
  have rate_defined := (defined_of_lt rising).2
  rw [num_lt_iff rate_defined (by norm_num)] at rising
  rw [lt_num_iff rate_defined (by norm_num)] at falling
  exact rising.asymm falling

theorem tells_ofRate (rate : Float) : (ofRate rate).Tells rate := by
  unfold ofRate
  by_cases rising : num 0 < rate
  · have not_falling := not_falling_of_rising rising
    rw [if_pos rising]
    constructor <;> simp [rising, not_falling]
  · rw [if_neg rising]
    by_cases falling : rate < num 0
    · rw [if_pos falling]
      constructor <;> simp [rising, falling]
    · rw [if_neg falling]
      constructor <;> simp [rising, falling]

theorem tells_degrading_iff {rate : Float} : Tells .degrading rate ↔ num 0 < rate := by
  constructor
  · intro tells
    exact tells.degrading.1 rfl
  · intro rising
    have tells := tells_ofRate rate
    rwa [tells.degrading.2 rising] at tells

end Direction

/-! ## Arms -/

namespace Rule

variable {rule : Rule Float} {r : Reading Float} {a : Arm Float}

/-- What an arm says of the direction is true, unless it is one for a trend and nothing rises. -/
theorem tells_outcome_iff :
    (rule.outcome a r).issue.trend.Tells r.trend ↔
      (a.trigger.isTrending = true → num 0 < r.trend) := by
  have trend : (rule.outcome a r).issue.trend = (rule.finding a r).1 := rfl
  rw [trend]
  unfold finding
  by_cases trending : a.trigger.isTrending = true
  · rw [if_pos trending, Direction.tells_degrading_iff]
    exact (imp_iff_right trending).symm
  · rw [if_neg trending]
    exact iff_of_true (Direction.tells_ofRate r.trend) (absurd · trending)

/-- An arm for a trend that fires on a signal which does not rise has a threshold below zero, and so
it would fire if the signal were flat. -/
theorem negative_of_fires (fires : a.trigger.fires r = true)
    (trending : a.trigger.isTrending = true) (level : ¬ num 0 < r.trend) :
    (∃ minTrend minCurrent, a.trigger = .trending minTrend minCurrent ∧ minTrend < num 0) ∧
      a.trigger.fires ⟨r.current, num 0⟩ = true := by
  cases trigger : a.trigger with
  | elevated minCurrent =>
    rw [trigger] at trending
    cases trending
  | trending minTrend minCurrent =>
    rw [trigger] at fires
    unfold Trigger.fires at fires ⊢
    rw [Bool.and_eq_true, decide_eq_true_iff, decide_eq_true_iff] at fires
    obtain ⟨threshold_defined, trend_defined⟩ := defined_of_lt fires.1
    have above := (lt_iff_value threshold_defined trend_defined).1 fires.1
    rw [num_lt_iff trend_defined (by norm_num)] at level
    have negative : minTrend < num 0 := by
      rw [lt_num_iff threshold_defined (by norm_num)]
      linarith
    refine ⟨⟨minTrend, minCurrent, rfl, negative⟩, ?_⟩
    rw [Bool.and_eq_true, decide_eq_true_iff, decide_eq_true_iff]
    exact ⟨negative, fires.2⟩

theorem fires_of_level {r' : Reading Float} (for_level : a.trigger.isTrending = false)
    (same : r.current = r'.current) : a.trigger.fires r = a.trigger.fires r' := by
  cases trigger : a.trigger with
  | trending minTrend minCurrent =>
    rw [trigger] at for_level
    cases for_level
  | elevated minCurrent =>
    unfold Trigger.fires
    rw [same]

/-! ## Rules -/

/-- A rule is always true of directions if no arm for a trend decides on a signal that is flat. -/
theorem tells_always_iff :
    (∀ r o, rule.evaluate r = some o → o.issue.trend.Tells r.trend) ↔
      ∀ current a, rule.DecidedBy ⟨current, num 0⟩ a → a.trigger.isTrending = false := by
  have flat : ¬ (num 0 : Float) < num 0 := by decide
  constructor
  · intro tells current a decides
    have true_of := tells _ _ (evaluate_eq_some_iff.2 ⟨a, decides, rfl⟩)
    by_contra trending
    have rising := tells_outcome_iff.1 true_of (Bool.eq_true_of_not_eq_false trending)
    exact flat rising
  · intro for_level r o fired
    obtain ⟨a, decides, rfl⟩ := evaluate_eq_some_iff.1 fired
    rw [tells_outcome_iff]
    intro trending
    by_contra level
    have fires_flat := (negative_of_fires decides.fires trending level).2
    obtain ⟨front, back, split, idle, -⟩ := decides
    -- The first arm that fires on the flat signal stands in front of `a`, or is `a` itself.
    cases earlier : front.find? fun b => b.trigger.fires ⟨r.current, num 0⟩ with
    | none =>
      have found : rule.firing? ⟨r.current, num 0⟩ = some a := by
        unfold firing?
        rw [split, List.find?_append, earlier, Option.none_or, List.find?_cons_of_pos]
        exact fires_flat
      have := for_level _ a (firing?_eq_some_iff.1 found)
      rw [trending] at this
      cases this
    | some b =>
      have found : rule.firing? ⟨r.current, num 0⟩ = some b := by
        unfold firing?
        rw [split, List.find?_append, earlier, Option.some_or]
      have decides_flat := firing?_eq_some_iff.1 found
      have silent := idle b (List.mem_of_find?_eq_some earlier)
      have same : b.trigger.fires r = b.trigger.fires ⟨r.current, num 0⟩ :=
        fires_of_level (for_level _ b decides_flat) rfl
      rw [same, decides_flat.fires] at silent
      cases silent

/-- Whether no arm for a trend has a threshold below zero. -/
def NoneNegative (rule : Rule Float) : Prop :=
  ∀ a ∈ rule.arms, ∀ minTrend minCurrent,
    a.trigger = .trending minTrend minCurrent → ¬ minTrend < num 0

theorem NoneNegative.tells {o : Outcome Float} (none_negative : rule.NoneNegative)
    (fired : rule.evaluate r = some o) : o.issue.trend.Tells r.trend := by
  obtain ⟨a, decides, rfl⟩ := evaluate_eq_some_iff.1 fired
  rw [tells_outcome_iff]
  intro trending
  by_contra level
  obtain ⟨⟨minTrend, minCurrent, trigger, negative⟩, -⟩ :=
    negative_of_fires decides.fires trending level
  exact none_negative a decides.mem minTrend minCurrent trigger negative

end Rule

/-- The standard ladder has no threshold below zero. -/
theorem Ladder.noneNegative_standard :
    ∀ rule ∈ (standard : List (Rule Float)), rule.NoneNegative := by
  have threshold {n : ℕ} (digits : n < 2 ^ 53) : ¬ (halves n : Float) < num 0 := by
    obtain ⟨exact, defined⟩ := value_halves digits
    rw [lt_num_iff defined (by norm_num), exact]
    have nonneg : (0 : ℚ) ≤ n / 2 := by positivity
    exact_mod_cast nonneg.not_gt
  simp only [standard, cpu, memory, network, List.cons_append, List.nil_append,
    List.forall_mem_cons, Rule.NoneNegative, trending, elevated]
  and_intros
  all_goals first
    | exact List.forall_mem_nil _
    | rintro _ _ ⟨⟩
      exact threshold (by norm_num)
    | rintro _ _ ⟨⟩

/-- **Directions.**  The direction in an issue is true if an arm for a level decided, or the signal
rises; otherwise a signal that does not rise is called degrading.  A rule is true of all readings if
no arm for a trend decides on a flat signal, as where no such arm has a threshold below zero. -/
theorem direction_of_issue (rule : Rule Float) :
    (∀ r o, rule.evaluate r = some o → ∃ a, rule.DecidedBy r a ∧
      (o.issue.trend.Tells r.trend ↔ (a.trigger.isTrending = true → num 0 < r.trend)) ∧
      (¬ o.issue.trend.Tells r.trend → o.issue.trend = .degrading ∧ ¬ num 0 < r.trend)) ∧
    ((∀ r o, rule.evaluate r = some o → o.issue.trend.Tells r.trend) ↔
      ∀ current a, rule.DecidedBy ⟨current, num 0⟩ a → a.trigger.isTrending = false) ∧
    (rule ∈ Ladder.standard ∨ rule.NoneNegative →
      ∀ r o, rule.evaluate r = some o → o.issue.trend.Tells r.trend) := by
  refine ⟨?_, Rule.tells_always_iff, ?_⟩
  · intro r o fired
    obtain ⟨a, decides, rfl⟩ := Rule.evaluate_eq_some_iff.1 fired
    refine ⟨a, decides, Rule.tells_outcome_iff, ?_⟩
    intro untrue
    rw [Rule.tells_outcome_iff, Classical.not_imp] at untrue
    obtain ⟨trending, level⟩ := untrue
    refine ⟨?_, level⟩
    show (rule.finding a r).1 = .degrading
    rw [Rule.finding, if_pos trending]
  · rintro (standard | none_negative) r o fired
    · exact (Ladder.noneNegative_standard rule standard).tells fired
    · exact none_negative.tells fired

/-- A falling processor under a rule that asks for a fast fall, and under one of the standard ladder
that looks at its level. -/
theorem direction_of_issue_of_falling_processor :
    let slow : Arm Float := ⟨.trending (-100) 50, 10, none, "slow"⟩
    let rule : Rule Float := ⟨.cpu, .low, [slow]⟩
    let r : Reading Float := ⟨90, -60⟩
    (∃ o, rule.evaluate r = some o ∧ ¬ o.issue.trend.Tells r.trend ∧ o.issue.trend = .degrading) ∧
      ∃ rule ∈ Ladder.standard, ∃ o, rule.evaluate r = some o ∧ o.issue.trend.Tells r.trend := by
  intro slow rule r
  have level : ¬ (num 0 : Float) < r.trend := by decide
  constructor
  · have fires : slow.trigger.fires r = true := by decide
    have fired : rule.evaluate r = some (rule.outcome slow r) := Rule.evaluate_cons_of_fires fires
    obtain ⟨a, decides, tells, untrue⟩ := (direction_of_issue rule).1 r _ fired
    obtain rfl : a = slow := List.mem_singleton.1 decides.mem
    have not_tells : ¬ (rule.outcome slow r).issue.trend.Tells r.trend := fun holds =>
      level (tells.1 holds rfl)
    exact ⟨_, fired, not_tells, (untrue not_tells).1⟩
  · have found : (Ladder.standard.any fun rule => (rule.evaluate r).isSome) = true := by decide
    obtain ⟨rule, mem, fired⟩ := List.any_eq_true.1 found
    obtain ⟨o, fired⟩ := Option.isSome_iff_exists.1 fired
    exact ⟨rule, mem, o, fired, (direction_of_issue rule).2.2 (.inl mem) r o fired⟩

/-! ## A processor that recovers too slowly -/

/-- Two samples a window, and one rule that fires unless a busy processor falls fast. -/
def slowRecovery : String :=
  "[engine]\nwindow_size = 2\n[[rules]]\nsignal = \"cpu\"\nseverity = \"low\"\n" ++
    "[[rules.arms]]\npoints = 10\nlabel = \"CPU not recovering fast enough\"\n" ++
    "trigger = \x7b kind = \"trending\", min_trend = -100, min_current = 50 \x7d\n"

/-- Settings that are accepted, and a processor at 90 percent that falls by 60 percent an hour: it is
reported as degrading. -/
theorem degrading_of_falling_signal :
    ∃ s rule r o, Settings.parse slowRecovery = .ok s ∧ rule ∈ s.ruleSet ∧
      rule.evaluate r = some o ∧ r.trend.isNaN = false ∧ r.trend < num 0 ∧
      o.issue.trend = .degrading ∧ ¬ o.issue.trend.Tells r.trend := by
  let r : Reading Float := ⟨90, -60⟩
  have run : (Settings.parse slowRecovery).toOption.any (fun s => s.ruleSet.any fun rule =>
      (rule.evaluate r).any fun o => decide (o.issue.trend = .degrading)) = true := by
    decide +kernel
  obtain ⟨s, accepted, run⟩ := Document.exists_of_any run
  obtain ⟨rule, mem, run⟩ := List.any_eq_true.1 run
  obtain ⟨o, fired, degrading⟩ := (Option.any_eq_true _ _).1 run
  have degrading := of_decide_eq_true degrading
  have falling : r.trend < num 0 := by decide
  refine ⟨s, rule, r, o, accepted, mem, fired, by decide, falling, degrading, ?_⟩
  rw [degrading, Direction.tells_degrading_iff]
  exact fun rising => Direction.not_falling_of_rising rising falling

end Prognosis
