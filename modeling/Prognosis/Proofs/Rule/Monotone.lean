import Prognosis.Proofs.Rule.Worth

/-!
# Raised readings

A trigger that fires on a reading fires on every raised one, so raised readings never silence a rule
(`Engine.exists_outcome_of_raised`) and never lower the bonus for coinciding issues
(`Engine.bonus_le`).  Another arm may decide then, with fewer points; where no rule is worth less,
the score is no lower (`Engine.score_le`).
-/

namespace Prognosis

open Scalar Binary64

/-! ## Firing -/

/-- Neither the current value nor the trend is lower in `r'`. -/
structure Reading.Raised (r r' : Reading Float) : Prop where
  current : r.current ≤ r'.current
  trend : r.trend ≤ r'.trend

section

variable {r r' : Reading Float}

theorem Trigger.fires_of_raised (raised : r.Raised r') {t : Trigger Float}
    (fires : t.fires r = true) : t.fires r' = true := by
  cases t with
  | trending minTrend minCurrent =>
    rw [Trigger.fires, Bool.and_eq_true, decide_eq_true_iff, decide_eq_true_iff] at fires ⊢
    obtain ⟨trend, current⟩ := fires
    exact ⟨Binary64.lt_of_lt_of_le trend raised.trend,
      Binary64.lt_of_lt_of_le current raised.current⟩
  | elevated minCurrent =>
    rw [Trigger.fires, decide_eq_true_iff] at fires ⊢
    exact Binary64.lt_of_lt_of_le fires raised.current

theorem Rule.isSome_evaluate_iff {rule : Rule Float} :
    (rule.evaluate r).isSome = true ↔ ∃ a ∈ rule.arms, a.trigger.fires r = true := by
  rw [evaluate, Option.isSome_map, firing?, List.find?_isSome]

theorem Rule.fires_of_raised (raised : r.Raised r') {rule : Rule Float}
    (fires : (rule.evaluate r).isSome = true) : (rule.evaluate r').isSome = true := by
  obtain ⟨a, mem, fires⟩ := Rule.isSome_evaluate_iff.1 fires
  exact Rule.isSome_evaluate_iff.2 ⟨a, mem, Trigger.fires_of_raised raised fires⟩

end

/-! ## Issues -/

theorem num_le_num {m n : ℕ} (le : m ≤ n) (digits : n < 2 ^ 53) : (num m : Float) ≤ num n := by
  have m_digits : m < 2 ^ 53 := by omega
  rw [le_iff_value (defined_num m_digits) (defined_num digits), value_num m_digits,
    value_num digits]
  exact_mod_cast le

theorem coincidenceBonus_le {issues issues' : List Issue}
    (high : countOf .high issues ≤ countOf .high issues')
    (medium : countOf .medium issues ≤ countOf .medium issues') :
    (coincidenceBonus issues : Float) ≤ coincidenceBonus issues' := by
  have whole (issues : List Issue) : (coincidenceBonus issues : Float) =
      num (if 2 ≤ countOf .high issues then 20
        else if 1 ≤ countOf .high issues ∧ 1 ≤ countOf .medium issues then 10
        else if 2 ≤ countOf .medium issues then 5 else 0) := by
    unfold coincidenceBonus
    dsimp only
    split_ifs <;> rfl
  rw [whole, whole]
  apply num_le_num
  · split_ifs <;> omega
  · split_ifs <;> norm_num

namespace Engine

variable {rules : List (Rule Float)} {readings readings' : Signal → Reading Float}

theorem countOf_outcomes (severity : Severity) :
    countOf severity ((outcomes rules readings).map (·.issue)) =
      rules.countP fun rule =>
        rule.severity = severity && (rule.evaluate (readings rule.signal)).isSome := by
  rw [countOf, List.countP_map, outcomes, List.countP_filterMap]
  apply List.countP_congr
  intro rule _
  cases fired : rule.evaluate (readings rule.signal) with
  | none => simp
  | some o => simp [(Rule.issue_of_evaluate fired).2]

variable (raised : ∀ signal, (readings signal).Raised (readings' signal))

include raised

/-- Raised readings silence no rule. -/
theorem exists_outcome_of_raised {o : Outcome Float} (mem : o ∈ outcomes rules readings) :
    ∃ o' ∈ outcomes rules readings',
      o'.issue.metric = o.issue.metric ∧ o'.issue.severity = o.issue.severity := by
  obtain ⟨rule, rule_mem, fired⟩ := List.mem_filterMap.1 mem
  obtain ⟨o', fired'⟩ := Option.isSome_iff_exists.1
    (Rule.fires_of_raised (raised rule.signal) (Option.isSome_of_eq_some fired))
  refine ⟨o', List.mem_filterMap.2 ⟨rule, rule_mem, fired'⟩, ?_, ?_⟩
  · rw [(Rule.issue_of_evaluate fired').1, (Rule.issue_of_evaluate fired).1]
  · rw [(Rule.issue_of_evaluate fired').2, (Rule.issue_of_evaluate fired).2]

theorem countOf_outcomes_le (severity : Severity) :
    countOf severity ((outcomes rules readings).map (·.issue)) ≤
      countOf severity ((outcomes rules readings').map (·.issue)) := by
  rw [countOf_outcomes, countOf_outcomes]
  apply List.countP_mono_left
  intro rule _ counted
  rw [Bool.and_eq_true] at counted ⊢
  exact ⟨counted.1, Rule.fires_of_raised (raised rule.signal) counted.2⟩

/-- Raised readings lower no bonus. -/
theorem bonus_le :
    (coincidenceBonus ((outcomes rules readings).map (·.issue)) : Float) ≤
      coincidenceBonus ((outcomes rules readings').map (·.issue)) :=
  coincidenceBonus_le (countOf_outcomes_le raised .high) (countOf_outcomes_le raised .medium)

end Engine

/-! ## Scores -/

theorem le_add_num {y : Float} {n : ℕ} (y_defined : y.isNaN = false) (digits : n < 2 ^ 53) :
    y ≤ y + num n := by
  rcases finite_or_infinite y_defined with y_finite | y_infinite
  · obtain ⟨exact, sum_defined⟩ := value_add y_finite (finite_num digits)
    rw [le_iff_value y_defined sum_defined, exact, value_num digits]
    calc value y = nearest64 (value y) := (nearest64_value y_finite).symm
      _ ≤ nearest64 (value y + n) := nearest64_mono (le_add_of_nonneg_right (Nat.cast_nonneg n))
  · rw [add_of_infinite y_infinite (finite_num digits)]
    exact le_refl_of_defined y_defined

namespace Engine

variable {rules : List (Rule Float)} {readings readings' : Signal → Reading Float}

theorem elim_evaluate_le {rule : Rule Float} (whole : rule.Whole) {r r' : Reading Float}
    (worth_le : rule.worth r ≤ rule.worth r') {risk risk' : Risk Float}
    (le : risk.points ≤ risk'.points) :
    ((rule.evaluate r).elim risk risk.absorb).points ≤
      ((rule.evaluate r').elim risk' risk'.absorb).points := by
  cases fired : rule.evaluate r with
  | none =>
    cases fired' : rule.evaluate r' with
    | none => exact le
    | some o' =>
      obtain ⟨-, short, points⟩ := Rule.worth_of_evaluate whole fired'
      rw [Option.elim_none, Option.elim_some, Risk.points_absorb, points]
      exact Binary64.le_trans le (le_add_num (defined_of_le le).2 (by omega))
  | some o =>
    obtain ⟨pos, short, points⟩ := Rule.worth_of_evaluate whole fired
    cases fired' : rule.evaluate r' with
    | none =>
      rw [Rule.worth_of_evaluate_none fired'] at worth_le
      omega
    | some o' =>
      obtain ⟨-, short', points'⟩ := Rule.worth_of_evaluate whole fired'
      rw [Option.elim_some, Option.elim_some, Risk.points_absorb, Risk.points_absorb, points,
        points']
      exact add_le_add_of_le le (num_le_num worth_le (by omega)) (finite_num (by omega))
        (finite_num (by omega))

variable (whole : ∀ rule ∈ rules, rule.Whole)
  (worth_le : ∀ rule ∈ rules,
    rule.worth (readings rule.signal) ≤ rule.worth (readings' rule.signal))

include whole worth_le

/-- Where no rule is worth less, taking in what the rules find keeps scores in order. -/
theorem foldl_outcomes_le {risk risk' : Risk Float} (le : risk.points ≤ risk'.points) :
    ((outcomes rules readings).foldl Risk.absorb risk).points ≤
      ((outcomes rules readings').foldl Risk.absorb risk').points := by
  rw [foldl_outcomes, foldl_outcomes]
  induction rules generalizing risk risk' with
  | nil => exact le
  | cons rule rules ih =>
    rw [List.forall_mem_cons] at whole worth_le
    rw [List.foldl_cons, List.foldl_cons]
    exact ih whole.2 worth_le.2 (elim_evaluate_le whole.1 worth_le.1 le)

/-- **Scores.**  Where readings are raised and no rule is worth less, the score is no lower. -/
theorem score_le (raised : ∀ signal, (readings signal).Raised (readings' signal))
    (utilization : Float) :
    (Risk.ofOutcomes utilization (outcomes rules readings)).points ≤
      (Risk.ofOutcomes utilization (outcomes rules readings')).points := by
  have start := le_refl_of_defined (Risk.defined_ofUtilization utilization)
  rw [Risk.points_ofOutcomes, Risk.points_ofOutcomes]
  exact add_le_add_of_le (foldl_outcomes_le whole worth_le start) (bonus_le raised)
    (Risk.finite_coincidenceBonus _) (Risk.finite_coincidenceBonus _)

end Engine

end Prognosis
