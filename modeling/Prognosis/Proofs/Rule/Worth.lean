import Prognosis.Proofs.Rule
import Prognosis.Proofs.Score

/-!
# What rules are worth

Where all points are whole numbers, the worth of a rule on a reading is a whole number too, and zero
just where the rule does not fire.  Taking in the outcomes of rules adds at least what they are
worth together (`sum_worths_le_value`); what is raised and how often can be told from the worths
alone (`exists_outcome_iff`, `length_outcomes`).
-/

namespace Prognosis

open Scalar Binary64 Decimal

/-! ## Lower bounds of sums -/

theorem add_le_value_add {x y : Float} {k n : ℕ} (x_defined : x.isNaN = false)
    (y_finite : y.isFinite = true) (low : (k : ℚ) ≤ value x) (low' : (n : ℚ) ≤ value y)
    (digits : k + n < 2 ^ 53) : ((k + n : ℕ) : ℚ) ≤ value (x + y) := by
  have k_digits : k < 2 ^ 53 := by omega
  have shifted := add_le_add_of_finite ((num_le_iff x_defined k_digits).2 low) y_finite
  obtain ⟨sum_defined, whole_defined⟩ := defined_of_le shifted
  have bound := (le_iff_value sum_defined whole_defined).1 shifted
  obtain ⟨exact, -⟩ := value_add (finite_num k_digits) y_finite
  rw [exact, value_num k_digits] at bound
  calc ((k + n : ℕ) : ℚ) = nearest64 (k + n : ℕ) := (nearest64_natCast digits).symm
    _ ≤ nearest64 (k + value y) := nearest64_mono (by push_cast; linarith)
    _ ≤ value (x + y) := bound

theorem nearestInt64_num {n : ℕ} (digits : n < 2 ^ 53) : nearestInt64 (num n) = n := by
  have value := value_num digits
  refine le_antisymm (nearestInt64_le value.le) (le_nearestInt64 (defined_num digits) ?_ value.ge)
  have word : halfWord = 2 ^ 63 := rfl
  omega

/-! ## Shares of a score -/

namespace Risk

theorem ofUtilization_nonneg {utilization : Float} (nonneg : num 0 ≤ utilization) :
    0 ≤ value (ofUtilization utilization).points := by
  have zero : value (num 0) = 0 := value_num (by norm_num)
  have thirty : value (num 30) = 30 := value_num (by norm_num)
  have hundred : value (num 100) = 100 := value_num (by norm_num)
  have scaled : num 0 * num 30 / num 100 ≤ utilization * num 30 / num 100 :=
    div_le_div_of_pos (mul_le_mul_of_pos nonneg (finite_num (by norm_num)) (by norm_num [thirty]))
      (finite_num (by norm_num)) (by norm_num [hundred])
  have start : (num 0 * num 30 / num 100 : Float) = num 0 := by decide
  rw [start] at scaled
  have share_nonneg : 0 ≤ value (least (utilization * num 30 / num 100) (num 30)) := by
    have scaled_defined := (defined_of_le scaled).2
    unfold least
    split_ifs with exceeds given
    · norm_num [thirty]
    · simpa [zero] using (le_iff_value (defined_num (by norm_num)) scaled_defined).1 scaled
    · norm_num [thirty]
  have share_defined := defined_least_num (utilization * num 30 / num 100) (n := 30) (by norm_num)
  show 0 ≤ value (num 0 + least (utilization * num 30 / num 100) (num 30))
  rcases finite_or_infinite share_defined with finite | infinite
  · obtain ⟨exact, -⟩ := value_add (finite_num (n := 0) (by norm_num)) finite
    rw [exact, zero, zero_add, ← Nat.cast_zero, ← nearest64_natCast (n := 0) (by norm_num)]
    exact nearest64_mono (by exact_mod_cast share_nonneg)
  · rwa [add_of_infinite_right (finite_num (by norm_num)) infinite]

theorem le_coincidenceBonus {issues : List Issue} {n : ℕ}
    (coincide : n = 0 ∨ n = 10 ∧ 0 < countOf .high issues ∧ 0 < countOf .medium issues) :
    (n : ℚ) ≤ value (coincidenceBonus issues) := by
  unfold coincidenceBonus
  dsimp only
  split_ifs with two both medium <;> rw [value_num (by norm_num), Nat.cast_le] <;> omega

end Risk

/-! ## Worth -/

/-- Whether all points of a rule are positive whole numbers, of at most three digits. -/
def Rule.Whole (rule : Rule Float) : Prop :=
  ∀ a ∈ rule.arms, ∃ n, 0 < n ∧ n < 1000 ∧ a.points = num n

/-- The points that a rule brings on a reading. -/
def Rule.worth (rule : Rule Float) (r : Reading Float) : ℕ :=
  ((rule.evaluate r).map fun o => (nearest o.points).toNat).getD 0

namespace Rule

variable {signal : Signal} {severity : Severity} {rule : Rule Float} {r : Reading Float}

@[simp] theorem worth_nil : Rule.worth ⟨signal, severity, []⟩ r = 0 := rfl

theorem worth_cons (a : Arm Float) (arms : List (Arm Float)) :
    Rule.worth ⟨signal, severity, a :: arms⟩ r =
      if a.trigger.fires r = true then (nearest a.points).toNat
      else Rule.worth ⟨signal, severity, arms⟩ r := by
  split_ifs with fires
  · rw [worth, evaluate_cons_of_fires fires]
    rfl
  · rw [worth, evaluate_cons_of_idle (Bool.eq_false_of_not_eq_true fires)]
    rfl

theorem worth_of_evaluate_none (idle : rule.evaluate r = none) : rule.worth r = 0 := by
  rw [worth, idle]
  rfl

theorem worth_of_evaluate (whole : rule.Whole) {o : Outcome Float}
    (fired : rule.evaluate r = some o) :
    0 < rule.worth r ∧ rule.worth r < 1000 ∧ o.points = num (rule.worth r) := by
  obtain ⟨a, a_mem, -, same⟩ := exists_arm_of_evaluate fired
  obtain ⟨n, pos, short, points⟩ := whole a a_mem
  have worth_eq : rule.worth r = n := by
    rw [worth, fired, same]
    show (nearestInt64 a.points).toNat = n
    rw [points, nearestInt64_num (by omega)]
    rfl
  rw [worth_eq, same]
  exact ⟨pos, short, points⟩

theorem evaluate_isSome_iff (whole : rule.Whole) : (rule.evaluate r).isSome ↔ 0 < rule.worth r := by
  cases fired : rule.evaluate r with
  | none => simp [worth_of_evaluate_none fired]
  | some o => simp [(worth_of_evaluate whole fired).1]

theorem issue_of_evaluate {o : Outcome Float} (fired : rule.evaluate r = some o) :
    o.issue.metric = rule.signal ∧ o.issue.severity = rule.severity := by
  obtain ⟨a, -, -, rfl⟩ := exists_arm_of_evaluate fired
  exact ⟨rfl, rfl⟩

end Rule

/-! ## Worth and score -/

namespace Engine

variable {rules : List (Rule Float)} {readings : Signal → Reading Float}

/-- The worths of rules, each on the reading of its signal. -/
def worths (rules : List (Rule Float)) (readings : Signal → Reading Float) : List ℕ :=
  rules.map fun rule => rule.worth (readings rule.signal)

theorem length_outcomes (whole : ∀ rule ∈ rules, rule.Whole) :
    (outcomes rules readings).length = (worths rules readings).countP (0 < ·) := by
  rw [outcomes, List.length_filterMap_eq_countP, worths, List.countP_map]
  refine List.countP_congr fun rule mem => ?_
  rw [Rule.evaluate_isSome_iff (whole rule mem)]
  simp

/-- The points that the rules for a signal and a severity bring together. -/
def worthAt (rules : List (Rule Float)) (readings : Signal → Reading Float) (signal : Signal)
    (severity : Severity) : ℕ :=
  (worths (rules.filter fun rule => rule.signal = signal ∧ rule.severity = severity) readings).sum

/-- What is raised can be told from the worths. -/
theorem exists_outcome_iff (whole : ∀ rule ∈ rules, rule.Whole) (signal : Signal)
    (severity : Severity) :
    (∃ o ∈ outcomes rules readings, o.issue.metric = signal ∧ o.issue.severity = severity) ↔
      0 < worthAt rules readings signal severity := by
  rw [worthAt, Nat.pos_iff_ne_zero, Ne, List.sum_eq_zero_iff]
  push Not
  constructor
  · rintro ⟨o, mem, rfl, rfl⟩
    obtain ⟨rule, rule_mem, fired⟩ := List.mem_filterMap.1 mem
    obtain ⟨metric, severity⟩ := Rule.issue_of_evaluate fired
    refine ⟨_, List.mem_map_of_mem (List.mem_filter.2 ⟨rule_mem, ?_⟩),
      (Rule.worth_of_evaluate (whole rule rule_mem) fired).1.ne'⟩
    exact decide_eq_true ⟨metric.symm, severity.symm⟩
  · rintro ⟨_, mem, nonzero⟩
    obtain ⟨rule, kept, rfl⟩ := List.mem_map.1 mem
    obtain ⟨rule_mem, same⟩ := List.mem_filter.1 kept
    obtain ⟨rfl, rfl⟩ := of_decide_eq_true same
    obtain ⟨o, fired⟩ := Option.isSome_iff_exists.1
      ((Rule.evaluate_isSome_iff (whole rule rule_mem)).2 (Nat.pos_of_ne_zero nonzero))
    exact ⟨o, List.mem_filterMap.2 ⟨rule, rule_mem, fired⟩, Rule.issue_of_evaluate fired⟩

/-- **The worth of rules.**  Taking in the outcomes of rules adds at least what they are worth. -/
theorem sum_worths_le_value (whole : ∀ rule ∈ rules, rule.Whole) {risk : Risk Float} {k : ℕ}
    (start : risk.points.isNaN = false) (low : (k : ℚ) ≤ value risk.points)
    (digits : k + (worths rules readings).sum < 2 ^ 53) :
    ((k + (worths rules readings).sum : ℕ) : ℚ) ≤
      value ((outcomes rules readings).foldl Risk.absorb risk).points := by
  rw [foldl_outcomes]
  induction rules generalizing risk k with
  | nil => simpa [worths] using low
  | cons rule rules ih =>
    rw [List.forall_mem_cons] at whole
    rw [worths, List.map_cons, List.sum_cons, ← worths, ← add_assoc] at digits ⊢
    rw [List.foldl_cons]
    cases fired : rule.evaluate (readings rule.signal) with
    | none =>
      rw [Rule.worth_of_evaluate_none fired, add_zero] at digits ⊢
      exact ih whole.2 start low digits
    | some o =>
      obtain ⟨-, short, points⟩ := Rule.worth_of_evaluate whole.1 fired
      have finite : o.points.isFinite = true := points ▸ finite_num (by omega)
      refine ih whole.2 ?_ ?_ digits
      · rw [Option.elim_some, Risk.points_absorb]
        exact defined_add start finite
      · rw [Option.elim_some, Risk.points_absorb]
        exact add_le_value_add start finite low (by rw [points, value_num (by omega)]) (by omega)

theorem finite_outcome (whole : ∀ rule ∈ rules, rule.Whole) :
    ∀ o ∈ outcomes rules readings, o.points.isFinite = true := by
  intro o mem
  obtain ⟨rule, rule_mem, fired⟩ := List.mem_filterMap.1 mem
  obtain ⟨-, short, points⟩ := Rule.worth_of_evaluate (whole rule rule_mem) fired
  exact points ▸ finite_num (by omega)

/-- The score of a load that is not negative, with the bonus for coinciding issues. -/
theorem le_value_ofOutcomes (whole : ∀ rule ∈ rules, rule.Whole) {utilization : Float} {bonus : ℕ}
    (nonneg : num 0 ≤ utilization)
    (coincide : bonus = 0 ∨ bonus = 10 ∧
      (∃ signal, 0 < worthAt rules readings signal .high) ∧
      ∃ signal, 0 < worthAt rules readings signal .medium)
    (digits : (worths rules readings).sum + bonus < 2 ^ 53) :
    (((worths rules readings).sum + bonus : ℕ) : ℚ) ≤
      value (Risk.ofOutcomes utilization (outcomes rules readings)).points := by
  have counted {severity : Severity}
      (raised : ∃ signal, 0 < worthAt rules readings signal severity) :
      0 < countOf severity
        ((outcomes rules readings).foldl Risk.absorb (.ofUtilization utilization)).issues := by
    obtain ⟨signal, pos⟩ := raised
    obtain ⟨o, mem, -, same⟩ := (exists_outcome_iff whole signal severity).2 pos
    refine List.countP_pos_iff.2 ⟨o.issue, ?_, decide_eq_true same⟩
    rw [Risk.issues_foldl_absorb]
    exact List.mem_append_right _ (List.mem_map_of_mem mem)
  have start := Risk.defined_ofUtilization utilization
  have sum := @sum_worths_le_value rules readings whole _ 0 start
    (by simpa using Risk.ofUtilization_nonneg nonneg) (by omega)
  rw [zero_add] at sum
  refine add_le_value_add ?_ (Risk.finite_coincidenceBonus _) sum
    (Risk.le_coincidenceBonus (coincide.imp_right fun h => ⟨h.1, counted h.2.1, counted h.2.2⟩))
    digits
  exact Risk.defined_foldl_absorb (finite_outcome whole) start

end Engine

end Prognosis
