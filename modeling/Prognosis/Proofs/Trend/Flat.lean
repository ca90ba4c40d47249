import Prognosis.Proofs.Rule
import Prognosis.Proofs.Trend.Noise

/-!
# Trends of constant signals

In exact arithmetic a constant signal has no trend.  In binary64 arithmetic the two products whose
difference makes the slope come from differently rounded sums and need not cancel
(`Engine.degrading_of_constant_processor`).  What is left of them is rounding noise, and nothing is
left where the sums have few enough digits to be exact (`Engine.trend_of_constant`).
-/

namespace Prognosis

open Scalar Binary64

namespace Trend

/-! ## Constants of few digits -/

/-- A number whose digits leave room for the sums of so many indices. -/
def FewDigits (n : ℕ) (c : Float) : Prop :=
  ∃ k e : ℤ, value c = k * 2 ^ e ∧ -1074 ≤ e ∧ n ^ 2 * |k| < 2 ^ 53

section

variable {n : ℕ} {c : Float} (moderate : Moderate n c)

include moderate

/-- Multiples of such a number are exact. -/
theorem exactly_multiple {k e : ℤ} (exact_value : value c = k * 2 ^ e) (least : -1074 ≤ e)
    (room : n ^ 2 * |k| < 2 ^ 53) {x : Float} {i : ℕ} (le : i ≤ n) (x_defined : x.isNaN = false)
    (rounded : value x = nearest64 (i * value c)) :
    Exactly x (i * k) e ∧ |(i * k : ℤ)| ≤ n * |k| := by
  have size : |(i * k : ℤ)| ≤ n * |k| := by
    rw [abs_mul, Nat.abs_cast]
    exact mul_le_mul_of_nonneg_right (by exact_mod_cast le) (abs_nonneg k)
  have square : (n * |k| : ℤ) ≤ n ^ 2 * |k| :=
    mul_le_mul_of_nonneg_right (by exact_mod_cast Nat.le_self_pow two_ne_zero n) (abs_nonneg k)
  have scaled : ((i * k : ℤ) * 2 ^ e : ℚ) = i * value c := by
    rw [exact_value]
    push_cast
    ring
  have small : |((i * k : ℤ) * 2 ^ e : ℚ)| ≤ edge / 2 := by
    rw [scaled, abs_mul, Nat.abs_cast]
    linarith [multiple_le moderate le, edge_pos]
  rw [← scaled] at rounded
  exact ⟨exactly_of_value x_defined rounded (by omega) least small, size⟩

theorem value_runningSum {f : ℕ → Float} {g : ℕ → ℕ} (digits : FewDigits n c)
    (g_le : ∀ i < n, g i ≤ n)
    (terms : ∀ i < n, (f i).isNaN = false ∧ value (f i) = nearest64 (g i * value c)) :
    value (runningSum f n) = (∑ i ∈ Finset.range n, (g i : ℚ)) * value c := by
  obtain ⟨k, e, exact_value, least, room⟩ := digits
  have step := two_zpow_pos e
  have multiple {i : ℕ} (lt : i < n) :=
    exactly_multiple moderate exact_value least room (g_le i lt) (terms i lt).1 (terms i lt).2
  have total : ∑ i ∈ Finset.range n, |(g i * k : ℤ)| ≤ n ^ 2 * |k| := by
    calc ∑ i ∈ Finset.range n, |(g i * k : ℤ)| ≤ ∑ i ∈ Finset.range n, (n * |k| : ℤ) :=
          Finset.sum_le_sum fun i mem => (multiple (Finset.mem_range.1 mem)).2
      _ = n ^ 2 * |k| := by
          rw [Finset.sum_const, Finset.card_range, nsmul_eq_mul]
          ring
  have small : ((∑ i ∈ Finset.range n, |(g i * k : ℤ)| : ℤ) * 2 ^ e : ℚ) ≤ edge / 2 := by
    have scaled : ((n ^ 2 * |k| : ℤ) * 2 ^ e : ℚ) = n ^ 2 * |value c| := by
      rw [exact_value, abs_mul, abs_of_pos step]
      push_cast
      ring
    calc ((∑ i ∈ Finset.range n, |(g i * k : ℤ)| : ℤ) * 2 ^ e : ℚ)
        ≤ (n ^ 2 * |k| : ℤ) * 2 ^ e :=
          mul_le_mul_of_nonneg_right (by exact_mod_cast total) step.le
      _ ≤ n ^ 3 * |value c| := by
          rw [scaled]
          exact mul_le_mul_of_nonneg_right (square_le_cube n) (abs_nonneg _)
      _ ≤ edge / 2 := by linarith [moderate.small, edge_pos]
  have sum := exactly_runningSum least (fun i lt => (multiple lt).1) (by omega) small
  rw [sum.value_eq, Int.cast_sum, Finset.sum_mul, Finset.sum_mul, exact_value]
  refine Finset.sum_congr rfl fun i _ => ?_
  push_cast
  ring

/-- **No noise.**  Where the sums of a constant series are exact, it has no slope. -/
theorem value_slope_eq_zero (digits : FewDigits n c) :
    (slope (List.replicate n c)).isFinite = true ∧ value (slope (List.replicate n c)) = 0 := by
  by_cases two : 2 ≤ n
  · have few := moderate.few
    have product : value (flatSums n c).product = n.choose 2 * value c := by
      rw [← sum_range_index]
      refine value_runningSum moderate digits (fun i lt => Nat.le_of_lt lt) fun i lt => ?_
      have index := exactly_num few (Nat.le_of_lt lt)
      obtain ⟨rounded, defined⟩ := value_mul index.finite moderate.finite
      rw [value_num (by omega)] at rounded
      exact ⟨defined, rounded⟩
    have total : value (flatSums n c).value = n * value c := by
      have once := value_runningSum moderate (f := fun _ => c) (g := fun _ => 1) digits
        (fun i lt => by omega)
        (fun i _ => ⟨defined_of_finite moderate.finite, by simp [nearest64_value moderate.finite]⟩)
      unfold flatSums
      simpa using once
    obtain ⟨index_finite, exact_index⟩ := value_index few c
    obtain ⟨first, -⟩ := value_mul (exactly_num few le_rfl).finite (near_product moderate).finite
    obtain ⟨second, -⟩ := value_mul index_finite (near_value moderate).finite
    rw [value_num (by omega), product] at first
    rw [exact_index, total] at second
    -- Both products round the same exact number.
    have same : value (num n * (flatSums n c).product) =
        value ((flatSums n c).index * (flatSums n c).value) := by
      rw [first, second]
      congr 1
      ring
    have none_left : value (covariance n c) = 0 := by
      obtain ⟨difference, -⟩ :=
        value_sub (near_scaled_product moderate).finite (near_index_value moderate).finite
      rw [covariance, difference, same, sub_self, nearest64_zero]
    obtain ⟨spread_finite, large⟩ := spread_large few two c
    have fourth : (0 : ℚ) < n ^ 4 / 25 := by
      have : 0 < n := by omega
      positivity
    obtain ⟨quotient, -⟩ := value_div (near_covariance moderate two).finite spread_finite
      (fourth.trans_le large).ne'
    refine ⟨(abs_slope_le moderate two).1, ?_⟩
    rw [slope_replicate two, quotient, none_left, zero_div, nearest64_zero]
  · -- A series of fewer than two values is flat by definition.
    rw [slope, List.length_replicate, if_pos (by omega)]
    exact ⟨finite_num (by norm_num), by rw [value_num (by norm_num), Nat.cast_zero]⟩

theorem value_hourly_eq_zero (digits : FewDigits n c) {perHour : Float}
    (cadence_finite : perHour.isFinite = true) :
    value (hourly perHour (List.replicate n c)) = 0 := by
  obtain ⟨slope_finite, level⟩ := value_slope_eq_zero moderate digits
  rw [hourly, (value_mul slope_finite cadence_finite).1, level, zero_mul, nearest64_zero]

end

end Trend

/-! ## Reports on constant signals -/

/-- Without a trend nothing is projected, and an arm for a level reports a stable signal. -/
theorem Rule.calm_of_no_trend (rule : Rule Float) (a : Arm Float) {r : Reading Float}
    (defined : r.trend.isNaN = false) (level : value r.trend = 0) :
    (rule.outcome a r).hours = none ∧
      (a.trigger.isTrending = false → (rule.outcome a r).issue.trend = .stable) := by
  have not_rising : ¬ num 0 < r.trend := by
    rw [num_lt_iff defined (by norm_num), level, Nat.cast_zero]
    exact lt_irrefl _
  have not_falling : ¬ r.trend < num 0 := by
    rw [lt_num_iff defined (by norm_num), level, Nat.cast_zero]
    exact lt_irrefl _
  refine ⟨Arm.crossing?_of_not_rising not_rising, fun for_level => ?_⟩
  unfold outcome finding
  rw [for_level]
  show Direction.ofRate r.trend = .stable
  rw [Direction.ofRate, if_neg not_rising, if_neg not_falling]

namespace Engine

theorem trend_reading_of_constant {t : Tuning Float} {window : List Sample} {signal : Signal}
    {c : Float} (constant : ∀ s ∈ window, signal.value s = c) :
    (reading t window signal).trend =
      Trend.hourly t.samplesPerHour (List.replicate window.length c) := by
  have series : window.map signal.value = List.replicate window.length c := by
    rw [List.eq_replicate_iff, List.length_map]
    refine ⟨rfl, fun y mem => ?_⟩
    obtain ⟨s, s_mem, rfl⟩ := List.mem_map.1 mem
    exact constant s s_mem
  rw [← series]
  rfl

/-- **Constant signals.**  The trend of a signal that does not change is within rounding noise of
zero, and no arm for a trend above that noise fires.  If the value has few digits there is no noise:
no crossing is projected, and arms for a level report a stable signal. -/
theorem trend_of_constant (e : Engine Float) (history : List Sample) (signal : Signal) {c : Float}
    (constant : ∀ s ∈ lastOf e.tuning.window history, signal.value s = c)
    (moderate : Trend.Moderate (lastOf e.tuning.window history).length c)
    (cadence_finite : e.tuning.samplesPerHour.isFinite = true)
    (cadence_pos : 0 < e.tuning.samplesPerHour) :
    let readings := reading e.tuning (lastOf e.tuning.window history)
    let noise := |value c| * value e.tuning.samplesPerHour / 2 ^ 44
    (readings signal).trend.isNaN = false ∧ |value (readings signal).trend| ≤ noise ∧
      (∀ minTrend minCurrent, (Trigger.trending minTrend minCurrent).fires (readings signal) →
        value minTrend < noise) ∧
      (Trend.FewDigits (lastOf e.tuning.window history).length c →
        value (readings signal).trend = 0 ∧
          ∀ o ∈ outcomes e.rules readings, o.issue.metric = signal →
            o.hours = none ∧
              ∃ rule ∈ e.rules, ∃ a, rule.DecidedBy (readings signal) a ∧
                o = rule.outcome a (readings signal) ∧
                (a.trigger.isTrending = false → o.issue.trend = .stable)) := by
  intro readings noise
  have trend := trend_reading_of_constant (t := e.tuning) constant
  have cadence : 0 < value e.tuning.samplesPerHour := by
    have cadence_defined := defined_of_finite cadence_finite
    have above := (num_lt_iff (n := 0) cadence_defined (by norm_num)).1 cadence_pos
    rwa [Nat.cast_zero] at above
  obtain ⟨defined, small⟩ := Trend.abs_hourly_le moderate cadence_finite cadence.le
  rw [← trend] at defined small
  refine ⟨defined, small, ?_, ?_⟩
  · intro minTrend minCurrent fires
    rw [Trigger.fires, Bool.and_eq_true, decide_eq_true_iff] at fires
    have less := (lt_iff_value (defined_of_lt fires.1).1 defined).1 fires.1
    exact less.trans_le ((le_abs_self _).trans small)
  · intro digits
    have level : value (readings signal).trend = 0 := by
      rw [trend]
      exact Trend.value_hourly_eq_zero moderate digits cadence_finite
    refine ⟨level, ?_⟩
    rintro o found rfl
    obtain ⟨rule, mem, fired⟩ := List.mem_filterMap.1 found
    obtain ⟨a, decides, rfl⟩ := Rule.evaluate_eq_some_iff.1 fired
    obtain ⟨hours, stable⟩ := rule.calm_of_no_trend a defined level
    exact ⟨hours, rule, mem, a, decides, rfl, stable⟩

/-- A processor that stays at 95 percent, under a rule for its level. -/
theorem trend_of_constant_of_busy_processor :
    let busy : Arm Float := ⟨.elevated (num 90), num 20, some (num 100), "busy"⟩
    let e : Engine Float := ⟨.standard, [⟨.cpu, .high, [busy]⟩]⟩
    let history := List.replicate 12 { Sample.empty with cpuUsage := num 95 }
    let readings := reading e.tuning (lastOf e.tuning.window history)
    value (readings .cpu).trend = 0 ∧
      ∃ o ∈ outcomes e.rules readings, o.hours = none ∧ o.issue.trend = .stable := by
  intro busy e history readings
  have exact_value : value (num 95) = 95 := value_num (by norm_num)
  have less {m n : ℕ} (lt : m < n) (digits : n < 2 ^ 53) : (num m : Float) < num n := by
    rw [num_lt_iff (defined_num digits) (lt.trans digits), value_num digits]
    exact_mod_cast lt
  have moderate : Trend.Moderate 12 (num 95) := by
    constructor
    case finite => exact finite_num (by norm_num)
    case few => norm_num
    case small =>
      rw [exact_value]
      exact le_trans (by norm_num) two_pow_le_edge
  have digits : Trend.FewDigits 12 (num 95) :=
    ⟨95, 0, by rw [exact_value]; norm_num, by norm_num, by norm_num⟩
  have constant : ∀ s ∈ lastOf e.tuning.window history, Signal.cpu.value s = num 95 := by
    intro s mem
    rw [List.eq_of_mem_replicate (List.mem_of_mem_drop mem)]
    rfl
  obtain ⟨-, -, -, no_noise⟩ := trend_of_constant e history .cpu constant moderate
    (finite_num (by norm_num)) (less (m := 0) (n := 12) (by norm_num) (by norm_num))
  obtain ⟨level, calm⟩ := no_noise digits
  have fires : busy.trigger.fires (readings .cpu) = true :=
    decide_eq_true (less (m := 90) (n := 95) (by norm_num) (by norm_num))
  have found : Rule.outcome ⟨.cpu, .high, []⟩ busy (readings .cpu) ∈ outcomes e.rules readings :=
    List.mem_filterMap.2 ⟨_, List.mem_singleton_self _, Rule.evaluate_cons_of_fires fires⟩
  obtain ⟨hours, rule, mem, a, decides, -, stable⟩ := calm _ found rfl
  rw [List.mem_singleton.1 mem] at decides
  rw [List.mem_singleton.1 decides.mem] at stable
  exact ⟨level, _, found, hours, stable rfl⟩

/-- A processor that stays at 99.9 percent: its sums are finite, and yet its trend is positive and
is reported as degrading. -/
theorem degrading_of_constant_processor :
    let history := List.replicate 12 { Sample.empty with cpuUsage := 99.9 }
    let series : List Float := List.replicate 12 99.9
    let sums := Trend.sums series
    (sums.index.isFinite ∧ sums.value.isFinite ∧ sums.product.isFinite ∧ sums.square.isFinite) ∧
      0 < Trend.hourly 12 series ∧
      ((standard : Engine Float).predict history).issues.map (fun issue => issue.trend) =
        [.degrading, .degrading] := by
  decide +kernel

end Engine

end Prognosis
