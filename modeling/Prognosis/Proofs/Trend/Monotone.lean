import Prognosis.Proofs.Rule
import Prognosis.Proofs.Trend.LeastSquares

/-!
# Trends of signals that never rise

Over exact fractions the slope of a series has the sign of a sum over all pairs of its values, each
pair counting with the sign of its own slope (`slope_mul_spread_eq_sum_pairs`).  So a series that
never rises has no positive slope, and only a constant one has none at all.  A rule whose trending
arms ask for no fall stays calm on such a signal (`never_rising_is_calm`).
-/

namespace Prognosis

open Scalar

namespace Trend

/-! ## Pairs of values -/

/-- Summed over all pairs of indices, the products of two differences make the covariance. -/
theorem sum_pairs_eq {n : ℕ} (x y : Fin n → ℚ) :
    ∑ i, ∑ j, (x j - x i) * (y j - y i) =
      2 * (n * ∑ i, x i * y i - (∑ i, x i) * ∑ i, y i) := by
  have expand (i j : Fin n) :
      (x j - x i) * (y j - y i) = x j * y j + x i * y i - x i * y j - x j * y i := by ring
  simp only [expand, Finset.sum_sub_distrib, Finset.sum_add_distrib, Finset.sum_const,
    Finset.card_univ, Fintype.card_fin, nsmul_eq_mul, ← Finset.mul_sum, ← Finset.sum_mul]
  ring

/-- What two values of a series say of its slope: positive where the later one is higher. -/
def pair (ys : List ℚ) (i j : Fin ys.length) : ℚ := ((j : ℚ) - i) * (ys.get j - ys.get i)

theorem slope_mul_spread_eq_sum_pairs {ys : List ℚ} (two : 2 ≤ ys.length) :
    slope ys * (2 * ((ys.length : ℚ) ^ 2 * (ys.length ^ 2 - 1) / 12)) =
      ∑ i, ∑ j, pair ys i j := by
  have normal := slope_mul_spread two
  have spread := spread_eq ys
  rw [num_rat] at spread
  have pairs : ∑ i, ∑ j, pair ys i j =
      2 * (ys.length * ∑ i : Fin ys.length, (i : ℚ) * ys[i] -
        (∑ i : Fin ys.length, (i : ℚ)) * ∑ i : Fin ys.length, ys[i]) :=
    sum_pairs_eq (fun i => (i : ℚ)) ys.get
  rw [spread, sums_eq] at normal
  rw [pairs, ← normal]
  ring

section

variable {ys : List ℚ}

theorem pair_nonneg (rising : ys.Pairwise (· ≤ ·)) (i j : Fin ys.length) : 0 ≤ pair ys i j := by
  rw [List.pairwise_iff_getElem] at rising
  rcases lt_trichotomy i j with less | rfl | greater
  · have later : (i : ℚ) ≤ j := by exact_mod_cast less.le
    have higher : ys[i] ≤ ys[j] := rising i j i.2 j.2 less
    exact mul_nonneg (sub_nonneg.2 later) (sub_nonneg.2 higher)
  · rw [pair, sub_self, zero_mul]
  · have earlier : (j : ℚ) ≤ i := by exact_mod_cast greater.le
    have lower : ys[j] ≤ ys[i] := rising j i j.2 i.2 greater
    exact mul_nonneg_of_nonpos_of_nonpos (sub_nonpos.2 earlier) (sub_nonpos.2 lower)

theorem pair_nonpos (falling : ys.Pairwise (· ≥ ·)) (i j : Fin ys.length) : pair ys i j ≤ 0 := by
  rw [List.pairwise_iff_getElem] at falling
  rcases lt_trichotomy i j with less | rfl | greater
  · have later : (i : ℚ) ≤ j := by exact_mod_cast less.le
    have lower : ys[i] ≥ ys[j] := falling i j i.2 j.2 less
    exact mul_nonpos_of_nonneg_of_nonpos (sub_nonneg.2 later) (sub_nonpos.2 lower)
  · rw [pair, sub_self, zero_mul]
  · have earlier : (j : ℚ) ≤ i := by exact_mod_cast greater.le
    have higher : ys[j] ≥ ys[i] := falling j i j.2 i.2 greater
    exact mul_nonpos_of_nonpos_of_nonneg (sub_nonpos.2 earlier) (sub_nonneg.2 higher)

/-! ## Signs of slopes -/

theorem slope_nonneg (rising : ys.Pairwise (· ≤ ·)) : 0 ≤ slope ys := by
  by_cases two : 2 ≤ ys.length
  · have sum := slope_mul_spread_eq_sum_pairs two
    have nonneg : 0 ≤ ∑ i, ∑ j, pair ys i j :=
      Finset.sum_nonneg fun i _ => Finset.sum_nonneg fun j _ => pair_nonneg rising i j
    rw [← sum] at nonneg
    exact nonneg_of_mul_nonneg_left nonneg (mul_pos two_pos (spread_pos two))
  · rw [slope, if_pos (by omega)]
    exact le_rfl

theorem slope_nonpos (falling : ys.Pairwise (· ≥ ·)) : slope ys ≤ 0 := by
  by_cases two : 2 ≤ ys.length
  · have sum := slope_mul_spread_eq_sum_pairs two
    have nonpos : ∑ i, ∑ j, pair ys i j ≤ 0 :=
      Finset.sum_nonpos fun i _ => Finset.sum_nonpos fun j _ => pair_nonpos falling i j
    rw [← sum] at nonpos
    exact nonpos_of_mul_nonpos_left nonpos (mul_pos two_pos (spread_pos two))
  · rw [slope, if_pos (by omega)]
    exact le_rfl

/-- Without a slope, no pair of a monotone series says anything. -/
theorem pair_eq_zero (two : 2 ≤ ys.length)
    (monotone : ys.Pairwise (· ≥ ·) ∨ ys.Pairwise (· ≤ ·)) (level : slope ys = 0)
    (i j : Fin ys.length) : pair ys i j = 0 := by
  have sum := slope_mul_spread_eq_sum_pairs two
  rw [level, zero_mul, ← Fintype.sum_prod_type'] at sum
  rcases monotone with falling | rising
  · exact (Finset.sum_eq_zero_iff_of_nonpos fun p _ => pair_nonpos falling p.1 p.2).1 sum.symm
      (i, j) (Finset.mem_univ _)
  · exact (Finset.sum_eq_zero_iff_of_nonneg fun p _ => pair_nonneg rising p.1 p.2).1 sum.symm
      (i, j) (Finset.mem_univ _)

theorem constant_of_slope_eq_zero (two : 2 ≤ ys.length)
    (monotone : ys.Pairwise (· ≥ ·) ∨ ys.Pairwise (· ≤ ·)) (level : slope ys = 0) :
    ∀ y ∈ ys, ∀ z ∈ ys, y = z := by
  have first (i : ℕ) (lt : i < ys.length) : ys[i] = ys[0] := by
    rcases Nat.eq_zero_or_pos i with rfl | later
    · rfl
    · have zero := pair_eq_zero two monotone level ⟨0, by omega⟩ ⟨i, lt⟩
      rw [pair, mul_eq_zero] at zero
      have apart : ((i : ℕ) : ℚ) - (0 : ℕ) ≠ 0 := by
        rw [Nat.cast_zero, sub_zero]
        exact_mod_cast later.ne'
      exact sub_eq_zero.1 (zero.resolve_left apart)
  intro y y_mem z z_mem
  obtain ⟨i, i_lt, rfl⟩ := List.getElem_of_mem y_mem
  obtain ⟨j, j_lt, rfl⟩ := List.getElem_of_mem z_mem
  exact (first i i_lt).trans (first j j_lt).symm

end

end Trend

/-! ## Rules on such signals -/

/-- Whether a rule takes no falling signal for a trend: no trending arm has a negative threshold. -/
def Rule.AsksNoFall (rule : Rule ℚ) : Prop :=
  ∀ a ∈ rule.arms, ∀ minTrend minCurrent,
    a.trigger = .trending minTrend minCurrent → 0 ≤ minTrend

theorem Rule.AsksNoFall.idle {rule : Rule ℚ} (asks : rule.AsksNoFall) {r : Reading ℚ}
    (level : r.trend ≤ 0) : ∀ a ∈ rule.arms, a.trigger.isTrending = true →
      a.trigger.fires r = false := by
  intro a mem trending
  cases trigger : a.trigger with
  | elevated minCurrent =>
    rw [trigger] at trending
    cases trending
  | trending minTrend minCurrent =>
    have threshold := asks a mem minTrend minCurrent trigger
    have not_above : ¬ minTrend < r.trend := by linarith
    rw [Trigger.fires, decide_eq_false not_above, Bool.false_and]

/-- **Signals that never rise.**  Over exact fractions, a series that never rises has no positive
slope, one that never falls no negative one, and of these only a constant series of two or more
values has none.  Under rules that ask for no fall, what is found about a signal that never rises in
its window comes from arms for a level, projects no crossing and is not called degrading. -/
theorem never_rising_is_calm :
    (∀ ys : List ℚ, ys.Pairwise (· ≥ ·) → Trend.slope ys ≤ 0) ∧
      (∀ ys : List ℚ, ys.Pairwise (· ≤ ·) → 0 ≤ Trend.slope ys) ∧
      (∀ ys : List ℚ, 2 ≤ ys.length → ys.Pairwise (· ≥ ·) ∨ ys.Pairwise (· ≤ ·) →
        Trend.slope ys = 0 → ∀ y ∈ ys, ∀ z ∈ ys, y = z) ∧
      ∀ (rules : List (Rule ℚ)) (readings : Signal → Reading ℚ) (perHour : ℚ) (signal : Signal)
        (window : List ℚ), (∀ rule ∈ rules, rule.AsksNoFall) → 0 < perHour →
        window.Pairwise (· ≥ ·) → readings signal = .ofSeries perHour window →
        ∀ o ∈ Engine.outcomes rules readings, o.issue.metric = signal →
          ∃ rule ∈ rules, rule.signal = signal ∧ rule.CalmOn (readings signal) o := by
  refine ⟨fun _ => Trend.slope_nonpos, fun _ => Trend.slope_nonneg,
    fun _ => Trend.constant_of_slope_eq_zero, ?_⟩
  rintro rules readings perHour signal window asks pos falling reading o found rfl
  obtain ⟨rule, mem, fired⟩ := List.mem_filterMap.1 found
  have metric : o.issue.metric = rule.signal := by
    obtain ⟨a, -, rfl⟩ := Rule.evaluate_eq_some_iff.1 fired
    rfl
  rw [metric] at reading ⊢
  have level : (readings rule.signal).trend ≤ 0 := by
    rw [reading]
    exact mul_nonpos_of_nonpos_of_nonneg (Trend.slope_nonpos falling) pos.le
  exact ⟨rule, mem, rfl,
    Rule.calm_of_not_rising (not_lt.2 level) ((asks rule mem).idle level) fired⟩

/-- A processor that falls from 90 to 80 percent, under a rule for its rise and for its level. -/
theorem never_rising_is_calm_of_busy_processor :
    let rise : Arm ℚ := ⟨.trending 0 50, 10, some 90, "rising"⟩
    let level : Arm ℚ := ⟨.elevated 70, 20, some 90, "busy"⟩
    let rule : Rule ℚ := ⟨.cpu, .medium, [rise, level]⟩
    let window : List ℚ := [90, 85, 85, 80]
    let readings (_ : Signal) : Reading ℚ := .ofSeries 12 window
    rule.AsksNoFall ∧ window.Pairwise (· ≥ ·) ∧ Trend.slope window ≤ 0 ∧
      ∃ o ∈ Engine.outcomes [rule] readings, rule.CalmOn (readings .cpu) o := by
  intro rise level rule window readings
  have asks : rule.AsksNoFall := by
    intro a mem minTrend minCurrent trigger
    rcases List.mem_pair.1 mem with rfl | rfl
    · cases trigger
      exact le_rfl
    · cases trigger
  have falling : window.Pairwise (· ≥ ·) := by norm_num [window]
  obtain ⟨nonpos, -, -, calm⟩ := never_rising_is_calm
  have idle : rise.trigger.fires (readings .cpu) = false :=
    asks.idle (mul_nonpos_of_nonpos_of_nonneg (nonpos window falling) (by norm_num)) rise
      List.mem_cons_self rfl
  have fires : level.trigger.fires (readings .cpu) = true :=
    decide_eq_true (show (70 : ℚ) < 80 by norm_num)
  have found : rule.outcome level (readings .cpu) ∈ Engine.outcomes [rule] readings :=
    List.mem_filterMap.2 ⟨rule, List.mem_singleton_self _,
      (Rule.evaluate_cons_of_idle idle).trans (Rule.evaluate_cons_of_fires fires)⟩
  obtain ⟨_, mem, -, tells⟩ := calm [rule] readings 12 .cpu window
    (List.forall_mem_singleton.2 asks) (by norm_num) falling rfl _ found rfl
  rw [List.mem_singleton.1 mem] at tells
  exact ⟨asks, falling, nonpos window falling, _, found, tells⟩

end Prognosis
