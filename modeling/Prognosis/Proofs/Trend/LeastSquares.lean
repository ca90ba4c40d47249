import Mathlib.Algebra.BigOperators.Fin
import Mathlib.Algebra.BigOperators.Field
import Mathlib.Algebra.Order.BigOperators.Ring.Finset
import Mathlib.Tactic.FieldSimp
import Mathlib.Tactic.Linarith
import Mathlib.Tactic.LinearCombination
import Mathlib.Tactic.Positivity
import Mathlib.Tactic.Ring
import Prognosis.Engine
import Prognosis.Proofs.Decimal.Fixed

/-!
# The trend as a least-squares slope

Over exact fractions the running sums of a trend are sums over the indices of the series
(`sums_eq`).  So the slope is that of a line from which the series deviates as much upwards as
downwards, also when deviations are weighted by their indices.  Any other line deviates by more, by
the squares of its distances from that line (`deviation_eq`).
-/

namespace Prognosis.Trend

open Scalar

/-! ## Running sums -/

theorem addFrom_eq (s : Sums ℚ) (i : ℕ) (ys : List ℚ) :
    s.addFrom i ys =
      ⟨s.index + ∑ j : Fin ys.length, (i + j : ℚ),
        s.value + ∑ j : Fin ys.length, ys[j],
        s.product + ∑ j : Fin ys.length, (i + j : ℚ) * ys[j],
        s.square + ∑ j : Fin ys.length, (i + j : ℚ) * (i + j)⟩ := by
  induction ys generalizing s i with
  | nil => simp [Sums.addFrom]
  | cons y ys ih =>
    rw [Sums.addFrom, ih, Sums.add]
    have shift (j : Fin ys.length) : (i + 1 : ℚ) + j = i + (j + 1) := by ring
    simp [Fin.sum_univ_succ, shift, add_assoc]

/-- The running sums of a series. -/
theorem sums_eq (ys : List ℚ) :
    sums ys =
      ⟨∑ i : Fin ys.length, (i : ℚ), ∑ i : Fin ys.length, ys[i],
        ∑ i : Fin ys.length, (i : ℚ) * ys[i], ∑ i : Fin ys.length, (i : ℚ) * i⟩ := by
  simp [sums, addFrom_eq, Sums.zero]

/-! ## Sums of indices -/

theorem sum_index (n : ℕ) : ∑ i : Fin n, (i : ℚ) = n * (n - 1) / 2 := by
  induction n with
  | zero => simp
  | succ n ih =>
    rw [Fin.sum_univ_castSucc]
    simp only [Fin.val_castSucc, Fin.val_last, ih]
    push_cast
    ring

theorem sum_square (n : ℕ) : ∑ i : Fin n, (i : ℚ) * i = n * (n - 1) * (2 * n - 1) / 6 := by
  induction n with
  | zero => simp
  | succ n ih =>
    rw [Fin.sum_univ_castSucc]
    simp only [Fin.val_castSucc, Fin.val_last, ih]
    push_cast
    ring

theorem spread_eq (ys : List ℚ) :
    num ys.length * (sums ys).square - (sums ys).index * (sums ys).index =
      (ys.length : ℚ) ^ 2 * (ys.length ^ 2 - 1) / 12 := by
  rw [sums_eq, num_rat, sum_square, sum_index]
  ring

theorem spread_pos {n : ℕ} (two : 2 ≤ n) : (0 : ℚ) < n ^ 2 * (n ^ 2 - 1) / 12 := by
  have large : (2 : ℚ) ≤ n := by exact_mod_cast two
  have : (0 : ℚ) < n ^ 2 - 1 := by nlinarith
  positivity

/-! ## Lines -/

/-- A line over the indices of a series. -/
@[ext]
structure Line where
  intercept : ℚ
  slope : ℚ

namespace Line

variable (l : Line) (ys : List ℚ)

/-- How far the value at an index lies above the line. -/
def distance (i : Fin ys.length) : ℚ := ys[i] - l.intercept - l.slope * i

/-- How badly the line fits a series: the sum of the squared distances. -/
def deviation : ℚ := ∑ i, l.distance ys i ^ 2

/-- No line fits the series better. -/
def Fits : Prop := ∀ other : Line, l.deviation ys ≤ other.deviation ys

end Line

/-! ## The best line -/

/-- The line of the slope through the mean of the series. -/
def bestLine (ys : List ℚ) : Line where
  intercept := ((sums ys).value - slope ys * (sums ys).index) / ys.length
  slope := slope ys

section

variable {ys : List ℚ} (two : 2 ≤ ys.length)

include two

theorem slope_mul_spread :
    slope ys * (ys.length * (sums ys).square - (sums ys).index * (sums ys).index) =
      ys.length * (sums ys).product - (sums ys).index * (sums ys).value := by
  have nonzero : (ys.length : ℚ) * (sums ys).square - (sums ys).index * (sums ys).index ≠ 0 := by
    have spread := spread_eq ys
    rw [num_rat] at spread
    rw [spread]
    exact (spread_pos two).ne'
  rw [slope, if_neg (by omega)]
  exact div_mul_cancel₀ _ nonzero

/-- The series lies as much above its best line as below. -/
theorem sum_distance_bestLine : ∑ i, (bestLine ys).distance ys i = 0 := by
  have nonempty : (ys.length : ℚ) ≠ 0 := by
    have : ys.length ≠ 0 := by omega
    exact_mod_cast this
  have index : (sums ys).index = ∑ i : Fin ys.length, (i : ℚ) := by rw [sums_eq]
  have value : (sums ys).value = ∑ i : Fin ys.length, ys[i] := by rw [sums_eq]
  simp only [Line.distance, bestLine, Finset.sum_sub_distrib, Finset.sum_const, ← Finset.mul_sum,
    Finset.card_univ, Fintype.card_fin, nsmul_eq_mul]
  rw [← index, ← value, mul_div_cancel₀ _ nonempty]
  ring

theorem sum_mul_distance_bestLine :
    ∑ i : Fin ys.length, (i : ℚ) * (bestLine ys).distance ys i = 0 := by
  have nonempty : (ys.length : ℚ) ≠ 0 := by
    have : ys.length ≠ 0 := by omega
    exact_mod_cast this
  have normal := slope_mul_spread two
  have expand : ∑ i : Fin ys.length, (i : ℚ) * (bestLine ys).distance ys i =
      (sums ys).product - (bestLine ys).intercept * (sums ys).index -
        slope ys * (sums ys).square := by
    rw [sums_eq]
    simp only [Line.distance, Finset.mul_sum, ← Finset.sum_sub_distrib]
    refine Finset.sum_congr rfl fun i _ => ?_
    rw [bestLine]
    ring
  rw [expand, bestLine]
  field_simp
  linear_combination -normal

/-- **Least squares.**  A line lies farther from the series than the best one, by the squares of its
distances from that line. -/
theorem deviation_eq (l : Line) :
    l.deviation ys = (bestLine ys).deviation ys +
      ∑ i : Fin ys.length,
        ((bestLine ys).intercept - l.intercept + ((bestLine ys).slope - l.slope) * i) ^ 2 := by
  have level := sum_distance_bestLine two
  have tilt := sum_mul_distance_bestLine two
  generalize bestLine ys = best at level tilt ⊢
  have square (i : Fin ys.length) : l.distance ys i ^ 2 =
      best.distance ys i ^ 2 +
        (best.intercept - l.intercept + (best.slope - l.slope) * i) ^ 2 +
        2 * (best.intercept - l.intercept) * best.distance ys i +
        2 * (best.slope - l.slope) * (i * best.distance ys i) := by
    rw [Line.distance, Line.distance]
    ring
  simp only [Line.deviation, square, Finset.sum_add_distrib, ← Finset.mul_sum, level, tilt]
  ring

theorem fits_bestLine : (bestLine ys).Fits ys := by
  intro other
  rw [deviation_eq two other]
  exact le_add_of_nonneg_right (Finset.sum_nonneg fun i _ => sq_nonneg _)

theorem eq_bestLine_of_fits {l : Line} (fits : l.Fits ys) : l = bestLine ys := by
  have best := fits (bestLine ys)
  rw [deviation_eq two l] at best
  have none : ∑ i : Fin ys.length,
      ((bestLine ys).intercept - l.intercept + ((bestLine ys).slope - l.slope) * i) ^ 2 = 0 :=
    le_antisymm (by linarith) (Finset.sum_nonneg fun i _ => sq_nonneg _)
  rw [Finset.sum_eq_zero_iff_of_nonneg fun i _ => sq_nonneg _] at none
  -- Two lines that meet at two indices are the same.
  have at_zero : (bestLine ys).intercept - l.intercept = 0 := by
    simpa using none ⟨0, by omega⟩ (Finset.mem_univ _)
  have at_one : (bestLine ys).intercept - l.intercept + ((bestLine ys).slope - l.slope) = 0 := by
    simpa using none ⟨1, by omega⟩ (Finset.mem_univ _)
  exact Line.ext (by linarith) (by linarith)

end

/-- **The trend.**  Over exact fractions, the divisor of the slope of two or more values has a
closed form and is not zero, the slope is that of the one line with the least squared distances from
the series, and the rate per hour is the slope times the values per hour. -/
theorem slope_of_least_squares (ys : List ℚ) (two : 2 ≤ ys.length) (perHour : ℚ) :
    num ys.length * (sums ys).square - (sums ys).index * (sums ys).index =
        (ys.length : ℚ) ^ 2 * (ys.length ^ 2 - 1) / 12 ∧
      num ys.length * (sums ys).square - (sums ys).index * (sums ys).index ≠ 0 ∧
      (∃ l : Line, l.slope = slope ys ∧ l.Fits ys ∧ ∀ other : Line, other.Fits ys → other = l) ∧
      hourly perHour ys = perHour * slope ys := by
  have closed := spread_eq ys
  refine ⟨closed, ?_, ⟨bestLine ys, rfl, fits_bestLine two, fun _ => eq_bestLine_of_fits two⟩, ?_⟩
  · rw [closed]
    exact (spread_pos two).ne'
  · exact mul_comm _ _

/-- A series that does not lie on a line. -/
theorem slope_of_least_squares_of_three :
    let ys : List ℚ := [1, 3, 2]
    2 ≤ ys.length ∧ slope ys = 1 / 2 ∧
      ∃ l : Line, l.slope = 1 / 2 ∧ l.Fits ys ∧ ∀ other : Line, other.Fits ys → other = l := by
  intro ys
  have half : slope ys = 1 / 2 := by
    norm_num [ys, slope, sums, Sums.addFrom, Sums.add, Sums.zero]
  obtain ⟨-, -, line, -⟩ := slope_of_least_squares ys (by decide) 12
  rw [half] at line
  exact ⟨by decide, half, line⟩

end Prognosis.Trend
