import Mathlib.Algebra.BigOperators.Ring.Finset
import Prognosis.Proofs.Binary64.Decoded

/-!
# Rounding errors

Rounding changes a multiple of the least binary64 number by at most `roundoff` of itself
(`abs_nearest_sub_le`).  Sums and differences of finite numbers are such multiples (`near_add`,
`near_sub`), as are products with whole numbers (`near_natCast_mul`).  So the error of a running sum
stays in proportion to the sum of its magnitudes (`near_runningSum`), and a running sum of few
digits has none (`exactly_runningSum`).
-/

namespace Prognosis.Binary64

open Float.Model
open Float.Model.UnpackedFloat (Sign)

/-! ## Rounding -/

theorem two_pow_le_edge : (2 : ℚ) ^ 200 ≤ edge / 4 := by
  have quarter : edge / 4 = 2 ^ (1022 : ℤ) := by
    rw [div_eq_iff (by norm_num), edge, show (1024 : ℤ) = 1022 + 2 by norm_num, two_zpow_add]
    norm_num
  rw [quarter, ← zpow_natCast]
  exact two_zpow_le (by norm_num)

/-- The largest relative error of rounding a number to all its digits. -/
def roundoff : ℚ := 2 ^ (-53 : ℤ)

theorem roundoff_pos : 0 < roundoff := two_zpow_pos _

/-- The least positive number. -/
def grain : ℚ := 2 ^ (-1074 : ℤ)

/-- Whether a fraction is a multiple of it, as every finite number is. -/
def OnGrid (q : ℚ) : Prop := ∃ n : ℤ, q = n * grain

namespace OnGrid

variable {p q : ℚ}

theorem of_coarser {n e : ℤ} (least : -1074 ≤ e) : OnGrid (n * 2 ^ e) :=
  ⟨_, grid_of_le least n⟩

theorem add (hp : OnGrid p) (hq : OnGrid q) : OnGrid (p + q) := by
  obtain ⟨m, rfl⟩ := hp
  obtain ⟨n, rfl⟩ := hq
  exact ⟨m + n, by push_cast; ring⟩

theorem neg (hq : OnGrid q) : OnGrid (-q) := by
  obtain ⟨n, rfl⟩ := hq
  exact ⟨-n, by push_cast; ring⟩

theorem natCast_mul (k : ℕ) (hq : OnGrid q) : OnGrid (k * q) := by
  obtain ⟨n, rfl⟩ := hq
  exact ⟨k * n, by push_cast; ring⟩

end OnGrid

theorem onGrid_value {x : Float} (x_finite : x.isFinite = true) : OnGrid (value x) := by
  have rounded := rounded_unpack x.toModel
  unfold value
  rcases unpack_of_finite x_finite with ⟨s, h⟩ | ⟨s, m, e, pos, h⟩ <;> rw [h] at rounded ⊢
  · exact ⟨0, by simp [valueOf]⟩
  · have magnitude : OnGrid ((m : ℤ) * 2 ^ e) := .of_coarser rounded.least
    rw [Int.cast_natCast] at magnitude
    cases s with
    | positive => rwa [valueOf, factor_positive, one_mul]
    | negative =>
      rw [valueOf, factor_negative, neg_one_mul]
      exact magnitude.neg

theorem exponentOf_abs (q : ℚ) : exponentOf |q| = exponentOf q := by
  rw [exponentOf, exponentOf, abs_abs]

theorem abs_nearest_sub_le_step (q : ℚ) : |nearest q - q| ≤ 1 / 2 * 2 ^ exponentOf q := by
  have step := two_zpow_pos (exponentOf q)
  have near := (roundEven_spec (q / 2 ^ exponentOf q)).1
  have error : nearest q - q =
      (roundEven (q / 2 ^ exponentOf q) - q / 2 ^ exponentOf q) * 2 ^ exponentOf q := by
    rw [nearest, sub_mul, div_mul_cancel₀ _ step.ne']
  calc |nearest q - q|
      = |q / 2 ^ exponentOf q - roundEven (q / 2 ^ exponentOf q)| * 2 ^ exponentOf q := by
        rw [error, abs_mul, abs_sub_comm, abs_of_pos step]
    _ ≤ 1 / 2 * 2 ^ exponentOf q := mul_le_mul_of_nonneg_right (by linarith) step.le

theorem step_le_roundoff {q : ℚ} (nonzero : q ≠ 0) (large : exponentOf q ≠ -1074) :
    1 / 2 * 2 ^ exponentOf q ≤ roundoff * |q| := by
  have digits : 2 ^ (exponentOf q + 52) ≤ |q| := by
    rw [← exponentOf_abs] at large ⊢
    exact two_zpow_exponentOf_le (abs_pos.2 nonzero) large
  calc 1 / 2 * 2 ^ exponentOf q = roundoff * 2 ^ (exponentOf q + 52) := by
        rw [roundoff, two_zpow_add]
        norm_num
        ring
    _ ≤ roundoff * |q| := mul_le_mul_of_nonneg_left digits roundoff_pos.le

/-- **Rounding error.**  On the grid of the least numbers, rounding is exact or has all digits. -/
theorem abs_nearest_sub_le {q : ℚ} (grid : OnGrid q) : |nearest q - q| ≤ roundoff * |q| := by
  rcases eq_or_ne q 0 with rfl | nonzero
  · simp
  rcases eq_or_ne (exponentOf q) (-1074) with least | large
  · obtain ⟨n, point⟩ := grid
    rw [nearest_of_grid point least.le, sub_self, abs_zero]
    exact mul_nonneg roundoff_pos.le (abs_nonneg q)
  · exact (abs_nearest_sub_le_step q).trans (step_le_roundoff nonzero large)

/-- Off that grid, half of the least number may be lost as well. -/
theorem abs_nearest_sub_le_add (q : ℚ) : |nearest q - q| ≤ roundoff * |q| + grain / 2 := by
  have grain_pos : 0 < grain := two_zpow_pos _
  have relative := mul_nonneg roundoff_pos.le (abs_nonneg q)
  rcases eq_or_ne q 0 with rfl | nonzero
  · rw [nearest_zero, sub_self, abs_zero]
    linarith
  rcases eq_or_ne (exponentOf q) (-1074) with least | large
  · have half := abs_nearest_sub_le_step q
    rw [least] at half
    unfold grain at grain_pos ⊢
    linarith
  · have := (abs_nearest_sub_le_step q).trans (step_le_roundoff nonzero large)
    linarith

theorem abs_roundEven_le (q : ℚ) : |(roundEven q : ℚ)| ≤ 2 * |q| := by
  have near := (roundEven_spec q).1
  have bound : |(roundEven q : ℚ)| ≤ |q| + |q - roundEven q| := by
    have := abs_sub_abs_le_abs_sub (roundEven q : ℚ) q
    rw [abs_sub_comm] at this
    linarith
  by_cases small : |q| < 1 / 2
  · -- The rounded number lies within one of zero.
    have below : |(roundEven q : ℚ)| < 1 := by linarith
    have zero : roundEven q = 0 := Int.abs_lt_one_iff.1 (by exact_mod_cast below)
    rw [zero, Int.cast_zero, abs_zero]
    positivity
  · linarith

theorem abs_nearest_le (q : ℚ) : |nearest q| ≤ 2 * |q| := by
  have step := two_zpow_pos (exponentOf q)
  calc |nearest q| = |(roundEven (q / 2 ^ exponentOf q) : ℚ)| * 2 ^ exponentOf q := by
        rw [nearest, abs_mul, abs_of_pos step]
    _ ≤ 2 * |q / 2 ^ exponentOf q| * 2 ^ exponentOf q :=
        mul_le_mul_of_nonneg_right (abs_roundEven_le _) step.le
    _ = 2 * |q| := by
        rw [abs_div, abs_of_pos step, mul_assoc, div_mul_cancel₀ _ step.ne']

theorem abs_nearest64_le (q : ℚ) : |nearest64 q| ≤ 2 * |q| := by
  have bounds := abs_le.1 (abs_nearest_le q)
  have pos := edge_pos
  have nonneg := abs_nonneg q
  rw [nearest64]
  refine abs_le.2 ⟨?_, max_le (by linarith) ((min_le_right _ _).trans bounds.2)⟩
  exact le_max_of_le_right (le_min (by linarith) bounds.1)

@[simp] theorem nearest64_zero : nearest64 0 = 0 := by
  simpa using nearest64_natCast (n := 0) (by norm_num)

/-! ## Differences -/

theorem apply_neg (s : Sign) (n : ℤ) : (-s).apply n = -s.apply n := by
  cases s
  · exact (neg_neg n).symm
  · rfl

theorem unpacked_sub_eq (spec : Format) (u v : UnpackedFloat) :
    UnpackedFloat.sub spec u v = UnpackedFloat.add spec u v.neg := by
  cases u with
  | finite s m e pos =>
    cases v with
    | finite t n f pos' =>
      simp only [UnpackedFloat.sub, UnpackedFloat.add, UnpackedFloat.neg, apply_neg, sub_eq_add_neg]
    | _ => rfl
  | _ => cases v <;> rfl

theorem sub_eq_add_negated (x y : Float) : x - y = x + -y := by
  show Float.ofModel (Float.Model.pack _) = Float.ofModel (Float.Model.pack _)
  rw [unpacked_sub_eq, unpack_neg]

theorem value_neg (x : Float) : value (-x) = -value x := by
  rw [value, value, unpack_neg]
  cases x.toModel.unpack with
  | notANumber => rfl
  | zero s => exact neg_zero.symm
  | infinity s => cases s <;> simp [UnpackedFloat.neg, valueOf, factor]
  | finite s m e pos => cases s <;> simp [UnpackedFloat.neg, valueOf, factor]

theorem finite_neg {x : Float} (x_finite : x.isFinite = true) : (-x).isFinite = true := by
  unfold Float.isFinite Float.Model.isFinite at x_finite ⊢
  rw [unpack_neg]
  cases h : x.toModel.unpack <;> rw [h] at x_finite <;> first | rfl | cases x_finite

theorem value_sub {x y : Float} (x_finite : x.isFinite = true) (y_finite : y.isFinite = true) :
    value (x - y) = nearest64 (value x - value y) ∧ (x - y).isNaN = false := by
  rw [sub_eq_add_negated, sub_eq_add_neg, ← value_neg]
  exact value_add x_finite (finite_neg y_finite)

/-! ## Single operations -/

/-- A finite number within a distance of an exact one. -/
structure Near (x : Float) (q distance : ℚ) : Prop where
  finite : x.isFinite = true
  close : |value x - q| ≤ distance

theorem Near.abs_le {x : Float} {q distance : ℚ} (near : Near x q distance) :
    |value x| ≤ |q| + distance := by
  have := abs_sub_abs_le_abs_sub (value x) q
  have := near.close
  linarith

theorem near_of_value {x : Float} {q bound : ℚ} (x_defined : x.isNaN = false)
    (rounded : value x = nearest64 q) (grid : OnGrid q) (size : |q| ≤ bound)
    (small : bound ≤ edge / 2) : Near x q (roundoff * bound) := by
  have error := (abs_nearest_sub_le grid).trans (mul_le_mul_of_nonneg_left size roundoff_pos.le)
  have slight : roundoff * bound < edge / 2 := by
    have half := half_pos edge_pos
    calc roundoff * bound ≤ roundoff * (edge / 2) :=
          mul_le_mul_of_nonneg_left small roundoff_pos.le
      _ < 1 * (edge / 2) := mul_lt_mul_of_pos_right (by norm_num [roundoff]) half
      _ = edge / 2 := one_mul _
  have bounds := abs_le.1 error
  have inside := abs_le.1 (size.trans small)
  have held : nearest64 q = nearest q := by
    rw [nearest64, min_eq_right (by linarith), max_eq_right (by linarith)]
  rw [held] at rounded
  constructor
  case finite => exact finite_of_value x_defined (by linarith) (by linarith)
  case close => rwa [rounded]

section

variable {x y : Float} {bound : ℚ} (x_finite : x.isFinite = true) (y_finite : y.isFinite = true)

include x_finite y_finite

theorem near_add (size : |value x + value y| ≤ bound) (small : bound ≤ edge / 2) :
    Near (x + y) (value x + value y) (roundoff * bound) := by
  obtain ⟨rounded, defined⟩ := value_add x_finite y_finite
  have grid := (onGrid_value x_finite).add (onGrid_value y_finite)
  exact near_of_value defined rounded grid size small

theorem near_sub (size : |value x - value y| ≤ bound) (small : bound ≤ edge / 2) :
    Near (x - y) (value x - value y) (roundoff * bound) := by
  obtain ⟨rounded, defined⟩ := value_sub x_finite y_finite
  have grid := (onGrid_value x_finite).add (onGrid_value y_finite).neg
  rw [← sub_eq_add_neg] at grid
  exact near_of_value defined rounded grid size small

/-- Products with a whole number. -/
theorem near_natCast_mul {k : ℕ} (whole : value x = k) (size : |k * value y| ≤ bound)
    (small : bound ≤ edge / 2) : Near (x * y) (k * value y) (roundoff * bound) := by
  obtain ⟨rounded, defined⟩ := value_mul x_finite y_finite
  rw [whole] at rounded
  exact near_of_value defined rounded ((onGrid_value y_finite).natCast_mul k) size small

end

/-! ## Running sums -/

/-- The sum of the first numbers of a sequence, taken in their order. -/
def runningSum (f : ℕ → Float) : ℕ → Float
  | 0 => Float.ofNat 0
  | n + 1 => runningSum f n + f n

theorem finite_zero : (Float.ofNat 0).isFinite = true := (value_ofNat (by norm_num)).2

theorem value_zero : value (Float.ofNat 0) = 0 := by
  simpa using (value_ofNat (n := 0) (by norm_num)).1

/-- **Error of a running sum.**  It grows with the number of additions, in proportion to the sum of
the magnitudes. -/
theorem near_runningSum {f : ℕ → Float} {n : ℕ} (finite : ∀ i < n, (f i).isFinite = true)
    (small : (1 + roundoff) ^ n * ∑ i ∈ Finset.range n, |value (f i)| ≤ edge / 2) :
    Near (runningSum f n) (∑ i ∈ Finset.range n, value (f i))
      (((1 + roundoff) ^ n - 1) * ∑ i ∈ Finset.range n, |value (f i)|) := by
  have u_pos := roundoff_pos
  induction n with
  | zero => exact ⟨finite_zero, by simp [runningSum, value_zero]⟩
  | succ n ih =>
    have total_nonneg : 0 ≤ ∑ i ∈ Finset.range n, |value (f i)| :=
      Finset.sum_nonneg fun i _ => abs_nonneg _
    have exact_le : |∑ i ∈ Finset.range n, value (f i)| ≤ ∑ i ∈ Finset.range n, |value (f i)| :=
      Finset.abs_sum_le_sum_abs _ _
    rw [Finset.sum_range_succ, Finset.sum_range_succ]
    rw [Finset.sum_range_succ] at small
    have next_nonneg := abs_nonneg (value (f n))
    have growth : (1 : ℚ) ≤ (1 + roundoff) ^ n := one_le_pow₀ (by linarith)
    rw [pow_succ] at small ⊢
    generalize (1 + roundoff) ^ n = g at ih small growth ⊢
    generalize ∑ i ∈ Finset.range n, |value (f i)| = total at *
    generalize ∑ i ∈ Finset.range n, value (f i) = whole at *
    have grown : g * total + |value (f n)| ≤ edge / 2 := by
      have := mul_nonneg (mul_nonneg (by linarith : 0 ≤ g) u_pos.le) total_nonneg
      have := mul_nonneg (by nlinarith : 0 ≤ g * (1 + roundoff) - 1) next_nonneg
      linarith
    obtain ⟨sum_finite, close⟩ := ih (fun i lt => finite i (by omega)) (by linarith)
    have sum_le : |value (runningSum f n) + value (f n)| ≤ g * total + |value (f n)| := by
      have := abs_add_le (value (runningSum f n)) (value (f n))
      have := abs_sub_abs_le_abs_sub (value (runningSum f n)) whole
      linarith
    obtain ⟨finite', close'⟩ := near_add sum_finite (finite n (by omega)) sum_le grown
    refine ⟨finite', ?_⟩
    have split := abs_sub_le (value (runningSum f n + f n))
      (value (runningSum f n) + value (f n)) (whole + value (f n))
    rw [add_sub_add_right_eq_sub] at split
    calc |value (runningSum f n + f n) - (whole + value (f n))|
        ≤ roundoff * (g * total + |value (f n)|) + (g - 1) * total :=
          split.trans (add_le_add close' close)
      _ ≤ (g * (1 + roundoff) - 1) * (total + |value (f n)|) := by
          have := mul_nonneg (mul_nonneg (sub_nonneg.2 growth) (by linarith : 0 ≤ 1 + roundoff))
            next_nonneg
          linarith

/-! ## Numbers of few digits -/

/-- A finite number that is so many times a power of two. -/
structure Exactly (x : Float) (k e : ℤ) : Prop where
  finite : x.isFinite = true
  value_eq : value x = k * 2 ^ e

theorem nearest_of_few {k e : ℤ} (few : |k| < 2 ^ 53) (least : -1074 ≤ e) :
    nearest (k * 2 ^ e) = k * 2 ^ e := by
  have digits : k.natAbs < 2 ^ 53 := by
    rw [Int.abs_eq_natAbs] at few
    exact_mod_cast few
  have kept := nearest_of_digits digits least
  rcases Int.natAbs_eq k with nonneg | nonpos
  · rw [nonneg, Int.cast_natCast]
    exact kept
  · rw [nonpos, Int.cast_neg, Int.cast_natCast, neg_mul, nearest_neg, kept]

theorem exactly_of_value {x : Float} {k e : ℤ} (x_defined : x.isNaN = false)
    (rounded : value x = nearest64 (k * 2 ^ e)) (few : |k| < 2 ^ 53) (least : -1074 ≤ e)
    (small : |(k * 2 ^ e : ℚ)| ≤ edge / 2) : Exactly x k e := by
  have pos := edge_pos
  have inside := abs_le.1 small
  have kept := nearest64_of_nearest (nearest_of_few few least) (by linarith) (by linarith)
  rw [kept] at rounded
  exact ⟨finite_of_value x_defined (by linarith) (by linarith), rounded⟩

theorem Exactly.add {x y : Float} {j k e : ℤ} (hx : Exactly x j e) (hy : Exactly y k e)
    (few : |j + k| < 2 ^ 53) (least : -1074 ≤ e)
    (small : |((j + k : ℤ) * 2 ^ e : ℚ)| ≤ edge / 2) : Exactly (x + y) (j + k) e := by
  obtain ⟨rounded, defined⟩ := value_add hx.finite hy.finite
  rw [hx.value_eq, hy.value_eq, ← add_mul, ← Int.cast_add] at rounded
  exact exactly_of_value defined rounded few least small

/-- A running sum of few digits is exact. -/
theorem exactly_runningSum {f : ℕ → Float} {k : ℕ → ℤ} {e : ℤ} {n : ℕ} (least : -1074 ≤ e)
    (holds : ∀ i < n, Exactly (f i) (k i) e) (few : ∑ i ∈ Finset.range n, |k i| < 2 ^ 53)
    (small : ((∑ i ∈ Finset.range n, |k i| : ℤ) * 2 ^ e : ℚ) ≤ edge / 2) :
    Exactly (runningSum f n) (∑ i ∈ Finset.range n, k i) e := by
  induction n with
  | zero => exact ⟨finite_zero, by simp [runningSum, value_zero]⟩
  | succ n ih =>
    have step := two_zpow_pos e
    have exact_le := Finset.abs_sum_le_sum_abs k (Finset.range (n + 1))
    have less : ∑ i ∈ Finset.range n, |k i| ≤ ∑ i ∈ Finset.range (n + 1), |k i| := by
      rw [Finset.sum_range_succ]
      exact le_add_of_nonneg_right (abs_nonneg _)
    have scaled {j : ℤ} (le : j ≤ ∑ i ∈ Finset.range (n + 1), |k i|) :
        (j * 2 ^ e : ℚ) ≤ edge / 2 :=
      (mul_le_mul_of_nonneg_right (by exact_mod_cast le) step.le).trans small
    have front := ih (fun i lt => holds i (by omega)) (less.trans_lt few) (scaled less)
    have abs_small : |((∑ i ∈ Finset.range (n + 1), k i : ℤ) * 2 ^ e : ℚ)| ≤ edge / 2 := by
      rw [abs_mul, abs_of_pos step, ← Int.cast_abs]
      exact scaled exact_le
    rw [Finset.sum_range_succ] at exact_le abs_small ⊢
    exact front.add (holds n (by omega)) (exact_le.trans_lt few) least abs_small

end Prognosis.Binary64
