import Mathlib.Algebra.Order.Archimedean.Basic
import Mathlib.Algebra.Order.Floor.Ring
import Mathlib.Data.Int.Log
import Mathlib.Data.Rat.Floor
import Mathlib.Tactic.FieldSimp
import Mathlib.Tactic.Linarith
import Mathlib.Tactic.Positivity
import Mathlib.Tactic.Ring

/-!
# Rounding to binary64 precision

`roundEven` rounds a fraction to the nearest whole number, halves to the even one; `nearest` does
the same on the grid of binary64 numbers of its size, were their exponents without upper bound.
Both keep the points of their grid, respect the order and the sign, and are fixed by nearness
alone.
-/

namespace Prognosis.Binary64

/-! ## Whole numbers -/

/-- The whole number nearest to `q`; a half goes to the even neighbour. -/
def roundEven (q : ℚ) : ℤ :=
  if 2 * Int.fract q < 1 then ⌊q⌋
  else if 1 < 2 * Int.fract q then ⌊q⌋ + 1
  else ⌊q⌋ + ⌊q⌋ % 2

/-- No whole number is nearer, and of two equally near ones the even one is taken. -/
theorem roundEven_spec (q : ℚ) :
    2 * |q - roundEven q| ≤ 1 ∧ (2 * |q - roundEven q| = 1 → roundEven q % 2 = 0) := by
  have nonneg := Int.fract_nonneg q
  have split : q = ⌊q⌋ + Int.fract q := (Int.floor_add_fract q).symm
  generalize Int.fract q = f at nonneg split
  have below_one : f < 1 := by
    have := Int.lt_floor_add_one q
    linarith
  have fract : Int.fract q = f := by
    rw [Int.fract]
    linarith
  unfold roundEven
  rw [fract]
  split_ifs with low high
  · have distance : |q - ⌊q⌋| = f := by
      rw [abs_of_nonneg] <;> linarith
    rw [distance]
    exact ⟨low.le, fun half => absurd half low.ne⟩
  · have distance : |q - ((⌊q⌋ + 1 : ℤ) : ℚ)| = 1 - f := by
      rw [abs_of_nonpos] <;> push_cast <;> linarith
    rw [distance]
    exact ⟨by linarith, fun half => by linarith⟩
  · have half : f = 1 / 2 := by linarith
    have even : (⌊q⌋ + ⌊q⌋ % 2) % 2 = 0 := by omega
    refine ⟨?_, fun _ => even⟩
    rcases Int.emod_two_eq ⌊q⌋ with parity | parity <;> rw [parity] <;> push_cast
    · rw [abs_of_nonneg] <;> linarith
    · rw [abs_of_nonpos] <;> linarith

theorem roundEven_eq {q : ℚ} {n : ℤ} (near : 2 * |q - n| ≤ 1)
    (even : 2 * |q - n| = 1 → n % 2 = 0) : roundEven q = n := by
  obtain ⟨near', even'⟩ := roundEven_spec q
  generalize roundEven q = m at near' even'
  have bounds := abs_le.1 (show |q - n| ≤ 1 / 2 by linarith)
  have bounds' := abs_le.1 (show |q - m| ≤ 1 / 2 by linarith)
  by_contra other
  rcases lt_or_gt_of_ne other with less | greater
  · have step : (m : ℚ) + 1 ≤ n := by exact_mod_cast less
    have low : q - m = 1 / 2 := by linarith
    have high : q - n = -(1 / 2) := by linarith
    have adjacent : (n : ℚ) = (m + 1 : ℤ) := by push_cast; linarith
    have adjacent : n = m + 1 := by exact_mod_cast adjacent
    have := even' (by rw [low, abs_of_nonneg] <;> norm_num)
    have := even (by rw [high, abs_neg, abs_of_nonneg] <;> norm_num)
    omega
  · have step : (n : ℚ) + 1 ≤ m := by exact_mod_cast greater
    have low : q - n = 1 / 2 := by linarith
    have high : q - m = -(1 / 2) := by linarith
    have adjacent : (m : ℚ) = (n + 1 : ℤ) := by push_cast; linarith
    have adjacent : m = n + 1 := by exact_mod_cast adjacent
    have := even' (by rw [high, abs_neg, abs_of_nonneg] <;> norm_num)
    have := even (by rw [low, abs_of_nonneg] <;> norm_num)
    omega

@[simp] theorem roundEven_intCast (n : ℤ) : roundEven n = n :=
  roundEven_eq (by simp) (by simp)

@[simp] theorem roundEven_zero : roundEven 0 = 0 := by
  simpa using roundEven_intCast 0

theorem roundEven_neg (q : ℚ) : roundEven (-q) = -roundEven q := by
  obtain ⟨near, even⟩ := roundEven_spec q
  have mirrored : |-q - ((-roundEven q : ℤ) : ℚ)| = |q - roundEven q| := by
    rw [← abs_neg]
    congr 1
    push_cast
    ring
  refine roundEven_eq (by rwa [mirrored]) fun half => ?_
  rw [mirrored] at half
  have := even half
  omega

theorem roundEven_mono {p q : ℚ} (le : p ≤ q) : roundEven p ≤ roundEven q := by
  have low := abs_le.1 (show |p - roundEven p| ≤ 1 / 2 by linarith [(roundEven_spec p).1])
  have high := abs_le.1 (show |q - roundEven q| ≤ 1 / 2 by linarith [(roundEven_spec q).1])
  by_contra greater
  have step : (roundEven q : ℚ) + 1 ≤ roundEven p := by exact_mod_cast not_le.1 greater
  -- Only a half between the two leaves room for that, and then `p` and `q` are the same half.
  have same : p = q := by linarith
  rw [same] at greater
  exact greater le_rfl

/-! ## Binary64 precision -/

/-- The exponent of the last place of binary64 numbers of the size of `q`. -/
def exponentOf (q : ℚ) : ℤ := max (Int.log 2 |q| - 52) (-1074)

/-- The point nearest to `q` on the grid of its size; a half goes to the even one. -/
def nearest (q : ℚ) : ℚ := roundEven (q / 2 ^ exponentOf q) * 2 ^ exponentOf q

theorem two_zpow_pos (e : ℤ) : (0 : ℚ) < 2 ^ e := zpow_pos (by norm_num) e

theorem two_zpow_le {d e : ℤ} (le : d ≤ e) : (2 : ℚ) ^ d ≤ 2 ^ e :=
  zpow_le_zpow_right₀ (by norm_num) le

theorem two_zpow_lt {d e : ℤ} (lt : d < e) : (2 : ℚ) ^ d < 2 ^ e :=
  zpow_lt_zpow_right₀ (by norm_num) lt

theorem two_zpow_add (d e : ℤ) : (2 : ℚ) ^ (d + e) = 2 ^ d * 2 ^ e :=
  zpow_add₀ (by norm_num) d e

theorem exponentOf_neg (q : ℚ) : exponentOf (-q) = exponentOf q := by
  rw [exponentOf, exponentOf, abs_neg]

theorem nearest_neg (q : ℚ) : nearest (-q) = -nearest q := by
  rw [nearest, nearest, exponentOf_neg, neg_div, roundEven_neg]
  push_cast
  ring

@[simp] theorem nearest_zero : nearest 0 = 0 := by
  rw [nearest, zero_div, roundEven_zero]
  simp

theorem least_le_exponentOf (q : ℚ) : -1074 ≤ exponentOf q := le_max_right ..

theorem exponentOf_mono {p q : ℚ} (pos : 0 < p) (le : p ≤ q) : exponentOf p ≤ exponentOf q := by
  have log := Int.log_mono_right (b := 2) pos le
  rw [exponentOf, exponentOf, abs_of_pos pos, abs_of_pos (pos.trans_le le)]
  omega

theorem exponentOf_eq {q : ℚ} {e : ℤ} (low : 2 ^ (e + 52) ≤ q) (high : q < 2 ^ (e + 53))
    (least : -1074 ≤ e) : exponentOf q = e := by
  have pos : 0 < q := (two_zpow_pos _).trans_le low
  have le := (Int.zpow_le_iff_le_log (b := 2) (by norm_num) pos).1 (by exact_mod_cast low)
  have lt := (Int.lt_zpow_iff_log_lt (b := 2) (by norm_num) pos).1 (by exact_mod_cast high)
  rw [exponentOf, abs_of_pos pos]
  omega

theorem exponentOf_of_small {q : ℚ} (pos : 0 < q) (small : q < 2 ^ (-1021 : ℤ)) :
    exponentOf q = -1074 := by
  have lt := (Int.lt_zpow_iff_log_lt (b := 2) (by norm_num) pos).1 (by exact_mod_cast small)
  rw [exponentOf, abs_of_pos pos]
  omega

theorem lt_two_zpow_exponentOf {q : ℚ} (pos : 0 < q) : q < 2 ^ (exponentOf q + 53) := by
  have lt : q < (2 : ℚ) ^ (Int.log 2 q + 1) := by
    exact_mod_cast Int.lt_zpow_succ_log_self (b := 2) (by norm_num) q
  refine lt.trans_le (two_zpow_le ?_)
  rw [exponentOf, abs_of_pos pos]
  omega

theorem two_zpow_exponentOf_le {q : ℚ} (pos : 0 < q) (large : exponentOf q ≠ -1074) :
    2 ^ (exponentOf q + 52) ≤ q := by
  have le : (2 : ℚ) ^ Int.log 2 q ≤ q := by
    exact_mod_cast Int.zpow_log_le_self (b := 2) (by norm_num) pos
  refine (two_zpow_le ?_).trans le
  rw [exponentOf, abs_of_pos pos] at large ⊢
  omega

/-- The digits of a rounded number: 53 of them, except for the least numbers, unless rounding
carries to the next power of two. -/
theorem roundEven_digits {q : ℚ} (pos : 0 < q) :
    0 ≤ roundEven (q / 2 ^ exponentOf q) ∧ roundEven (q / 2 ^ exponentOf q) ≤ 2 ^ 53 ∧
      (2 ^ 52 ≤ roundEven (q / 2 ^ exponentOf q) ∨ exponentOf q = -1074) := by
  have step := two_zpow_pos (exponentOf q)
  refine ⟨?_, ?_, ?_⟩
  · rw [← roundEven_zero]
    exact roundEven_mono (div_nonneg pos.le step.le)
  · rw [← roundEven_intCast (2 ^ 53)]
    refine roundEven_mono ((div_le_iff₀ step).2 ?_)
    have lt := lt_two_zpow_exponentOf pos
    rw [add_comm, two_zpow_add] at lt
    exact_mod_cast lt.le
  · rcases eq_or_ne (exponentOf q) (-1074) with least | large
    · exact .inr least
    · have le := two_zpow_exponentOf_le pos large
      rw [add_comm, two_zpow_add] at le
      rw [← roundEven_intCast (2 ^ 52)]
      exact .inl (roundEven_mono ((le_div_iff₀ step).2 (by exact_mod_cast le)))

/-! ## Points of the grid -/

theorem grid_of_le {d e : ℤ} (le : d ≤ e) (n : ℤ) :
    (n * 2 ^ e : ℚ) = (n * 2 ^ (e - d).toNat : ℤ) * 2 ^ d := by
  have gap : ((e - d).toNat : ℤ) + d = e := by omega
  conv_lhs => rw [← gap, two_zpow_add, zpow_natCast, ← mul_assoc]
  push_cast
  ring

theorem nearest_of_grid {q : ℚ} {n e : ℤ} (point : q = n * 2 ^ e) (coarse : exponentOf q ≤ e) :
    nearest q = q := by
  have fine := point.trans (grid_of_le coarse n)
  have pos := two_zpow_pos (exponentOf q)
  have whole : q / 2 ^ exponentOf q = (n * 2 ^ (e - exponentOf q).toNat : ℤ) := by
    rw [div_eq_iff pos.ne']
    exact fine
  rw [nearest, whole, roundEven_intCast]
  exact fine.symm

theorem nearest_le_of_le_grid {q : ℚ} {n e : ℤ} (le : q ≤ n * 2 ^ e)
    (coarse : exponentOf q ≤ e) : nearest q ≤ n * 2 ^ e := by
  have pos := two_zpow_pos (exponentOf q)
  rw [grid_of_le coarse n] at le ⊢
  rw [nearest]
  have whole := roundEven_mono ((div_le_iff₀ pos).2 le)
  rw [roundEven_intCast] at whole
  exact mul_le_mul_of_nonneg_right (by exact_mod_cast whole) pos.le

theorem le_nearest_of_grid_le {q : ℚ} {n e : ℤ} (le : n * 2 ^ e ≤ q)
    (coarse : exponentOf q ≤ e) : n * 2 ^ e ≤ nearest q := by
  have mirrored : nearest (-q) ≤ ((-n : ℤ) : ℚ) * 2 ^ e := by
    refine nearest_le_of_le_grid ?_ (by rwa [exponentOf_neg])
    push_cast
    linarith
  rw [nearest_neg] at mirrored
  push_cast at mirrored
  linarith

theorem nearest_nonneg {q : ℚ} (nonneg : 0 ≤ q) : 0 ≤ nearest q := by
  simpa using le_nearest_of_grid_le (n := 0) (by simpa using nonneg) le_rfl

/-! ## Order -/

/-- Rounding respects the order of positive numbers: either both are rounded on one grid, or a power
of two lies between them that is a point of both. -/
theorem nearest_mono_of_pos {p q : ℚ} (pos : 0 < p) (le : p ≤ q) : nearest p ≤ nearest q := by
  rcases (exponentOf_mono pos le).eq_or_lt with same | less
  · rw [nearest, nearest, same]
    have step := two_zpow_pos (exponentOf q)
    have whole := roundEven_mono (div_le_div_of_nonneg_right le step.le)
    exact mul_le_mul_of_nonneg_right (by exact_mod_cast whole) step.le
  · have q_pos := pos.trans_le le
    have log : exponentOf q = Int.log 2 q - 52 := by
      have least := least_le_exponentOf p
      have exponent : exponentOf q = max (Int.log 2 q - 52) (-1074) := by
        rw [exponentOf, abs_of_pos q_pos]
      omega
    have power : ((1 : ℤ) : ℚ) * 2 ^ Int.log 2 q = 2 ^ Int.log 2 q := by norm_num
    have below : p ≤ 2 ^ Int.log 2 q :=
      (lt_two_zpow_exponentOf pos).le.trans (two_zpow_le (by omega))
    have above : 2 ^ Int.log 2 q ≤ q := by
      exact_mod_cast Int.zpow_log_le_self (b := 2) (by norm_num) q_pos
    rw [← power] at below above
    exact (nearest_le_of_le_grid below (by omega)).trans (le_nearest_of_grid_le above (by omega))

theorem nearest_mono {p q : ℚ} (le : p ≤ q) : nearest p ≤ nearest q := by
  rcases lt_trichotomy p 0 with neg | rfl | pos
  · rcases lt_or_ge q 0 with q_neg | q_nonneg
    · have mirrored := nearest_mono_of_pos (neg_pos.2 q_neg) (neg_le_neg le)
      rw [nearest_neg, nearest_neg] at mirrored
      linarith
    · have mirrored := nearest_nonneg (neg_nonneg.2 neg.le)
      rw [nearest_neg] at mirrored
      linarith [nearest_nonneg q_nonneg]
  · simpa using nearest_nonneg le
  · exact nearest_mono_of_pos pos le

/-! ## Numbers of at most 53 digits -/

theorem exponentOf_le {n : ℕ} {e : ℤ} (pos : 0 < n) (digits : n < 2 ^ 53) (least : -1074 ≤ e) :
    exponentOf (n * 2 ^ e) ≤ e := by
  have value_pos : (0 : ℚ) < n * 2 ^ e := mul_pos (by exact_mod_cast pos) (two_zpow_pos e)
  have value_lt : (n * 2 ^ e : ℚ) < 2 ^ (53 + e) := by
    rw [two_zpow_add]
    refine mul_lt_mul_of_pos_right ?_ (two_zpow_pos e)
    exact_mod_cast digits
  have lt := (Int.lt_zpow_iff_log_lt (b := 2) (by norm_num) value_pos).1
    (by exact_mod_cast value_lt)
  rw [exponentOf, abs_of_pos value_pos]
  omega

theorem nearest_of_digits {n : ℕ} {e : ℤ} (digits : n < 2 ^ 53) (least : -1074 ≤ e) :
    nearest (n * 2 ^ e) = n * 2 ^ e := by
  rcases n.eq_zero_or_pos with rfl | pos
  · simp
  · exact nearest_of_grid (n := n) (e := e) (by simp) (exponentOf_le pos digits least)

theorem nearest_natCast {n : ℕ} (digits : n < 2 ^ 53) : nearest n = n := by
  simpa using nearest_of_digits (e := 0) digits (by norm_num)

end Prognosis.Binary64
