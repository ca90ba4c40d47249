import Prognosis.Decimal.Shortest
import Prognosis.Proofs.Binary64.Decoded

/-!
# The interval that a number owns

The decimals around a binary64 number that are nearer to it than to any other, the ends included
where its last digit is even: what lies in that interval is rounded to the number
(`Finite.Owns.nearest_eq`), and `roundsTo` decides whether a decimal does (`roundsTo_iff`).
-/

namespace Prognosis

open Binary64

namespace Decimal

/-! ## Intervals -/

namespace Finite

/-- The magnitude of a finite number. -/
def magnitude (v : Finite) : ℚ := v.significand * 2 ^ v.exponent

def low (v : Finite) : ℚ := (v.significand - (halfGaps v).1 / 4) * 2 ^ v.exponent

def high (v : Finite) : ℚ := (v.significand + (halfGaps v).2 / 4) * 2 ^ v.exponent

/-- Whether a fraction lies in the interval of a number. -/
structure Owns (v : Finite) (x : ℚ) : Prop where
  low_le : v.low ≤ x
  le_high : x ≤ v.high
  inside : v.significand % 2 = 1 → v.low < x ∧ x < v.high

variable {v : Finite} {x : ℚ}

/-- The interval is narrower below a power of two, where the next number is nearer. -/
theorem halfGaps_cases (v : Finite) :
    (v.significand = 2 ^ 52 ∧ -1074 < v.exponent ∧ halfGaps v = (1, 2)) ∨
      (¬ (v.significand = 2 ^ 52 ∧ -1074 < v.exponent) ∧ halfGaps v = (2, 2)) := by
  by_cases power : v.significand = 2 ^ 52 ∧ -1074 < v.exponent
  · exact .inl ⟨power.1, power.2, if_pos power⟩
  · exact .inr ⟨power, if_neg power⟩

/-- What is near enough on the grid of its size is rounded. -/
theorem nearest_eq_of_near {m e : ℤ} (size : exponentOf x = e) (near : 2 * |x / 2 ^ e - m| ≤ 1)
    (even : 2 * |x / 2 ^ e - m| = 1 → m % 2 = 0) : nearest x = m * 2 ^ e := by
  rw [nearest, size, roundEven_eq near even]

/-- Around a power of two: rounding from below carries to one digit more. -/
theorem nearest_eq_of_power {e : ℤ} (least : -1074 < e) (low_le : (2 ^ 52 - 1 / 4) * 2 ^ e ≤ x)
    (le_high : x ≤ (2 ^ 52 + 1 / 2) * 2 ^ e) : nearest x = 2 ^ 52 * 2 ^ e := by
  have step := two_zpow_pos e
  have upper : (2 : ℚ) ^ (e + 53) = 2 ^ 53 * 2 ^ e := by
    rw [add_comm, two_zpow_add, zpow_ofNat]
  have lower : (2 : ℚ) ^ (e + 52) = 2 ^ 52 * 2 ^ e := by
    rw [add_comm, two_zpow_add, zpow_ofNat]
  rcases le_or_gt (2 ^ 52 * 2 ^ e) x with above | below
  · have size : exponentOf x = e := exponentOf_eq (by rwa [lower]) (by linarith) least.le
    have near : 2 * |x / 2 ^ e - ((2 ^ 52 : ℤ) : ℚ)| ≤ 1 := by
      have low := (le_div_iff₀ step).2 above
      have high := (div_le_iff₀ step).2 le_high
      push_cast
      rw [abs_of_nonneg] <;> linarith
    exact_mod_cast nearest_eq_of_near size near fun _ => by norm_num
  · have half : (2 : ℚ) ^ e = 2 * 2 ^ (e - 1) := by
      rw [← zpow_one_add₀ two_ne_zero]
      congr 1
      ring
    have half_step := two_zpow_pos (e - 1)
    have lower' : (2 : ℚ) ^ (e - 1 + 52) = 2 ^ 52 * 2 ^ (e - 1) := by
      rw [add_comm, two_zpow_add, zpow_ofNat]
    have upper' : (2 : ℚ) ^ (e - 1 + 53) = 2 ^ 53 * 2 ^ (e - 1) := by
      rw [add_comm, two_zpow_add, zpow_ofNat]
    have size : exponentOf x = e - 1 := exponentOf_eq (by linarith) (by linarith) (by omega)
    have near : 2 * |x / 2 ^ (e - 1) - ((2 ^ 53 : ℤ) : ℚ)| ≤ 1 := by
      have low : 2 ^ 53 - 1 / 2 ≤ x / 2 ^ (e - 1) := (le_div_iff₀ half_step).2 (by linarith)
      have high : x / 2 ^ (e - 1) ≤ 2 ^ 53 := (div_le_iff₀ half_step).2 (by linarith)
      push_cast
      rw [abs_of_nonpos] <;> linarith
    have carried := nearest_eq_of_near size near fun _ => by norm_num
    push_cast at carried
    linarith

section

variable {m : ℕ} {e : ℤ} (canonical : Canonical m e) (pos : 0 < m)
  (no_power : ¬ (m = 2 ^ 52 ∧ -1074 < e)) (lower : m - 1 / 2 ≤ x / 2 ^ e)
  (upper : x / 2 ^ e ≤ m + 1 / 2)

include canonical pos no_power lower upper

theorem exponentOf_of_half : exponentOf x = e := by
  obtain ⟨digits, least, leading⟩ := canonical
  have step := two_zpow_pos e
  have m_pos : (1 : ℚ) ≤ m := by exact_mod_cast pos
  have m_le : (m : ℚ) ≤ 2 ^ 53 - 1 := by
    have : (m : ℚ) + 1 ≤ 2 ^ 53 := by exact_mod_cast digits
    linarith
  have high : x < 2 ^ (e + 53) := by
    rw [add_comm, two_zpow_add, zpow_ofNat, ← div_lt_iff₀ step]
    linarith
  rcases least.eq_or_lt with rfl | above
  · refine exponentOf_of_small ?_ (by simpa using high)
    have : 0 < x / 2 ^ (-1074 : ℤ) := by linarith
    exact (div_pos_iff_of_pos_right step).1 this
  · have leading := leading.resolve_right above.ne'
    have m_ge : (2 ^ 52 + 1 : ℚ) ≤ m := by
      have : 2 ^ 52 + 1 ≤ m := by omega
      exact_mod_cast this
    refine exponentOf_eq ?_ high least
    rw [add_comm, two_zpow_add, zpow_ofNat, ← le_div_iff₀ step]
    linarith

/-- What is within half a place of a number is rounded to it, the ends only if it is even. -/
theorem nearest_eq_of_half (inside : m % 2 = 1 → m - 1 / 2 < x / 2 ^ e ∧ x / 2 ^ e < m + 1 / 2) :
    nearest x = m * 2 ^ e := by
  have size := exponentOf_of_half canonical pos no_power lower upper
  refine nearest_eq_of_near (m := m) size ?_ ?_
  · rw [Int.cast_natCast, ← abs_two, ← abs_mul, abs_le]
    constructor <;> linarith
  · intro half
    by_contra odd
    obtain ⟨low_lt, lt_high⟩ := inside (by omega)
    have near : |x / 2 ^ e - m| < 1 / 2 := by
      rw [abs_lt]
      constructor <;> linarith
    rw [Int.cast_natCast] at half
    linarith

end

/-- **Reading back.**  What lies in the interval of a number is rounded to it. -/
theorem Owns.nearest_eq (owned : v.Owns x) (canonical : Canonical v.significand v.exponent)
    (pos : 0 < v.significand) : nearest x = v.magnitude := by
  obtain ⟨low_le, le_high, inside⟩ := owned
  unfold magnitude
  rcases halfGaps_cases v with ⟨power, least, gaps⟩ | ⟨no_power, gaps⟩ <;>
    rw [low, gaps] at low_le inside <;> rw [high, gaps] at le_high inside <;>
    push_cast at low_le le_high inside
  · rw [power] at low_le le_high ⊢
    push_cast at low_le le_high ⊢
    exact nearest_eq_of_power least low_le (by linarith)
  · have step := two_zpow_pos v.exponent
    refine nearest_eq_of_half canonical pos no_power ?_ ?_ fun odd => ?_
    · exact (le_div_iff₀ step).2 (by linarith)
    · exact (div_le_iff₀ step).2 (by linarith)
    · obtain ⟨low_lt, lt_high⟩ := inside odd
      exact ⟨(lt_div_iff₀ step).2 (by linarith), (div_lt_iff₀ step).2 (by linarith)⟩

end Finite

/-! ## Deciding -/

theorem zpow_eq_div (b : ℚ) (e : ℤ) : b ^ e = b ^ e.toNat / b ^ (-e).toNat := by
  rcases le_total 0 e with nonneg | nonpos
  · have none : (-e).toNat = 0 := by omega
    have all : (e.toNat : ℤ) = e := by omega
    rw [none, pow_zero, div_one, ← zpow_natCast, all]
  · have none : e.toNat = 0 := by omega
    have all : ((-e).toNat : ℤ) = -e := by omega
    rw [none, pow_zero, one_div, ← zpow_natCast, all, zpow_neg, inv_inv]

/-- A decimal and the ends of the interval, brought to whole numbers. -/
theorem exists_common_scale (v : Finite) (c : ℕ) (step : ℤ) :
    ∃ k : ℚ, 0 < k ∧
      ((c * 10 ^ step.toNat * (4 * v.denominator) : ℕ) : ℚ) = c * 10 ^ step * k ∧
      ∀ n : ℕ, ((n * 2 ^ v.exponent.toNat * 10 ^ (-step).toNat : ℕ) : ℚ) =
        n / 4 * 2 ^ v.exponent * k := by
  have two := zpow_eq_div 2 v.exponent
  have ten := zpow_eq_div 10 step
  have denominator : (v.denominator : ℚ) = 2 ^ (-v.exponent).toNat := by
    rw [Finite.denominator]
    exact_mod_cast rfl
  have two_pos : (0 : ℚ) < 2 ^ (-v.exponent).toNat := by positivity
  have ten_pos : (0 : ℚ) < 10 ^ (-step).toNat := by positivity
  refine ⟨4 * 2 ^ (-v.exponent).toNat * 10 ^ (-step).toNat, by positivity, ?_, fun n => ?_⟩
  · push_cast
    rw [denominator, ten]
    field_simp
  · push_cast
    rw [two]
    field_simp

/-- A whole number within two others, the ends included for an even significand. -/
def between (v : Finite) (low point high : ℕ) : Bool :=
  if v.significand % 2 = 0 then low ≤ point && point ≤ high else low < point && point < high

theorem roundsTo_eq (v : Finite) (c : ℕ) (step : ℤ) :
    roundsTo v c step = between v
      ((4 * v.significand - (halfGaps v).1) * 2 ^ v.exponent.toNat * 10 ^ (-step).toNat)
      (c * 10 ^ step.toNat * (4 * v.denominator))
      ((4 * v.significand + (halfGaps v).2) * 2 ^ v.exponent.toNat * 10 ^ (-step).toNat) := by
  rfl

theorem between_iff {v : Finite} {x k : ℚ} (k_pos : 0 < k) {low point high : ℕ}
    (low_eq : (low : ℚ) = v.low * k) (point_eq : (point : ℚ) = x * k)
    (high_eq : (high : ℚ) = v.high * k) : between v low point high = true ↔ v.Owns x := by
  have low_le : low ≤ point ↔ v.low ≤ x := by
    rw [← Nat.cast_le (α := ℚ), low_eq, point_eq, mul_le_mul_iff_left₀ k_pos]
  have le_high : point ≤ high ↔ x ≤ v.high := by
    rw [← Nat.cast_le (α := ℚ), high_eq, point_eq, mul_le_mul_iff_left₀ k_pos]
  have low_lt : low < point ↔ v.low < x := by
    rw [← Nat.cast_lt (α := ℚ), low_eq, point_eq, mul_lt_mul_iff_left₀ k_pos]
  have lt_high : point < high ↔ x < v.high := by
    rw [← Nat.cast_lt (α := ℚ), high_eq, point_eq, mul_lt_mul_iff_left₀ k_pos]
  unfold between
  split_ifs with even <;> rw [Bool.and_eq_true, decide_eq_true_iff, decide_eq_true_iff]
  · rw [low_le, le_high]
    exact ⟨fun ⟨low, high⟩ => ⟨low, high, fun odd => by omega⟩, fun owned => ⟨owned.1, owned.2⟩⟩
  · rw [low_lt, lt_high]
    exact ⟨fun ⟨low, high⟩ => ⟨low.le, high.le, fun _ => ⟨low, high⟩⟩,
      fun owned => owned.inside (by omega)⟩

/-- Whether a decimal rounds to a number is whether it lies in the interval. -/
theorem roundsTo_iff {v : Finite} (pos : 0 < v.significand) (c : ℕ) (step : ℤ) :
    roundsTo v c step = true ↔ v.Owns (c * 10 ^ step) := by
  obtain ⟨k, k_pos, point, ends⟩ := exists_common_scale v c step
  have gap : (halfGaps v).1 ≤ 4 * v.significand := by
    rcases Finite.halfGaps_cases v with ⟨-, -, gaps⟩ | ⟨-, gaps⟩ <;> rw [gaps] <;> omega
  rw [roundsTo_eq]
  refine between_iff k_pos ?_ point ?_
  · rw [ends, Finite.low]
    push_cast [gap]
    ring
  · rw [ends, Finite.high]
    push_cast
    ring

end Decimal

end Prognosis
