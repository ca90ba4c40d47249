import Prognosis.Proofs.Decimal.Shortest

/-!
# Decimals as numbers

A decimal in the interval of a number becomes that number (`value_toFloat`): decimals that are
settled by their leading place alone lie in no interval.
-/

namespace Prognosis

open Binary64 Text

namespace Decimal

variable {v : Finite} {d : Scaled}

/-! ## The range of decimals -/

theorem ten_zpow_lt_iff {a b : ℤ} : (10 : ℚ) ^ a < 10 ^ b ↔ a < b :=
  zpow_lt_zpow_iff_right₀ (by norm_num)

theorem edge_lt_ten_zpow : edge < 10 ^ (309 : ℤ) := by
  have base : (2 ^ 93 : ℚ) ^ 11 < (10 ^ 28) ^ 11 := by
    apply pow_lt_pow_left₀ <;> norm_num
  have two : edge = 2 * (2 ^ 93 : ℚ) ^ 11 := by
    rw [← pow_mul, ← pow_succ', edge]
    exact zpow_natCast 2 1024
  have ten : (10 : ℚ) ^ (309 : ℤ) = 10 * (10 ^ 28) ^ 11 := by
    rw [← pow_mul, ← pow_succ']
    exact zpow_natCast 10 309
  rw [two, ten]
  linarith

theorem ten_zpow_lt_least : (10 : ℚ) ^ (-325 : ℤ) < 2 ^ (-1075 : ℤ) := by
  have base : (2 ^ 43 : ℚ) ^ 25 < (10 ^ 13) ^ 25 := by
    apply pow_lt_pow_left₀ <;> norm_num
  rw [← pow_mul, ← pow_mul] at base
  have two : (2 : ℚ) ^ (-1075 : ℤ) = (2 ^ (43 * 25))⁻¹ := zpow_negSucc 2 1074
  have ten : (10 : ℚ) ^ (-325 : ℤ) = (10 ^ (13 * 25))⁻¹ := zpow_negSucc 10 324
  rw [two, ten]
  apply inv_strictAnti₀
  · positivity
  · exact base

namespace Finite

theorem Owns.bounds {x : ℚ} (owned : v.Owns x) (canonical : Canonical v.significand v.exponent)
    (fits : v.exponent ≤ 971) (pos : 0 < v.significand) :
    10 ^ (-325 : ℤ) < x ∧ x < 10 ^ (309 : ℤ) := by
  obtain ⟨first, second⟩ : ((halfGaps v).1 : ℚ) ≤ 2 ∧ ((halfGaps v).2 : ℚ) = 2 := by
    rcases halfGaps_cases v with ⟨-, -, gaps⟩ | ⟨-, gaps⟩ <;> rw [gaps] <;> norm_num
  have m_pos : (1 : ℚ) ≤ v.significand := by exact_mod_cast pos
  have m_lt : (v.significand : ℚ) + 1 ≤ 2 ^ 53 := by exact_mod_cast canonical.digits
  have unit := two_zpow_pos v.exponent
  have least := two_zpow_le canonical.least
  have largest := two_zpow_le fits
  constructor
  · have half : (2 : ℚ) ^ (-1075 : ℤ) = 1 / 2 * 2 ^ (-1074 : ℤ) := by
      rw [show (-1075 : ℤ) = -1 + -1074 by norm_num, two_zpow_add, zpow_neg_one, one_div]
    calc (10 : ℚ) ^ (-325 : ℤ) < 2 ^ (-1075 : ℤ) := ten_zpow_lt_least
      _ ≤ 1 / 2 * 2 ^ v.exponent := by rw [half]; linarith
      _ ≤ v.low := mul_le_mul_of_nonneg_right (by linarith) unit.le
      _ ≤ x := owned.low_le
  · calc x ≤ v.high := owned.le_high
      _ ≤ 2 ^ 53 * 2 ^ v.exponent := mul_le_mul_of_nonneg_right (by linarith) unit.le
      _ ≤ 2 ^ 53 * 2 ^ (971 : ℤ) := by linarith
      _ = edge := by
        rw [edge, show (1024 : ℤ) = 53 + 971 by norm_num, two_zpow_add, zpow_ofNat 2 53]
      _ < 10 ^ (309 : ℤ) := edge_lt_ten_zpow

end Finite

/-! ## Leading places -/

namespace Scaled

theorem value_pos (nonzero : d.digits ≠ 0) : 0 < d.value :=
  mul_pos (by exact_mod_cast Nat.pos_of_ne_zero nonzero) (ten_zpow_pos d.exponent)

theorem ten_zpow_place_le (nonzero : d.digits ≠ 0) : 10 ^ (d.place - 1) ≤ d.value := by
  have le := ten_pow_length_le (Nat.pos_of_ne_zero nonzero)
  have length := length_toString_pos d.digits
  have exponent : d.place - 1 = ((toString d.digits).length - 1 : ℕ) + d.exponent := by
    unfold place
    omega
  rw [exponent, zpow_add₀ (by norm_num), zpow_natCast]
  exact mul_le_mul_of_nonneg_right (by exact_mod_cast le) (ten_zpow_pos _).le

theorem value_lt_ten_zpow_place (d : Scaled) : d.value < 10 ^ d.place := by
  unfold place
  rw [zpow_add₀ (by norm_num), zpow_natCast]
  exact mul_lt_mul_of_pos_right (by exact_mod_cast lt_ten_pow_length _) (ten_zpow_pos _)

end Scaled

/-- **Decimals as numbers.**  A decimal in the interval of a number becomes that number. -/
theorem value_toFloat (owned : v.Owns d.value) (canonical : Canonical v.significand v.exponent)
    (fits : v.exponent ≤ 971) (pos : 0 < v.significand) (least : -2048 ≤ d.exponent) :
    value d.toFloat = v.magnitude ∧ d.toFloat.isNaN = false := by
  obtain ⟨above, below⟩ := owned.bounds canonical fits pos
  have nonzero : d.digits ≠ 0 := by
    intro zero
    have small := ten_zpow_pos (-325)
    rw [Scaled.value, zero, Nat.cast_zero, zero_mul] at above
    linarith
  have place_le : d.place - 1 < 309 :=
    ten_zpow_lt_iff.1 ((Scaled.ten_zpow_place_le nonzero).trans_lt below)
  have le_place : -325 < d.place :=
    ten_zpow_lt_iff.1 (above.trans (Scaled.value_lt_ten_zpow_place d))
  have length := length_toString_pos d.digits
  have exponent_lt : d.exponent < 310 := by
    unfold Scaled.place at place_le
    omega
  have exponent : (if decide (d.exponent < 0) = true then -(d.exponent.natAbs : ℤ)
      else d.exponent.natAbs) = d.exponent := by
    split_ifs with negative
    · have := of_decide_eq_true negative
      omega
    · have := of_decide_eq_false (Bool.eq_false_of_not_eq_true negative)
      omega
  unfold Scaled.toFloat
  rw [if_neg nonzero, if_neg (by omega), if_neg (by omega)]
  obtain ⟨read, defined⟩ := value_ofScientific d.digits (decide (d.exponent < 0))
    (e := d.exponent.natAbs) (by omega)
  rw [exponent] at read
  refine ⟨read.trans ?_, defined⟩
  have rounded : nearest (d.digits * 10 ^ d.exponent) = v.magnitude :=
    owned.nearest_eq canonical pos
  have magnitude_pos := Finite.magnitude_pos pos
  have magnitude_lt : v.magnitude < edge := magnitude_lt_edge canonical.digits fits
  rw [nearest64, rounded, min_eq_right magnitude_lt.le, max_eq_right (by linarith [edge_pos])]

/-! ## Decoded numbers -/

section

variable {x : Float} (decoded : decode x = .finite v)

include decoded

theorem exists_magnitude :
    ∃ y : Float, decode y = .finite { v with negative := false } ∧ value y = v.magnitude := by
  obtain ⟨y, unsigned⟩ : ∃ y : Float, decode y = .finite { v with negative := false } := by
    obtain ⟨negative, m, e⟩ := v
    cases negative with
    | false => exact ⟨x, decoded⟩
    | true => exact ⟨-x, decode_neg decoded⟩
  refine ⟨y, unsigned, ?_⟩
  rw [value_of_decode unsigned]
  exact one_mul _

theorem exponent_of_zero : (shortest v).digits = 0 → (shortest v).exponent = 0 := by
  intro digits
  obtain ⟨canonical, fits⟩ := canonical_of_decode decoded
  rcases v.significand.eq_zero_or_pos with zero | pos
  · rw [shortest, if_pos zero]
  · have above := ((shortest_spec canonical pos).1.bounds canonical fits pos).1
    rw [Scaled.value, digits, Nat.cast_zero, zero_mul] at above
    exact absurd above (ten_zpow_pos _).not_gt

end

end Decimal

end Prognosis
