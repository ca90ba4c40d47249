import Prognosis.Proofs.Binary64.Value

/-!
# Decimals as binary64 numbers

A decimal becomes the nearest binary64 number, whichever way that is worked out
(`value_ofScientific`).  Whole numbers of at most 53 binary digits are kept (`value_ofNat`).
-/

namespace Prognosis.Binary64

open Float.Model (UnpackedFloat)
open Float.Model.UnpackedFloat (Sign)

/-! ## Decimals in exact steps -/

theorem rounds_ofScientific {m : ℕ} (pos : 0 < m) {e : ℤ} (low : -2048 ≤ e) (high : e ≤ 2048) :
    Rounds (.ofScientific .binary64 m e) (m * 10 ^ e) := by
  have ten_pow (k : ℕ) : 0 < 10 ^ k := Nat.pow_pos (by norm_num)
  rw [UnpackedFloat.ofScientific, dif_neg pos.ne', if_neg (by norm_num; omega),
    if_neg (by norm_num; omega)]
  split_ifs with nonneg
  · have shifted : ((m <<< 53 : ℕ) : ℚ) * 2 ^ (-53 : ℤ) = m := by
      have := shiftLeft_mul m 0 (-53)
      rwa [zpow_zero, mul_one] at this
    have shifted_pos : 0 < m <<< 53 := by
      rw [Nat.shiftLeft_eq]
      exact Nat.mul_pos pos (Nat.two_pow_pos _)
    have many : 2 ^ 52 ≤ m <<< 53 * 10 ^ e.toNat := by
      have : 2 ^ 53 ≤ m <<< 53 := by
        rw [Nat.shiftLeft_eq]
        exact Nat.le_mul_of_pos_left _ pos
      exact le_trans (by norm_num) (this.trans (Nat.le_mul_of_pos_right _ (ten_pow _)))
    have product := rounds_mul_finite .positive .positive (e := -53) (f := 0) shifted_pos
      (ten_pow e.toNat) (.inl many)
    have exact : valueOf (.finite .positive (m <<< 53) (-53) shifted_pos) *
        valueOf (.finite .positive (10 ^ e.toNat) 0 (ten_pow _)) = m * 10 ^ e := by
      obtain ⟨k, rfl⟩ := Int.eq_ofNat_of_zero_le nonneg
      rw [valueOf, valueOf, factor_positive, one_mul, one_mul, shifted, Int.toNat_natCast,
        zpow_zero, mul_one, zpow_natCast]
      push_cast
      rfl
    rw [exact] at product
    exact product
  · have quotient := rounds_div (u := .finite .positive m 0 pos)
      (v := .finite .positive (10 ^ (-e).toNat) 0 (ten_pow _)) rfl rfl (by
        rw [valueOf, factor_positive, one_mul]
        exact (magnitude_pos (ten_pow _) 0).ne')
    have exact : valueOf (.finite .positive m 0 pos) /
        valueOf (.finite .positive (10 ^ (-e).toNat) 0 (ten_pow _)) = m * 10 ^ e := by
      obtain ⟨k, opposite⟩ := Int.eq_ofNat_of_zero_le (show 0 ≤ -e by omega)
      obtain rfl : e = -k := by omega
      norm_num [valueOf]
      rw [div_eq_mul_inv]
    rw [exact] at quotient
    exact quotient

/-! ## The two ways -/

theorem value_pack {u : UnpackedFloat} {q : ℚ} (h : Rounds u q) :
    value (.ofModel (.pack u)) = nearest64 q ∧ (Float.ofModel (.pack u)).isNaN = false := by
  have unpacked : (Float.ofModel (.pack u)).toModel.unpack = held u := unpack_pack h.rounded
  rw [value, unpacked, Float.isNaN, Float.Model.isNaN, unpacked]
  exact valueOf_held h

theorem value_model_ofScientific (m : ℕ) {e : ℤ} (low : -2048 ≤ e) (high : e ≤ 2048) :
    value (.ofModel (.ofScientific m e)) = nearest64 (m * 10 ^ e) ∧
      (Float.ofModel (.ofScientific m e)).isNaN = false := by
  rcases m.eq_zero_or_pos with rfl | pos
  · have zero : Rounds (.ofScientific .binary64 0 e) ((0 : ℕ) * 10 ^ e) := by
      rw [Nat.cast_zero, zero_mul]
      exact ⟨rfl, trivial, nearest_zero.symm⟩
    exact value_pack zero
  · exact value_pack (rounds_ofScientific pos low high)

theorem natCast_lt_edge {n : ℕ} (digits : n < 2 ^ 53) : (n : ℚ) < edge := by
  simpa using magnitude_lt_edge (e := 0) digits (by norm_num)

theorem finite_of_value_eq_natCast {x : Float} {n : ℕ} (x_defined : x.isNaN = false)
    (same : value x = n) (below : (n : ℚ) < edge) : x.isFinite = true := by
  have nonneg : (0 : ℚ) ≤ n := Nat.cast_nonneg n
  have pos := edge_pos
  exact finite_of_value x_defined (by linarith) (by linarith)

theorem value_toUInt64_toFloat {m : ℕ} (digits : m < 2 ^ 53) :
    value m.toUInt64.toFloat = m ∧ m.toUInt64.toFloat.isFinite = true := by
  have kept : m.toUInt64.toNat = m := Nat.mod_eq_of_lt (by omega)
  have packed : m.toUInt64.toFloat =
      .ofModel (.pack (.normalize .binary64 (m : ℤ) 0 .positive)) := by
    show Float.ofModel (.pack (.normalize .binary64 (m.toUInt64.toNat : ℤ) 0 .positive)) = _
    rw [kept]
  have whole := value_pack (rounds_normalize (m : ℤ) 0)
  rw [zpow_zero, mul_one, Int.cast_natCast, nearest64_natCast digits, ← packed] at whole
  exact ⟨whole.1, finite_of_value_eq_natCast whole.2 whole.1 (natCast_lt_edge digits)⟩

theorem power_of_ten : ∀ e : Fin 23,
    Float.exactlyRepresentablePowersOfTen[e] = .ofModel (.ofNat (10 ^ e.val)) := by
  decide

/-- A power of ten in the table has few digits once its twos are taken out. -/
theorem nearest64_ten_pow {e : ℕ} (small : e ≤ 22) :
    nearest64 (10 ^ e : ℕ) = (10 ^ e : ℕ) ∧ ((10 ^ e : ℕ) : ℚ) < edge := by
  have digits : 5 ^ e < 2 ^ 53 := (Nat.pow_le_pow_right (by norm_num) small).trans_lt (by norm_num)
  have split : ((10 ^ e : ℕ) : ℚ) = (5 ^ e : ℕ) * 2 ^ (e : ℤ) := by
    rw [zpow_natCast]
    push_cast
    rw [← mul_pow]
    norm_num
  have below : ((5 ^ e : ℕ) * 2 ^ (e : ℤ) : ℚ) < edge := magnitude_lt_edge digits (by omega)
  have above : (0 : ℚ) < (5 ^ e : ℕ) * 2 ^ (e : ℤ) := magnitude_pos (Nat.pow_pos (by norm_num)) e
  rw [split]
  exact ⟨nearest64_of_nearest (nearest_of_digits digits (by omega)) (by linarith [edge_pos])
    below.le, below⟩

theorem value_power_of_ten (e : Fin 23) :
    value Float.exactlyRepresentablePowersOfTen[e] = (10 ^ e.val : ℕ) ∧
      Float.exactlyRepresentablePowersOfTen[e].isFinite = true := by
  obtain ⟨kept, below⟩ := nearest64_ten_pow (show e.val ≤ 22 by omega)
  have whole := value_pack (rounds_normalize ((10 ^ e.val : ℕ) : ℤ) 0)
  rw [zpow_zero, mul_one, Int.cast_natCast, kept] at whole
  rw [power_of_ten]
  exact ⟨whole.1, finite_of_value_eq_natCast whole.2 whole.1 below⟩

/-- **Decimals.**  A decimal becomes the nearest binary64 number. -/
theorem value_ofScientific (m : ℕ) (minus : Bool) {e : ℕ} (bound : e ≤ 2048) :
    value (Float.ofScientific m minus e) =
        nearest64 (m * 10 ^ (if minus then -(e : ℤ) else e)) ∧
      (Float.ofScientific m minus e).isNaN = false := by
  unfold Float.ofScientific
  split_ifs with fast down
  · obtain ⟨whole, whole_finite⟩ := value_toUInt64_toFloat fast.1
    obtain ⟨power, power_finite⟩ := value_power_of_ten ⟨e, by omega⟩
    have nonzero : ((10 ^ e : ℕ) : ℚ) ≠ 0 := by positivity
    have quotient := value_div whole_finite power_finite (by rwa [power])
    rw [whole, power] at quotient
    rw [zpow_neg, zpow_natCast, ← div_eq_mul_inv]
    exact_mod_cast quotient
  · obtain ⟨whole, whole_finite⟩ := value_toUInt64_toFloat fast.1
    obtain ⟨power, power_finite⟩ := value_power_of_ten ⟨e, by omega⟩
    have product := value_mul whole_finite power_finite
    rw [whole, power] at product
    rw [zpow_natCast]
    exact_mod_cast product
  · rw [Int.negOfNat_eq]
    exact value_model_ofScientific m (e := -(e : ℤ)) (by omega) (by omega)
  · exact value_model_ofScientific m (e := (e : ℤ)) (by omega) (by omega)

/-- Whole numbers are kept. -/
theorem value_ofNat {n : ℕ} (digits : n < 2 ^ 53) :
    value (Float.ofNat n) = n ∧ (Float.ofNat n).isFinite = true := by
  have decimal := value_ofScientific n false (e := 0) (by norm_num)
  rw [if_neg (by decide), Nat.cast_zero, zpow_zero, mul_one, nearest64_natCast digits] at decimal
  exact ⟨decimal.1, finite_of_value_eq_natCast decimal.2 decimal.1 (natCast_lt_edge digits)⟩

end Prognosis.Binary64
