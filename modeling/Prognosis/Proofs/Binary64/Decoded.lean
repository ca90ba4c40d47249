import Prognosis.Decimal.Fixed
import Prognosis.Proofs.Binary64.Literal

/-!
# Decoded numbers

Decoding a number splits off what its exact value is made of (`value_of_decode`).  Rounding to a
whole number does not cross one: what lies at or below `k` is rounded to at most `k`
(`nearestInt64_le`), and what lies at or above it to at least `k` (`le_nearestInt64`).
-/

namespace Prognosis.Binary64

open Decimal
open Float.Model (UnpackedFloat)

/-! ## Values -/

theorem fraction_eq (v : Finite) :
    (v.numerator : ℚ) / v.denominator = v.significand * 2 ^ v.exponent := by
  rw [Finite.numerator, Finite.denominator]
  rcases le_total 0 v.exponent with nonneg | nonpos
  · obtain ⟨k, exponent⟩ := Int.eq_ofNat_of_zero_le nonneg
    have none : (-(k : ℤ)).toNat = 0 := by omega
    rw [exponent, none]
    norm_num
  · obtain ⟨k, exponent⟩ := Int.eq_ofNat_of_zero_le (neg_nonneg.2 nonpos)
    obtain exponent : v.exponent = -k := by omega
    have none : (-(k : ℤ)).toNat = 0 := by omega
    rw [exponent, none]
    norm_num [div_eq_mul_inv]

theorem factor_eq_ite (s : UnpackedFloat.Sign) : factor s = if isMinus s then -1 else 1 := by
  cases s <;> rfl

theorem value_of_decode {x : Float} {v : Finite} (h : decode x = .finite v) :
    value x = (if v.negative then -1 else 1) * (v.significand * 2 ^ v.exponent) := by
  rw [decode_eq] at h
  unfold value
  cases u : x.toModel.unpack with
  | infinity s => rw [u] at h; cases h
  | notANumber => rw [u] at h; cases h
  | zero s =>
    rw [u] at h
    cases h
    rw [valueOf, Nat.cast_zero, zero_mul, mul_zero]
  | finite s m e pos =>
    rw [u] at h
    cases h
    rw [valueOf, factor_eq_ite]

theorem value_of_decode_infinite {x : Float} {negative : Bool} (h : decode x = .infinite negative) :
    value x = if negative then -edge else edge := by
  rw [decode_eq] at h
  unfold value
  cases u : x.toModel.unpack with
  | infinity s =>
    rw [u] at h
    cases h
    cases s
    · exact neg_one_mul _
    · exact one_mul _
  | _ => rw [u] at h; cases h

theorem decode_eq_nan_iff {x : Float} : decode x = .nan ↔ x.isNaN = true := by
  rw [decode_eq, Float.isNaN, Float.Model.isNaN]
  cases x.toModel.unpack <;> simp [decoded, UnpackedFloat.isNaN]

theorem canonical_of_decode {x : Float} {v : Finite} (h : decode x = .finite v) :
    Canonical v.significand v.exponent ∧ v.exponent ≤ 971 := by
  have range := inRange_unpack x
  rw [decode_eq] at h
  cases u : x.toModel.unpack with
  | infinity s => rw [u] at h; cases h
  | notANumber => rw [u] at h; cases h
  | zero s =>
    rw [u] at h
    cases h
    exact ⟨⟨by norm_num, le_rfl, .inr rfl⟩, by norm_num [leastExponent]⟩
  | finite s m e pos =>
    rw [u] at h range
    cases h
    exact ⟨range.rounded, range.exponent_le⟩

theorem decoded_inj {u v : UnpackedFloat} (same : decoded u = decoded v) : u = v := by
  have minus {s t : UnpackedFloat.Sign} (h : isMinus s = isMinus t) : s = t := by
    cases s <;> cases t <;> first | rfl | cases h
  cases u <;> cases v <;> simp [decoded] at same ⊢
  case infinity.infinity => exact minus same
  case zero.zero => exact minus same
  case zero.finite pos => omega
  case finite.zero pos => omega
  case finite.finite => exact ⟨minus same.1, same.2⟩

/-- Decoding loses nothing. -/
theorem eq_of_decode {x y : Float} (same : decode x = decode y) : x = y := by
  rw [decode_eq, decode_eq] at same
  exact eq_of_unpack (decoded_inj same)

theorem exists_decode {x : Float} (x_finite : x.isFinite = true) : ∃ v, decode x = .finite v := by
  rw [decode_eq]
  rcases unpack_of_finite x_finite with ⟨s, h⟩ | ⟨s, m, e, pos, h⟩ <;> rw [h]
  · exact ⟨_, rfl⟩
  · exact ⟨_, rfl⟩

section

variable {x : Float} {v : Finite} (decoded : decode x = .finite v)

include decoded

theorem finite_of_decode : x.isFinite = true := by
  rw [decode_eq] at decoded
  unfold Float.isFinite Float.Model.isFinite
  cases u : x.toModel.unpack with
  | infinity s => rw [u] at decoded; cases decoded
  | notANumber => rw [u] at decoded; cases decoded
  | _ => rfl

theorem isInf_of_decode : x.isInf = false := by
  rw [decode_eq] at decoded
  unfold Float.isInf Float.Model.isInf
  cases u : x.toModel.unpack with
  | infinity s =>
    rw [u] at decoded
    cases decoded
  | _ => rfl

theorem defined_of_decode : x.isNaN = false := defined_of_finite (finite_of_decode decoded)

end

/-! ## Negation -/

theorem unpack_neg (x : Float) : (-x).toModel.unpack = x.toModel.unpack.neg := by
  show (Float.Model.pack x.toModel.unpack.neg).unpack = x.toModel.unpack.neg
  obtain ⟨rounded, fits⟩ := inRange_unpack x
  generalize x.toModel.unpack = u at rounded fits
  have rounded_neg : Rounded u.neg := by
    cases u with
    | finite s m e pos => exact rounded
    | _ => trivial
  rw [unpack_pack rounded_neg]
  cases u with
  | finite s m e pos =>
    rw [held] at fits
    split_ifs at fits with large
    exact if_neg large
  | _ => rfl

theorem decode_neg {x : Float} {v : Finite} (h : decode x = .finite v) :
    decode (-x) = .finite { v with negative := !v.negative } := by
  rw [decode_eq] at h ⊢
  rw [unpack_neg]
  cases u : x.toModel.unpack with
  | infinity s => rw [u] at h; cases h
  | notANumber => rw [u] at h; cases h
  | zero s =>
    rw [u] at h
    cases h
    cases s <;> rfl
  | finite s m e pos =>
    rw [u] at h
    cases h
    cases s <;> rfl

/-! ## Nearest whole numbers -/

section

variable {n d k : ℕ}

theorem nearestUp_le (d_pos : 0 < d) (le : n ≤ k * d) : nearestUp n d ≤ k := by
  rw [nearestUp]
  have bound : 2 * n + d < 2 * d * (k + 1) := by nlinarith
  exact Nat.le_of_lt_succ (Nat.div_lt_of_lt_mul bound)

theorem le_nearestUp (d_pos : 0 < d) (le : k * d ≤ n) : k ≤ nearestUp n d := by
  rw [nearestUp, Nat.le_div_iff_mul_le (by omega)]
  nlinarith

end

theorem nearestUp_mono {n d n' d' : ℕ} (d_pos : 0 < d) (d'_pos : 0 < d')
    (le : (n : ℚ) / d ≤ n' / d') : nearestUp n d ≤ nearestUp n' d' := by
  have cross : n * d' ≤ n' * d := by
    rw [div_le_div_iff₀ (by exact_mod_cast d_pos) (by exact_mod_cast d'_pos)] at le
    exact_mod_cast le
  have low : nearestUp n d * (2 * d) ≤ 2 * n + d := Nat.div_mul_le_self _ _
  rw [nearestUp, nearestUp, Nat.le_div_iff_mul_le (by omega), ← nearestUp]
  refine Nat.le_of_mul_le_mul_right ?_ d_pos
  calc nearestUp n d * (2 * d') * d = nearestUp n d * (2 * d) * d' := by ring
    _ ≤ (2 * n + d) * d' := Nat.mul_le_mul_right _ low
    _ ≤ (2 * n' + d') * d := by linarith

/-- A finite number that is not negative, as a fraction, and what it is rounded to. -/
theorem exists_nearestInt64_eq {x : Float} (x_finite : x.isFinite = true)
    (nonneg : 0 ≤ value x) : ∃ n d : ℕ, 0 < d ∧ value x = n / d ∧
      nearestInt64 x = (min (nearestUp n d) (halfWord - 1) : ℕ) := by
  obtain ⟨v, h⟩ := exists_decode x_finite
  unfold nearestInt64
  rw [h]
  have exact := value_of_decode h
  rw [← fraction_eq] at exact
  dsimp only
  by_cases minus : v.negative = true
  · -- A negative number that is not below zero is zero.
    rw [if_pos minus, neg_one_mul] at exact
    have fraction_nonneg : (0 : ℚ) ≤ v.numerator / v.denominator :=
      div_nonneg (Nat.cast_nonneg _) (Nat.cast_nonneg _)
    have zero : (v.numerator / v.denominator : ℚ) = 0 := by linarith
    have none : v.numerator = 0 := by
      rw [div_eq_zero_iff, or_iff_left (by exact_mod_cast v.denominator_pos.ne')] at zero
      exact_mod_cast zero
    refine ⟨0, 1, one_pos, by rw [exact, zero]; norm_num, ?_⟩
    have rounded := nearestUp_le (n := v.numerator) (k := 0) v.denominator_pos (by omega)
    rw [if_pos minus, Nat.le_zero.1 rounded]
    rfl
  · rw [if_neg minus, one_mul] at exact
    exact ⟨v.numerator, v.denominator, v.denominator_pos, exact, if_neg minus⟩

theorem nearestInt64_of_infinite {x : Float} (x_infinite : x.isInf = true) (nonneg : 0 ≤ value x) :
    nearestInt64 x = (halfWord - 1 : ℕ) := by
  unfold nearestInt64
  cases h : decode x with
  | nan =>
    obtain ⟨s, unpacked⟩ := exists_unpack_of_infinite x_infinite
    rw [decode_eq, unpacked] at h
    cases h
  | infinite negative =>
    cases negative with
    | true =>
      rw [value_of_decode_infinite h, if_pos rfl] at nonneg
      linarith [edge_pos]
    | false => rfl
  | finite v =>
    obtain ⟨s, unpacked⟩ := exists_unpack_of_infinite x_infinite
    rw [decode_eq, unpacked] at h
    cases h

theorem nearestInt64_mono {x y : Float} (x_finite : x.isFinite = true)
    (y_finite : y.isFinite = true) (nonneg : 0 ≤ value x) (le : value x ≤ value y) :
    nearestInt64 x ≤ nearestInt64 y := by
  obtain ⟨n, d, d_pos, x_value, x_rounded⟩ := exists_nearestInt64_eq x_finite nonneg
  obtain ⟨n', d', d'_pos, y_value, y_rounded⟩ := exists_nearestInt64_eq y_finite (nonneg.trans le)
  rw [x_value, y_value] at le
  rw [x_rounded, y_rounded]
  exact_mod_cast min_le_min_right _ (nearestUp_mono d_pos d'_pos le)

/-- Rounding does not pass a whole number from below; what is undefined is rounded to zero. -/
theorem nearestInt64_le {x : Float} {k : ℕ} (le : value x ≤ k) : nearestInt64 x ≤ k := by
  unfold nearestInt64
  cases h : decode x with
  | nan => exact Int.natCast_nonneg k
  | infinite negative =>
    have infinite := value_of_decode_infinite h
    cases negative with
    | true => simp only [if_pos]; omega
    | false =>
      rw [if_neg (by decide)] at infinite
      have large : (halfWord : ℚ) ≤ edge := by
        have word : (halfWord : ℚ) = 2 ^ (63 : ℤ) := by norm_num [halfWord, UInt64.size]
        rw [word, edge]
        exact two_zpow_le (by norm_num)
      have : (halfWord : ℚ) ≤ k := by linarith
      have : halfWord ≤ k := by exact_mod_cast this
      simp only [Bool.false_eq_true, if_false]
      omega
  | finite v =>
    have exact := value_of_decode h
    rw [← fraction_eq] at exact
    have d_pos : (0 : ℚ) < v.denominator := by exact_mod_cast v.denominator_pos
    dsimp only
    split_ifs with minus
    · omega
    · rw [if_neg minus, one_mul] at exact
      rw [exact, div_le_iff₀ d_pos] at le
      have := nearestUp_le v.denominator_pos (by exact_mod_cast le)
      omega

/-- Rounding does not pass a whole number from above. -/
theorem le_nearestInt64 {x : Float} {k : ℕ} (x_defined : x.isNaN = false) (fits : k < halfWord)
    (le : (k : ℚ) ≤ value x) : (k : ℤ) ≤ nearestInt64 x := by
  have k_nonneg : (0 : ℚ) ≤ k := Nat.cast_nonneg k
  rcases finite_or_infinite x_defined with x_finite | x_infinite
  · obtain ⟨n, d, d_pos, exact, rounded⟩ := exists_nearestInt64_eq x_finite (k_nonneg.trans le)
    rw [exact, le_div_iff₀ (by exact_mod_cast d_pos)] at le
    have := le_nearestUp d_pos (by exact_mod_cast le)
    rw [rounded]
    omega
  · rw [nearestInt64_of_infinite x_infinite (by linarith)]
    omega

end Prognosis.Binary64
