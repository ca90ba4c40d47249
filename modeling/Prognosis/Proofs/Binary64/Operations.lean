import Prognosis.Proofs.Binary64.Unpacked

/-!
# Sums, products and quotients of unpacked numbers

Every operation on finite numbers gives the exact result rounded to binary64 precision
(`rounds_add`, `rounds_mul`, `rounds_div`, `rounds_ofScientific`).
-/

namespace Prognosis.Binary64

open Float.Model Float.Model.UnpackedFloat

/-- A finite number in canonical form that is nearest to an exact one. -/
structure Rounds (u : UnpackedFloat) (q : ℚ) : Prop where
  finite : u.isFinite = true
  rounded : Rounded u
  value : valueOf u = nearest q

/-! ## Signs -/

@[simp] theorem factor_positive : factor .positive = 1 := rfl

@[simp] theorem factor_negative : factor .negative = -1 := rfl

theorem factor_mul (s t : Sign) : factor (s * t) = factor s * factor t := by
  cases s <;> cases t <;> simp only [factor_positive, factor_negative] <;> norm_num <;> rfl

theorem factor_div (s t : Sign) : factor (s / t) = factor s / factor t := by
  cases s <;> cases t <;> simp only [factor_positive, factor_negative] <;> norm_num <;> rfl

theorem nearest_factor_mul (s : Sign) (q : ℚ) : nearest (factor s * q) = factor s * nearest q := by
  cases s
  · rw [factor_negative, neg_one_mul, neg_one_mul, nearest_neg]
  · rw [factor_positive, one_mul, one_mul]

theorem cast_apply (s : Sign) (n : ℤ) : ((s.apply n : ℤ) : ℚ) = factor s * n := by
  cases s <;> simp [Sign.apply]

/-! ## Rounding -/

theorem rounds_assemble {m : ℕ} {e : ℤ} {q : ℚ} (s : Sign) (canonical : Canonical m e)
    (value : (m * 2 ^ e : ℚ) = nearest q) : Rounds (assemble s m e) (factor s * q) where
  finite := by unfold assemble; split <;> rfl
  rounded := canonical.rounded s
  value := by rw [valueOf_assemble, value, nearest_factor_mul]

theorem rounds_roundWithAccuracy {m : ℕ} {e : ℤ} {acc : Accuracy} {q : ℚ} (s : Sign)
    (h : Represents (.ofMantissaAndAccuracy m acc) (q / 2 ^ e)) (fine : 2 ^ 52 ≤ m ∨ e ≤ -1074) :
    Rounds (roundWithAccuracy .binary64 s m e acc) (factor s * q) := by
  obtain ⟨m', e', canonical, value, same⟩ := exists_roundWithAccuracy_eq s h fine
  rw [same]
  exact rounds_assemble s canonical value

theorem rounds_roundWithAccuracy_exact (s : Sign) {m : ℕ} {e : ℤ}
    (fine : 2 ^ 52 ≤ m ∨ e ≤ -1074) :
    Rounds (roundWithAccuracy .binary64 s m e .exact) (factor s * (m * 2 ^ e)) := by
  refine rounds_roundWithAccuracy s ?_ fine
  rw [mul_div_cancel_right₀ _ (two_zpow_pos e).ne']
  exact .exact m

theorem shiftLeft_mul (m : ℕ) (e t : ℤ) :
    ((m <<< (e - t).toNat : ℕ) * 2 ^ (e - (e - t).toNat) : ℚ) = m * 2 ^ e := by
  rw [Nat.shiftLeft_eq]
  push_cast
  rw [← zpow_natCast (2 : ℚ), mul_assoc, ← two_zpow_add]
  congr 2
  omega

theorem two_pow_le_shiftLeft {m : ℕ} (pos : 0 < m) (k : ℕ) : 2 ^ (m.log2 + k) ≤ m <<< k := by
  rw [Nat.shiftLeft_eq, pow_add]
  exact Nat.mul_le_mul_right _ (Nat.log2_self_le pos.ne')

theorem rounds_round (s : Sign) {m : ℕ} (pos : 0 < m) (e : ℤ) :
    Rounds (round .binary64 s m e) (factor s * (m * 2 ^ e)) := by
  have target := targetExponent_eq m e
  rw [UnpackedFloat.round, ← shiftLeft_mul m e (Format.binary64.targetExponent (totalExponent m e))]
  refine rounds_roundWithAccuracy_exact s ?_
  generalize Format.binary64.targetExponent (totalExponent m e) = t at target
  rcases le_or_gt t (-1074) with least | large
  · right
    omega
  · left
    exact (Nat.pow_le_pow_right two_pos (by omega)).trans (two_pow_le_shiftLeft pos (e - t).toNat)

theorem rounds_normalize (i : ℤ) (e : ℤ) :
    Rounds (UnpackedFloat.normalize .binary64 i e .positive) (i * 2 ^ e) := by
  unfold UnpackedFloat.normalize
  rcases lt_trichotomy i 0 with neg | rfl | pos
  · rw [Int.compare_eq_lt.2 neg]
    have magnitude := rounds_round .negative (m := (-i).toNat) (by omega) e
    have cast : (((-i).toNat : ℕ) : ℚ) = -i := by
      have : (((-i).toNat : ℕ) : ℤ) = -i := by omega
      exact_mod_cast this
    rw [cast, factor_negative] at magnitude
    convert magnitude using 1
    ring
  · exact ⟨rfl, trivial, by simp [valueOf]⟩
  · rw [Int.compare_eq_gt.2 pos]
    have magnitude := rounds_round .positive (m := i.toNat) (by omega) e
    have cast : ((i.toNat : ℕ) : ℚ) = i := by
      have : ((i.toNat : ℕ) : ℤ) = i := by omega
      exact_mod_cast this
    rwa [cast, factor_positive, one_mul] at magnitude

theorem rounds_self {u : UnpackedFloat} (finite : u.isFinite = true) (rounded : Rounded u) :
    Rounds u (valueOf u) := by
  refine ⟨finite, rounded, ?_⟩
  cases u with
  | infinity s => cases finite
  | notANumber => cases finite
  | zero s => simp [valueOf]
  | finite s m e _ =>
    rw [valueOf, nearest_factor_mul, nearest_of_digits rounded.digits rounded.least]

/-! ## Operations -/

variable {u v : UnpackedFloat}

/-- Two numbers are added at the smaller of their exponents. -/
theorem valueOf_finite_add (s t : Sign) {m n : ℕ} {e f : ℤ} (m_pos : 0 < m) (n_pos : 0 < n) :
    valueOf (.finite s m e m_pos) + valueOf (.finite t n f n_pos) =
      ((s.apply (m <<< (e - min e f).toNat : ℕ) + t.apply (n <<< (f - min e f).toNat : ℕ) : ℤ) :
        ℚ) * 2 ^ min e f := by
  have e_min : e - ((e - min e f).toNat : ℤ) = min e f := by omega
  have f_min : f - ((f - min e f).toNat : ℤ) = min e f := by omega
  have left := shiftLeft_mul m e (min e f)
  have right := shiftLeft_mul n f (min e f)
  rw [e_min] at left
  rw [f_min] at right
  rw [Int.cast_add, cast_apply, cast_apply, add_mul, valueOf, valueOf, ← left, ← right, mul_assoc,
    mul_assoc]
  rfl

theorem rounds_add (u_finite : u.isFinite = true) (v_finite : v.isFinite = true)
    (u_rounded : Rounded u) (v_rounded : Rounded v) :
    Rounds (add .binary64 u v) (valueOf u + valueOf v) := by
  cases u with
  | infinity s => cases u_finite
  | notANumber => cases u_finite
  | zero s =>
    cases v with
    | infinity s => cases v_finite
    | notANumber => cases v_finite
    | zero t =>
      rw [UnpackedFloat.add]
      split <;> exact ⟨rfl, trivial, by simp [valueOf]⟩
    | finite t n f _ =>
      rw [show valueOf (.zero s) = 0 from rfl, zero_add]
      exact rounds_self rfl v_rounded
  | finite s m e _ =>
    cases v with
    | infinity s => cases v_finite
    | notANumber => cases v_finite
    | zero t =>
      rw [show valueOf (.zero t) = 0 from rfl, add_zero]
      exact rounds_self rfl u_rounded
    | finite t n f _ =>
      rw [valueOf_finite_add]
      exact rounds_normalize _ _

theorem rounds_mul_finite (s t : Sign) {m n : ℕ} {e f : ℤ} (m_pos : 0 < m) (n_pos : 0 < n)
    (fine : 2 ^ 52 ≤ m * n ∨ e + f ≤ -1074) :
    Rounds (mul .binary64 (.finite s m e m_pos) (.finite t n f n_pos))
      (valueOf (.finite s m e m_pos) * valueOf (.finite t n f n_pos)) := by
  have product := rounds_roundWithAccuracy_exact (s * t) fine
  have value : valueOf (.finite s m e m_pos) * valueOf (.finite t n f n_pos) =
      factor (s * t) * ((m * n : ℕ) * 2 ^ (e + f)) := by
    rw [valueOf, valueOf, factor_mul, two_zpow_add]
    push_cast
    ring
  rw [value]
  exact product

theorem rounds_mul (u_finite : u.isFinite = true) (v_finite : v.isFinite = true)
    (u_rounded : Rounded u) (v_rounded : Rounded v) :
    Rounds (mul .binary64 u v) (valueOf u * valueOf v) := by
  have zero (s : Sign) : Rounds (.zero s) 0 := ⟨rfl, trivial, by simp [valueOf]⟩
  cases u with
  | infinity s => cases u_finite
  | notANumber => cases u_finite
  | zero s =>
    rw [show valueOf (.zero s) = 0 from rfl, zero_mul]
    cases v with
    | infinity s => cases v_finite
    | notANumber => cases v_finite
    | zero t => exact zero _
    | finite t n f _ => exact zero _
  | finite s m e m_pos =>
    cases v with
    | infinity s => cases v_finite
    | notANumber => cases v_finite
    | zero t =>
      rw [show valueOf (.zero t) = 0 from rfl, mul_zero]
      exact zero _
    | finite t n f n_pos =>
      refine rounds_mul_finite s t m_pos n_pos ?_
      rcases u_rounded.leading with many | least
      · exact .inl (many.trans (Nat.le_mul_of_pos_right m n_pos))
      · rcases v_rounded.leading with many' | least'
        · exact .inl (many'.trans (Nat.le_mul_of_pos_left n m_pos))
        · exact .inr (by omega)

/-- The quotient has enough digits before its residual bits. -/
theorem divCore_fine {m n : ℕ} (m_pos : 0 < m) (n_pos : 0 < n) (e f : ℤ) :
    2 ^ 52 ≤ (divCore .binary64 m e n f).1 ∨ (divCore .binary64 m e n f).2.1 ≤ -1074 := by
  dsimp only [divCore, Format.targetExponent, totalExponent, Format.mantissaBits,
    Format.minExponent]
  norm_num only
  generalize aim : min (e - f) _ = t
  rcases le_or_gt t (-1074) with least | large
  · exact .inr least
  · left
    have enough : n.log2 + 53 ≤ m.log2 + (e - f - t).toNat := by omega
    rw [Nat.le_div_iff_mul_le n_pos]
    calc 2 ^ 52 * n ≤ 2 ^ 52 * 2 ^ (n.log2 + 1) := Nat.mul_le_mul_left _ Nat.lt_log2_self.le
      _ = 2 ^ (n.log2 + 53) := by rw [← pow_add]; congr 1; omega
      _ ≤ 2 ^ (m.log2 + (e - f - t).toNat) := Nat.pow_le_pow_right two_pos enough
      _ ≤ m <<< (e - f - t).toNat := two_pow_le_shiftLeft m_pos _

theorem represents_divCore {m n : ℕ} (n_pos : 0 < n) (e f : ℤ) :
    Represents
      (.ofMantissaAndAccuracy (divCore .binary64 m e n f).1 (divCore .binary64 m e n f).2.2)
      ((m * 2 ^ e / (n * 2 ^ f)) / 2 ^ (divCore .binary64 m e n f).2.1) := by
  have le : (divCore .binary64 m e n f).2.1 ≤ e - f := min_le_left ..
  have shape : divCore .binary64 m e n f =
      (m <<< (e - f - (divCore .binary64 m e n f).2.1).toNat / n, (divCore .binary64 m e n f).2.1,
        accuracyOfFraction (m <<< (e - f - (divCore .binary64 m e n f).2.1).toNat % n) n) := rfl
  generalize (divCore .binary64 m e n f).2.1 = t at le shape ⊢
  rw [shape]
  dsimp only
  have shifted := shiftLeft_mul m (e - f) t
  have exponent : e - f - ((e - f - t).toNat : ℤ) = t := by omega
  rw [exponent] at shifted
  generalize m <<< (e - f - t).toNat = k at shifted ⊢
  have n_ne : (n : ℚ) ≠ 0 := by exact_mod_cast n_pos.ne'
  have whole : (k : ℚ) = m * 2 ^ e / 2 ^ f / 2 ^ t := by
    rw [eq_div_iff (two_zpow_pos t).ne', shifted, zpow_sub₀ two_ne_zero, mul_div_assoc]
  have quotient : (m * 2 ^ e / (n * 2 ^ f) : ℚ) / 2 ^ t = (k / n : ℕ) + (k % n : ℕ) / n := by
    have split : (n * (k / n : ℕ) + (k % n : ℕ) : ℚ) = k := by exact_mod_cast Nat.div_add_mod k n
    calc (m * 2 ^ e / (n * 2 ^ f) : ℚ) / 2 ^ t = k / n := by rw [whole]; ring
      _ = (n * (k / n : ℕ) + (k % n : ℕ)) / n := by rw [split]
      _ = (k / n : ℕ) + (k % n : ℕ) / n := by rw [add_div, mul_div_cancel_left₀ _ n_ne]
  rw [quotient]
  exact .fraction _ (Nat.mod_lt _ n_pos)

theorem rounds_div (u_finite : u.isFinite = true) (v_finite : v.isFinite = true)
    (nonzero : valueOf v ≠ 0) : Rounds (div .binary64 u v) (valueOf u / valueOf v) := by
  cases v with
  | infinity s => cases v_finite
  | notANumber => cases v_finite
  | zero t => exact absurd rfl nonzero
  | finite t n f n_pos =>
    cases u with
    | infinity s => cases u_finite
    | notANumber => cases u_finite
    | zero s =>
      rw [show valueOf (.zero s) = 0 from rfl, zero_div]
      exact ⟨rfl, trivial, by simp [valueOf, UnpackedFloat.div]⟩
    | finite s m e m_pos =>
      have quotient := rounds_roundWithAccuracy (s / t) (represents_divCore n_pos e f)
        (divCore_fine m_pos n_pos e f)
      have value : valueOf (.finite s m e m_pos) / valueOf (.finite t n f n_pos) =
          factor (s / t) * (m * 2 ^ e / (n * 2 ^ f)) := by
        rw [valueOf, valueOf, factor_div]
        exact mul_div_mul_comm _ _ _ _
      rw [value]
      exact quotient

end Prognosis.Binary64
