import Mathlib
import Prognosis.Proofs.Binary64.Rounding

/-!
# Rounding of unpacked numbers

Arithmetic on binary64 numbers works out exact results as far as they are needed, and then drops
digits one by one while two residual bits keep track of what was dropped.  `Represents` says what a
mantissa with such bits knows of an exact number; that is enough to round it
(`Represents.roundEven_eq`).  So what comes out is the exact result rounded to binary64 precision
(`exists_roundWithAccuracy_eq`).
-/

namespace Prognosis.Binary64

open Float.Model Float.Model.UnpackedFloat

/-! ## Residual bits -/

/-- A mantissa with its residual bits tells where an exact number lies: between which whole numbers,
on which side of the middle, and whether it is one of these points. -/
structure Represents (em : ExtendedMantissa) (q : ℚ) : Prop where
  low : em.mantissa ≤ q
  high : q < em.mantissa + 1
  roundBit : em.roundBit = true ↔ em.mantissa + 1 / 2 ≤ q
  stickyBit : em.stickyBit = true ↔ q ≠ em.mantissa ∧ q ≠ em.mantissa + 1 / 2

namespace Represents

variable {em : ExtendedMantissa} {q : ℚ}

theorem exact (m : ℕ) : Represents (.ofMantissaAndAccuracy m .exact) m where
  low := le_rfl
  high := lt_add_one _
  roundBit := by simp [ExtendedMantissa.ofMantissaAndAccuracy]
  stickyBit := by simp [ExtendedMantissa.ofMantissaAndAccuracy]

theorem fraction {num den : ℕ} (m : ℕ) (lt : num < den) :
    Represents (.ofMantissaAndAccuracy m (accuracyOfFraction num den)) (m + num / den) := by
  have den_pos : (0 : ℚ) < den := by exact_mod_cast (by omega : 0 < den)
  have below_one : (num / den : ℚ) < 1 := (div_lt_one den_pos).2 (by exact_mod_cast lt)
  have nonneg : (0 : ℚ) ≤ num / den := div_nonneg (Nat.cast_nonneg _) den_pos.le
  have half_le : (1 / 2 : ℚ) ≤ num / den ↔ den ≤ 2 * num := by
    rw [div_le_div_iff₀ two_pos den_pos]
    norm_cast
    omega
  have half_eq : (num / den : ℚ) = 1 / 2 ↔ 2 * num = den := by
    rw [div_eq_div_iff den_pos.ne' two_ne_zero]
    norm_cast
    omega
  have zero : (num / den : ℚ) = 0 ↔ num = 0 := by
    rw [div_eq_zero_iff, or_iff_left den_pos.ne', Nat.cast_eq_zero]
  unfold accuracyOfFraction
  split_ifs with exact
  · rw [zero.2 exact, add_zero]
    exact .exact m
  · rcases lt_trichotomy (2 * num) den with less | same | greater
    · rw [Nat.compare_eq_lt.2 less]
      constructor <;> simp [ExtendedMantissa.ofMantissaAndAccuracy] <;> grind
    · rw [Nat.compare_eq_eq.2 same]
      constructor <;> simp [ExtendedMantissa.ofMantissaAndAccuracy] <;> grind
    · rw [Nat.compare_eq_gt.2 greater]
      constructor <;> simp [ExtendedMantissa.ofMantissaAndAccuracy] <;> grind

theorem shiftRightOne (h : Represents em q) : Represents em.shiftRightOne (q / 2) := by
  obtain ⟨low, high, roundBit, stickyBit⟩ := h
  obtain ⟨m, r, s⟩ := em
  dsimp only [ExtendedMantissa.shiftRightOne] at *
  have split : (m : ℚ) = 2 * (m / 2 : ℕ) + (m % 2 : ℕ) := by exact_mod_cast (by omega)
  generalize m / 2 = k at split ⊢
  rcases Nat.mod_two_eq_zero_or_one m with parity | parity <;>
    rw [parity] at split ⊢ <;> push_cast at split <;> rw [split] at low high roundBit stickyBit
  · constructor
    · dsimp only; linarith
    · dsimp only; linarith
    · simp; linarith
    · rw [Bool.or_eq_true, roundBit, stickyBit]
      grind
  · constructor
    · dsimp only; linarith
    · dsimp only; linarith
    · simp; linarith
    · rw [Bool.or_eq_true, roundBit, stickyBit]
      grind

theorem shiftRight (h : Represents em q) (k : ℕ) : Represents (em >>> k) (q / 2 ^ k) := by
  induction k with
  | zero =>
    rw [pow_zero, div_one]
    exact h
  | succ k ih =>
    rw [pow_succ, ← div_div]
    exact ih.shiftRightOne

/-- The residual bits suffice to round. -/
theorem roundEven_eq (h : Represents em q) : roundEven q = em.roundedMantissa := by
  obtain ⟨low, high, roundBit, stickyBit⟩ := h
  obtain ⟨m, r, s⟩ := em
  dsimp only at low high roundBit stickyBit
  cases r <;> cases s <;> simp only [Bool.false_eq_true, false_iff, true_iff] at roundBit stickyBit
  · show roundEven q = (m : ℤ)
    have exact : q = m := by
      rcases Classical.not_and_iff_not_or_not.1 stickyBit with same | half
      · exact not_not.1 same
      · exact absurd (not_not.1 half).ge roundBit
    rw [exact]
    exact roundEven_intCast m
  · show roundEven q = (m : ℤ)
    have near : |q - (m : ℤ)| < 1 / 2 := abs_lt.2 ⟨by push_cast; linarith, by push_cast; linarith⟩
    exact Binary64.roundEven_eq (by linarith) fun half => by linarith
  · show roundEven q = ((m + m % 2 : ℕ) : ℤ)
    have half : q = m + 1 / 2 := by
      rcases Classical.not_and_iff_not_or_not.1 stickyBit with same | half
      · have := not_not.1 same
        linarith
      · exact not_not.1 half
    rcases Nat.mod_two_eq_zero_or_one m with parity | parity <;> rw [parity]
    · exact Binary64.roundEven_eq (by rw [half]; norm_num) fun _ => by omega
    · exact Binary64.roundEven_eq (by rw [half]; norm_num) fun _ => by omega
  · show roundEven q = ((m + 1 : ℕ) : ℤ)
    have less : (m + 1 / 2 : ℚ) < q := lt_of_le_of_ne roundBit stickyBit.2.symm
    have near : |q - ((m + 1 : ℕ) : ℤ)| < 1 / 2 :=
      abs_lt.2 ⟨by push_cast; linarith, by push_cast; linarith⟩
    exact Binary64.roundEven_eq (by linarith) fun half => by linarith

theorem nonneg (h : Represents em q) : 0 ≤ q := (Nat.cast_nonneg _).trans h.low

end Represents

/-! ## Canonical numbers -/

/-- The form in which a number of binary64 precision is kept: with all 53 digits, or at the least
exponent. -/
structure Canonical (m : ℕ) (e : ℤ) : Prop where
  digits : m < 2 ^ 53
  least : -1074 ≤ e
  leading : 2 ^ 52 ≤ m ∨ e = -1074

/-- Whether an unpacked number is kept in canonical form, its exponent being without upper bound. -/
def Rounded : UnpackedFloat → Prop
  | .finite _ m e _ => Canonical m e
  | _ => True

/-- A sign as a factor. -/
def factor : Sign → ℚ
  | .positive => 1
  | .negative => -1

/-- The first power of two that is too large for a binary64 number; infinity stands in its place. -/
def edge : ℚ := 2 ^ (1024 : ℤ)

/-- The exact value of an unpacked number.  An undefined one gets zero. -/
def valueOf : UnpackedFloat → ℚ
  | .notANumber => 0
  | .infinity s => factor s * edge
  | .zero _ => 0
  | .finite s m e _ => factor s * (m * 2 ^ e)

/-! ## Target exponents -/

theorem targetExponent_eq (m : ℕ) (e : ℤ) :
    Format.binary64.targetExponent (totalExponent m e) = max (m.log2 + e - 52) (-1074) := by
  simp only [Format.targetExponent, totalExponent, Format.mantissaBits, Format.minExponent]
  norm_num
  omega

/-- The target exponent of a mantissa is the exponent of every number that it represents. -/
theorem targetExponent_eq_exponentOf {m : ℕ} {e : ℤ} {q : ℚ} (low : m * 2 ^ e ≤ q)
    (high : q < (m + 1) * 2 ^ e) (pos : 0 < q) (fine : 2 ^ 52 ≤ m ∨ e ≤ -1074) :
    Format.binary64.targetExponent (totalExponent m e) = exponentOf q := by
  rw [targetExponent_eq]
  have step := two_zpow_pos e
  rcases m.eq_zero_or_pos with rfl | m_pos
  · have tiny : q < 2 ^ (-1021 : ℤ) := by
      have le : (2 : ℚ) ^ e ≤ 2 ^ (-1074 : ℤ) := two_zpow_le (by omega)
      have lt : (2 : ℚ) ^ (-1074 : ℤ) < 2 ^ (-1021 : ℤ) := two_zpow_lt (by norm_num)
      push_cast at high
      linarith
    rw [exponentOf_of_small pos tiny, Nat.log2_zero]
    omega
  · have at_least : (2 : ℚ) ^ (m.log2 : ℤ) ≤ m := by
      rw [zpow_natCast]
      exact_mod_cast Nat.log2_self_le m_pos.ne'
    have at_most : (m + 1 : ℚ) ≤ 2 ^ (m.log2 + 1 : ℤ) := by
      have lt : m + 1 ≤ 2 ^ (m.log2 + 1) := Nat.lt_log2_self
      exact_mod_cast lt
    have log : Int.log 2 q = m.log2 + e := by
      refine le_antisymm ?_ ?_
      · refine Int.lt_add_one_iff.1 ((Int.lt_zpow_iff_log_lt (b := 2) (by norm_num) pos).1 ?_)
        push_cast
        rw [add_right_comm, two_zpow_add]
        exact high.trans_le (mul_le_mul_of_nonneg_right at_most step.le)
      · refine (Int.zpow_le_iff_le_log (b := 2) (by norm_num) pos).1 ?_
        push_cast
        rw [two_zpow_add]
        exact (mul_le_mul_of_nonneg_right at_least step.le).trans low
    rw [exponentOf, abs_of_pos pos, log]

theorem shiftToTargetExponent_of_digits {m : ℕ} {e : ℤ} (digits : m < 2 ^ 53)
    (least : -1074 ≤ e) :
    shiftToTargetExponent .binary64 m e .exact = (⟨m, false, false⟩, e) := by
  have target : Format.binary64.targetExponent (totalExponent m e) ≤ e := by
    have log : m.log2 ≤ 52 := by
      rcases m.eq_zero_or_pos with rfl | pos
      · simp
      · have := (Nat.log2_lt pos.ne').2 digits
        omega
    rw [targetExponent_eq]
    omega
  have none_lost : (Format.binary64.targetExponent (totalExponent m e) - e).toNat = 0 := by omega
  rw [shiftToTargetExponent, shiftToExponent, none_lost]
  simp [HShiftRight.hShiftRight, Nat.repeat, ExtendedMantissa.ofMantissaAndAccuracy]

/-- A carry into the 54th digit moves the exponent by one. -/
theorem shiftToTargetExponent_of_carry {e : ℤ} (least : -1074 ≤ e) :
    shiftToTargetExponent .binary64 (2 ^ 53) e .exact = (⟨2 ^ 52, false, false⟩, e + 1) := by
  have target : Format.binary64.targetExponent (totalExponent (2 ^ 53) e) = e + 1 := by
    rw [targetExponent_eq, Nat.log2_two_pow]
    omega
  have one_lost : (e + 1 - e).toNat = 1 := by omega
  rw [shiftToTargetExponent, target, shiftToExponent, one_lost]
  simp [HShiftRight.hShiftRight, Nat.repeat, ExtendedMantissa.ofMantissaAndAccuracy,
    ExtendedMantissa.shiftRightOne]

/-! ## Rounding -/

/-- The number with a mantissa that may be zero. -/
def assemble (s : Sign) (m : ℕ) (e : ℤ) : UnpackedFloat :=
  if h : m = 0 then .zero s else .finite s m e (Nat.pos_of_ne_zero h)

theorem valueOf_assemble (s : Sign) (m : ℕ) (e : ℤ) :
    valueOf (assemble s m e) = factor s * (m * 2 ^ e) := by
  unfold assemble
  split
  · next zero => simp [zero, valueOf]
  · rfl

theorem Canonical.rounded {m : ℕ} {e : ℤ} (h : Canonical m e) (s : Sign) :
    Rounded (assemble s m e) := by
  unfold assemble
  split
  · trivial
  · exact h

/-- The first shift brings a mantissa to its target exponent. -/
theorem exists_shiftToTargetExponent_eq {m : ℕ} {e : ℤ} {acc : Accuracy} {q : ℚ}
    (h : Represents (.ofMantissaAndAccuracy m acc) (q / 2 ^ e)) (fine : 2 ^ 52 ≤ m ∨ e ≤ -1074) :
    ∃ em t, shiftToTargetExponent .binary64 m e acc = (em, t) ∧ Represents em (q / 2 ^ t) ∧
      (0 < q → t = exponentOf q) ∧ (q = 0 → t = -1074) := by
  have step := two_zpow_pos e
  have mantissa : (ExtendedMantissa.ofMantissaAndAccuracy m acc).mantissa = m := by
    rcases acc with _ | (_ | _ | _) <;> rfl
  have low : m * 2 ^ e ≤ q := by
    have := h.low
    rwa [mantissa, le_div_iff₀ step] at this
  have high : q < (m + 1) * 2 ^ e := by
    have := h.high
    rwa [mantissa, div_lt_iff₀ step] at this
  have target := targetExponent_eq m e
  generalize aim : Format.binary64.targetExponent (totalExponent m e) = t at target
  have le : e ≤ t := by
    rcases fine with many | small
    · have : 52 ≤ m.log2 := (Nat.le_log2 (by omega)).2 many
      omega
    · omega
  refine ⟨ExtendedMantissa.ofMantissaAndAccuracy m acc >>> (t - e).toNat, t, ?_, ?_, ?_, ?_⟩
  · rw [shiftToTargetExponent, aim, shiftToExponent]
    exact congrArg _ (by omega)
  · have gap : e + ((t - e).toNat : ℤ) = t := by omega
    have shifted := h.shiftRight (t - e).toNat
    rwa [div_div, ← zpow_natCast (2 : ℚ), ← two_zpow_add, gap] at shifted
  · exact fun pos => aim.symm.trans (targetExponent_eq_exponentOf low high pos fine)
  · rintro rfl
    have none : m = 0 := by
      have := nonpos_of_mul_nonpos_left low step
      exact_mod_cast le_antisymm this (Nat.cast_nonneg m)
    subst none
    rw [Nat.log2_zero] at target
    omega

/-- The second shift takes up a carry. -/
theorem exists_shiftToTargetExponent_of_roundEven {q : ℚ} (pos : 0 < q) {r : ℕ}
    (rounded : roundEven (q / 2 ^ exponentOf q) = r) :
    ∃ m e, Canonical m e ∧ (m * 2 ^ e : ℚ) = nearest q ∧
      shiftToTargetExponent .binary64 r (exponentOf q) .exact = (⟨m, false, false⟩, e) := by
  obtain ⟨-, at_most, leading⟩ := roundEven_digits pos
  have least := least_le_exponentOf q
  have value : (r * 2 ^ exponentOf q : ℚ) = nearest q := by
    rw [nearest, rounded]
    push_cast
    rfl
  rw [rounded] at at_most leading
  by_cases carry : r = 2 ^ 53
  · refine ⟨2 ^ 52, exponentOf q + 1, ⟨by norm_num, by omega, .inl le_rfl⟩, ?_, ?_⟩
    · rw [← value, carry, two_zpow_add]
      push_cast
      ring
    · rw [carry]
      exact shiftToTargetExponent_of_carry least
  · have short : r < 2 ^ 53 := by omega
    refine ⟨r, exponentOf q, ⟨short, least, ?_⟩, value, ?_⟩
    · exact leading.imp_left fun le => by exact_mod_cast le
    · exact shiftToTargetExponent_of_digits short least

/-- Rounding a mantissa that is fine enough gives the nearest number to what it represents. -/
theorem exists_roundWithAccuracy_eq {m : ℕ} {e : ℤ} {acc : Accuracy} {q : ℚ} (s : Sign)
    (h : Represents (.ofMantissaAndAccuracy m acc) (q / 2 ^ e)) (fine : 2 ^ 52 ≤ m ∨ e ≤ -1074) :
    ∃ m' e', Canonical m' e' ∧ (m' * 2 ^ e' : ℚ) = nearest q ∧
      roundWithAccuracy .binary64 s m e acc = assemble s m' e' := by
  obtain ⟨em, t, first, represents, exponent, least⟩ := exists_shiftToTargetExponent_eq h fine
  have nonneg : 0 ≤ q := by
    have scaled := h.nonneg
    rwa [le_div_iff₀ (two_zpow_pos e), zero_mul] at scaled
  have rounded := represents.roundEven_eq
  have assembled (m' : ℕ) (e' : ℤ)
      (second : shiftToTargetExponent .binary64 em.roundedMantissa t .exact =
        (⟨m', false, false⟩, e')) :
      roundWithAccuracy .binary64 s m e acc = assemble s m' e' := by
    rw [roundWithAccuracy, first]
    dsimp only
    rw [second]
    rfl
  rcases nonneg.eq_or_lt with rfl | pos
  · obtain rfl := least rfl
    have zero : em.roundedMantissa = 0 := by
      rw [zero_div, roundEven_zero] at rounded
      omega
    refine ⟨0, -1074, ⟨by norm_num, le_rfl, .inr rfl⟩, by simp, assembled 0 _ ?_⟩
    rw [zero]
    exact shiftToTargetExponent_of_digits (by norm_num) le_rfl
  · obtain rfl := exponent pos
    obtain ⟨m', e', canonical, value, second⟩ :=
      exists_shiftToTargetExponent_of_roundEven pos rounded
    exact ⟨m', e', canonical, value, assembled m' e' second⟩

end Prognosis.Binary64
