import Mathlib.Algebra.Order.Round
import Prognosis.Proofs.Binary64.Decoded
import Prognosis.Scalar

/-!
# Nearest whole numbers and tenths

`nearestEven` and `nearestUp` are the roundings of an exact fraction, halves to the even neighbour
(`roundEven_fraction`) or upwards (`round_fraction`).  So a number that is not negative is rounded
to the whole number nearest to its value (`nearestInt64_eq_round`), and a positive one is written as
the tenths nearest to it (`exists_fixedTenths_eq`).  Exact fractions, rounded in the same two ways,
are scalars as well.
-/

namespace Prognosis

open Binary64

namespace Decimal

/-! ## Fractions -/

section

variable {n d : ℕ}

theorem round_fraction (n : ℕ) (d_pos : 0 < d) : round (n / d : ℚ) = nearestUp n d := by
  have d_pos : (0 : ℚ) < d := by exact_mod_cast d_pos
  have sum : (n / d + 1 / 2 : ℚ) = ((2 * n + d : ℕ) : ℚ) / (2 * d : ℕ) := by
    push_cast
    field_simp
  rw [round_eq, sum]
  unfold nearestUp
  exact Rat.floor_natCast_div_natCast _ _

theorem roundEven_fraction (n : ℕ) (d_pos : 0 < d) : roundEven (n / d) = nearestEven n d := by
  have positive : (0 : ℚ) < d := by exact_mod_cast d_pos
  have whole : ⌊(n / d : ℚ)⌋ = (n / d : ℕ) := Rat.floor_natCast_div_natCast _ _
  have part : Int.fract (n / d : ℚ) = (n % d : ℕ) / d := Int.fract_div_natCast_eq_div_natCast_mod
  have low : 2 * ((n % d : ℕ) / d : ℚ) < 1 ↔ 2 * (n % d) < d := by
    rw [← mul_div_assoc, div_lt_one positive]
    exact_mod_cast Iff.rfl
  have high : 1 < 2 * ((n % d : ℕ) / d : ℚ) ↔ d < 2 * (n % d) := by
    rw [← mul_div_assoc, one_lt_div positive]
    exact_mod_cast Iff.rfl
  unfold roundEven nearestEven
  dsimp only
  rw [whole, part, if_congr low rfl rfl, if_congr high rfl rfl]
  split_ifs <;> push_cast <;> rfl

end

theorem roundEven_le {q : ℚ} {k : ℤ} (le : q ≤ k) : roundEven q ≤ k := by
  have bound := roundEven_mono le
  rwa [roundEven_intCast] at bound

theorem le_roundEven {q : ℚ} {k : ℤ} (le : k ≤ q) : k ≤ roundEven q := by
  have bound := roundEven_mono le
  rwa [roundEven_intCast] at bound

theorem abs_sub_roundEven (q : ℚ) : |q - roundEven q| ≤ 1 / 2 := by
  have near := (roundEven_spec q).1
  linarith

theorem round_mono {p q : ℚ} (le : p ≤ q) : round p ≤ round q := by
  rw [round_eq, round_eq]
  exact Int.floor_le_floor (by linarith)

/-! ## Numbers -/

section

variable {x : Float} (x_finite : x.isFinite = true)

include x_finite

/-- A number of at most 63 bits that is not negative is rounded to the nearest whole number, halves
upwards. -/
theorem nearestInt64_eq_round {k : ℕ} (nonneg : 0 ≤ value x) (le : value x ≤ k)
    (fits : k < halfWord) : nearestInt64 x = round (value x) := by
  obtain ⟨n, d, d_pos, exact, rounded⟩ := exists_nearestInt64_eq x_finite nonneg
  rw [exact, div_le_iff₀ (by exact_mod_cast d_pos)] at le
  have small := nearestUp_le d_pos (by exact_mod_cast le)
  rw [rounded, exact, round_fraction n d_pos, min_eq_left (by omega)]

/-- A positive number is written as the tenths nearest to its value. -/
theorem exists_fixedTenths_eq (pos : 0 < value x) :
    ∃ t : ℕ, fixedTenths false x = tenthsText t ∧ roundEven (10 * value x) = t := by
  obtain ⟨v, decoded⟩ := exists_decode x_finite
  have exact := value_of_decode decoded
  rw [← fraction_eq] at exact
  have fraction_nonneg : (0 : ℚ) ≤ v.numerator / v.denominator :=
    div_nonneg (Nat.cast_nonneg _) (Nat.cast_nonneg _)
  by_cases minus : v.negative = true
  · rw [if_pos minus] at exact
    linarith
  · rw [if_neg minus, one_mul] at exact
    refine ⟨nearestEven (10 * v.numerator) v.denominator, ?_, ?_⟩
    · unfold fixedTenths
      rw [decoded]
      dsimp only
      rw [signText, if_neg minus]
      exact String.empty_append
    · rw [← roundEven_fraction _ v.denominator_pos, exact]
      push_cast
      rw [mul_div_assoc]

end

end Decimal

/-! ## Exact fractions as scalars

Over exact fractions the definitions of trends, rules and scores say what is meant before rounding.
Every fraction is a finite and defined number; whole numbers and tenths are found as for binary64
numbers, from the exact value. -/

section

open Decimal

instance : Scalar ℚ where
  num n := n
  decidableLT := inferInstance
  defined _ := true
  finite _ := true
  nearest q := if q < 0 then -(nearestUp q.num.natAbs q.den) else nearestUp q.num.natAbs q.den
  tenths signed q :=
    signText signed (decide (q < 0)) ++ tenthsText (nearestEven (10 * q.num.natAbs) q.den)

namespace Scalar

@[simp] theorem num_rat (n : ℕ) : (num n : ℚ) = n := rfl

end Scalar

end

end Prognosis
