import Mathlib.Data.Nat.Cast.Order.Field
import Prognosis.Proofs.Decimal.Interval
import Prognosis.Proofs.Text.Digits

/-!
# The shortest decimal reads back

Seventeen digits are fine enough a grid that one of its points around a number lies in the interval
of that number (`isSome_onGrid?_of_fine`), so the search for a decimal succeeds, and what it finds
is rounded to the number (`shortest_spec`).
-/

namespace Prognosis

open Binary64 Text

namespace Decimal

theorem ten_zpow_pos (e : ℤ) : (0 : ℚ) < 10 ^ e := zpow_pos (by norm_num) e

/-! ## Neighbours on a grid -/

namespace Finite

variable {v : Finite} {step : ℤ}

theorem magnitude_pos (pos : 0 < v.significand) : 0 < v.magnitude :=
  Binary64.magnitude_pos pos v.exponent

theorem magnitude_inside (v : Finite) : v.low < v.magnitude ∧ v.magnitude < v.high := by
  have step := two_zpow_pos v.exponent
  unfold low high magnitude
  rcases halfGaps_cases v with ⟨-, -, gaps⟩ | ⟨-, gaps⟩ <;> rw [gaps] <;>
    constructor <;> push_cast <;> nlinarith

/-- The interval is wider than a grid that is finer by sixteen digits than the number. -/
theorem lt_high_sub_low (canonical : Canonical v.significand v.exponent)
    (fine : 10 ^ step * 10 ^ 16 ≤ v.magnitude) : 10 ^ step < v.high - v.low := by
  have digits : (v.significand : ℚ) < 2 ^ 53 := by exact_mod_cast canonical.digits
  have unit := two_zpow_pos v.exponent
  unfold magnitude at fine
  unfold low high
  rcases halfGaps_cases v with ⟨power, -, gaps⟩ | ⟨-, gaps⟩ <;> rw [gaps]
  · rw [power] at fine ⊢
    push_cast at fine ⊢
    linarith
  · have below : (v.significand : ℚ) * 2 ^ v.exponent < 2 ^ 53 * 2 ^ v.exponent :=
      mul_lt_mul_of_pos_right digits unit
    push_cast
    linarith

/-- One of two neighbours on a fine grid lies in the interval. -/
theorem owns_neighbour (canonical : Canonical v.significand v.exponent)
    (fine : 10 ^ step * 10 ^ 16 ≤ v.magnitude) {c : ℕ} (below : c * 10 ^ step ≤ v.magnitude)
    (above : v.magnitude < (c + 1 : ℕ) * 10 ^ step) :
    v.Owns (c * 10 ^ step) ∨ v.Owns ((c + 1 : ℕ) * 10 ^ step) := by
  obtain ⟨low_lt, lt_high⟩ := magnitude_inside v
  have wide := lt_high_sub_low canonical fine
  rcases lt_or_ge v.low (c * 10 ^ step) with near | far
  · have below := below.trans_lt lt_high
    exact .inl ⟨near.le, below.le, fun _ => ⟨near, below⟩⟩
  · have above := low_lt.trans above
    have near : (c + 1 : ℕ) * 10 ^ step < v.high := by
      push_cast
      linarith
    exact .inr ⟨above.le, near.le, fun _ => ⟨above, near⟩⟩

end Finite

variable {v : Finite} {step : ℤ} {c : ℕ}

theorem onGrid_floor (v : Finite) (step : ℤ) :
    (((onGrid v.numerator v.denominator step).1 / (onGrid v.numerator v.denominator step).2 : ℕ) *
        10 ^ step : ℚ) ≤ v.magnitude ∧
      v.magnitude < ((onGrid v.numerator v.denominator step).1 /
        (onGrid v.numerator v.denominator step).2 + 1 : ℕ) * 10 ^ step := by
  have ten := zpow_eq_div 10 step
  have up : (0 : ℚ) < 10 ^ step.toNat := by positivity
  have down : (0 : ℚ) < 10 ^ (-step).toNat := by positivity
  have d_pos : (0 : ℚ) < v.denominator := by exact_mod_cast v.denominator_pos
  set n := v.numerator * 10 ^ (-step).toNat with n_eq
  set d := v.denominator * 10 ^ step.toNat with d_eq
  have scaled : v.magnitude = n / d * 10 ^ step := by
    rw [Finite.magnitude, ← fraction_eq, ten, n_eq, d_eq]
    push_cast
    field_simp
  have d_pos : 0 < d := Nat.mul_pos v.denominator_pos (Nat.pow_pos (by norm_num))
  have d_pos' : (0 : ℚ) < d := by exact_mod_cast d_pos
  have grid := ten_zpow_pos step
  show ((n / d : ℕ) * 10 ^ step : ℚ) ≤ _ ∧ _ < ((n / d + 1 : ℕ) : ℚ) * 10 ^ step
  rw [scaled, mul_le_mul_iff_left₀ grid, mul_lt_mul_iff_left₀ grid, le_div_iff₀ d_pos',
    div_lt_iff₀ d_pos']
  exact ⟨by exact_mod_cast Nat.div_mul_le_self n d,
    by exact_mod_cast (Nat.div_lt_iff_lt_mul d_pos).1 (Nat.lt_succ_self _)⟩

theorem roundsTo_of_onGrid? (found : onGrid? v step = some c) : roundsTo v c step = true := by
  unfold onGrid? at found
  dsimp only at found
  split at found
  · next here there =>
    obtain rfl := Option.some.inj found
    split_ifs
    · exact here
    · exact there
  · next here _ =>
    obtain rfl := Option.some.inj found
    exact here
  · next there =>
    obtain rfl := Option.some.inj found
    exact there
  · cases found

theorem le_of_onGrid? (found : onGrid? v step = some c) :
    c ≤ (onGrid v.numerator v.denominator step).1 / (onGrid v.numerator v.denominator step).2 + 1 := by
  unfold onGrid? at found
  dsimp only at found
  split at found
  · have same := Option.some.inj found
    split_ifs at same <;> omega
  · have same := Option.some.inj found
    omega
  · have same := Option.some.inj found
    omega
  · cases found

/-- A grid of so many digits has no more around a number. -/
theorem digits_le_of_onGrid? {n : ℕ} (small : v.magnitude < 10 ^ (step + n))
    (found : onGrid? v step = some c) : c ≤ 10 ^ n := by
  have below := (onGrid_floor v step).1.trans_lt small
  have grid := ten_zpow_pos step
  rw [add_comm, zpow_add₀ (by norm_num), zpow_natCast, mul_lt_mul_iff_left₀ grid] at below
  have less : (onGrid v.numerator v.denominator step).1 /
      (onGrid v.numerator v.denominator step).2 < 10 ^ n := by exact_mod_cast below
  exact (le_of_onGrid? found).trans less

/-- Seventeen digits suffice. -/
theorem isSome_onGrid?_of_fine (canonical : Canonical v.significand v.exponent)
    (pos : 0 < v.significand) (fine : 10 ^ step * 10 ^ 16 ≤ v.magnitude) :
    (onGrid? v step).isSome := by
  obtain ⟨below, above⟩ := onGrid_floor v step
  have owned := Finite.owns_neighbour canonical fine below above
  rw [← roundsTo_iff pos, ← roundsTo_iff pos] at owned
  unfold onGrid?
  dsimp only
  split <;> simp_all

/-! ## The leading place -/

section

variable {n d : ℕ}

theorem leadingPlace_le (n_pos : 0 < n) (d_pos : 0 < d) :
    (10 : ℚ) ^ (leadingPlace n d - 1) ≤ n / d := by
  have n_pos' : (0 : ℚ) < n := by exact_mod_cast n_pos
  have d_pos' : (0 : ℚ) < d := by exact_mod_cast d_pos
  unfold leadingPlace
  dsimp only
  split_ifs with whole power
  · have quotient_pos : 0 < n / d := Nat.div_pos whole d_pos
    have le := ten_pow_length_le quotient_pos
    have length := length_toString_pos (n / d)
    have exponent : ((toString (n / d)).length - 1 : ℤ) = ((toString (n / d)).length - 1 : ℕ) := by
      omega
    rw [exponent, zpow_natCast]
    calc (10 : ℚ) ^ ((toString (n / d)).length - 1) ≤ (n / d : ℕ) := by exact_mod_cast le
      _ ≤ n / d := Nat.cast_div_le
  · have length := length_toString_pos (d / n)
    generalize (toString (d / n)).length = len at length power
    have exponent : (2 - len - 1 : ℤ) = -((len - 1 : ℕ) : ℤ) := by omega
    have power : (d : ℚ) = n * 10 ^ (len - 1) := by exact_mod_cast power
    rw [exponent, zpow_neg, zpow_natCast, inv_eq_one_div, div_le_div_iff₀ (by positivity) d_pos',
      one_mul, power]
  · have less := lt_ten_pow_length (d / n)
    generalize (toString (d / n)).length = len at less
    rw [Nat.div_lt_iff_lt_mul n_pos] at less
    have exponent : (1 - len - 1 : ℤ) = -(len : ℤ) := by omega
    rw [exponent, zpow_neg, zpow_natCast, inv_eq_one_div, div_le_div_iff₀ (by positivity) d_pos',
      one_mul, mul_comm]
    exact_mod_cast less.le

theorem lt_leadingPlace (n_pos : 0 < n) (d_pos : 0 < d) :
    (n / d : ℚ) < 10 ^ leadingPlace n d := by
  have d_pos' : (0 : ℚ) < d := by exact_mod_cast d_pos
  rw [div_lt_iff₀ d_pos']
  unfold leadingPlace
  dsimp only
  split_ifs with whole power
  · have less : n < d * 10 ^ (toString (n / d)).length :=
      (Nat.lt_mul_div_succ n d_pos).trans_le (Nat.mul_le_mul_left d (lt_ten_pow_length (n / d)))
    rw [zpow_natCast, mul_comm]
    exact_mod_cast less
  · have length := length_toString_pos (d / n)
    generalize (toString (d / n)).length = len at length power
    have n_pos' : (0 : ℚ) < n := by exact_mod_cast n_pos
    have power : (d : ℚ) = n * 10 ^ (len - 1) := by exact_mod_cast power
    have cancel : (10 : ℚ) ^ (2 - len : ℤ) * 10 ^ (len - 1) = 10 := by
      rw [← zpow_natCast, ← zpow_add₀ (by norm_num), show (2 - len + (len - 1 : ℕ) : ℤ) = 1 by omega,
        zpow_one]
    calc (n : ℚ) < n * 10 := by linarith
      _ = 10 ^ (2 - len : ℤ) * d := by rw [power, mul_left_comm, cancel]
  · have le := ten_pow_length_le (Nat.div_pos (not_le.1 whole).le n_pos)
    have length := length_toString_pos (d / n)
    generalize (toString (d / n)).length = len at le length power
    rw [Nat.le_div_iff_mul_le n_pos] at le
    have less : n * 10 ^ (len - 1) < d :=
      lt_of_le_of_ne (by rwa [mul_comm]) (fun same => power same.symm)
    have exponent : (1 - len : ℤ) = -((len - 1 : ℕ) : ℤ) := by omega
    rw [exponent, zpow_neg, zpow_natCast, inv_mul_eq_div, lt_div_iff₀ (by positivity)]
    exact_mod_cast less

/-- A power of two has fewer than 54 digits for every 179 doublings. -/
theorem two_pow_lt_ten_pow {n k : ℕ} (pos : 0 < k) (le : n ≤ 179 * k) : 2 ^ n < 10 ^ (54 * k) := by
  have block : (2 ^ 179) ^ k < (10 ^ 54) ^ k := Nat.pow_lt_pow_left (by norm_num) pos.ne'
  rw [← pow_mul, ← pow_mul] at block
  exact (Nat.pow_le_pow_right two_pos le).trans_lt block

theorem le_leadingPlace {k : ℕ} (pos : 0 < k) (small : d < 10 ^ k) :
    1 - (k : ℤ) ≤ leadingPlace n d := by
  have length : (toString (d / n)).length ≤ k :=
    (length_toString_le_iff pos).2 ((Nat.div_le_self d n).trans_lt small)
  unfold leadingPlace
  dsimp only
  split_ifs <;> omega

end

/-! ## Search -/

theorem search_spec {place : ℤ} {ns : List ℕ}
    (found : ∃ n ∈ ns, (onGrid? v (place - n)).isSome) :
    ∃ n ∈ ns, ∃ c, search v place ns = ⟨c, place - n⟩ ∧ onGrid? v (place - n) = some c := by
  induction ns with
  | nil =>
    obtain ⟨n, mem, -⟩ := found
    cases mem
  | cons n more ih =>
    unfold search
    cases here : onGrid? v (place - n) with
    | some c => exact ⟨n, List.mem_cons_self, c, rfl, here⟩
    | none =>
      obtain ⟨k, mem, later⟩ := found
      rcases List.mem_cons.1 mem with rfl | mem
      · rw [here] at later
        cases later
      · obtain ⟨k, mem, c, same, found⟩ := ih ⟨k, mem, later⟩
        exact ⟨k, List.mem_cons_of_mem n mem, c, same, found⟩

/-! ## Decimals -/

namespace Scaled

/-- The fraction that a decimal is. -/
def value (d : Scaled) : ℚ := d.digits * 10 ^ d.exponent

/-- Zeros at the end go into the exponent. -/
theorem trim_spec (d : Scaled) (fuel : ℕ) :
    (d.trim fuel).value = d.value ∧ d.exponent ≤ (d.trim fuel).exponent ∧
      (d.trim fuel).digits ≤ d.digits := by
  induction fuel generalizing d with
  | zero => exact ⟨rfl, le_rfl, le_rfl⟩
  | succ fuel ih =>
    unfold trim
    split_ifs with zeros
    · obtain ⟨same, le, fewer⟩ := ih ⟨d.digits / 10, d.exponent + 1⟩
      dsimp only at le fewer
      refine ⟨same.trans ?_, by omega, by omega⟩
      have digits : d.digits = d.digits / 10 * 10 := by omega
      unfold value
      conv_rhs => rw [digits]
      rw [zpow_add₀ (by norm_num), zpow_one]
      push_cast
      ring
    · exact ⟨rfl, le_rfl, le_rfl⟩

end Scaled

/-- **The shortest decimal.**  It lies in the interval of the number, and has at most seventeen
digits. -/
theorem shortest_spec (canonical : Canonical v.significand v.exponent) (pos : 0 < v.significand) :
    v.Owns (shortest v).value ∧ -340 ≤ (shortest v).exponent ∧ (shortest v).digits ≤ 10 ^ 17 := by
  have numerator_pos : 0 < v.numerator := Nat.mul_pos pos (Nat.two_pow_pos _)
  have place_le := leadingPlace_le numerator_pos v.denominator_pos
  have lt_place := lt_leadingPlace numerator_pos v.denominator_pos
  rw [fraction_eq] at place_le lt_place
  have least : -323 ≤ leadingPlace v.numerator v.denominator := by
    refine @le_leadingPlace _ _ (54 * 6) (by norm_num) ?_
    have exponent := canonical.least
    exact two_pow_lt_ten_pow (by norm_num) (by omega)
  rw [shortest, if_neg pos.ne']
  generalize leadingPlace v.numerator v.denominator = place at place_le lt_place least
  have fine : (10 : ℚ) ^ (place - (17 : ℕ)) * 10 ^ 16 ≤ v.magnitude := by
    rw [← zpow_natCast, ← zpow_add₀ (by norm_num)]
    have exponent : place - (17 : ℕ) + (16 : ℕ) = place - 1 := by omega
    rwa [exponent]
  obtain ⟨n, mem, c, same, found⟩ := @search_spec v place
    [1, 2, 3, 4, 5, 6, 7, 8, 9, 10, 11, 12, 13, 14, 15, 16, 17]
    ⟨17, by decide, isSome_onGrid?_of_fine canonical pos fine⟩
  obtain ⟨value, exponent, fewer⟩ := (search v place
    [1, 2, 3, 4, 5, 6, 7, 8, 9, 10, 11, 12, 13, 14, 15, 16, 17]).trim_spec 18
  have n_le : n ≤ 17 := by
    simp only [List.mem_cons, List.not_mem_nil, or_false] at mem
    omega
  have c_le : c ≤ 10 ^ 17 := by
    have small : v.magnitude < 10 ^ (place - n + n) := by rwa [sub_add_cancel]
    exact (digits_le_of_onGrid? small found).trans (Nat.pow_le_pow_right (by norm_num) n_le)
  rw [same] at value exponent fewer ⊢
  rw [value]
  dsimp only at exponent fewer
  exact ⟨(roundsTo_iff pos c _).1 (roundsTo_of_onGrid? found), by omega, fewer.trans c_le⟩

end Decimal

end Prognosis
