import Prognosis.Json.Numeral
import Prognosis.Proofs.Binary64.Literal
import Prognosis.Proofs.Binary64.Relative
import Prognosis.Proofs.Decimal.Nearest

/-!
# Decimals scaled in binary64

A significand is rounded once, a power of ten once, and their product or quotient once more, so a
scaled decimal stays close to the exact one (`exists_scale?`).  It is the nearest number where both
parts are exact (`value_scale?_of_short`).  Beyond the largest number nothing comes out; but a
decimal that lies in the interval of a number and has at most seventeen digits never gets there
(`shortest_fits`): the largest number is the only one that needs a look at its digits.
-/

namespace Prognosis

open Binary64

namespace Decimal

open Json (scale? powerOfTen)

/-! ## Parts -/

section

variable {m n : ℕ}

theorem value_ofNat_eq (m : ℕ) :
    value (Float.ofNat m) = nearest64 m ∧ (Float.ofNat m).isNaN = false := by
  have decimal := value_ofScientific m false (e := 0) (by norm_num)
  rwa [if_neg (by decide), Nat.cast_zero, zpow_zero, mul_one] at decimal

theorem value_powerOfTen (small : n ≤ 308) :
    value (powerOfTen n) = nearest64 (10 ^ n : ℕ) ∧ (powerOfTen n).isNaN = false := by
  have decimal := value_ofScientific 1 false (e := n) (by omega)
  rwa [if_neg (by decide), zpow_natCast, Nat.cast_one, one_mul,
    show ((10 : ℚ) ^ n) = ((10 ^ n : ℕ) : ℚ) by push_cast; rfl] at decimal

/-- A decimal that stays in range however its parts are rounded. -/
def limit : ℕ := 1797693134862315 * 10 ^ 293

theorem limit_le_largest : (limit : ℚ) ≤ keep ^ 2 * largest := by
  have whole : limit * 2 ^ 106 ≤ 9007199254740991 ^ 3 * 2 ^ 971 := by decide +kernel
  have power : ((2 ^ 971 : ℕ) : ℚ) = 2 ^ (971 : ℤ) := by
    rw [Nat.cast_pow]
    exact (zpow_natCast 2 971).symm
  generalize 2 ^ 971 = top at whole power
  have scaled : (limit : ℚ) * 2 ^ 106 ≤ 9007199254740991 ^ 3 * top := by exact_mod_cast whole
  have kept : keep ^ 2 * 2 ^ 106 = 9007199254740991 ^ 2 := by norm_num [keep, roundoff]
  have digits : ((2 ^ 53 - 1 : ℕ) : ℚ) = 9007199254740991 := by norm_num
  rw [largest, ← power, digits]
  refine le_of_mul_le_mul_right (scaled.trans_eq ?_) (by norm_num : (0 : ℚ) < 2 ^ 106)
  rw [mul_right_comm, kept]
  ring

theorem le_largest_of_le_limit {n : ℕ} (le : n ≤ limit) : (n : ℚ) ≤ largest := by
  have nonneg : 0 ≤ largest := mul_nonneg (Nat.cast_nonneg _) (two_zpow_pos _).le
  calc (n : ℚ) ≤ limit := by exact_mod_cast le
    _ ≤ keep ^ 2 * largest := limit_le_largest
    _ ≤ largest := mul_le_of_le_one_left nonneg (keep_pow_le_one 2)

theorem ten_pow_le_limit {n : ℕ} (small : n ≤ 308) : 10 ^ n ≤ limit := by
  calc 10 ^ n ≤ 10 ^ (15 + 293) := Nat.pow_le_pow_right (by norm_num) small
    _ = 10 ^ 15 * 10 ^ 293 := pow_add 10 15 293
    _ ≤ limit := Nat.mul_le_mul_right _ (by norm_num)

theorem tracks_ofNat {m : ℕ} (digits : m ≤ 10 ^ 17) : Tracks (Float.ofNat m) 1 0 m := by
  obtain ⟨rounded, defined⟩ := value_ofNat_eq m
  exact .of_natCast defined rounded
    (le_largest_of_le_limit (digits.trans (ten_pow_le_limit (by norm_num))))

theorem tracks_powerOfTen {n : ℕ} (small : n ≤ 308) :
    Tracks (powerOfTen n) 1 0 (10 ^ n : ℕ) := by
  obtain ⟨rounded, defined⟩ := value_powerOfTen small
  exact .of_natCast defined rounded (le_largest_of_le_limit (ten_pow_le_limit small))

theorem one_le_powerOfTen {n : ℕ} (small : n ≤ 308) : 1 ≤ value (powerOfTen n) := by
  have one : (1 : ℕ) ≤ 10 ^ n := Nat.one_le_pow _ _ (by norm_num)
  rw [(value_powerOfTen small).1]
  calc (1 : ℚ) = nearest64 (1 : ℕ) := by rw [nearest64_natCast (by norm_num), Nat.cast_one]
    _ ≤ nearest64 (10 ^ n : ℕ) := nearest64_mono (by exact_mod_cast one)

end

/-! ## Products and quotients -/

section

variable {m n : ℕ}

theorem isInf_of_finite {x : Float} (x_finite : x.isFinite = true) : x.isInf = false := by
  obtain ⟨v, decoded⟩ := exists_decode x_finite
  exact isInf_of_decode decoded

/-- Scaling up, where the product stays in range. -/
theorem scale?_up (pos : 0 < m) (digits : m ≤ 10 ^ 17) (small : n ≤ 308)
    (fits : nearest (value (Float.ofNat m) * value (powerOfTen n)) < edge) :
    scale? m n = some (Float.ofNat m * powerOfTen n) ∧
      Tracks (Float.ofNat m * powerOfTen n) 3 (0 + grain / 2) (m * (10 ^ n : ℕ)) := by
  have tracks := (tracks_ofNat digits).mul (tracks_powerOfTen small) (Nat.cast_nonneg _)
    (Nat.cast_nonneg _) fits
  refine ⟨?_, tracks⟩
  rw [scale?]
  dsimp only
  rw [if_pos (Int.natCast_nonneg n), if_neg pos.ne', if_pos (by omega), Int.toNat_natCast,
    isInf_of_finite tracks.finite, if_neg Bool.false_ne_true]

theorem scale?_down (digits : m ≤ 10 ^ 17) (pos : 0 < n) (small : n ≤ 308) :
    scale? m (-n) = some (Float.ofNat m / powerOfTen n) ∧
      Tracks (Float.ofNat m / powerOfTen n) 3 (0 + grain / 2) (m / (10 ^ n : ℕ)) := by
  have one : (1 : ℕ) ≤ 10 ^ n := Nat.one_le_pow _ _ (by norm_num)
  refine ⟨?_, (tracks_ofNat digits).div (tracks_powerOfTen small) le_rfl (Nat.cast_nonneg _)
    (by exact_mod_cast one) (one_le_powerOfTen small)⟩
  rw [scale?]
  dsimp only
  rw [if_neg (by omega), if_pos (by omega), neg_neg, Int.toNat_natCast]

theorem scale?_down_twice (digits : m ≤ 10 ^ 17) (large : 308 < n) (small : n ≤ 616) :
    scale? m (-n) = some (Float.ofNat m / powerOfTen 308 / powerOfTen (n - 308)) ∧
      Tracks (Float.ofNat m / powerOfTen 308 / powerOfTen (n - 308)) 5
        (0 + grain / 2 + grain / 2) (m / (10 ^ 308 : ℕ) / (10 ^ (n - 308) : ℕ)) := by
  have one (k : ℕ) : (1 : ℕ) ≤ 10 ^ k := Nat.one_le_pow _ _ (by norm_num)
  have grain_pos : 0 < grain := two_zpow_pos _
  obtain ⟨-, first⟩ := scale?_down digits (n := 308) (by norm_num) le_rfl
  have small' : n - 308 ≤ 308 := by omega
  refine ⟨?_, first.div (tracks_powerOfTen small') (by linarith)
    (div_nonneg (Nat.cast_nonneg _) (Nat.cast_nonneg _)) (by exact_mod_cast one _)
    (one_le_powerOfTen small')⟩
  have rest : (- -(n : ℤ) - 308).toNat = n - 308 := by omega
  rw [scale?]
  dsimp only
  rw [if_neg (by omega), if_neg (by omega), if_pos (by omega), rest]

/-- **Scaling.**  A decimal that stays in range is scaled to a number close to it. -/
theorem exists_scale? {e : ℤ} (digits : m ≤ 10 ^ 17) (least : -616 ≤ e)
    (fits : 0 ≤ e → e ≤ 308 ∧
      nearest (value (Float.ofNat m) * value (powerOfTen e.toNat)) < edge) :
    ∃ x, scale? m e = some x ∧ Tracks x 5 grain (m * 10 ^ e) := by
  have grain_pos : 0 < grain := two_zpow_pos _
  have nonneg : (0 : ℚ) ≤ m * 10 ^ e := mul_nonneg (Nat.cast_nonneg _) (ten_zpow_pos e).le
  rcases le_or_gt 0 e with up | down
  · rcases m.eq_zero_or_pos with zero | pos
    · have tracks := tracks_ofNat digits
      rw [zero] at tracks ⊢
      rw [Nat.cast_zero] at tracks ⊢
      rw [zero_mul]
      refine ⟨Float.ofNat 0, ?_, tracks.mono (by norm_num) grain_pos.le le_rfl⟩
      rw [scale?]
      dsimp only
      rw [if_pos up, if_pos rfl]
    · obtain ⟨small, inside⟩ := fits up
      obtain ⟨n, rfl⟩ := Int.eq_ofNat_of_zero_le up
      obtain ⟨found, tracks⟩ := scale?_up pos digits (by omega) inside
      rw [Nat.cast_pow, Nat.cast_ofNat, ← zpow_natCast] at tracks
      exact ⟨_, found, tracks.mono (by norm_num) (by linarith) nonneg⟩
  · obtain ⟨n, rfl⟩ : ∃ n : ℕ, e = -n := ⟨(-e).toNat, by omega⟩
    rw [zpow_neg, zpow_natCast, ← div_eq_mul_inv] at nonneg ⊢
    rcases le_or_gt n 308 with near | far
    · obtain ⟨found, tracks⟩ := scale?_down digits (n := n) (by omega) near
      rw [Nat.cast_pow, Nat.cast_ofNat] at tracks
      exact ⟨_, found, tracks.mono (by norm_num) (by linarith) nonneg⟩
    · obtain ⟨found, tracks⟩ := scale?_down_twice digits far (by omega)
      have split : (m / (10 ^ 308 : ℕ) / (10 ^ (n - 308) : ℕ) : ℚ) = m / 10 ^ n := by
        rw [div_div, ← Nat.cast_mul, ← pow_add, Nat.add_sub_cancel' far.le, Nat.cast_pow,
          Nat.cast_ofNat]
      rw [split] at tracks
      exact ⟨_, found, tracks.mono le_rfl (by linarith) nonneg⟩

/-- **Short decimals.**  Where both parts are exact, the nearest number comes out. -/
theorem value_scale?_of_short {e : ℤ} {x : Float} (digits : m < 2 ^ 53) (low : -22 ≤ e)
    (high : e ≤ 22) (found : scale? m e = some x) :
    value x = nearest64 (m * 10 ^ e) ∧ x.isNaN = false := by
  obtain ⟨whole, whole_finite⟩ := value_ofNat digits
  have power (n : ℕ) (small : n ≤ 22) :
      value (powerOfTen n) = (10 ^ n : ℕ) ∧ (powerOfTen n).isFinite = true := by
    obtain ⟨kept, below⟩ := nearest64_ten_pow small
    obtain ⟨rounded, defined⟩ := value_powerOfTen (small.trans (by norm_num))
    rw [kept] at rounded
    exact ⟨rounded, finite_of_value_eq_natCast defined rounded below⟩
  rw [scale?] at found
  dsimp only at found
  rcases le_or_gt 0 e with up | down
  · obtain ⟨n, rfl⟩ := Int.eq_ofNat_of_zero_le up
    obtain ⟨exact, finite⟩ := power n (by omega)
    rw [if_pos up] at found
    split_ifs at found with zero
    · obtain rfl := Option.some.inj found
      rw [zero, Nat.cast_zero, zero_mul, nearest64_zero]
      exact ⟨value_zero, defined_of_finite finite_zero⟩
    · obtain rfl := Option.some.inj found
      have product := value_mul whole_finite finite
      rw [whole, exact] at product
      rw [zpow_natCast]
      exact_mod_cast product
  · obtain ⟨n, rfl⟩ : ∃ n : ℕ, e = -n := ⟨(-e).toNat, by omega⟩
    obtain ⟨exact, finite⟩ := power n (by omega)
    have nonzero : ((10 ^ n : ℕ) : ℚ) ≠ 0 := by positivity
    rw [if_neg (by omega), if_pos (by omega), neg_neg, Int.toNat_natCast] at found
    obtain rfl := Option.some.inj found
    have quotient := value_div whole_finite finite (by rwa [exact])
    rw [whole, exact] at quotient
    rw [zpow_neg, zpow_natCast, ← div_eq_mul_inv]
    exact_mod_cast quotient

end

/-! ## The end of the range -/

/-- Around the largest number: what is above it with sixteen digits, and with seventeen. -/
theorem range_ends : 2 ^ 1024 ≤ 1797693134862316 * 10 ^ 293 ∧
    (2 ^ 53 - 1) * 2 ^ 971 ≤ 17976931348623158 * 10 ^ 292 := by
  decide +kernel

/-- The largest number, decoded. -/
def top (negative : Bool) : Finite := ⟨negative, 2 ^ 53 - 1, 971⟩

theorem top_pos (negative : Bool) : 0 < (top negative).significand := by
  show 0 < 2 ^ 53 - 1
  norm_num

theorem leadingPlace_top (negative : Bool) :
    leadingPlace (top negative).numerator (top negative).denominator = 309 := by
  have numerator_pos : 0 < (top negative).numerator :=
    Nat.mul_pos (top_pos negative) (Nat.two_pow_pos _)
  have place_le := leadingPlace_le numerator_pos (top negative).denominator_pos
  have lt_place := lt_leadingPlace numerator_pos (top negative).denominator_pos
  rw [fraction_eq] at place_le lt_place
  have low : (10 : ℚ) ^ (308 : ℤ) ≤ largest := by
    have := le_largest_of_le_limit (ten_pow_le_limit (n := 308) le_rfl)
    rwa [Nat.cast_pow, Nat.cast_ofNat] at this
  have high : largest < 10 ^ (309 : ℤ) := largest_lt_edge.trans edge_lt_ten_zpow
  have above := ten_zpow_lt_iff.1 (low.trans_lt lt_place)
  have below := ten_zpow_lt_iff.1 (place_le.trans_lt high)
  omega

theorem shortest_top (negative : Bool) : shortest (top negative) = ⟨17976931348623157, 292⟩ := by
  have digits (negative : Bool) : (search (top negative) 309
      [1, 2, 3, 4, 5, 6, 7, 8, 9, 10, 11, 12, 13, 14, 15, 16, 17]).trim 18 =
        ⟨17976931348623157, 292⟩ := by
    cases negative <;> decide +kernel
  rw [shortest, if_neg (top_pos negative).ne', leadingPlace_top, digits]

theorem finite_scaled_top : (Float.ofNat 17976931348623157 * powerOfTen 292).isFinite = true := by
  decide +kernel

theorem nearest_scaled_top_lt_edge :
    nearest (value (Float.ofNat 17976931348623157) * value (powerOfTen 292)) < edge := by
  have significand := (tracks_ofNat (m := 17976931348623157) (by norm_num)).finite
  have power := (tracks_powerOfTen (n := 292) (by norm_num)).finite
  have below := (value_lt_edge finite_scaled_top).2
  rw [(value_mul significand power).1, nearest64] at below
  by_contra beyond
  rw [min_eq_left (not_lt.1 beyond)] at below
  exact absurd (le_max_right _ _) below.not_ge

theorem nearest_product_lt_edge {m n : ℕ} (digits : m ≤ 10 ^ 17) (small : n ≤ 308)
    (le : m * 10 ^ n ≤ limit) :
    nearest (value (Float.ofNat m) * value (powerOfTen n)) < edge := by
  have significand := tracks_ofNat digits
  have power := tracks_powerOfTen small
  have above := (significand.close.mul power.close (Nat.cast_nonneg _) significand.nonneg
    (Nat.cast_nonneg _) power.nonneg).above
  rw [add_zero] at above
  have exact : (m * (10 ^ n : ℕ) : ℚ) ≤ limit := by exact_mod_cast le
  have within : value (Float.ofNat m) * value (powerOfTen n) ≤ largest :=
    le_of_mul_le_mul_left (above.trans (exact.trans limit_le_largest)) (pow_pos keep_pos 2)
  exact nearest_lt_edge (mul_nonneg significand.nonneg power.nonneg) within

theorem eq_top {v : Finite} (canonical : Canonical v.significand v.exponent)
    (fits : v.exponent ≤ 971) (large : largest ≤ v.magnitude) : v = top v.negative := by
  have digits : v.significand ≤ 2 ^ 53 - 1 := Nat.le_sub_one_of_lt canonical.digits
  have step := two_zpow_pos v.exponent
  have exponent : v.exponent = 971 := by
    by_contra lower
    have below : v.exponent + 1 ≤ 971 := by omega
    have size : v.magnitude ≤ (2 ^ 53 - 1 : ℕ) * 2 ^ v.exponent :=
      mul_le_mul_of_nonneg_right (by exact_mod_cast digits) step.le
    have room : ((2 ^ 53 - 1 : ℕ) * (2 * 2 ^ v.exponent) : ℚ) ≤ largest := by
      rw [← zpow_one_add₀ two_ne_zero, add_comm]
      exact mul_le_mul_of_nonneg_left (two_zpow_le below) (Nat.cast_nonneg _)
    have := magnitude_pos (m := 2 ^ 53 - 1) (by norm_num) v.exponent
    linarith
  have significand : v.significand = 2 ^ 53 - 1 := by
    refine le_antisymm digits ?_
    unfold Finite.magnitude at large
    rw [exponent] at large
    exact_mod_cast le_of_mul_le_mul_right large (two_zpow_pos 971)
  obtain ⟨negative, m, e⟩ := v
  simp only at significand exponent
  rw [significand, exponent]
  rfl

theorem nearest_largest : nearest largest = largest := nearest_of_digits (by norm_num) (by norm_num)

theorem nearest_edge : nearest edge = edge := by
  have kept := nearest_of_digits (n := 1) (e := 1024) (by norm_num) (by norm_num)
  rwa [Nat.cast_one, one_mul] at kept

section

variable {v : Finite} {m n : ℕ} (canonical : Canonical v.significand v.exponent)
  (fits : v.exponent ≤ 971) (rounded : nearest (m * 10 ^ n : ℕ) = v.magnitude)

include canonical fits rounded

/-- With sixteen digits or fewer, what is rounded to a number is not beyond the limit. -/
theorem le_limit_of_rounded (large : 293 ≤ n) : m * 10 ^ n ≤ limit := by
  have inside : v.magnitude < edge := magnitude_lt_edge canonical.digits fits
  obtain ⟨k, rfl⟩ := Nat.exists_eq_add_of_le' large
  by_contra beyond
  have digits : 1797693134862316 ≤ m * 10 ^ k := by
    rw [pow_add, ← mul_assoc, limit, not_le] at beyond
    exact lt_of_mul_lt_mul_right beyond (Nat.zero_le _)
  have far : 2 ^ 1024 ≤ m * 10 ^ (k + 293) := by
    rw [pow_add, ← mul_assoc]
    exact range_ends.1.trans (Nat.mul_le_mul_right _ digits)
  have above : edge ≤ (m * 10 ^ (k + 293) : ℕ) := by
    have power : edge = (2 ^ 1024 : ℕ) := by
      rw [Nat.cast_pow]
      exact zpow_natCast 2 1024
    rw [power]
    exact Nat.cast_le.2 far
  have reached := nearest_mono above
  rw [nearest_edge, rounded] at reached
  exact absurd reached inside.not_ge

/-- With seventeen digits, what is rounded to a number is not beyond the largest one's decimal. -/
theorem digits_le_of_rounded (same : n = 292) (decimal : shortest v = ⟨m, n⟩) :
    m ≤ 17976931348623157 := by
  by_contra beyond
  have far : (2 ^ 53 - 1) * 2 ^ 971 ≤ m * 10 ^ n := by
    rw [same]
    exact range_ends.2.trans (Nat.mul_le_mul_right _ (not_le.1 beyond))
  have above : largest ≤ (m * 10 ^ n : ℕ) := by
    have power : largest = ((2 ^ 53 - 1) * 2 ^ 971 : ℕ) := by
      rw [Nat.cast_mul, Nat.cast_pow 2 971]
      exact congrArg _ (zpow_natCast 2 971)
    rw [power]
    exact Nat.cast_le.2 far
  have reached := nearest_mono above
  rw [nearest_largest, rounded] at reached
  rw [eq_top canonical fits reached, shortest_top] at decimal
  have digits : 17976931348623157 = m := congrArg Scaled.digits decimal
  omega

end

/-- **The end of the range.**  The shortest decimal of a number is scaled within range. -/
theorem shortest_fits {v : Finite} (canonical : Canonical v.significand v.exponent)
    (fits : v.exponent ≤ 971) (up : 0 ≤ (shortest v).exponent) :
    (shortest v).exponent ≤ 308 ∧ nearest (value (Float.ofNat (shortest v).digits) *
      value (powerOfTen (shortest v).exponent.toNat)) < edge := by
  rcases v.significand.eq_zero_or_pos with zero | pos
  · rw [shortest, if_pos zero, value_zero, zero_mul, nearest_zero]
    exact ⟨by norm_num, edge_pos⟩
  obtain ⟨owned, -, digits⟩ := shortest_spec canonical pos
  obtain ⟨above, below⟩ := owned.bounds canonical fits pos
  have rounded := owned.nearest_eq canonical pos
  cases decimal : shortest v with | mk m e => ?_
  rw [decimal] at up digits above below rounded
  obtain ⟨n, rfl⟩ := Int.eq_ofNat_of_zero_le up
  have exact : Scaled.value ⟨m, n⟩ = (m * 10 ^ n : ℕ) := by
    rw [Scaled.value, zpow_natCast]
    push_cast
    rfl
  have m_pos : 0 < m := by
    by_contra zero
    rw [Nat.eq_zero_of_not_pos zero, Scaled.value, Nat.cast_zero, zero_mul] at above
    exact absurd above (ten_zpow_pos _).not_gt
  have small : n ≤ 308 := by
    have le : (10 : ℚ) ^ (n : ℤ) ≤ Scaled.value ⟨m, n⟩ := by
      rw [exact, zpow_natCast]
      exact_mod_cast Nat.le_mul_of_pos_left _ m_pos
    have := ten_zpow_lt_iff.1 (le.trans_lt below)
    omega
  rw [exact] at rounded
  refine ⟨Int.ofNat_le.2 small, ?_⟩
  show nearest (value (Float.ofNat m) * value (powerOfTen n)) < edge
  rcases lt_trichotomy n 292 with less | same | more
  · have le : m * 10 ^ n ≤ limit := by
      calc m * 10 ^ n ≤ 10 ^ 17 * 10 ^ n := Nat.mul_le_mul_right _ digits
        _ = 10 ^ (17 + n) := (pow_add 10 17 n).symm
        _ ≤ limit := ten_pow_le_limit (by omega)
    exact nearest_product_lt_edge digits small le
  · have le := digits_le_of_rounded canonical fits rounded same decimal
    have power := (tracks_powerOfTen small).nonneg
    have smaller : value (Float.ofNat m) ≤ value (Float.ofNat 17976931348623157) := by
      rw [(value_ofNat_eq m).1, (value_ofNat_eq 17976931348623157).1]
      exact nearest64_mono (by exact_mod_cast le)
    rw [same] at power ⊢
    exact (nearest_mono (mul_le_mul_of_nonneg_right smaller power)).trans_lt
      nearest_scaled_top_lt_edge
  · exact nearest_product_lt_edge digits small
      (le_limit_of_rounded canonical fits rounded more)

end Decimal

end Prognosis
