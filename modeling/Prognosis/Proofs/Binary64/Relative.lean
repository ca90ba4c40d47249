import Prognosis.Proofs.Binary64.Error

/-!
# Relative errors of products and quotients

Each rounding keeps a positive number up to the factor `keep`, and half of the least number where
digits are lost at the end of the range.  `Close` counts both, alike in either direction, so it is
closed under products, quotients and steps taken one after the other (`Close.mul`, `Close.div`,
`Close.trans`).  A finite result then is as close to the exact one as its operands were and one
rounding more (`Tracks.mul`, `Tracks.div`).
-/

namespace Prognosis.Binary64

/-! ## Fractions -/

/-- What a rounding leaves of a number at least. -/
def keep : ℚ := 1 - roundoff

theorem keep_pos : 0 < keep := by norm_num [keep, roundoff]

theorem keep_lt_one : keep < 1 := by norm_num [keep, roundoff]

theorem keep_pow_le_one (k : ℕ) : keep ^ k ≤ 1 := pow_le_one₀ keep_pos.le keep_lt_one.le

/-- Two fractions that are equal up to so many roundings and a slack. -/
structure Close (k : ℕ) (slack p q : ℚ) : Prop where
  below : keep ^ k * p ≤ q + slack
  above : keep ^ k * q ≤ p + slack

namespace Close

variable {j k : ℕ} {s t p q r u : ℚ}

theorem symm (close : Close k s p q) : Close k s q p := ⟨close.above, close.below⟩

theorem mono (close : Close j s p q) (more : j ≤ k) (wider : s ≤ t) (p_nonneg : 0 ≤ p)
    (q_nonneg : 0 ≤ q) : Close k t p q := by
  have le : keep ^ k ≤ keep ^ j := pow_le_pow_of_le_one keep_pos.le keep_lt_one.le more
  have := mul_le_mul_of_nonneg_right le p_nonneg
  have := mul_le_mul_of_nonneg_right le q_nonneg
  have := close.below
  have := close.above
  constructor <;> linarith

theorem trans (first : Close j s p q) (second : Close k t q r) (s_nonneg : 0 ≤ s)
    (t_nonneg : 0 ≤ t) : Close (j + k) (s + t) p r := by
  constructor
  case below =>
    calc keep ^ (j + k) * p = keep ^ k * (keep ^ j * p) := by ring
      _ ≤ keep ^ k * (q + s) :=
          mul_le_mul_of_nonneg_left first.below (pow_nonneg keep_pos.le k)
      _ = keep ^ k * q + keep ^ k * s := by ring
      _ ≤ (r + t) + s :=
          add_le_add second.below (mul_le_of_le_one_left s_nonneg (keep_pow_le_one k))
      _ = r + (s + t) := by ring
  case above =>
    calc keep ^ (j + k) * r = keep ^ j * (keep ^ k * r) := by ring
      _ ≤ keep ^ j * (q + t) :=
          mul_le_mul_of_nonneg_left second.above (pow_nonneg keep_pos.le j)
      _ = keep ^ j * q + keep ^ j * t := by ring
      _ ≤ (p + s) + t :=
          add_le_add first.above (mul_le_of_le_one_left t_nonneg (keep_pow_le_one j))
      _ = p + (s + t) := by ring

/-- Products of numbers that have all their digits. -/
theorem mul (first : Close j 0 p q) (second : Close k 0 r u) (p_nonneg : 0 ≤ p)
    (q_nonneg : 0 ≤ q) (r_nonneg : 0 ≤ r) (u_nonneg : 0 ≤ u) :
    Close (j + k) 0 (p * r) (q * u) := by
  obtain ⟨below, above⟩ := first
  obtain ⟨below', above'⟩ := second
  rw [add_zero] at below above below' above'
  have kept (i : ℕ) {x : ℚ} (nonneg : 0 ≤ x) : 0 ≤ keep ^ i * x :=
    mul_nonneg (pow_nonneg keep_pos.le i) nonneg
  constructor
  case below =>
    calc keep ^ (j + k) * (p * r) = keep ^ j * p * (keep ^ k * r) := by ring
      _ ≤ q * u := mul_le_mul below below' (kept k r_nonneg) q_nonneg
      _ = q * u + 0 := (add_zero _).symm
  case above =>
    calc keep ^ (j + k) * (q * u) = keep ^ j * q * (keep ^ k * u) := by ring
      _ ≤ p * r := mul_le_mul above above' (kept k u_nonneg) p_nonneg
      _ = p * r + 0 := (add_zero _).symm

/-- One half of what makes quotients close. -/
theorem div_le (first : keep ^ j * p ≤ q + s) (second : keep ^ k * u ≤ r)
    (s_nonneg : 0 ≤ s) (q_nonneg : 0 ≤ q) (r_pos : 0 < r) (u_large : 1 ≤ u) :
    keep ^ (j + k) * (p / r) ≤ q / u + s := by
  have u_pos : 0 < u := by linarith
  have inverse : keep ^ k / r ≤ 1 / u := by
    rw [div_le_div_iff₀ r_pos u_pos, one_mul]
    exact second
  have nonneg : 0 ≤ keep ^ k / r := div_nonneg (pow_nonneg keep_pos.le k) r_pos.le
  calc keep ^ (j + k) * (p / r) = keep ^ j * p * (keep ^ k / r) := by ring
    _ ≤ (q + s) * (keep ^ k / r) := mul_le_mul_of_nonneg_right first nonneg
    _ ≤ (q + s) * (1 / u) := mul_le_mul_of_nonneg_left inverse (add_nonneg q_nonneg s_nonneg)
    _ = q / u + s / u := by ring
    _ ≤ q / u + s := by
        have := div_le_self s_nonneg u_large
        linarith

/-- Quotients by numbers that have all their digits. -/
theorem div (first : Close j s p q) (second : Close k 0 r u) (s_nonneg : 0 ≤ s)
    (p_nonneg : 0 ≤ p) (q_nonneg : 0 ≤ q) (r_large : 1 ≤ r) (u_large : 1 ≤ u) :
    Close (j + k) s (p / r) (q / u) := by
  obtain ⟨below, above⟩ := second
  rw [add_zero] at below above
  exact ⟨div_le first.below above s_nonneg q_nonneg (by linarith) u_large,
    div_le first.above below s_nonneg p_nonneg (by linarith) r_large⟩

theorem of_abs_sub_le (p_nonneg : 0 ≤ p) (s_nonneg : 0 ≤ s)
    (near : |q - p| ≤ roundoff * p + s) : Close 1 s p q := by
  obtain ⟨low, high⟩ := abs_le.1 near
  have u_pos := roundoff_pos
  constructor
  case below =>
    rw [pow_one, keep]
    linarith
  case above =>
    have upper : q ≤ (1 + roundoff) * p + s := by linarith
    calc keep ^ 1 * q ≤ keep ^ 1 * ((1 + roundoff) * p + s) :=
          mul_le_mul_of_nonneg_left upper (pow_nonneg keep_pos.le 1)
      _ = p - roundoff ^ 2 * p + keep * s := by
          rw [pow_one, keep]
          ring
      _ ≤ p + s := by
          have := mul_nonneg (sq_nonneg roundoff) p_nonneg
          have := mul_le_of_le_one_left s_nonneg keep_lt_one.le
          linarith

theorem nearest_of_grid (grid : OnGrid q) (nonneg : 0 ≤ q) : Close 1 0 q (nearest q) := by
  refine of_abs_sub_le nonneg le_rfl ?_
  have error := abs_nearest_sub_le grid
  rwa [abs_of_nonneg nonneg, ← add_zero (roundoff * q)] at error

theorem nearest (nonneg : 0 ≤ q) : Close 1 (grain / 2) q (nearest q) := by
  have grain_pos : 0 < grain := two_zpow_pos _
  refine of_abs_sub_le nonneg (by linarith) ?_
  have error := abs_nearest_sub_le_add q
  rwa [abs_of_nonneg nonneg] at error

/-- Six roundings make less than eight times the error of one and twice the slack. -/
theorem abs_sub_le (close : Close k s p q) (few : k ≤ 6) (p_nonneg : 0 ≤ p) (q_nonneg : 0 ≤ q)
    (s_nonneg : 0 ≤ s) : |q - p| ≤ 8 * roundoff * p + 2 * s := by
  obtain ⟨below, above⟩ := close.mono few le_rfl p_nonneg q_nonneg
  have left : 1 ≤ keep ^ 6 * (1 + 8 * roundoff) := by norm_num [keep, roundoff]
  have large : 1 / 2 ≤ keep ^ 6 := by norm_num [keep, roundoff]
  have lost : 1 - 8 * roundoff ≤ keep ^ 6 := by norm_num [keep, roundoff]
  have u_pos := roundoff_pos
  generalize keep ^ 6 = g at left large lost below above
  rw [abs_le]
  constructor
  · have := mul_le_mul_of_nonneg_right lost p_nonneg
    linarith
  · -- From `g * q ≤ p + s` and `1 ≤ g * (1 + 8 * roundoff)`, with `2 * g ≥ 1` for the slack.
    have g_pos : 0 < g := by linarith
    have scaled : g * q ≤ g * ((1 + 8 * roundoff) * p + 2 * s) := by
      have := mul_le_mul_of_nonneg_right left p_nonneg
      have := mul_le_mul_of_nonneg_right large s_nonneg
      linarith
    have := le_of_mul_le_mul_left scaled g_pos
    linarith

end Close

/-! ## Results -/

/-- The largest finite number. -/
def largest : ℚ := (2 ^ 53 - 1 : ℕ) * 2 ^ (971 : ℤ)

theorem largest_lt_edge : largest < edge := magnitude_lt_edge (by norm_num) le_rfl

theorem nearest_lt_edge {q : ℚ} (nonneg : 0 ≤ q) (le : q ≤ largest) : nearest q < edge := by
  rcases nonneg.eq_or_lt with rfl | pos
  · rw [nearest_zero]
    exact edge_pos
  · have size : exponentOf q ≤ 971 :=
      (exponentOf_mono pos le).trans (exponentOf_le (by norm_num) (by norm_num) (by norm_num))
    have below : nearest q ≤ largest := by
      unfold largest at le ⊢
      rw [← Int.cast_natCast] at le ⊢
      exact nearest_le_of_le_grid le size
    exact below.trans_lt largest_lt_edge

section

variable {x : Float} {q : ℚ}

theorem finite_of_nearest (x_defined : x.isNaN = false) (rounded : value x = nearest64 q)
    (nonneg : 0 ≤ q) (small : nearest q < edge) : x.isFinite = true ∧ value x = nearest q := by
  have rounded_nonneg := nearest_nonneg nonneg
  have pos := edge_pos
  have held : nearest64 q = nearest q := by
    rw [nearest64, min_eq_right small.le, max_eq_right (by linarith)]
  rw [held] at rounded
  exact ⟨finite_of_value x_defined (by linarith) (by linarith), rounded⟩

theorem nearest_value (x_finite : x.isFinite = true) : nearest (value x) = value x := by
  obtain ⟨low, high⟩ := value_lt_edge x_finite
  have again := nearest64_value x_finite
  rw [nearest64] at again
  rcases le_total (nearest (value x)) edge with le | ge
  · rw [min_eq_right le] at again
    rcases le_total (-edge) (nearest (value x)) with le' | ge'
    · exact (max_eq_right le').symm.trans again
    · exact absurd ((max_eq_left ge').symm.trans again) low.ne
  · rw [min_eq_left ge] at again
    exact absurd ((le_max_right _ _).trans_eq again) high.not_ge

/-- A finite number that is not negative and close to an exact one. -/
structure Tracks (x : Float) (k : ℕ) (slack q : ℚ) : Prop where
  finite : x.isFinite = true
  nonneg : 0 ≤ value x
  close : Close k slack q (value x)

end

namespace Tracks

variable {x y : Float} {j k : ℕ} {s t q r : ℚ}

theorem mono (tracks : Tracks x j s q) (more : j ≤ k) (wider : s ≤ t) (q_nonneg : 0 ≤ q) :
    Tracks x k t q :=
  ⟨tracks.finite, tracks.nonneg, tracks.close.mono more wider q_nonneg tracks.nonneg⟩

theorem of_natCast {n : ℕ} (x_defined : x.isNaN = false) (rounded : value x = nearest64 n)
    (le : (n : ℚ) ≤ largest) : Tracks x 1 0 n := by
  have nonneg : (0 : ℚ) ≤ n := Nat.cast_nonneg n
  obtain ⟨finite, exact⟩ := finite_of_nearest x_defined rounded nonneg (nearest_lt_edge nonneg le)
  have grid : OnGrid n := by
    have := OnGrid.of_coarser (n := (n : ℤ)) (e := 0) (by norm_num)
    simpa using this
  refine ⟨finite, by rw [exact]; exact nearest_nonneg nonneg, ?_⟩
  rw [exact]
  exact .nearest_of_grid grid nonneg

theorem of_value {p : ℚ} (x_defined : x.isNaN = false) (rounded : value x = nearest64 p)
    (nonneg : 0 ≤ p) (small : Binary64.nearest p < edge) (s_nonneg : 0 ≤ s)
    (close : Close k s q p) : Tracks x (k + 1) (s + grain / 2) q := by
  have grain_pos : 0 < grain := two_zpow_pos _
  obtain ⟨finite, exact⟩ := finite_of_nearest x_defined rounded nonneg small
  refine ⟨finite, by rw [exact]; exact nearest_nonneg nonneg, ?_⟩
  rw [exact]
  exact close.trans (.nearest nonneg) s_nonneg (by linarith)

/-- A product that stays in range. -/
theorem mul (hx : Tracks x j 0 q) (hy : Tracks y k 0 r) (q_nonneg : 0 ≤ q) (r_nonneg : 0 ≤ r)
    (small : Binary64.nearest (value x * value y) < edge) :
    Tracks (x * y) (j + k + 1) (0 + grain / 2) (q * r) := by
  obtain ⟨rounded, defined⟩ := value_mul hx.finite hy.finite
  exact of_value defined rounded (mul_nonneg hx.nonneg hy.nonneg) small le_rfl
    (hx.close.mul hy.close q_nonneg hx.nonneg r_nonneg hy.nonneg)

/-- A quotient by a number that is not below one. -/
theorem div (hx : Tracks x j s q) (hy : Tracks y k 0 r) (s_nonneg : 0 ≤ s) (q_nonneg : 0 ≤ q)
    (r_large : 1 ≤ r) (y_large : 1 ≤ value y) :
    Tracks (x / y) (j + k + 1) (s + grain / 2) (q / r) := by
  obtain ⟨rounded, defined⟩ := value_div hx.finite hy.finite (by linarith)
  have smaller : value x / value y ≤ value x := div_le_self hx.nonneg y_large
  have small : Binary64.nearest (value x / value y) < edge := by
    calc Binary64.nearest (value x / value y) ≤ Binary64.nearest (value x) := nearest_mono smaller
      _ = value x := nearest_value hx.finite
      _ < edge := (value_lt_edge hx.finite).2
  exact of_value defined rounded (div_nonneg hx.nonneg hy.nonneg) small s_nonneg
    (hx.close.div hy.close s_nonneg q_nonneg hx.nonneg r_large y_large)

end Tracks

end Prognosis.Binary64
