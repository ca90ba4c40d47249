import Prognosis.Proofs.Binary64.Error
import Prognosis.Proofs.Prediction
import Prognosis.Proofs.Trend.LeastSquares

/-!
# Rounding noise of a trend

The slope of a constant series is a difference of two products over another such difference.  Each
product is made of running sums and so lies near its exact value.  The exact values of the upper two
are the same, those of the lower two are far apart (`near_covariance`, `spread_large`).  What is
left of the slope, and of the rate per hour, is a tiny share of the constant (`abs_hourly_le`).
-/

namespace Prognosis

open Scalar Binary64

namespace Trend

/-! ## Running sums -/

section

variable {α : Type} [Scalar α]

theorem addFrom_concat (s : Sums α) (i : ℕ) (ys : List α) (y : α) :
    s.addFrom i (ys ++ [y]) = (s.addFrom i ys).add (i + ys.length) y := by
  induction ys generalizing s i with
  | nil => rfl
  | cons z ys ih =>
    rw [List.cons_append, Sums.addFrom, ih, List.length_cons, Nat.add_right_comm, Nat.add_assoc]
    rfl

theorem sums_concat (ys : List α) (y : α) :
    sums (ys ++ [y]) = (sums ys).add ys.length y := by
  rw [sums, addFrom_concat, Nat.zero_add]
  rfl

end

/-- The sums of a constant series, each by itself. -/
def flatSums (n : ℕ) (c : Float) : Sums Float where
  index := runningSum (fun i => num i) n
  value := runningSum (fun _ => c) n
  product := runningSum (fun i => num i * c) n
  square := runningSum (fun i => num i * num i) n

theorem sums_replicate (n : ℕ) (c : Float) : sums (List.replicate n c) = flatSums n c := by
  induction n with
  | zero => rfl
  | succ n ih =>
    rw [List.replicate_succ', sums_concat, ih, List.length_replicate]
    rfl

/-- The two numbers whose quotient is the slope of a constant series. -/
def covariance (n : ℕ) (c : Float) : Float :=
  num n * (flatSums n c).product - (flatSums n c).index * (flatSums n c).value

def spread (n : ℕ) (c : Float) : Float :=
  num n * (flatSums n c).square - (flatSums n c).index * (flatSums n c).index

theorem slope_replicate {n : ℕ} (two : 2 ≤ n) (c : Float) :
    slope (List.replicate n c) = covariance n c / spread n c := by
  rw [slope, List.length_replicate, if_neg (by omega), sums_replicate]
  rfl

/-! ## Closed forms -/

theorem sum_range_index (n : ℕ) : ∑ i ∈ Finset.range n, (i : ℚ) = n.choose 2 := by
  rw [Finset.sum_range, sum_index, Nat.cast_choose_two]

theorem sum_range_square (n : ℕ) :
    ∑ i ∈ Finset.range n, (i : ℚ) * i = n * (n - 1) * (2 * n - 1) / 6 := by
  rw [Finset.sum_range, sum_square]

section

variable (n : ℕ)

theorem choose_two_le : (n.choose 2 : ℚ) ≤ n ^ 2 / 2 := by
  have count : (0 : ℚ) ≤ n := Nat.cast_nonneg n
  rw [Nat.cast_choose_two]
  linarith [show (n * (n - 1) / 2 : ℚ) = n ^ 2 / 2 - n / 2 by ring]

theorem square_bounds :
    (0 : ℚ) ≤ n * (n - 1) * (2 * n - 1) / 6 ∧
      (n * (n - 1) * (2 * n - 1) / 6 : ℚ) ≤ n ^ 3 / 3 := by
  have expand : (n * (n - 1) * (2 * n - 1) / 6 : ℚ) = n ^ 3 / 3 - n ^ 2 / 2 + n / 6 := by ring
  have le_square : (n : ℚ) ≤ n ^ 2 := by exact_mod_cast Nat.le_self_pow two_ne_zero n
  have square : (0 : ℚ) ≤ n ^ 2 := sq_nonneg _
  constructor
  · rw [← sum_range_square]
    exact Finset.sum_nonneg fun i _ => mul_self_nonneg _
  · linarith

theorem le_cube : (n : ℚ) ≤ n ^ 3 := by
  exact_mod_cast Nat.le_self_pow (by norm_num) n

theorem square_le_cube : (n ^ 2 : ℚ) ≤ n ^ 3 := by
  rcases n.eq_zero_or_pos with rfl | pos
  · norm_num
  · exact pow_le_pow_right₀ (by exact_mod_cast pos) (by norm_num)

end

/-! ## Sums of not too many numbers -/

section

variable {n : ℕ} (few : n ≤ 2 ^ 26)

include few

theorem share_le : 2 * n * roundoff ≤ 1 / 2 ^ 26 := by
  have count : (n : ℚ) ≤ 2 ^ 26 := by exact_mod_cast few
  have bound := mul_le_mul_of_nonneg_right count roundoff_pos.le
  have most : (2 : ℚ) ^ 26 * roundoff * 2 = 1 / 2 ^ 26 := by norm_num [roundoff]
  linarith

omit few in
theorem growth_le (slight : 2 * n * roundoff ≤ 1) : (1 + roundoff) ^ n - 1 ≤ 2 * n * roundoff := by
  have u_pos := roundoff_pos
  induction n with
  | zero => norm_num
  | succ n ih =>
    rw [pow_succ]
    push_cast at slight ⊢
    have growth := ih (by linarith)
    nlinarith

theorem near_runningSum_of_few {f : ℕ → Float} {total : ℚ}
    (finite : ∀ i < n, (f i).isFinite = true)
    (sum_le : ∑ i ∈ Finset.range n, |value (f i)| ≤ total) (small : total ≤ edge / 4) :
    Near (runningSum f n) (∑ i ∈ Finset.range n, value (f i)) (2 * n * roundoff * total) := by
  have slight : 2 * n * roundoff ≤ 1 := (share_le few).trans (by norm_num)
  have growth := growth_le slight
  have nonneg : 0 ≤ ∑ i ∈ Finset.range n, |value (f i)| := Finset.sum_nonneg fun i _ => abs_nonneg _
  have twofold : (1 + roundoff) ^ n ≤ 2 := by linarith
  have within : (1 + roundoff) ^ n * ∑ i ∈ Finset.range n, |value (f i)| ≤ edge / 2 := by
    have := mul_le_mul_of_nonneg_right twofold nonneg
    linarith
  obtain ⟨sum_finite, close⟩ := near_runningSum finite within
  refine ⟨sum_finite, close.trans (mul_le_mul growth sum_le nonneg ?_)⟩
  exact mul_nonneg (mul_nonneg two_pos.le (Nat.cast_nonneg n)) roundoff_pos.le

theorem exactly_num {i : ℕ} (le : i ≤ n) : Exactly (num i) i 0 := by
  have digits : i < 2 ^ 53 := by omega
  exact ⟨finite_num digits, by rw [value_num digits, zpow_zero, mul_one, Int.cast_natCast]⟩

theorem value_index (c : Float) :
    (flatSums n c).index.isFinite = true ∧ value (flatSums n c).index = n.choose 2 := by
  have total : ∑ i ∈ Finset.range n, |(i : ℤ)| ≤ 2 ^ 52 := by
    calc ∑ i ∈ Finset.range n, |(i : ℤ)| ≤ ∑ i ∈ Finset.range n, (2 ^ 26 : ℤ) := by
          refine Finset.sum_le_sum fun i mem => ?_
          have := Finset.mem_range.1 mem
          rw [Nat.abs_cast]
          omega
      _ = n * 2 ^ 26 := by rw [Finset.sum_const, Finset.card_range, nsmul_eq_mul]
      _ ≤ 2 ^ 52 := by omega
  have small : ((∑ i ∈ Finset.range n, |(i : ℤ)| : ℤ) * 2 ^ (0 : ℤ) : ℚ) ≤ edge / 2 := by
    rw [zpow_zero, mul_one]
    calc ((∑ i ∈ Finset.range n, |(i : ℤ)| : ℤ) : ℚ) ≤ 2 ^ 52 := by exact_mod_cast total
      _ ≤ 2 ^ 200 := by norm_num
      _ ≤ edge / 2 := by linarith [two_pow_le_edge, edge_pos]
  obtain ⟨finite, exact_value⟩ := exactly_runningSum (by norm_num)
    (fun i lt => exactly_num few (Nat.le_of_lt lt)) (by omega) small
  refine ⟨finite, ?_⟩
  rw [zpow_zero, mul_one, Int.cast_sum] at exact_value
  rw [← sum_range_index]
  exact exact_value

theorem near_square (c : Float) :
    Near (flatSums n c).square (n * (n - 1) * (2 * n - 1) / 6)
      (2 * n * roundoff * (n * (n - 1) * (2 * n - 1) / 6)) := by
  have square {i : ℕ} (mem : i ∈ Finset.range n) :
      value (num i * num i) = i * i ∧ (num i * num i : Float).isFinite = true := by
    have lt := Finset.mem_range.1 mem
    have digits : i * i < 2 ^ 53 := by
      calc i * i ≤ 2 ^ 26 * 2 ^ 26 := Nat.mul_le_mul (by omega) (by omega)
        _ < 2 ^ 53 := by norm_num
    have factor_finite := (exactly_num few (Nat.le_of_lt lt)).finite
    obtain ⟨rounded, defined⟩ := value_mul factor_finite factor_finite
    rw [value_num (by omega), ← Nat.cast_mul, nearest64_natCast digits] at rounded
    have finite := finite_of_value_eq_natCast defined rounded (natCast_lt_edge digits)
    exact ⟨by rw [rounded, Nat.cast_mul], finite⟩
  have values : ∑ i ∈ Finset.range n, value (num i * num i) = n * (n - 1) * (2 * n - 1) / 6 := by
    rw [← sum_range_square]
    exact Finset.sum_congr rfl fun i mem => (square mem).1
  have magnitudes : ∑ i ∈ Finset.range n, |value (num i * num i)| =
      ∑ i ∈ Finset.range n, value (num i * num i) := by
    refine Finset.sum_congr rfl fun i mem => abs_of_nonneg ?_
    rw [(square mem).1]
    exact mul_self_nonneg _
  have small : (n * (n - 1) * (2 * n - 1) / 6 : ℚ) ≤ edge / 4 := by
    have count : (n : ℚ) ≤ 2 ^ 26 := by exact_mod_cast few
    have cube : (n : ℚ) ^ 3 ≤ (2 ^ 26) ^ 3 := pow_le_pow_left₀ (Nat.cast_nonneg n) count 3
    have room : ((2 : ℚ) ^ 26) ^ 3 / 3 ≤ 2 ^ 200 := by norm_num
    linarith [(square_bounds n).2, two_pow_le_edge]
  rw [← values] at small ⊢
  exact near_runningSum_of_few few (fun i lt => (square (Finset.mem_range.2 lt)).2) magnitudes.le
    small

/-! ## The spread -/

theorem fourth_le_edge : (n : ℚ) ^ 4 ≤ edge / 2 := by
  have count : (n : ℚ) ≤ 2 ^ 26 := by exact_mod_cast few
  calc (n : ℚ) ^ 4 ≤ (2 ^ 26) ^ 4 := pow_le_pow_left₀ (Nat.cast_nonneg n) count 4
    _ ≤ 2 ^ 200 := by norm_num
    _ ≤ edge / 2 := by linarith [two_pow_le_edge, edge_pos]

theorem near_scaled_square (c : Float) :
    Near (num n * (flatSums n c).square) (n * (n * (n - 1) * (2 * n - 1) / 6))
      (n ^ 4 / 2 ^ 26) := by
  have sum := near_square few c
  obtain ⟨nonneg, square_le⟩ := square_bounds n
  have count : (0 : ℚ) ≤ n := Nat.cast_nonneg n
  have share := mul_le_mul_of_nonneg_right (share_le few) nonneg
  have error : |n * value (flatSums n c).square - n * (n * (n - 1) * (2 * n - 1) / 6)| ≤
      n ^ 4 / 3 * (1 / 2 ^ 26) := by
    rw [← mul_sub, abs_mul, Nat.abs_cast]
    calc n * |value (flatSums n c).square - n * (n - 1) * (2 * n - 1) / 6|
        ≤ n * (1 / 2 ^ 26 * (n ^ 3 / 3)) :=
          mul_le_mul_of_nonneg_left (by linarith [sum.close]) count
      _ = n ^ 4 / 3 * (1 / 2 ^ 26) := by ring
  have size : |n * value (flatSums n c).square| ≤ n ^ 4 := by
    rw [abs_mul, Nat.abs_cast]
    calc n * |value (flatSums n c).square| ≤ n * n ^ 3 := by
          refine mul_le_mul_of_nonneg_left (sum.abs_le.trans ?_) count
          rw [abs_of_nonneg nonneg]
          linarith
      _ = n ^ 4 := by ring
  obtain ⟨finite, close⟩ := near_natCast_mul (exactly_num few le_rfl).finite sum.finite
    (value_num (by omega)) size (fourth_le_edge few)
  refine ⟨finite, (abs_sub_le _ _ _).trans ((add_le_add close error).trans ?_)⟩
  have u_small : roundoff ≤ 1 / 2 ^ 27 := by norm_num [roundoff]
  have fourth := pow_nonneg count 4
  have := mul_le_mul_of_nonneg_right u_small fourth
  linarith

theorem near_index_square (c : Float) :
    Near ((flatSums n c).index * (flatSums n c).index) (n.choose 2 * n.choose 2)
      (n ^ 4 / 2 ^ 26) := by
  obtain ⟨index_finite, exact_index⟩ := value_index few c
  have nonneg : (0 : ℚ) ≤ n.choose 2 := Nat.cast_nonneg _
  have fourth : (0 : ℚ) ≤ n ^ 4 := pow_nonneg (Nat.cast_nonneg n) 4
  have size : |n.choose 2 * value (flatSums n c).index| ≤ n ^ 4 := by
    rw [exact_index, abs_of_nonneg (mul_nonneg nonneg nonneg)]
    calc (n.choose 2 * n.choose 2 : ℚ) ≤ n ^ 2 / 2 * (n ^ 2 / 2) :=
          mul_le_mul (choose_two_le n) (choose_two_le n) nonneg (by positivity)
      _ ≤ n ^ 4 := by linarith
  obtain ⟨finite, close⟩ := near_natCast_mul index_finite index_finite exact_index size
    (fourth_le_edge few)
  rw [exact_index] at close
  have u_small : roundoff ≤ 1 / 2 ^ 26 := by norm_num [roundoff]
  have := mul_le_mul_of_nonneg_right u_small fourth
  exact ⟨finite, by linarith⟩

theorem spread_large (two : 2 ≤ n) (c : Float) :
    (spread n c).isFinite = true ∧ (n ^ 4 / 25 : ℚ) ≤ value (spread n c) := by
  have first := near_scaled_square few c
  have second := near_index_square few c
  have first_bounds := abs_le.1 first.close
  have second_bounds := abs_le.1 second.close
  have fourth : (0 : ℚ) ≤ n ^ 4 := by positivity
  have apart : n * (n * (n - 1) * (2 * n - 1) / 6) - n.choose 2 * n.choose 2 =
      (n ^ 4 / 12 - n ^ 2 / 12 : ℚ) := by
    rw [Nat.cast_choose_two]
    ring
  have square : (4 : ℚ) ≤ n ^ 2 := by exact_mod_cast Nat.pow_le_pow_left two 2
  have fourfold : (4 * n ^ 2 : ℚ) ≤ n ^ 2 * n ^ 2 :=
    mul_le_mul_of_nonneg_right square (sq_nonneg _)
  have size : |value (num n * (flatSums n c).square) -
      value ((flatSums n c).index * (flatSums n c).index)| ≤ n ^ 4 := by
    refine abs_le.2 ⟨?_, ?_⟩ <;> linarith
  obtain ⟨finite, close⟩ := near_sub first.finite second.finite size (fourth_le_edge few)
  refine ⟨finite, ?_⟩
  have u_small : roundoff ≤ 1 / 2 ^ 26 := by norm_num [roundoff]
  have := mul_le_mul_of_nonneg_right u_small fourth
  unfold spread
  linarith [(abs_le.1 close).1]

end

/-! ## A constant of moderate size -/

/-- A constant series whose length and size keep all its sums within range. -/
structure Moderate (n : ℕ) (c : Float) : Prop where
  finite : c.isFinite = true
  few : n ≤ 2 ^ 26
  small : (n : ℚ) ^ 3 * |value c| ≤ edge / 4

section

variable {n : ℕ} {c : Float} (moderate : Moderate n c)

include moderate

theorem multiple_le {i : ℕ} (le : i ≤ n) : i * |value c| ≤ edge / 4 := by
  have below : (i : ℚ) ≤ n ^ 3 := (Nat.cast_le.2 le).trans (le_cube n)
  exact (mul_le_mul_of_nonneg_right below (abs_nonneg _)).trans moderate.small

theorem near_value :
    Near (flatSums n c).value (n * value c) (2 * n * roundoff * (n * |value c|)) := by
  have sum := near_runningSum_of_few moderate.few (f := fun _ => c) (fun _ _ => moderate.finite)
    (by simp) (multiple_le moderate le_rfl)
  unfold flatSums
  simpa using sum

theorem near_term {i : ℕ} (lt : i < n) :
    Near (num i * c) (i * value c) (roundoff * (i * |value c|)) := by
  have few := moderate.few
  have size : |i * value c| = i * |value c| := by rw [abs_mul, Nat.abs_cast]
  have small := multiple_le moderate lt.le
  exact near_natCast_mul (exactly_num few lt.le).finite moderate.finite (value_num (by omega))
    size.le (by linarith [edge_pos])

/-- The terms of the sum of products are rounded once, and their sum once for each term. -/
theorem near_product :
    Near (flatSums n c).product (n.choose 2 * value c) (2 * roundoff * (n ^ 3 * |value c|)) := by
  have size := abs_nonneg (value c)
  have u_pos := roundoff_pos
  have count : (0 : ℚ) ≤ n := Nat.cast_nonneg n
  have square_le := mul_le_mul_of_nonneg_right (square_le_cube n) size
  have index_le := mul_le_mul_of_nonneg_right (choose_two_le n) size
  have rest : 2 * n * (1 + roundoff) * (n.choose 2 * |value c|) + n.choose 2 * |value c| ≤
      2 * (n ^ 3 * |value c|) := by
    have u_small : roundoff ≤ 1 / 2 := by norm_num [roundoff]
    have cube := mul_nonneg (pow_nonneg count 3) size
    calc 2 * n * (1 + roundoff) * (n.choose 2 * |value c|) + n.choose 2 * |value c|
        ≤ 2 * n * (1 + 1 / 2) * (n ^ 2 / 2 * |value c|) + n ^ 2 / 2 * |value c| := by gcongr
      _ = 3 / 2 * (n ^ 3 * |value c|) + 1 / 2 * (n ^ 2 * |value c|) := by ring
      _ ≤ 2 * (n ^ 3 * |value c|) := by linarith
  have magnitudes : ∑ i ∈ Finset.range n, |value (num i * c)| ≤
      (1 + roundoff) * (n.choose 2 * |value c|) := by
    rw [← sum_range_index, Finset.sum_mul, Finset.mul_sum]
    refine Finset.sum_le_sum fun i mem => ?_
    have term := (near_term moderate (Finset.mem_range.1 mem)).abs_le
    rw [abs_mul, Nat.abs_cast] at term
    linarith
  have error : |∑ i ∈ Finset.range n, value (num i * c) - n.choose 2 * value c| ≤
      roundoff * (n.choose 2 * |value c|) := by
    rw [← sum_range_index, Finset.sum_mul, ← Finset.sum_sub_distrib, Finset.sum_mul,
      Finset.mul_sum]
    refine (Finset.abs_sum_le_sum_abs _ _).trans (Finset.sum_le_sum fun i mem => ?_)
    exact (near_term moderate (Finset.mem_range.1 mem)).close
  have small : (1 + roundoff) * (n.choose 2 * |value c|) ≤ edge / 4 := by
    have u_small : roundoff ≤ 1 := by norm_num [roundoff]
    have nonneg := mul_nonneg (Nat.cast_nonneg (α := ℚ) (n.choose 2)) size
    have := mul_le_mul_of_nonneg_right u_small nonneg
    linarith [moderate.small]
  obtain ⟨finite, close⟩ := near_runningSum_of_few moderate.few
    (fun i lt => (near_term moderate lt).finite) magnitudes small
  refine ⟨finite, (abs_sub_le _ _ _).trans ((add_le_add close error).trans ?_)⟩
  calc 2 * n * roundoff * ((1 + roundoff) * (n.choose 2 * |value c|)) +
        roundoff * (n.choose 2 * |value c|)
      = roundoff * (2 * n * (1 + roundoff) * (n.choose 2 * |value c|) + n.choose 2 * |value c|) := by
        ring
    _ ≤ roundoff * (2 * (n ^ 3 * |value c|)) := mul_le_mul_of_nonneg_left rest u_pos.le
    _ = 2 * roundoff * (n ^ 3 * |value c|) := by ring

theorem abs_value_le : |value (flatSums n c).value| ≤ 2 * (n * |value c|) := by
  have near := (near_value moderate).abs_le
  have slight := share_le moderate.few
  have size := mul_nonneg (Nat.cast_nonneg (α := ℚ) n) (abs_nonneg (value c))
  have share := mul_le_mul_of_nonneg_right slight size
  rw [abs_mul, Nat.abs_cast] at near
  linarith

theorem abs_product_le : |value (flatSums n c).product| ≤ n ^ 2 * |value c| := by
  have near := (near_product moderate).abs_le
  have slight := share_le moderate.few
  have size := mul_nonneg (sq_nonneg (n : ℚ)) (abs_nonneg (value c))
  have share := mul_le_mul_of_nonneg_right slight size
  have index_le := mul_le_mul_of_nonneg_right (choose_two_le n) (abs_nonneg (value c))
  rw [abs_mul, Nat.abs_cast] at near
  calc |value (flatSums n c).product|
      ≤ n.choose 2 * |value c| + 2 * roundoff * (n ^ 3 * |value c|) := near
    _ = n.choose 2 * |value c| + 2 * n * roundoff * (n ^ 2 * |value c|) := by ring
    _ ≤ n ^ 2 * |value c| := by linarith

/-! ## The covariance -/

theorem near_scaled_product :
    Near (num n * (flatSums n c).product) (n * value (flatSums n c).product)
      (roundoff * (n ^ 3 * |value c|)) := by
  have few := moderate.few
  have size : |n * value (flatSums n c).product| ≤ n ^ 3 * |value c| := by
    rw [abs_mul, Nat.abs_cast, pow_succ', mul_assoc]
    exact mul_le_mul_of_nonneg_left (abs_product_le moderate) (Nat.cast_nonneg n)
  exact near_natCast_mul (exactly_num few le_rfl).finite (near_product moderate).finite
    (value_num (by omega)) size (by linarith [moderate.small, edge_pos])

theorem near_index_value :
    Near ((flatSums n c).index * (flatSums n c).value) (n.choose 2 * value (flatSums n c).value)
      (roundoff * (n ^ 3 * |value c|)) := by
  obtain ⟨index_finite, exact_index⟩ := value_index moderate.few c
  have size : |n.choose 2 * value (flatSums n c).value| ≤ n ^ 3 * |value c| := by
    rw [abs_mul, Nat.abs_cast]
    calc n.choose 2 * |value (flatSums n c).value| ≤ n ^ 2 / 2 * (2 * (n * |value c|)) :=
          mul_le_mul (choose_two_le n) (abs_value_le moderate) (abs_nonneg _) (by positivity)
      _ = n ^ 3 * |value c| := by ring
  exact near_natCast_mul index_finite (near_value moderate).finite exact_index size
    (by linarith [moderate.small, edge_pos])

/-- Both products have the same exact value. -/
theorem products_close (two : 2 ≤ n) :
    |value (num n * (flatSums n c).product) - value ((flatSums n c).index * (flatSums n c).value)| ≤
      4 * roundoff * (n ^ 4 * |value c|) := by
  have first := (near_scaled_product moderate).close
  have second := (near_index_value moderate).close
  have product : |n * value (flatSums n c).product - n * (n.choose 2 * value c)| ≤
      2 * roundoff * (n ^ 4 * |value c|) := by
    rw [← mul_sub, abs_mul, Nat.abs_cast]
    calc n * |value (flatSums n c).product - n.choose 2 * value c|
        ≤ n * (2 * roundoff * (n ^ 3 * |value c|)) :=
          mul_le_mul_of_nonneg_left (near_product moderate).close (Nat.cast_nonneg n)
      _ = 2 * roundoff * (n ^ 4 * |value c|) := by ring
  have total : |n.choose 2 * value (flatSums n c).value - n * (n.choose 2 * value c)| ≤
      roundoff * (n ^ 4 * |value c|) := by
    rw [mul_left_comm, ← mul_sub, abs_mul, Nat.abs_cast]
    calc n.choose 2 * |value (flatSums n c).value - n * value c|
        ≤ n ^ 2 / 2 * (2 * n * roundoff * (n * |value c|)) :=
          mul_le_mul (choose_two_le n) (near_value moderate).close (abs_nonneg _) (by positivity)
      _ = roundoff * (n ^ 4 * |value c|) := by ring
  have cube : 2 * (roundoff * (n ^ 3 * |value c|)) ≤ roundoff * (n ^ 4 * |value c|) := by
    have count : (2 : ℚ) ≤ n := by exact_mod_cast two
    have size : 0 ≤ roundoff * (n ^ 3 * |value c|) := by
      have := roundoff_pos
      positivity
    calc 2 * (roundoff * (n ^ 3 * |value c|)) ≤ n * (roundoff * (n ^ 3 * |value c|)) :=
          mul_le_mul_of_nonneg_right count size
      _ = roundoff * (n ^ 4 * |value c|) := by ring
  -- Each step from one product to the other is one of the four errors.
  have bounds := abs_le.1 first
  have bounds' := abs_le.1 second
  have bounds_product := abs_le.1 product
  have bounds_total := abs_le.1 total
  exact abs_le.2 ⟨by linarith, by linarith⟩

theorem near_covariance (two : 2 ≤ n) :
    Near (covariance n c) 0 (5 * roundoff * (n ^ 4 * |value c|)) := by
  have u_pos := roundoff_pos
  have size : 0 ≤ n ^ 3 * |value c| := by positivity
  have large : 0 ≤ n ^ 4 * |value c| := by positivity
  have close := products_close moderate two
  have small : 4 * roundoff * (n ^ 4 * |value c|) ≤ edge / 2 := by
    have share := mul_le_mul_of_nonneg_right (share_le moderate.few) size
    calc 4 * roundoff * (n ^ 4 * |value c|) = 2 * (2 * n * roundoff * (n ^ 3 * |value c|)) := by
          ring
      _ ≤ edge / 2 := by linarith [moderate.small]
  have difference := near_sub (near_scaled_product moderate).finite (near_index_value moderate).finite close small
  refine ⟨difference.finite, ?_⟩
  have rounding : roundoff * (4 * roundoff * (n ^ 4 * |value c|)) ≤
      roundoff * (n ^ 4 * |value c|) := by
    have u_small : 4 * roundoff ≤ 1 := by norm_num [roundoff]
    have := mul_le_mul_of_nonneg_right u_small large
    exact mul_le_mul_of_nonneg_left (by linarith) u_pos.le
  rw [sub_zero]
  refine difference.abs_le.trans ?_
  linarith

/-! ## The slope -/

/-- **Rounding noise.**  The slope of a constant series is within rounding errors of zero. -/
theorem abs_slope_le (two : 2 ≤ n) :
    (slope (List.replicate n c)).isFinite = true ∧
      |value (slope (List.replicate n c))| ≤ |value c| / 2 ^ 45 := by
  obtain ⟨cov_finite, cov_close⟩ := near_covariance moderate two
  obtain ⟨spread_finite, large⟩ := spread_large moderate.few two c
  have fourth : (0 : ℚ) < n ^ 4 := by
    have : 0 < n := by omega
    positivity
  have spread_pos : 0 < value (spread n c) := (by positivity : (0 : ℚ) < n ^ 4 / 25).trans_le large
  obtain ⟨rounded, defined⟩ := value_div cov_finite spread_finite spread_pos.ne'
  have size := abs_nonneg (value c)
  have bound : |value (covariance n c / spread n c)| ≤ |value c| / 2 ^ 45 := by
    rw [sub_zero] at cov_close
    rw [rounded]
    refine (abs_nearest64_le _).trans ?_
    rw [abs_div, abs_of_pos spread_pos]
    have quotient : |value (covariance n c)| / value (spread n c) ≤
        5 * roundoff * (n ^ 4 * |value c|) / (n ^ 4 / 25) :=
      div_le_div₀ (by have := roundoff_pos; positivity) cov_close (by positivity) large
    have cancelled : 5 * roundoff * (n ^ 4 * |value c|) / (n ^ 4 / 25) =
        125 * roundoff * |value c| := by
      field_simp
      ring
    have u_small : 250 * roundoff ≤ 1 / 2 ^ 45 := by norm_num [roundoff]
    have := mul_le_mul_of_nonneg_right u_small size
    linarith
  rw [slope_replicate two]
  have inside := abs_le.1 bound
  obtain ⟨low, high⟩ := value_lt_edge moderate.finite
  have below := abs_lt.2 ⟨low, high⟩
  exact ⟨finite_of_value defined (by linarith) (by linarith), bound⟩

/-- The noise of a rate per hour. -/
theorem abs_hourly_le {perHour : Float} (cadence_finite : perHour.isFinite = true)
    (cadence_nonneg : 0 ≤ value perHour) :
    (hourly perHour (List.replicate n c)).isNaN = false ∧
      |value (hourly perHour (List.replicate n c))| ≤ |value c| * value perHour / 2 ^ 44 := by
  have slope_bounds : (slope (List.replicate n c)).isFinite = true ∧
      |value (slope (List.replicate n c))| ≤ |value c| / 2 ^ 45 := by
    by_cases two : 2 ≤ n
    · exact abs_slope_le moderate two
    · -- A series of fewer than two values is flat by definition.
      rw [slope, List.length_replicate, if_pos (by omega)]
      refine ⟨finite_num (by norm_num), ?_⟩
      rw [value_num (by norm_num), Nat.cast_zero, abs_zero]
      positivity
  obtain ⟨slope_finite, slope_small⟩ := slope_bounds
  obtain ⟨rounded, defined⟩ := value_mul slope_finite cadence_finite
  refine ⟨defined, ?_⟩
  rw [hourly, rounded]
  refine (abs_nearest64_le _).trans ?_
  rw [abs_mul, abs_of_nonneg cadence_nonneg]
  have := mul_le_mul_of_nonneg_right slope_small cadence_nonneg
  linarith

end

end Trend

end Prognosis
