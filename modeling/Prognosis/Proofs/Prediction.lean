import Prognosis.Prediction
import Prognosis.Proofs.Binary64.Decoded

/-!
# Status and reported probability

The status is taken from the score by comparisons, the reported probability by rounding it.  The
bounds of the bands are whole numbers, so that rounding never leaves a band by more than its bound
(`agrees_ofRisk_iff`); only a score that is undefined makes the two contradict each other.
-/

namespace Prognosis

open Scalar Binary64 Decimal

/-! ## Whole numbers as scalars -/

theorem value_num {n : ℕ} (digits : n < 2 ^ 53) : value (num n) = n := (value_ofNat digits).1

theorem finite_num {n : ℕ} (digits : n < 2 ^ 53) : (num n : Float).isFinite = true :=
  (value_ofNat digits).2

theorem defined_num {n : ℕ} (digits : n < 2 ^ 53) : (num n : Float).isNaN = false :=
  defined_of_finite (finite_num digits)

section

variable {x : Float} {n : ℕ}

theorem lt_num_iff (x_defined : x.isNaN = false) (digits : n < 2 ^ 53) :
    x < num n ↔ value x < n := by
  rw [lt_iff_value x_defined (defined_num digits), value_num digits]

theorem num_lt_iff (x_defined : x.isNaN = false) (digits : n < 2 ^ 53) :
    num n < x ↔ n < value x := by
  rw [lt_iff_value (defined_num digits) x_defined, value_num digits]

theorem num_le_iff (x_defined : x.isNaN = false) (digits : n < 2 ^ 53) :
    num n ≤ x ↔ n ≤ value x := by
  rw [le_iff_value (defined_num digits) x_defined, value_num digits]

theorem not_lt_of_undefined {y : Float} (undefined : x.isNaN = true) : ¬ x < y ∧ ¬ y < x := by
  constructor
  · intro less
    rw [(defined_of_lt less).1] at undefined
    cases undefined
  · intro less
    rw [(defined_of_lt less).2] at undefined
    cases undefined

/-! ## The score in its bounds -/

theorem clamp_spec (x_defined : x.isNaN = false) :
    (clamp (num 0) (num 100) x).isNaN = false ∧
      value (clamp (num 0) (num 100) x) = max 0 (min 100 (value x)) := by
  have bounds : ¬ (num 100 : Float) < num 0 := by decide
  have zero : value (num 0) = 0 := value_num (by norm_num)
  have hundred : value (num 100) = 100 := value_num (by norm_num)
  unfold clamp
  dsimp only
  by_cases low : x < num 0
  · have below : value x < 0 := by simpa using (lt_num_iff x_defined (by norm_num)).1 low
    rw [if_pos low, if_neg bounds, zero, min_eq_right (by linarith), max_eq_left below.le]
    exact ⟨defined_num (by norm_num), rfl⟩
  · have nonneg : 0 ≤ value x := by simpa using mt (lt_num_iff x_defined (by norm_num)).2 low
    rw [if_neg low]
    by_cases high : num 100 < x
    · have above : 100 < value x := by simpa using (num_lt_iff x_defined (by norm_num)).1 high
      rw [if_pos high, hundred, min_eq_left above.le, max_eq_right (by norm_num)]
      exact ⟨defined_num (by norm_num), rfl⟩
    · have at_most : value x ≤ 100 := by simpa using mt (num_lt_iff x_defined (by norm_num)).2 high
      rw [if_neg high, min_eq_right at_most, max_eq_right nonneg]
      exact ⟨x_defined, rfl⟩

theorem clamp_of_undefined (undefined : x.isNaN = true) : clamp (num 0) (num 100) x = x := by
  unfold clamp
  dsimp only
  rw [if_neg (not_lt_of_undefined undefined).1, if_neg (not_lt_of_undefined undefined).2]

/-! ## Bands -/

theorem ofProbability_eq (x_defined : x.isNaN = false) :
    Status.ofProbability x =
      if value x < 20 then .healthy else if value x < 50 then .warning else .critical := by
  have low := lt_num_iff (n := 20) x_defined (by norm_num)
  have high := lt_num_iff (n := 50) x_defined (by norm_num)
  push_cast at low high
  simp only [Status.ofProbability, low, high]

theorem ofProbability_of_undefined (undefined : x.isNaN = true) :
    Status.ofProbability x = .critical := by
  rw [Status.ofProbability, if_neg (not_lt_of_undefined undefined).1,
    if_neg (not_lt_of_undefined undefined).1]

end

/-- A status and a reported probability that do not contradict each other. -/
def Status.AgreesWith : Status → ℕ → Prop
  | healthy, percent => percent ≤ 20
  | warning, percent => 20 ≤ percent ∧ percent ≤ 50
  | critical, percent => 50 ≤ percent

/-! ## Reports -/

namespace Prediction

variable {horizon : Float} {risk : Risk Float}

theorem status_ofRisk (score_defined : risk.points.isNaN = false) :
    (ofRisk horizon risk).status =
      if value risk.points < 20 then .healthy
      else if value risk.points < 50 then .warning else .critical := by
  obtain ⟨x_defined, held⟩ := clamp_spec score_defined
  show Status.ofProbability (clamp (num 0) (num 100) risk.points) = _
  have band {n : ℚ} (pos : 0 < n) (le : n ≤ 100) :
      max 0 (min 100 (value risk.points)) < n ↔ value risk.points < n := by
    rw [max_lt_iff, min_lt_iff]
    exact ⟨fun h => h.2.resolve_left le.not_gt, fun h => ⟨pos, .inr h⟩⟩
  have low := band (n := 20) (by norm_num) (by norm_num)
  have high := band (n := 50) (by norm_num) (by norm_num)
  simp only [ofProbability_eq x_defined, held, low, high]

/-- The status and the reported probability of a defined score. -/
theorem agrees_ofRisk (score_defined : risk.points.isNaN = false) :
    (ofRisk horizon risk).status.AgreesWith (ofRisk horizon risk).failureProbability := by
  obtain ⟨x_defined, -⟩ := clamp_spec score_defined
  rw [ofRisk]
  dsimp only
  generalize clamp (num 0) (num 100) risk.points = x at x_defined
  show (Status.ofProbability x).AgreesWith (nearestInt64 x).toNat
  rw [ofProbability_eq x_defined]
  split_ifs with low high
  · have le := nearestInt64_le (x := x) (k := 20) (by push_cast; linarith)
    show (nearestInt64 x).toNat ≤ 20
    omega
  · have ge := le_nearestInt64 (k := 20) x_defined (by decide) (by push_cast; linarith)
    have le := nearestInt64_le (x := x) (k := 50) (by push_cast; linarith)
    show 20 ≤ (nearestInt64 x).toNat ∧ (nearestInt64 x).toNat ≤ 50
    omega
  · have ge := le_nearestInt64 (k := 50) x_defined (by decide) (by push_cast; linarith)
    show 50 ≤ (nearestInt64 x).toNat
    omega

/-- An undefined score is critical and reported as zero. -/
theorem ofRisk_of_undefined (undefined : risk.points.isNaN = true) :
    (ofRisk horizon risk).status = .critical ∧ (ofRisk horizon risk).failureProbability = 0 := by
  rw [ofRisk]
  dsimp only
  rw [clamp_of_undefined undefined]
  refine ⟨ofProbability_of_undefined undefined, ?_⟩
  show (nearestInt64 risk.points).toNat = 0
  rw [nearestInt64, decode_eq_nan_iff.2 undefined]
  rfl

/-- Status and reported probability contradict each other just where the score is undefined. -/
theorem agrees_ofRisk_iff :
    (ofRisk horizon risk).status.AgreesWith (ofRisk horizon risk).failureProbability ↔
      risk.points.isNaN = false := by
  refine ⟨fun agrees => ?_, agrees_ofRisk⟩
  by_contra undefined
  obtain ⟨critical, zero⟩ :=
    @ofRisk_of_undefined horizon risk (Bool.eq_true_of_not_eq_false undefined)
  rw [critical, zero] at agrees
  exact absurd (show 50 ≤ 0 from agrees) (by decide)

end Prediction

end Prognosis
