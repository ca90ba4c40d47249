import Prognosis.Proofs.Binary64.Trail
import Prognosis.Proofs.Score

/-!
# Reports in the order of their scores

A higher score is never reported as a milder one.  Status and reported probability follow the score
(`Prediction.milder_ofRisk`), also where sums of infinities are lost on the way, and for a given
number of issues the confidence follows the status (`Prediction.confidence_ofRisk_le`).
-/

namespace Prognosis

open Scalar Binary64 Decimal

/-! ## Bounds from above -/

section

variable {x y : Float} {n : ℕ}

theorem value_least_num (x_defined : x.isNaN = false) (digits : n < 2 ^ 53) :
    value (least x (num n)) = min (value x) n := by
  unfold least
  by_cases exceeds : num n < x
  · have above : n < value x := (num_lt_iff x_defined digits).1 exceeds
    rw [if_pos exceeds, value_num digits, min_eq_right above.le]
  · have given : defined x = true := by
      show (!x.isNaN) = true
      rw [x_defined]
      rfl
    have below : value x ≤ n := not_lt.1 (mt (num_lt_iff x_defined digits).2 exceeds)
    rw [if_neg exceeds, if_pos given, min_eq_left below]

theorem least_num_le (le : x ≤ y) (digits : n < 2 ^ 53) : least x (num n) ≤ least y (num n) := by
  obtain ⟨x_defined, y_defined⟩ := defined_of_le le
  rw [le_iff_value x_defined y_defined] at le
  rw [le_iff_value (Risk.defined_least_num x digits) (Risk.defined_least_num y digits),
    value_least_num x_defined digits, value_least_num y_defined digits]
  exact min_le_min_right _ le

/-! ## Status and reported probability -/

theorem clamp_le_clamp (le : x ≤ y) :
    clamp (num 0) (num 100) x ≤ clamp (num 0) (num 100) y := by
  obtain ⟨x_defined, y_defined⟩ := defined_of_le le
  obtain ⟨x_held_defined, x_held⟩ := clamp_spec x_defined
  obtain ⟨y_held_defined, y_held⟩ := clamp_spec y_defined
  rw [le_iff_value x_defined y_defined] at le
  rw [le_iff_value x_held_defined y_held_defined, x_held, y_held]
  exact max_le_max_left _ (min_le_min_left _ le)

theorem finite_clamp (x_defined : x.isNaN = false) :
    (clamp (num 0) (num 100) x).isFinite = true ∧ 0 ≤ value (clamp (num 0) (num 100) x) := by
  obtain ⟨held_defined, held⟩ := clamp_spec x_defined
  have hundred : (100 : ℚ) < edge := by exact_mod_cast natCast_lt_edge (n := 100) (by norm_num)
  have low : 0 ≤ value (clamp (num 0) (num 100) x) := held ▸ le_max_left _ _
  have high : value (clamp (num 0) (num 100) x) ≤ 100 :=
    held ▸ max_le (by norm_num) (min_le_left _ _)
  exact ⟨finite_of_value held_defined (by linarith) (by linarith), low⟩

end

namespace Status

theorem rank_le_critical (s : Status) : s.rank ≤ critical.rank := by
  cases s <;> decide

theorem rank_ofProbability_le {x y : Float} (le : x ≤ y) :
    (ofProbability x).rank ≤ (ofProbability y).rank := by
  obtain ⟨x_defined, y_defined⟩ := defined_of_le le
  rw [le_iff_value x_defined y_defined] at le
  rw [ofProbability_eq x_defined, ofProbability_eq y_defined]
  by_cases low : value y < 20
  · rw [if_pos low, if_pos (by linarith)]
  · rw [if_neg low]
    by_cases high : value y < 50
    · rw [if_pos high, if_pos (c := value x < 50) (by linarith)]
      split_ifs <;> decide
    · rw [if_neg high]
      exact rank_le_critical _

end Status

namespace Prediction

/-- A report that is no graver than another one. -/
structure Milder (p q : Prediction) : Prop where
  status : p.status.rank ≤ q.status.rank
  probability : p.failureProbability ≤ q.failureProbability

variable {horizon horizon' : Float} {risk risk' : Risk Float}

theorem milder_of_le (le : risk.points ≤ risk'.points) :
    (ofRisk horizon risk).Milder (ofRisk horizon' risk') := by
  obtain ⟨x_defined, y_defined⟩ := defined_of_le le
  have held := clamp_le_clamp le
  obtain ⟨x_finite, x_nonneg⟩ := finite_clamp x_defined
  obtain ⟨y_finite, -⟩ := finite_clamp y_defined
  constructor
  case status => exact Status.rank_ofProbability_le held
  case probability =>
    rw [le_iff_value (defined_of_finite x_finite) (defined_of_finite y_finite)] at held
    exact Int.toNat_le_toNat (nearestInt64_mono x_finite y_finite x_nonneg held)

theorem failureProbability_of_lost (lost : LostAt .negative risk.points) :
    (ofRisk horizon risk).failureProbability = 0 := by
  by_cases score_defined : risk.points.isNaN = false
  · have bottom := lost.resolve_left (defined_iff_unpack.1 score_defined)
    have low : value risk.points = -edge := by
      rw [value, bottom, valueOf, factor_negative, neg_one_mul]
    obtain ⟨-, held⟩ := clamp_spec score_defined
    rw [low, min_eq_right (by linarith [edge_pos]), max_eq_left (by linarith [edge_pos])] at held
    have rounded := nearestInt64_le (k := 0) (by rw [held, Nat.cast_zero])
    exact Int.toNat_eq_zero.2 rounded
  · exact (ofRisk_of_undefined (Bool.eq_true_of_not_eq_false score_defined)).2

theorem status_of_lost (lost : LostAt .positive risk.points) :
    (ofRisk horizon risk).status = .critical := by
  by_cases score_defined : risk.points.isNaN = false
  · have top := lost.resolve_left (defined_iff_unpack.1 score_defined)
    have high : value risk.points = edge := by
      rw [value, top, valueOf, factor_positive, one_mul]
    have fifty : (50 : ℚ) < edge := by exact_mod_cast natCast_lt_edge (n := 50) (by norm_num)
    rw [status_ofRisk score_defined, high, if_neg (by linarith), if_neg (by linarith)]
  · exact (ofRisk_of_undefined (Bool.eq_true_of_not_eq_false score_defined)).1

/-- **Reports.**  A score that trails another one is reported as no graver. -/
theorem milder_ofRisk (trails : Trails risk.points risk'.points) :
    (ofRisk horizon risk).Milder (ofRisk horizon' risk') := by
  rcases trails with le | ⟨sunk, soared⟩
  · exact milder_of_le le
  · constructor
    case status =>
      rw [status_of_lost soared]
      exact Status.rank_le_critical _
    case probability =>
      rw [failureProbability_of_lost sunk]
      exact Nat.zero_le _

end Prediction

/-! ## Confidence -/

/-- The evidence of a number of issues, before the status is looked at. -/
def evidence (issues : ℕ) : Float := least (num issues * num 15 + num 40) (num 95)

theorem num_zero_le (n : ℕ) : (num 0 : Float) ≤ num n := by
  obtain ⟨exact, n_defined⟩ : value (num n) = _ ∧ (num n : Float).isNaN = false :=
    value_ofScientific n false (e := 0) (by norm_num)
  rw [le_iff_value (defined_num (by norm_num)) n_defined, exact, value_num (by norm_num),
    ← nearest64_natCast (n := 0) (by norm_num)]
  apply nearest64_mono
  rw [Nat.cast_zero]
  positivity

section

variable {x : Float} {n : ℕ}

theorem least_num_spec (x_defined : x.isNaN = false) (low : 40 ≤ value x) (bound : 40 ≤ n)
    (digits : n < 2 ^ 53) :
    (least x (num n)).isFinite = true ∧ 40 ≤ value (least x (num n)) ∧
      value (least x (num n)) ≤ n := by
  have held := value_least_num x_defined digits
  have bound : (40 : ℚ) ≤ n := by exact_mod_cast bound
  have above : 40 ≤ value (least x (num n)) := held ▸ le_min low bound
  have below : value (least x (num n)) ≤ n := held ▸ min_le_right _ _
  have edge_large := natCast_lt_edge digits
  exact ⟨finite_of_value (Risk.defined_least_num x digits) (by linarith) (by linarith), above,
    below⟩

end

section

variable (n : ℕ)

theorem evidence_bounds :
    (evidence n).isFinite = true ∧ 40 ≤ value (evidence n) ∧ value (evidence n) ≤ 95 := by
  have fifteen : value (num 15) = 15 := value_num (by norm_num)
  have start : (num 0 * num 15 + num 40 : Float) = num 40 := by decide
  have grown : (num 0 * num 15 + num 40 : Float) ≤ num n * num 15 + num 40 :=
    add_le_add_of_finite
      (mul_le_mul_of_pos (num_zero_le n) (finite_num (by norm_num)) (by norm_num [fifteen]))
      (finite_num (by norm_num))
  rw [start] at grown
  have sum_defined := (defined_of_le grown).2
  have forty : ((40 : ℕ) : ℚ) ≤ value (num n * num 15 + num 40) :=
    (num_le_iff sum_defined (by norm_num)).1 grown
  exact_mod_cast least_num_spec sum_defined (by exact_mod_cast forty) (by norm_num) (by norm_num)

/-- A critical verdict has more evidence. -/
theorem evidence_le_add :
    (evidence n + num 10).isNaN = false ∧ value (evidence n) ≤ value (evidence n + num 10) := by
  obtain ⟨finite, -, -⟩ := evidence_bounds n
  obtain ⟨exact, sum_defined⟩ := value_add finite (finite_num (n := 10) (by norm_num))
  have ten : value (num 10) = 10 := value_num (by norm_num)
  refine ⟨sum_defined, ?_⟩
  calc value (evidence n) = nearest64 (value (evidence n)) := (nearest64_value finite).symm
    _ ≤ nearest64 (value (evidence n) + value (num 10)) := nearest64_mono (by linarith)
    _ = value (evidence n + num 10) := exact.symm

/-- The confidence in a verdict lies between 40 and 95. -/
theorem confidenceIn_bounds (status : Status) :
    (confidenceIn n status : Float).isFinite = true ∧
      40 ≤ value (confidenceIn n status) ∧ value (confidenceIn n status) ≤ 95 := by
  obtain ⟨finite, low, high⟩ := evidence_bounds n
  cases status with
  | healthy =>
    obtain ⟨finite', low', high'⟩ :=
      least_num_spec (n := 70) (defined_of_finite finite) low (by norm_num) (by norm_num)
    exact ⟨finite', low', high'.trans (by norm_num)⟩
  | warning => exact ⟨finite, low, high⟩
  | critical =>
    obtain ⟨sum_defined, grown⟩ := evidence_le_add n
    exact_mod_cast
      least_num_spec (n := 95) sum_defined (low.trans grown) (by norm_num) (by norm_num)

/-- A graver verdict on the same number of issues is given with no less confidence. -/
theorem value_confidenceIn_le {s t : Status} (le : s.rank ≤ t.rank) :
    value (confidenceIn n s) ≤ value (confidenceIn n t) := by
  obtain ⟨finite, low, high⟩ := evidence_bounds n
  obtain ⟨sum_defined, grown⟩ := evidence_le_add n
  have healthy : value (confidenceIn n .healthy) = min (value (evidence n)) (70 : ℕ) :=
    value_least_num (defined_of_finite finite) (by norm_num)
  have critical : value (confidenceIn n .critical) = min (value (evidence n + num 10)) (95 : ℕ) :=
    value_least_num sum_defined (by norm_num)
  have up : value (confidenceIn n .healthy) ≤ value (confidenceIn n .warning) :=
    healthy ▸ min_le_left _ _
  have further : value (confidenceIn n .warning) ≤ value (confidenceIn n .critical) :=
    critical ▸ le_min grown (by exact_mod_cast high)
  cases t with
  | healthy =>
    cases s with
    | healthy => exact le_rfl
    | warning | critical => exact absurd le (by decide)
  | warning =>
    cases s with
    | healthy => exact up
    | warning => exact le_rfl
    | critical => exact absurd le (by decide)
  | critical =>
    cases s with
    | healthy => exact up.trans further
    | warning => exact further
    | critical => exact le_rfl

end

/-- The confidence in a report on the same number of issues. -/
theorem Prediction.confidence_ofRisk_le {horizon horizon' : Float} {risk risk' : Risk Float}
    (milder : (ofRisk horizon risk).Milder (ofRisk horizon' risk'))
    (same : risk.issues.length = risk'.issues.length) :
    (ofRisk horizon risk).confidence ≤ (ofRisk horizon' risk').confidence := by
  show (nearestInt64 (confidenceIn risk.issues.length (ofRisk horizon risk).status)).toNat ≤
    (nearestInt64 (confidenceIn risk'.issues.length (ofRisk horizon' risk').status)).toNat
  rw [same]
  obtain ⟨finite, low, -⟩ :=
    confidenceIn_bounds risk'.issues.length (ofRisk horizon risk).status
  obtain ⟨finite', -, -⟩ :=
    confidenceIn_bounds risk'.issues.length (ofRisk horizon' risk').status
  exact Int.toNat_le_toNat (nearestInt64_mono finite finite' (by linarith)
    (value_confidenceIn_le _ milder.status))

/-! ## Percentages -/

/-- The numbers of a report are percentages. -/
structure Prediction.Percentages (p : Prediction) : Prop where
  probability : p.failureProbability ≤ 100
  confidence : p.confidence ≤ 95

theorem Prediction.percentages_ofRisk (horizon : Float) (risk : Risk Float) :
    (ofRisk horizon risk).Percentages := by
  constructor
  case probability =>
    by_cases score_defined : risk.points.isNaN = false
    · obtain ⟨-, held⟩ := clamp_spec score_defined
      have below : value (clamp (num 0) (num 100) risk.points) ≤ (100 : ℕ) := by
        rw [held]
        exact max_le (by norm_num) (by exact_mod_cast min_le_left _ _)
      show (nearestInt64 (clamp (num 0) (num 100) risk.points)).toNat ≤ 100
      have rounded := nearestInt64_le below
      omega
    · rw [(ofRisk_of_undefined (Bool.eq_true_of_not_eq_false score_defined)).2]
      exact Nat.zero_le _
  case confidence =>
    obtain ⟨-, -, high⟩ :=
      confidenceIn_bounds risk.issues.length (ofRisk horizon risk).status
    show (nearestInt64 (confidenceIn risk.issues.length (ofRisk horizon risk).status)).toNat ≤ 95
    have rounded : nearestInt64 (confidenceIn risk.issues.length (ofRisk horizon risk).status) ≤
        (95 : ℕ) := nearestInt64_le (by exact_mod_cast high)
    omega

theorem Prediction.percentages_collecting (required : ℕ) : (collecting required).Percentages :=
  ⟨Nat.zero_le _, Nat.zero_le _⟩

/-- A prediction is the report on a risk, or says that samples are missing. -/
theorem Engine.predict_cases (e : Engine Float) (history : List Sample) :
    e.predict history = .collecting e.tuning.window ∨
      ∃ risk, e.predict history = .ofRisk e.tuning.horizonHours risk := by
  rw [predict]
  split_ifs with short
  · exact .inl rfl
  · rw [assessWindow?]
    cases (lastOf e.tuning.window history).getLast? with
    | none => exact .inl rfl
    | some latest => exact .inr ⟨_, rfl⟩

/-- Whatever is configured and whatever was measured, percentages are reported. -/
theorem Engine.percentages_predict (e : Engine Float) (history : List Sample) :
    (e.predict history).Percentages := by
  rcases e.predict_cases history with missing | ⟨risk, report⟩
  · rw [missing]
    exact Prediction.percentages_collecting _
  · rw [report]
    exact Prediction.percentages_ofRisk _ _

end Prognosis
