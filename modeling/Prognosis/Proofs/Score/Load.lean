import Prognosis.Proofs.Score.Order

/-!
# The load of a node and its report

The latest load is the first term of the score, and everything else is added to it in the same
order.  So of two histories that differ in the latest load alone, the one with the higher load gets
no milder report, whatever the rules are (`Engine.predict_follows_load`).
-/

namespace Prognosis

open Scalar Binary64

/-! ## Scores that start from a load -/

namespace Risk

theorem ofUtilization_le {u u' : Float} (le : u ≤ u') :
    (ofUtilization u).points ≤ (ofUtilization u').points := by
  have thirty : value (num 30) = 30 := value_num (by norm_num)
  have hundred : value (num 100) = 100 := value_num (by norm_num)
  have scaled : u * num 30 / num 100 ≤ u' * num 30 / num 100 :=
    div_le_div_of_pos (mul_le_mul_of_pos le (finite_num (by norm_num)) (by norm_num [thirty]))
      (finite_num (by norm_num)) (by norm_num [hundred])
  exact add_le_add_of_finite_left (least_num_le scaled (by norm_num)) (finite_num (by norm_num))

variable {risk risk' : Risk Float}

/-- Taking in the same outcomes keeps one score behind the other. -/
theorem trails_foldl_absorb (outcomes : List (Outcome Float))
    (trails : Trails risk.points risk'.points) :
    Trails (outcomes.foldl absorb risk).points (outcomes.foldl absorb risk').points := by
  induction outcomes generalizing risk risk' with
  | nil => exact trails
  | cons o outcomes ih =>
    apply ih
    rw [points_absorb, points_absorb]
    exact trails.add o.points

theorem earliest_absorb (o : Outcome Float) (same : risk.earliest = risk'.earliest) :
    (risk.absorb o).earliest = (risk'.absorb o).earliest := by
  unfold absorb add project
  cases o.hours with
  | none => exact same
  | some hours => simp only [same]

/-- The earliest crossing does not depend on the points. -/
theorem earliest_foldl_absorb (outcomes : List (Outcome Float))
    (same : risk.earliest = risk'.earliest) :
    (outcomes.foldl absorb risk).earliest = (outcomes.foldl absorb risk').earliest := by
  induction outcomes generalizing risk risk' with
  | nil => exact same
  | cons o outcomes ih =>
    apply ih
    exact earliest_absorb o same

theorem trails_ofOutcomes {u u' : Float} (le : u ≤ u') (outcomes : List (Outcome Float)) :
    Trails (ofOutcomes u outcomes).points (ofOutcomes u' outcomes).points := by
  rw [points_ofOutcomes, points_ofOutcomes]
  exact (trails_foldl_absorb outcomes (.inl (ofUtilization_le le))).add _

theorem earliest_ofUtilization (u : Float) : (ofUtilization u).earliest = none := rfl

theorem earliest_ofOutcomes (u u' : Float) (outcomes : List (Outcome Float)) :
    (ofOutcomes u outcomes).earliest = (ofOutcomes u' outcomes).earliest := by
  rw [ofOutcomes, ofOutcomes, amplify, amplify, add, add]
  apply earliest_foldl_absorb
  rw [earliest_ofUtilization, earliest_ofUtilization]

end Risk

namespace Prediction

theorem timeToFailure_ofRisk_congr {horizon : Float} {risk risk' : Risk Float}
    (same : risk.earliest = risk'.earliest) :
    (ofRisk horizon risk).timeToFailure = (ofRisk horizon risk').timeToFailure := by
  rw [ofRisk, ofRisk, same]

/-- How a report under a higher load, `p'`, stands to the one under a lower load. -/
structure Follows (p p' : Prediction) : Prop where
  issues : p.issues = p'.issues
  timeToFailure : p.timeToFailure = p'.timeToFailure
  milder : p.Milder p'
  confidence : p.confidence ≤ p'.confidence

theorem Follows.refl (p : Prediction) : p.Follows p := ⟨rfl, rfl, ⟨le_rfl, le_rfl⟩, le_rfl⟩

end Prediction

/-! ## Histories that differ in the latest load -/

/-- The same sample under another load. -/
def Sample.withLoad (s : Sample) (u : Float) : Sample := { s with utilizationScore := u }

/-- No signal is the load. -/
@[simp] theorem Signal.value_withLoad (signal : Signal) (s : Sample) (u : Float) :
    signal.value (s.withLoad u) = signal.value s := by
  cases signal <;> rfl

namespace Engine

theorem lastOf_map {β γ : Type} (f : β → γ) (n : ℕ) (xs : List β) :
    (lastOf n xs).map f = lastOf n (xs.map f) := by
  rw [lastOf, lastOf, List.map_drop, List.length_map]

/-- No reading looks at the load. -/
theorem reading_withLoad (t : Tuning Float) (n : ℕ) (earlier : List Sample) (latest : Sample)
    (u : Float) :
    reading t (lastOf n (earlier ++ [latest.withLoad u])) =
      reading t (lastOf n (earlier ++ [latest])) := by
  funext signal
  rw [reading, reading, lastOf_map, lastOf_map]
  simp

theorem predict_withLoad (e : Engine Float) {earlier : List Sample} (latest : Sample) (u : Float)
    (pos : 0 < e.tuning.window) (full : e.tuning.window ≤ earlier.length + 1) :
    e.predict (earlier ++ [latest.withLoad u]) =
      .ofRisk e.tuning.horizonHours (.ofOutcomes u
        (outcomes e.rules (reading e.tuning (lastOf e.tuning.window (earlier ++ [latest]))))) := by
  have long : e.tuning.window ≤ (earlier ++ [latest.withLoad u]).length := by
    rwa [List.length_append, List.length_singleton]
  rw [e.predict_eq_ofRisk pos long, risk, List.getLastD_concat, reading_withLoad]
  rfl

/-- **Load.**  Whatever the tuning and the rules are: of two histories that differ in the latest
load alone, the one with the higher load gets the same issues and the same time to failure, and no
milder report, given with no less confidence. -/
theorem predict_follows_load (e : Engine Float) (earlier : List Sample) (latest : Sample)
    {u u' : Float} (le : u ≤ u') :
    (e.predict (earlier ++ [latest.withLoad u])).Follows
      (e.predict (earlier ++ [latest.withLoad u'])) := by
  rcases Nat.eq_zero_or_pos e.tuning.window with none | pos
  · rw [e.predict_of_no_window none, e.predict_of_no_window none]
    exact .refl _
  by_cases full : e.tuning.window ≤ earlier.length + 1
  · rw [e.predict_withLoad latest u pos full, e.predict_withLoad latest u' pos full]
    generalize outcomes e.rules _ = found
    have issues : (Risk.ofOutcomes u found).issues = (Risk.ofOutcomes u' found).issues := by
      rw [Risk.issues_ofOutcomes, Risk.issues_ofOutcomes]
    have milder : (Prediction.ofRisk e.tuning.horizonHours (.ofOutcomes u found)).Milder
        (.ofRisk e.tuning.horizonHours (.ofOutcomes u' found)) :=
      Prediction.milder_ofRisk (Risk.trails_ofOutcomes le found)
    constructor
    case issues => exact issues
    case timeToFailure =>
      exact Prediction.timeToFailure_ofRisk_congr (Risk.earliest_ofOutcomes u u' found)
    case milder => exact milder
    case confidence => exact Prediction.confidence_ofRisk_le milder (congrArg List.length issues)
  · have short (v : Float) : (earlier ++ [latest.withLoad v]).length < e.tuning.window := by
      rw [List.length_append, List.length_singleton]
      omega
    rw [e.predict_of_short (short u), e.predict_of_short (short u')]
    exact .refl _

/-- Infinite points cancel a load of minus infinity, but no other one. -/
theorem predict_follows_load_of_infinite_points :
    let busy : Rule Float := ⟨.cpu, .high, [⟨.elevated 50, 1 / 0, none, "busy"⟩]⟩
    let e : Engine Float := ⟨{ Tuning.standard with window := 1 }, [busy]⟩
    let p (u : Float) := e.predict [Sample.withLoad { Sample.empty with cpuUsage := 90 } u]
    (-1 / 0 : Float) ≤ 50 ∧ (p (-1 / 0)).Follows (p 50) ∧
      (p (-1 / 0)).failureProbability = 0 ∧ (p 50).failureProbability = 100 := by
  intro busy e p
  have le : (-1 / 0 : Float) ≤ 50 := by decide
  have follows := e.predict_follows_load [] { Sample.empty with cpuUsage := 90 } le
  exact ⟨le, follows, by decide +kernel, by decide +kernel⟩

end Engine

end Prognosis
