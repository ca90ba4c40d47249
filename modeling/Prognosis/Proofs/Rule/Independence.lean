import Mathlib.Algebra.BigOperators.Group.List.Basic
import Prognosis.Proofs.Crossing
import Prognosis.Proofs.Decimal.Fixed

/-!
# Rules are independent of each other

Each rule is evaluated on its own, so what an engine finds in a history is what its rules find one
by one, in their order (`Engine.found_eq_flatMap`).  A score takes in the sum of the points and a
bonus for the number of grave issues, and neither depends on the order of the rules
(`Engine.points_exactRisk_perm`, `coincidenceBonus_perm`).  Only the rounding of a running sum does:
so the verdicts are compared for scores that are added up in exact fractions (`Engine.exactRisk`).
-/

namespace Prognosis

open Scalar Binary64

/-! ## What rules find -/

namespace Engine

/-- Whether a history is scored: there is a window, and the history fills it. -/
def Scores (e : Engine Float) (history : List Sample) : Prop :=
  0 < e.tuning.window ∧ e.tuning.window ≤ history.length

instance (e : Engine Float) (history : List Sample) : Decidable (e.Scores history) :=
  inferInstanceAs (Decidable (_ ∧ _))

/-- What the rules of an engine find in a history, in the order of the rules. -/
def found (e : Engine Float) (history : List Sample) : List (Outcome Float) :=
  if e.Scores history then
    outcomes e.rules (reading e.tuning (lastOf e.tuning.window history))
  else []

variable (e : Engine Float) (history : List Sample)

theorem found_withRules (rules : List (Rule Float)) :
    found { e with rules := rules } history =
      if e.Scores history then outcomes rules (reading e.tuning (lastOf e.tuning.window history))
      else [] := rfl

theorem predict_of_not_scores (unscored : ¬ e.Scores history) :
    e.predict history = .collecting e.tuning.window := by
  rcases Nat.eq_zero_or_pos e.tuning.window with none | pos
  · rw [e.predict_of_no_window none, none]
  · exact e.predict_of_short (not_le.1 fun full => unscored ⟨pos, full⟩)

theorem issues_predict : (e.predict history).issues = (e.found history).map (·.issue) := by
  unfold found
  split_ifs with scored
  · rw [e.predict_eq_ofRisk scored.1 scored.2]
    exact Risk.issues_ofOutcomes _ _
  · rw [e.predict_of_not_scores history scored]
    rfl

theorem found_append (a b : List (Rule Float)) :
    found { e with rules := a ++ b } history =
      found { e with rules := a } history ++ found { e with rules := b } history := by
  rw [found_withRules, found_withRules, found_withRules]
  split_ifs
  · exact List.filterMap_append
  · rfl

/-- What is found is what each rule finds alone, rule after rule. -/
theorem found_eq_flatMap :
    e.found history = e.rules.flatMap fun rule => found { e with rules := [rule] } history := by
  have each (rules : List (Rule Float)) : found { e with rules := rules } history =
      rules.flatMap fun rule => found { e with rules := [rule] } history := by
    induction rules with
    | nil => exact ite_self _
    | cons rule rules ih =>
      rw [← List.singleton_append, found_append, ih]
      rfl
  exact each e.rules

variable {e} in
theorem found_perm {rules : List (Rule Float)} (perm : rules.Perm e.rules) :
    (found { e with rules := rules } history).Perm (e.found history) := by
  rw [found_withRules, found]
  split_ifs
  · exact perm.filterMap _
  · exact .refl _

end Engine

/-! ## Scores in any order -/

theorem coincidenceBonus_perm {α : Type} [Scalar α] {issues issues' : List Issue}
    (perm : issues.Perm issues') : (coincidenceBonus issues : α) = coincidenceBonus issues' := by
  have counts (severity : Severity) : countOf severity issues = countOf severity issues' :=
    perm.countP_eq _
  unfold coincidenceBonus
  rw [counts, counts]

namespace Risk

/-- In exact fractions, absorbing outcomes adds the sum of their points. -/
theorem points_foldl_absorb (outcomes : List (Outcome ℚ)) (risk : Risk ℚ) :
    (outcomes.foldl absorb risk).points = risk.points + (outcomes.map (·.points)).sum := by
  induction outcomes generalizing risk with
  | nil => simp
  | cons o outcomes ih =>
    rw [List.foldl_cons, ih, points_absorb, List.map_cons, List.sum_cons, add_assoc]

theorem points_foldl_absorb_of_infinite {outcomes : List (Outcome Float)} {risk : Risk Float}
    (infinite : risk.points.isInf = true) (finite : ∀ o ∈ outcomes, o.points.isFinite = true) :
    (outcomes.foldl absorb risk).points = risk.points := by
  induction outcomes generalizing risk with
  | nil => rfl
  | cons o outcomes ih =>
    rw [List.forall_mem_cons] at finite
    have same : (risk.absorb o).points = risk.points := by
      rw [points_absorb, add_of_infinite infinite finite.1]
    rw [List.foldl_cons, ih (by rwa [same]) finite.2, same]

end Risk

/-! ## Verdicts -/

/-- Two predictions that say the same but for their issues and the time to failure. -/
structure Prediction.SameVerdict (p q : Prediction) : Prop where
  status : p.status = q.status
  failureProbability : p.failureProbability = q.failureProbability
  confidence : p.confidence = q.confidence
  recommendation : p.recommendation = q.recommendation

theorem Prediction.SameVerdict.refl (p : Prediction) : p.SameVerdict p := ⟨rfl, rfl, rfl, rfl⟩

/-- A verdict follows the score and the number of issues. -/
theorem Prediction.sameVerdict_ofRisk {α : Type} [Scalar α] {risk risk' : Risk α}
    (points : risk.points = risk'.points) (length : risk.issues.length = risk'.issues.length)
    (horizon : α) : (ofRisk horizon risk).SameVerdict (ofRisk horizon risk') := by
  unfold ofRisk
  constructor <;> simp only [points, length]

/-- An outcome with its points and its crossing as exact fractions. -/
def Outcome.exact (o : Outcome Float) : Outcome ℚ := ⟨o.issue, value o.points, o.hours.map value⟩

namespace Engine

/-- The points that the load of a history brings to its score. -/
def share (history : List Sample) : Float :=
  (Risk.ofUtilization (history.getLastD .empty).utilizationScore).points

/-- The risk of a history with its score added up in exact fractions: the share of the load and the
points of the outcomes are those of the engine, only their additions are exact. -/
def exactRisk (e : Engine Float) (history : List Sample) : Risk ℚ :=
  (((e.found history).map Outcome.exact).foldl Risk.absorb
    ⟨value (share history), [], none⟩).amplify

/-- The report on the exact score of a history. -/
def predictExactly (e : Engine Float) (history : List Sample) : Prediction :=
  if e.Scores history then .ofRisk (value e.tuning.horizonHours) (e.exactRisk history)
  else .collecting e.tuning.window

/-- The exact score: the share of the load, the points of all outcomes and the bonus. -/
theorem points_exactRisk (e : Engine Float) (history : List Sample) :
    (e.exactRisk history).points =
      value (share history) + ((e.found history).map fun o => value o.points).sum +
        coincidenceBonus (e.predict history).issues := by
  have issues : ((e.found history).map Outcome.exact).map (·.issue) =
      (e.predict history).issues := by
    rw [issues_predict, List.map_map]
    rfl
  have points : (((e.found history).map Outcome.exact).map (·.points)) =
      (e.found history).map fun o => value o.points := by
    rw [List.map_map]
    rfl
  show Risk.points _ + coincidenceBonus (Risk.issues _) = _
  rw [Risk.points_foldl_absorb, Risk.issues_foldl_absorb, List.nil_append, issues, points]

variable {e : Engine Float} {rules : List (Rule Float)} (perm : rules.Perm e.rules)
  (history : List Sample)

include perm

theorem issues_perm :
    (predict { e with rules := rules } history).issues.Perm (e.predict history).issues := by
  rw [issues_predict, issues_predict]
  exact (found_perm history perm).map _

/-- The exact score does not depend on the order of the rules. -/
theorem points_exactRisk_perm :
    (exactRisk { e with rules := rules } history).points = (e.exactRisk history).points := by
  rw [points_exactRisk, points_exactRisk, ((found_perm history perm).map _).sum_eq,
    coincidenceBonus_perm (issues_perm perm history)]

theorem sameVerdict_predictExactly :
    (predictExactly { e with rules := rules } history).SameVerdict (e.predictExactly history) := by
  show Prediction.SameVerdict (if e.Scores history then _ else _) _
  unfold predictExactly
  split_ifs
  · refine Prediction.sameVerdict_ofRisk (points_exactRisk_perm perm history) ?_ _
    show (Risk.issues (List.foldl _ _ _)).length = (Risk.issues (List.foldl _ _ _)).length
    rw [Risk.issues_foldl_absorb, Risk.issues_foldl_absorb]
    simp [(found_perm history perm).length_eq]
  · exact .refl _

theorem timeToFailure_perm :
    (predict { e with rules := rules } history).timeToFailure =
      (e.predict history).timeToFailure := by
  by_cases scored : e.Scores history
  · have timed := timedBy_crossings_of_full { e with rules := rules } scored.1 scored.2
    rw [e.crossings_perm perm] at timed
    exact timed.timeToFailure_eq (e.timedBy_crossings_of_full scored.1 scored.2)
  · rw [e.predict_of_not_scores history scored, predict_of_not_scores { e with rules := rules }
      history scored]

omit perm in
theorem finite_found (finite : ∀ rule ∈ e.rules, ∀ a ∈ rule.arms, a.points.isFinite = true) :
    ∀ o ∈ e.found history, o.points.isFinite = true := by
  intro o mem
  unfold found at mem
  split_ifs at mem
  · exact finite_outcomes finite _ o mem
  · cases mem

omit perm in
theorem points_risk_of_infinite (scored : e.Scores history)
    (finite : ∀ o ∈ e.found history, o.points.isFinite = true)
    (infinite : (share history).isInf = true) : (e.risk history).points = share history := by
  rw [found, if_pos scored] at finite
  have folded := Risk.points_foldl_absorb_of_infinite infinite finite
  rw [risk, Risk.points_ofOutcomes, ← add_of_infinite infinite (Risk.finite_coincidenceBonus _)]
  exact congrArg (· + _) folded

/-- Where the share of the load is infinite, no rounding is left that the order could change. -/
theorem sameVerdict_predict (finite : ∀ rule ∈ e.rules, ∀ a ∈ rule.arms, a.points.isFinite = true)
    (infinite : (share history).isInf = true) :
    (predict { e with rules := rules } history).SameVerdict (e.predict history) := by
  by_cases scored : e.Scores history
  · have points := finite_found history finite
    have points' : ∀ o ∈ found { e with rules := rules } history, o.points.isFinite = true :=
      fun o mem => points o ((found_perm history perm).mem_iff.1 mem)
    have raised := (issues_perm perm history).length_eq
    rw [e.predict_eq_ofRisk scored.1 scored.2, predict_eq_ofRisk { e with rules := rules } scored.1
      scored.2] at raised ⊢
    refine Prediction.sameVerdict_ofRisk ?_ raised _
    rw [points_risk_of_infinite history scored points infinite,
      @points_risk_of_infinite { e with rules := rules } history scored points' infinite]
  · rw [e.predict_of_not_scores history scored, predict_of_not_scores { e with rules := rules }
      history scored]
    exact .refl _

end Engine

/-- **Independent rules.**  However the rules of an engine are reordered: the same outcomes are
found, rule after rule what each one finds alone, and the time to failure and the bonus stay what
they are.  With finite points, so do the score and the verdict that follows from it, once the points
are added up without rounding; where the share of the load is infinite they do so with it. -/
theorem Engine.rules_independent (e : Engine Float) (history : List Sample) :
    (∀ rules : List (Rule Float), rules.Perm e.rules →
      (found { e with rules := rules } history).Perm (e.found history) ∧
      (predict { e with rules := rules } history).timeToFailure =
        (e.predict history).timeToFailure ∧
      (coincidenceBonus (predict { e with rules := rules } history).issues : Float) =
        coincidenceBonus (e.predict history).issues ∧
      ((∀ rule ∈ e.rules, ∀ a ∈ rule.arms, a.points.isFinite = true) →
        ((share history).isInf = false →
          (exactRisk { e with rules := rules } history).points = (e.exactRisk history).points ∧
          (predictExactly { e with rules := rules } history).SameVerdict
            (e.predictExactly history)) ∧
        ((share history).isInf = true →
          (predict { e with rules := rules } history).SameVerdict (e.predict history)))) ∧
    e.found history = (e.rules.flatMap fun rule => found { e with rules := [rule] } history) ∧
    (e.predict history).issues = (e.found history).map (·.issue) ∧
    ∀ a b, e.rules = a ++ b →
      (e.predict history).issues =
        (predict { e with rules := a } history).issues ++
          (predict { e with rules := b } history).issues := by
  refine ⟨?_, e.found_eq_flatMap history, e.issues_predict history, ?_⟩
  · intro rules perm
    refine ⟨found_perm history perm, timeToFailure_perm perm history,
      coincidenceBonus_perm (issues_perm perm history), ?_⟩
    intro finite
    constructor
    · intro _
      exact ⟨points_exactRisk_perm perm history, sameVerdict_predictExactly perm history⟩
    · intro infinite
      exact sameVerdict_predict perm history finite infinite
  · intro a b split
    rw [issues_predict, issues_predict, issues_predict, ← List.map_append, ← found_append, ← split]

/-- A processor at 90 percent under the standard rules, forwards and backwards. -/
theorem Engine.rules_independent_of_busy_processor :
    let e : Engine Float := ⟨⟨2, 12, 4⟩, Ladder.standard⟩
    let backwards : Engine Float := ⟨⟨2, 12, 4⟩, Ladder.standard.reverse⟩
    let busy : Sample := { cpuUsage := 90 }
    (e.predict [busy, busy]).issues.map (·.severity) = [.medium, .high] ∧
      (backwards.predict [busy, busy]).issues.map (·.severity) = [.high, .medium] ∧
      (backwards.predict [busy, busy]).timeToFailure = (e.predict [busy, busy]).timeToFailure ∧
      (backwards.exactRisk [busy, busy]).points = (e.exactRisk [busy, busy]).points ∧
      (backwards.predictExactly [busy, busy]).SameVerdict (e.predictExactly [busy, busy]) := by
  intro e backwards busy
  obtain ⟨-, time, -, verdict⟩ :=
    (e.rules_independent [busy, busy]).1 Ladder.standard.reverse (List.reverse_perm _)
  have finite : ∀ rule ∈ e.rules, ∀ a ∈ rule.arms, a.points.isFinite = true := by decide
  obtain ⟨score, same⟩ := (verdict finite).1 (by decide)
  have raised : (e.predict [busy, busy]).issues.map (·.severity) = [.medium, .high] ∧
      (backwards.predict [busy, busy]).issues.map (·.severity) = [.high, .medium] := by
    decide +kernel
  exact ⟨raised.1, raised.2, time, score, same⟩

end Prognosis
