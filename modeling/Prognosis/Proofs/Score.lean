import Prognosis.Proofs.Engine
import Prognosis.Proofs.Prediction

/-!
# The score of a history

A full history is scored (`predict_eq_ofRisk`): the share of the load first, then the points of the
rules that fire, one after the other, and the bonus for issues that coincide.  Finite points leave
no score undefined (`score_defined`).
-/

namespace Prognosis

open Scalar Binary64

/-! ## The risk of a history -/

namespace Engine

/-- The risk that a history is scored with. -/
def risk (e : Engine Float) (history : List Sample) : Risk Float :=
  .ofOutcomes (history.getLastD .empty).utilizationScore
    (outcomes e.rules (reading e.tuning (lastOf e.tuning.window history)))

/-- The report on a full history is the report on its risk. -/
theorem predict_eq_ofRisk (e : Engine Float) {history : List Sample} (pos : 0 < e.tuning.window)
    (full : e.tuning.window ≤ history.length) :
    e.predict history = .ofRisk e.tuning.horizonHours (e.risk history) := by
  obtain ⟨latest, newest, assessed⟩ := e.predict_of_full pos full
  have same : history.getLastD .empty = latest := by
    rw [List.getLastD_eq_getLast?, newest, Option.getD_some]
  rw [assessed, assess, risk, same]

end Engine

/-! ## Scores are defined -/

namespace Risk

section

variable {α : Type} [Scalar α] {risk : Risk α}

@[simp] theorem points_absorb (o : Outcome α) :
    (risk.absorb o).points = risk.points + o.points := by
  unfold absorb add project
  cases o.hours <;> rfl

@[simp] theorem issues_absorb (o : Outcome α) :
    (risk.absorb o).issues = risk.issues ++ [o.issue] := by
  unfold absorb add project
  cases o.hours <;> rfl

theorem issues_foldl_absorb (outcomes : List (Outcome α)) :
    (outcomes.foldl absorb risk).issues = risk.issues ++ outcomes.map (·.issue) := by
  induction outcomes generalizing risk with
  | nil => simp
  | cons o outcomes ih => simp [ih]

end

variable {risk : Risk Float}

theorem issues_ofOutcomes (utilization : Float) (outcomes : List (Outcome Float)) :
    (ofOutcomes utilization outcomes).issues = outcomes.map (·.issue) :=
  issues_foldl_absorb outcomes

/-- The bonus is added last. -/
theorem points_ofOutcomes (utilization : Float) (outcomes : List (Outcome Float)) :
    (ofOutcomes utilization outcomes).points =
      (outcomes.foldl absorb (ofUtilization utilization)).points +
        coincidenceBonus (outcomes.map (·.issue)) := by
  have issues : (outcomes.foldl absorb (ofUtilization utilization)).issues =
      outcomes.map (·.issue) := issues_foldl_absorb outcomes
  rw [ofOutcomes, amplify, add, issues]

theorem defined_least_num (x : Float) {n : ℕ} (digits : n < 2 ^ 53) :
    (least x (num n)).isNaN = false := by
  unfold least
  split_ifs with less given
  · exact defined_num digits
  · rwa [defined, instScalarFloat, Bool.not_eq_true'] at given
  · exact defined_num digits

/-- The share of the load is defined, whatever the load is. -/
theorem defined_ofUtilization (utilization : Float) :
    (ofUtilization utilization).points.isNaN = false :=
  defined_add_right (finite_num (by norm_num)) (defined_least_num _ (by norm_num))

theorem defined_foldl_absorb {outcomes : List (Outcome Float)}
    (finite : ∀ o ∈ outcomes, o.points.isFinite = true) (start : risk.points.isNaN = false) :
    (outcomes.foldl absorb risk).points.isNaN = false := by
  induction outcomes generalizing risk with
  | nil => exact start
  | cons o outcomes ih =>
    rw [List.forall_mem_cons] at finite
    refine ih finite.2 ?_
    rw [points_absorb]
    exact defined_add start finite.1

theorem finite_coincidenceBonus (issues : List Issue) :
    (coincidenceBonus issues : Float).isFinite = true := by
  unfold coincidenceBonus
  dsimp only
  split_ifs <;> exact finite_num (by norm_num)

theorem defined_ofOutcomes (utilization : Float) {outcomes : List (Outcome Float)}
    (finite : ∀ o ∈ outcomes, o.points.isFinite = true) :
    (ofOutcomes utilization outcomes).points.isNaN = false :=
  defined_add (defined_foldl_absorb finite (defined_ofUtilization utilization))
    (finite_coincidenceBonus _)

end Risk

theorem Rule.exists_arm_of_evaluate {rule : Rule Float} {r : Reading Float} {o : Outcome Float}
    (fired : rule.evaluate r = some o) :
    ∃ a ∈ rule.arms, a.trigger.fires r = true ∧ o = rule.outcome a r := by
  obtain ⟨a, found, same⟩ := Option.map_eq_some_iff.1 fired
  rw [firing?] at found
  have fired := List.find?_some (p := fun b : Arm Float => b.trigger.fires r) found
  exact ⟨a, List.mem_of_find?_eq_some found, fired, same.symm⟩

namespace Engine

theorem finite_outcomes {rules : List (Rule Float)}
    (finite : ∀ rule ∈ rules, ∀ a ∈ rule.arms, a.points.isFinite = true)
    (readings : Signal → Reading Float) :
    ∀ o ∈ outcomes rules readings, o.points.isFinite = true := by
  intro o mem
  obtain ⟨rule, rule_mem, fired⟩ := List.mem_filterMap.1 mem
  obtain ⟨a, a_mem, -, same⟩ := Rule.exists_arm_of_evaluate fired
  rw [same]
  exact finite rule rule_mem a a_mem

/-- Finite points leave no score undefined. -/
theorem score_defined (e : Engine Float) (history : List Sample)
    (finite : ∀ rule ∈ e.rules, ∀ a ∈ rule.arms, a.points.isFinite = true) :
    (e.risk history).points.isNaN = false :=
  Risk.defined_ofOutcomes _ (finite_outcomes finite _)

end Engine

end Prognosis
