import Mathlib.Data.List.Forall2
import Prognosis.Proofs.Rule.Independence
import Prognosis.Proofs.Rule.Monotone
import Prognosis.Proofs.Score.Order

/-!
# Every input is answered

With each access to a history or a table checked, a prediction runs to its end and is the same
(`Engine.predict?_eq`): no index leaves its range, whatever the engine and the samples are.  A
history that is scored is answered with a confidence of at least 40
(`Prediction.le_confidence_ofRisk`), and every rule with an arm that matches keeps its issue
(`Engine.forall₂_outcomes`).
-/

namespace Prognosis

open Scalar Binary64 Decimal

/-! ## Checked accesses -/

namespace Checked

variable {β : Type}

/-- A difference of counts, none below zero. -/
def minus? (m n : ℕ) : Option ℕ := if n ≤ m then some (m - n) else none

/-- The part of a list from a place on, none behind the end. -/
def from? (start : ℕ) (bs : List β) : Option (List β) :=
  if start ≤ bs.length then some (bs.drop start) else none

/-- A list with a place overwritten, none where there is no such place. -/
def put? (place : ℕ) (b : β) (bs : List β) : Option (List β) :=
  if place < bs.length then some (bs.set place b) else none

end Checked

/-- The place of a signal in a table of readings. -/
def Signal.place : Signal → ℕ
  | .cpu => 0
  | .memory => 1
  | .network => 2

namespace Engine

open Checked

/-- The readings of a window, written into a table of three places. -/
def table? (t : Tuning Float) (samples : List Sample) : Option (List (Reading Float)) :=
  [Signal.cpu, .memory, .network].foldlM
    (fun table signal => put? signal.place (reading t samples signal) table)
    (List.replicate 3 ⟨0, 0⟩)

/-- What the rules find in a table of readings, none where a reading is not in the table. -/
def outcomes? (table : List (Reading Float)) : List (Rule Float) → Option (List (Outcome Float))
  | [] => some []
  | rule :: rules => do
    let r ← table[rule.signal.place]?
    let found ← outcomes? table rules
    some ((rule.evaluate r).toList ++ found)

/-- The verdict on a history with every access checked, none where one is out of range. -/
def predict? (e : Engine Float) (history : List Sample) : Option Prediction :=
  if history.length < e.tuning.window then some (.collecting e.tuning.window)
  else do
    let start ← minus? history.length e.tuning.window
    let samples ← from? start history
    match samples.getLast? with
    | none => some (.collecting e.tuning.window)
    | some latest => do
      let table ← table? e.tuning samples
      let found ← outcomes? table e.rules
      some (.ofRisk e.tuning.horizonHours (.ofOutcomes latest.utilizationScore found))

theorem table?_eq (t : Tuning Float) (samples : List Sample) :
    table? t samples = some [reading t samples .cpu, reading t samples .memory,
      reading t samples .network] := rfl

theorem outcomes?_eq (readings : Signal → Reading Float) (rules : List (Rule Float)) :
    outcomes? [readings .cpu, readings .memory, readings .network] rules =
      some (outcomes rules readings) := by
  induction rules with
  | nil => rfl
  | cons rule rules ih =>
    have own : [readings .cpu, readings .memory, readings .network][rule.signal.place]? =
        some (readings rule.signal) := by
      cases rule.signal <;> rfl
    rw [outcomes?, own, ih]
    unfold outcomes
    rw [List.filterMap_cons]
    show some ((rule.evaluate (readings rule.signal)).toList ++ _) = _
    cases rule.evaluate (readings rule.signal) <;> rfl

/-- **Accesses.**  No access of a prediction is out of range. -/
theorem predict?_eq (e : Engine Float) (history : List Sample) :
    e.predict? history = some (e.predict history) := by
  unfold predict? predict
  by_cases short : history.length < e.tuning.window
  · rw [if_pos short, if_pos short]
  · rw [if_neg short, if_neg short, minus?, if_pos (Nat.le_of_not_lt short)]
    show (from? (history.length - e.tuning.window) history >>= _) = _
    rw [from?, if_pos (Nat.sub_le _ _), assessWindow?, lastOf]
    show (match (history.drop _).getLast? with | none => _ | some latest => _) = _
    cases (history.drop (history.length - e.tuning.window)).getLast? with
    | none => rfl
    | some latest =>
      show (table? _ _ >>= _) = _
      rw [table?_eq]
      show (outcomes? _ _ >>= _) = _
      rw [outcomes?_eq]
      rfl

end Engine

/-! ## Confidence -/

namespace Prediction

variable {horizon : Float} {risk : Risk Float}

/-- A scored history is answered with some confidence. -/
theorem le_confidence_ofRisk : 40 ≤ (ofRisk horizon risk).confidence := by
  obtain ⟨finite, low, -⟩ :=
    confidenceIn_bounds risk.issues.length (ofRisk horizon risk).status
  have rounded : ((40 : ℕ) : ℤ) ≤
      nearestInt64 (confidenceIn risk.issues.length (ofRisk horizon risk).status) :=
    le_nearestInt64 (defined_of_finite finite) (by decide) (by exact_mod_cast low)
  show 40 ≤ (nearestInt64 (confidenceIn risk.issues.length (ofRisk horizon risk).status)).toNat
  omega

theorem confidence_ofRisk_of_healthy (healthy : (ofRisk horizon risk).status = .healthy) :
    (ofRisk horizon risk).confidence ≤ 70 := by
  obtain ⟨finite, low, -⟩ := evidence_bounds risk.issues.length
  obtain ⟨-, -, high⟩ :=
    least_num_spec (n := 70) (defined_of_finite finite) low (by norm_num) (by norm_num)
  have rounded : nearestInt64 (confidenceIn risk.issues.length .healthy) ≤ (70 : ℕ) :=
    nearestInt64_le high
  show (nearestInt64 (confidenceIn risk.issues.length (ofRisk horizon risk).status)).toNat ≤ 70
  rw [healthy]
  omega

end Prediction

/-! ## Issues -/

namespace Engine

/-- The rules with an arm that matches the reading of their signal. -/
def matching (rules : List (Rule Float)) (readings : Signal → Reading Float) : List (Rule Float) :=
  rules.filter fun rule => rule.arms.any fun a => a.trigger.fires (readings rule.signal)

/-- Each rule with an arm that matches has one outcome, that of the arm that decides. -/
theorem forall₂_outcomes (rules : List (Rule Float)) (readings : Signal → Reading Float) :
    List.Forall₂ (fun rule o => ∃ a, rule.DecidedBy (readings rule.signal) a ∧
      rule.outcome a (readings rule.signal) = o) (matching rules readings)
      (outcomes rules readings) := by
  induction rules with
  | nil => exact .nil
  | cons rule rules ih =>
    have fires_iff : (rule.arms.any fun a => a.trigger.fires (readings rule.signal)) =
        (rule.evaluate (readings rule.signal)).isSome := by
      rw [Bool.eq_iff_iff, Rule.isSome_evaluate_iff, List.any_eq_true]
    unfold matching outcomes
    rw [List.filter_cons, List.filterMap_cons, fires_iff]
    cases evaluated : rule.evaluate (readings rule.signal) with
    | none => exact ih
    | some o => exact .cons (Rule.evaluate_eq_some_iff.1 evaluated) ih

variable {e : Engine Float} {history : List Sample}

theorem le_confidence_of_scores (scored : e.Scores history) :
    40 ≤ (e.predict history).confidence := by
  rw [e.predict_eq_ofRisk scored.1 scored.2]
  exact Prediction.le_confidence_ofRisk

theorem confidence_of_not_scores (unscored : ¬ e.Scores history) :
    (e.predict history).confidence = 0 := by
  rw [e.predict_of_not_scores history unscored]
  rfl

theorem confidence_of_healthy (healthy : (e.predict history).status = .healthy) :
    (e.predict history).confidence ≤ 70 := by
  by_cases scored : e.Scores history
  · rw [e.predict_eq_ofRisk scored.1 scored.2] at healthy ⊢
    exact Prediction.confidence_ofRisk_of_healthy healthy
  · rw [confidence_of_not_scores scored]
    exact Nat.zero_le _

/-- **Every input is answered.**  Whatever the tuning, the rules and the samples are: no access of a
prediction is out of range, its numbers are percentages, and a healthy verdict is given with a
confidence of 70 at most.  It only asks for samples where there is no window, or where the history
is shorter than that, and has no confidence there.  Otherwise it is given with a confidence of at
least 40, with one issue for each rule with an arm that matches, and timed by all crossings. -/
theorem predict_in_range (e : Engine Float) (history : List Sample) :
    let p := e.predict history
    let readings := reading e.tuning (lastOf e.tuning.window history)
    e.predict? history = some p ∧
      p.failureProbability ≤ 100 ∧ p.confidence ≤ 95 ∧ (p.status = .healthy → p.confidence ≤ 70) ∧
      (p = .collecting e.tuning.window ↔
        e.tuning.window = 0 ∨ history.length < e.tuning.window) ∧
      (p.confidence = 0 ↔ e.tuning.window = 0 ∨ history.length < e.tuning.window) ∧
      (e.tuning.window ≠ 0 → e.tuning.window ≤ history.length →
        40 ≤ p.confidence ∧
        List.Forall₂ (fun rule issue => ∃ a, rule.DecidedBy (readings rule.signal) a ∧
          (rule.outcome a (readings rule.signal)).issue = issue)
          (matching e.rules readings) p.issues ∧
        p.TimedBy (e.crossings history) e.tuning.horizonHours) := by
  intro p readings
  obtain ⟨probability, confidence⟩ := e.percentages_predict history
  have missing_iff : (e.tuning.window = 0 ∨ history.length < e.tuning.window) ↔
      ¬ e.Scores history := by
    unfold Scores
    omega
  have unsure_iff : p.confidence = 0 ↔ ¬ e.Scores history := by
    refine ⟨fun unsure scored => ?_, confidence_of_not_scores⟩
    have sure : 40 ≤ p.confidence := le_confidence_of_scores scored
    omega
  refine ⟨e.predict?_eq history, probability, confidence, confidence_of_healthy, ?_, ?_, ?_⟩
  · rw [missing_iff]
    refine ⟨fun collecting => unsure_iff.1 ?_, e.predict_of_not_scores history⟩
    rw [collecting]
    rfl
  · rw [missing_iff, unsure_iff]
  · intro some_window full
    have scored : e.Scores history := ⟨Nat.pos_of_ne_zero some_window, full⟩
    refine ⟨le_confidence_of_scores scored, ?_, e.timedBy_crossings_of_full scored.1 scored.2⟩
    have issues : p.issues = (outcomes e.rules readings).map (·.issue) := by
      rw [e.issues_predict history, found, if_pos scored]
    rw [issues, List.forall₂_map_right_iff]
    refine (forall₂_outcomes e.rules readings).imp ?_
    rintro rule o ⟨a, decides, rfl⟩
    exact ⟨a, decides, rfl⟩

/-- An infinite load of the processor, an undefined cadence, a horizon in the past and points that
are no number: there is one issue, and it is reported with some confidence. -/
theorem predict_in_range_of_undefined :
    let odd : Rule Float := ⟨.cpu, .high, [⟨.elevated 0, 0 / 0, none, "odd"⟩]⟩
    let e : Engine Float := ⟨⟨1, 0 / 0, -1 / 0⟩, [odd]⟩
    let history : List Sample := [{ cpuUsage := 1 / 0 }]
    e.predict? history ≠ none ∧ (e.predict history).failureProbability ≤ 100 ∧
      40 ≤ (e.predict history).confidence ∧ (e.predict history).issues.length = 1 := by
  intro odd e history
  obtain ⟨checked, probability, -, -, -, -, scored⟩ := e.predict_in_range history
  obtain ⟨confidence, raised, -⟩ := scored (by decide) (by decide)
  have one : (matching e.rules (reading e.tuning (lastOf e.tuning.window history))).length = 1 := by
    decide +kernel
  refine ⟨?_, probability, confidence, raised.length_eq.symm.trans one⟩
  rw [checked]
  exact Option.some_ne_none _

end Engine

end Prognosis
