import Prognosis.Rule.Ladder

/-!
# Rules arm by arm

A rule is evaluated from its first arm on: an arm that fires decides (`evaluate_cons_of_fires`), one
that does not is passed over (`evaluate_cons_of_idle`).  What an arm of the standard ladder needs to
fire and what it brings are read off its numbers.
-/

namespace Prognosis

open Scalar

variable {α : Type} [Scalar α] {signal : Signal} {severity : Severity} {arms : List (Arm α)}

/-! ## Evaluation -/

namespace Rule

variable {a : Arm α} {r : Reading α}

theorem evaluate_cons_of_fires (fires : a.trigger.fires r = true) :
    Rule.evaluate ⟨signal, severity, a :: arms⟩ r =
      some (Rule.outcome ⟨signal, severity, arms⟩ a r) := by
  rw [evaluate, firing?, List.find?_cons, fires]
  rfl

theorem evaluate_cons_of_idle (idle : a.trigger.fires r = false) :
    Rule.evaluate ⟨signal, severity, a :: arms⟩ r =
      Rule.evaluate ⟨signal, severity, arms⟩ r := by
  rw [evaluate, firing?, List.find?_cons, idle]
  rfl

variable {rule : Rule α}

/-- The arm that decides on a reading: it fires, and no arm in front of it does. -/
def DecidedBy (rule : Rule α) (r : Reading α) (a : Arm α) : Prop :=
  ∃ front back, rule.arms = front ++ a :: back ∧ (∀ b ∈ front, b.trigger.fires r = false) ∧
    a.trigger.fires r = true

theorem DecidedBy.mem (decides : rule.DecidedBy r a) : a ∈ rule.arms := by
  obtain ⟨front, back, split, -⟩ := decides
  rw [split]
  exact List.mem_append_right _ List.mem_cons_self

theorem DecidedBy.fires (decides : rule.DecidedBy r a) : a.trigger.fires r = true := by
  obtain ⟨-, -, -, -, fires⟩ := decides
  exact fires

theorem firing?_eq_some_iff : rule.firing? r = some a ↔ rule.DecidedBy r a := by
  rw [firing?, List.find?_eq_some_iff_append, DecidedBy]
  constructor
  · rintro ⟨fires, front, back, split, idle⟩
    exact ⟨front, back, split, fun b mem => by simpa using idle b mem, fires⟩
  · rintro ⟨front, back, split, idle, fires⟩
    exact ⟨fires, front, back, split, fun b mem => by simpa using idle b mem⟩

theorem evaluate_eq_some_iff {o : Outcome α} :
    rule.evaluate r = some o ↔ ∃ a, rule.DecidedBy r a ∧ rule.outcome a r = o := by
  rw [evaluate, Option.map_eq_some_iff]
  exact exists_congr fun _ => and_congr_left' firing?_eq_some_iff

end Rule

/-! ## Crossings -/

namespace Arm

variable {a : Arm α}

theorem crossing?_of_projection {threshold : α} (projects : a.projection = some threshold)
    (r : Reading α) :
    a.crossing? r =
      if num 0 < r.trend then
        if finite ((threshold - r.current) / r.trend) ∧
            num 0 < (threshold - r.current) / r.trend then
          some ((threshold - r.current) / r.trend)
        else none
      else none := by
  rw [crossing?, projects]

theorem crossing?_of_no_projection (nowhere : a.projection = none) (r : Reading α) :
    a.crossing? r = none := by
  rw [crossing?, nowhere, ite_self]

theorem crossing?_eq_some_iff {r : Reading α} {hours : α} :
    a.crossing? r = some hours ↔
      ∃ threshold, a.projection = some threshold ∧ num 0 < r.trend ∧
        hours = (threshold - r.current) / r.trend ∧ finite hours = true ∧ num 0 < hours := by
  cases projects : a.projection with
  | none =>
    rw [crossing?_of_no_projection projects]
    simp
  | some threshold =>
    rw [crossing?_of_projection projects]
    constructor
    · intro crosses
      split at crosses
      case isFalse => cases crosses
      case isTrue rising =>
        split at crosses
        case isFalse => cases crosses
        case isTrue ahead =>
          cases crosses
          exact ⟨threshold, rfl, rising, rfl, ahead⟩
    · rintro ⟨_, ⟨⟩, rising, rfl, ahead⟩
      rw [if_pos rising, if_pos ahead]

theorem crossing?_of_not_rising {r : Reading α} (level : ¬ num 0 < r.trend) :
    a.crossing? r = none := by
  rw [crossing?, if_neg level]

end Arm

/-! ## Signals that do not rise -/

namespace Rule

/-- An outcome that tells of no rise: an arm for a level brings it, no crossing is projected, and
the signal is not called degrading. -/
structure CalmOn (rule : Rule α) (r : Reading α) (o : Outcome α) : Prop where
  level : ∃ a, rule.DecidedBy r a ∧ a.trigger.isTrending = false ∧ o = rule.outcome a r
  hours : o.hours = none
  direction : o.issue.trend = .ofRate r.trend ∧ o.issue.trend ≠ .degrading

theorem ofRate_ne_degrading {rate : α} (level : ¬ num 0 < rate) :
    Direction.ofRate rate ≠ .degrading := by
  rw [Direction.ofRate, if_neg level]
  split <;> decide

theorem calm_of_not_rising {rule : Rule α} {r : Reading α} (level : ¬ num 0 < r.trend)
    (idle : ∀ a ∈ rule.arms, a.trigger.isTrending = true → a.trigger.fires r = false)
    {o : Outcome α} (fired : rule.evaluate r = some o) : rule.CalmOn r o := by
  obtain ⟨a, decides, rfl⟩ := evaluate_eq_some_iff.1 fired
  have for_level : a.trigger.isTrending = false := by
    cases trending : a.trigger.isTrending with
    | false => rfl
    | true => cases (idle a decides.mem trending).symm.trans decides.fires
  have direction : (rule.outcome a r).issue.trend = .ofRate r.trend := by
    rw [outcome, finding, for_level]
    rfl
  constructor
  case level => exact ⟨a, decides, for_level, rfl⟩
  case hours => exact Arm.crossing?_of_not_rising level
  case direction => exact ⟨direction, direction ▸ ofRate_ne_degrading level⟩

end Rule

/-! ## Arms of the standard ladder -/

namespace Ladder

variable {rate level points : Nat} {projection : Option Nat} {label : String} (r : Reading α)

theorem fires_trending :
    (trending rate level points projection label : Arm α).trigger.fires r = true ↔
      halves rate < r.trend ∧ num level < r.current := by
  rw [trending, Trigger.fires, Bool.and_eq_true, decide_eq_true_iff, decide_eq_true_iff]

theorem fires_elevated :
    (elevated level points projection label : Arm α).trigger.fires r = true ↔
      num level < r.current := by
  rw [elevated, Trigger.fires, decide_eq_true_iff]

theorem outcome_trending :
    Rule.outcome ⟨signal, severity, arms⟩ (trending rate level points projection label) r =
      { issue :=
          ⟨signal, severity, label ++ " (" ++ Wording.rate r.trend signal.unit ++ ")", .degrading,
            Wording.rate r.trend signal.unit⟩
        points := num points
        hours := (trending rate level points projection label).crossing? r } := by
  rw [Rule.outcome, Rule.finding]
  rfl

theorem outcome_elevated :
    Rule.outcome ⟨signal, severity, arms⟩ (elevated level points projection label) r =
      { issue :=
          ⟨signal, severity, label ++ " (" ++ Wording.level r.current signal.unit ++ ")",
            .ofRate r.trend, Wording.level r.current signal.unit⟩
        points := num points
        hours := (elevated level points projection label).crossing? r } := by
  rw [Rule.outcome, Rule.finding]
  rfl

end Ladder

end Prognosis
