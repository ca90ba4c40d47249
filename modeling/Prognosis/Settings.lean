import Prognosis.Decimal.Style
import Prognosis.Engine
import Prognosis.History

/-!
# Settings: what an operator can configure

Every part of the settings has a default.  `check` finds the first condition that settings break;
`Valid` states all of them, and the two agree (`check_eq_ok_iff`).
-/

namespace Prognosis

/-- How log lines are laid out. -/
inductive LogFormat where
  | text
  | json
  deriving DecidableEq, Repr

def LogFormat.name : LogFormat → String
  | text => "text"
  | json => "json"

instance : Named LogFormat := ⟨[.text, .json], LogFormat.name⟩

/-- How the program logs. -/
structure Logging where
  level : String := "info"
  format : LogFormat := .text
  deriving DecidableEq, Repr

/-- How the program serves. -/
structure Serving where
  listenAddress : String := "0.0.0.0:8080"
  /-- The samples retained for each node. -/
  historyCapacity : Nat := History.standardCapacity
  /-- The nodes tracked before new ones are refused. -/
  maxNodes : Nat := 1024
  deriving DecidableEq, Repr

/-- All settings. -/
structure Settings where
  engine : Tuning Float := .standard
  serving : Serving := {}
  logging : Logging := {}
  /-- The rules that replace the standard ladder, if any are given. -/
  rules : Option (List (Rule Float)) := none

/-- The first condition that settings break. -/
inductive Violation where
  | windowTooSmall (window : Nat)
  | invalidCadence (samplesPerHour : Float)
  | invalidHorizon (horizonHours : Float)
  | historyTooSmall (capacity window : Nat)
  | noNodes

namespace Violation

def message : Violation → String
  | windowTooSmall window => "window_size must be at least 2, got " ++ toString window
  | invalidCadence x => "samples_per_hour must be positive, got " ++ Decimal.plain.write x
  | invalidHorizon x => "horizon_hours must be positive, got " ++ Decimal.plain.write x
  | historyTooSmall capacity window =>
    "history_capacity (" ++ toString capacity ++ ") is smaller than window_size (" ++
      toString window ++ ")"
  | noNodes => "max_nodes must be at least 1"

end Violation

/-- A trend needs two samples, a rate a finite positive cadence, and a horizon must be positive. -/
def Tuning.check (t : Tuning Float) : Except Violation Unit :=
  if t.window < 2 then .error (.windowTooSmall t.window)
  else if ¬ (t.samplesPerHour.isFinite ∧ 0.0 < t.samplesPerHour) then
    .error (.invalidCadence t.samplesPerHour)
  else if ¬ 0.0 < t.horizonHours then .error (.invalidHorizon t.horizonHours)
  else .ok ()

/-- The conditions on a tuning. -/
structure Tuning.Valid (t : Tuning Float) : Prop where
  window : 2 ≤ t.window
  cadence_finite : t.samplesPerHour.isFinite
  cadence_pos : 0.0 < t.samplesPerHour
  horizon_pos : 0.0 < t.horizonHours

theorem Tuning.check_eq_ok_iff (t : Tuning Float) : t.check = .ok () ↔ t.Valid := by
  unfold check
  split
  · exact ⟨nofun, fun h => absurd h.window (by omega)⟩
  · split
    · next h => exact ⟨nofun, fun v => absurd ⟨v.cadence_finite, v.cadence_pos⟩ h⟩
    · next h =>
      have h := Decidable.not_not.1 h
      split
      · next h' => exact ⟨nofun, fun v => absurd v.horizon_pos h'⟩
      · next h' => exact ⟨fun _ => ⟨by omega, h.1, h.2, Decidable.not_not.1 h'⟩, fun _ => rfl⟩

namespace Settings

/-- A history holds at least a window of samples, and at least one node can be tracked. -/
def check (s : Settings) : Except Violation Unit := do
  s.engine.check
  if s.serving.historyCapacity < s.engine.window then
    .error (.historyTooSmall s.serving.historyCapacity s.engine.window)
  else if s.serving.maxNodes = 0 then .error .noNodes
  else .ok ()

/-- The conditions on settings. -/
structure Valid (s : Settings) : Prop where
  engine : s.engine.Valid
  capacity : s.engine.window ≤ s.serving.historyCapacity
  nodes : 0 < s.serving.maxNodes

theorem check_eq_ok_iff (s : Settings) : s.check = .ok () ↔ s.Valid := by
  unfold check
  cases h : s.engine.check with
  | error e =>
    refine ⟨nofun, fun v => ?_⟩
    rw [(Tuning.check_eq_ok_iff _).2 v.engine] at h
    cases h
  | ok u =>
    have valid := (Tuning.check_eq_ok_iff _).1 h
    simp only [bind, Except.bind]
    split
    · exact ⟨nofun, fun v => absurd v.capacity (by omega)⟩
    · split
      · exact ⟨nofun, fun v => absurd v.nodes (by omega)⟩
      · exact ⟨fun _ => ⟨valid, by omega, by omega⟩, fun _ => rfl⟩

def ruleSet (s : Settings) : List (Rule Float) := s.rules.getD Ladder.standard

def toEngine (s : Settings) : Engine Float := ⟨s.engine, s.ruleSet⟩

end Settings

end Prognosis
