import Prognosis.Rule

/-!
# The standard ladder

Three rungs for each signal.  Low rungs look at the trend alone, medium and high rungs also fire on
an elevated level.
-/

namespace Prognosis.Ladder

open Scalar Severity

variable {α : Type} [Scalar α]

/-- An arm for a trend, its thresholds given in halves. -/
def trending (trend current : Nat) (points : Nat) (projection : Option Nat) (label : String) :
    Arm α :=
  ⟨.trending (halves trend) (num current), num points, projection.map num, label⟩

/-- An arm for a level. -/
def elevated (current : Nat) (points : Nat) (projection : Option Nat) (label : String) : Arm α :=
  ⟨.elevated (num current), num points, projection.map num, label⟩

def cpu : List (Rule α) :=
  [ ⟨.cpu, low, [trending 4 50 10 (some 80) "CPU usage trending upward"]⟩,
    ⟨.cpu, medium,
      [ trending 6 60 20 (some 90) "CPU usage rising rapidly",
        elevated 70 20 (some 90) "CPU usage elevated" ]⟩,
    ⟨.cpu, high,
      [ trending 10 70 30 (some 100) "CPU approaching saturation",
        elevated 85 35 none "CPU critically high" ]⟩ ]

def memory : List (Rule α) :=
  [ ⟨.memory, low, [trending 3 50 10 (some 80) "Memory usage trending upward"]⟩,
    ⟨.memory, medium,
      [ trending 4 60 20 (some 90) "Memory usage rising rapidly",
        elevated 70 20 (some 90) "Memory usage elevated" ]⟩,
    ⟨.memory, high,
      [ trending 10 60 35 (some 100) "Memory growing fast, possible leak",
        trending 8 60 30 (some 100) "Memory approaching exhaustion",
        elevated 90 40 none "Memory critically high" ]⟩ ]

/-- The rungs for network latency, which never project a crossing. -/
def network : List (Rule α) :=
  [ ⟨.network, low, [trending 1 5 5 none "Network latency increasing"]⟩,
    ⟨.network, medium,
      [ trending 2 10 15 none "Network latency rising rapidly",
        elevated 15 15 none "Network latency elevated" ]⟩,
    ⟨.network, high,
      [ trending 4 15 20 none "Network latency degrading severely",
        elevated 25 25 none "Network latency critically high" ]⟩ ]

/-- The rules in force where none are configured. -/
def standard : List (Rule α) := cpu ++ memory ++ network

end Prognosis.Ladder
