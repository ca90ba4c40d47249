import Prognosis.Prediction
import Prognosis.Rule.Ladder

/-!
# The engine: from a history of samples to a prediction

Only the trailing window of a history is read.  `assess` scores three readings and a load;
`predict` takes them from the window.
-/

namespace Prognosis

open Scalar

/-- What can be tuned about an assessment. -/
structure Tuning (α : Type) where
  /-- The number of trailing samples that are read. -/
  window : Nat
  samplesPerHour : α
  /-- Crossings at or beyond this many hours are not reported. -/
  horizonHours : α
  deriving BEq

/-- An hour of samples at five-minute cadence, and a horizon of four hours. -/
def Tuning.standard {α : Type} [Scalar α] : Tuning α := ⟨12, num 12, num 4⟩

/-- A tuned engine with its rules. -/
structure Engine (α : Type) where
  tuning : Tuning α
  rules : List (Rule α)

namespace Engine

variable {α : Type} [Scalar α]

/-- The engine in force where nothing is configured. -/
def standard : Engine α := ⟨.standard, Ladder.standard⟩

/-- What the rules find in the readings, in the order of the rules. -/
def outcomes (rules : List (Rule α)) (readings : Signal → Reading α) : List (Outcome α) :=
  rules.filterMap fun rule => rule.evaluate (readings rule.signal)

/-- The verdict on three readings and a load. -/
def assess (e : Engine α) (readings : Signal → Reading α) (utilization : α) : Prediction :=
  .ofRisk e.tuning.horizonHours (.ofOutcomes utilization (outcomes e.rules readings))

end Engine

/-- The last `n` elements of a list. -/
def lastOf {β : Type} (n : Nat) (xs : List β) : List β := xs.drop (xs.length - n)

namespace Engine

def reading (t : Tuning Float) (samples : List Sample) (signal : Signal) : Reading Float :=
  .ofSeries t.samplesPerHour (samples.map signal.value)

/-- The verdict on a window of samples, none for an empty one. -/
def assessWindow? (e : Engine Float) (samples : List Sample) : Option Prediction :=
  samples.getLast?.map fun latest =>
    e.assess (reading e.tuning samples) latest.utilizationScore

/-- The verdict on a history, oldest sample first. -/
def predict (e : Engine Float) (history : List Sample) : Prediction :=
  if history.length < e.tuning.window then .collecting e.tuning.window
  else
    (e.assessWindow? (lastOf e.tuning.window history)).getD (.collecting e.tuning.window)

end Engine

end Prognosis
