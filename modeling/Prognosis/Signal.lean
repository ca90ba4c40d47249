import Prognosis.Grade
import Prognosis.Sample
import Prognosis.Trend

/-!
# Watched signals and their readings
-/

namespace Prognosis

/-- A watched metric. -/
inductive Signal where
  | cpu
  | memory
  | network
  deriving DecidableEq, Repr

namespace Signal

def name : Signal → String
  | cpu => "cpu"
  | memory => "memory"
  | network => "network"

instance : Named Signal := ⟨[cpu, memory, network], name⟩

/-- Utilizations are in percent, latency in milliseconds. -/
def unit : Signal → String
  | cpu | memory => "%"
  | network => "ms"

def value (signal : Signal) (s : Sample) : Float :=
  match signal with
  | cpu => s.cpuUsage
  | memory => s.memoryUsedPct
  | network => s.networkLatencyMs

end Signal

/-- The latest value of a signal and its hourly trend. -/
structure Reading (α : Type) where
  current : α
  trend : α

def Reading.ofSeries {α : Type} [Scalar α] (perHour : α) (values : List α) : Reading α :=
  ⟨values.getLastD (Scalar.num 0), Trend.hourly perHour values⟩

end Prognosis
