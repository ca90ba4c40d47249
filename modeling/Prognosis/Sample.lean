import Prognosis.Calendar.Timestamp

/-!
# Samples: what is measured on a node at one moment
-/

namespace Prognosis

open Calendar

/-- One snapshot of a node.  What a report leaves out is zero. -/
structure Sample where
  timestamp : Timestamp := .epoch
  cpuUsage : Float := 0.0
  cpuIdle : Float := 0.0
  memoryUsed : Float := 0.0
  memoryTotal : Float := 0.0
  diskReadRate : Float := 0.0
  diskWriteRate : Float := 0.0
  networkLatencyMs : Float := 0.0
  networkThroughput : Float := 0.0
  peerCount : UInt32 := 0
  queryCount : UInt64 := 0
  queryLatencyP50Ms : Float := 0.0
  queryLatencyP95Ms : Float := 0.0
  queryLatencyP99Ms : Float := 0.0
  replicationEvents : UInt64 := 0
  replicationFailures : UInt64 := 0
  errorCount : UInt64 := 0
  errorRate : Float := 0.0
  utilizationScore : Float := 0.0
  uptimeSecs : UInt64 := 0

namespace Sample

def empty : Sample := {}

instance : Inhabited Sample := ⟨empty⟩

/-- Memory in use in percent of the total; zero where no positive total is known. -/
def memoryUsedPct (s : Sample) : Float :=
  if 0.0 < s.memoryTotal then s.memoryUsed / s.memoryTotal * 100.0 else 0.0

end Sample

end Prognosis
