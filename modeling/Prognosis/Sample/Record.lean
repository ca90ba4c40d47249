import Prognosis.Document.Decode
import Prognosis.Sample

/-!
# Samples as records

`Sample.columns` says how each field of a sample is named, read and written, in their order.
Decoding lays the given values over the empty sample, whatever their order and number.  `toValue`
writes all of them.
-/

namespace Prognosis

open Document Calendar

namespace Sample

/-- A timestamp is the text of an instant. -/
def instant : Decoder Timestamp := .textWith Timestamp.read?

/-- A count below a bound, as a word that has room for it. -/
def word {γ : Type} (bound : Nat) (ofNat : Nat → γ) : Decoder γ := fun n =>
  (Decoder.nat bound n).map ofNat

def wide : Decoder UInt64 := word UInt64.size Nat.toUInt64

def narrow : Decoder UInt32 := word UInt32.size Nat.toUInt32

/-- A column of measured quantities. -/
def quantity (name : String) (get : Sample → Float) (set : Float → Sample → Sample) :
    Record.Column Sample where
  name := name
  read := .float
  write x := .num (.float x)
  get := get
  set := set

/-- A column of counts. -/
def count (name : String) (get : Sample → UInt64) (set : UInt64 → Sample → Sample) :
    Record.Column Sample where
  name := name
  read := wide
  write n := .nat n.toNat
  get := get
  set := set

def timestampColumn : Record.Column Sample where
  name := "timestamp"
  read := instant
  write t := .text t.write
  get := timestamp
  set v s := { s with timestamp := v }

def peersColumn : Record.Column Sample where
  name := "peer_count"
  read := narrow
  write n := .nat n.toNat
  get := peerCount
  set v s := { s with peerCount := v }

/-- The fields of a sample, in the order in which a list gives them. -/
def columns : List (Record.Column Sample) :=
  [ timestampColumn,
    quantity "cpu_usage" cpuUsage fun v s => { s with cpuUsage := v },
    quantity "cpu_idle" cpuIdle fun v s => { s with cpuIdle := v },
    quantity "memory_used" memoryUsed fun v s => { s with memoryUsed := v },
    quantity "memory_total" memoryTotal fun v s => { s with memoryTotal := v },
    quantity "disk_read_rate" diskReadRate fun v s => { s with diskReadRate := v },
    quantity "disk_write_rate" diskWriteRate fun v s => { s with diskWriteRate := v },
    quantity "network_latency_ms" networkLatencyMs fun v s => { s with networkLatencyMs := v },
    quantity "network_throughput" networkThroughput fun v s => { s with networkThroughput := v },
    peersColumn,
    count "query_count" queryCount fun v s => { s with queryCount := v },
    quantity "query_latency_p50_ms" queryLatencyP50Ms fun v s => { s with queryLatencyP50Ms := v },
    quantity "query_latency_p95_ms" queryLatencyP95Ms fun v s => { s with queryLatencyP95Ms := v },
    quantity "query_latency_p99_ms" queryLatencyP99Ms fun v s => { s with queryLatencyP99Ms := v },
    count "replication_events" replicationEvents fun v s => { s with replicationEvents := v },
    count "replication_failures" replicationFailures fun v s => { s with replicationFailures := v },
    count "error_count" errorCount fun v s => { s with errorCount := v },
    quantity "error_rate" errorRate fun v s => { s with errorRate := v },
    quantity "utilization_score" utilizationScore fun v s => { s with utilizationScore := v },
    count "uptime_secs" uptimeSecs fun v s => { s with uptimeSecs := v } ]

def fields : List (Record.Field Sample) := columns.map (·.field)

/-- Reads a sample: the given fields laid over the empty sample. -/
def decode (dialect : Dialect) : Decoder Sample := Record.read dialect fields empty

/-- A sample as a table of all its fields. -/
def toValue (s : Sample) : Value := .table (columns.map (·.member s))

end Sample

end Prognosis
