import Prognosis.Proofs.Calendar.Timestamp
import Prognosis.Proofs.Document.Column
import Prognosis.Json.Reader
import Prognosis.Sample.Record

/-!
# Samples as overlays

A sample is decoded by laying what is given over the empty sample.  Its columns are all there is in
it and do not touch each other (`Sample.complete_columns`), so it is decoded from its own table, any
table is laid over it by name (`Sample.decode_table_iff`) and a list by place
(`Sample.decode_list_iff`).  Both ways of laying come to the same twenty fields (`Sample.Overlays`).
-/

namespace Prognosis

open Document Decoder Record Calendar

namespace Sample

/-- The names of the fields of a sample, in the order in which a list gives them. -/
def names : List String :=
  ["timestamp", "cpu_usage", "cpu_idle", "memory_used", "memory_total", "disk_read_rate",
    "disk_write_rate", "network_latency_ms", "network_throughput", "peer_count", "query_count",
    "query_latency_p50_ms", "query_latency_p95_ms", "query_latency_p99_ms", "replication_events",
    "replication_failures", "error_count", "error_rate", "utilization_score", "uptime_secs"]

/-- The empty sample with what is given for its fields, each by its name. -/
@[mk_iff]
structure Overlays (given : String → Option Node) (s : Sample) : Prop where
  timestamp : Filled instant (given "timestamp") .epoch s.timestamp
  cpuUsage : Filled float (given "cpu_usage") 0 s.cpuUsage
  cpuIdle : Filled float (given "cpu_idle") 0 s.cpuIdle
  memoryUsed : Filled float (given "memory_used") 0 s.memoryUsed
  memoryTotal : Filled float (given "memory_total") 0 s.memoryTotal
  diskReadRate : Filled float (given "disk_read_rate") 0 s.diskReadRate
  diskWriteRate : Filled float (given "disk_write_rate") 0 s.diskWriteRate
  networkLatencyMs : Filled float (given "network_latency_ms") 0 s.networkLatencyMs
  networkThroughput : Filled float (given "network_throughput") 0 s.networkThroughput
  peerCount : Filled (nat UInt32.size) (given "peer_count") 0 s.peerCount.toNat
  queryCount : Filled (nat UInt64.size) (given "query_count") 0 s.queryCount.toNat
  queryLatencyP50Ms : Filled float (given "query_latency_p50_ms") 0 s.queryLatencyP50Ms
  queryLatencyP95Ms : Filled float (given "query_latency_p95_ms") 0 s.queryLatencyP95Ms
  queryLatencyP99Ms : Filled float (given "query_latency_p99_ms") 0 s.queryLatencyP99Ms
  replicationEvents :
    Filled (nat UInt64.size) (given "replication_events") 0 s.replicationEvents.toNat
  replicationFailures :
    Filled (nat UInt64.size) (given "replication_failures") 0 s.replicationFailures.toNat
  errorCount : Filled (nat UInt64.size) (given "error_count") 0 s.errorCount.toNat
  errorRate : Filled float (given "error_rate") 0 s.errorRate
  utilizationScore : Filled float (given "utilization_score") 0 s.utilizationScore
  uptimeSecs : Filled (nat UInt64.size) (given "uptime_secs") 0 s.uptimeSecs.toNat

/-! ## Counts -/

/-- Words that stand for the numbers below a bound. -/
structure Words {γ : Type} (bound : ℕ) (ofNat : ℕ → γ) (toNat : γ → ℕ) : Prop where
  below : ∀ c, toNat c < bound
  toNat_ofNat : ∀ n < bound, toNat (ofNat n) = n
  ofNat_toNat : ∀ c, ofNat (toNat c) = c

section

variable {γ : Type} {bound : ℕ} {ofNat : ℕ → γ} {toNat : γ → ℕ} (words : Words bound ofNat toNat)

include words

theorem Words.word_eq_ok_iff {n : Node} {c : γ} :
    word bound ofNat n = .ok c ↔ nat bound n = .ok (toNat c) := by
  unfold word
  constructor
  · intro read
    obtain ⟨m, whole, rfl⟩ := exists_of_map_eq_ok read
    rw [whole, words.toNat_ofNat m (nat_eq_ok_iff.1 whole).1]
  · intro whole
    rw [whole]
    exact congrArg Except.ok (words.ofNat_toNat c)

theorem Words.word_toNode (c : γ) : word bound ofNat (Value.nat (toNat c)).toNode = .ok c :=
  words.word_eq_ok_iff.2 (nat_toNode (words.below c))

theorem Words.filled_iff {given : Option Node} {before after : γ} :
    Filled (word bound ofNat) given before after ↔
      Filled (nat bound) given (toNat before) (toNat after) := by
  cases given with
  | none =>
    refine ⟨congrArg toNat, fun same => ?_⟩
    show after = before
    rw [← words.ofNat_toNat after, same, words.ofNat_toNat]
  | some n => exact words.word_eq_ok_iff

end

theorem words_wide : Words UInt64.size Nat.toUInt64 UInt64.toNat :=
  ⟨UInt64.toNat_lt_size, fun _ => UInt64.toNat_ofNat_of_lt', fun _ => UInt64.ofNat_toNat⟩

theorem words_narrow : Words UInt32.size Nat.toUInt32 UInt32.toNat :=
  ⟨UInt32.toNat_lt_size, fun _ => UInt32.toNat_ofNat_of_lt', fun _ => UInt32.ofNat_toNat⟩

/-! ## Column by column -/

theorem lawful_quantity {name : String} {get : Sample → Float} {set : Float → Sample → Sample}
    (get_set : ∀ x s, get (set x s) = x) (set_get : ∀ s, set (get s) s = s) :
    (quantity name get set).Lawful :=
  ⟨get_set, set_get, fun _ => rfl⟩

theorem lawful_count {name : String} {get : Sample → UInt64} {set : UInt64 → Sample → Sample}
    (get_set : ∀ n s, get (set n s) = n) (set_get : ∀ s, set (get s) s = s) :
    (count name get set).Lawful := by
  refine ⟨get_set, set_get, fun n => ?_⟩
  dsimp only [count, wide]
  exact words_wide.word_toNode n

theorem lawful_timestampColumn : timestampColumn.Lawful :=
  ⟨fun _ _ => rfl, fun _ => rfl, fun t => textWith_toNode t.read?_write⟩

theorem lawful_peersColumn : peersColumn.Lawful := by
  refine ⟨fun _ _ => rfl, fun _ => rfl, fun n => ?_⟩
  dsimp only [peersColumn, narrow]
  exact words_narrow.word_toNode n

theorem lawful_columns : ∀ c ∈ columns, c.Lawful := by
  simp [columns, lawful_timestampColumn, lawful_peersColumn, lawful_quantity, lawful_count]

theorem commute_columns : columns.Pairwise Column.Commutes := by
  simp [columns, timestampColumn, peersColumn, quantity, count, Column.Commutes]

theorem copy_columns (s r : Sample) : Column.copy columns s r = s := by
  simp only [Column.copy, columns, timestampColumn, peersColumn, quantity, count,
    List.foldl_cons, List.foldl_nil]

theorem complete_columns : Column.Complete columns where
  distinct := by decide
  lawful := lawful_columns
  commute := commute_columns
  copy := copy_columns

/-- A sample is decoded from its own table. -/
theorem decode_toValue (s : Sample) (dialect : Dialect) :
    decode dialect s.toValue.toNode = .ok s :=
  complete_columns.read_toNode dialect empty s

theorem apart_fields : Apart fields := complete_columns.apart

theorem uniform_fields : ∀ f ∈ fields, f.Uniform := by
  rw [fields, List.forall_mem_map]
  exact fun _ _ => Field.uniform_of

/-- Laying values over the empty sample field by field is laying them over it by name. -/
theorem overlay?_fields_iff {given : String → Option Node} {s : Sample} :
    overlay? fields given empty = some s ↔ Overlays given s := by
  rw [fields, complete_columns.overlay?_iff, overlays_iff]
  simp only [columns, List.forall_mem_cons, List.not_mem_nil, IsEmpty.forall_iff, implies_true,
    and_true, Column.Fills, timestampColumn, peersColumn, quantity, count, wide, narrow,
    words_wide.filled_iff, words_narrow.filled_iff]
  rfl

/-! ## What the fields take -/

/-- The fields that hold a count of 64 bits. -/
def countNames : List String :=
  ["query_count", "replication_events", "replication_failures", "error_count", "uptime_secs"]

/-- A value of the type of a field: the text of an instant, a count in its range, or any number. -/
def Acceptable (name : String) (n : Node) : Prop :=
  if name = "timestamp" then ∃ text t, n = .text (some text) ∧ Timestamp.read? text = some t
  else if name = "peer_count" then ∃ i : ℕ, i < UInt32.size ∧ n = .num (some (.int i))
  else if name ∈ countNames then ∃ i : ℕ, i < UInt64.size ∧ n = .num (some (.int i))
  else ∃ m, n = .num (some m)

section

variable {n : Node} {name : String}

theorem takes_quantity_iff {get : Sample → Float} {set : Float → Sample → Sample}
    (other : name ∉ "timestamp" :: "peer_count" :: countNames) :
    (quantity name get set).field.Takes n ↔ Acceptable name n := by
  simp only [List.mem_cons, not_or] at other
  rw [Column.field, Field.takes_of_iff]
  simp [quantity, Acceptable, other, float_eq_ok_iff]

theorem takes_count_iff {get : Sample → UInt64} {set : UInt64 → Sample → Sample}
    (counted : name ∈ countNames) :
    (count name get set).field.Takes n ↔ Acceptable name n := by
  have others : ∀ k ∈ countNames, k ≠ "timestamp" ∧ k ≠ "peer_count" := by decide
  rw [Column.field, Field.takes_of_iff]
  simp [count, wide, word, Acceptable, others name counted, counted, exists_map_eq_ok_iff,
    nat_eq_ok_iff, UInt64.size]

theorem takes_timestampColumn_iff : timestampColumn.field.Takes n ↔ Acceptable "timestamp" n := by
  rw [Column.field, Field.takes_of_iff]
  simp [timestampColumn, instant, Acceptable, textWith_eq_ok_iff, exists_comm]

theorem takes_peersColumn_iff : peersColumn.field.Takes n ↔ Acceptable "peer_count" n := by
  rw [Column.field, Field.takes_of_iff]
  simp [peersColumn, narrow, word, Acceptable, exists_map_eq_ok_iff, nat_eq_ok_iff, UInt32.size]

/-- A field takes the values of its type. -/
theorem takes_iff : ∀ f ∈ fields, f.Takes n ↔ Acceptable f.name n := by
  rw [fields, List.forall_mem_map]
  simp only [columns, List.forall_mem_cons]
  and_intros
  all_goals first
    | exact takes_quantity_iff (by decide)
    | exact takes_count_iff (by decide)
    | exact takes_timestampColumn_iff
    | exact takes_peersColumn_iff
    | exact List.forall_mem_nil _

end

/-! ## Decoding -/

section

variable {n : Node} {name : String} {ms : List (Option String × Node)} {ns : List Node}
  {given given' : String → Option Node} {dialect : Dialect} {closed : Bool} {s t : Sample}

theorem names_eq : fields.map (·.name) = names := rfl

theorem decode_table_iff : decode dialect (.table ms closed) = .ok s ↔
    closed = true ∧ Tidy fields ms ∧ Overlays (lookup ms) s := by
  rw [decode, read_table_iff apart_fields, overlay?_fields_iff]

theorem decode_list_iff : decode dialect (.list ns closed) = .ok s ↔
    closed = true ∧ (dialect.surplus = true ∨ ns.length ≤ names.length) ∧
      Overlays (lookup (named (names.zip ns))) s := by
  have length : fields.length = names.length := rfl
  rw [decode, read_list_iff apart_fields.distinct, overlay?_fields_iff, names_eq, length]

theorem overlays_congr (same : ∀ name ∈ names, given name = given' name) :
    Overlays given s ↔ Overlays given' s := by
  rw [← names_eq, List.forall_mem_map] at same
  rw [← overlay?_fields_iff, ← overlay?_fields_iff, overlay?_congr same]

theorem Overlays.unique (first : Overlays given s) (second : Overlays given t) : s = t :=
  Option.some.inj ((overlay?_fields_iff.2 first).symm.trans (overlay?_fields_iff.2 second))

/-- Values can be laid over a sample just where each is of the type of its field. -/
theorem exists_overlays_iff :
    (∃ s, Overlays given s) ↔ ∀ name ∈ names, ∀ n, given name = some n → Acceptable name n := by
  rw [← exists_congr fun s => overlay?_fields_iff, exists_overlay?_iff uniform_fields,
    ← names_eq, List.forall_mem_map]
  exact forall₂_congr fun f mem => forall_congr' fun n => by rw [takes_iff f mem]

theorem count_le_one_of_decode (read : decode dialect (.table ms closed) = .ok s)
    (known : name ∈ names) : (ms.map (·.1)).count (some name) ≤ 1 := by
  obtain ⟨-, tidy, -⟩ := decode_table_iff.1 read
  rw [← names_eq, List.mem_map] at known
  obtain ⟨f, mem, rfl⟩ := known
  exact tidy.once f mem

theorem acceptable_of_decode_table (read : decode dialect (.table ms closed) = .ok s)
    (known : name ∈ names) (mem : (some name, n) ∈ ms) : Acceptable name n := by
  have once := count_le_one_of_decode read known
  obtain ⟨-, -, laid⟩ := decode_table_iff.1 read
  exact exists_overlays_iff.1 ⟨s, laid⟩ name known n ((lookup_eq_some_iff once).2 mem)

theorem acceptable_of_decode_list (read : decode dialect (.list ns closed) = .ok s)
    (mem : (name, n) ∈ names.zip ns) : Acceptable name n := by
  have distinct : ((names.zip ns).map (·.1)).Nodup :=
    (prefix_map_fst_zip names ns).sublist.nodup apart_fields.distinct
  have once : ((named (names.zip ns)).map (·.1)).count (some name) ≤ 1 := by
    rw [count_named]
    exact List.nodup_iff_count_le_one.1 distinct name
  obtain ⟨-, -, laid⟩ := decode_list_iff.1 read
  exact exists_overlays_iff.1 ⟨s, laid⟩ name (List.of_mem_zip mem).1 n
    ((lookup_eq_some_iff once).2 (mem_named.2 mem))

end

/-- Acceptable values for some of the fields, in any order. -/
structure Assigns (assigned : List (String × Node)) : Prop where
  distinct : (assigned.map (·.1)).Nodup
  known : ∀ m ∈ assigned, m.1 ∈ names
  acceptable : ∀ m ∈ assigned, Acceptable m.1 m.2

section

variable {assigned others : List (String × Node)} (assigns : Assigns assigned)

include assigns

theorem Assigns.exists_overlays : ∃ s, Overlays (lookup (named assigned)) s := by
  refine exists_overlays_iff.2 fun name _ n given => ?_
  have once : ((named assigned).map (·.1)).count (some name) ≤ 1 := by
    rw [count_named]
    exact List.nodup_iff_count_le_one.1 assigns.distinct name
  exact assigns.acceptable _ (mem_named.1 ((lookup_eq_some_iff once).1 given))

variable {s : Sample} (laid : Overlays (lookup (named assigned)) s)

include laid

/-- A table of assigned members, among others that are passed over. -/
theorem Assigns.decode_table {ms : List (Option String × Node)} (dialect : Dialect)
    (unknown : ∀ m ∈ others, m.1 ∉ names) (passable : ∀ m ∈ others, m.2.passable = true)
    (perm : ms.Perm (named (assigned ++ others))) :
    decode dialect (.table ms true) = .ok s := by
  refine decode_table_iff.2 ⟨rfl, ?_, ?_⟩
  · exact tidy_of_perm assigns.distinct assigns.known unknown passable perm
  · refine (overlays_congr fun name known => ?_).2 laid
    refine lookup_of_perm ?_ perm (List.nodup_iff_count_le_one.1 assigns.distinct name)
    exact fun m mem same => unknown m mem (same ▸ known)

omit assigns in
theorem decode_list_of_first (dialect : Dialect) (first : assigned.map (·.1) <+: names) :
    decode dialect (.list (assigned.map (·.2)) true) = .ok s := by
  refine decode_list_iff.2 ⟨rfl, .inr ?_, ?_⟩
  · have := first.length_le
    simpa using this
  · rw [zip_map_snd first]
    exact laid

end

/-- **Decoding is laying over the empty sample.**  Acceptable values for some of the fields give one
sample: the empty one with these values in their fields.  It is what is decoded from a table of the
values in any order and among any members with other names, and from the list of the values if they
are those of the first fields.  A table that repeats a field is not decoded, and neither is a table
or a list with a value that is not of the type of its field. -/
theorem decode_overlay :
    (∀ assigned, Assigns assigned → ∃ s, Overlays (lookup (named assigned)) s ∧
      (∀ t, Overlays (lookup (named assigned)) t → t = s) ∧
      (∀ others ms, (∀ m ∈ others, m.1 ∉ names) → (∀ m ∈ others, m.2.passable = true) →
        ms.Perm (named (assigned ++ others)) → decode Json.dialect (.table ms true) = .ok s) ∧
      (assigned.map (·.1) <+: names →
        decode Json.dialect (.list (assigned.map (·.2)) true) = .ok s)) ∧
    (∀ ms closed, ∀ name ∈ names, 2 ≤ (ms.map (·.1)).count (some name) →
      ∀ s, decode Json.dialect (.table ms closed) ≠ .ok s) ∧
    (∀ ms closed, ∀ name ∈ names, ∀ n, (some name, n) ∈ ms → ¬ Acceptable name n →
      ∀ s, decode Json.dialect (.table ms closed) ≠ .ok s) ∧
    (∀ ns closed name n, (name, n) ∈ names.zip ns → ¬ Acceptable name n →
      ∀ s, decode Json.dialect (.list ns closed) ≠ .ok s) := by
  refine ⟨fun assigned assigns => ?_, ?_, ?_, ?_⟩
  · obtain ⟨s, laid⟩ := assigns.exists_overlays
    refine ⟨s, laid, fun t other => other.unique laid, ?_, ?_⟩
    · exact fun others ms => assigns.decode_table laid Json.dialect
    · exact decode_list_of_first laid Json.dialect
  · intro ms closed name known twice s read
    have once := count_le_one_of_decode read known
    omega
  · intro ms closed name known n mem wrong s read
    exact wrong (acceptable_of_decode_table read known mem)
  · intro ns closed name n mem wrong s read
    exact wrong (acceptable_of_decode_list read mem)

/-- An instant and a load, in the other order with a table between them, or as a list. -/
theorem decode_overlay_of_two :
    let instant : Node := .text (some "2024-05-01T12:00:00Z")
    let load : Node := .num (some (.float 42.5))
    let note : Node := .table [(some "cpu_usage", .null)] true
    Assigns [("timestamp", instant), ("cpu_usage", load)] ∧ ∃ s : Sample,
      s.cpuUsage = 42.5 ∧ s.memoryTotal = 0 ∧ s.peerCount = 0 ∧
      decode Json.dialect (.table [(some "cpu_usage", load), (some "note", note),
        (some "timestamp", instant)] true) = .ok s ∧
      decode Json.dialect (.list [instant, load] true) = .ok s := by
  intro instant load note
  have assigns : Assigns [("timestamp", instant), ("cpu_usage", load)] := by
    refine ⟨by decide, by decide, ?_⟩
    obtain ⟨t, read⟩ := Option.isSome_iff_exists.1
      (show (Timestamp.read? "2024-05-01T12:00:00Z").isSome = true by decide +kernel)
    simp only [List.forall_mem_cons]
    exact ⟨⟨_, t, rfl, read⟩, ⟨_, rfl⟩, List.forall_mem_nil _⟩
  obtain ⟨s, laid, -, table, list⟩ := decode_overlay.1 _ assigns
  refine ⟨assigns, s, (Except.ok.inj laid.cpuUsage).symm, laid.memoryTotal, ?_, ?_, ?_⟩
  · exact UInt32.toNat_inj.1 laid.peerCount
  · refine table [("note", note)] _ (by decide) ?_ ?_
    · rintro m mem
      rw [List.mem_singleton.1 mem]
      rfl
    · exact List.perm_append_singleton _ [(some "cpu_usage", load), (some "note", note)]
  · exact list ⟨_, rfl⟩

end Sample

end Prognosis
