import Prognosis.Proofs.Document.Record
import Prognosis.Proofs.Settings
import Prognosis.Proofs.Settings.Tables
import Prognosis.Proofs.Toml.Range

/-!
# Settings there and back

Accepted settings can be written, and their text is read as the same settings (`parse_write`): the
tables of a document of settings are decoded to what they were made from (`ofTable_members`), and
no number of an accepted document is too large for another one (`writable_of_parse`).
-/

namespace Prognosis

open Document Toml Decoder

/-! ## Parts -/

theorem float_toNode (x : Float) : float (floatValue x).toNode = .ok x := rfl

theorem Tuning.read_given {t : Tuning Float} (small : t.window < UInt64.size) :
    Record.read dialect fields .standard (Value.table t.given).toNode = .ok t := by
  refine Record.read_toNode ?_ dialect
  rw [given, Record.members_of rfl (by simp) (nat_toNode small),
    Record.members_of rfl (by simp) (float_toNode _),
    Record.members_of rfl (by simp) (float_toNode _)]
  rfl

theorem Serving.read_given {s : Serving} (small_capacity : s.historyCapacity < UInt64.size)
    (small_nodes : s.maxNodes < UInt64.size) :
    Record.read dialect fields {} (Value.table s.given).toNode = .ok s := by
  refine Record.read_toNode ?_ dialect
  rw [given, Record.members_of rfl (by simp) (text_toNode _),
    Record.members_of rfl (by simp) (nat_toNode small_capacity),
    Record.members_of rfl (by simp) (nat_toNode small_nodes)]
  rfl

theorem LogFormat.named_name (f : LogFormat) (dialect : Dialect) :
    named dialect (Value.text f.name).toNode = .ok f :=
  named_toNode (by cases f <;> rfl) dialect

theorem Logging.read_given (l : Logging) :
    Record.read dialect fields {} (Value.table l.given).toNode = .ok l := by
  refine Record.read_toNode ?_ dialect
  rw [given, Record.members_of rfl (by simp) (text_toNode _),
    Record.members_of rfl (by simp) (l.format.named_name _)]
  rfl

/-! ## Rules -/

section

variable {dialect : Dialect}

theorem Trigger.body_given (k : Kind) {t : Trigger Float} {ms : Fields} {d : Draft}
    (taken : Record.members (fieldsOf k) (memberNodesOf ms) [] {} = .ok d)
    (complete : ofDraft? k d = some t) : body dialect k (Value.table ms).toNode = .ok t := by
  unfold body
  rw [Record.read_toNode taken]
  show orMismatch (ofDraft? k d) = _
  rw [complete]
  rfl

theorem Trigger.tagged_given (t : Trigger Float) :
    tagged dialect (Value.table t.given).toNode = .ok t := by
  cases t with
  | trending t c =>
    refine @body_given dialect .trending _
      [("min_trend", floatValue t), ("min_current", floatValue c)] ⟨some t, some c⟩ ?_ rfl
    rw [Record.members_of rfl (by simp) (float_toNode t),
      Record.members_of rfl (by simp) (float_toNode c)]
    rfl
  | elevated c =>
    refine @body_given dialect .elevated _ [("min_current", floatValue c)] ⟨none, some c⟩ ?_ rfl
    rw [Record.members_of rfl (by simp) (float_toNode c)]
    rfl

variable (room : dialect.room = none)

include room

theorem Trigger.decode_given (t : Trigger Float) :
    decode dialect (Value.table t.given).toNode = .ok t :=
  kept_toNode room t.tagged_given

theorem Arm.decode_members (a : Arm Float) :
    decode dialect (Value.table a.members).toNode = .ok a := by
  have trigger := Trigger.decode_given room a.trigger
  have taken : Record.members (fields dialect) (memberNodesOf a.members) [] {} =
      .ok ⟨some a.trigger, some a.points, a.projection, some a.label⟩ := by
    unfold members given
    cases a.projection with
    | none =>
      simp only [projected, List.nil_append, List.cons_append]
      rw [Record.members_of rfl (by simp) (float_toNode a.points),
        Record.members_of rfl (by simp) (text_toNode a.label),
        Record.members_of rfl (by simp) trigger]
      rfl
    | some p =>
      have projection : optional float (floatValue p).toNode = .ok (some p) := rfl
      simp only [projected, List.nil_append, List.cons_append]
      rw [Record.members_of rfl (by simp) (float_toNode a.points),
        Record.members_of rfl (by simp) projection,
        Record.members_of rfl (by simp) (text_toNode a.label),
        Record.members_of rfl (by simp) trigger]
      rfl
  unfold decode
  rw [Record.read_toNode taken]
  rfl

theorem Rule.decode_members (r : Rule Float) :
    decode dialect (Value.table r.members).toNode = .ok r := by
  have arms := list_toNode (Arm.decode_members room) r.arms
  have taken : Record.members (fields dialect) (memberNodesOf r.members) [] {} =
      .ok ⟨some r.signal, some r.severity, some r.arms⟩ := by
    unfold members names
    simp only [List.nil_append, List.cons_append]
    rw [Record.members_of rfl (by simp) (r.signal.named_name _),
      Record.members_of rfl (by simp) (r.severity.named_name _),
      Record.members_of rfl (by simp) arms]
    rfl
  unfold decode
  rw [Record.read_toNode taken]
  rfl

end

theorem Rule.decodeAll_members (rules : List (Rule Float)) :
    decodeAll dialect (Value.list (rules.map fun r => .table r.members)).toNode = .ok rules :=
  list_toNode (Rule.decode_members rfl) rules

/-! ## All settings -/

namespace Settings

theorem ofTable_members {s : Settings} (writable : s.Writable) : ofTable s.members = .ok s := by
  obtain ⟨window, capacity, nodes⟩ := writable
  have word : Decimal.halfWord ≤ UInt64.size := by decide
  have engine := Tuning.read_given (window.trans_le word)
  have serving := Serving.read_given (capacity.trans_le word) (nodes.trans_le word)
  have logging := s.logging.read_given
  refine Record.read_toNode ?_ dialect
  unfold members tables
  cases given : s.rules with
  | none =>
    dsimp only
    rw [Record.members_of rfl (by simp) engine, Record.members_of rfl (by simp) serving,
      Record.members_of rfl (by simp) logging, memberNodesOf, Record.members, ← given]
  | some rules =>
    have all := Rule.decodeAll_members rules
    cases rules with
    | nil =>
      dsimp only
      rw [List.map_nil] at all
      rw [Record.members_of rfl (by simp) all, Record.members_of rfl (by simp) engine,
        Record.members_of rfl (by simp) serving, Record.members_of rfl (by simp) logging,
        memberNodesOf, Record.members, ← given]
    | cons r rules =>
      simp only [List.cons_append, List.nil_append]
      rw [Record.members_of rfl (by simp) engine, Record.members_of rfl (by simp) serving,
        Record.members_of rfl (by simp) logging, Record.members_of rfl (by simp) all,
        memberNodesOf, Record.members, ← given]

/-- What is written of valid settings is read as these settings. -/
theorem parse_toToml {s : Settings} (writable : s.Writable) (valid : s.Valid) :
    parse s.toToml = .ok s :=
  parse_eq_ok_iff.2 ⟨s.members, parse?_toToml writable, ofTable_members writable, valid⟩

end Settings

/-! ## What is accepted can be written -/

/-- A tree of a value of documents. -/
def FitsNode (n : Node) : Prop := ∃ v : Value, Fits v ∧ v.toNode = n

theorem hereditary_fitsNode : Hereditary FitsNode where
  items := by
    rintro ns closed ⟨v, fits, shape⟩
    cases fits with
    | list items =>
      cases shape
      rw [nodesOf_eq_map, List.forall_mem_map]
      exact fun v mem => ⟨v, items v mem, rfl⟩
    | _ => cases shape
  members := by
    rintro ms closed ⟨v, fits, shape⟩
    cases fits with
    | table distinct members =>
      cases shape
      rw [memberNodesOf_eq_map, List.forall_mem_map]
      exact fun m mem => ⟨m.2, members m mem, rfl⟩
    | _ => cases shape

theorem lt_of_nat {bound n : ℕ} {node : Node} (fits : FitsNode node)
    (read : nat bound node = .ok n) : n < Decimal.halfWord := by
  obtain ⟨v, fits, rfl⟩ := fits
  obtain ⟨-, shape⟩ := nat_eq_ok_iff.1 read
  cases fits with
  | int low high =>
    cases shape
    omega
  | _ => cases shape

theorem Tuning.window_lt_of_read {t : Tuning Float} {node : Node} (fits : FitsNode node)
    (read : Record.read dialect fields .standard node = .ok t) : t.window < Decimal.halfWord := by
  have keeps : ∀ f ∈ fields, f.Keeps FitsNode fun t => t.window < Decimal.halfWord := by
    simp only [fields, List.forall_mem_cons]
    refine ⟨?_, ?_, ?_, List.forall_mem_nil _⟩
    · exact Record.Field.keeps_of fun _ _ _ fits read _ => lt_of_nat fits read
    all_goals exact Record.Field.keeps_of fun _ _ _ _ _ kept => kept
  exact Record.read_keeps keeps hereditary_fitsNode fits (by decide) read

theorem Serving.lt_of_read {s : Serving} {node : Node} (fits : FitsNode node)
    (read : Record.read dialect fields {} node = .ok s) :
    s.historyCapacity < Decimal.halfWord ∧ s.maxNodes < Decimal.halfWord := by
  have keeps : ∀ f ∈ fields, f.Keeps FitsNode fun s =>
      s.historyCapacity < Decimal.halfWord ∧ s.maxNodes < Decimal.halfWord := by
    simp only [fields, List.forall_mem_cons]
    refine ⟨?_, ?_, ?_, List.forall_mem_nil _⟩
    · exact Record.Field.keeps_of fun _ _ _ _ _ kept => kept
    · exact Record.Field.keeps_of fun _ _ _ fits read kept => ⟨lt_of_nat fits read, kept.2⟩
    · exact Record.Field.keeps_of fun _ _ _ fits read kept => ⟨kept.1, lt_of_nat fits read⟩
  exact Record.read_keeps keeps hereditary_fitsNode fits (by decide) read

namespace Settings

theorem writable_of_ofTable {ms : List (String × Value)} {s : Settings} (fits : Fits (.table ms))
    (read : ofTable ms = .ok s) : s.Writable := by
  have keeps : ∀ f ∈ fields, f.Keeps FitsNode Writable := by
    simp only [fields, List.forall_mem_cons]
    refine ⟨?_, ?_, ?_, ?_, List.forall_mem_nil _⟩
    · exact Record.Field.keeps_of fun _ _ _ fits read kept =>
        ⟨Tuning.window_lt_of_read fits read, kept.2⟩
    · exact Record.Field.keeps_of fun _ _ _ fits read kept =>
        ⟨kept.1, Serving.lt_of_read fits read⟩
    all_goals exact Record.Field.keeps_of fun _ _ _ _ _ kept => kept
  have start : Writable {} := by decide
  exact Record.read_keeps keeps hereditary_fitsNode ⟨_, fits, rfl⟩ start read

theorem writable_of_parse {text : String} {s : Settings} (accepted : parse text = .ok s) :
    s.Writable := by
  obtain ⟨ms, document, decoded, -⟩ := parse_eq_ok_iff.1 accepted
  exact writable_of_ofTable (fits_of_parse? document) decoded

/-- **There and back.**  Accepted settings can be written, and what is written is read as the same
settings. -/
theorem parse_write {text : String} {s : Settings} (accepted : parse text = .ok s) :
    ∃ written, s.write? = some written ∧ parse written = .ok s := by
  have writable := writable_of_parse accepted
  exact ⟨s.toToml, if_pos writable, parse_toToml writable (valid_of_parse accepted)⟩

/-- A rule whose points are a negative zero. -/
theorem parse_write_of_negative_zero :
    ∃ s written, parse (oneRule "-0.0") = .ok s ∧ s.write? = some written ∧
      parse written = .ok s := by
  have run : (parse (oneRule "-0.0")).toOption.isSome = true := by decide +kernel
  cases accepted : parse (oneRule "-0.0") with
  | error refusal =>
    rw [accepted] at run
    cases run
  | ok s =>
    obtain ⟨written, writes, back⟩ := parse_write accepted
    exact ⟨s, written, rfl, writes, back⟩

end Settings

end Prognosis
