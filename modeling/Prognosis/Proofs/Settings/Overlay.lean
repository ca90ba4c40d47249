import Prognosis.Proofs.Document.Overlay
import Prognosis.Proofs.Settings
import Prognosis.Proofs.Toml.Range

/-!
# Settings as overlays

The settings of a document are the defaults with the given values laid over them, key by key
(`Settings.ofTable_eq_ok_iff`).  The check reports the first of five conditions that does not hold
of them (`Settings.check_eq_report`), wherever the values it looks at come from.
-/

namespace Prognosis

open Document Decoder Record Toml

/-! ## Tables -/

section

variable {given : String → Option Node}

theorem Tuning.apart_fields : Apart fields where
  distinct := by decide
  independent := by simp [fields, Field.independent_of]

theorem Tuning.overlay?_fields_iff {t : Tuning Float} :
    overlay? fields given .standard = some t ↔
      Filled (nat UInt64.size) (given "window_size") 12 t.window ∧
      Filled float (given "samples_per_hour") 12 t.samplesPerHour ∧
      Filled float (given "horizon_hours") 4 t.horizonHours := by
  constructor
  · intro laid
    obtain ⟨_, window, laid⟩ := (overlay?_cons_of_iff rfl).1 laid
    obtain ⟨_, cadence, laid⟩ := (overlay?_cons_of_iff rfl).1 laid
    obtain ⟨_, horizon, laid⟩ := (overlay?_cons_of_iff rfl).1 laid
    cases laid
    exact ⟨window, cadence, horizon⟩
  · rintro ⟨window, cadence, horizon⟩
    refine (overlay?_cons_of_iff rfl).2 ⟨_, window, ?_⟩
    refine (overlay?_cons_of_iff rfl).2 ⟨_, cadence, ?_⟩
    refine (overlay?_cons_of_iff rfl).2 ⟨_, horizon, ?_⟩
    rfl

theorem Serving.apart_fields : Apart fields where
  distinct := by decide
  independent := by simp [fields, Field.independent_of]

theorem Serving.overlay?_fields_iff {s : Serving} :
    overlay? fields given {} = some s ↔
      Filled text (given "listen_address") "0.0.0.0:8080" s.listenAddress ∧
      Filled (nat UInt64.size) (given "history_capacity") 288 s.historyCapacity ∧
      Filled (nat UInt64.size) (given "max_nodes") 1024 s.maxNodes := by
  constructor
  · intro laid
    obtain ⟨_, address, laid⟩ := (overlay?_cons_of_iff rfl).1 laid
    obtain ⟨_, capacity, laid⟩ := (overlay?_cons_of_iff rfl).1 laid
    obtain ⟨_, nodes, laid⟩ := (overlay?_cons_of_iff rfl).1 laid
    cases laid
    exact ⟨address, capacity, nodes⟩
  · rintro ⟨address, capacity, nodes⟩
    refine (overlay?_cons_of_iff rfl).2 ⟨_, address, ?_⟩
    refine (overlay?_cons_of_iff rfl).2 ⟨_, capacity, ?_⟩
    refine (overlay?_cons_of_iff rfl).2 ⟨_, nodes, ?_⟩
    rfl

theorem Logging.apart_fields : Apart fields where
  distinct := by decide
  independent := by simp [fields, Field.independent_of]

theorem Logging.overlay?_fields_iff {l : Logging} :
    overlay? fields given {} = some l ↔
      Filled text (given "level") "info" l.level ∧
      Filled (named dialect) (given "format") .text l.format := by
  constructor
  · intro laid
    obtain ⟨_, level, laid⟩ := (overlay?_cons_of_iff rfl).1 laid
    obtain ⟨_, format, laid⟩ := (overlay?_cons_of_iff rfl).1 laid
    cases laid
    exact ⟨level, format⟩
  · rintro ⟨level, format⟩
    refine (overlay?_cons_of_iff rfl).2 ⟨_, level, ?_⟩
    refine (overlay?_cons_of_iff rfl).2 ⟨_, format, ?_⟩
    rfl

end

namespace Settings

theorem apart_fields : Apart fields where
  distinct := by decide
  independent := by simp [fields, Field.independent_of]

theorem overlay?_fields_iff {given : String → Option Node} {s : Settings} :
    overlay? fields given {} = some s ↔
      Filled (Record.read dialect Tuning.fields .standard) (given "engine") .standard s.engine ∧
      Filled (Record.read dialect Serving.fields {}) (given "server") {} s.serving ∧
      Filled (Record.read dialect Logging.fields {}) (given "logging") {} s.logging ∧
      Filled (fun n => (Rule.decodeAll dialect n).map some) (given "rules") none s.rules := by
  have rules_field : (Field.of "rules" (Rule.decodeAll dialect) fun v (s : Settings) =>
        { s with rules := some v }) =
      .of "rules" (fun n => (Rule.decodeAll dialect n).map some) fun v s => { s with rules := v } :=
    Field.of_comp some fun v (s : Settings) => { s with rules := v }
  unfold fields
  rw [rules_field]
  constructor
  · intro laid
    obtain ⟨_, engine, laid⟩ := (overlay?_cons_of_iff rfl).1 laid
    obtain ⟨_, serving, laid⟩ := (overlay?_cons_of_iff rfl).1 laid
    obtain ⟨_, logging, laid⟩ := (overlay?_cons_of_iff rfl).1 laid
    obtain ⟨_, rules, laid⟩ := (overlay?_cons_of_iff rfl).1 laid
    cases laid
    exact ⟨engine, serving, logging, rules⟩
  · rintro ⟨engine, serving, logging, rules⟩
    refine (overlay?_cons_of_iff rfl).2 ⟨_, engine, ?_⟩
    refine (overlay?_cons_of_iff rfl).2 ⟨_, serving, ?_⟩
    refine (overlay?_cons_of_iff rfl).2 ⟨_, logging, ?_⟩
    refine (overlay?_cons_of_iff rfl).2 ⟨_, rules, ?_⟩
    rfl

/-! ## Documents -/

/-- What is given for a key of the document itself. -/
def given (ms : List (String × Value)) : String → Option Node := lookup (memberNodesOf ms)

/-- What is given for a key inside a table of the document. -/
def inside (ms : List (String × Value)) (table : String) : String → Option Node :=
  within (given ms table)

/-- The defaults with what a document gives for its keys. -/
structure Overrides (ms : List (String × Value)) (e : Settings) : Prop where
  window : Filled (nat UInt64.size) (inside ms "engine" "window_size") 12 e.engine.window
  samplesPerHour : Filled float (inside ms "engine" "samples_per_hour") 12 e.engine.samplesPerHour
  horizonHours : Filled float (inside ms "engine" "horizon_hours") 4 e.engine.horizonHours
  listenAddress :
    Filled text (inside ms "server" "listen_address") "0.0.0.0:8080" e.serving.listenAddress
  historyCapacity :
    Filled (nat UInt64.size) (inside ms "server" "history_capacity") 288 e.serving.historyCapacity
  maxNodes : Filled (nat UInt64.size) (inside ms "server" "max_nodes") 1024 e.serving.maxNodes
  level : Filled text (inside ms "logging" "level") "info" e.logging.level
  format : Filled (named dialect) (inside ms "logging" "format") .text e.logging.format
  rules : Filled (fun n => (Rule.decodeAll dialect n).map some) (given ms "rules") none e.rules

/-- Each key that is present has a value of its type. -/
structure Typed (ms : List (String × Value)) : Prop where
  tables : ∀ table ∈ ["engine", "server", "logging"], ∀ n, given ms table = some n →
    ∃ members, n = .table members true
  window : ∀ n, inside ms "engine" "window_size" = some n → ∃ b, nat UInt64.size n = .ok b
  samplesPerHour : ∀ n, inside ms "engine" "samples_per_hour" = some n → ∃ x, float n = .ok x
  horizonHours : ∀ n, inside ms "engine" "horizon_hours" = some n → ∃ x, float n = .ok x
  listenAddress : ∀ n, inside ms "server" "listen_address" = some n → ∃ s, text n = .ok s
  historyCapacity : ∀ n, inside ms "server" "history_capacity" = some n →
    ∃ b, nat UInt64.size n = .ok b
  maxNodes : ∀ n, inside ms "server" "max_nodes" = some n → ∃ b, nat UInt64.size n = .ok b
  level : ∀ n, inside ms "logging" "level" = some n → ∃ s, text n = .ok s
  format : ∀ n, inside ms "logging" "format" = some n →
    ∃ f : LogFormat, named dialect n = .ok f
  rules : ∀ n, given ms "rules" = some n → ∃ rules, Rule.decodeAll dialect n = .ok rules

section

variable {ms : List (String × Value)} {e : Settings}

theorem Typed.exists_overrides (typed : Typed ms) : ∃ e, Overrides ms e := by
  obtain ⟨window, window_size⟩ := exists_filled_iff.2 typed.window
  obtain ⟨samplesPerHour, samples_per_hour⟩ := exists_filled_iff.2 typed.samplesPerHour
  obtain ⟨horizonHours, horizon_hours⟩ := exists_filled_iff.2 typed.horizonHours
  obtain ⟨listenAddress, listen_address⟩ := exists_filled_iff.2 typed.listenAddress
  obtain ⟨historyCapacity, history_capacity⟩ := exists_filled_iff.2 typed.historyCapacity
  obtain ⟨maxNodes, max_nodes⟩ := exists_filled_iff.2 typed.maxNodes
  obtain ⟨level, level_given⟩ := exists_filled_iff.2 typed.level
  obtain ⟨format, format_given⟩ := exists_filled_iff.2 typed.format
  have some_rules : ∀ n, given ms "rules" = some n →
      ∃ rules, (Rule.decodeAll dialect n).map some = .ok rules := by
    intro n present
    obtain ⟨rules, read⟩ := typed.rules n present
    exact ⟨some rules, by rw [read]; rfl⟩
  obtain ⟨rules, rules_given⟩ := exists_filled_iff.2 some_rules
  exact ⟨⟨⟨window, samplesPerHour, horizonHours⟩, ⟨listenAddress, historyCapacity, maxNodes⟩,
    ⟨level, format⟩, rules⟩, window_size, samples_per_hour, horizon_hours, listen_address,
    history_capacity, max_nodes, level_given, format_given, rules_given⟩

variable (fits : Fits (.table ms))

include fits

theorem tidy_of_given {δ : Type} (fields : List (Record.Field δ)) {name : String}
    (table : ∀ n, given ms name = some n → ∃ members, n = .table members true) :
    ∀ n, given ms name = some n → ∃ members, n = .table members true ∧ Tidy fields members := by
  intro n present
  have mem := mem_of_lookup present
  rw [memberNodesOf_eq_map] at mem
  obtain ⟨⟨k, v⟩, v_mem, same⟩ := List.mem_map.1 mem
  cases same
  obtain ⟨members, shape⟩ := table _ present
  cases fits with
  | table _ values =>
    have v_fits : Fits v := values (k, v) v_mem
    cases v_fits with
    | table distinct _ => exact ⟨_, rfl, tidy_memberNodesOf distinct⟩
    | _ => cases shape

/-- **Decoding.**  The settings of a document are the defaults with the given values. -/
theorem ofTable_eq_ok_iff (typed : Typed ms) : ofTable ms = .ok e ↔ Overrides ms e := by
  have tidy : Tidy fields (memberNodesOf ms) := by
    cases fits with
    | table distinct _ => exact tidy_memberNodesOf distinct
  have engine := tidy_of_given fits Tuning.fields (typed.tables "engine" (by decide))
  have server := tidy_of_given fits Serving.fields (typed.tables "server" (by decide))
  have logging := tidy_of_given fits Logging.fields (typed.tables "logging" (by decide))
  have laid_iff : ofTable ms = .ok e ↔ overlay? fields (given ms) {} = some e := by
    rw [ofTable, Value.toNode, read_table_iff apart_fields, and_iff_right rfl, and_iff_right tidy]
    rfl
  rw [laid_iff, overlay?_fields_iff, filled_read_iff Tuning.apart_fields engine,
    Tuning.overlay?_fields_iff, filled_read_iff Serving.apart_fields server,
    Serving.overlay?_fields_iff, filled_read_iff Logging.apart_fields logging,
    Logging.overlay?_fields_iff]
  constructor
  · rintro ⟨⟨h₁, h₂, h₃⟩, ⟨h₄, h₅, h₆⟩, ⟨h₇, h₈⟩, h₉⟩
    exact ⟨h₁, h₂, h₃, h₄, h₅, h₆, h₇, h₈, h₉⟩
  · rintro ⟨h₁, h₂, h₃, h₄, h₅, h₆, h₇, h₈, h₉⟩
    exact ⟨⟨h₁, h₂, h₃⟩, ⟨h₄, h₅, h₆⟩, ⟨h₇, h₈⟩, h₉⟩

end

/-! ## The check -/

/-- The conditions on settings in the order in which they are looked at, each with what is reported
if it does not hold. -/
def conditions (e : Settings) : List (Bool × Violation) :=
  [ (2 ≤ e.engine.window, .windowTooSmall e.engine.window),
    (e.engine.samplesPerHour.isFinite && 0.0 < e.engine.samplesPerHour,
      .invalidCadence e.engine.samplesPerHour),
    (!e.engine.horizonHours.isNaN && 0.0 < e.engine.horizonHours,
      .invalidHorizon e.engine.horizonHours),
    (e.engine.window ≤ e.serving.historyCapacity,
      .historyTooSmall e.serving.historyCapacity e.engine.window),
    (1 ≤ e.serving.maxNodes, .noNodes) ]

/-- What is reported for conditions: the first one that does not hold. -/
def report (cs : List (Bool × Violation)) : Except Violation Unit :=
  (cs.find? fun c => !c.1).elim (.ok ()) fun c => .error c.2

section

variable {holds : Bool} {v : Violation} {cs : List (Bool × Violation)}

theorem report_cons_of_holds (sound : holds = true) : report ((holds, v) :: cs) = report cs := by
  rw [report, report, List.find?_cons_of_neg (by simp [sound])]

theorem report_cons_of_broken (broken : holds = false) :
    report ((holds, v) :: cs) = .error v := by
  rw [report, List.find?_cons_of_pos (by simp [broken])]
  rfl

end

/-- The check goes through the conditions in their order. -/
theorem check_eq_report (e : Settings) : e.check = report e.conditions := by
  unfold check Tuning.check conditions
  by_cases window : e.engine.window < 2
  · rw [if_pos window, report_cons_of_broken (by simpa using window)]
    rfl
  rw [if_neg window, report_cons_of_holds (decide_eq_true (Nat.le_of_not_lt window))]
  by_cases cadence : e.engine.samplesPerHour.isFinite = true ∧ 0.0 < e.engine.samplesPerHour
  case neg =>
    rw [if_pos cadence, report_cons_of_broken (by simpa using cadence)]
    rfl
  rw [if_neg (not_not_intro cadence), report_cons_of_holds (by simpa using cadence)]
  by_cases horizon : 0.0 < e.engine.horizonHours
  case neg =>
    rw [if_pos horizon, report_cons_of_broken (by simp [horizon])]
    rfl
  have number : e.engine.horizonHours.isNaN = false := (Binary64.defined_of_lt horizon).2
  rw [if_neg (not_not_intro horizon), report_cons_of_holds (by rw [number]; simpa using horizon)]
  by_cases capacity : e.serving.historyCapacity < e.engine.window
  · rw [if_pos capacity, report_cons_of_broken (by simpa using capacity)]
    rfl
  rw [if_neg capacity, report_cons_of_holds (by simpa using capacity)]
  by_cases nodes : e.serving.maxNodes = 0
  · rw [if_pos nodes, report_cons_of_broken (by simp [nodes])]
    rfl
  · rw [if_neg nodes, report_cons_of_holds (by simpa [Nat.one_le_iff_ne_zero] using nodes)]
    rfl

/-! ## Parsing -/

/-- **Parsing.**  Let a document have a value of the right type for each key that is present.  Its
values laid over the defaults are the settings that are accepted, if all conditions hold of them;
otherwise the first one that does not is reported. -/
theorem parse_overlay {text : String} {ms : List (String × Value)}
    (document : Toml.parse? text = some ms) (typed : Typed ms) :
    ∃ e, Overrides ms e ∧ (∀ other, Overrides ms other → other = e) ∧
      (∀ s, parse text = .ok s ↔ s = e ∧ ∀ c ∈ e.conditions, c.1 = true) ∧
      (∀ r, parse text = .error r ↔
        ∃ c, e.conditions.find? (fun c => !c.1) = some c ∧ r = .invalid c.2) := by
  obtain ⟨e, overrides⟩ := typed.exists_overrides
  have decodes {s : Settings} (laid : Overrides ms s) : ofTable ms = .ok s :=
    (ofTable_eq_ok_iff (fits_of_parse? document) typed).2 laid
  have unique (other : Settings) (laid : Overrides ms other) : other = e :=
    Except.ok.inj ((decodes laid).symm.trans (decodes overrides))
  have parsed : parse text = (e.conditions.find? fun c => !c.1).elim (.ok e)
      fun c => .error (.invalid c.2) := by
    unfold parse
    rw [document]
    dsimp only
    rw [decodes overrides]
    dsimp only
    rw [check_eq_report, report]
    cases e.conditions.find? fun c => !c.1 <;> rfl
  have all_hold : (e.conditions.find? fun c => !c.1) = none ↔ ∀ c ∈ e.conditions, c.1 = true := by
    simp
  refine ⟨e, overrides, unique, ?_, ?_⟩
  · intro s
    rw [parsed, ← all_hold]
    cases e.conditions.find? fun c => !c.1 <;> simp [eq_comm]
  · intro r
    rw [parsed]
    cases e.conditions.find? fun c => !c.1 <;> simp [eq_comm]

/-- A long window is refused for the history that goes with it by default. -/
theorem parse_overlay_of_long_window :
    let text := "[engine]\nnote = 1\nwindow_size = 300\n"
    ∃ ms, Toml.parse? text = some ms ∧ Typed ms ∧
      parse text = .error (.invalid (.historyTooSmall 288 300)) := by
  intro text
  let engine : List (String × Value) := [("note", .nat 1), ("window_size", .nat 300)]
  have document : Toml.parse? text = some [("engine", .table engine)] := by cbv
  have typed : Typed [("engine", .table engine)] := by
    constructor
    case tables =>
      simp only [List.forall_mem_cons]
      refine ⟨?_, ?_, ?_, List.forall_mem_nil _⟩
      · rintro n ⟨⟩
        exact ⟨_, rfl⟩
      all_goals rintro n ⟨⟩
    case window =>
      rintro n ⟨⟩
      exact ⟨300, rfl⟩
    all_goals rintro n ⟨⟩
  obtain ⟨e, overrides, -, -, refused⟩ := parse_overlay document typed
  refine ⟨_, document, typed, (refused _).2 ⟨(false, .historyTooSmall 288 300), ?_, rfl⟩⟩
  have window : 300 = e.engine.window := Except.ok.inj overrides.window
  have cadence : e.engine.samplesPerHour = 12 := overrides.samplesPerHour
  have horizon : e.engine.horizonHours = 4 := overrides.horizonHours
  have capacity : e.serving.historyCapacity = 288 := overrides.historyCapacity
  have cadence_holds : ((12 : Float).isFinite && 0.0 < (12 : Float)) = true := by decide +kernel
  have horizon_holds : (!(4 : Float).isNaN && 0.0 < (4 : Float)) = true := by decide +kernel
  rw [conditions, ← window, cadence, horizon, capacity]
  rw [List.find?_cons_of_neg (by simp), List.find?_cons_of_neg (by rw [cadence_holds]; decide),
    List.find?_cons_of_neg (by rw [horizon_holds]; decide)]
  rfl

end Settings

end Prognosis
