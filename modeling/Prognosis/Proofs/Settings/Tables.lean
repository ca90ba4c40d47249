import Prognosis.Proofs.Settings.Document

/-!
# The tables of settings

The keys and headers of a document of settings build a table for each part, for each rule and for
each arm (`build?_outline`), so that its text is read as these tables (`parse?_toToml`).
-/

namespace Prognosis

open Document Toml

/-! ## Tables as they are read -/

def Arm.members (a : Arm Float) : Fields := a.given ++ [("trigger", .table a.trigger.given)]

def Rule.members (r : Rule Float) : Fields :=
  r.names ++ [("arms", .list (r.arms.map fun a => .table a.members))]

namespace Settings

def tables (s : Settings) : Fields :=
  [("engine", .table s.engine.given), ("server", .table s.serving.given),
    ("logging", .table s.logging.given)]

def members (s : Settings) : Fields :=
  match s.rules with
  | none => s.tables
  | some [] => ("rules", .list []) :: s.tables
  | some rules => s.tables ++ [("rules", .list (rules.map fun r => .table r.members))]

end Settings

/-! ## Tables as they are built -/

/-- A table under a header of its own. -/
def headed (key : String) (fs : Fields) : Members := [(key, .table .header (entriesOf fs))]

def Arm.entries (a : Arm Float) : Members := entriesOf a.given ++ headed "trigger" a.trigger.given

def Rule.entries (r : Rule Float) : Members :=
  withTables "arms" (entriesOf r.given) (r.arms.map Arm.entries)

theorem find?_entriesOf {key : String} {fs : Fields} (absent : key ∉ fs.map (·.1)) :
    (entriesOf fs).find? key = none := by
  rw [Members.find?_eq_none_iff]
  simpa [entriesOf] using absent

theorem Trigger.nodup_given (t : Trigger Float) : (t.given.map (·.1)).Nodup := by
  cases t <;> simp [given]

theorem Arm.nodup_given (a : Arm Float) : (a.given.map (·.1)).Nodup := by
  unfold given
  cases a.projection <;> simp [projected]

theorem Arm.trigger_notMem_given (a : Arm Float) : "trigger" ∉ a.given.map (·.1) := by
  unfold given
  cases a.projection <;> simp [projected]

theorem Rule.nodup_given (r : Rule Float) : (r.given.map (·.1)).Nodup := by
  unfold given
  cases r.arms <;> simp [names]

section

variable {rest base : Members} (fresh_rules : rest.find? "rules" = none)
  (fresh_arms : base.find? "arms" = none)

include fresh_rules

theorem addTo?_rules {fs : Fields} (distinct : (fs.map (·.1)).Nodup) (all : List Members) :
    Section.addTo? ⟨true, ["rules"], keysOf fs⟩ (withTables "rules" rest all) =
      some (withTables "rules" rest (all ++ [entriesOf fs])) :=
  beginItem?_withTables fresh_rules distinct all

include fresh_arms

theorem addAll?_armSections (a : Arm Float) (all before : List Members) :
    addAll? (withTables "rules" rest (all ++ [withTables "arms" base before])) a.sections =
      some (withTables "rules" rest (all ++ [withTables "arms" base (before ++ [a.entries])])) := by
  have item : Section.addTo? ⟨true, ["rules", "arms"], keysOf a.given⟩
      (withTables "rules" rest (all ++ [withTables "arms" base before])) =
      some (withTables "rules" rest
        (all ++ [withTables "arms" base (before ++ [entriesOf a.given])])) := by
    show underHeader? (beginItem? "arms" (keysOf a.given)) ["rules"] _ = _
    rw [underHeader?_withTables fresh_rules, underHeader?,
      beginItem?_withTables fresh_arms a.nodup_given]
    rfl
  have trigger : Section.addTo? ⟨false, ["rules", "arms", "trigger"], keysOf a.trigger.given⟩
      (withTables "rules" rest
        (all ++ [withTables "arms" base (before ++ [entriesOf a.given])])) =
      some (withTables "rules" rest
        (all ++ [withTables "arms" base (before ++ [a.entries])])) := by
    show underHeader? (beginTable? "trigger" (keysOf a.trigger.given)) ["rules", "arms"] _ = _
    rw [underHeader?_withTables fresh_rules, underHeader?_withTables fresh_arms, underHeader?,
      beginTable?_fresh (find?_entriesOf a.trigger_notMem_given) a.trigger.nodup_given]
    rfl
  rw [Arm.sections, addAll?_cons, item, Option.bind_some, addAll?_cons, trigger]
  rfl

theorem addAll?_arms (arms : List (Arm Float)) (all before : List Members) :
    addAll? (withTables "rules" rest (all ++ [withTables "arms" base before]))
        (arms.flatMap Arm.sections) =
      some (withTables "rules" rest
        (all ++ [withTables "arms" base (before ++ arms.map Arm.entries)])) := by
  induction arms generalizing before with
  | nil =>
    rw [List.map_nil, List.append_nil]
    rfl
  | cons a arms ih =>
    rw [List.flatMap_cons, addAll?_append, addAll?_armSections fresh_rules fresh_arms,
      Option.bind_some, ih, List.append_assoc]
    rfl

omit fresh_arms

theorem addAll?_ruleSections (r : Rule Float) (all : List Members) :
    addAll? (withTables "rules" rest all) r.sections =
      some (withTables "rules" rest (all ++ [r.entries])) := by
  rw [Rule.sections, addAll?_cons, addTo?_rules fresh_rules r.nodup_given, Option.bind_some]
  unfold Rule.entries
  cases arms : r.arms with
  | nil => rfl
  | cons a more =>
    have given : r.given = r.names := by simp [Rule.given, arms]
    have fresh : (entriesOf r.given).find? "arms" = none := by
      rw [given]
      exact find?_entriesOf (by simp [Rule.names])
    exact addAll?_arms fresh_rules fresh (a :: more) all []

theorem addAll?_rules (rules : List (Rule Float)) (all : List Members) :
    addAll? (withTables "rules" rest all) (rules.flatMap Rule.sections) =
      some (withTables "rules" rest (all ++ rules.map Rule.entries)) := by
  induction rules generalizing all with
  | nil =>
    rw [List.map_nil, List.append_nil]
    rfl
  | cons r rules ih =>
    rw [List.flatMap_cons, addAll?_append, addAll?_ruleSections fresh_rules, Option.bind_some, ih,
      List.append_assoc]
    rfl

end

namespace Settings

def tableEntries (s : Settings) : Members :=
  headed "engine" s.engine.given ++ headed "server" s.serving.given ++
    headed "logging" s.logging.given

/-- The three tables come after whatever has other names. -/
theorem addAll?_tableSections (s : Settings) {root : Members}
    (fresh : ∀ key ∈ ["engine", "server", "logging"], key ∉ root.map (·.1)) :
    addAll? root s.tableSections = some (root ++ s.tableEntries) := by
  have table {key : String} {fs : Fields} {root : Members} (fresh : key ∉ root.map (·.1))
      (distinct : (fs.map (·.1)).Nodup) :
      Section.addTo? ⟨false, [key], keysOf fs⟩ root = some (root ++ headed key fs) :=
    beginTable?_fresh (Members.find?_eq_none_iff.2 fresh) distinct
  simp only [List.forall_mem_cons] at fresh
  obtain ⟨no_engine, no_server, no_logging, -⟩ := fresh
  rw [tableSections, addAll?_cons, table no_engine (by simp [Tuning.given]), Option.bind_some,
    addAll?_cons, table (by simpa [headed] using no_server) (by simp [Serving.given]),
    Option.bind_some, addAll?_cons,
    table (by simpa [headed] using no_logging) (by simp [Logging.given])]
  simp [addAll?, tableEntries]

def entries (s : Settings) : Members :=
  match s.rules with
  | none => s.tableEntries
  | some [] => entriesOf [("rules", .list [])] ++ s.tableEntries
  | some rules => withTables "rules" s.tableEntries (rules.map Rule.entries)

theorem build?_outline (s : Settings) : s.outline.build? = some s.entries := by
  have tables := @addAll?_tableSections s [] (by simp)
  unfold outline entries
  cases s.rules with
  | none => exact tables
  | some rules =>
    cases rules with
    | nil => exact @addAll?_tableSections s (entriesOf [("rules", .list [])]) (by simp [entriesOf])
    | cons r rules =>
      have fresh : s.tableEntries.find? "rules" = none := by
        simp [Members.find?_eq_none_iff, tableEntries, headed]
      dsimp only
      rw [build?_eq]
      show addAll? [] _ = _
      rw [addAll?_append, tables, Option.bind_some]
      exact addAll?_rules fresh (r :: rules) []

/-! ## Values -/

theorem memberValues_headed (key : String) (fs : Fields) :
    memberValues (headed key fs) = [(key, .table fs)] := by
  rw [headed, memberValues_eq_map, List.map_singleton, Entry.toValue, memberValues_entriesOf]

theorem memberValues_withTables (key : String) (base : Members) {all : List Members}
    (some_table : all ≠ []) :
    memberValues (withTables key base all) =
      memberValues base ++ [(key, .list (all.map fun ms => .table (memberValues ms)))] := by
  rw [withTables, if_neg some_table, memberValues_append, memberValues_eq_map [_],
    List.map_singleton, Entry.toValue, tableValues_eq_map]

theorem memberValues_armEntries (a : Arm Float) : memberValues a.entries = a.members := by
  rw [Arm.entries, memberValues_append, memberValues_entriesOf, memberValues_headed]
  rfl

theorem memberValues_ruleEntries (r : Rule Float) : memberValues r.entries = r.members := by
  unfold Rule.entries Rule.members Rule.given
  by_cases none : r.arms = []
  · simp [none, withTables]
  · rw [memberValues_withTables _ _ (by simpa using none), memberValues_entriesOf, List.map_map]
    simp [none, Function.comp_def, memberValues_armEntries]

theorem memberValues_entries (s : Settings) : memberValues s.entries = s.members := by
  have tables : memberValues s.tableEntries = s.tables := by
    simp [tableEntries, tables, memberValues_append, memberValues_headed]
  unfold entries members
  cases s.rules with
  | none => exact tables
  | some rules =>
    cases rules with
    | nil =>
      dsimp only
      rw [memberValues_append, memberValues_entriesOf, tables]
      rfl
    | cons r rules =>
      dsimp only
      rw [memberValues_withTables _ _ (by simp), tables, List.map_map]
      simp only [Function.comp_def, memberValues_ruleEntries]

theorem dropMark_append {front : String} {c : Char} {cs : List Char}
    (chars : front.toList = c :: cs) (no_mark : c ≠ '\ufeff') (text : String) :
    dropMark (front ++ text).toList = (front ++ text).toList := by
  rw [String.toList_append, chars]
  exact if_neg no_mark

theorem exists_toToml_eq (s : Settings) :
    ∃ text, s.toToml = "[engine]\n" ++ text ∨ s.toToml = "rules" ++ text := by
  have tables : ∃ text, s.tablesText = "[engine]\n" ++ text := by
    unfold tablesText
    simp only [String.append_assoc]
    exact ⟨_, rfl⟩
  obtain ⟨text, tables⟩ := tables
  unfold toToml
  rw [tables]
  split
  · exact ⟨_, .inl rfl⟩
  · unfold keyLine
    simp only [String.append_assoc]
    exact ⟨_, .inr rfl⟩
  · rw [String.append_assoc]
    exact ⟨_, .inl rfl⟩

theorem dropMark_toToml (s : Settings) : dropMark s.toToml.toList = s.toToml.toList := by
  obtain ⟨text, front | front⟩ := s.exists_toToml_eq
  · rw [front]
    exact @dropMark_append "[engine]\n" '[' _ rfl (by decide) text
  · rw [front]
    exact @dropMark_append "rules" 'r' _ rfl (by decide) text

/-- The text of settings is a document of their values. -/
theorem parse?_toToml {s : Settings} (writable : s.Writable) :
    Toml.parse? s.toToml = some s.members := by
  have fuel : s.toToml.toList.length < 2 * s.toToml.length + 3 := by
    rw [String.length_toList]
    omega
  unfold Toml.parse?
  rw [dropMark_toToml, reads_toToml writable _ fuel]
  show (s.outline.build?).map memberValues = _
  rw [build?_outline, Option.map_some, memberValues_entries]

end Settings

end Prognosis
