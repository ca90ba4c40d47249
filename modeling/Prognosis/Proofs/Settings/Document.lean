import Prognosis.Proofs.Toml.Lines
import Prognosis.Proofs.Toml.Sections
import Prognosis.Settings.Printer
import Prognosis.Settings.Record

/-!
# The document of settings

The text of settings is read as the keys and headers that it was written from
(`reads_toToml`), and these build one table for each part and each rule (`build?_outline`).
-/

namespace Prognosis

open Document Toml

/-! ## What is written -/

def floatValue (x : Float) : Value := .num (.float x)

/-- The values of the table `engine`. -/
def Tuning.given (t : Tuning Float) : Fields :=
  [("window_size", .nat t.window), ("samples_per_hour", floatValue t.samplesPerHour),
    ("horizon_hours", floatValue t.horizonHours)]

def Serving.given (s : Serving) : Fields :=
  [("listen_address", .text s.listenAddress), ("history_capacity", .nat s.historyCapacity),
    ("max_nodes", .nat s.maxNodes)]

def Logging.given (l : Logging) : Fields :=
  [("level", .text l.level), ("format", .text l.format.name)]

def Trigger.given : Trigger Float → Fields
  | trending t c => [("kind", .text "trending"), ("min_trend", floatValue t),
      ("min_current", floatValue c)]
  | elevated c => [("kind", .text "elevated"), ("min_current", floatValue c)]

/-- The projection of an arm, if it has one. -/
def projected : Option Float → Fields
  | some p => [("projection", floatValue p)]
  | none => []

def Arm.given (a : Arm Float) : Fields :=
  ("points", floatValue a.points) :: (projected a.projection ++ [("label", .text a.label)])

def Rule.names (r : Rule Float) : Fields :=
  [("signal", .text r.signal.name), ("severity", .text r.severity.name)]

def Rule.given (r : Rule Float) : Fields :=
  r.names ++ if r.arms.isEmpty then [("arms", .list [])] else []

def Arm.sections (a : Arm Float) : List Section :=
  [⟨true, ["rules", "arms"], keysOf a.given⟩,
    ⟨false, ["rules", "arms", "trigger"], keysOf a.trigger.given⟩]

def Rule.sections (r : Rule Float) : List Section :=
  ⟨true, ["rules"], keysOf r.given⟩ :: r.arms.flatMap Arm.sections

namespace Settings

/-- The sections of the three tables that are always written. -/
def tableSections (s : Settings) : List Section :=
  [⟨false, ["engine"], keysOf s.engine.given⟩, ⟨false, ["server"], keysOf s.serving.given⟩,
    ⟨false, ["logging"], keysOf s.logging.given⟩]

/-- The keys and headers of the document of settings. -/
def outline (s : Settings) : Outline :=
  match s.rules with
  | none => ([], s.tableSections)
  | some [] => ([(["rules"], .list [])], s.tableSections)
  | some rules => ([], s.tableSections ++ rules.flatMap Rule.sections)

/-! ## Keys -/

/-- A text that puts keys with these values in front of what follows it. -/
def Gives (text : String) (fs : Fields) : Prop :=
  ∀ cs o, Reads cs o → Reads (text.toList ++ cs) (keysOf fs ++ o.1, o.2)

theorem Gives.append {text text' : String} {fs fs' : Fields} (gives : Gives text fs)
    (gives' : Gives text' fs') : Gives (text ++ text') (fs ++ fs') := by
  intro cs o reads
  have both := gives _ _ (gives' _ _ reads)
  rw [String.toList_append, List.append_assoc]
  simpa [keysOf] using both

theorem gives_keyLine {key value : String} {v : Value} (bare : Bare key)
    (spells : Spells value.toList v) : Gives (keyLine key value) [(key, v)] := by
  intro cs o reads
  have line := reads_keyLine bare spells reads
  simpa [keyLine, keysOf] using line

theorem gives_floatLine {key : String} (bare : Bare key) (x : Float) :
    Gives (floatLine key x) [(key, floatValue x)] :=
  gives_keyLine bare (spells_float x)

theorem gives_textLine {key : String} (bare : Bare key) (text : String) :
    Gives (textLine key text) [(key, .text text)] :=
  gives_keyLine bare (spells_text text)

theorem gives_natLine {key : String} (bare : Bare key) {n : ℕ} (small : n < Decimal.halfWord) :
    Gives (keyLine key (toString n)) [(key, .nat n)] :=
  gives_keyLine bare (spells_nat small)

theorem gives_emptyLine {key : String} (bare : Bare key) :
    Gives (keyLine key "[]") [(key, .list [])] :=
  gives_keyLine bare spells_empty

/-! ## Sections -/

/-- A text that puts these sections in front of those that follow it. -/
def Begins (text : String) (ss : List Section) : Prop :=
  ∀ cs ss', Reads cs ([], ss') → Reads (text.toList ++ cs) ([], ss ++ ss')

theorem Begins.append {text text' : String} {ss ss' : List Section} (begins : Begins text ss)
    (begins' : Begins text' ss') : Begins (text ++ text') (ss ++ ss') := by
  intro cs more reads
  have both := begins _ _ (begins' _ _ reads)
  rwa [String.toList_append, List.append_assoc, List.append_assoc]

theorem begins_join {β : Type} {write : β → String} {sections : β → List Section}
    (each : ∀ b, Begins (write b) (sections b)) (bs : List β) :
    Begins (String.join (bs.map write)) (bs.flatMap sections) := by
  intro cs more reads
  rw [String.toList_join]
  induction bs with
  | nil => exact reads
  | cons b bs ih =>
    have first := each b _ _ ih
    simpa using first

def headerChars (item : Bool) (path : List String) : List Char :=
  if item then '[' :: '[' :: (pathChars path ++ [']', ']', '\n'])
  else '[' :: (pathChars path ++ [']', '\n'])

/-- A text that is the header of a path, with or without an empty line before it. -/
def IsHeader (header : String) (item : Bool) (path : List String) : Prop :=
  (header.toList = headerChars item path ∨ header.toList = '\n' :: headerChars item path) ∧
    (∀ key ∈ path, Bare key) ∧ path ≠ [] ∧ path.length < 80

instance (header : String) (item : Bool) (path : List String) :
    Decidable (IsHeader header item path) :=
  inferInstanceAs (Decidable ((_ ∨ _) ∧ _ ∧ _ ∧ _))

theorem begins_section {header text : String} {item : Bool} {path : List String} {fs : Fields}
    (is_header : IsHeader header item path) (gives : Gives text fs) :
    Begins (header ++ text) [⟨item, path, keysOf fs⟩] := by
  obtain ⟨chars, bare, nonempty, short⟩ := is_header
  intro cs more reads
  have keys : Reads (text.toList ++ cs) (keysOf fs, more) := by simpa using gives _ _ reads
  have line : Reads (headerChars item path ++ (text.toList ++ cs))
      ([], ⟨item, path, keysOf fs⟩ :: more) := by
    cases item with
    | false => simpa [headerChars, Outline.under] using reads_header bare nonempty short keys
    | true => simpa [headerChars, Outline.under] using reads_item bare nonempty short keys
  rw [String.toList_append, List.append_assoc]
  rcases chars with chars | chars
  · rw [chars]
    exact line
  · rw [chars]
    exact reads_blank line

/-! ## The whole document -/

theorem isHeader_engine : IsHeader "[engine]\n" false ["engine"] := by decide

theorem isHeader_server : IsHeader "\n[server]\n" false ["server"] := by decide

theorem isHeader_logging : IsHeader "\n[logging]\n" false ["logging"] := by decide

theorem isHeader_rules : IsHeader "\n[[rules]]\n" true ["rules"] := by decide

theorem isHeader_arms : IsHeader "\n[[rules.arms]]\n" true ["rules", "arms"] := by decide

theorem isHeader_trigger :
    IsHeader "\n[rules.arms.trigger]\n" false ["rules", "arms", "trigger"] := by decide

theorem begins_triggerText (t : Trigger Float) :
    Begins (triggerText t) [⟨false, ["rules", "arms", "trigger"], keysOf t.given⟩] := by
  have kind (name : String) : Gives (textLine "kind" name) [("kind", .text name)] :=
    gives_textLine (by decide) name
  have current (c : Float) : Gives (floatLine "min_current" c) [("min_current", floatValue c)] :=
    gives_floatLine (by decide) c
  unfold triggerText Trigger.given
  simp only [String.append_assoc]
  cases t with
  | trending t c =>
    have trend := gives_floatLine (show Bare "min_trend" by decide) t
    exact begins_section isHeader_trigger ((kind "trending").append (trend.append (current c)))
  | elevated c => exact begins_section isHeader_trigger ((kind "elevated").append (current c))

theorem begins_armText (a : Arm Float) : Begins (armText a) a.sections := by
  have points := gives_floatLine (show Bare "points" by decide) a.points
  have projection : Gives (match a.projection with
      | some p => floatLine "projection" p
      | none => "") (projected a.projection) := by
    cases a.projection with
    | none =>
      intro cs o reads
      exact reads
    | some p => exact gives_floatLine (by decide) p
  have label := gives_textLine (show Bare "label" by decide) a.label
  have keys := points.append (projection.append label)
  have both := (begins_section isHeader_arms keys).append (begins_triggerText a.trigger)
  unfold armText
  simp only [String.append_assoc] at both ⊢
  exact both

theorem begins_ruleText (r : Rule Float) : Begins (ruleText r) r.sections := by
  have names := (gives_textLine (show Bare "signal" by decide) r.signal.name).append
    (gives_textLine (show Bare "severity" by decide) r.severity.name)
  unfold ruleText Rule.sections Rule.given
  by_cases none : r.arms = []
  · have keys := names.append (gives_emptyLine (show Bare "arms" by decide))
    have own := begins_section isHeader_rules keys
    simpa [none, String.append_assoc, Rule.names] using own
  · have both := (begins_section isHeader_rules names).append (begins_join begins_armText r.arms)
    simpa [none, String.append_assoc, Rule.names] using both

theorem begins_tablesText {s : Settings} (writable : s.Writable) :
    Begins s.tablesText s.tableSections := by
  obtain ⟨window, capacity, nodes⟩ := writable
  have engine := (gives_natLine (show Bare "window_size" by decide) window).append
    ((gives_floatLine (show Bare "samples_per_hour" by decide) s.engine.samplesPerHour).append
      (gives_floatLine (show Bare "horizon_hours" by decide) s.engine.horizonHours))
  have address := gives_textLine (show Bare "listen_address" by decide) s.serving.listenAddress
  have server := address.append
    ((gives_natLine (show Bare "history_capacity" by decide) capacity).append
      (gives_natLine (show Bare "max_nodes" by decide) nodes))
  have logging := (gives_textLine (show Bare "level" by decide) s.logging.level).append
    (gives_textLine (show Bare "format" by decide) s.logging.format.name)
  have all := (begins_section isHeader_engine engine).append
    ((begins_section isHeader_server server).append (begins_section isHeader_logging logging))
  unfold tablesText
  simp only [String.append_assoc] at all ⊢
  exact all

/-- The text of settings is read as its keys and headers. -/
theorem reads_toToml {s : Settings} (writable : s.Writable) : Reads s.toToml.toList s.outline := by
  have tables := begins_tablesText writable
  have whole {text : String} {ss : List Section} (begins : Begins text ss) :
      Reads text.toList ([], ss) := by simpa using begins [] [] reads_nil
  unfold toToml outline
  cases given : s.rules with
  | none => exact whole tables
  | some rules =>
    cases rules with
    | nil =>
      have key := gives_emptyLine (show Bare "rules" by decide) _ _ (reads_blank (whole tables))
      simpa [keysOf, String.append_assoc] using key
    | cons r rules => exact whole (tables.append (begins_join begins_ruleText (r :: rules)))

end Settings

end Prognosis
