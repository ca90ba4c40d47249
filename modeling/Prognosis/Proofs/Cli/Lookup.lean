import Prognosis.Cli.Run
import Prognosis.Proofs.Cli.Arguments
import Prognosis.Proofs.Settings.Lookup

/-!
# Commands and the settings they are carried out under

A command is carried out under the settings at the path that is named for it, or under those found
without one (`run_eq_outcome`, `performAt_of_resolve`).  Where the file that is named gives no
settings, the program fails without a word (`silent_of_not_holds`).  Together with what holds of
single lookups that is `lookup_faithful`: no settings are used unchecked, and none in place of
others.
-/

namespace Prognosis.Cli

open Document Settings

/-! ## Carrying out a command -/

/-- How the program ends after a command. -/
def Outcome.ofResult : Except Failure Outcome → Outcome
  | .ok o => o
  | .error f => .failed f

/-- An end with an error code, and nothing printed. -/
structure Outcome.Silent (o : Outcome) : Prop where
  code : o.code ≠ 0
  text : o.text = ""

theorem Outcome.silent_failed (f : Failure) : (failed f).Silent := ⟨Nat.one_ne_zero, rfl⟩

theorem Outcome.silent_misused : misused.Silent := ⟨Nat.succ_ne_zero 1, rfl⟩

section

variable {files : Files} {environment path : Option ByteArray} {args : List ByteArray}
  {command : Command} {s : Settings}

theorem run_eq_outcome (asked : Request.ofArguments? environment args = some (.run path command)) :
    run files environment args = .ofResult (performAt files environment path command) := by
  rw [run, asked]
  show (Request.run path command).outcome files environment = _
  rw [Request.outcome]
  cases performAt files environment path command <;> rfl

theorem performAt_of_resolve (found : resolve files environment path = .ok s) :
    performAt files environment path command = perform files s command := by
  rw [performAt, found]
  rfl

theorem outcome_of_refused {e : LoadError} (refused : resolve files environment path = .error e) :
    Outcome.ofResult (performAt files environment path command) = .failed (.settings e) := by
  rw [performAt, refused]
  rfl

theorem silent_of_not_holds {named : ByteArray} (fails : ∀ s, ¬ Holds files named s) :
    (Outcome.ofResult (performAt files environment (some named) command)).Silent := by
  cases found : resolve files environment (some named) with
  | ok s => exact absurd (resolve_eq_ok_iff.1 found) (fails s)
  | error e =>
    rw [outcome_of_refused found]
    exact Outcome.silent_failed _

theorem silent_of_misuse (misused : Request.ofArguments? environment args = none) :
    (run files environment args).Silent := by
  rw [run, misused]
  exact Outcome.silent_misused

end

/-! ## Lookups -/

/-- What holds of the settings that are looked up in files under an environment. -/
structure Faithful (files : Files) (environment : Option ByteArray) : Prop where
  /-- All settings are checked, wherever they come from. -/
  checked :
    (∀ path s, load files path = .ok s → s.check = .ok ()) ∧
      (∀ explicit s, resolve files environment explicit = .ok s → s.check = .ok ()) ∧
      (loadOrDefault files environment).check = .ok ()
  /-- An explicit path gives what its file gives, or an error. -/
  explicit : ∀ path s, resolve files environment (some path) = .ok s ↔
    ∃ text, files.text? path = some text ∧ parse text = .ok s
  /-- A path in the environment, as a text, gives what its file gives.  Where the environment gives
  nothing, there is the file of the system, and then just the defaults. -/
  fallback :
    (∀ path s, environment = some path → path.IsValidUTF8 → Holds files path s →
      loadOrDefault files environment = s) ∧
      ((∀ path s, environment = some path → ¬ Holds files path s) →
        (∀ s, Holds files systemPath s → loadOrDefault files environment = s) ∧
          ((∀ s, ¬ Holds files systemPath s) → loadOrDefault files environment = {}))
  /-- A command is carried out under the settings in the file that is named for it, and under those
  of the system or the defaults only where none is named. -/
  used : ∀ args path command, Request.ofArguments? environment args = some (.run path command) →
    path = ((namedPaths args).getLast? <|> environment) ∧
      (path = none →
        (∀ s, Holds files systemPath s →
          run files environment args = .ofResult (perform files s command)) ∧
          ((∀ s, ¬ Holds files systemPath s) →
            run files environment args = .ofResult (perform files {} command))) ∧
      ∀ named s, path = some named → Holds files named s →
        run files environment args = .ofResult (perform files s command)
  /-- Where the named file gives no settings, the program fails without a word, unless it is asked
  for its usage or version. -/
  silent : ∀ args named, ((namedPaths args).getLast? <|> environment) = some named →
    (∀ s, ¬ Holds files named s) → Request.ofArguments? environment args ≠ some .help →
    Request.ofArguments? environment args ≠ some .version →
    (run files environment args).Silent

/-- **Lookups.**  Whatever the files are and whatever the environment says: no settings are used
unchecked, and none in place of those that were named. -/
theorem lookup_faithful (files : Files) (environment : Option ByteArray) :
    Faithful files environment := by
  constructor
  case checked =>
    refine ⟨?_, fun _ _ found => check_of_resolve found, check_loadOrDefault files environment⟩
    intro path s loaded
    exact (load_eq_ok_iff.1 loaded).check
  case explicit =>
    intro path s
    exact resolve_eq_ok_iff
  case fallback =>
    refine ⟨?_, fun fails => ⟨fun s => loadOrDefault_of_system fails, ?_⟩⟩
    · rintro path s rfl text holds
      exact loadOrDefault_of_holds text holds
    · exact loadOrDefault_of_no_system fails
  case used =>
    intro args path command asked
    have named := settings_eq asked
    refine ⟨named, ?_, ?_⟩
    · rintro rfl
      have unset : environment = none := ((Option.orElse_eq_none _ _).1 named.symm).2
      have fails : ∀ p s, environment = some p → ¬ Holds files p s := by
        rintro p s rfl
        cases unset
      rw [run_eq_outcome asked, performAt_of_resolve rfl]
      refine ⟨fun s holds => ?_, fun missing => ?_⟩
      · rw [loadOrDefault_of_system fails holds]
      · rw [loadOrDefault_of_no_system fails missing]
    · rintro named s rfl holds
      rw [run_eq_outcome asked, performAt_of_resolve (resolve_eq_ok_iff.2 holds)]
  case silent =>
    intro args named path_eq fails no_help no_version
    cases asked : Request.ofArguments? environment args with
    | none => exact silent_of_misuse asked
    | some request =>
      cases request with
      | help => exact absurd asked no_help
      | version => exact absurd asked no_version
      | run path command =>
        rw [run_eq_outcome asked, settings_eq asked, path_eq]
        exact silent_of_not_holds fails

def shortWindow : String := "[engine]\nwindow_size = 3\n"

theorem exists_parse_shortWindow : ∃ s, parse shortWindow = .ok s ∧ s.engine.window = 3 := by
  have run : (parse shortWindow).toOption.any (fun s => s.engine.window = 3) = true := by
    decide +kernel
  obtain ⟨s, accepted, short⟩ := exists_of_any run
  exact ⟨s, accepted, of_decide_eq_true short⟩

/-- The files of a system on which only one path can be read, with a short window in it. -/
def shortFile (path : ByteArray) : Files := fun p =>
  if p = path then some shortWindow.toByteArray else none

theorem exists_holds_shortFile (path : ByteArray) :
    ∃ s, Holds (shortFile path) path s ∧ s.engine.window = 3 := by
  obtain ⟨s, accepted, short⟩ := exists_parse_shortWindow
  exact ⟨s, ⟨shortWindow, Files.text?_of_toByteArray (if_pos rfl), accepted⟩, short⟩

theorem not_holds_shortFile {path other : ByteArray} (different : other ≠ path) (s : Settings) :
    ¬ Holds (shortFile path) other s := by
  rintro ⟨text, read, -⟩
  rw [Files.text?, shortFile, if_neg different] at read
  cases read

/-- Of a file that loads and one that is missing, the one behind the option counts: the environment
neither stands in for it nor comes before it. -/
theorem lookup_of_missing_file :
    let files := shortFile "short.toml".toByteArray
    let named := run files (some "gone.toml".toByteArray)
      (["--config", "short.toml", "config"].map String.toByteArray)
    let missing := run files (some "short.toml".toByteArray)
      (["--config", "gone.toml", "config"].map String.toByteArray)
    ∃ s, s.engine.window = 3 ∧ loadOrDefault files (some "short.toml".toByteArray) = s ∧
      named = .ofResult (perform files s .config) ∧ missing.Silent := by
  intro files named missing
  obtain ⟨s, holds, short⟩ := exists_holds_shortFile "short.toml".toByteArray
  have faithful := lookup_faithful files (some "short.toml".toByteArray)
  have asked : Request.ofArguments? (some "gone.toml".toByteArray)
      (["--config", "short.toml", "config"].map String.toByteArray) =
      some (.run (some "short.toml".toByteArray) .config) := by decide
  obtain ⟨-, -, used⟩ := (lookup_faithful files (some "gone.toml".toByteArray)).used _ _ _ asked
  have found := faithful.fallback.1 _ _ rfl "short.toml".isValidUTF8 holds
  refine ⟨s, short, found, used _ _ rfl holds, ?_⟩
  refine faithful.silent _ "gone.toml".toByteArray ?_ (not_holds_shortFile (by decide)) ?_ ?_
  · decide
  · decide
  · decide

/-- Without the file of the system there are two ways past a named file.  A path in the environment
that is no text is passed over although its file gives settings; and the version is told although
the named file gives none. -/
theorem lookup_of_bytes_and_version :
    let bytes : ByteArray := ⟨#[0xFF]⟩
    let gone := "gone.toml".toByteArray
    let version := run (shortFile bytes) none
      (["--config", "gone.toml", "--version"].map String.toByteArray)
    (∀ s, ¬ Holds (shortFile bytes) systemPath s) ∧
      (∃ s, Holds (shortFile bytes) bytes s ∧ loadOrDefault (shortFile bytes) (some bytes) ≠ s) ∧
      (∀ s, ¬ Holds (shortFile bytes) gone s) ∧
      version.code = 0 ∧ version.text = "noderisk 0.1.0\n" := by
  intro bytes gone version
  have no_system : ∀ s, ¬ Holds (shortFile bytes) systemPath s := not_holds_shortFile (by decide)
  refine ⟨no_system, ?_, not_holds_shortFile (by decide), rfl, rfl⟩
  obtain ⟨s, holds, short⟩ := exists_holds_shortFile bytes
  refine ⟨s, holds, ?_⟩
  rintro rfl
  have defaults : loadOrDefault (shortFile bytes) none = {} :=
    loadOrDefault_of_no_system (fun _ _ unset => nomatch unset) no_system
  rw [loadOrDefault_of_no_text (by decide), defaults] at short
  exact absurd short (by decide)

end Prognosis.Cli
