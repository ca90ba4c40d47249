import Prognosis.Proofs.Document.Record
import Prognosis.Proofs.Settings
import Prognosis.Settings.Lookup

/-!
# Settings that are looked up

A file gives settings where its text is accepted (`load_eq_ok_iff`).  An explicit path gives what its
file gives and nothing else (`resolve_eq_ok_iff`).  Without one, the first path that gives settings
counts, and the defaults hold where none does (`loadOrDefault_cases`).  In all cases the settings are
checked (`check_of_resolve`).
-/

namespace Prognosis

theorem Files.text?_of_toByteArray {files : Files} {path : ByteArray} {text : String}
    (written : files path = some text.toByteArray) : files.text? path = some text := by
  rw [text?, written]
  show String.fromUTF8? text.toByteArray = some text
  rw [String.fromUTF8?, dif_pos text.isValidUTF8]
  rfl

namespace Settings

variable {files : Files} {environment : Option ByteArray} {path : ByteArray} {s : Settings}

/-- The file at a path is a text that is accepted as these settings. -/
def Holds (files : Files) (path : ByteArray) (s : Settings) : Prop :=
  ∃ text, files.text? path = some text ∧ parse text = .ok s

theorem load_eq_ok_iff : load files path = .ok s ↔ Holds files path s := by
  unfold load Holds
  cases files.text? path with
  | none => simp
  | some text => simp [Document.mapError_eq_ok_iff]

theorem toOption_load_eq_some_iff : (load files path).toOption = some s ↔ Holds files path s := by
  rw [← load_eq_ok_iff]
  cases load files path <;> simp [Except.toOption]

theorem toOption_load_eq_none_iff :
    (load files path).toOption = none ↔ ∀ s, ¬ Holds files path s := by
  simp only [← toOption_load_eq_some_iff, Option.eq_none_iff_forall_ne_some, ne_eq]

theorem Holds.check (holds : Holds files path s) : s.check = .ok () := by
  obtain ⟨text, -, accepted⟩ := holds
  exact (check_eq_ok_iff s).2 (valid_of_parse accepted)

/-- The defaults are what an empty document gives. -/
theorem check_default : check {} = .ok () :=
  (check_eq_ok_iff {}).2 (valid_of_parse parse_nil)

/-! ## An explicit path -/

/-- An explicit path gives what its file gives, whatever the environment is. -/
theorem resolve_eq_ok_iff : resolve files environment (some path) = .ok s ↔ Holds files path s :=
  load_eq_ok_iff

/-! ## No explicit path -/

/-- Without an explicit path: what the first file that gives settings gives, else the defaults. -/
theorem loadOrDefault_cases (files : Files) (environment : Option ByteArray) :
    (∃ path ∈ fallbacks environment, Holds files path (loadOrDefault files environment)) ∨
      (∀ path ∈ fallbacks environment, ∀ s, ¬ Holds files path s) ∧
        loadOrDefault files environment = {} := by
  unfold loadOrDefault
  cases found : (fallbacks environment).findSome? fun path => (load files path).toOption with
  | none =>
    right
    refine ⟨fun path tried => ?_, rfl⟩
    exact toOption_load_eq_none_iff.1 (List.findSome?_eq_none_iff.1 found path tried)
  | some s =>
    left
    obtain ⟨path, tried, loaded⟩ := List.exists_of_findSome?_eq_some found
    exact ⟨path, tried, toOption_load_eq_some_iff.1 loaded⟩

theorem loadOrDefault_of_holds (text : path.IsValidUTF8) (holds : Holds files path s) :
    loadOrDefault files (some path) = s := by
  have first : fallbacks (some path) = [path, systemPath] := by
    rw [fallbacks, Option.filter_some, if_pos (ByteArray.validateUTF8_eq_true_iff.2 text)]
    rfl
  rw [loadOrDefault, first, List.findSome?_cons, toOption_load_eq_some_iff.2 holds]
  rfl

/-- A value of the environment that is no text is passed over, whatever is in the file it names. -/
theorem loadOrDefault_of_no_text (no_text : path.validateUTF8 = false) :
    loadOrDefault files (some path) = loadOrDefault files none := by
  rw [loadOrDefault, fallbacks, Option.filter_some, if_neg (by simp [no_text])]
  rfl

theorem loadOrDefault_of_not_holds (fails : ∀ p s, environment = some p → ¬ Holds files p s) :
    loadOrDefault files environment = (load files systemPath).toOption.getD {} := by
  have none_found : ((environment.filter (·.validateUTF8)).toList).findSome?
      (fun path => (load files path).toOption) = none := by
    refine List.findSome?_eq_none_iff.2 fun path named => toOption_load_eq_none_iff.2 fun s => ?_
    rw [Option.mem_toList, Option.filter_eq_some_iff] at named
    exact fails path s named.1
  rw [loadOrDefault, fallbacks, List.findSome?_append, none_found, Option.none_or,
    List.findSome?_singleton]

theorem loadOrDefault_of_system (fails : ∀ p s, environment = some p → ¬ Holds files p s)
    (holds : Holds files systemPath s) : loadOrDefault files environment = s := by
  rw [loadOrDefault_of_not_holds fails, toOption_load_eq_some_iff.2 holds, Option.getD_some]

theorem loadOrDefault_of_no_system (fails : ∀ p s, environment = some p → ¬ Holds files p s)
    (missing : ∀ s, ¬ Holds files systemPath s) : loadOrDefault files environment = {} := by
  rw [loadOrDefault_of_not_holds fails, toOption_load_eq_none_iff.2 missing, Option.getD_none]

/-! ## All settings are checked -/

theorem check_loadOrDefault (files : Files) (environment : Option ByteArray) :
    (loadOrDefault files environment).check = .ok () := by
  rcases loadOrDefault_cases files environment with ⟨path, -, holds⟩ | ⟨-, fallback⟩
  · exact holds.check
  · rw [fallback]
    exact check_default

theorem check_of_resolve {explicit : Option ByteArray}
    (resolved : resolve files environment explicit = .ok s) : s.check = .ok () := by
  cases explicit with
  | some path => exact (resolve_eq_ok_iff.1 resolved).check
  | none =>
    cases resolved
    exact check_loadOrDefault files environment

end Settings

end Prognosis
