import Mathlib.Tactic.SplitIfs
import Prognosis.Cli.Arguments
import Prognosis.Proofs.Document.Record

/-!
# The path of the settings on a command line

Whatever stands between them, the paths that are named with `--config` can be read off the command
line from left to right (`namedPaths`).  The last of them counts, and only where there is none the
environment does (`settings_eq`).
-/

namespace Prognosis.Cli

open Document

/-- The path that an argument names by itself, behind an equals sign. -/
def Word.path? : Word → Option ByteArray
  | .long name value => if name = "config".toByteArray then value else none
  | _ => none

/-- The paths that arguments name, from left to right. -/
def namedPaths : List ByteArray → List ByteArray
  | [] => []
  | [a] => (Word.ofBytes a).path?.toList
  | a :: b :: rest =>
    if Word.ofBytes a = .long "config".toByteArray none then b :: namedPaths rest
    else (Word.ofBytes a).path?.toList ++ namedPaths (b :: rest)

/-! ## Reading from the left -/

section

variable {a : ByteArray} {rest : List ByteArray}

theorem namedPaths_pair (config : Word.ofBytes a = .long "config".toByteArray none)
    (path : ByteArray) : namedPaths (a :: path :: rest) = path :: namedPaths rest := by
  rw [namedPaths, if_pos config]

theorem namedPaths_cons (other : Word.ofBytes a ≠ .long "config".toByteArray none) :
    namedPaths (a :: rest) = (Word.ofBytes a).path?.toList ++ namedPaths rest := by
  cases rest with
  | nil => rw [namedPaths, namedPaths, List.append_nil]
  | cons b rest => rw [namedPaths, if_neg other]

theorem namedPaths_plain (plain : Word.ofBytes a = .plain) :
    namedPaths (a :: rest) = namedPaths rest := by
  rw [namedPaths_cons (by rw [plain]; exact Word.noConfusion), plain]
  rfl

end

/-! ## Options -/

/-- Between two places of a command line the paths named there have come into force, the last of
them before what was given already. -/
def Passes (args rest : List ByteArray) (g g' : Given) : Prop :=
  ∃ paths, namedPaths args = paths ++ namedPaths rest ∧ g'.config = (paths.getLast? <|> g.config)

section

variable {args args' rest : List ByteArray} {g g₁ g' : Given}

theorem Passes.refl (args : List ByteArray) (g : Given) : Passes args args g g :=
  ⟨[], rfl, rfl⟩

/-- One more option in front, which names a path or none. -/
theorem Passes.cons (path : Option ByteArray)
    (named : namedPaths args = path.toList ++ namedPaths args')
    (stored : g₁.config = (path <|> g.config)) (passes : Passes args' rest g₁ g') :
    Passes args rest g g' := by
  obtain ⟨paths, later, config⟩ := passes
  refine ⟨path.toList ++ paths, ?_, ?_⟩
  · rw [named, later, List.append_assoc]
  · rw [config, stored, List.getLast?_append]
    cases paths.getLast? with
    | some last => rfl
    | none => cases path <;> rfl

variable {verb : Option Verb} {flag : Flag}

theorem Flag.eq_config_iff {name : ByteArray} (known : Flag.ofName? verb name = some flag) :
    flag = .config ↔ name = "config".toByteArray := by
  unfold Flag.ofName? at known
  by_cases config : name = "config".toByteArray
  · rw [if_pos config] at known
    cases known
    exact iff_of_true rfl config
  · refine iff_of_false ?_ config
    rintro rfl
    rw [if_neg config] at known
    by_cases help : name = "help".toByteArray
    · rw [if_pos help] at known
      cases known
    · rw [if_neg help] at known
      rcases verb with none | serve | predict | config <;> dsimp only at known
      · split_ifs at known
        cases known
      · split_ifs at known
        cases known
      · split_ifs at known <;> cases known
      · cases known

theorem Given.config_of_store {v : ByteArray} (stored : g.store flag v = .ok g') :
    g'.config = if flag = .config then some v else g.config := by
  cases flag <;> simp only [Given.store] at stored
  case config | input =>
    split_ifs at stored
    cases stored
    rfl
  case bind =>
    split at stored
    · split_ifs at stored
      cases stored
      rfl
    · cases stored
  all_goals cases stored

theorem Given.config_of_raise (raised : g.raise flag = .ok g') : g'.config = g.config := by
  cases flag <;> simp only [Given.raise] at raised
  case json =>
    split_ifs at raised
    cases raised
    rfl
  all_goals cases raised

theorem passes_raise {a : ByteArray} (other : Word.ofBytes a ≠ .long "config".toByteArray none)
    (pathless : (Word.ofBytes a).path? = none) (raised : g.raise flag = .ok g₁)
    (passes : Passes args rest g₁ g') : Passes (a :: args) rest g g' := by
  refine Passes.cons none ?_ ?_ passes
  · rw [namedPaths_cons other, pathless]
  · rw [Given.config_of_raise raised]
    rfl

/-- Whatever options are read, the paths among them come into force. -/
theorem passes_of_options (read : options verb g args = .ok (g', rest)) :
    Passes args rest g g' := by
  fun_induction options verb g args with
  | case1 g | case2 g | case3 g =>
    cases read
    exact .refl _ _
  | case5 g a args letter word flag known ih =>
    obtain ⟨g₁, raised, read⟩ := exists_of_bind_eq_ok read
    exact passes_raise (by simp [word]) (by rw [word]; rfl) raised (ih g₁ read)
  | case7 g a args name flag v known word ih =>
    obtain ⟨g₁, stored, read⟩ := exists_of_bind_eq_ok read
    have only := Flag.eq_config_iff known
    refine Passes.cons (if name = "config".toByteArray then some v else none) ?_ ?_ (ih g₁ read)
    · rw [namedPaths_cons (by simp [word]), word]
      rfl
    · rw [Given.config_of_store stored]
      by_cases config : name = "config".toByteArray
      · rw [if_pos (only.2 config), if_pos config]
        rfl
      · rw [if_neg (mt only.1 config), if_neg config]
        rfl
  | case8 g a name flag known takes v args plain word ih =>
    obtain ⟨g₁, stored, read⟩ := exists_of_bind_eq_ok read
    have only := Flag.eq_config_iff known
    by_cases config : name = "config".toByteArray
    · refine Passes.cons (some v) ?_ ?_ (ih g₁ read)
      · rw [namedPaths_pair (by rw [word, config])]
        rfl
      · rw [Given.config_of_store stored, if_pos (only.2 config)]
        rfl
    · refine Passes.cons none ?_ ?_ (ih g₁ read)
      · rw [namedPaths_cons (by simp [word, config]), namedPaths_plain plain, word, Word.path?,
          if_neg config]
      · rw [Given.config_of_store stored, if_neg (mt only.1 config)]
        rfl
  | case11 g a args name flag known bare word ih =>
    obtain ⟨g₁, raised, read⟩ := exists_of_bind_eq_ok read
    have other : name ≠ "config".toByteArray := by
      rintro rfl
      rw [(Flag.eq_config_iff known).2 rfl] at bare
      exact bare rfl
    exact passes_raise (by simp [word, other]) (by rw [word, Word.path?, if_neg other]) raised
      (ih g₁ read)
  | case4 | case6 | case9 | case10 => cases read

end

/-! ## Command lines -/

section

variable {environment path : Option ByteArray} {args : List ByteArray} {command : Command}

theorem Verb.plain_of_ofName? {name : ByteArray} {verb : Verb} (known : ofName? name = some verb) :
    Word.ofBytes name = .plain := by
  unfold ofName? at known
  split_ifs at known with serve predict config
  · rw [serve]
    decide
  · rw [predict]
    decide
  · rw [config]
    decide

/-- The path that a command line is read with: the last one that is named behind the command, or
else in front of it, or else in the environment. -/
theorem settingsPath_eq {front back : Given}
    (found : settingsPath environment front back = .ok path) :
    path = (back.config <|> front.config <|> environment) := by
  unfold settingsPath at found
  split_ifs at found
  cases found
  rfl

/-- Where a command is to be carried out, its verb stands between two runs of options. -/
theorem exists_of_commandLine (read : commandLine environment args = .ok (.run path command)) :
    ∃ front name rest verb back ending, options none {} args = .ok (front, name :: rest) ∧
      Verb.ofName? name = some verb ∧ options (some verb) {} rest = .ok (back, ending) ∧
      (ending = [] ∨ ending = ["--".toByteArray]) ∧ settingsPath environment front back = .ok path := by
  obtain ⟨⟨front, rest⟩, front_read, read⟩ := exists_of_bind_eq_ok read
  cases rest with
  | nil => cases read
  | cons name rest =>
    dsimp only at read
    cases known : Verb.ofName? name with
    | none =>
      rw [known] at read
      dsimp only at read
      split_ifs at read
      unfold afterHelp at read
      split at read
      · cases read
      · split_ifs at read
        cases read
      · cases read
    | some verb =>
      rw [known] at read
      obtain ⟨⟨back, ending⟩, back_read, read⟩ := exists_of_bind_eq_ok read
      dsimp only at read
      split_ifs at read with unread
      obtain ⟨command', -, read⟩ := exists_of_bind_eq_ok read
      obtain ⟨path', found, read⟩ := exists_of_bind_eq_ok read
      cases read
      have ended : ending = [] ∨ ending = ["--".toByteArray] := by
        by_cases empty : ending = []
        · exact .inl empty
        · exact .inr (Decidable.not_not.1 fun other => unread ⟨empty, other⟩)
      exact ⟨front, name, rest, verb, back, ending, front_read, known, back_read, ended, found⟩

/-- **Precedence.**  A command is carried out under the last path that the command line names, or
under the one in the environment where it names none. -/
theorem settings_eq (asked : Request.ofArguments? environment args = some (.run path command)) :
    path = ((namedPaths args).getLast? <|> environment) := by
  have read : commandLine environment args = .ok (.run path command) := by
    unfold Request.ofArguments? at asked
    split at asked <;> simp_all
  obtain ⟨front, name, rest, verb, back, ending, front_read, known, back_read, ended, found⟩ :=
    exists_of_commandLine read
  obtain ⟨before, first, front_config⟩ := passes_of_options front_read
  obtain ⟨behind, second, back_config⟩ := passes_of_options back_read
  have done : namedPaths ending = [] := by
    rcases ended with rfl | rfl
    · rfl
    · decide
  rw [namedPaths_plain (Verb.plain_of_ofName? known), second, done, List.append_nil] at first
  rw [settingsPath_eq found, first, List.getLast?_append, back_config, front_config]
  cases behind.getLast? with
  | some last => rfl
  | none => cases before.getLast? <;> rfl

end

/-! ## Scoring a history -/

section

variable {environment : Option ByteArray} {file : ByteArray}

theorem options_predict (plain : Word.ofBytes file = .plain) (some_file : file ≠ .empty) :
    options (some .predict) {} ["--json".toByteArray, "--input".toByteArray, file] =
      .ok ({ input := some file, json := true }, []) := by
  have json : Word.ofBytes "--json".toByteArray = .long "json".toByteArray none := by decide
  have input : Word.ofBytes "--input".toByteArray = .long "input".toByteArray none := by decide
  have json_flag : Flag.ofName? (some .predict) "json".toByteArray = some .json := by decide
  have input_flag : Flag.ofName? (some .predict) "input".toByteArray = some .input := by decide
  simp [options, json, input, plain, json_flag, input_flag, Flag.takesValue, Given.raise,
    Given.store, some_file, bind, Except.bind]

/-- The command line that asks for the verdict on a history file, for machines. -/
theorem ofArguments?_predict (plain : Word.ofBytes file = .plain) (some_file : file ≠ .empty)
    (set : environment ≠ some .empty) :
    Request.ofArguments? environment
        (["predict", "--json", "--input"].map String.toByteArray ++ [file]) =
      some (.run environment (.predict file true)) := by
  have word : Word.ofBytes "predict".toByteArray = .plain := by decide
  have read : commandLine environment
      ["predict".toByteArray, "--json".toByteArray, "--input".toByteArray, file] =
      .ok (.run environment (.predict file true)) := by
    rw [commandLine, options, word]
    show afterVerb environment {} .predict ["--json".toByteArray, "--input".toByteArray, file] = _
    rw [afterVerb, options_predict plain some_file]
    simp [bind, Except.bind, Given.command, settingsPath, set]
  show Request.ofArguments? environment
    ["predict".toByteArray, "--json".toByteArray, "--input".toByteArray, file] = _
  rw [Request.ofArguments?, read]

end

end Prognosis.Cli
