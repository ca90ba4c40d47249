import Prognosis.Settings.Record
import Prognosis.Text.Bytes

/-!
# Where settings come from

An explicit path must load.  Without one, the path in the environment is tried and then the path of
the system; where neither loads, the defaults hold.
-/

namespace Prognosis

/-- The content of files by path, none for a path that cannot be read.  Paths are bytes. -/
abbrev Files := ByteArray → Option ByteArray

/-- The text of a file, none for one that cannot be read or is no text. -/
def Files.text? (files : Files) (path : ByteArray) : Option String := do
  String.fromUTF8? (← files path)

namespace Settings

/-- Why a file gives no settings. -/
inductive LoadError where
  | notReadable (path : ByteArray)
  | refused (path : ByteArray) (cause : Refusal)

/-- The wording of what was attempted when loading failed. -/
def LoadError.context : LoadError → String
  | notReadable path => "failed to read config file: " ++ Text.lossy path
  | refused path _ => "failed to parse config file: " ++ Text.lossy path

def load (files : Files) (path : ByteArray) : Except LoadError Settings :=
  match files.text? path with
  | none => .error (.notReadable path)
  | some text => (parse text).mapError (.refused path)

/-- Where the settings of a whole system are kept. -/
def systemPath : ByteArray := "/etc/noderisk/noderisk.toml".toByteArray

/-- The paths that are tried in turn where none is explicit.  A value of the environment that is no
text is passed over. -/
def fallbacks (environment : Option ByteArray) : List ByteArray :=
  (environment.filter (·.validateUTF8)).toList ++ [systemPath]

/-- The settings at the first path that loads, or else the defaults. -/
def loadOrDefault (files : Files) (environment : Option ByteArray) : Settings :=
  -- a system file that is missing does not load, so it is not asked for first
  ((fallbacks environment).findSome? fun path => (load files path).toOption).getD {}

/-- The settings at an explicit path, which must load, or else at those that are tried in turn. -/
def resolve (files : Files) (environment explicit : Option ByteArray) :
    Except LoadError Settings :=
  match explicit with
  | some path => load files path
  | none => .ok (loadOrDefault files environment)

end Settings

end Prognosis
