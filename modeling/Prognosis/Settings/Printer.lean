import Prognosis.Settings
import Prognosis.Toml.Printer

/-!
# Writing settings

The document of settings: tables `engine`, `server` and `logging`, then the rules as tables inside
each other.  An empty list of rules or arms is written as a value, since no table can stand for it.
A document has no place for whole numbers of 64 bits, and settings with one cannot be written.
-/

namespace Prognosis

open Toml

namespace Settings

def keyLine (key value : String) : String := key ++ " = " ++ value ++ "\n"

def floatLine (key : String) (x : Float) : String := keyLine key (numberStyle.write x)

def textLine (key s : String) : String := keyLine key (stringText s)

def triggerText : Trigger Float → String
  | .trending t c =>
    "\n[rules.arms.trigger]\n" ++ textLine "kind" "trending" ++ floatLine "min_trend" t ++
      floatLine "min_current" c
  | .elevated c =>
    "\n[rules.arms.trigger]\n" ++ textLine "kind" "elevated" ++ floatLine "min_current" c

def armText (a : Arm Float) : String :=
  "\n[[rules.arms]]\n" ++ floatLine "points" a.points ++
    (match a.projection with
      | some p => floatLine "projection" p
      | none => "") ++
    textLine "label" a.label ++ triggerText a.trigger

def ruleText (r : Rule Float) : String :=
  "\n[[rules]]\n" ++ textLine "signal" r.signal.name ++ textLine "severity" r.severity.name ++
    (if r.arms.isEmpty then keyLine "arms" "[]" else String.join (r.arms.map armText))

/-- The three tables that are always written. -/
def tablesText (s : Settings) : String :=
  "[engine]\n" ++ keyLine "window_size" (toString s.engine.window) ++
    floatLine "samples_per_hour" s.engine.samplesPerHour ++
    floatLine "horizon_hours" s.engine.horizonHours ++
    "\n[server]\n" ++ textLine "listen_address" s.serving.listenAddress ++
    keyLine "history_capacity" (toString s.serving.historyCapacity) ++
    keyLine "max_nodes" (toString s.serving.maxNodes) ++
    "\n[logging]\n" ++ textLine "level" s.logging.level ++
    textLine "format" s.logging.format.name

def toToml (s : Settings) : String :=
  match s.rules with
  | none => s.tablesText
  | some [] => keyLine "rules" "[]" ++ "\n" ++ s.tablesText
  | some rules => s.tablesText ++ String.join (rules.map ruleText)

/-- Whether all whole numbers have at most 63 bits. -/
def Writable (s : Settings) : Prop :=
  s.engine.window < Decimal.halfWord ∧ s.serving.historyCapacity < Decimal.halfWord ∧
    s.serving.maxNodes < Decimal.halfWord

instance (s : Settings) : Decidable s.Writable :=
  inferInstanceAs (Decidable (_ < _ ∧ _ < _ ∧ _ < _))

/-- The document of settings, none where it has no place for a number. -/
def write? (s : Settings) : Option String := if s.Writable then some s.toToml else none

end Settings

end Prognosis
