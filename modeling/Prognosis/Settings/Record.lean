import Prognosis.Document.Decode
import Prognosis.Rule.Record
import Prognosis.Settings
import Prognosis.Toml.Reader

/-!
# Settings as documents

Decoding lays the given values over the defaults; names that are no setting are passed over.
`parse` reads a document and checks the result.
-/

namespace Prognosis

open Document

def Tuning.fields : List (Record.Field (Tuning Float)) :=
  [ .of "window_size" (.nat UInt64.size) fun v t => { t with window := v },
    .of "samples_per_hour" .float fun v t => { t with samplesPerHour := v },
    .of "horizon_hours" .float fun v t => { t with horizonHours := v } ]

def Serving.fields : List (Record.Field Serving) :=
  [ .of "listen_address" .text fun v s => { s with listenAddress := v },
    .of "history_capacity" (.nat UInt64.size) fun v s => { s with historyCapacity := v },
    .of "max_nodes" (.nat UInt64.size) fun v s => { s with maxNodes := v } ]

def Logging.fields : List (Record.Field Logging) :=
  [ .of "level" .text fun v l => { l with level := v },
    .of "format" (.named Toml.dialect) fun v l => { l with format := v } ]

namespace Settings

def fields : List (Record.Field Settings) :=
  [ .of "engine" (Record.read Toml.dialect Tuning.fields .standard)
      fun v s => { s with engine := v },
    .of "server" (Record.read Toml.dialect Serving.fields {}) fun v s => { s with serving := v },
    .of "logging" (Record.read Toml.dialect Logging.fields {}) fun v s => { s with logging := v },
    .of "rules" (Rule.decodeAll Toml.dialect) fun v s => { s with rules := some v } ]

/-- The settings of a table: the given values laid over the defaults. -/
def ofTable (members : List (String × Value)) : Except Fault Settings :=
  Record.read Toml.dialect fields {} (Value.table members).toNode

/-- Why a text gives no settings. -/
inductive Refusal where
  /-- The text is no document, or a value in it has the wrong type. -/
  | unreadable
  | invalid (violation : Violation)

/-- Reads a document and checks the settings it gives. -/
def parse (text : String) : Except Refusal Settings :=
  match Toml.parse? text with
  | none => .error .unreadable
  | some members =>
    match ofTable members with
    | .error _ => .error .unreadable
    | .ok s =>
      match s.check with
      | .error v => .error (.invalid v)
      | .ok () => .ok s

end Settings

end Prognosis
