import Prognosis.Cli.Arguments
import Prognosis.Json.Printer
import Prognosis.Prediction.Record
import Prognosis.Prediction.Report
import Prognosis.Sample.Batch
import Prognosis.Service.Answer
import Prognosis.Service.Endpoint
import Prognosis.Settings.Lookup
import Prognosis.Settings.Printer

/-!
# Running a command line

`run` takes the files, the environment and the arguments to what the program prints and how it ends.
Settings are loaded before the command is looked at, so their faults come first.
-/

namespace Prognosis.Cli

open Document Service

/-! ## Failures -/

/-- Why a command is not carried out. -/
inductive Failure where
  | settings (e : Settings.LoadError)
  | historyNotReadable (path : ByteArray)
  | historyRefused (path : ByteArray)
  | badAddress
  | settingsNotWritable

def Failure.message : Failure → String
  | settings e => e.context
  | historyNotReadable path => "failed to read history file: " ++ Text.lossy path
  | historyRefused path => "failed to parse history file: " ++ Text.lossy path
  | badAddress => "invalid socket address syntax"
  | settingsNotWritable => "out-of-range value for u64 type"

/-! ## Ends -/

/-- What a command line comes to. -/
inductive Outcome where
  /-- The command is carried out and prints a text. -/
  | printed (text : String)
  | failed (f : Failure)
  | misused
  /-- The arguments are to be explained. -/
  | explain
  /-- The service is to listen at an endpoint. -/
  | listen (place : Endpoint) (setup : Setup)

def Outcome.code : Outcome → Nat
  | failed _ => 1
  | misused => 2
  | printed _ | explain | listen .. => 0

def Outcome.text : Outcome → String
  | printed s => s
  | _ => ""

def Outcome.report? : Outcome → Option String
  | failed f => some ("Error: " ++ f.message)
  | _ => none

/-! ## Commands -/

def readHistory (files : Files) (path : ByteArray) : Except Failure (List Sample) :=
  match files.text? path with
  | none => .error (.historyNotReadable path)
  | some text => (Json.decode Batch.historyFile text).mapError fun _ => .historyRefused path

/-- The text of a prediction, for machines or for people. -/
def predictionText (json : Bool) (p : Prediction) : String :=
  if json then Json.pretty p.toValue ++ "\n" else p.report

/-- Where the service is to listen. -/
def endpoint (s : Settings) (bind : Option String) : Except Failure Endpoint :=
  match Endpoint.read? (bind.getD s.serving.listenAddress) with
  | some e => .ok e
  | none => .error .badAddress

def perform (files : Files) (s : Settings) : Command → Except Failure Outcome
  | .serve bind => (endpoint s bind).map fun e => .listen e (.ofSettings s)
  | .predict input json =>
    (readHistory files input).map fun samples =>
      .printed (predictionText json (s.toEngine.predict samples))
  | .config =>
    match s.write? with
    | some text => .ok (.printed text)
    | none => .error .settingsNotWritable

/-- Carries out a command under the settings at a path, or under those found without one. -/
def performAt (files : Files) (environment path : Option ByteArray) (c : Command) :
    Except Failure Outcome := do
  let s ← (Settings.resolve files environment path).mapError .settings
  perform files s c

def Request.outcome (files : Files) (environment : Option ByteArray) : Request → Outcome
  | version => .printed ("noderisk " ++ Service.version ++ "\n")
  | help => .explain
  | run path command =>
    match performAt files environment path command with
    | .ok o => o
    | .error f => .failed f

def run (files : Files) (environment : Option ByteArray) (args : List ByteArray) : Outcome :=
  match Request.ofArguments? environment args with
  | none => .misused
  | some r => r.outcome files environment

/-! ## Files -/

def Command.paths : Command → List ByteArray
  | serve _ | config => []
  | predict input _ => [input]

def paths (environment : Option ByteArray) (args : List ByteArray) : List ByteArray :=
  match Request.ofArguments? environment args with
  | some (.run (some path) command) => path :: command.paths
  | some (.run none command) => Settings.fallbacks environment ++ command.paths
  | _ => []

end Prognosis.Cli
