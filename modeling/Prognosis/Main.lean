import Prognosis.Cli.Run

/-!
# The program

Reads the files that a command line names, runs it, prints, and ends with its exit code.
-/

namespace Prognosis.Program

/-- The content of a file, none for one that cannot be read. -/
def readFile? (path : ByteArray) : IO (Option ByteArray) := do
  match String.fromUTF8? path with
  | none => pure none
  | some path =>
    try
      some <$> IO.FS.readBinFile path
    catch _ =>
      pure none

def readFiles : List ByteArray → IO Files
  | [] => pure fun _ => none
  | path :: paths => do
    let content ← readFile? path
    let files ← readFiles paths
    pure fun p => if p = path then content else files p

def usage : String :=
  "Usage: noderisk [--config CONFIG] <COMMAND>\n\n" ++
    "Commands:\n" ++
    "  serve [--bind BIND]             Start the HTTP API\n" ++
    "  predict --input INPUT [--json]  Score a node history read from a JSON file\n" ++
    "  config                          Print the effective configuration as TOML\n"

/-- Prints an outcome and gives its exit code.  The listener itself is not part of the program. -/
def finish (outcome : Cli.Outcome) : IO UInt32 := do
  IO.print outcome.text
  match outcome with
  | .misused => IO.eprint usage
  | .explain => IO.print usage
  | .listen .. => IO.eprintln "Error: no listener is linked into this program"; return 1
  | .printed _ | .failed _ => pure ()
  match outcome.report? with
  | some line => IO.eprintln line
  | none => pure ()
  return outcome.code.toUInt32

end Prognosis.Program

open Prognosis in
def main (args : List String) : IO UInt32 := do
  let environment := (← IO.getEnv "NODERISK_CONFIG").map String.toByteArray
  let args := args.map String.toByteArray
  let files ← Program.readFiles (Cli.paths environment args)
  Program.finish (Cli.run files environment args)
