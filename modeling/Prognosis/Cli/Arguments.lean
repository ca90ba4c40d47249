import Prognosis.Text.Bytes

/-!
# Arguments of the command line

The program takes options, then a command, then options of that command.  The option `--config`
stands in either place; the others belong to one command.  No option may be repeated in one place.
Arguments are bytes: what names a file need not be text.
-/

namespace Prognosis.Cli

/-! ## What can be asked for -/

/-- What the program is to do. -/
inductive Command where
  | serve (bind : Option String)
  | predict (input : ByteArray) (json : Bool)
  | config
  deriving DecidableEq

/-- What a command line asks for. -/
inductive Request where
  /-- To carry out a command under the settings at a path, or under those found without one. -/
  | run (settings : Option ByteArray) (command : Command)
  | version
  | help
  deriving DecidableEq

/-- The commands by name. -/
inductive Verb where
  | serve
  | predict
  | config
  deriving DecidableEq, Repr

def Verb.ofName? (name : ByteArray) : Option Verb :=
  if name = "serve".toByteArray then some serve
  else if name = "predict".toByteArray then some predict
  else if name = "config".toByteArray then some config
  else none

/-! ## Words -/

/-- How an argument reads. -/
inductive Word where
  | plain
  /-- Two dashes alone: only plain words may follow. -/
  | escape
  /-- A letter after one dash. -/
  | short (letter : UInt8)
  /-- A name after two dashes, and the value after an equals sign. -/
  | long (name : ByteArray) (value : Option ByteArray)
  deriving DecidableEq

def dash : UInt8 := 45

def equalsSign : UInt8 := 61

/-- A name and the value after its equals sign. -/
def nameAndValue (bytes : List UInt8) : ByteArray × Option ByteArray :=
  match bytes.span (· ≠ equalsSign) with
  | (name, _ :: value) => (name.toByteArray, some value.toByteArray)
  | (name, []) => (name.toByteArray, none)

/-- How an argument reads; a lone dash is a plain word. -/
def Word.ofBytes (bytes : ByteArray) : Word :=
  match bytes.data.toList with
  | a :: b :: rest =>
    if a ≠ dash then plain
    else if b ≠ dash then short b
    else if rest = [] then escape
    else let (name, value) := nameAndValue rest; long name value
  | _ => plain

/-! ## Options -/

/-- The options given in one place. -/
structure Given where
  config : Option ByteArray := none
  bind : Option String := none
  input : Option ByteArray := none
  json : Bool := false
  deriving DecidableEq

/-- What a dash and a name, or a dash and a letter, can stand for. -/
inductive Flag where
  | config
  | bind
  | input
  | json
  | help
  | version
  deriving DecidableEq, Repr

/-- The flag with a name, among those that may stand behind a command, or before any. -/
def Flag.ofName? (verb : Option Verb) (name : ByteArray) : Option Flag :=
  if name = "config".toByteArray then some config
  else if name = "help".toByteArray then some help
  else
    match verb with
    | none => if name = "version".toByteArray then some version else none
    | some .serve => if name = "bind".toByteArray then some bind else none
    | some .predict =>
      if name = "input".toByteArray then some input
      else if name = "json".toByteArray then some json
      else none
    | some .config => none

def Flag.ofLetter? (verb : Option Verb) (letter : UInt8) : Option Flag :=
  if letter = 'h'.toUInt8 then some help
  else if letter = 'V'.toUInt8 ∧ verb = none then some version
  else none

/-- Why options are not read to their end. -/
inductive Stop where
  | misuse
  | help
  | version
  deriving DecidableEq, Repr

namespace Given

/-- Takes in the value of an option.  A path is never empty, and an address is text. -/
def store (g : Given) : Flag → ByteArray → Except Stop Given
  | .config, v =>
    if g.config.isSome ∨ v = .empty then .error .misuse else .ok { g with config := some v }
  | .input, v =>
    if g.input.isSome ∨ v = .empty then .error .misuse else .ok { g with input := some v }
  | .bind, v =>
    match String.fromUTF8? v with
    | some address =>
      if g.bind.isSome then .error .misuse else .ok { g with bind := some address }
    | none => .error .misuse
  | _, _ => .error .misuse

def raise (g : Given) : Flag → Except Stop Given
  | .json => if g.json then .error .misuse else .ok { g with json := true }
  | .help => .error .help
  | .version => .error .version
  | _ => .error .misuse

end Given

def Flag.takesValue : Flag → Bool
  | config | bind | input => true
  | json | help | version => false

/-- Reads options up to the first plain word or escape. -/
def options (verb : Option Verb) (g : Given) :
    List ByteArray → Except Stop (Given × List ByteArray)
  | [] => .ok (g, [])
  | a :: rest =>
    match Word.ofBytes a with
    | .plain | .escape => .ok (g, a :: rest)
    | .short letter =>
      match Flag.ofLetter? verb letter with
      | none => .error .misuse
      | some flag => do options verb (← g.raise flag) rest
    | .long name value =>
      match Flag.ofName? verb name, value with
      | none, _ => .error .misuse
      | some flag, some v => do options verb (← g.store flag v) rest
      | some flag, none =>
        if flag.takesValue then
          match rest with
          | v :: rest =>
            if Word.ofBytes v = .plain then do options verb (← g.store flag v) rest
            else .error .misuse
          | [] => .error .misuse
        else do options verb (← g.raise flag) rest

/-! ## Command lines -/

def Given.command (g : Given) : Verb → Except Stop Command
  | .serve => .ok (.serve g.bind)
  | .config => .ok .config
  | .predict =>
    match g.input with
    | some input => .ok (.predict input g.json)
    | none => .error .misuse

/-- The path of the settings: one behind the command comes before one in front of it, and both come
before the environment.  An empty path in the environment is refused wherever it is looked at. -/
def settingsPath (environment : Option ByteArray) (front back : Given) :
    Except Stop (Option ByteArray) :=
  if environment = some .empty ∧ (front.config.isNone ∨ back.config.isNone) then .error .misuse
  else .ok (back.config <|> front.config <|> environment)

def afterVerb (environment : Option ByteArray) (front : Given) (verb : Verb)
    (args : List ByteArray) : Except Stop Request := do
  let (back, rest) ← options (some verb) {} args
  if rest ≠ [] ∧ rest ≠ ["--".toByteArray] then .error .misuse
  else do
    let command ← back.command verb
    let path ← settingsPath environment front back
    .ok (.run path command)

/-- Reads what follows the word `help`: at most the name of a command. -/
def afterHelp : List ByteArray → Except Stop Request
  | [] => .ok .help
  | [name] =>
    if name = "help".toByteArray ∨ (Verb.ofName? name).isSome then .ok .help else .error .misuse
  | _ => .error .misuse

def commandLine (environment : Option ByteArray) (args : List ByteArray) :
    Except Stop Request := do
  let (front, rest) ← options none {} args
  match rest with
  | [] => .error .misuse
  | name :: rest =>
    match Verb.ofName? name with
    | some verb => afterVerb environment front verb rest
    | none => if name = "help".toByteArray then afterHelp rest else .error .misuse

/-- What a command line asks for, none where it is misused. -/
def Request.ofArguments? (environment : Option ByteArray) (args : List ByteArray) :
    Option Request :=
  match commandLine environment args with
  | .ok r => some r
  | .error .help => some .help
  | .error .version => some .version
  | .error .misuse => none

end Prognosis.Cli
