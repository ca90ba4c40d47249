import Prognosis.Json.Printer
import Prognosis.Prediction.Record
import Prognosis.Sample.Batch
import Prognosis.Service.Message
import Prognosis.Service.Registry
import Prognosis.Settings

/-!
# Answering requests

`answer` is one step of the service: a registry and a request give a response and the registry after
it.  Only an accepted batch changes what the registry holds.
-/

namespace Prognosis.Service

open Document

def version : String := "0.1.0"

/-- What stays the same while the service runs. -/
structure Setup where
  engine : Engine Float
  limits : Registry.Limits

/-- The setup that settings describe. -/
def Setup.ofSettings (s : Settings) : Setup :=
  ⟨s.toEngine, ⟨s.serving.historyCapacity, s.serving.maxNodes⟩⟩

/-! ## Responses -/

def json (status : Nat) (members : List (String × Value)) : Response :=
  ⟨status, .json (.table members), true⟩

/-- A request that is refused before it is handled. -/
def refusal (status : Nat) : Response := ⟨status, .reason, true⟩

/-- The time of the answer and the version of the program. -/
def stamp (now : String) : Value :=
  .table [("timestamp", .text now), ("version", .text version)]

def notFound : Response := ⟨404, .plain "not found", true⟩

/-- The answer to a path that is asked with another method than it takes. -/
def wrongMethod : Response := refusal 405

/-- The answer to a path with a name that is no text. -/
def badName : Response := refusal 400

/-! ## Bodies -/

/-- The longest body that is read, in bytes. -/
def bodyLimit : Nat := 2 * 1024 * 1024

/-- Why a body is refused. -/
inductive BodyError where
  | notJson
  | tooLong
  | fault (f : Fault)
  deriving DecidableEq, Repr

/-- The response to a refused body. -/
def BodyError.response : BodyError → Response
  | notJson => refusal 415
  | tooLong => refusal 413
  | fault .malformed => refusal 400
  | fault .mismatch => refusal 422

/-- Decodes the body of a request: first its content type, then its length, then its text. -/
def decodeBody {β : Type} (d : Decoder β) (r : Request) : Except BodyError β :=
  if ¬ r.contentType.any isJson then .error .notJson
  else if bodyLimit < r.body.size then .error .tooLong
  else (Json.decode d (Json.ofBytes r.body)).mapError .fault

/-! ## Handlers -/

def health (now : String) : Response :=
  json 200
    [ ("data", .table [("status", .text "ok"), ("version", .text version)]),
      ("meta", stamp now) ]

/-- A prediction for samples that are not kept. -/
def predict (setup : Setup) (now : String) (r : Request) : Response :=
  match decodeBody Batch.request r with
  | .error e => e.response
  | .ok samples =>
    json 200 [("data", (setup.engine.predict samples).toValue), ("meta", stamp now)]

/-- All tracked nodes with the number of their samples. -/
def list (registry : Registry) : Response :=
  let nodes := registry.nodes.map fun (name, h) =>
    Value.table [("node", .text name), ("samples", .nat h.size)]
  json 200 [("data", .list nodes), ("meta", .table [("total", .nat registry.size)])]

/-- Takes in a batch of samples for a node. -/
def ingest (setup : Setup) (now : String) (registry : Registry) (name : String) (r : Request) :
    Response × Registry :=
  match decodeBody Batch.batch r with
  | .error e => (e.response, registry)
  | .ok batch =>
    match registry.ingest? setup.limits name batch with
    | none => (json 503 [("error", .text "node limit reached")], registry)
    | some (after, buffered) =>
      (json 200
        [ ("data", .table
            [ ("node", .text name),
              ("received", .nat batch.length),
              ("buffered", .nat buffered) ]),
          ("meta", stamp now) ], after)

/-- A prediction for a tracked node.  Its history is left as reading it in one piece leaves it. -/
def predictNode (setup : Setup) (registry : Registry) (name : String) : Response × Registry :=
  match registry.find? name with
  | none => (json 404 [("error", .text ("unknown node: " ++ name))], registry)
  | some h =>
    let (samples, h) := h.samples
    (json 200
      [ ("data", (setup.engine.predict samples).toValue),
        ("meta", .table [("node", .text name), ("samples", .nat h.size)]) ], registry.put name h)

/-- Runs a handler with the name that a segment encodes. -/
def withName (segment : List Char) (registry : Registry)
    (handler : String → Response × Registry) : Response × Registry :=
  match decodeName? segment with
  | none => (badName, registry)
  | some name => handler name

/-- Runs the handler of a route. -/
def handle (setup : Setup) (now : String) (registry : Registry) (r : Request) :
    Route → Response × Registry
  | .health => (health now, registry)
  | .predict => (predict setup now r, registry)
  | .nodes => (list registry, registry)
  | .samples segment => withName segment registry fun name => ingest setup now registry name r
  | .prediction segment => withName segment registry fun name => predictNode setup registry name

def answer (setup : Setup) (now : String) (registry : Registry) (r : Request) :
    Response × Registry :=
  let (response, after) := match Route.ofPath? r.path with
    | none => (notFound, registry)
    | some route =>
      if route.takes r.method then handle setup now registry r route else (wrongMethod, registry)
  ({ response with sent := decide (r.method ≠ "HEAD") }, after)

/-- Answers requests one after the other, each with its moment. -/
def answerAll (setup : Setup) (registry : Registry) :
    List (String × Request) → List Response × Registry
  | [] => ([], registry)
  | (now, r) :: rest =>
    let (response, after) := answer setup now registry r
    let (responses, last) := answerAll setup after rest
    (response :: responses, last)

end Prognosis.Service
