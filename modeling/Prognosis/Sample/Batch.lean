import Prognosis.Json.Reader
import Prognosis.Sample.Record

/-!
# Texts that hold samples

Three layouts of samples in JSON: a batch is a list of samples or a single one, a history file a
list or a table with a member `samples`, and a scoring request a record whose one field is
`samples`.  Batches and history files are kept whole before they are judged, requests are judged as
they are read.
-/

namespace Prognosis.Batch

open Document

def listed : Decoder (List Sample) := .list (Sample.decode Json.dialect)

/-- The first decoder that succeeds. -/
def orElse {β : Type} (d e : Decoder β) : Decoder β := fun n =>
  match d n with
  | .ok b => .ok b
  | .error _ => e n

/-- A list of samples, or else one sample. -/
def batch : Decoder (List Sample) :=
  .kept Json.dialect (orElse listed fun n => (Sample.decode Json.dialect n).map fun s => [s])

/-- The field `samples`, empty until it is given. -/
def samplesField : Record.Field (Option (List Sample)) := .of "samples" listed fun b _ => some b

/-- A record with the field `samples`. -/
def request : Decoder (List Sample) := fun n => do
  orMismatch (← Record.read Json.dialect [samplesField] none n)

def wrapped : Decoder (List Sample) := fun n =>
  match n with
  | .table .. => request n
  | n => .error n.unexpected

/-- A list of samples, or else a table that holds one. -/
def historyFile : Decoder (List Sample) := .kept Json.dialect (orElse listed wrapped)

end Prognosis.Batch
