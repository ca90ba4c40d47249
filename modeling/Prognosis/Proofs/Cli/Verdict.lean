import Prognosis.Proofs.Cli.Lookup
import Prognosis.Proofs.Prediction.Record
import Prognosis.Proofs.Sample.Batch
import Prognosis.Proofs.Score.Order
import Prognosis.Proofs.Service.Call

/-!
# The same verdict on the command line and from the service

What is printed for a history is one JSON text, and it is read back as the prediction for the
samples of that history (`Engine.reads_predict`).  The service answers a request that brings the
same samples with the value of that text.  Where the settings or the history are refused, nothing is
printed (`verdict_agrees`).
-/

namespace Prognosis

open Document

/-! ## What is printed -/

/-- Every prediction is read back from its lines. -/
theorem Engine.reads_predict (e : Engine Float) (history : List Sample) :
    Json.Reads (e.predict history).toValue (Json.pretty (e.predict history).toValue) := by
  obtain ⟨probability, confidence⟩ := e.percentages_predict history
  exact Prediction.reads_pretty (by omega) (by omega)

theorem Engine.decode_predict (e : Engine Float) (history : List Sample) (dialect : Dialect) :
    Prediction.decode dialect (e.predict history).toValue.toNode = .ok (e.predict history) := by
  obtain ⟨probability, confidence⟩ := e.percentages_predict history
  exact Prediction.decode_toValue (by omega) (by omega) dialect

namespace Cli

open Service Settings

variable {files : Files} {environment path : Option ByteArray} {args : List ByteArray}
  {input : ByteArray} {json : Bool} {s : Settings} {samples : List Sample}

theorem perform_predict (history : readHistory files input = .ok samples) :
    perform files s (.predict input json) =
      .ok (.printed (predictionText json (s.toEngine.predict samples))) := by
  rw [perform, history]
  rfl

theorem silent_of_refused (asked : Request.ofArguments? environment args =
      some (.run path (.predict input json)))
    (refused : (∀ s, resolve files environment path ≠ .ok s) ∨
      ∀ samples, readHistory files input ≠ .ok samples) :
    (run files environment args).Silent := by
  rw [run_eq_outcome asked]
  cases found : resolve files environment path with
  | error e =>
    rw [outcome_of_refused found]
    exact Outcome.silent_failed _
  | ok s =>
    cases history : readHistory files input with
    | error f =>
      rw [performAt_of_resolve found, perform, history]
      exact Outcome.silent_failed _
    | ok samples =>
      rcases refused with no_settings | no_history
      · exact absurd found (no_settings s)
      · exact absurd history (no_history samples)

/-- **Verdicts.**  Whatever the settings are and whatever the history file holds: where both are
accepted, the command prints one JSON text, which is decoded as the prediction for the samples of
the file and has the value that the service answers to these samples under the same settings.  Where
one of them is refused, the command fails and prints nothing. -/
theorem verdict_agrees (files : Files)
    (asked : Request.ofArguments? environment args = some (.run path (.predict input true))) :
    let outcome := run files environment args
    (∀ s samples, resolve files environment path = .ok s → readHistory files input = .ok samples →
      outcome.code = 0 ∧ ∃ document v, outcome.text = document ++ "\n" ∧
        Json.decode (Prediction.decode Json.dialect) document =
          .ok (s.toEngine.predict samples) ∧
        Json.parse? document = some v ∧
        ∀ now registry, (Service.perform (.ofSettings s) now registry (.score samples)).1.data? =
            some v ∧
          ∀ r : Service.Request, r.call? = some (.score samples) →
            (answer (.ofSettings s) now registry r).1.status = 200 ∧
              (answer (.ofSettings s) now registry r).1.data? = some v) ∧
    ((∀ s, resolve files environment path ≠ .ok s) ∨
        (∀ samples, readHistory files input ≠ .ok samples) →
      outcome.Silent) := by
  intro outcome
  refine ⟨?_, silent_of_refused asked⟩
  intro s samples found history
  have printed : outcome = .printed (predictionText true (s.toEngine.predict samples)) := by
    show run files environment args = _
    rw [run_eq_outcome asked, performAt_of_resolve found, perform_predict history]
    rfl
  have reads := s.toEngine.reads_predict samples
  have value := reads.parse? ((Prediction.depth_toValue _).trans (by decide))
  rw [printed]
  refine ⟨rfl, Json.pretty (s.toEngine.predict samples).toValue, _, rfl, ?_, value, ?_⟩
  · rw [reads.decode]
    exact s.toEngine.decode_predict samples Json.dialect
  · intro now registry
    refine ⟨rfl, ?_⟩
    intro r scores
    rw [response_of_call? _ now registry scores]
    exact ⟨rfl, rfl⟩

/-! ## A label with quotation marks -/

/-- One rule that fires on any sample. -/
def quotedLabel : String :=
  "[engine]\nwindow_size = 2\n[[rules]]\nsignal = \"cpu\"\nseverity = \"high\"\n" ++
    "[[rules.arms]]\npoints = 40\nlabel = '\"busy\" ≥ 0'\n" ++
    "trigger = \x7b kind = \"elevated\", min_current = -1 \x7d\n"

theorem exists_parse_quotedLabel :
    ∃ s, parse quotedLabel = .ok s ∧
      (s.toEngine.predict [.empty, .empty]).issues.map (·.description) =
        ["\"busy\" ≥ 0 (0.0%)"] := by
  have run : (parse quotedLabel).toOption.any (fun s =>
      decide ((s.toEngine.predict [.empty, .empty]).issues.map (·.description) =
        ["\"busy\" ≥ 0 (0.0%)"])) = true := by
    decide +kernel
  obtain ⟨s, accepted, label⟩ := exists_of_any run
  exact ⟨s, accepted, of_decide_eq_true label⟩

/-- The request that brings the two samples. -/
def pairRequest : Service.Request where
  method := "POST"
  path := "/api/v1/predict"
  contentType := some "application/json"
  body := "\x7b\"samples\":[[],[]]\x7d".toByteArray

theorem call?_pairRequest : pairRequest.call? = some (.score [.empty, .empty]) := by
  have body : decodeBody Batch.request pairRequest = .ok [.empty, .empty] := by
    rw [decodeBody, if_neg (by decide), if_neg (by decide), pairRequest, Json.ofBytes_toByteArray,
      Batch.reads_request.decode]
    rfl
  refine Request.call?_eq_some_iff.2 ⟨.predict, by decide, by decide, ?_⟩
  rw [Request.callOn?, body]
  rfl

/-- A label with quotation marks is printed and answered alike. -/
theorem verdict_of_quotedLabel :
    let files : Files := fun name =>
      if name = "n.toml".toByteArray then some quotedLabel.toByteArray
      else if name = "h.json".toByteArray then some "[[],[]]".toByteArray else none
    let outcome := run files (some "n.toml".toByteArray)
      (["predict", "--json", "--input", "h.json"].map String.toByteArray)
    outcome.code = 0 ∧ ∃ s document v, outcome.text = document ++ "\n" ∧
      (s.toEngine.predict [.empty, .empty]).issues.map (·.description) =
        ["\"busy\" ≥ 0 (0.0%)"] ∧
      Json.decode (Prediction.decode Json.dialect) document =
        .ok (s.toEngine.predict [.empty, .empty]) ∧
      Json.parse? document = some v ∧
      (answer (.ofSettings s) "" .empty pairRequest).1.data? = some v := by
  intro files outcome
  obtain ⟨s, accepted, label⟩ := exists_parse_quotedLabel
  have settings : resolve files (some "n.toml".toByteArray) (some "n.toml".toByteArray) = .ok s := by
    refine resolve_eq_ok_iff.2 ⟨quotedLabel, Files.text?_of_toByteArray ?_, accepted⟩
    exact if_pos rfl
  have history : readHistory files "h.json".toByteArray = .ok [.empty, .empty] := by
    have other : "h.json".toByteArray ≠ "n.toml".toByteArray := by decide
    have text : files.text? "h.json".toByteArray = some "[[],[]]" :=
      Files.text?_of_toByteArray ((if_neg other).trans (if_pos rfl))
    rw [readHistory, text]
    dsimp only
    rw [Batch.reads_pair.decode]
    rfl
  have asked := @ofArguments?_predict (some "n.toml".toByteArray) "h.json".toByteArray
    (by decide) (by decide) (by decide)
  obtain ⟨code, document, v, printed, decoded, value, answered⟩ :=
    (verdict_agrees files asked).1 s _ settings history
  exact ⟨code, s, document, v, printed, label, decoded, value,
    ((answered "" .empty).2 _ call?_pairRequest).2⟩

end Cli

end Prognosis
