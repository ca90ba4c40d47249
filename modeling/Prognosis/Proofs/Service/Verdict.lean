import Prognosis.Proofs.Engine
import Prognosis.Proofs.Service.Refinement

/-!
# Bounded histories do not change verdicts

Valid settings retain at least a window of samples, and a prediction reads no more than a window
(`Engine.predict_lastOf`).  So what is reported about a node is the prediction for everything ever
taken in for it (`prediction_of_whole_log`).
-/

namespace Prognosis

/-! ## Collecting or not -/

/-- The advice on missing samples starts as no other advice does. -/
theorem head_collecting (required : Nat) :
    (Prediction.collecting required).recommendation.toList.head? = some 'C' := by
  have start : "Collecting metrics... need at least ".toList.head? = some 'C' := by simp
  rw [Prediction.collecting, String.toList_append, String.toList_append, List.append_assoc,
    List.head?_append, start, Option.some_or]

theorem head_recommendationFor_ne {α : Type} [Scalar α] (status : Status) (probability : α) :
    (recommendationFor status probability).toList.head? ≠ some 'C' := by
  unfold recommendationFor
  cases status with
  | healthy =>
    dsimp only
    split
    · simp
    · simp
  | warning => simp
  | critical => simp

/-- Samples are reported missing only if they are missing. -/
theorem Engine.predict_ne_collecting (e : Engine Float) (pos : 0 < e.tuning.window)
    {history : List Sample} (full : e.tuning.window ≤ history.length) (required : Nat) :
    (e.predict history).recommendation ≠ (Prediction.collecting required).recommendation := by
  obtain ⟨latest, _, assessed⟩ := e.predict_of_full pos full
  rw [assessed, Engine.assess]
  intro same
  -- No advice on a score has the first letter of the one on missing samples.
  have start := head_collecting required
  rw [← same] at start
  exact head_recommendationFor_ne _ _ start

theorem Prediction.recommendation_of_toValue {p q : Prediction} (h : p.toValue = q.toValue) :
    p.recommendation = q.recommendation := by
  simp only [Prediction.toValue] at h
  injection h with members
  simp only [List.cons.injEq, Prod.mk.injEq, Document.Value.text.injEq, true_and, and_true]
    at members
  exact members.2.2.2.2.2

namespace Service

section

variable {s : Settings} (sound : s.check = .ok ())

include sound

theorem window_le_retained : s.engine.window ≤ (Setup.ofSettings s).limits.retained := by
  have valid := (s.check_eq_ok_iff).1 sound
  have le : s.engine.window ≤ s.serving.historyCapacity := valid.capacity
  show s.engine.window ≤ max s.serving.historyCapacity 1
  omega

/-- Under sound settings samples are reported missing exactly when they are missing. -/
theorem toValue_predict_eq_collecting_iff (history : List Sample) :
    (s.toEngine.predict history).toValue = (Prediction.collecting s.engine.window).toValue ↔
      history.length < s.engine.window := by
  have valid := (s.check_eq_ok_iff).1 sound
  have two : 2 ≤ s.toEngine.tuning.window := valid.engine.window
  constructor
  · intro same
    by_contra long
    have full : s.toEngine.tuning.window ≤ history.length := Nat.not_lt.1 long
    exact s.toEngine.predict_ne_collecting (by omega) full _
      (Prediction.recommendation_of_toValue same)
  · intro short
    rw [s.toEngine.predict_of_short short]
    rfl

/-- **Verdicts.**  Under sound settings the prediction that is answered for a tracked node is the
prediction for all samples ever taken in for it, and so the one answered to a request that brings
them all.  It says that samples are missing exactly when fewer than a window were ever taken
in. -/
theorem prediction_of_whole_log (requests : List (String × Request)) (name : String)
    (tracked : name ∈ (registryAfter (.ofSettings s) requests).names) (now : String)
    (r : Request) (asks : r.call? = some (.predict name)) :
    let setup := Setup.ofSettings s
    let log := logOf (exchanges setup requests) name
    let response := (answer setup now (registryAfter setup requests) r).1
    response.status = 200 ∧
    response.data? = some (s.toEngine.predict log).toValue ∧
    (∀ moment other whole, Request.call? whole = some (.score log) →
      (answer setup moment other whole).1.data? = response.data?) ∧
    (response.data? = some (Prediction.collecting s.engine.window).toValue ↔
      log.length < s.engine.window) := by
  intro setup log response
  have follows := follows_registryAfter setup requests
  have some_log : log ≠ [] := follows.mem_names.1 tracked
  have answered : response =
      (Response.predicted (s.toEngine.predict log) name
        (min log.length setup.limits.retained)).sentTo r := by
    have performed := follows.perform_predict now name
    rw [if_neg some_log] at performed
    rw [← s.toEngine.predict_lastOf (window_le_retained sound) log]
    exact (response_of_call? setup now _ asks).trans (congrArg (Response.sentTo · r) performed)
  have data : response.data? = some (s.toEngine.predict log).toValue := by
    rw [answered, Response.data?_sentTo]
    rfl
  have status : response.status = 200 := by
    rw [answered, Response.status_sentTo]
    rfl
  refine ⟨status, data, ?_, ?_⟩
  · intro moment other whole scores
    rw [data, response_of_call? setup moment other scores, Response.data?_sentTo]
    rfl
  · rw [data, Option.some_inj]
    exact toValue_predict_eq_collecting_iff sound log

end

/-- Two retained samples of three are a full window of two. -/
theorem prediction_after_eviction :
    let s : Settings :=
      { engine := { Tuning.standard with window := 2 }, serving := { historyCapacity := 2 } }
    let batch : Request :=
      { method := "POST"
        path := "/api/v1/nodes/a/samples"
        contentType := some "application/json"
        body := "[[],[],[]]".toByteArray }
    let question : Request :=
      { method := "GET"
        path := "/api/v1/nodes/a/prediction"
        contentType := none }
    let setup := Setup.ofSettings s
    (answer setup "" (registryAfter setup [("", batch)]) question).1.data? ≠
      some (Prediction.collecting 2).toValue := by
  intro s batch question setup missing
  have sound : s.check = .ok () := by
    rw [Settings.check_eq_ok_iff]
    exact ⟨⟨by decide, by decide +kernel, by decide +kernel, by decide +kernel⟩, by decide,
      by decide⟩
  have asks : question.call? = some (.predict "a") :=
    Request.call?_eq_some_iff.2 ⟨.prediction ['a'], by decide +kernel, by decide +kernel,
      Request.callOn?_eq_predict_iff.2 ⟨['a'], rfl, by decide +kernel⟩⟩
  have whole := prediction_of_whole_log sound [("", batch)] "a" (by decide +kernel) "" question asks
  have short := whole.2.2.2.1 missing
  exact absurd short (by decide +kernel)

end Service

end Prognosis
