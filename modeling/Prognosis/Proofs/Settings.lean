import Prognosis.Proofs.Score
import Prognosis.Sample.Batch
import Prognosis.Settings.Record

/-!
# Accepted settings

Settings that are accepted are valid (`valid_of_parse`), so that a prediction under them follows the
score of its history.  Its status and its reported probability agree unless that score is undefined
(`status_agrees`); the check does not look at the points of rules, and `nan` points bring that about
(`critical_at_zero_percent`).
-/

namespace Prognosis.Settings

open Binary64

/-! ## What accepting means -/

theorem parse_eq_ok_iff {text : String} {s : Settings} :
    parse text = .ok s ↔
      ∃ members, Toml.parse? text = some members ∧ ofTable members = .ok s ∧ s.Valid := by
  constructor
  · intro accepted
    unfold parse at accepted
    cases document : Toml.parse? text with
    | none =>
      rw [document] at accepted
      cases accepted
    | some members =>
      rw [document] at accepted
      dsimp only at accepted
      cases decoded : ofTable members with
      | error fault =>
        rw [decoded] at accepted
        cases accepted
      | ok s' =>
        rw [decoded] at accepted
        dsimp only at accepted
        cases checked : s'.check with
        | error violation =>
          rw [checked] at accepted
          cases accepted
        | ok u =>
          rw [checked] at accepted
          cases accepted
          exact ⟨members, rfl, decoded, (check_eq_ok_iff _).1 checked⟩
  · rintro ⟨members, document, decoded, valid⟩
    have checked := (check_eq_ok_iff _).2 valid
    rw [parse, document]
    dsimp only
    rw [decoded]
    dsimp only
    rw [checked]

theorem valid_of_parse {text : String} {s : Settings} (accepted : parse text = .ok s) :
    s.Valid := by
  obtain ⟨_, _, _, valid⟩ := parse_eq_ok_iff.1 accepted
  exact valid

/-! ## Status and reported probability -/

/-- **Status and probability.**  Under accepted settings, the status of a full history and its
reported probability agree if its score is defined, as it is where all points are finite.  An
undefined score is critical and reported as zero. -/
theorem status_agrees {text : String} {s : Settings} {history : List Sample}
    (accepted : parse text = .ok s) (full : s.engine.window ≤ history.length) :
    let p := s.toEngine.predict history
    let score := (s.toEngine.risk history).points
    (score.isNaN = false → p.status.AgreesWith p.failureProbability) ∧
      (score.isNaN = true → p.status = .critical ∧ p.failureProbability = 0) ∧
      ((∀ rule ∈ s.ruleSet, ∀ a ∈ rule.arms, a.points.isFinite = true) → score.isNaN = false) := by
  intro p score
  have pos : 0 < s.toEngine.tuning.window := by
    have := (valid_of_parse accepted).engine.window
    show 0 < s.engine.window
    omega
  have report : p = .ofRisk s.engine.horizonHours (s.toEngine.risk history) :=
    s.toEngine.predict_eq_ofRisk pos full
  rw [report]
  exact ⟨Prediction.agrees_ofRisk, Prediction.ofRisk_of_undefined, s.toEngine.score_defined history⟩

theorem parse_nil : parse "" = .ok {} := rfl

/-- Nothing is configured, and a processor stays at 90 percent. -/
theorem status_agrees_of_busy_processor :
    let history := List.replicate 12 { Sample.empty with cpuUsage := 90 }
    let p := (toEngine {}).predict history
    p.status.AgreesWith p.failureProbability := by
  intro history p
  obtain ⟨agrees, -, defined⟩ := @status_agrees "" {} history parse_nil (by decide)
  exact agrees (defined (by decide +kernel))

/-- Two samples a window, and one rule with given points for a busy processor. -/
def oneRule (points : String) : String :=
  "[engine]\nwindow_size = 2\n[[rules]]\nsignal = \"cpu\"\nseverity = \"high\"\n" ++
    "[[rules.arms]]\npoints = " ++ points ++
    "\nlabel = \"busy\"\ntrigger = \x7b kind = \"elevated\", min_current = 50 \x7d\n"

/-- Two samples at 90 percent. -/
def busySamples : String := "[\x7b\"cpu_usage\":90\x7d,\x7b\"cpu_usage\":90\x7d]"

/-- Points that are no number make a critical status of zero percent. -/
theorem critical_at_zero_percent :
    ∃ s history, parse (oneRule "nan") = .ok s ∧
      Json.decode Batch.listed busySamples = .ok history ∧
      s.engine.window ≤ history.length ∧
      (s.toEngine.predict history).status = .critical ∧
      (s.toEngine.predict history).failureProbability = 0 := by
  have run : (parse (oneRule "nan")).toOption.any (fun s =>
      (Json.decode Batch.listed busySamples).toOption.any fun history =>
        decide (s.engine.window ≤ history.length ∧
          (s.toEngine.predict history).status = .critical ∧
          (s.toEngine.predict history).failureProbability = 0)) = true := by
    decide +kernel
  cases accepted : parse (oneRule "nan") with
  | error refusal =>
    rw [accepted] at run
    cases run
  | ok s =>
    cases decoded : Json.decode Batch.listed busySamples with
    | error fault =>
      rw [accepted, decoded] at run
      cases run
    | ok history =>
      rw [accepted, decoded] at run
      exact ⟨s, history, rfl, rfl, of_decide_eq_true run⟩

end Prognosis.Settings
