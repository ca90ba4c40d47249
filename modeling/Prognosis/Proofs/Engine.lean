import Mathlib.Data.List.Forall2
import Prognosis.Proofs.Stream

/-!
# What a prediction reads

Outcomes are folded rule by rule (`foldl_outcomes`).  A history shorter than the window is reported
as such (`predict_of_short`); any other is assessed by the samples in the window alone
(`predict_of_full`), so a history that retains a window predicts what the whole stream predicts
(`predict_lastOf`), and of the samples in the window only the watched values count
(`reading_of_alike`).
-/

namespace Prognosis

/-! ## Folding rules -/

/-- Folding outcomes is folding rules. -/
theorem Engine.foldl_outcomes {α : Type} [Scalar α] (rules : List (Rule α))
    (readings : Signal → Reading α) (risk : Risk α) :
    (outcomes rules readings).foldl Risk.absorb risk =
      rules.foldl (fun risk rule => (rule.evaluate (readings rule.signal)).elim risk risk.absorb)
        risk := by
  rw [outcomes, List.foldl_filterMap]
  congr 1
  funext risk rule
  cases rule.evaluate (readings rule.signal) with
  | none => rfl
  | some o => rfl

/-! ## Short and full histories -/

namespace Engine

variable (e : Engine Float)

/-- A history that retains a window predicts what the whole stream predicts. -/
theorem predict_lastOf {n : Nat} (le : e.tuning.window ≤ n) (history : List Sample) :
    e.predict (lastOf n history) = e.predict history := by
  rw [predict, predict, length_lastOf, lastOf_lastOf le]
  by_cases short : history.length < e.tuning.window
  · rw [if_pos short, if_pos (by omega)]
  · rw [if_neg short, if_neg (by omega)]

theorem predict_of_short {history : List Sample} (short : history.length < e.tuning.window) :
    e.predict history = .collecting e.tuning.window := by
  rw [predict, if_pos short]

/-- Without a window there is nothing to assess. -/
theorem predict_of_no_window (none : e.tuning.window = 0) (history : List Sample) :
    e.predict history = .collecting 0 := by
  rw [predict, none, if_neg (Nat.not_lt_zero _), assessWindow?, lastOf, Nat.sub_zero,
    List.drop_length]
  rfl

/-- A full window is assessed, with its newest sample as the latest. -/
theorem predict_of_full {history : List Sample} (pos : 0 < e.tuning.window)
    (full : e.tuning.window ≤ history.length) :
    ∃ latest, history.getLast? = some latest ∧
      e.predict history =
        e.assess (reading e.tuning (lastOf e.tuning.window history)) latest.utilizationScore := by
  cases newest : history.getLast? with
  | none =>
    rw [List.getLast?_eq_none_iff.1 newest, List.length_nil] at full
    omega
  | some latest =>
    refine ⟨latest, rfl, ?_⟩
    rw [predict, if_neg (by omega), assessWindow?, getLast?_lastOf pos, newest, Option.map_some,
      Option.getD_some]

end Engine

/-! ## Windows that look the same -/

/-- Samples that agree on what is watched: the memory counts only as a percentage. -/
structure Sample.Alike (s s' : Sample) : Prop where
  cpuUsage : s.cpuUsage = s'.cpuUsage
  memoryUsedPct : s.memoryUsedPct = s'.memoryUsedPct
  networkLatencyMs : s.networkLatencyMs = s'.networkLatencyMs

theorem Sample.Alike.value {s s' : Sample} (alike : s.Alike s') (signal : Signal) :
    signal.value s = signal.value s' := by
  cases signal with
  | cpu => exact alike.cpuUsage
  | memory => exact alike.memoryUsedPct
  | network => exact alike.networkLatencyMs

namespace Engine

/-- Windows that are alike in all positions have the same readings. -/
theorem reading_of_alike {samples samples' : List Sample}
    (alike : List.Forall₂ Sample.Alike samples samples') (t : Tuning Float) :
    reading t samples = reading t samples' := by
  funext signal
  have values : samples.map signal.value = samples'.map signal.value := by
    induction alike with
    | nil => rfl
    | cons head _ ih => rw [List.map_cons, List.map_cons, head.value, ih]
  unfold reading
  rw [values]

/-- **What a prediction may depend on.**  Full histories whose windows are alike in all positions,
and whose newest samples have the same utilization score, lead to the same prediction: neither older
samples nor any other field of the samples in the window have a say. -/
theorem predict_of_alike (e : Engine Float) (pos : 1 ≤ e.tuning.window)
    {history history' : List Sample} (full : e.tuning.window ≤ history.length)
    (full' : e.tuning.window ≤ history'.length)
    (alike : List.Forall₂ Sample.Alike (lastOf e.tuning.window history)
      (lastOf e.tuning.window history'))
    (load : history.getLast?.map Sample.utilizationScore =
      history'.getLast?.map Sample.utilizationScore) :
    e.predict history = e.predict history' := by
  obtain ⟨latest, newest, assessed⟩ := e.predict_of_full pos full
  obtain ⟨latest', newest', assessed'⟩ := e.predict_of_full pos full'
  have same_load : latest.utilizationScore = latest'.utilizationScore := by
    rw [newest, newest'] at load
    exact Option.some.inj load
  rw [assessed, assessed', reading_of_alike alike, same_load]

/-- Memory on another scale, an error, another instant and an older sample change nothing. -/
theorem predict_of_alike_of_rescaled_memory :
    let e : Engine Float := ⟨{ Tuning.standard with window := 2 }, Ladder.standard⟩
    let s : Sample := { cpuUsage := 91, memoryUsed := 3, memoryTotal := 4, utilizationScore := 40 }
    let s' : Sample := { s with
      timestamp := ⟨⟨2024, 5, 1, by decide⟩, 720, 0, 0⟩
      memoryUsed := 6
      memoryTotal := 8
      errorCount := 7 }
    s ≠ s' ∧ e.predict [s, s] = e.predict [.empty, { s' with utilizationScore := 0 }, s'] := by
  intro e s s'
  have alike : s.Alike s' := ⟨rfl, by decide +kernel, rfl⟩
  constructor
  · intro same
    have counts : s.errorCount = s'.errorCount := by rw [same]
    exact absurd counts (by decide)
  · exact e.predict_of_alike (by decide) (by decide) (by decide)
      (.cons ⟨rfl, alike.memoryUsedPct, rfl⟩ (.cons alike .nil)) rfl

end Engine

end Prognosis
