import Mathlib.Data.List.Perm.Basic
import Mathlib.Order.Bounds.Basic
import Prognosis.Proofs.Rule
import Prognosis.Proofs.Score

/-!
# When a crossing is reported

A rule projects a crossing where the arm that decides names a threshold and the signal is on its way
there (`Rule.Projects`).  Outcomes are taken in one by one, and what is kept of their crossings is
the least (`Earliest.foldl_absorb`).  Only that one is held against the horizon, so the time to
failure can be told from the set of all crossings (`Engine.timed_by_crossings`).
-/

namespace Prognosis

open Scalar Binary64

/-! ## Crossings -/

/-- A rule projects a crossing in so many hours: the arm that decides has a threshold, the signal is
rising, and it gets there in a finite time that is still to come. -/
def Rule.Projects (rule : Rule Float) (r : Reading Float) (hours : Float) : Prop :=
  ∃ a threshold, rule.DecidedBy r a ∧ a.projection = some threshold ∧ 0 < r.trend ∧
    hours = (threshold - r.current) / r.trend ∧ hours.isFinite = true ∧ 0 < hours

theorem Rule.projects_iff {rule : Rule Float} {r : Reading Float} {hours : Float} :
    rule.Projects r hours ↔ ∃ o, rule.evaluate r = some o ∧ o.hours = some hours := by
  constructor
  · rintro ⟨a, threshold, decides, crossing⟩
    exact ⟨_, evaluate_eq_some_iff.2 ⟨a, decides, rfl⟩,
      Arm.crossing?_eq_some_iff.2 ⟨threshold, crossing⟩⟩
  · rintro ⟨o, fired, carried⟩
    obtain ⟨a, decides, rfl⟩ := evaluate_eq_some_iff.1 fired
    obtain ⟨threshold, crossing⟩ := Arm.crossing?_eq_some_iff.1 carried
    exact ⟨a, threshold, decides, crossing⟩

theorem Rule.Projects.defined {rule : Rule Float} {r : Reading Float} {hours : Float}
    (projects : rule.Projects r hours) : hours.isNaN = false := by
  obtain ⟨-, -, -, -, -, -, finite, -⟩ := projects
  exact defined_of_finite finite

/-- The crossings that the rules of an engine project on a history, each for its own signal. -/
def Engine.crossings (e : Engine Float) (history : List Sample) : Set Float :=
  {hours | ∃ rule ∈ e.rules,
    rule.Projects (reading e.tuning (lastOf e.tuning.window history) rule.signal) hours}

theorem Engine.mem_crossings_iff {e : Engine Float} {history : List Sample} {hours : Float} :
    hours ∈ e.crossings history ↔
      ∃ o ∈ outcomes e.rules (reading e.tuning (lastOf e.tuning.window history)),
        o.hours = some hours := by
  simp only [crossings, Set.mem_ofPred_eq, Rule.projects_iff, outcomes, List.mem_filterMap]
  constructor
  · rintro ⟨rule, mem, o, fired, carried⟩
    exact ⟨o, ⟨rule, mem, fired⟩, carried⟩
  · rintro ⟨o, ⟨rule, mem, fired⟩, carried⟩
    exact ⟨rule, mem, o, fired, carried⟩

/-! ## The least crossing -/

namespace Binary64

variable {x y : Float}

protected theorem le_of_lt (less : x < y) : x ≤ y := by
  obtain ⟨x_defined, y_defined⟩ := defined_of_lt less
  rw [lt_iff_value x_defined y_defined] at less
  exact (le_iff_value x_defined y_defined).2 less.le

protected theorem le_of_not_lt (x_defined : x.isNaN = false) (y_defined : y.isNaN = false)
    (not_less : ¬ y < x) : x ≤ y := by
  rw [lt_iff_value y_defined x_defined, not_lt] at not_less
  exact (le_iff_value x_defined y_defined).2 not_less

theorem eq_of_le_of_le (pos : 0 < x) (le : x ≤ y) (ge : y ≤ x) : x = y := by
  obtain ⟨x_defined, y_defined⟩ := defined_of_le le
  have positive : (0 : ℕ) < value x := (num_lt_iff x_defined (by norm_num)).1 pos
  refine eq_of_value x_defined y_defined ?_ (by simpa using positive.ne')
  exact le_antisymm ((le_iff_value x_defined y_defined).1 le)
    ((le_iff_value y_defined x_defined).1 ge)

end Binary64

/-- What is kept of a set of crossings: the least one, if there are any. -/
def Earliest (crossings : Set Float) : Option Float → Prop
  | none => crossings = ∅
  | some hours => IsLeast crossings hours

/-- What is kept of crossings when one more is projected. -/
theorem Earliest.insert {crossings : Set Float} {risk : Risk Float} {hours : Float}
    (kept : Earliest crossings risk.earliest) (defined : ∀ h ∈ crossings, h.isNaN = false)
    (hours_defined : hours.isNaN = false) :
    Earliest (insert hours crossings) (risk.project hours).earliest := by
  unfold Risk.project
  cases earliest : risk.earliest with
  | none =>
    rw [earliest] at kept
    obtain rfl : crossings = ∅ := kept
    refine ⟨Set.mem_insert _ _, fun h mem => ?_⟩
    obtain rfl | absent := mem
    · exact le_refl_of_defined hours_defined
    · exact absurd absent (Set.notMem_empty h)
  | some current =>
    rw [earliest] at kept
    obtain ⟨mem, le⟩ : IsLeast crossings current := kept
    have current_defined := defined current mem
    show IsLeast _ (least current hours)
    have given : Scalar.defined current = true := by
      show (!current.isNaN) = true
      rw [current_defined]
      rfl
    unfold least
    by_cases sooner : hours < current
    · rw [if_pos sooner]
      refine ⟨Set.mem_insert _ _, fun h mem => ?_⟩
      obtain rfl | mem := mem
      · exact le_refl_of_defined hours_defined
      · exact Binary64.le_trans (Binary64.le_of_lt sooner) (le mem)
    · rw [if_neg sooner, if_pos given]
      refine ⟨Set.mem_insert_of_mem _ mem, fun h mem => ?_⟩
      obtain rfl | mem := mem
      · exact Binary64.le_of_not_lt current_defined hours_defined sooner
      · exact le mem

/-- What is kept of crossings when an outcome is taken in. -/
theorem Earliest.absorb {crossings : Set Float} {risk : Risk Float} {o : Outcome Float}
    (kept : Earliest crossings risk.earliest) (defined : ∀ h ∈ crossings, h.isNaN = false)
    (o_defined : ∀ h, o.hours = some h → h.isNaN = false) :
    Earliest (crossings ∪ {h | o.hours = some h}) (risk.absorb o).earliest := by
  unfold Risk.absorb
  cases carried : o.hours with
  | none =>
    have none_more : {h : Float | none = some h} = ∅ := by simp
    rw [none_more, Set.union_empty]
    exact kept
  | some hours =>
    have one : {h | some hours = some h} = {hours} := by
      ext h
      simp [eq_comm]
    rw [one, Set.union_singleton]
    exact Earliest.insert kept defined (o_defined hours carried)

/-- **Folding crossings.**  What is kept of crossings when outcomes are taken in one by one. -/
theorem Earliest.foldl_absorb {outcomes : List (Outcome Float)} {crossings : Set Float}
    {risk : Risk Float} (kept : Earliest crossings risk.earliest)
    (defined : ∀ h ∈ crossings, h.isNaN = false)
    (all_defined : ∀ o ∈ outcomes, ∀ h, o.hours = some h → h.isNaN = false) :
    Earliest (crossings ∪ {h | ∃ o ∈ outcomes, o.hours = some h})
      (outcomes.foldl Risk.absorb risk).earliest := by
  induction outcomes generalizing crossings risk with
  | nil => simpa using kept
  | cons o outcomes ih =>
    rw [List.forall_mem_cons] at all_defined
    have regroup : crossings ∪ {h | ∃ p ∈ o :: outcomes, p.hours = some h} =
        crossings ∪ {h | o.hours = some h} ∪ {h | ∃ p ∈ outcomes, p.hours = some h} := by
      ext h
      simp [or_assoc]
    rw [regroup, List.foldl_cons]
    refine ih (kept.absorb defined all_defined.1) ?_ all_defined.2
    rintro h (mem | carried)
    · exact defined h mem
    · exact all_defined.1 h carried

namespace Engine

variable {e : Engine Float} {history : List Sample}

/-- The earliest crossing of a risk is the least of the crossings. -/
theorem earliest_risk : Earliest (e.crossings history) (e.risk history).earliest := by
  have same : e.crossings history = ∅ ∪
      {h | ∃ o ∈ outcomes e.rules (reading e.tuning (lastOf e.tuning.window history)),
        o.hours = some h} := by
    ext h
    rw [mem_crossings_iff, Set.empty_union, Set.mem_ofPred_eq]
  rw [same]
  refine @Earliest.foldl_absorb _ ∅ _ rfl (fun h absent => absurd absent (Set.notMem_empty h)) ?_
  intro o mem h carried
  obtain ⟨rule, -, projects⟩ := mem_crossings_iff.2 ⟨o, mem, carried⟩
  exact projects.defined

end Engine

/-! ## The report -/

/-- How the time to failure of a report follows from all crossings and the horizon. -/
structure Prediction.TimedBy (p : Prediction) (crossings : Set Float) (horizon : Float) : Prop where
  /-- Where there are crossings, one of them is the least. -/
  existsUnique_least : crossings.Nonempty → ∃! hours, IsLeast crossings hours
  isSome_iff : p.timeToFailure.isSome ↔ ∃ hours, IsLeast crossings hours ∧ hours < horizon
  eq_duration : ∀ hours, IsLeast crossings hours → hours < horizon →
    p.timeToFailure = some (Wording.duration hours)

namespace Engine

variable (e : Engine Float) {history : List Sample}

theorem crossings_pos {hours : Float} (mem : hours ∈ e.crossings history) : 0 < hours := by
  obtain ⟨rule, -, -, -, -, -, -, -, -, pos⟩ := mem
  exact pos

theorem least_unique {h h' : Float} (least : IsLeast (e.crossings history) h)
    (least' : IsLeast (e.crossings history) h') : h = h' :=
  eq_of_le_of_le (e.crossings_pos least.1) (least.2 least'.1) (least'.2 least.1)

/-- The earliest crossing is reported if it lies within the horizon. -/
theorem timeToFailure_of_full (pos : 0 < e.tuning.window)
    (full : e.tuning.window ≤ history.length) :
    (e.predict history).timeToFailure =
      ((e.risk history).earliest.filter fun h => decide (h < e.tuning.horizonHours)).map
        Wording.duration := by
  rw [e.predict_eq_ofRisk pos full]
  rfl

theorem timedBy_crossings_of_full (pos : 0 < e.tuning.window)
    (full : e.tuning.window ≤ history.length) :
    (e.predict history).TimedBy (e.crossings history) e.tuning.horizonHours := by
  have report := e.timeToFailure_of_full pos full
  have kept := @earliest_risk e history
  cases earliest : (e.risk history).earliest with
  | none =>
    rw [earliest] at report kept
    have none_ahead : e.crossings history = ∅ := kept
    have nowhere (h : Float) : ¬ IsLeast (e.crossings history) h := by
      intro least
      rw [none_ahead] at least
      exact Set.notMem_empty h least.1
    constructor
    case existsUnique_least => exact fun some_ahead => absurd none_ahead some_ahead.ne_empty
    case isSome_iff => simp [report, nowhere]
    case eq_duration => exact fun h least => absurd least (nowhere h)
  | some hours =>
    rw [earliest] at report kept
    have least : IsLeast (e.crossings history) hours := kept
    have same (h : Float) (least' : IsLeast (e.crossings history) h) : h = hours :=
      e.least_unique least' least
    constructor
    case existsUnique_least => exact fun _ => ⟨hours, least, same⟩
    case isSome_iff =>
      rw [report, Option.isSome_map, Option.isSome_filter]
      constructor
      · intro inside
        exact ⟨hours, least, by simpa using inside⟩
      · rintro ⟨h, least', inside⟩
        rw [same h least'] at inside
        simpa using inside
    case eq_duration =>
      intro h least' inside
      rw [same h least'] at inside ⊢
      rw [report, Option.filter_some, if_pos (decide_eq_true inside), Option.map_some]

end Engine

theorem Prediction.TimedBy.timeToFailure_eq {p q : Prediction} {crossings : Set Float}
    {horizon : Float} (hp : p.TimedBy crossings horizon) (hq : q.TimedBy crossings horizon) :
    p.timeToFailure = q.timeToFailure := by
  by_cases inside : ∃ hours, IsLeast crossings hours ∧ hours < horizon
  · obtain ⟨hours, least, inside⟩ := inside
    rw [hp.eq_duration hours least inside, hq.eq_duration hours least inside]
  · have none_p := mt hp.isSome_iff.1 inside
    have none_q := mt hq.isSome_iff.1 inside
    rw [Option.not_isSome_iff_eq_none] at none_p none_q
    rw [none_p, none_q]

namespace Engine

/-- The order of the rules does not matter to their crossings. -/
theorem crossings_perm (e : Engine Float) {rules : List (Rule Float)} (perm : rules.Perm e.rules)
    (history : List Sample) :
    crossings { e with rules := rules } history = e.crossings history := by
  ext hours
  exact exists_congr fun rule => and_congr_left' perm.mem_iff

/-- **Time to failure.**  Whatever the tuning and the rules are: a full history is reported with the
least of its crossings, in words, if that lies within the horizon, and without a time to failure
otherwise; the order of the rules does not matter. -/
theorem timed_by_crossings (e : Engine Float) {history : List Sample} (pos : 0 < e.tuning.window)
    (full : e.tuning.window ≤ history.length) :
    (e.predict history).TimedBy (e.crossings history) e.tuning.horizonHours ∧
      ∀ rules : List (Rule Float), rules.Perm e.rules →
        (predict { e with rules := rules } history).timeToFailure =
          (e.predict history).timeToFailure := by
  refine ⟨e.timedBy_crossings_of_full pos full, fun rules perm => ?_⟩
  have permuted := timedBy_crossings_of_full { e with rules := rules } pos full
  rw [e.crossings_perm perm] at permuted
  exact permuted.timeToFailure_eq (e.timedBy_crossings_of_full pos full)

/-- A processor that goes from 60 to 71 percent within an hour, under the standard rules. -/
theorem timed_by_crossings_of_rising_processor :
    let history := (List.range 12).map fun i =>
      { Sample.empty with cpuUsage := 60 + Float.ofNat i }
    let p := (standard : Engine Float).predict history
    p.TimedBy ((standard : Engine Float).crossings history) 4 ∧
      p.timeToFailure = some "45 minutes" := by
  intro history p
  obtain ⟨timed, -⟩ := @timed_by_crossings standard history (by decide) (by decide)
  exact ⟨timed, by decide +kernel⟩

end Engine

end Prognosis
