import Prognosis.Proofs.Binary64.Relative
import Prognosis.Proofs.Decimal.Fixed
import Prognosis.Proofs.Prediction
import Prognosis.Proofs.Text.Digits

/-!
# Durations in words

`hours?` reads the text for a duration as a number of hours.  What it reads is the time in question,
rounded to the last place of its unit (`hours?_duration`, `abs_shownHours_sub_le`).  Rounding keeps
the order within a unit, and no text of a unit stands for more than the first one of the next: the
longest are `60 minutes` and `24.0 hours`.  So a sooner time never reads as a later one
(`duration_in_order`).
-/

namespace Prognosis.Wording

open Binary64 Decimal Text
open Scalar (num)

/-! ## Reading durations -/

/-- The hours that so many of a unit make. -/
def hoursIn? (count : ℚ) (unit : List Char) : Option ℚ :=
  if unit = " hours".toList then some count
  else if unit = " days".toList then some (24 * count)
  else none

/-- The hours that a text for a duration stands for: whole minutes, or tenths of hours or days. -/
def hours? (text : String) : Option ℚ :=
  let (ds, rest) := digitRun text.toList
  let whole : ℚ := ofDigits ds
  if ds = [] then none
  else
    match rest with
    | '.' :: c :: unit => (digit? c).bind fun d => hoursIn? (whole + d / 10) unit
    | unit => if unit = " minutes".toList then some (whole / 60) else none

theorem exists_digitRun_eq (n : ℕ) {rest : List Char} (stops : NoDigit rest) :
    ∃ ds, digitRun ((toString n).toList ++ rest) = (ds, rest) ∧ ofDigits ds = n ∧ ds ≠ [] := by
  obtain ⟨ds, spelled⟩ := exists_spelling n
  refine ⟨ds, ?_, spelled.value, spelled.nonempty⟩
  rw [spelled.text]
  exact digitRun_chars spelled.below stops

theorem hours?_minutes (n : ℕ) : hours? (toString n ++ " minutes") = some ((n : ℚ) / 60) := by
  have stops : NoDigit " minutes".toList := noDigit_cons rfl _
  obtain ⟨ds, run, number, nonempty⟩ := exists_digitRun_eq n stops
  unfold hours?
  rw [String.toList_append, run]
  dsimp only
  rw [if_neg nonempty, number]
  rfl

section

variable (t : ℕ)

theorem toList_toString_of_digit {d : ℕ} (digit : d < 10) : (toString d).toList = [d.digitChar] := by
  rw [toList_toString, Nat.toDigits_of_lt_base digit]

theorem toList_tenthsText (unit : String) :
    (tenthsText t ++ unit).toList =
      (toString (t / 10)).toList ++ '.' :: (t % 10).digitChar :: unit.toList := by
  have digit : t % 10 < 10 := Nat.mod_lt _ (by norm_num)
  have point : ".".toList = ['.'] := rfl
  unfold tenthsText
  rw [String.toList_append, String.toList_append, String.toList_append,
    toList_toString_of_digit digit, point, List.append_assoc, List.append_assoc]
  rfl

theorem whole_add_tenths : ((t / 10 : ℕ) + (t % 10 : ℕ) / 10 : ℚ) = t / 10 := by
  have split : (10 * (t / 10 : ℕ) + (t % 10 : ℕ) : ℚ) = t := by exact_mod_cast Nat.div_add_mod t 10
  linarith

theorem hours?_tenthsText (unit : String) :
    hours? (tenthsText t ++ unit) = hoursIn? ((t : ℚ) / 10) unit.toList := by
  have digit : t % 10 < 10 := Nat.mod_lt _ (by norm_num)
  have stops : NoDigit ('.' :: (t % 10).digitChar :: unit.toList) := noDigit_cons rfl _
  obtain ⟨ds, run, number, nonempty⟩ := exists_digitRun_eq (t / 10) stops
  unfold hours?
  rw [toList_tenthsText, run]
  dsimp only
  rw [if_neg nonempty, number, ← whole_add_tenths]
  show (digit? (t % 10).digitChar).bind _ = _
  rw [digit?_digitChar digit]
  rfl

theorem hours?_hours : hours? (tenthsText t ++ " hours") = some ((t : ℚ) / 10) :=
  hours?_tenthsText t " hours"

theorem hours?_days : hours? (tenthsText t ++ " days") = some (24 * ((t : ℚ) / 10)) :=
  hours?_tenthsText t " days"

end

/-! ## Times that are shown -/

/-- The hours that are shown for a time: whole minutes under an hour, tenths of hours under a day,
tenths of days from there on. -/
def shownHours (h : Float) : ℚ :=
  if value h < 1 then round (value (h * num 60)) / 60
  else if value h < 24 then roundEven (10 * value h) / 10
  else 24 * (roundEven (10 * value (h / num 24)) / 10)

/-- The unit of the last place that is shown, in hours. -/
def lastPlace (h : Float) : ℚ :=
  if value h < 1 then 1 / 60 else if value h < 24 then 1 / 10 else 24 / 10

section

variable {h : Float} (h_finite : h.isFinite = true)

include h_finite

theorem value_minutes :
    value (h * num 60) = nearest64 (60 * value h) ∧ (h * num 60).isNaN = false := by
  have sixty : value (num 60) = 60 := value_num (by norm_num)
  obtain ⟨exact, defined⟩ := value_mul h_finite (finite_num (n := 60) (by norm_num))
  rw [sixty, mul_comm] at exact
  exact ⟨exact, defined⟩

theorem value_days :
    value (h / num 24) = nearest64 (value h / 24) ∧ (h / num 24).isNaN = false := by
  have full : value (num 24) = 24 := value_num (by norm_num)
  have nonzero : value (num 24) ≠ 0 := by rw [full]; norm_num
  obtain ⟨exact, defined⟩ := value_div h_finite (finite_num (n := 24) (by norm_num)) nonzero
  rw [full] at exact
  exact ⟨exact, defined⟩

theorem days_spec (long : 24 ≤ value h) :
    Near (h / num 24) (value h / 24) (2 * roundoff * (value h / 24)) ∧
      1 ≤ value (h / num 24) := by
  obtain ⟨exact, defined⟩ := value_days h_finite
  have one_le : 1 ≤ value h / 24 := by linarith
  constructor
  · have small : nearest (value h / 24) < edge := by
      calc nearest (value h / 24) ≤ nearest (value h) := nearest_mono (by linarith)
        _ = value h := nearest_value h_finite
        _ < edge := (value_lt_edge h_finite).2
    obtain ⟨days_finite, rounded⟩ := finite_of_nearest defined exact (by linarith) small
    refine ⟨days_finite, ?_⟩
    have error := abs_nearest_sub_le_add (value h / 24)
    have grain_le : grain ≤ roundoff := two_zpow_le (by norm_num)
    have positive := roundoff_pos
    have scaled := mul_le_mul_of_nonneg_left one_le positive.le
    rw [abs_of_nonneg (show 0 ≤ value h / 24 by linarith)] at error
    rw [rounded]
    linarith
  · rw [exact]
    calc (1 : ℚ) = (1 : ℕ) := Nat.cast_one.symm
      _ = nearest64 (1 : ℕ) := (nearest64_natCast (by norm_num)).symm
      _ ≤ nearest64 (value h / 24) := nearest64_mono (by rwa [Nat.cast_one])

theorem day_le_shownHours (long : 24 ≤ value h) : 24 ≤ shownHours h := by
  obtain ⟨-, one_le⟩ := days_spec h_finite long
  have bound : 10 ≤ roundEven (10 * value (h / num 24)) := le_roundEven (by push_cast; linarith)
  have bound : (10 : ℚ) ≤ roundEven (10 * value (h / num 24)) := by exact_mod_cast bound
  unfold shownHours
  rw [if_neg (by linarith), if_neg (by linarith)]
  linarith

theorem one_le_shownHours (hour : 1 ≤ value h) : 1 ≤ shownHours h := by
  by_cases today : value h < 24
  · have bound : 10 ≤ roundEven (10 * value h) := le_roundEven (by push_cast; linarith)
    unfold shownHours
    rw [if_neg (not_lt.2 hour), if_pos today, le_div_iff₀ (by norm_num)]
    exact_mod_cast bound
  · exact le_trans (by norm_num) (day_le_shownHours h_finite (not_lt.1 today))

variable (nonneg : 0 ≤ value h)

include nonneg

theorem minutes_spec (short : value h < 1) :
    Near (h * num 60) (60 * value h) (roundoff * (60 * value h)) ∧
      0 ≤ value (h * num 60) ∧ value (h * num 60) ≤ 60 := by
  obtain ⟨exact, defined⟩ := value_minutes h_finite
  refine ⟨?_, ?_, ?_⟩
  · have grid : OnGrid (60 * value h) := by
      exact_mod_cast (onGrid_value h_finite).natCast_mul 60
    have size : |60 * value h| ≤ 60 * value h := (abs_of_nonneg (by linarith)).le
    have small : 60 * value h ≤ edge / 2 := by
      have := two_pow_le_edge
      linarith [edge_pos]
    exact near_of_value defined exact grid size small
  · rw [exact]
    calc (0 : ℚ) = nearest64 0 := nearest64_zero.symm
      _ ≤ nearest64 (60 * value h) := nearest64_mono (by linarith)
  · rw [exact]
    calc nearest64 (60 * value h) ≤ nearest64 (60 : ℕ) := nearest64_mono (by push_cast; linarith)
      _ = 60 := nearest64_natCast (by norm_num)

theorem shownHours_le_one (short : value h < 1) : shownHours h ≤ 1 := by
  obtain ⟨-, -, high⟩ := minutes_spec h_finite nonneg short
  have bound : round (value (h * num 60)) ≤ 60 := by
    rw [round_eq, ← Int.lt_add_one_iff, Int.floor_lt]
    push_cast
    linarith
  unfold shownHours
  rw [if_pos short, div_le_one (by norm_num)]
  exact_mod_cast bound

theorem shownHours_le_day (today : value h < 24) : shownHours h ≤ 24 := by
  by_cases short : value h < 1
  · exact (shownHours_le_one h_finite nonneg short).trans (by norm_num)
  · have bound : roundEven (10 * value h) ≤ 240 := roundEven_le (by push_cast; linarith)
    unfold shownHours
    rw [if_neg short, if_pos today, div_le_iff₀ (by norm_num)]
    exact_mod_cast bound

/-! ## Texts -/

/-- The text for a duration stands for the time that is shown. -/
theorem hours?_duration : hours? (duration h) = some (shownHours h) := by
  have defined := defined_of_finite h_finite
  unfold duration shownHours
  by_cases short : value h < 1
  · obtain ⟨minutes, low, high⟩ := minutes_spec h_finite nonneg short
    have rounded : nearestInt64 (h * num 60) = round (value (h * num 60)) :=
      nearestInt64_eq_round minutes.finite low (by exact_mod_cast high) (by decide)
    have round_nonneg : 0 ≤ nearestInt64 (h * num 60) :=
      le_nearestInt64 (k := 0) (defined_of_finite minutes.finite) (by decide) (by simpa using low)
    rw [rounded] at round_nonneg
    obtain ⟨m, count⟩ := Int.eq_ofNat_of_zero_le round_nonneg
    rw [if_pos ((lt_num_iff defined (by norm_num)).2 (by simpa using short)), if_pos short]
    show hours? (toString (nearestInt64 (h * num 60)) ++ " minutes") = _
    rw [rounded, count]
    exact hours?_minutes m
  · rw [if_neg (mt (lt_num_iff defined (by norm_num)).1 (by simpa using short)), if_neg short]
    by_cases today : value h < 24
    · obtain ⟨t, text, tenths⟩ := exists_fixedTenths_eq h_finite (by linarith)
      rw [if_pos ((lt_num_iff defined (by norm_num)).2 (by simpa using today)), if_pos today, tenths]
      show hours? (fixedTenths false h ++ " hours") = _
      rw [text]
      exact hours?_hours t
    · obtain ⟨days, one_le⟩ := days_spec h_finite (not_lt.1 today)
      obtain ⟨t, text, tenths⟩ := exists_fixedTenths_eq days.finite (by linarith)
      rw [if_neg (mt (lt_num_iff defined (by norm_num)).1 (by simpa using today)), if_neg today,
        tenths]
      show hours? (fixedTenths false (h / num 24) ++ " days") = _
      rw [text]
      exact hours?_days t

/-! ## Accuracy -/

/-- Half of the last place is lost by rounding the text, and what the arithmetic in front of it
loses is in proportion to the time. -/
theorem abs_shownHours_sub_le :
    |shownHours h - value h| ≤ lastPlace h / 2 + 2 * roundoff * value h := by
  have slight := mul_nonneg roundoff_pos.le nonneg
  unfold shownHours lastPlace
  by_cases short : value h < 1
  · obtain ⟨minutes, -, -⟩ := minutes_spec h_finite nonneg short
    have near := abs_le.1 (abs_sub_round (value (h * num 60)))
    have close := abs_le.1 minutes.close
    rw [if_pos short, if_pos short, abs_le]
    constructor <;> linarith
  · rw [if_neg short, if_neg short]
    by_cases today : value h < 24
    · have near := abs_le.1 (abs_sub_roundEven (10 * value h))
      rw [if_pos today, if_pos today, abs_le]
      constructor <;> linarith
    · obtain ⟨days, -⟩ := days_spec h_finite (not_lt.1 today)
      have near := abs_le.1 (abs_sub_roundEven (10 * value (h / num 24)))
      have close := abs_le.1 days.close
      rw [if_neg today, if_neg today, abs_le]
      constructor <;> linarith

end

/-! ## Order -/

/-- Rounding keeps the order within a unit, and the units follow one another. -/
theorem shownHours_mono {h h' : Float} (h_finite : h.isFinite = true)
    (h'_finite : h'.isFinite = true) (nonneg : 0 ≤ value h) (le : value h ≤ value h') :
    shownHours h ≤ shownHours h' := by
  by_cases short : value h < 1
  · by_cases short' : value h' < 1
    · have minutes : value (h * num 60) ≤ value (h' * num 60) := by
        rw [(value_minutes h_finite).1, (value_minutes h'_finite).1]
        exact nearest64_mono (by linarith)
      have rounded := round_mono minutes
      unfold shownHours
      rw [if_pos short, if_pos short']
      exact div_le_div_of_nonneg_right (by exact_mod_cast rounded) (by norm_num)
    · exact (shownHours_le_one h_finite nonneg short).trans
        (one_le_shownHours h'_finite (not_lt.1 short'))
  · have long' : ¬ value h' < 1 := by linarith
    by_cases today : value h < 24
    · by_cases today' : value h' < 24
      · have rounded : roundEven (10 * value h) ≤ roundEven (10 * value h') :=
          roundEven_mono (by linarith)
        unfold shownHours
        rw [if_neg short, if_pos today, if_neg long', if_pos today']
        exact div_le_div_of_nonneg_right (by exact_mod_cast rounded) (by norm_num)
      · exact (shownHours_le_day h_finite nonneg today).trans
          (day_le_shownHours h'_finite (not_lt.1 today'))
    · have days : value (h / num 24) ≤ value (h' / num 24) := by
        rw [(value_days h_finite).1, (value_days h'_finite).1]
        exact nearest64_mono (by linarith)
      have rounded : roundEven (10 * value (h / num 24)) ≤ roundEven (10 * value (h' / num 24)) :=
        roundEven_mono (by linarith)
      have rounded : (roundEven (10 * value (h / num 24)) : ℚ) ≤
          roundEven (10 * value (h' / num 24)) := by exact_mod_cast rounded
      unfold shownHours
      rw [if_neg short, if_neg today, if_neg long', if_neg (by linarith)]
      linarith

/-- **Durations.**  A text for a duration reads as the time that is shown, which is true to the last
place that is shown, and of two times the sooner one never reads as the later one. -/
theorem duration_in_order {h h' : Float} (h_finite : h.isFinite = true)
    (h'_finite : h'.isFinite = true) (nonneg : num 0 ≤ h) (le : h ≤ h') :
    hours? (duration h) = some (shownHours h) ∧ hours? (duration h') = some (shownHours h') ∧
      shownHours h ≤ shownHours h' ∧
      |shownHours h - value h| ≤ lastPlace h / 2 + 2 * roundoff * value h ∧
      |shownHours h' - value h'| ≤ lastPlace h' / 2 + 2 * roundoff * value h' := by
  obtain ⟨h_defined, h'_defined⟩ := defined_of_le le
  have nonneg : 0 ≤ value h := by simpa using (num_le_iff h_defined (by norm_num)).1 nonneg
  have le : value h ≤ value h' := (le_iff_value h_defined h'_defined).1 le
  have nonneg' := nonneg.trans le
  exact ⟨hours?_duration h_finite nonneg, hours?_duration h'_finite nonneg',
    shownHours_mono h_finite h'_finite nonneg le, abs_shownHours_sub_le h_finite nonneg,
    abs_shownHours_sub_le h'_finite nonneg'⟩

/-- The last text of hours and the first one of days. -/
theorem duration_in_order_of_full_day :
    let h : Float := 23.96875
    duration h = "24.0 hours" ∧ duration (24 : Float) = "1.0 days" ∧
      ∃ a b, hours? "24.0 hours" = some a ∧ hours? "1.0 days" = some b ∧ a ≤ b := by
  intro h
  have text : duration h = "24.0 hours" := by decide
  have text' : duration (24 : Float) = "1.0 days" := by decide
  obtain ⟨reads, reads', le, -, -⟩ := @duration_in_order h 24 (by decide) (by decide) (by decide)
    (by decide)
  rw [text] at reads
  rw [text'] at reads'
  exact ⟨text, text', _, _, reads, reads', le⟩

end Prognosis.Wording
