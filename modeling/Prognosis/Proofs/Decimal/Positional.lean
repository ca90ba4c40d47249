import Prognosis.Decimal.Style
import Prognosis.Proofs.Decimal.Shortest

/-!
# Positional writing

A decimal written positionally with a point shows digits before and after it, and these digits are
the same decimal again (`exists_layout`).
-/

namespace Prognosis

open Text

namespace Decimal

/-- The digits of a decimal before and after the point. -/
structure Layout (d : Scaled) (whole fraction : List ℕ) : Prop where
  text : (d.positional ".0").toList =
    whole.map Nat.digitChar ++ '.' :: fraction.map Nat.digitChar
  below : ∀ c ∈ whole ++ fraction, c < 10
  /-- No zero in front, but a single one. -/
  leading : ∀ c rest, whole = c :: rest → c = 0 → rest = []
  whole_nonempty : whole ≠ []
  fraction_nonempty : fraction ≠ []
  value : Scaled.value ⟨ofDigits (whole ++ fraction), 0 - fraction.length⟩ = d.value
  exponent : min d.exponent (-1) ≤ 0 - fraction.length

theorem toList_zeros (count : ℕ) :
    (zeros count).toList = (List.replicate count 0).map Nat.digitChar := by
  simp [zeros, Nat.digitChar]

theorem length_of_spelling {n : ℕ} {ds : List ℕ} (spelled : Spelling n ds) :
    (toString n).toList.length = ds.length := by
  rw [spelled.text, List.length_map]

section

variable {d : Scaled} {ds : List ℕ} (spelled : Spelling d.digits ds)

include spelled

/-- A decimal with its zeros behind: the point comes last, and one more zero after it. -/
theorem layout_of_whole (zero : d.digits = 0 → d.exponent = 0) (whole : 0 ≤ d.exponent) :
    Layout d (ds ++ List.replicate d.exponent.toNat 0) [0] where
  text := by
    unfold Scaled.positional
    dsimp only
    rw [if_pos whole, String.toList_append, String.toList_append, toList_zeros, spelled.text,
      List.map_append]
    rfl
  below := by
    intro c mem
    rw [List.append_assoc, List.mem_append, List.mem_append, List.mem_replicate,
      List.mem_singleton] at mem
    rcases mem with mem | ⟨-, rfl⟩ | rfl
    · exact spelled.below c mem
    · norm_num
    · norm_num
  leading := by
    intro c rest same c_zero
    cases front : ds with
    | nil => exact absurd front spelled.nonempty
    | cons e es =>
      rw [front, List.cons_append] at same
      obtain ⟨rfl, rfl⟩ := List.cons.inj same
      obtain ⟨n_zero, rfl⟩ := spelled.leading e es front c_zero
      rw [zero n_zero]
      rfl
  whole_nonempty := by simp [spelled.nonempty]
  fraction_nonempty := by simp
  value := by
    obtain ⟨k, exponent⟩ := Int.eq_ofNat_of_zero_le whole
    unfold Scaled.value
    dsimp only
    rw [ofDigits_append, ofDigits_append, ofDigits_replicate_zero, spelled.value, exponent,
      Int.toNat_natCast, List.length_replicate, zpow_natCast]
    have tenth : (10 : ℚ) ^ (0 - (([0] : List ℕ).length : ℤ)) = 1 / 10 := by norm_num
    rw [tenth]
    push_cast [ofDigits]
    norm_num
    ring
  exponent := by
    rw [List.length_singleton]
    omega

/-- A decimal with the point between its digits. -/
theorem layout_of_between (broken : d.exponent < 0) (front : 0 < ds.length + d.exponent) :
    Layout d (ds.take (ds.length + d.exponent).toNat) (ds.drop (ds.length + d.exponent).toNat) where
  text := by
    unfold Scaled.positional pointAfter
    dsimp only
    rw [length_of_spelling spelled, if_neg (by omega), if_pos front, String.toList_append,
      String.toList_append, String.toList_ofList, String.toList_ofList, spelled.text,
      List.map_take, List.map_drop]
    simp
  below := by
    intro c mem
    rw [List.take_append_drop] at mem
    exact spelled.below c mem
  leading := by
    intro c rest same c_zero
    obtain ⟨k, count⟩ : ∃ k, (ds.length + d.exponent).toNat = k + 1 :=
      ⟨(ds.length + d.exponent).toNat - 1, by omega⟩
    cases all : ds with
    | nil => exact absurd all spelled.nonempty
    | cons e es =>
      rw [count, all, List.take_succ_cons] at same
      obtain ⟨rfl, rfl⟩ := List.cons.inj same
      obtain ⟨-, rfl⟩ := spelled.leading e es all c_zero
      exact List.take_nil
  whole_nonempty := by
    rw [Ne, List.take_eq_nil_iff, not_or]
    exact ⟨by omega, spelled.nonempty⟩
  fraction_nonempty := by
    rw [Ne, List.drop_eq_nil_iff]
    omega
  value := by
    unfold Scaled.value
    dsimp only
    rw [List.take_append_drop, spelled.value, List.length_drop]
    congr 2
    omega
  exponent := by
    rw [List.length_drop]
    omega

/-- A decimal below the leading place: zeros stand between the point and its digits. -/
theorem layout_of_below (broken : d.exponent < 0) (none : ds.length + d.exponent ≤ 0) :
    Layout d [0] (List.replicate (-(ds.length + d.exponent)).toNat 0 ++ ds) where
  text := by
    unfold Scaled.positional
    dsimp only
    rw [length_of_spelling spelled, if_neg (by omega), if_neg (by omega), String.toList_append,
      String.toList_append, toList_zeros, spelled.text, List.map_append]
    rfl
  below := by
    intro c mem
    rw [List.mem_append, List.mem_append, List.mem_replicate, List.mem_singleton] at mem
    rcases mem with rfl | ⟨-, rfl⟩ | mem
    · norm_num
    · norm_num
    · exact spelled.below c mem
  leading := by
    rintro c rest ⟨rfl, rfl⟩ -
    rfl
  whole_nonempty := by simp
  fraction_nonempty := by simp [spelled.nonempty]
  value := by
    unfold Scaled.value
    dsimp only
    rw [ofDigits_append, ofDigits_append, ofDigits_replicate_zero, spelled.value,
      List.length_append, List.length_replicate]
    have exponent : 0 - (((-(ds.length + d.exponent)).toNat + ds.length : ℕ) : ℤ) = d.exponent := by
      omega
    rw [exponent]
    simp [ofDigits]
  exponent := by
    rw [List.length_append, List.length_replicate]
    omega

end

/-- **Positional writing.**  The digits before and after the point are the decimal again. -/
theorem exists_layout (d : Scaled) (zero : d.digits = 0 → d.exponent = 0) :
    ∃ whole fraction, Layout d whole fraction := by
  obtain ⟨ds, spelled⟩ := exists_spelling d.digits
  by_cases whole : 0 ≤ d.exponent
  · exact ⟨_, _, layout_of_whole spelled zero whole⟩
  · by_cases front : 0 < ds.length + d.exponent
    · exact ⟨_, _, layout_of_between spelled (by omega) front⟩
    · exact ⟨_, _, layout_of_below spelled (by omega) (by omega)⟩

end Decimal

end Prognosis
