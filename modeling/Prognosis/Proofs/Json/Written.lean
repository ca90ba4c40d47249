import Prognosis.Json.Printer
import Prognosis.Proofs.Decimal.Nearest
import Prognosis.Proofs.Decimal.Positional
import Prognosis.Proofs.Json.Numeral

/-!
# Numbers as numerals

The text of a finite number is a numeral by the rules of JSON, with a point or an exponent, and it
spells the shortest decimal of that number (`exists_written`).  Written positionally, a decimal may
take a zero more at its end, but never more than seventeen digits (`digits_le_of_layout`).
-/

namespace Prognosis

open Binary64 Text

namespace Decimal

open Json (Numeral numberText numberStyle fractionChars exponentChars)

/-- The numeral that is written for a number. -/
structure Written (v : Finite) (n : Numeral) : Prop where
  formed : n.WellFormed
  sign : n.negative = v.negative
  /-- A point or an exponent marks it as no whole number. -/
  marked : n.fraction ≠ [] ∨ n.exponent ≠ none
  value : n.scaled.value = (shortest v).value
  digits : n.scaled.digits ≤ 10 ^ 17
  least : -340 ≤ n.scaled.exponent
  /-- Zeros are moved into the power of ten where there is one above the units. -/
  scientific : 0 ≤ n.scaled.exponent → n.scaled = shortest v
  limited : n.power.natAbs ≤ Json.Numeral.exponentLimit

/-! ## Positional writing -/

section

variable {d : Scaled} {whole fraction : List ℕ}

/-- What stands before and after the point, up to sixteen places, has at most seventeen digits. -/
theorem digits_le_of_layout (layout : Layout d whole fraction) (digits : d.digits ≤ 10 ^ 17)
    (place : (toString d.digits).length + d.exponent ≤ 16) :
    ofDigits (whole ++ fraction) ≤ 10 ^ 17 := by
  have value := layout.value
  have exponent := layout.exponent
  have some_digit : 0 < fraction.length := List.length_pos_iff.2 layout.fraction_nonempty
  have grid : (10 : ℚ) ^ (0 - (fraction.length : ℤ)) * 10 ^ (fraction.length : ℤ) = 1 := by
    rw [← zpow_add₀ (by norm_num), zero_sub, neg_add_cancel, zpow_zero]
  have exact : (ofDigits (whole ++ fraction) : ℚ) = d.value * 10 ^ (fraction.length : ℤ) := by
    rw [← value, Scaled.value, mul_assoc, grid, mul_one]
  suffices (ofDigits (whole ++ fraction) : ℚ) ≤ (10 ^ 17 : ℕ) by exact_mod_cast this
  rw [exact]
  rcases lt_or_ge d.exponent 0 with broken | whole
  · have le_one : (10 : ℚ) ^ (d.exponent + fraction.length) ≤ 1 :=
      zpow_le_one_of_nonpos₀ (by norm_num) (by omega)
    calc d.value * 10 ^ (fraction.length : ℤ)
        = d.digits * 10 ^ (d.exponent + fraction.length) := by
          rw [Scaled.value, mul_assoc, ← zpow_add₀ (by norm_num)]
      _ ≤ d.digits := mul_le_of_le_one_right (Nat.cast_nonneg _) le_one
      _ ≤ (10 ^ 17 : ℕ) := by exact_mod_cast digits
  · have one : fraction.length = 1 := by omega
    have below : d.value < 10 ^ (16 : ℤ) :=
      d.value_lt_ten_zpow_place.trans_le (zpow_le_zpow_right₀ (by norm_num) place)
    rw [one]
    norm_num at below ⊢
    linarith

theorem written_of_layout {v : Finite} (layout : Layout (shortest v) whole fraction)
    (digits : (shortest v).digits ≤ 10 ^ 17) (least : -340 ≤ (shortest v).exponent)
    (place : (toString (shortest v).digits).length + (shortest v).exponent ≤ 16) :
    Written v ⟨v.negative, whole, fraction, none⟩ := by
  have exponent := layout.exponent
  have some_digit : 0 < fraction.length := List.length_pos_iff.2 layout.fraction_nonempty
  have none_written : (⟨v.negative, whole, fraction, none⟩ : Numeral).scaled =
      ⟨ofDigits (whole ++ fraction), 0 - fraction.length⟩ := rfl
  refine ⟨?formed, rfl, .inl layout.fraction_nonempty, ?value, ?digits, ?least, ?scientific,
    Nat.zero_le _⟩
  case formed => exact ⟨layout.below, layout.leading, layout.whole_nonempty, by simp, by simp⟩
  case value => exact layout.value
  case digits => exact digits_le_of_layout layout digits place
  case least =>
    rw [none_written]
    dsimp only
    omega
  case scientific =>
    intro up
    rw [none_written] at up
    dsimp only at up
    omega

end

/-! ## Scientific writing -/

section

variable {v : Finite} {c : ℕ} {cs es : List ℕ}

/-- The numeral with one digit before the point and the power of ten behind. -/
def scientificNumeral (negative : Bool) (c : ℕ) (cs : List ℕ) (down : Bool) (es : List ℕ) :
    Numeral :=
  ⟨negative, [c], cs, some (down, es)⟩

theorem toList_scientific {d : Scaled} (spelled : Spelling d.digits (c :: cs))
    (power : (toString ((cs.length : ℤ) + d.exponent)).toList =
      minus (decide ((cs.length : ℤ) + d.exponent < 0)) ++ chars es) :
    d.scientific.toList =
      chars [c] ++ (fractionChars cs ++
        exponentChars (some (decide ((cs.length : ℤ) + d.exponent < 0), es))) := by
  have length : (toString d.digits).toList.length = cs.length + 1 := length_of_spelling spelled
  have exponent : ((cs.length + 1 : ℕ) : ℤ) + d.exponent - 1 = cs.length + d.exponent := by
    push_cast
    ring
  unfold Scaled.scientific
  dsimp only
  rw [length, exponent, String.toList_append, String.toList_append, power, exponentChars]
  cases cs with
  | nil =>
    rw [if_pos (by simp), spelled.text]
    rfl
  | cons e rest =>
    rw [if_neg (by simp), pointAfter, spelled.text]
    simp [fractionChars, chars]

theorem scaled_scientific {d : Scaled} (spelled : Spelling d.digits (c :: cs))
    (power : Spelling ((cs.length : ℤ) + d.exponent).natAbs es) (negative : Bool) :
    (scientificNumeral negative c cs (decide ((cs.length : ℤ) + d.exponent < 0)) es).scaled = d := by
  have digits : ofDigits ([c] ++ cs) = d.digits := spelled.value
  have exponent : (if decide ((cs.length : ℤ) + d.exponent < 0) = true then -(ofDigits es : ℤ)
      else ofDigits es) - cs.length = d.exponent := by
    rw [power.value]
    split_ifs with down
    · have := of_decide_eq_true down
      omega
    · have := of_decide_eq_false (Bool.eq_false_of_not_eq_true down)
      omega
  unfold scientificNumeral Json.Numeral.scaled Json.Numeral.power
  dsimp only
  rw [digits, exponent]

theorem written_of_scientific (canonical : Canonical v.significand v.exponent)
    (fits : v.exponent ≤ 971) (pos : 0 < v.significand)
    (spelled : Spelling (shortest v).digits (c :: cs))
    (power : Spelling ((cs.length : ℤ) + (shortest v).exponent).natAbs es) :
    Written v (scientificNumeral v.negative c cs
      (decide ((cs.length : ℤ) + (shortest v).exponent < 0)) es) := by
  obtain ⟨owned, least, digits⟩ := shortest_spec canonical pos
  obtain ⟨above, below⟩ := owned.bounds canonical fits pos
  have scaled := scaled_scientific spelled power v.negative
  refine ⟨?formed, rfl, .inr (Option.some_ne_none _), ?value, ?digits, ?least, fun _ => scaled,
    ?limited⟩
  case formed =>
    refine ⟨spelled.below, ?_, List.cons_ne_nil c [], ?_, ?_⟩
    · rintro d rest ⟨⟩ -
      rfl
    · rintro e ⟨⟩
      exact power.below
    · rintro e ⟨⟩
      exact power.nonempty
  case value => rw [scaled]
  case digits => rwa [scaled]
  case least => rwa [scaled]
  case limited =>
    have nonzero : (shortest v).digits ≠ 0 := by
      intro zero
      rw [Scaled.value, zero, Nat.cast_zero, zero_mul] at above
      exact absurd above (ten_zpow_pos _).not_gt
    have place_lt := ten_zpow_lt_iff.1 ((Scaled.ten_zpow_place_le nonzero).trans_lt below)
    have length : (toString (shortest v).digits).length = cs.length + 1 := by
      rw [← String.length_toList]
      exact length_of_spelling spelled
    unfold Scaled.place at place_lt
    rw [length] at place_lt
    have exponent := congrArg Scaled.exponent scaled
    unfold Json.Numeral.scaled at exponent
    dsimp only [scientificNumeral] at exponent ⊢
    unfold Json.Numeral.exponentLimit
    omega

end

/-! ## Finite numbers -/

/-- **Numbers as numerals.**  What is written for a finite number is a numeral that spells its
shortest decimal. -/
theorem exists_written {x : Float} {v : Finite} (decoded : decode x = .finite v) :
    ∃ n, Written v n ∧ (numberText (.float x)).toList = n.chars := by
  obtain ⟨canonical, fits⟩ := canonical_of_decode decoded
  have sign : (signText false v.negative).toList = minus v.negative := by
    cases v.negative <;> rfl
  have text : numberText (.float x) = signText false v.negative ++
      if numberStyle.positional ((toString (shortest v).digits).length + (shortest v).exponent)
        then (shortest v).positional ".0" else (shortest v).scientific := by
    rw [numberText, if_pos (finite_of_decode decoded), Style.write, decoded]
    rfl
  rw [text, String.toList_append, sign]
  split_ifs with positional
  · have place : (toString (shortest v).digits).length + (shortest v).exponent ≤ 16 := by
      have := of_decide_eq_true (Bool.and_eq_true_iff.1 positional).2
      exact this
    obtain ⟨whole, fraction, layout⟩ := exists_layout (shortest v) (exponent_of_zero decoded)
    have small : (shortest v).digits ≤ 10 ^ 17 ∧ -340 ≤ (shortest v).exponent := by
      rcases v.significand.eq_zero_or_pos with zero | pos
      · rw [shortest, if_pos zero]
        exact ⟨Nat.zero_le _, by norm_num⟩
      · obtain ⟨-, least, digits⟩ := shortest_spec canonical pos
        exact ⟨digits, least⟩
    refine ⟨_, written_of_layout layout small.1 small.2 place, ?_⟩
    rw [layout.text]
    simp [Json.Numeral.chars, fractionChars, exponentChars, layout.fraction_nonempty, chars]
  · have pos : 0 < v.significand := by
      by_contra zero
      rw [shortest, if_pos (Nat.eq_zero_of_not_pos zero)] at positional
      exact positional rfl
    obtain ⟨ds, spelled⟩ := exists_spelling (shortest v).digits
    obtain ⟨c, cs, -, rfl⟩ := exists_digit_of_digits spelled.below spelled.nonempty
    obtain ⟨es, power, digits⟩ := exists_spelling_int ((cs.length : ℤ) + (shortest v).exponent)
    refine ⟨_, written_of_scientific canonical fits pos spelled power, ?_⟩
    rw [toList_scientific spelled digits]
    rfl

end Decimal

end Prognosis
