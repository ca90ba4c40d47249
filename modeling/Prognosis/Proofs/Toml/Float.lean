import Prognosis.Proofs.Decimal.Nearest
import Prognosis.Proofs.Decimal.Positional
import Prognosis.Proofs.Toml.Numeral
import Prognosis.Toml.Printer

/-!
# Numbers of TOML read back

Every binary64 number is written so that the same number is read (`number?_write`): infinities and
the undefined one by their words, all others by their shortest decimals and their signs.
-/

namespace Prognosis

open Binary64 Decimal Document Text

namespace Toml

/-! ## Decimals -/

section

variable {x : Float} {v : Finite} (decoded : decode x = .finite v)

include decoded

/-- The digits of the shortest decimal give the number without its sign. -/
theorem decode_toFloat_layout {whole fraction : List ℕ}
    (layout : Layout (shortest v) whole fraction) :
    decode (Scaled.toFloat ⟨Text.ofDigits (whole ++ fraction), 0 - fraction.length⟩) =
      .finite { v with negative := false } := by
  obtain ⟨canonical, fits⟩ := canonical_of_decode decoded
  rcases v.significand.eq_zero_or_pos with zero | pos
  · have value := layout.value
    rw [shortest, if_pos zero, Scaled.value, Scaled.value, Nat.cast_zero, zero_mul] at value
    have digits : Text.ofDigits (whole ++ fraction) = 0 := by
      exact_mod_cast (mul_eq_zero.1 value).resolve_right (ten_zpow_pos _).ne'
    have exponent : v.exponent = -1074 := canonical.leading.resolve_left (by rw [zero]; norm_num)
    rw [Scaled.toFloat, if_pos digits, zero, exponent]
    decide
  · obtain ⟨owned, least, -⟩ := shortest_spec canonical pos
    rw [← layout.value] at owned
    have exponent := layout.exponent
    obtain ⟨read, defined⟩ := value_toFloat owned canonical fits pos (by dsimp only; omega)
    obtain ⟨y, unsigned, y_value⟩ := exists_magnitude decoded
    have nonzero := (Finite.magnitude_pos pos).ne'
    rw [eq_of_value defined (defined_of_decode unsigned) (read.trans y_value.symm)
      (by rwa [read]), unsigned]

/-- **Decimals read back.**  The digits of the shortest decimal and the sign give the number. -/
theorem real?_layout {whole fraction : List ℕ} (layout : Layout (shortest v) whole fraction) :
    real? v.negative whole fraction 0 = some (.num (.float x)) := by
  have unsigned := decode_toFloat_layout decoded layout
  unfold real?
  dsimp only
  generalize Scaled.toFloat ⟨Text.ofDigits (whole ++ fraction), 0 - fraction.length⟩ = y at unsigned
  obtain ⟨negative, m, e⟩ := v
  cases negative with
  | true =>
    have same : -y = x := eq_of_decode ((decode_neg unsigned).trans decoded.symm)
    rw [if_pos rfl, same]
  | false =>
    have same : y = x := eq_of_decode (unsigned.trans decoded.symm)
    rw [if_neg Bool.false_ne_true, isInf_of_decode unsigned, if_neg Bool.false_ne_true, same]

end

/-! ## Written numbers -/

theorem isDigit_of_mem_chars {ds : List ℕ} (below : ∀ d ∈ ds, d < 10) :
    ∀ c ∈ chars ds, Text.isDigit c = true := by
  intro c mem
  obtain ⟨d, d_mem, rfl⟩ := List.mem_map.1 mem
  unfold Text.isDigit
  rw [Text.digit?_digitChar (below d d_mem)]
  rfl

theorem numeral_of_digits {whole fraction : List ℕ} (below : ∀ d ∈ whole ++ fraction, d < 10)
    (rest : List Char) : Numeral (chars whole ++ '.' :: (chars fraction ++ '\n' :: rest)) := by
  refine ⟨chars whole ++ '.' :: chars fraction, rest, by simp, ?_⟩
  intro c mem
  rw [List.mem_append, List.mem_cons] at mem
  rcases mem with mem | point | mem
  · exact .inr (isDigit_of_mem_chars (fun d h => below d (List.mem_append_left _ h)) c mem)
  · exact .inl point
  · exact .inr (isDigit_of_mem_chars (fun d h => below d (List.mem_append_right _ h)) c mem)

theorem toList_signText (negative : Bool) : (signText false negative).toList = minus negative := by
  cases negative <;> rfl

/-- What is written for a finite number: a sign, and digits before and after a point. -/
theorem exists_text_of_decode {x : Float} {v : Finite} (decoded : decode x = .finite v) :
    ∃ whole fraction, Layout (shortest v) whole fraction ∧
      (numberStyle.write x).toList =
        minus v.negative ++ (chars whole ++ '.' :: chars fraction) := by
  obtain ⟨whole, fraction, layout⟩ := exists_layout (shortest v) (exponent_of_zero decoded)
  refine ⟨whole, fraction, layout, ?_⟩
  unfold Style.write
  rw [decoded]
  show (signText false v.negative ++ (shortest v).positional ".0").toList = _
  rw [String.toList_append, toList_signText, layout.text]
  rfl

/-- **Numbers read back.**  A written number is read as the same number, and is no date. -/
theorem number?_write (x : Float) (rest : List Char) :
    number? ((numberStyle.write x).toList ++ '\n' :: rest) =
        some (.num (.float x), '\n' :: rest) ∧
      date? ((numberStyle.write x).toList ++ '\n' :: rest) = none := by
  cases decoded : decode x with
  | nan =>
    have same : (0.0 / 0.0 : Float) = x := eq_of_decode (Eq.trans (by decide) decoded.symm)
    unfold Style.write
    rw [decoded, ← same]
    exact ⟨rfl, date?_of_no_digit rfl _⟩
  | infinite negative =>
    cases negative with
    | true =>
      have same : (-1.0 / 0.0 : Float) = x := eq_of_decode (Eq.trans (by decide) decoded.symm)
      unfold Style.write
      rw [decoded, ← same]
      exact ⟨rfl, date?_of_no_digit rfl _⟩
    | false =>
      have same : (1.0 / 0.0 : Float) = x := eq_of_decode (Eq.trans (by decide) decoded.symm)
      unfold Style.write
      rw [decoded, ← same]
      exact ⟨rfl, date?_of_no_digit rfl _⟩
  | finite v =>
    obtain ⟨whole, fraction, layout, text⟩ := exists_text_of_decode decoded
    rw [text, List.append_assoc, List.append_assoc, List.cons_append, number?_decimal v.negative
      layout.below layout.leading layout.whole_nonempty layout.fraction_nonempty,
      real?_layout decoded layout]
    refine ⟨rfl, ?_⟩
    cases v.negative with
    | true => exact date?_of_no_digit rfl _
    | false => exact date?_of_numeral (numeral_of_digits layout.below rest)

/-- A character that a number may start with. -/
def startsNumber (c : Char) : Bool := ['-', 'n', 'i'].contains c || Text.isDigit c

theorem exists_head_chars {ds : List ℕ} (below : ∀ d ∈ ds, d < 10) (nonempty : ds ≠ []) :
    ∃ c cs, chars ds = c :: cs ∧ startsNumber c = true := by
  obtain ⟨d, es, digit, rfl⟩ := exists_digit_of_digits below nonempty
  refine ⟨d.digitChar, chars es, rfl, ?_⟩
  rw [startsNumber, isDigit_of_mem_chars below _ List.mem_cons_self, Bool.or_true]

theorem exists_head_write (x : Float) :
    ∃ c cs, (numberStyle.write x).toList = c :: cs ∧ startsNumber c = true := by
  cases decoded : decode x with
  | nan =>
    unfold Style.write
    rw [decoded]
    exact ⟨'n', _, rfl, rfl⟩
  | infinite negative =>
    unfold Style.write
    rw [decoded]
    cases negative with
    | true => exact ⟨'-', _, rfl, rfl⟩
    | false => exact ⟨'i', _, rfl, rfl⟩
  | finite v =>
    obtain ⟨whole, fraction, layout, text⟩ := exists_text_of_decode decoded
    rw [text]
    cases v.negative with
    | true => exact ⟨'-', _, rfl, rfl⟩
    | false =>
      have below : ∀ d ∈ whole, d < 10 := fun d mem => layout.below d (List.mem_append_left _ mem)
      obtain ⟨c, cs, digits, start⟩ := exists_head_chars below layout.whole_nonempty
      refine ⟨c, cs ++ '.' :: chars fraction, ?_, start⟩
      rw [digits]
      rfl

end Toml

end Prognosis
