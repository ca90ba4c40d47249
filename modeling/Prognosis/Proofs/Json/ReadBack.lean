import Prognosis.Proofs.Json.Reader
import Prognosis.Proofs.Json.Scale
import Prognosis.Proofs.Json.Written

/-!
# Written numbers read back

The text of a finite number is read as a finite number again (`rereads_float`), but not always as the
same one: the decimal is scaled, not rounded once.  What comes back is on the same side of zero and
within a few roundings (`readBack_spec`), and the same number where the digits and the
power of ten of the text are both exact in binary64 (`readBack_of_short`).
-/

namespace Prognosis

namespace Json

open Prognosis.Document

/-- The number that is read from the text of a number; the text of no finite number is none. -/
def readBack (x : Float) : Float :=
  match numeral? (numberText (.float x)).toList with
  | some (n, _) => (n.number?.map Number.toFloat).getD x
  | none => x

/-- A number whose text has so few digits, and so small a power of ten, that both are exact. -/
def Short (x : Float) : Prop :=
  ∃ read ∈ numeral? (numberText (.float x)).toList,
    read.1.scaled.digits < 2 ^ 53 ∧ read.1.scaled.exponent.natAbs ≤ 22

instance : DecidablePred Short := fun x =>
  inferInstanceAs (Decidable (∃ read ∈ numeral? (numberText (.float x)).toList,
    read.1.scaled.digits < 2 ^ 53 ∧ read.1.scaled.exponent.natAbs ≤ 22))

end Json

open Binary64 Document Text

namespace Decimal

open Json (Numeral numberText numeral? scale? withSign readBack)

section

variable {x : Float} {v : Finite} {n : Numeral}

/-! ## What is read -/

theorem numeral?_of_written (written : Written v n)
    (text : (numberText (.float x)).toList = n.chars) :
    numeral? (numberText (.float x)).toList = some (n, []) := by
  have read := Json.numeral?_chars written.formed Json.ends_nil
  rwa [List.append_nil, ← text] at read

/-- The decimal of a written number is scaled to a number close to it. -/
theorem exists_magnitude_read (decoded : decode x = .finite v) (written : Written v n)
    (text : (numberText (.float x)).toList = n.chars) :
    ∃ y, scale? n.scaled.digits n.scaled.exponent = some y ∧ Tracks y 5 grain n.scaled.value ∧
      readBack x = withSign v.negative y ∧ n.number? = some (.float (readBack x)) := by
  obtain ⟨canonical, fits⟩ := canonical_of_decode decoded
  have least := written.least
  obtain ⟨y, found, tracks⟩ := exists_scale? (e := n.scaled.exponent) written.digits (by omega)
    fun up => by
      have same := written.scientific up
      rw [same] at up ⊢
      exact shortest_fits canonical fits up
  have small : ofDigits (n.whole ++ n.fraction) < UInt64.size :=
    written.digits.trans_lt (by decide)
  have number : n.number? = some (.float (withSign v.negative y)) := by
    rw [Json.Numeral.number?_eq_real written.marked, Json.Numeral.real?_eq small written.limited, found,
      written.sign]
    rfl
  have same_text : readBack x = withSign v.negative y := by
    rw [readBack, numeral?_of_written written text]
    dsimp only
    rw [number]
    rfl
  exact ⟨y, found, tracks, same_text, by rw [same_text, number]⟩

/-- The text of a finite number is read as the number that comes back. -/
theorem rereads_float (x_finite : x.isFinite = true) :
    Json.Rereads (.num (.float (readBack x))) (.num (.float x)) := by
  obtain ⟨v, decoded⟩ := exists_decode x_finite
  obtain ⟨n, written, text⟩ := exists_written decoded
  obtain ⟨y, -, -, -, number⟩ := exists_magnitude_read decoded written text
  have reads := Json.reads_numeral text written.formed number
  exact ⟨reads, fun _ => reads⟩

/-! ## Signs -/

theorem value_withSign (negative : Bool) (y : Float) :
    value (withSign negative y) = (if negative then -1 else 1) * value y := by
  unfold withSign
  split_ifs
  · rw [value_neg, neg_one_mul]
  · rw [one_mul]

theorem abs_sign (negative : Bool) : |(if negative then -1 else 1 : ℚ)| = 1 := by
  cases negative <;> norm_num

theorem finite_withSign {y : Float} (negative : Bool) (y_finite : y.isFinite = true) :
    (withSign negative y).isFinite = true := by
  unfold withSign
  split_ifs
  · exact finite_neg y_finite
  · exact y_finite

theorem withSign_of_decode (decoded : decode x = .finite v) {y : Float}
    (unsigned : decode y = .finite { v with negative := false }) : withSign v.negative y = x := by
  obtain ⟨negative, m, e⟩ := v
  cases negative with
  | true => exact eq_of_decode ((decode_neg unsigned).trans decoded.symm)
  | false => exact eq_of_decode (unsigned.trans decoded.symm)

/-! ## How near it is -/

/-- A decimal in the interval of a number is as near as a rounding leaves it. -/
theorem close_of_owns {q : ℚ} (owned : v.Owns q) (canonical : Canonical v.significand v.exponent) :
    Close 1 (grain / 2) v.magnitude q := by
  have grain_pos : 0 < grain := two_zpow_pos _
  have step := two_zpow_pos v.exponent
  have nonneg : 0 ≤ v.magnitude := mul_nonneg (Nat.cast_nonneg _) step.le
  obtain ⟨first, second⟩ : ((halfGaps v).1 : ℚ) ≤ 2 ∧ ((halfGaps v).2 : ℚ) = 2 := by
    rcases Finite.halfGaps_cases v with ⟨-, -, gaps⟩ | ⟨-, gaps⟩ <;> rw [gaps] <;> norm_num
  have half : |q - v.magnitude| ≤ 1 / 2 * 2 ^ v.exponent := by
    have low := owned.low_le
    have high := owned.le_high
    unfold Finite.low at low
    unfold Finite.high at high
    unfold Finite.magnitude
    rw [second] at high
    have := mul_le_mul_of_nonneg_right first step.le
    rw [abs_le]
    constructor <;> linarith
  refine .of_abs_sub_le nonneg (by linarith) (half.trans ?_)
  rcases canonical.leading with leading | least
  · have digits : (2 ^ 52 : ℚ) ≤ v.significand := by exact_mod_cast leading
    have relative : 1 / 2 * 2 ^ v.exponent ≤ roundoff * v.magnitude := by
      have := mul_le_mul_of_nonneg_right digits step.le
      unfold Finite.magnitude
      norm_num [roundoff]
      linarith
    linarith
  · have relative := mul_nonneg roundoff_pos.le nonneg
    rw [least, ← grain]
    linarith

theorem close_shortest (canonical : Canonical v.significand v.exponent) :
    Close 1 (grain / 2) v.magnitude (shortest v).value := by
  rcases v.significand.eq_zero_or_pos with zero | pos
  · have grain_pos : 0 < grain := two_zpow_pos _
    have none : v.magnitude = 0 := by rw [Finite.magnitude, zero, Nat.cast_zero, zero_mul]
    have none' : (shortest v).value = 0 := by
      rw [shortest, if_pos zero, Scaled.value, Nat.cast_zero, zero_mul]
    rw [none, none']
    constructor <;> linarith
  · exact close_of_owns (shortest_spec canonical pos).1 canonical

end

/-- **How near.**  What is read for a finite number is finite, on the same side of zero, and nearer
than eight roundings of it and three times the least number. -/
theorem readBack_spec {x : Float} (x_finite : x.isFinite = true) :
    (readBack x).isFinite = true ∧ 0 ≤ value x * value (readBack x) ∧
      |value (readBack x) - value x| ≤ 8 * roundoff * |value x| + 3 * grain := by
  obtain ⟨v, decoded⟩ := exists_decode x_finite
  obtain ⟨canonical, -⟩ := canonical_of_decode decoded
  obtain ⟨n, written, text⟩ := exists_written decoded
  obtain ⟨y, -, tracks, same_text, -⟩ := exists_magnitude_read decoded written text
  have grain_pos : 0 < grain := two_zpow_pos _
  have nonneg : 0 ≤ v.magnitude := mul_nonneg (Nat.cast_nonneg _) (two_zpow_pos _).le
  have exact : value x = (if v.negative then -1 else 1) * v.magnitude := value_of_decode decoded
  have close := tracks.close
  rw [written.value] at close
  have near := ((close_shortest canonical).trans close (by linarith) grain_pos.le).abs_sub_le
    (by norm_num) nonneg tracks.nonneg (by linarith)
  have product := mul_nonneg nonneg tracks.nonneg
  refine ⟨same_text ▸ finite_withSign v.negative tracks.finite, ?_, ?_⟩
  · rw [same_text, value_withSign, exact]
    cases v.negative <;> simp <;> linarith
  · rw [same_text, value_withSign, exact, ← mul_sub, abs_mul, abs_mul, abs_sign, one_mul, one_mul,
      abs_of_nonneg nonneg]
    linarith

/-! ## When it is the same -/

theorem readBack_of_zero {x : Float} {v : Finite} (decoded : decode x = .finite v)
    (zero : v.significand = 0) : readBack x = x := by
  have exponent : v.exponent = -1074 :=
    (canonical_of_decode decoded).1.leading.resolve_left (by rw [zero]; norm_num)
  have zeros : decode (readBack 0.0) = decode 0.0 ∧ decode (readBack (-0.0)) = decode (-0.0) := by
    decide +kernel
  obtain ⟨negative, m, e⟩ := v
  obtain rfl : m = 0 := zero
  obtain rfl : e = -1074 := exponent
  cases negative with
  | true =>
    have same : x = -0.0 := eq_of_decode (decoded.trans (by decide))
    rw [same]
    exact eq_of_decode zeros.2
  | false =>
    have same : x = 0.0 := eq_of_decode (decoded.trans (by decide))
    rw [same]
    exact eq_of_decode zeros.1

/-- **Short numbers.**  A number whose digits and power of ten are exact is read back as it is. -/
theorem readBack_of_short {x : Float} (x_finite : x.isFinite = true) (short : Json.Short x) :
    readBack x = x := by
  obtain ⟨v, decoded⟩ := exists_decode x_finite
  obtain ⟨canonical, fits⟩ := canonical_of_decode decoded
  obtain ⟨n, written, text⟩ := exists_written decoded
  obtain ⟨y, found, -, same_text, -⟩ := exists_magnitude_read decoded written text
  obtain ⟨_, read, digits, exponent⟩ := short
  rw [numeral?_of_written written text] at read
  obtain rfl := Option.some.inj read
  dsimp only at digits exponent
  rcases v.significand.eq_zero_or_pos with zero | pos
  · exact readBack_of_zero decoded zero
  · obtain ⟨z, unsigned, z_value⟩ := exists_magnitude decoded
    obtain ⟨rounded, defined⟩ := value_scale?_of_short digits (by omega) (by omega) found
    have inside : v.magnitude < edge := magnitude_lt_edge canonical.digits fits
    have magnitude_pos : 0 < v.magnitude := Finite.magnitude_pos pos
    have same : value y = v.magnitude := by
      have owned := (shortest_spec canonical pos).1
      rw [← written.value] at owned
      have nearest_eq : nearest (n.scaled.digits * 10 ^ n.scaled.exponent) = v.magnitude :=
        owned.nearest_eq canonical pos
      rw [rounded, nearest64, nearest_eq, min_eq_right inside.le,
        max_eq_right (by linarith [edge_pos])]
    have equal : y = z := eq_of_value defined (defined_of_decode unsigned)
      (same.trans z_value.symm) (by rw [same]; exact magnitude_pos.ne')
    rw [same_text, equal, withSign_of_decode decoded unsigned]

end Decimal

end Prognosis
