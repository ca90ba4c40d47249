import Prognosis.Decimal.Shortest
import Prognosis.Json.Numeral
import Prognosis.Proofs.Text.Digits

/-!
# Numerals of JSON read back

A numeral that is spelled by the rules (`Numeral.WellFormed`) is read part by part in front of
anything that cannot go on a numeral (`numeral?_chars`).  Digits are taken while they have room, so a
whole number of 64 bits stands for itself (`number?_spelling`), and any other numeral of so many
digits is scaled from all of them (`Numeral.real?_eq`).
-/

namespace Prognosis.Json

open Prognosis.Document Prognosis.Text

/-! ## Ends -/

/-- A text that cannot go on a numeral. -/
def Ends (cs : List Char) : Prop :=
  ∀ c rest, cs = c :: rest → digit? c = none ∧ c ≠ '.' ∧ c ≠ 'e' ∧ c ≠ 'E'

theorem ends_nil : Ends [] := by
  intro c rest same
  cases same

theorem ends_cons {c : Char} (no_digit : digit? c = none) (point : c ≠ '.') (lower : c ≠ 'e')
    (upper : c ≠ 'E') (cs : List Char) : Ends (c :: cs) := by
  rintro d rest ⟨⟩
  exact ⟨no_digit, point, lower, upper⟩

theorem Ends.noDigit {cs : List Char} (ends : Ends cs) : NoDigit cs :=
  fun c rest same => (ends c rest same).1

/-! ## Spelling -/

def fractionChars (ds : List ℕ) : List Char := if ds = [] then [] else '.' :: chars ds

def exponentChars : Option (Bool × List ℕ) → List Char
  | none => []
  | some (negative, ds) => 'e' :: (minus negative ++ chars ds)

namespace Numeral

def chars (n : Numeral) : List Char :=
  minus n.negative ++ (Text.chars n.whole ++ (fractionChars n.fraction ++ exponentChars n.exponent))

/-- A numeral that is spelled by the rules. -/
structure WellFormed (n : Numeral) : Prop where
  below : ∀ d ∈ n.whole ++ n.fraction, d < 10
  /-- No zero in front, but a single one. -/
  leading : ∀ d rest, n.whole = d :: rest → d = 0 → rest = []
  whole_nonempty : n.whole ≠ []
  exponent_below : ∀ e, n.exponent = some e → ∀ d ∈ e.2, d < 10
  exponent_nonempty : ∀ e, n.exponent = some e → e.2 ≠ []

end Numeral

section

variable {rest : List Char}

theorem noDigit_exponentChars (exponent : Option (Bool × List ℕ)) (ends : Ends rest) :
    NoDigit (exponentChars exponent ++ rest) := by
  cases exponent with
  | none => exact ends.noDigit
  | some e => exact noDigit_cons rfl _

theorem noDigit_fractionChars (fraction : List ℕ) (exponent : Option (Bool × List ℕ))
    (ends : Ends rest) : NoDigit (fractionChars fraction ++ (exponentChars exponent ++ rest)) := by
  unfold fractionChars
  split_ifs
  · exact noDigit_exponentChars exponent ends
  · exact noDigit_cons rfl _

theorem fractionPart?_chars {fraction : List ℕ} (below : ∀ d ∈ fraction, d < 10)
    (exponent : Option (Bool × List ℕ)) (ends : Ends rest) :
    fractionPart? (fractionChars fraction ++ (exponentChars exponent ++ rest)) =
      some (fraction, exponentChars exponent ++ rest) := by
  unfold fractionChars
  split_ifs with none
  · rw [none, List.nil_append]
    cases exponent with
    | some e => rfl
    | none =>
      cases rest with
      | nil => rfl
      | cons c rest =>
        show fractionPart? (c :: rest) = some ([], c :: rest)
        rw [fractionPart?, if_neg (ends c rest rfl).2.1]
  · rw [List.cons_append, fractionPart?, if_pos rfl,
      digitRun_chars below (noDigit_exponentChars exponent ends)]
    dsimp only
    rw [if_neg none]

/-- The sign of an exponent; a plus is never written. -/
theorem exponentSign_chars (negative : Bool) {ds : List ℕ} (below : ∀ d ∈ ds, d < 10)
    (nonempty : ds ≠ []) (rest : List Char) :
    exponentSign (minus negative ++ (chars ds ++ rest)) = (negative, chars ds ++ rest) := by
  cases negative with
  | true => rfl
  | false =>
    obtain ⟨d, es, digit, rfl⟩ := exists_digit_of_digits below nonempty
    show exponentSign (d.digitChar :: (chars es ++ rest)) = (false, d.digitChar :: (chars es ++ rest))
    rw [exponentSign, if_neg (digitChar_ne digit rfl), if_neg (digitChar_ne digit rfl)]

theorem exponentPart?_chars {exponent : Option (Bool × List ℕ)}
    (below : ∀ e, exponent = some e → ∀ d ∈ e.2, d < 10)
    (nonempty : ∀ e, exponent = some e → e.2 ≠ []) (ends : Ends rest) :
    exponentPart? (exponentChars exponent ++ rest) = some (exponent, rest) := by
  cases exponent with
  | none =>
    cases rest with
    | nil => rfl
    | cons c rest =>
      obtain ⟨-, -, lower, upper⟩ := ends c rest rfl
      show exponentPart? (c :: rest) = some (none, c :: rest)
      rw [exponentPart?, if_neg (not_or.2 ⟨lower, upper⟩)]
  | some e =>
    obtain ⟨negative, ds⟩ := e
    have below := below _ rfl
    have nonempty := nonempty _ rfl
    show exponentPart? ('e' :: ((minus negative ++ chars ds) ++ rest)) = _
    rw [List.append_assoc, exponentPart?, if_pos (.inl rfl),
      exponentSign_chars negative below nonempty]
    dsimp only
    rw [digitRun_chars below ends.noDigit]
    dsimp only
    rw [if_neg nonempty]

/-- **Numerals.**  A numeral is read to its end. -/
theorem numeral?_chars {n : Numeral} (formed : n.WellFormed) (ends : Ends rest) :
    numeral? (n.chars ++ rest) = some (n, rest) := by
  have below_whole : ∀ d ∈ n.whole, d < 10 :=
    fun d mem => formed.below d (List.mem_append_left _ mem)
  have below_fraction : ∀ d ∈ n.fraction, d < 10 :=
    fun d mem => formed.below d (List.mem_append_right _ mem)
  have no_leading_zero : ¬ (n.whole = [] ∨ n.whole.head? = some 0 ∧ 1 < n.whole.length) := by
    rintro (empty | ⟨zero, long⟩)
    · exact formed.whole_nonempty empty
    · obtain ⟨cs, same⟩ := List.head?_eq_some_iff.1 zero
      rw [same, formed.leading 0 cs same rfl] at long
      exact absurd long (by decide)
  have unsigned : unsigned? n.negative (Text.chars n.whole ++
      (fractionChars n.fraction ++ (exponentChars n.exponent ++ rest))) = some (n, rest) := by
    rw [unsigned?, digitRun_chars below_whole (noDigit_fractionChars _ _ ends)]
    simp [no_leading_zero, fractionPart?_chars below_fraction n.exponent ends,
      exponentPart?_chars formed.exponent_below formed.exponent_nonempty ends]
  have text : n.chars ++ rest = minus n.negative ++ (Text.chars n.whole ++
      (fractionChars n.fraction ++ (exponentChars n.exponent ++ rest))) := by
    simp [Numeral.chars]
  rw [text]
  cases sign : n.negative with
  | true =>
    rw [sign] at unsigned
    exact unsigned
  | false =>
    obtain ⟨d, es, digit, same⟩ := exists_digit_of_digits below_whole formed.whole_nonempty
    rw [sign, same] at unsigned
    rw [same]
    show numeral? (d.digitChar :: (Text.chars es ++ _)) = _
    rw [numeral?, if_neg (digitChar_ne digit rfl)]
    exact unsigned

theorem exists_head_chars {n : Numeral} (formed : n.WellFormed) :
    ∃ c cs, n.chars = c :: cs ∧ (c = '-' ∨ ∃ d < 10, c = d.digitChar) := by
  unfold Numeral.chars
  cases n.negative with
  | true => exact ⟨'-', _, rfl, .inl rfl⟩
  | false =>
    obtain ⟨d, es, digit, same⟩ := exists_digit_of_digits
      (fun d mem => formed.below d (List.mem_append_left _ mem)) formed.whole_nonempty
    rw [same]
    exact ⟨d.digitChar, _, rfl, .inr ⟨d, digit, rfl⟩⟩

end

/-! ## Whole numbers -/

section

variable {n : ℕ} {ds : List ℕ}

theorem wellFormed_of_spelling (spelled : Spelling n ds) :
    Numeral.WellFormed ⟨false, ds, [], none⟩ := by
  refine ⟨?_, ?_, spelled.nonempty, by simp, by simp⟩
  · rw [List.append_nil]
    exact spelled.below
  · intro d rest same zero
    exact (spelled.leading d rest same zero).2

theorem chars_of_spelling (spelled : Spelling n ds) :
    (toString n).toList = Numeral.chars ⟨false, ds, [], none⟩ := by
  rw [spelled.text]
  exact (List.append_nil _).symm

/-- Digits are taken while the number has 64 bits. -/
theorem takeDigits_of_lt (m : ℕ) (small : m * 10 ^ ds.length + ofDigits ds < UInt64.size) :
    takeDigits m ds = (m * 10 ^ ds.length + ofDigits ds, []) := by
  induction ds generalizing m with
  | nil => simp [takeDigits, ofDigits]
  | cons d ds ih =>
    have front : m * 10 ^ (d :: ds).length + ofDigits (d :: ds) =
        (10 * m + d) * 10 ^ ds.length + ofDigits ds := by
      rw [← List.singleton_append, ofDigits_append, List.length_append, List.length_singleton,
        show ofDigits [d] = d by simp [ofDigits]]
      ring
    rw [front] at small ⊢
    have pos : 0 < 10 ^ ds.length := by positivity
    have room : 10 * m + d < UInt64.size := by nlinarith
    rw [takeDigits, if_pos room, ih _ small]

/-- **Whole numbers.**  The digits of a number of 64 bits stand for it. -/
theorem number?_spelling (spelled : Spelling n ds) (small : n < UInt64.size) :
    Numeral.number? ⟨false, ds, [], none⟩ = some (.int n) := by
  have taken : takeDigits 0 ds = (n, []) := by
    have value := spelled.value
    rw [takeDigits_of_lt 0 (by omega), zero_mul, zero_add, value]
  simp [Numeral.number?, Numeral.significand, taken, takeDigits]

end

/-! ## All other numbers -/

namespace Numeral

/-- The power of ten that is written with a numeral. -/
def power (n : Numeral) : ℤ :=
  match n.exponent with
  | none => 0
  | some (negative, ds) => if negative then -(ofDigits ds : ℤ) else ofDigits ds

/-- The decimal that a numeral spells. -/
def scaled (n : Numeral) : Decimal.Scaled :=
  ⟨ofDigits (n.whole ++ n.fraction), n.power - n.fraction.length⟩

variable {n : Numeral}

theorem significand_eq (small : ofDigits (n.whole ++ n.fraction) < UInt64.size) :
    n.significand = (ofDigits (n.whole ++ n.fraction), [], 0 - (n.fraction.length : ℤ)) := by
  rw [ofDigits_append] at small ⊢
  have pos : 0 < 10 ^ n.fraction.length := by positivity
  have front : 0 * 10 ^ n.whole.length + ofDigits n.whole < UInt64.size := by nlinarith
  rw [significand, takeDigits_of_lt 0 front, zero_mul, zero_add]
  dsimp only
  rw [takeDigits_of_lt _ small]
  rfl

/-- **Reals.**  A numeral of few digits is scaled from all of them. -/
theorem real?_eq (small : ofDigits (n.whole ++ n.fraction) < UInt64.size)
    (limited : n.power.natAbs ≤ exponentLimit) :
    n.real? = (scale? n.scaled.digits n.scaled.exponent).map (withSign n.negative) := by
  rw [real?, significand_eq small, scaled, power]
  cases exponent : n.exponent with
  | none => simp
  | some e =>
    obtain ⟨negative, ds⟩ := e
    have held : ¬ exponentLimit < ofDigits ds := by
      unfold power at limited
      rw [exponent] at limited
      cases negative with
      | true => simpa using limited
      | false => simpa using limited
    dsimp only
    rw [if_neg held]
    congr 2
    split_ifs <;> ring

theorem number?_eq_real (broken : n.fraction ≠ [] ∨ n.exponent ≠ none) :
    n.number? = n.real?.map .float := by
  rw [number?]
  dsimp only
  rw [if_neg]
  rintro ⟨fraction, exponent, -⟩
  rcases broken with broken | broken
  · exact broken fraction
  · exact broken exponent

end Numeral

end Prognosis.Json
