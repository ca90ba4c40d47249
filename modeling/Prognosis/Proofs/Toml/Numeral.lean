import Prognosis.Proofs.Text.Digits
import Prognosis.Toml.Numeral

/-!
# Reading numbers of TOML

Digits are read as they are spelled (`wholeDigits?_digits`), with a sign and a point as a decimal
(`number?_decimal`), without as a whole number (`number?_whole`).  What is written like a number is
no date (`date?_of_numeral`).
-/

namespace Prognosis.Toml

open Document Text

/-- A text that goes on with neither a digit nor an underscore. -/
def Stops (cs : List Char) : Prop := ∀ c rest, cs = c :: rest → digit? c = none ∧ c ≠ '_'

theorem stops_lineBreak (cs : List Char) : Stops ('\n' :: cs) := by
  rintro c rest ⟨⟩
  decide

theorem stops_point (cs : List Char) : Stops ('.' :: cs) := by
  rintro c rest ⟨⟩
  decide

/-! ## Digits -/

section

variable {d : ℕ} {ds : List ℕ} {rest : List Char}

theorem moreDigits?_digits (below : ∀ d ∈ ds, d < 10) (stops : Stops rest) :
    moreDigits? digit? (chars ds ++ rest) = some (ds, rest) := by
  induction ds with
  | nil =>
    cases rest with
    | nil => rfl
    | cons c rest =>
      obtain ⟨no_digit, no_underscore⟩ := stops c rest rfl
      show moreDigits? digit? (c :: rest) = _
      rw [moreDigits?.eq_def]
      simp [no_digit, no_underscore]
  | cons d ds ih =>
    rw [List.forall_mem_cons] at below
    show moreDigits? digit? (d.digitChar :: (chars ds ++ rest)) = _
    rw [moreDigits?.eq_def]
    simp [digit?_digitChar below.1, ih below.2]

theorem digits?_digits (below : ∀ d ∈ ds, d < 10) (nonempty : ds ≠ []) (stops : Stops rest) :
    digits? digit? (chars ds ++ rest) = some (ds, rest) := by
  cases ds with
  | nil => exact absurd rfl nonempty
  | cons d ds =>
    rw [List.forall_mem_cons] at below
    show digits? digit? (d.digitChar :: (chars ds ++ rest)) = _
    simp [digits?, digit?_digitChar below.1, moreDigits?_digits below.2 stops]

theorem digitChar_eq_zero (digit : d < 10) : d.digitChar = '0' ↔ d = 0 := by
  interval_cases d <;> decide

theorem wholeDigits?_digits (below : ∀ d ∈ ds, d < 10)
    (leading : ∀ c rest, ds = c :: rest → c = 0 → rest = []) (nonempty : ds ≠ [])
    (stops : Stops rest) : wholeDigits? (chars ds ++ rest) = some (ds, rest) := by
  have read := digits?_digits below nonempty stops
  cases ds with
  | nil => exact absurd rfl nonempty
  | cons d ds =>
    rw [List.forall_mem_cons] at below
    show (if d.digitChar = '0' then some ([0], chars ds ++ rest)
      else digits? digit? (chars (d :: ds) ++ rest)) = _
    by_cases zero : d = 0
    · rw [if_pos ((digitChar_eq_zero below.1).2 zero), leading d ds rfl zero, zero]
      rfl
    · rw [if_neg (mt (digitChar_eq_zero below.1).1 zero), read]

end

/-! ## Numbers -/

theorem sign_minus (negative : Bool) {ds : List ℕ} (below : ∀ d ∈ ds, d < 10) (nonempty : ds ≠ [])
    (rest : List Char) :
    sign (minus negative ++ (chars ds ++ rest)) = (negative, chars ds ++ rest) := by
  cases negative with
  | true => rfl
  | false =>
    obtain ⟨d, es, digit, rfl⟩ := exists_digit_of_digits below nonempty
    show sign (d.digitChar :: (chars es ++ rest)) = (false, d.digitChar :: (chars es ++ rest))
    unfold sign
    interval_cases d <;> rfl

theorem special?_digits (negative : Bool) {ds : List ℕ} (below : ∀ d ∈ ds, d < 10)
    (nonempty : ds ≠ []) (rest : List Char) :
    special? (minus negative ++ (chars ds ++ rest)) = none := by
  have no_word (w : Char) (ws : List Char) (letter : w = 'i' ∨ w = 'n') :
      afterWord? (w :: ws) (chars ds ++ rest) = none := by
    obtain ⟨d, es, digit, rfl⟩ := exists_digit_of_digits below nonempty
    show afterWord? (w :: ws) (d.digitChar :: (chars es ++ rest)) = none
    unfold afterWord?
    rcases letter with rfl | rfl <;> interval_cases d <;> rfl
  unfold special?
  rw [sign_minus negative below nonempty]
  dsimp only
  rw [no_word 'i' _ (.inl rfl), no_word 'n' _ (.inr rfl)]

theorem base?_digits (negative : Bool) {ds : List ℕ} (below : ∀ d ∈ ds, d < 10)
    (nonempty : ds ≠ []) (leading : ∀ c rest, ds = c :: rest → c = 0 → rest = []) {c : Char}
    (ending : c = '.' ∨ c = '\n') (rest : List Char) :
    base? (minus negative ++ (chars ds ++ c :: rest)) = none := by
  obtain ⟨d, es, digit, rfl⟩ := exists_digit_of_digits below nonempty
  cases negative with
  | true =>
    show base? ('-' :: d.digitChar :: _) = none
    simp [base?]
  | false =>
    by_cases zero : d = 0
    · obtain rfl := leading d es rfl zero
      subst zero
      show base? ('0' :: c :: rest) = none
      rcases ending with rfl | rfl <;> simp [base?]
    · have nonzero : d.digitChar ≠ '0' := mt (digitChar_eq_zero digit).1 zero
      cases es with
      | nil =>
        show base? (d.digitChar :: c :: rest) = none
        simp [base?, nonzero]
      | cons e es =>
        show base? (d.digitChar :: e.digitChar :: _) = none
        simp [base?, nonzero]

section

variable {cs r r₁ : List Char} {negative : Bool} {whole : List ℕ} (signed : sign cs = (negative, r))
  (read : wholeDigits? r = some (whole, r₁))

include signed read

theorem decimal?_of_point {fraction : List ℕ} {r₂ r₃ : List Char}
    (point : expect? '.' r₁ = some r₂) (more : digits? digit? r₂ = some (fraction, r₃))
    (no_exponent : exponent? r₃ = some (none, r₃)) :
    decimal? cs = (real? negative whole fraction 0).map fun v => (v, r₃) := by
  unfold decimal?
  rw [signed]
  simp only [read, point, more, no_exponent, Option.bind_eq_bind, Option.bind_some,
    Option.getD_none]
  rw [Option.map_eq_bind]
  rfl

theorem decimal?_of_whole (no_point : expect? '.' r₁ = none)
    (no_exponent : exponent? r₁ = some (none, r₁)) :
    decimal? cs = (int? (signedInt negative (ofDigits whole))).map fun v => (v, r₁) := by
  unfold decimal?
  rw [signed]
  simp only [read, no_point, no_exponent, Option.bind_eq_bind, Option.bind_some]
  rw [Option.map_eq_bind]
  rfl

end

/-- A number with a point. -/
theorem number?_decimal (negative : Bool) {whole fraction : List ℕ}
    (below : ∀ d ∈ whole ++ fraction, d < 10)
    (leading : ∀ c rest, whole = c :: rest → c = 0 → rest = []) (whole_nonempty : whole ≠ [])
    (fraction_nonempty : fraction ≠ []) (rest : List Char) :
    number? (minus negative ++ (chars whole ++ '.' :: (chars fraction ++ '\n' :: rest))) =
      (real? negative whole fraction 0).map fun v => (v, '\n' :: rest) := by
  have whole_below : ∀ d ∈ whole, d < 10 := fun d mem => below d (List.mem_append_left _ mem)
  have fraction_below : ∀ d ∈ fraction, d < 10 := fun d mem => below d (List.mem_append_right _ mem)
  unfold number?
  rw [special?_digits negative whole_below whole_nonempty,
    base?_digits negative whole_below whole_nonempty leading (.inl rfl)]
  exact decimal?_of_point (sign_minus negative whole_below whole_nonempty _)
    (wholeDigits?_digits whole_below leading whole_nonempty (stops_point _)) rfl
    (digits?_digits fraction_below fraction_nonempty (stops_lineBreak rest)) rfl

theorem int?_natCast {n : ℕ} (small : n < Decimal.halfWord) : int? n = some (.nat n) := by
  unfold int?
  generalize Decimal.halfWord = bound at small
  rw [if_pos (by omega)]
  rfl

/-- A whole number of at most 63 bits. -/
theorem number?_whole {n : ℕ} {ds : List ℕ} (spelled : Spelling n ds)
    (small : n < Decimal.halfWord) (rest : List Char) :
    number? (chars ds ++ '\n' :: rest) = some (.nat n, '\n' :: rest) := by
  have alone : ∀ c rest, ds = c :: rest → c = 0 → rest = [] :=
    fun c rest same zero => (spelled.leading c rest same zero).2
  have special : special? (chars ds ++ '\n' :: rest) = none :=
    special?_digits false spelled.below spelled.nonempty _
  have base : base? (chars ds ++ '\n' :: rest) = none :=
    base?_digits false spelled.below spelled.nonempty alone (.inr rfl) rest
  have signed : sign (chars ds ++ '\n' :: rest) = (false, chars ds ++ '\n' :: rest) :=
    sign_minus false spelled.below spelled.nonempty _
  have read := wholeDigits?_digits spelled.below alone spelled.nonempty (stops_lineBreak rest)
  have sign_none : signedInt false (ofDigits ds) = n := by
    rw [spelled.value]
    rfl
  unfold number?
  rw [special, base]
  show decimal? _ = _
  rw [decimal?_of_whole signed read rfl rfl, sign_none, int?_natCast small]
  rfl

/-! ## Dates -/

theorem digitRun_length_le (cs : List Char) : (digitRun cs).1.length ≤ cs.length := by
  induction cs with
  | nil => simp [digitRun]
  | cons c cs ih =>
    unfold digitRun
    cases digit? c with
    | none => simp
    | some d => simpa using ih

theorem isDigit_of_digitRun {cs : List Char} (all : (digitRun cs).1.length = cs.length) :
    ∀ c ∈ cs, isDigit c = true := by
  induction cs with
  | nil => simp
  | cons c cs ih =>
    unfold digitRun at all
    unfold isDigit
    cases digit : digit? c with
    | none => simp [digit] at all
    | some d =>
      simp only [digit, List.length_cons, Nat.add_right_cancel_iff] at all
      intro e mem
      rcases List.mem_cons.1 mem with rfl | mem
      · rw [digit]
        rfl
      · exact ih all e mem

theorem digits_of_field? {n low high v : ℕ} {cs rest : List Char}
    (read : field? n low high cs = some (v, rest)) :
    n ≤ cs.length ∧ (∀ c ∈ cs.take n, isDigit c = true) ∧ rest = cs.drop n := by
  unfold field? at read
  dsimp only at read
  split_ifs at read with fits
  obtain ⟨length, -, -⟩ := fits
  obtain ⟨-, rfl⟩ := Prod.mk.inj (Option.some.inj read)
  have le := digitRun_length_le (cs.take n)
  rw [List.length_take] at le
  have n_le : n ≤ cs.length := by omega
  exact ⟨n_le, isDigit_of_digitRun (by rw [length, List.length_take, min_eq_left n_le]), rfl⟩

/-- Digits and points up to the end of a line. -/
def Numeral (cs : List Char) : Prop :=
  ∃ body rest, cs = body ++ '\n' :: rest ∧ ∀ c ∈ body, c = '.' ∨ isDigit c = true

/-- A field of a number is not followed by what separates the fields of a date. -/
theorem expect?_of_field? {n low high v : ℕ} {cs rest : List Char} (numeral : Numeral cs)
    (read : field? n low high cs = some (v, rest)) :
    expect? '-' rest = none ∧ expect? ':' rest = none := by
  obtain ⟨body, after, rfl, plain⟩ := numeral
  obtain ⟨-, digits, rfl⟩ := digits_of_field? read
  have inside : n ≤ body.length := by
    by_contra beyond
    obtain ⟨k, rfl⟩ : ∃ k, n = body.length + (k + 1) := ⟨n - body.length - 1, by omega⟩
    have line_break := digits '\n' (by simp [List.take_append])
    cases line_break
  rw [List.drop_append_of_le_length inside]
  cases left : body.drop n with
  | nil => exact ⟨rfl, rfl⟩
  | cons c cs =>
    have mem : c ∈ body := List.mem_of_mem_drop (left ▸ List.mem_cons_self)
    have other (mark : Char) (no_mark : mark ≠ '.' ∧ isDigit mark = false) : c ≠ mark := by
      rintro rfl
      rcases plain c mem with point | digit
      · exact no_mark.1 point
      · rw [digit] at no_mark
        cases no_mark.2
    exact ⟨if_neg (other '-' (by decide)), if_neg (other ':' (by decide))⟩

/-- A number is no date. -/
theorem date?_of_numeral {cs : List Char} (numeral : Numeral cs) : date? cs = none := by
  have no_date : afterDate? cs = none := by
    unfold afterDate?
    cases read : field? 4 0 9999 cs with
    | none => rfl
    | some r => simp [(expect?_of_field? numeral read).1]
  have no_time : afterTime? cs = none := by
    unfold afterTime?
    cases read : field? 2 0 23 cs with
    | none => rfl
    | some r => simp [(expect?_of_field? numeral read).2]
  simp [date?, no_date, no_time]

theorem date?_of_no_digit {c : Char} (no_digit : digit? c = none) (rest : List Char) :
    date? (c :: rest) = none := by
  have no_field (n low high : ℕ) : field? (n + 1) low high (c :: rest) = none := by
    simp [field?, digitRun, no_digit]
  have no_date : afterDate? (c :: rest) = none := by simp [afterDate?, no_field 3]
  have no_time : afterTime? (c :: rest) = none := by simp [afterTime?, no_field 1]
  simp [date?, no_date, no_time]

end Prognosis.Toml
