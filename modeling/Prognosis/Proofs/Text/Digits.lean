import Mathlib.Data.List.Induction
import Mathlib.Tactic.IntervalCases
import Mathlib.Tactic.Linarith
import Mathlib.Tactic.Ring
import Prognosis.Text.Digits

/-!
# Whole numbers in digits

The text of a whole number spells its digits, most significant first, without a zero in front
(`exists_spelling`), and reading those digits gives the number back.  The length of the text tells
its size (`length_toString_le_iff`).  A number that is padded to a width is read back from that
width (`number?_padded`).
-/

namespace Prognosis.Text

/-! ## Length -/

section

variable {n k : ℕ}

theorem toList_toString (n : ℕ) : (toString n).toList = Nat.toDigits 10 n := Nat.toList_repr

/-- Numbers of at most `k` digits. -/
theorem length_toString_le_iff (pos : 0 < k) : (toString n).length ≤ k ↔ n < 10 ^ k := by
  rw [← String.length_toList, toList_toString, Nat.length_toDigits_le_iff (by norm_num) pos]

theorem length_toString_pos (n : ℕ) : 0 < (toString n).length := by
  rw [← String.length_toList, toList_toString]
  exact Nat.length_toDigits_pos

theorem lt_ten_pow_length (n : ℕ) : n < 10 ^ (toString n).length :=
  (length_toString_le_iff (length_toString_pos n)).1 le_rfl

theorem ten_pow_length_le (pos : 0 < n) : 10 ^ ((toString n).length - 1) ≤ n := by
  rcases (Nat.le_sub_one_of_lt (length_toString_pos n)).eq_or_lt with one | more
  · rw [← one, pow_zero]
    exact pos
  · by_contra less
    have := (length_toString_le_iff more).2 (not_le.1 less)
    have := length_toString_pos n
    omega

end

/-! ## Digits -/

theorem digit?_digitChar {d : ℕ} (digit : d < 10) : digit? d.digitChar = some d := by
  interval_cases d <;> rfl

theorem ofDigits_append_singleton (ds : List ℕ) (d : ℕ) :
    ofDigits (ds ++ [d]) = 10 * ofDigits ds + d := by
  simp [ofDigits]

theorem ofDigits_append (cs ds : List ℕ) :
    ofDigits (cs ++ ds) = ofDigits cs * 10 ^ ds.length + ofDigits ds := by
  induction ds using List.reverseRecOn with
  | nil => simp [ofDigits]
  | append_singleton ds d ih =>
    rw [← List.append_assoc, ofDigits_append_singleton, ih, ofDigits_append_singleton,
      List.length_append, List.length_singleton, pow_succ]
    ring

@[simp] theorem ofDigits_replicate_zero (k : ℕ) : ofDigits (List.replicate k 0) = 0 := by
  induction k with
  | zero => rfl
  | succ k ih =>
    rw [List.replicate_succ', ofDigits_append_singleton, ih]

/-- The digits of a whole number, most significant first. -/
structure Spelling (n : ℕ) (ds : List ℕ) : Prop where
  text : (toString n).toList = ds.map Nat.digitChar
  below : ∀ d ∈ ds, d < 10
  value : ofDigits ds = n
  /-- Zero stands alone. -/
  leading : ∀ d rest, ds = d :: rest → d = 0 → n = 0 ∧ rest = []
  nonempty : ds ≠ []

/-- Every whole number is spelled in digits. -/
theorem exists_spelling (n : ℕ) : ∃ ds, Spelling n ds := by
  induction n using Nat.strong_induction_on with
  | h n ih =>
    rcases Nat.lt_or_ge n 10 with digit | more
    · refine ⟨[n], ?_, by simpa using digit, by simp [ofDigits], ?_, by simp⟩
      · rw [toList_toString, Nat.toDigits_of_lt_base digit]
        rfl
      · rintro d rest ⟨rfl, rfl⟩ zero
        exact ⟨zero, rfl⟩
    · obtain ⟨ds, spelled⟩ := ih (n / 10) (by omega)
      refine ⟨ds ++ [n % 10], ?_, ?_, ?_, ?_, by simp⟩
      · rw [toList_toString, Nat.toDigits_of_base_le (by norm_num) more, ← toList_toString,
          spelled.text, List.map_append]
        rfl
      · intro d mem
        rcases List.mem_append.1 mem with front | last
        · exact spelled.below d front
        · rw [List.mem_singleton.1 last]
          omega
      · rw [ofDigits_append_singleton, spelled.value]
        omega
      · intro d rest same zero
        cases front : ds with
        | nil => exact absurd front spelled.nonempty
        | cons c cs =>
          rw [front, List.cons_append] at same
          obtain ⟨rfl, -⟩ := List.cons.inj same
          have := (spelled.leading c cs front zero).1
          omega

/-! ## Digits in a text -/

def chars (ds : List ℕ) : List Char := ds.map Nat.digitChar

def minus (negative : Bool) : List Char := if negative then ['-'] else []

theorem exists_spelling_int (e : ℤ) :
    ∃ ds, Spelling e.natAbs ds ∧ (toString e).toList = minus (decide (e < 0)) ++ chars ds := by
  obtain ⟨ds, spelled⟩ := exists_spelling e.natAbs
  refine ⟨ds, spelled, ?_⟩
  cases e with
  | ofNat n => exact spelled.text
  | negSucc n =>
    have text : toString (Int.negSucc n) = "-" ++ toString (n + 1) := rfl
    have digits : (toString (n + 1)).toList = chars ds := spelled.text
    rw [text, String.toList_append, digits, decide_eq_true (Int.negSucc_lt_zero n)]
    rfl

theorem exists_digit_of_digits {ds : List ℕ} (below : ∀ d ∈ ds, d < 10) (nonempty : ds ≠ []) :
    ∃ d es, d < 10 ∧ ds = d :: es := by
  cases ds with
  | nil => exact absurd rfl nonempty
  | cons d es => exact ⟨d, es, below d List.mem_cons_self, rfl⟩

theorem digitChar_ne {d : ℕ} (digit : d < 10) {mark : Char} (no_digit : digit? mark = none) :
    d.digitChar ≠ mark := by
  rintro rfl
  rw [digit?_digitChar digit] at no_digit
  cases no_digit

/-- A text that does not go on with a digit. -/
def NoDigit (cs : List Char) : Prop := ∀ c rest, cs = c :: rest → digit? c = none

theorem noDigit_nil : NoDigit [] := by
  rintro c rest ⟨⟩

theorem noDigit_cons {c : Char} (no_digit : digit? c = none) (cs : List Char) :
    NoDigit (c :: cs) := by
  rintro d rest ⟨⟩
  exact no_digit

section

variable {ds : List ℕ} {rest : List Char}

theorem digitRun_chars (below : ∀ d ∈ ds, d < 10) (stops : NoDigit rest) :
    digitRun (chars ds ++ rest) = (ds, rest) := by
  induction ds with
  | nil =>
    cases rest with
    | nil => rfl
    | cons c rest =>
      show digitRun (c :: rest) = _
      rw [digitRun, stops c rest rfl]
  | cons d ds ih =>
    rw [List.forall_mem_cons] at below
    show digitRun (d.digitChar :: (chars ds ++ rest)) = _
    rw [digitRun, digit?_digitChar below.1, ih below.2]

/-- A number that fills the width it may have, or is followed by no digit. -/
theorem number?_chars {width : ℕ} (below : ∀ d ∈ ds, d < 10) (nonempty : ds ≠ [])
    (fits : ds.length ≤ width) (stops : NoDigit (rest.take (width - ds.length))) :
    number? width (chars ds ++ rest) = some (ofDigits ds, rest) := by
  have length : (chars ds).length = ds.length := List.length_map _
  have front : (chars ds ++ rest).take width = chars ds ++ rest.take (width - ds.length) := by
    rw [List.take_append, length, List.take_of_length_le (by rwa [length])]
  have after : (chars ds ++ rest).drop ds.length = rest := by
    rw [← length, List.drop_left]
  rw [number?, front, digitRun_chars below stops]
  dsimp only
  rw [if_neg nonempty, after]

end

/-! ## Padded numbers -/

/-- The digits of a number with zeros in front. -/
structure Padding (width n : ℕ) (ds : List ℕ) : Prop where
  text : (padded width n).toList = chars ds
  below : ∀ d ∈ ds, d < 10
  value : ofDigits ds = n
  length : ds.length = max width (toString n).length

theorem exists_padding (width n : ℕ) : ∃ ds, Padding width n ds := by
  obtain ⟨ds, spelled⟩ := exists_spelling n
  have length : ds.length = (toString n).length := by
    rw [← String.length_toList, spelled.text, List.length_map]
  refine ⟨List.replicate (width - ds.length) 0 ++ ds, ?text, ?below, ?value, ?length⟩
  case text =>
    unfold padded chars
    rw [String.toList_append, String.toList_ofList, spelled.text, ← length, List.map_append,
      List.map_replicate]
    rfl
  case below =>
    intro d mem
    rcases List.mem_append.1 mem with zero | mem
    · rw [List.eq_of_mem_replicate zero]
      norm_num
    · exact spelled.below d mem
  case value =>
    rw [ofDigits_append, ofDigits_replicate_zero, spelled.value, zero_mul, zero_add]
  case length =>
    rw [List.length_append, List.length_replicate, ← length]
    omega

/-- A number that is padded to its width is read back, whatever follows. -/
theorem number?_padded {width n : ℕ} (pos : 0 < width) (small : n < 10 ^ width)
    (rest : List Char) : number? width ((padded width n).toList ++ rest) = some (n, rest) := by
  obtain ⟨ds, padding⟩ := exists_padding width n
  have length : ds.length = width := by
    rw [padding.length, max_eq_left ((length_toString_le_iff pos).2 small)]
  have nonempty : ds ≠ [] := List.length_pos_iff.1 (by omega)
  rw [padding.text, number?_chars padding.below nonempty length.le, padding.value]
  rw [length, Nat.sub_self, List.take_zero]
  exact noDigit_nil

end Prognosis.Text
