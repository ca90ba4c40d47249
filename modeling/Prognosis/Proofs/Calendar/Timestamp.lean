import Prognosis.Calendar.Timestamp
import Prognosis.Proofs.Text.Digits

/-!
# Instants read back

The text of an instant is read as that instant (`read?_write`), part by part: the year with or
without its sign, the two digits of the other parts, and as many digits of the second as are
written.  An offset of zero moves nothing.
-/

namespace Prognosis.Calendar.Timestamp

open Text

/-! ## Parts -/

theorem isBlank_digitChar {d : ℕ} (digit : d < 10) : isBlank d.digitChar = false := by
  interval_cases d <;> rfl

section

variable {width n : ℕ} (pos : 0 < width) (rest : List Char)

include pos

theorem exists_head_padded (n : ℕ) :
    ∃ d cs, d < 10 ∧ (padded width n).toList = d.digitChar :: cs := by
  obtain ⟨ds, padding⟩ := exists_padding width n
  have nonempty : ds ≠ [] := List.length_pos_iff.1 (by rw [padding.length]; omega)
  obtain ⟨d, es, digit, rfl⟩ := exists_digit_of_digits padding.below nonempty
  exact ⟨d, chars es, digit, padding.text⟩

theorem dropBlanks_padded (n : ℕ) :
    dropBlanks ((padded width n).toList ++ rest) = (padded width n).toList ++ rest := by
  obtain ⟨d, cs, digit, text⟩ := exists_head_padded pos n
  rw [text, List.cons_append, dropBlanks,
    List.dropWhile_cons_of_neg (by simp [isBlank_digitChar digit])]

end

/-- Months, days, hours, minutes and seconds. -/
theorem short?_padded {n : ℕ} (small : n < 100) (rest : List Char) :
    short? ((padded 2 n).toList ++ rest) = some (n, rest) := by
  rw [short?, dropBlanks_padded (by norm_num), number?_padded (by norm_num) small]

theorem number?_long (n : ℕ) {rest : List Char} (stops : NoDigit rest) :
    number? ((padded 4 n).toList ++ rest).length ((padded 4 n).toList ++ rest) =
      some (n, rest) := by
  obtain ⟨ds, padding⟩ := exists_padding 4 n
  have nonempty : ds ≠ [] := List.length_pos_iff.1 (by rw [padding.length]; omega)
  have length : (chars ds ++ rest).length = ds.length + rest.length := by
    rw [List.length_append, chars, List.length_map]
  rw [padding.text, number?_chars padding.below nonempty (by omega), padding.value]
  rwa [length, Nat.add_sub_cancel_left, List.take_length]

theorem year?_minus {cs rest : List Char} {n : ℕ} (read : number? cs.length cs = some (n, rest)) :
    year? ('-' :: cs) = some (-(n : ℤ), rest) := by
  have visible : dropBlanks ('-' :: cs) = '-' :: cs := rfl
  rw [year?, visible]
  dsimp only
  rw [if_pos rfl, read]
  rfl

theorem year?_plus {cs rest : List Char} {n : ℕ} (read : number? cs.length cs = some (n, rest)) :
    year? ('+' :: cs) = some ((n : ℤ), rest) := by
  have visible : dropBlanks ('+' :: cs) = '+' :: cs := rfl
  rw [year?, visible]
  dsimp only
  rw [if_neg (by decide), if_pos rfl, read]
  rfl

theorem year?_yearText (year : ℤ) {rest : List Char} (stops : NoDigit rest) :
    year? ((yearText year).toList ++ rest) = some (year, rest) := by
  unfold yearText
  split_ifs with plain negative
  · obtain ⟨d, cs, digit, text⟩ := @exists_head_padded 4 (by norm_num) year.toNat
    have read := @number?_padded 4 year.toNat (by norm_num) (by omega) rest
    have visible := @dropBlanks_padded 4 (by norm_num) rest year.toNat
    rw [text, List.cons_append] at read visible ⊢
    rw [year?, visible]
    dsimp only
    rw [if_neg (digitChar_ne digit rfl), if_neg (digitChar_ne digit rfl), read, Option.map_some,
      Int.toNat_of_nonneg plain.1]
  · have text : ("-" ++ padded 4 year.natAbs).toList ++ rest =
        '-' :: ((padded 4 year.natAbs).toList ++ rest) := by simp
    have value : -(year.natAbs : ℤ) = year := by omega
    rw [text, year?_minus (number?_long _ stops), value]
  · have text : ("+" ++ padded 4 year.natAbs).toList ++ rest =
        '+' :: ((padded 4 year.natAbs).toList ++ rest) := by simp
    have value : (year.natAbs : ℤ) = year := by omega
    rw [text, year?_plus (number?_long _ stops), value]

theorem fraction?_padded {width n : ℕ} (pos : 0 < width) (le : width ≤ 9) (small : n < 10 ^ width)
    {rest : List Char} (stops : NoDigit rest) :
    fraction? (("." ++ padded width n).toList ++ rest) = some (n * 10 ^ (9 - width), rest) := by
  have text : ("." ++ padded width n).toList ++ rest =
      '.' :: ((padded width n).toList ++ rest) := by simp
  obtain ⟨ds, padding⟩ := exists_padding width n
  have length : ds.length = width := by
    rw [padding.length, max_eq_left ((length_toString_le_iff pos).2 small)]
  have nonempty : ds ≠ [] := List.length_pos_iff.1 (by omega)
  rw [text, padding.text, fraction?, if_pos rfl, digitRun_chars padding.below stops]
  dsimp only
  rw [if_neg nonempty, List.take_of_length_le (by omega), padding.value, length]
  rfl

theorem fraction?_fractionText {nano : ℕ} (small : nano < 1000000000) {c : Char}
    (no_digit : digit? c = none) (no_point : c ≠ '.') (rest : List Char) :
    fraction? ((fractionText nano).toList ++ c :: rest) = some (nano, c :: rest) := by
  have stops := noDigit_cons no_digit rest
  unfold fractionText
  split_ifs with whole milli micro
  · rw [whole]
    show fraction? (c :: rest) = _
    rw [fraction?, if_neg no_point]
  · have value : nano / 1000000 * 10 ^ (9 - 3) = nano := by omega
    rw [fraction?_padded (by norm_num) (by norm_num) (by omega) stops, value]
  · have value : nano / 1000 * 10 ^ (9 - 6) = nano := by omega
    rw [fraction?_padded (by norm_num) (by norm_num) (by omega) stops, value]
  · rw [fraction?_padded (by norm_num) (by norm_num) (by omega) stops, Nat.sub_self, pow_zero,
      mul_one]

/-! ## The whole text -/

theorem days_lt (d : Date) : d.month < 100 ∧ d.day < 100 := by
  obtain ⟨-, ⟨-, month⟩, -, day⟩ := d.isDay
  have most : daysIn d.year d.month ≤ 31 := by
    unfold daysIn
    split_ifs <;> omega
  omega

theorem date?_text (d : Date) {c : Char} (rest : List Char) :
    date? ((yearText d.year).toList ++ '-' :: ((padded 2 d.month).toList ++
      '-' :: ((padded 2 d.day).toList ++ c :: rest))) = some (d, c :: rest) := by
  obtain ⟨month, day⟩ := days_lt d
  have mark (cs : List Char) : expect? '-' ('-' :: cs) = some cs := rfl
  have stops (cs : List Char) : NoDigit ('-' :: cs) := noDigit_cons rfl cs
  simp [date?, year?_yearText d.year (stops _), mark, short?_padded month, short?_padded day,
    Date.of?_self]

theorem ofFields?_self (t : Timestamp) :
    ofFields? t.date (t.minute / 60) (t.minute % 60) t.second t.nano 0 = some t := by
  have minute : 60 * ((t.minute : ℕ) / 60) + t.minute % 60 = t.minute := Nat.div_add_mod _ _
  have hour : (t.minute : ℕ) / 60 < 24 := by omega
  have rest : (t.minute : ℕ) % 60 < 60 := Nat.mod_lt _ (by norm_num)
  have stays : shift? t.date t.minute 0 = some (t.date, t.minute) := by
    simp [shift?]
  simp [ofFields?, minute, hour, rest, stays]

/-- **Instants read back.**  The text of an instant is read as that instant. -/
theorem read?_write (t : Timestamp) : read? t.write = some t := by
  have text : t.write.toList =
      (yearText t.date.year).toList ++ '-' :: ((padded 2 t.date.month).toList ++
        '-' :: ((padded 2 t.date.day).toList ++ 'T' :: ((padded 2 (t.minute / 60)).toList ++
          ':' :: ((padded 2 (t.minute % 60)).toList ++ ':' :: ((padded 2 t.second).toList ++
            ((fractionText t.nano).toList ++ ['Z'])))))) := by
    simp [write]
  have hour : (t.minute : ℕ) / 60 < 100 := by omega
  have minute : (t.minute : ℕ) % 60 < 100 := by omega
  have second : (t.second : ℕ) < 100 := by omega
  have separator (cs : List Char) : separator? ('T' :: cs) = some cs := rfl
  have mark (cs : List Char) : expect? ':' (':' :: cs) = some cs := rfl
  have fraction : fraction? ((fractionText t.nano).toList ++ ['Z']) = some (t.nano.val, ['Z']) :=
    fraction?_fractionText t.nano.isLt rfl (by decide) []
  have universal : offset? ['Z'] = some (0, []) := rfl
  have ended : dropBlanks [] = [] := rfl
  rw [read?, text, date?_text]
  simp only [Option.bind_eq_bind, Option.bind_some, separator, mark, short?_padded hour,
    short?_padded minute, short?_padded second, fraction, universal]
  rw [if_pos ended, ofFields?_self]

end Prognosis.Calendar.Timestamp
