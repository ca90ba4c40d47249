import Prognosis.Proofs.Toml.Float
import Prognosis.Proofs.Toml.Quoted
import Prognosis.Toml.Reader

/-!
# Documents line by line

What the text of a value is read as does not depend on what follows its line (`Spells`), and
what a text is read as grows with each line in front of it (`Reads`): by a key with its value
(`reads_keyLine`), or by a header (`reads_header`, `reads_item`).
-/

namespace Prognosis.Toml

open Document Text

/-! ## Values -/

/-- A text that is read as a value at the end of a line. -/
structure Spells (text : List Char) (v : Value) : Prop where
  head : ∃ c cs, text = c :: cs ∧ isBlank c = false
  reads : ∀ fuel rest, text.length < fuel →
    value? fuel roomForNesting (text ++ '\n' :: rest) = some (v, '\n' :: rest)

theorem value?_of_number {c : Char} {cs rest : List Char} {v : Value}
    (start : startsNumber c = true) (no_date : date? (c :: cs) = none) (read : number? (c :: cs) = some (v, rest))
    (fuel room : ℕ) : value? (fuel + 1) room (c :: cs) = some (v, rest) := by
  have other (mark : Char) (no_start : startsNumber mark = false) : c ≠ mark := by
    rintro rfl
    rw [start] at no_start
    cases no_start
  rw [value?, if_neg, if_neg (other '[' (by decide)), if_neg (other '\x7b' (by decide)),
    if_neg (other 't' (by decide)), if_neg (other 'f' (by decide)), no_date]
  · exact read
  · rintro (quote | apostrophe)
    · exact other '"' (by decide) quote
    · exact other '\'' (by decide) apostrophe

theorem isBlank_of_startsNumber {c : Char} (start : startsNumber c = true) : isBlank c = false := by
  have other (mark : Char) (no_start : startsNumber mark = false) : c ≠ mark := by
    rintro rfl
    rw [start] at no_start
    cases no_start
  simp [isBlank, other ' ' (by decide), other '\t' (by decide)]

theorem spells_number {text : List Char} {v : Value}
    (head : ∃ c cs, text = c :: cs ∧ startsNumber c = true)
    (read : ∀ rest, number? (text ++ '\n' :: rest) = some (v, '\n' :: rest) ∧
      date? (text ++ '\n' :: rest) = none) : Spells text v := by
  obtain ⟨c, cs, rfl, start⟩ := head
  refine ⟨⟨c, cs, rfl, isBlank_of_startsNumber start⟩, fun fuel rest enough => ?_⟩
  obtain ⟨fuel, rfl⟩ : ∃ n, fuel = n + 1 := ⟨fuel - 1, by omega⟩
  exact value?_of_number start (read rest).2 (read rest).1 fuel roomForNesting

theorem spells_float (x : Float) : Spells (numberStyle.write x).toList (.num (.float x)) :=
  spells_number (exists_head_write x) (number?_write x)

theorem spells_nat {n : ℕ} (small : n < Decimal.halfWord) :
    Spells (toString n).toList (.nat n) := by
  obtain ⟨ds, spelled⟩ := exists_spelling n
  rw [spelled.text]
  refine spells_number (exists_head_chars spelled.below spelled.nonempty) fun rest => ?_
  refine ⟨number?_whole spelled small rest, date?_of_numeral ⟨chars ds, rest, rfl, ?_⟩⟩
  intro c mem
  exact .inr (isDigit_of_mem_chars spelled.below c mem)

theorem spells_text (s : String) : Spells (stringText s).toList (.text s) := by
  have read (rest : List Char) (fuel : ℕ) := @string?_stringText s rest fuel
  obtain ⟨c, cs, text, mark⟩ := exists_head_stringText s
  rw [text] at read ⊢
  refine ⟨⟨c, cs, rfl, ?_⟩, fun fuel rest enough => ?_⟩
  · rcases mark with rfl | rfl <;> rfl
  · obtain ⟨fuel, rfl⟩ : ∃ n, fuel = n + 1 := ⟨fuel - 1, by omega⟩
    have read := read rest fuel (by omega)
    rw [List.cons_append] at read ⊢
    rw [value?, if_pos mark, read]
    rfl

theorem spells_empty : Spells ['[', ']'] (.list []) := by
  refine ⟨⟨'[', [']'], rfl, rfl⟩, fun fuel rest enough => ?_⟩
  obtain ⟨fuel, rfl⟩ : ∃ n, fuel = n + 2 := ⟨fuel - 2, by simp at enough; omega⟩
  simp [value?, array?, dropGap, isBlank, expect?, roomForNesting]

/-! ## Keys -/

/-- Whether a part of a key can do without quotation marks. -/
def Bare (key : String) : Prop := key.toList ≠ [] ∧ key.toList.all isBare = true

instance (key : String) : Decidable (Bare key) :=
  inferInstanceAs (Decidable (key.toList ≠ [] ∧ key.toList.all isBare = true))

theorem ne_of_isBare {c : Char} (bare : isBare c = true) (mark : Char)
    (no_bare : isBare mark = false) : c ≠ mark := by
  rintro rfl
  rw [bare] at no_bare
  cases no_bare

theorem exists_head_of_bare {key : String} (bare : Bare key) :
    ∃ c cs, key.toList = c :: cs ∧ isBare c = true := by
  obtain ⟨nonempty, all⟩ := bare
  cases text : key.toList with
  | nil => exact absurd text nonempty
  | cons c cs =>
    rw [text, List.all_cons, Bool.and_eq_true] at all
    exact ⟨c, cs, rfl, all.1⟩

theorem dropBlanks_of_isBare {c : Char} (bare : isBare c = true) (cs : List Char) :
    dropBlanks (c :: cs) = c :: cs := by
  have space := ne_of_isBare bare ' ' (by decide)
  have tab := ne_of_isBare bare '\t' (by decide)
  simp [dropBlanks, isBlank, space, tab]

theorem keyPart?_bare {key : String} (bare : Bare key) (fuel : ℕ) {c : Char}
    (ending : isBare c = false) (rest : List Char) :
    keyPart? fuel (key.toList ++ c :: rest) = some (key, c :: rest) := by
  obtain ⟨k, ks, text, head⟩ := exists_head_of_bare bare
  have no_string : lineString? fuel (key.toList ++ c :: rest) = none := by
    rw [text, List.cons_append, lineString?, if_neg (ne_of_isBare head '"' (by decide)),
      if_neg (ne_of_isBare head '\'' (by decide))]
  have all : ∀ d ∈ key.toList, isBare d = true := List.all_eq_true.1 bare.2
  have whole : String.ofList key.toList = key := String.ofList_toList
  have span : (key.toList ++ c :: rest).span isBare = (key.toList, c :: rest) := by
    rw [List.span_eq_takeWhile_dropWhile, List.takeWhile_append_of_pos all,
      List.dropWhile_append_of_pos all]
    simp [ending]
  unfold keyPart?
  rw [no_string]
  dsimp only
  rw [span]
  dsimp only
  rw [if_neg bare.1, whole]

/-- The characters of a key of several parts. -/
def pathChars : List String → List Char
  | [] => []
  | [key] => key.toList
  | key :: path => key.toList ++ '.' :: pathChars path

theorem keyFrom?_path {path : List String} (bare : ∀ key ∈ path, Bare key) (nonempty : path ≠ [])
    {fuel : ℕ} (enough : path.length ≤ fuel) {c : Char} (ending : isBare c = false)
    {rest : List Char} (last : expect? '.' (dropBlanks (c :: rest)) = none) :
    keyFrom? fuel (pathChars path ++ c :: rest) = some (path, dropBlanks (c :: rest)) := by
  induction path generalizing fuel with
  | nil => exact absurd rfl nonempty
  | cons key path ih =>
    rw [List.forall_mem_cons] at bare
    obtain ⟨fuel, rfl⟩ : ∃ n, fuel = n + 1 := ⟨fuel - 1, by simp at enough; omega⟩
    obtain ⟨k, ks, text, head⟩ := exists_head_of_bare bare.1
    have front (after : List Char) : dropBlanks (key.toList ++ after) = key.toList ++ after := by
      rw [text, List.cons_append, dropBlanks_of_isBare head]
    cases path with
    | nil =>
      show keyFrom? (fuel + 1) (key.toList ++ c :: rest) = _
      rw [keyFrom?, front, keyPart?_bare bare.1 fuel ending]
      simp [last]
    | cons key' path =>
      have more := ih bare.2 (by simp) (by simp at enough ⊢; omega)
      have text : pathChars (key :: key' :: path) ++ c :: rest =
          key.toList ++ '.' :: (pathChars (key' :: path) ++ c :: rest) := by
        simp [pathChars]
      have point : dropBlanks ('.' :: (pathChars (key' :: path) ++ c :: rest)) =
          '.' :: (pathChars (key' :: path) ++ c :: rest) := by
        simp [dropBlanks, isBlank]
      rw [text, keyFrom?, front, keyPart?_bare bare.1 fuel (by decide)]
      simp [point, expect?, more]

/-! ## Lines -/

/-- A text that is read as an outline, given fuel for each of its characters. -/
def Reads (cs : List Char) (o : Outline) : Prop :=
  ∀ fuel, cs.length < fuel → outline? fuel cs = some o

theorem reads_nil : Reads [] ([], []) := by
  intro fuel enough
  obtain ⟨fuel, rfl⟩ : ∃ n, fuel = n + 1 := ⟨fuel - 1, by omega⟩
  rfl

theorem reads_blank {cs : List Char} {o : Outline} (reads : Reads cs o) : Reads ('\n' :: cs) o := by
  intro fuel enough
  obtain ⟨fuel, rfl⟩ : ∃ n, fuel = n + 1 := ⟨fuel - 1, by omega⟩
  rw [List.length_cons] at enough
  have break_read : outline? (fuel + 1) ('\n' :: cs) = outline? fuel cs := by
    rw [outline?]
    simp [dropBlanks, isBlank, lineBreak?]
  rw [break_read, reads fuel (by omega)]

theorem restOfLine?_lineBreak (cs : List Char) : restOfLine? ('\n' :: cs) = some cs := by
  simp [restOfLine?, dropBlanks, isBlank, dropComment, lineEnd?, lineBreak?]

theorem key?_bare {key : String} (bare : Bare key) {fuel : ℕ} (pos : 0 < fuel) (rest : List Char) :
    key? fuel (key.toList ++ ' ' :: '=' :: rest) = some ([key], '=' :: rest) := by
  have parts := @keyFrom?_path [key] (by simpa using bare) (by simp) fuel pos ' ' (by decide)
    ('=' :: rest) rfl
  unfold key?
  rw [show pathChars [key] = key.toList from rfl] at parts
  rw [parts]
  rfl

section

variable {key : String} {text cs : List Char} {v : Value} (bare : Bare key) (spells : Spells text v)

include bare spells

theorem keyLine?_spells {fuel : ℕ} (enough : text.length < fuel) :
    keyLine? fuel (key.toList ++ ' ' :: '=' :: ' ' :: (text ++ '\n' :: cs)) =
      some (([key], v), cs) := by
  obtain ⟨t, ts, text_eq, not_blank⟩ := spells.head
  have blank : dropBlanks (' ' :: (text ++ '\n' :: cs)) = text ++ '\n' :: cs := by
    rw [text_eq]
    show (' ' :: t :: (ts ++ '\n' :: cs)).dropWhile isBlank = _
    rw [List.dropWhile_cons_of_pos rfl, List.dropWhile_cons_of_neg (by simp [not_blank])]
    rfl
  unfold keyLine?
  rw [key?_bare bare (by omega)]
  simp [expect?, blank, spells.reads fuel cs enough, restOfLine?_lineBreak]

/-- A key with its value. -/
theorem reads_keyLine {o : Outline} (reads : Reads cs o) :
    Reads (key.toList ++ ' ' :: '=' :: ' ' :: (text ++ '\n' :: cs)) (([key], v) :: o.1, o.2) := by
  intro fuel enough
  obtain ⟨fuel, rfl⟩ : ∃ n, fuel = n + 1 := ⟨fuel - 1, by omega⟩
  simp only [List.length_append, List.length_cons] at enough
  have line := @keyLine?_spells key text cs v bare spells fuel (by omega)
  obtain ⟨k, ks, front, head⟩ := exists_head_of_bare bare
  rw [front, List.cons_append] at line ⊢
  have no_break : lineBreak? (k :: (ks ++ ' ' :: '=' :: ' ' :: (text ++ '\n' :: cs))) = none := by
    rw [lineBreak?, if_neg (ne_of_isBare head '\n' (by decide)),
      if_neg (ne_of_isBare head '\r' (by decide))]
  rw [outline?, dropBlanks_of_isBare head]
  dsimp only
  rw [if_neg (ne_of_isBare head '#' (by decide)), if_neg (ne_of_isBare head '[' (by decide)),
    no_break, line]
  dsimp only
  rw [reads fuel (by omega)]
  rfl

end

theorem length_le_length_pathChars {path : List String} (bare : ∀ key ∈ path, Bare key) :
    path.length ≤ (pathChars path).length := by
  induction path with
  | nil => simp
  | cons key path ih =>
    rw [List.forall_mem_cons] at bare
    have pos := List.length_pos_of_ne_nil bare.1.1
    have more := ih bare.2
    cases path with
    | nil => exact pos
    | cons key' path =>
      rw [pathChars, List.length_append, List.length_cons, List.length_cons] <;> simp at *
      omega

theorem reads_of_headerLine? {line cs : List Char} {header : Section} {o : Outline}
    (reads : Reads cs o)
    (read : ∀ fuel, line.length ≤ fuel →
      headerLine? fuel (line ++ '\n' :: cs) = some (header, cs)) :
    Reads ('[' :: (line ++ '\n' :: cs)) (.under header o) := by
  intro fuel enough
  obtain ⟨fuel, rfl⟩ : ∃ n, fuel = n + 1 := ⟨fuel - 1, by omega⟩
  simp only [List.length_append, List.length_cons] at enough
  have bracket : dropBlanks ('[' :: (line ++ '\n' :: cs)) = '[' :: (line ++ '\n' :: cs) := by
    simp [dropBlanks, isBlank]
  rw [outline?, bracket]
  dsimp only
  rw [if_neg (by decide), if_pos rfl, read fuel (by omega)]
  dsimp only
  rw [reads fuel (by omega)]
  rfl

section

variable {path : List String} (bare : ∀ key ∈ path, Bare key) (nonempty : path ≠ [])

include bare nonempty

theorem expect?_pathChars (rest : List Char) : expect? '[' (pathChars path ++ rest) = none := by
  cases path with
  | nil => exact absurd rfl nonempty
  | cons key path =>
    obtain ⟨c, cs, text, head⟩ := exists_head_of_bare (bare key List.mem_cons_self)
    have front : ∃ ds, pathChars (key :: path) = c :: ds := by
      cases path with
      | nil => exact ⟨cs, text⟩
      | cons key' path => exact ⟨cs ++ '.' :: pathChars (key' :: path), by simp [pathChars, text]⟩
    obtain ⟨ds, front⟩ := front
    rw [front]
    exact if_neg (ne_of_isBare head '[' (by decide))

variable (short : path.length < 80)

include short

theorem key?_header {fuel : ℕ} (enough : path.length ≤ fuel) (cs : List Char) :
    key? fuel (pathChars path ++ ']' :: cs) = some (path, ']' :: cs) := by
  have closing : dropBlanks (']' :: cs) = ']' :: cs := by simp [dropBlanks, isBlank]
  have parts := @keyFrom?_path path bare nonempty fuel enough ']' (by decide) cs (by
    rw [closing]
    rfl)
  unfold key?
  rw [parts, closing]
  simp [short]

variable {cs : List Char} {o : Outline} (reads : Reads cs o)

include reads

/-- A header of one table. -/
theorem reads_header :
    Reads ('[' :: (pathChars path ++ ']' :: '\n' :: cs)) (.under ⟨false, path, []⟩ o) := by
  have line := @reads_of_headerLine? (pathChars path ++ [']']) cs ⟨false, path, []⟩ o reads
    fun fuel enough => by
      have length := length_le_length_pathChars bare
      rw [List.length_append] at enough
      unfold headerLine?
      rw [List.append_assoc, expect?_pathChars bare nonempty]
      simp [@key?_header path bare nonempty short fuel (by omega), expect?,
        restOfLine?_lineBreak]
  simpa using line

/-- A header of one more table of its name. -/
theorem reads_item :
    Reads ('[' :: '[' :: (pathChars path ++ ']' :: ']' :: '\n' :: cs))
      (.under ⟨true, path, []⟩ o) := by
  have line := @reads_of_headerLine? ('[' :: (pathChars path ++ [']', ']'])) cs ⟨true, path, []⟩ o
    reads fun fuel enough => by
      have length := length_le_length_pathChars bare
      rw [List.length_cons, List.length_append] at enough
      unfold headerLine?
      simp [@key?_header path bare nonempty short fuel (by omega), expect?,
        restOfLine?_lineBreak]
  simpa using line

end

end Prognosis.Toml
