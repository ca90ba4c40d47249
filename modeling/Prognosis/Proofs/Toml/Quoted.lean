import Mathlib.Data.List.TakeDrop
import Mathlib.Tactic.IntervalCases
import Mathlib.Tactic.SplitIfs
import Prognosis.Toml.Printer

/-!
# Strings of TOML read back

Each of the four spellings of a string is read back as that string, up to the end of its line
(`string?_stringText`).  With escapes one character is written and read at a time
(`escaped_cases`); over several lines a run of marks inside the string has to stay apart from the
marks that end it (`Inside`).
-/

namespace Prognosis.Toml

open Text

/-! ## Escapes -/

theorem hexDigit?_upper {d : ℕ} (digit : d < 16) : hexDigit? d.digitChar.toUpper = some d := by
  interval_cases d <;> decide

theorem hex?_fourHex {n : ℕ} (small : n < 65536) (rest : List Char) :
    hex? 4 0 (fourHex n ++ rest) = some (n, rest) := by
  have digit (m : ℕ) : hexDigit? (m % 16).digitChar.toUpper = some (m % 16) :=
    hexDigit?_upper (Nat.mod_lt m (by norm_num))
  simp [fourHex, hex?, digit]
  omega

theorem coded?_fourHex {c : Char} (small : c.toNat < 65536) (rest : List Char) :
    coded? 4 (fourHex c.toNat ++ rest) = some (c, rest) := by
  have valid : c.toNat.isValidChar := c.valid
  simp [coded?, hex?_fourHex small, valid]

/-- A character that no spelling without escapes can hold has a small code. -/
theorem toNat_lt_of_needsEscape {c : Char} (needs : needsEscape c = true) : c.toNat < 65536 := by
  simp [needsEscape, isPlain] at needs
  omega

/-- What is written for a character inside quotation marks: the character, or an escape for it. -/
theorem escaped_cases (lines : Bool) (marks : ℕ) (c : Char) :
    (escaped lines marks c = [c] ∧
        (c = '"' ∧ lines = true ∧ marks < 2 ∨ c = '\n' ∧ lines = true ∨
          isPlain c = true ∧ c ≠ '"' ∧ c ≠ '\\')) ∨
      ∃ e es, escaped lines marks c = '\\' :: e :: es ∧
        ∀ rest, escape? (e :: es ++ rest) = some (c, rest) ∧
          foldedLine? (e :: es ++ rest) = none := by
  by_cases quote : c = '"'
  · subst quote
    by_cases few : marks < if lines = true then 2 else 0
    · refine .inl ⟨by simp [escaped, few], .inl ⟨rfl, ?_⟩⟩
      cases lines
      · simp at few
      · exact ⟨rfl, few⟩
    · exact .inr ⟨'"', [], by simp [escaped, few], fun rest => ⟨rfl, rfl⟩⟩
  by_cases backslash : c = '\\'
  · subst backslash
    exact .inr ⟨'\\', [], rfl, fun rest => ⟨rfl, rfl⟩⟩
  by_cases line_break : c = '\n'
  · subst line_break
    cases lines
    · exact .inr ⟨'n', [], rfl, fun rest => ⟨rfl, rfl⟩⟩
    · exact .inl ⟨rfl, .inr (.inl ⟨rfl, rfl⟩)⟩
  unfold escaped
  rw [if_neg quote, if_neg backslash]
  split_ifs with back tab feed carriage needs
  · subst back
    exact .inr ⟨'b', [], rfl, fun rest => ⟨rfl, rfl⟩⟩
  · subst tab
    exact .inr ⟨'t', [], rfl, fun rest => ⟨rfl, rfl⟩⟩
  · subst feed
    exact .inr ⟨'f', [], rfl, fun rest => ⟨rfl, rfl⟩⟩
  · subst carriage
    exact .inr ⟨'r', [], rfl, fun rest => ⟨rfl, rfl⟩⟩
  · refine .inr ⟨'u', fourHex c.toNat, rfl, fun rest => ⟨?_, rfl⟩⟩
    exact coded?_fourHex (toNat_lt_of_needsEscape needs) rest
  · refine .inl ⟨rfl, .inr (.inr ⟨?_, quote, backslash⟩)⟩
    simpa [needsEscape, line_break] using needs

theorem not_isPlain_of_lineBreak {cs rest : List Char} (read : lineBreak? cs = some rest) :
    ∃ c cs', cs = c :: cs' ∧ isPlain c = false := by
  cases cs with
  | nil => cases read
  | cons c cs =>
    refine ⟨c, cs, rfl, ?_⟩
    unfold lineBreak? at read
    dsimp only at read
    split_ifs at read with feed carriage
    · rw [feed]
      rfl
    · rw [carriage]
      rfl

/-! ## One line -/

theorem basicFrom?_escapedFrom (cs : List Char) {marks fuel : ℕ} (rest read : List Char)
    (enough : (escapedFrom false marks cs).length < fuel) :
    basicFrom? fuel (escapedFrom false marks cs ++ '"' :: rest) read =
      some (String.ofList (read.reverse ++ cs), rest) := by
  induction cs generalizing marks fuel read with
  | nil =>
    obtain ⟨fuel, rfl⟩ : ∃ n, fuel = n + 1 := ⟨fuel - 1, by omega⟩
    simp [escapedFrom, basicFrom?]
  | cons c cs ih =>
    obtain ⟨fuel, rfl⟩ : ∃ n, fuel = n + 1 := ⟨fuel - 1, by omega⟩
    unfold escapedFrom at enough ⊢
    dsimp only at enough ⊢
    rw [List.length_append] at enough
    rw [List.append_assoc]
    generalize (if c = '"' ∧ (escaped false marks c).length = 1 then marks + 1 else 0) = next
      at enough ⊢
    rcases escaped_cases false marks c with
      ⟨same, ⟨-, lines, -⟩ | ⟨-, lines⟩ | ⟨plain, quote, backslash⟩⟩ | ⟨e, es, same, escapes⟩
    · cases lines
    · cases lines
    · rw [same] at enough ⊢
      rw [List.length_singleton] at enough
      show basicFrom? (fuel + 1) (c :: (escapedFrom false next cs ++ '"' :: rest)) read = _
      rw [basicFrom?, if_neg quote, if_neg backslash, if_pos plain, ih _ (by omega)]
      simp
    · rw [same] at enough ⊢
      rw [List.length_cons, List.length_cons] at enough
      show basicFrom? (fuel + 1)
        ('\\' :: (e :: es ++ (escapedFrom false next cs ++ '"' :: rest))) read = _
      rw [basicFrom?, if_neg (by decide), if_pos rfl, (escapes _).1]
      dsimp only
      rw [ih _ (by omega)]
      simp

theorem literalFrom?_plain {cs : List Char} (plain : ∀ c ∈ cs, isPlain c = true)
    (unmarked : '\'' ∉ cs) (rest : List Char) :
    literalFrom? (cs ++ '\'' :: rest) = some (String.ofList cs, rest) := by
  have inside : ∀ c ∈ cs, (c ≠ '\'' && isPlain c) = true := by
    intro c mem
    have other : c ≠ '\'' := fun same => unmarked (same ▸ mem)
    simp [other, plain c mem]
  unfold literalFrom?
  rw [List.span_eq_takeWhile_dropWhile, List.takeWhile_append_of_pos inside,
    List.dropWhile_append_of_pos inside]
  simp [expect?]

/-! ## Several lines -/

/-- What is written for a character in a string of several lines, other than the mark. -/
structure Chunk (mark : Char) (escapes : Bool) (written : List Char) (c : Char) : Prop where
  head : ∃ x xs, written = x :: xs ∧ x ≠ mark
  step : ∀ fuel rest read, linesFrom? mark escapes (fuel + 1) (written ++ rest) read =
    linesFrom? mark escapes fuel rest (c :: read)

/-- The inside of a string of several lines: what is written and what it stands for, `marks` marks
standing right before it.  No more than two marks follow each other. -/
inductive Inside (mark : Char) (escapes : Bool) : (marks : ℕ) → (written cs : List Char) → Prop
  | nil {marks : ℕ} : Inside mark escapes marks [] []
  | mark {marks : ℕ} {written cs : List Char} : marks < 2 →
      Inside mark escapes (marks + 1) written cs →
      Inside mark escapes marks (mark :: written) (mark :: cs)
  | other {marks : ℕ} {chunk written cs : List Char} {c : Char} : Chunk mark escapes chunk c →
      Inside mark escapes 0 written cs → Inside mark escapes marks (chunk ++ written) (c :: cs)

section

variable {mark : Char} {escapes : Bool} {marks : ℕ} {written cs : List Char}

theorem countFront_of_ne {c : Char} (other : c ≠ mark) (rest : List Char) :
    countFront mark (c :: rest) = 0 := by
  rw [countFront, if_neg other]

theorem countFront_mark (rest : List Char) :
    countFront mark (mark :: rest) = countFront mark rest + 1 := by
  rw [countFront, if_pos rfl]

theorem countFront_run {c : Char} (other : c ≠ mark) (n : ℕ) (rest : List Char) :
    countFront mark (List.replicate n mark ++ mark :: mark :: mark :: c :: rest) = n + 3 := by
  induction n with
  | zero =>
    show countFront mark (mark :: mark :: mark :: c :: rest) = 3
    rw [countFront_mark, countFront_mark, countFront_mark, countFront_of_ne other]
  | succ n ih =>
    rw [List.replicate_succ, List.cons_append, countFront_mark, ih]

/-- A run of at most two marks before those that end the string belongs to it. -/
theorem linesFrom?_run {c : Char} (other : c ≠ mark) {n : ℕ} (few : n ≤ 2) (fuel : ℕ)
    (rest read : List Char) :
    linesFrom? mark escapes (fuel + 1)
        (List.replicate n mark ++ mark :: mark :: mark :: c :: rest) read =
      some (String.ofList (read.reverse ++ List.replicate n mark), c :: rest) := by
  obtain ⟨tail, front⟩ : ∃ tail,
      List.replicate n mark ++ mark :: mark :: mark :: c :: rest = mark :: tail := by
    cases n <;> exact ⟨_, rfl⟩
  have count := countFront_run other n rest
  have dropped : (List.replicate n mark ++ mark :: mark :: mark :: c :: rest).drop (n + 3) =
      c :: rest := by
    simp [List.drop_append]
  rw [front] at count dropped ⊢
  rw [linesFrom?, if_pos rfl]
  dsimp only
  rw [count, if_pos (by omega), closeLines, Nat.add_sub_cancel, min_eq_left few, dropped]

/-- Marks stay apart from those that end the string, or are all that is left before them. -/
theorem run_or_countFront_le (inside : Inside mark escapes marks written cs) (few : marks ≤ 2)
    (rest : List Char) :
    (∃ n, marks + n ≤ 2 ∧ written = List.replicate n mark ∧ cs = List.replicate n mark) ∨
      countFront mark (written ++ rest) + marks ≤ 2 := by
  induction inside with
  | nil => exact .inl ⟨0, by omega, rfl, rfl⟩
  | mark fewer inside ih =>
    rcases ih (by omega) with ⟨n, le, rfl, rfl⟩ | apart
    · exact .inl ⟨n + 1, by omega, rfl, rfl⟩
    · refine .inr ?_
      rw [List.cons_append, countFront_mark]
      omega
  | other chunk inside ih =>
    obtain ⟨x, xs, rfl, other⟩ := chunk.head
    refine .inr ?_
    rw [List.append_assoc, List.cons_append, countFront_of_ne other]
    omega

/-- **Several lines.**  The inside of a string is read up to the marks that end it. -/
theorem linesFrom?_inside (inside : Inside mark escapes marks written cs) (few : marks ≤ 2)
    {fuel : ℕ} {c : Char} (other : c ≠ mark) (rest read : List Char)
    (enough : written.length < fuel) :
    linesFrom? mark escapes fuel (written ++ mark :: mark :: mark :: c :: rest) read =
      some (String.ofList (read.reverse ++ cs), c :: rest) := by
  induction inside generalizing fuel read with
  | nil =>
    obtain ⟨fuel, rfl⟩ : ∃ n, fuel = n + 1 := ⟨fuel - 1, by omega⟩
    exact linesFrom?_run other (n := 0) (by norm_num) fuel rest read
  | @mark marks written cs fewer inside ih =>
    obtain ⟨fuel, rfl⟩ : ∃ n, fuel = n + 1 := ⟨fuel - 1, by omega⟩
    rw [List.length_cons] at enough
    rcases run_or_countFront_le (.mark fewer inside) few (mark :: mark :: mark :: c :: rest) with
      ⟨n, le, same, same'⟩ | apart
    · rw [same, same']
      exact linesFrom?_run other (by omega) fuel rest read
    · rw [List.cons_append] at apart ⊢
      rw [linesFrom?, if_pos rfl]
      dsimp only
      rw [if_neg (by omega), ih (by omega) _ (by omega)]
      simp
  | other chunk inside ih =>
    obtain ⟨fuel, rfl⟩ : ∃ n, fuel = n + 1 := ⟨fuel - 1, by omega⟩
    obtain ⟨x, xs, rfl, -⟩ := chunk.head
    rw [List.length_append, List.length_cons] at enough
    rw [List.append_assoc, chunk.step, ih (by omega) _ (by omega)]
    simp

theorem chunk_plain {c : Char} (plain : isPlain c = true) (other : c ≠ mark)
    (no_escape : escapes = true → c ≠ '\\') : Chunk mark escapes [c] c where
  head := ⟨c, [], rfl, other⟩
  step fuel rest read := by
    show linesFrom? mark escapes (fuel + 1) (c :: rest) read = _
    rw [linesFrom?, if_neg other, if_neg (fun h => no_escape h.1 h.2), if_pos plain]

theorem chunk_lineBreak (other : '\n' ≠ mark) : Chunk mark escapes ['\n'] '\n' where
  head := ⟨'\n', [], rfl, other⟩
  step fuel rest read := by
    show linesFrom? mark escapes (fuel + 1) ('\n' :: rest) read = _
    rw [linesFrom?, if_neg other, if_neg (fun h => absurd h.2 (by decide)), if_neg (by decide)]
    rfl

end

theorem chunk_escape {c e : Char} {es : List Char} (escapes : ∀ rest,
    escape? (e :: es ++ rest) = some (c, rest) ∧ foldedLine? (e :: es ++ rest) = none) :
    Chunk '"' true ('\\' :: e :: es) c where
  head := ⟨'\\', e :: es, rfl, by decide⟩
  step fuel rest read := by
    show linesFrom? '"' true (fuel + 1) ('\\' :: (e :: es ++ rest)) read = _
    rw [linesFrom?, if_neg (by decide), if_pos ⟨rfl, rfl⟩, (escapes rest).2, (escapes rest).1]

/-- With escapes, no more than two marks follow each other. -/
theorem inside_escapedFrom (cs : List Char) {marks : ℕ} :
    Inside '"' true marks (escapedFrom true marks cs) cs := by
  induction cs generalizing marks with
  | nil => exact .nil
  | cons c cs ih =>
    unfold escapedFrom
    dsimp only
    rcases escaped_cases true marks c with
      ⟨same, ⟨rfl, -, few⟩ | ⟨rfl, -⟩ | ⟨plain, quote, backslash⟩⟩ | ⟨e, es, same, escapes⟩
    · rw [same, if_pos ⟨rfl, rfl⟩]
      exact .mark few ih
    · rw [same, if_neg (fun h => absurd h.1 (by decide))]
      exact .other (chunk_lineBreak (by decide)) ih
    · rw [same, if_neg (fun h => quote h.1)]
      exact .other (chunk_plain plain quote fun _ => backslash) ih
    · rw [same, if_neg (fun h => absurd h.2 (by simp))]
      exact .other (chunk_escape escapes) ih

/-! ## Runs of marks -/

/-- Takes one more character into the length of the run and the longest run. -/
def runStep (mark : Char) (state : ℕ × ℕ) (c : Char) : ℕ × ℕ :=
  if c = mark then (state.1 + 1, max state.2 (state.1 + 1)) else (0, state.2)

theorem longestRun_eq (mark : Char) (cs : List Char) :
    longestRun mark cs = (cs.foldl (runStep mark) (0, 0)).2 := rfl

theorem le_foldl_runStep (mark : Char) (cs : List Char) (state : ℕ × ℕ) :
    state.2 ≤ (cs.foldl (runStep mark) state).2 := by
  induction cs generalizing state with
  | nil => exact le_rfl
  | cons c cs ih =>
    refine le_trans ?_ (ih (runStep mark state c))
    unfold runStep
    split_ifs
    · exact le_max_left _ _
    · exact le_rfl

theorem not_mem_of_longestRun {mark : Char} {cs : List Char} (none : longestRun mark cs = 0) :
    mark ∉ cs := by
  intro mem
  obtain ⟨before, after, rfl⟩ := List.append_of_mem mem
  rw [longestRun_eq, List.foldl_append, List.foldl_cons] at none
  have le := le_foldl_runStep mark after (runStep mark (before.foldl (runStep mark) (0, 0)) mark)
  rw [none, runStep, if_pos rfl] at le
  have := le_max_right (before.foldl (runStep mark) (0, 0)).2
    ((before.foldl (runStep mark) (0, 0)).1 + 1)
  omega

/-- Without escapes, short runs of marks keep them apart. -/
theorem inside_of_longestRun {cs : List Char} (held : ∀ c ∈ cs, needsEscape c = false)
    {state : ℕ × ℕ} (few : (cs.foldl (runStep '\'') state).2 ≤ 2) :
    Inside '\'' false state.1 cs cs := by
  induction cs generalizing state with
  | nil => exact .nil
  | cons c cs ih =>
    rw [List.forall_mem_cons] at held
    rw [List.foldl_cons] at few
    have rest := ih held.2 few
    have le := (le_foldl_runStep '\'' cs (runStep '\'' state c)).trans few
    unfold runStep at rest le
    by_cases marked : c = '\''
    · subst marked
      rw [if_pos rfl] at rest le
      have := le_max_right state.2 (state.1 + 1)
      exact .mark (by dsimp only at le; omega) rest
    · rw [if_neg marked] at rest
      by_cases line_break : c = '\n'
      · subst line_break
        exact .other (chunk_lineBreak (by decide)) rest
      · have plain : isPlain c = true := by simpa [needsEscape, line_break] using held.1
        exact .other (chunk_plain plain marked (fun h => absurd h (by decide))) rest

/-! ## Spellings -/

section

variable {fuel : ℕ} (cs rest : List Char)

theorem lineBreak?_of_plain {c : Char} (plain : isPlain c = true) :
    lineBreak? (c :: rest) = none := by
  cases read : lineBreak? (c :: rest) with
  | none => rfl
  | some after =>
    obtain ⟨d, ds, same, not_plain⟩ := not_isPlain_of_lineBreak read
    obtain ⟨rfl, -⟩ := List.cons.inj same
    rw [plain] at not_plain
    cases not_plain

/-- The line break after the opening marks does not count. -/
theorem opensLines?_opening (mark : Char) {inside : List Char}
    (plain : '\n' ∉ cs → lineBreak? inside = none) :
    opensLines? mark (mark :: mark :: mark :: (opening cs ++ inside)) = some inside := by
  have opens (after : List Char) :
      opensLines? mark (mark :: mark :: mark :: after) = some ((lineBreak? after).getD after) := by
    simp [opensLines?, expect?]
  rw [opens]
  unfold opening
  by_cases lines : '\n' ∈ cs
  · rw [if_pos (by simpa using lines)]
    rfl
  · rw [if_neg (by simpa using lines), List.nil_append, plain lines]
    rfl

theorem string?_basic (enough : (basic cs).length ≤ fuel) :
    string? fuel (basic cs ++ '\n' :: rest) = some (String.ofList cs, '\n' :: rest) := by
  have text : basic cs ++ '\n' :: rest =
      '"' :: (escapedFrom false 0 cs ++ '"' :: '\n' :: rest) := by
    simp [basic]
  have one_line :
      opensLines? '"' ('"' :: (escapedFrom false 0 cs ++ '"' :: '\n' :: rest)) = none := by
    cases cs with
    | nil => rfl
    | cons c cs =>
      unfold escapedFrom
      dsimp only
      rcases escaped_cases false 0 c with ⟨same, ⟨-, lines, -⟩ | ⟨-, lines⟩ | ⟨-, other, -⟩⟩ |
        ⟨e, es, same, -⟩
      · cases lines
      · cases lines
      · rw [same]
        simp [opensLines?, expect?, other]
      · rw [same]
        simp [opensLines?, expect?]
  have no_literal :
      opensLines? '\'' ('"' :: (escapedFrom false 0 cs ++ '"' :: '\n' :: rest)) = none := rfl
  have length : (escapedFrom false 0 cs).length < fuel := by
    simp [basic] at enough
    omega
  unfold string?
  rw [text, one_line, no_literal]
  exact basicFrom?_escapedFrom cs _ [] length

theorem string?_literal (plain : ∀ c ∈ cs, isPlain c = true) (unmarked : '\'' ∉ cs) :
    string? fuel (literal cs ++ '\n' :: rest) = some (String.ofList cs, '\n' :: rest) := by
  have one_line : opensLines? '\'' ('\'' :: (cs ++ '\'' :: '\n' :: rest)) = none := by
    cases cs with
    | nil => rfl
    | cons c cs =>
      have other : c ≠ '\'' := fun same => unmarked (same ▸ List.mem_cons_self)
      simp [opensLines?, expect?, other]
  have text : literal cs ++ '\n' :: rest = '\'' :: (cs ++ '\'' :: '\n' :: rest) := by
    simp [literal]
  have no_basic : opensLines? '"' ('\'' :: (cs ++ '\'' :: '\n' :: rest)) = none := rfl
  unfold string?
  rw [text, no_basic, one_line]
  exact literalFrom?_plain plain unmarked _

theorem lineBreak?_escapedFrom {cs : List Char} (no_lines : '\n' ∉ cs) (rest : List Char) :
    lineBreak? (escapedFrom true 0 cs ++ '"' :: rest) = none := by
  cases cs with
  | nil => rfl
  | cons c cs =>
    unfold escapedFrom
    dsimp only
    rcases escaped_cases true 0 c with ⟨same, ⟨rfl, -⟩ | ⟨rfl, -⟩ | ⟨plain, -⟩⟩ | ⟨e, es, same, -⟩
    · rw [same]
      rfl
    · exact absurd List.mem_cons_self no_lines
    · rw [same]
      exact lineBreak?_of_plain _ plain
    · rw [same]
      rfl

theorem string?_basicLines (enough : (basicLines cs).length ≤ fuel) :
    string? fuel (basicLines cs ++ '\n' :: rest) = some (String.ofList cs, '\n' :: rest) := by
  have text : basicLines cs ++ '\n' :: rest = '"' :: '"' :: '"' :: (opening cs ++
      (escapedFrom true 0 cs ++ '"' :: '"' :: '"' :: '\n' :: rest)) := by
    simp [basicLines]
  have opened := opensLines?_opening cs '"'
    fun no_lines => lineBreak?_escapedFrom no_lines ('"' :: '"' :: '\n' :: rest)
  have length : (escapedFrom true 0 cs).length < fuel := by
    simp [basicLines] at enough
    omega
  unfold string?
  rw [text, opened]
  exact linesFrom?_inside (inside_escapedFrom cs) (by norm_num) (by decide) rest [] length

theorem string?_literalLines (held : ∀ c ∈ cs, needsEscape c = false)
    (few : longestRun '\'' cs ≤ 2) (enough : (literalLines cs).length ≤ fuel) :
    string? fuel (literalLines cs ++ '\n' :: rest) = some (String.ofList cs, '\n' :: rest) := by
  have text : literalLines cs ++ '\n' :: rest = '\'' :: '\'' :: '\'' :: (opening cs ++
      (cs ++ '\'' :: '\'' :: '\'' :: '\n' :: rest)) := by
    simp [literalLines]
  have no_break (no_lines : '\n' ∉ cs) :
      lineBreak? (cs ++ '\'' :: '\'' :: '\'' :: '\n' :: rest) = none := by
    cases cs with
    | nil => rfl
    | cons c cs =>
      have other : c ≠ '\n' := fun same => no_lines (same ▸ List.mem_cons_self)
      have plain : isPlain c = true := by
        simpa [needsEscape, other] using held c List.mem_cons_self
      exact lineBreak?_of_plain _ plain
  have opened := opensLines?_opening cs '\'' no_break
  have length : cs.length < fuel := by
    simp [literalLines] at enough
    omega
  have no_basic : opensLines? '"' ('\'' :: '\'' :: '\'' :: (opening cs ++
      (cs ++ '\'' :: '\'' :: '\'' :: '\n' :: rest))) = none := rfl
  have inside : Inside '\'' false 0 cs cs := @inside_of_longestRun cs held (0, 0) few
  unfold string?
  rw [text, no_basic, opened]
  exact linesFrom?_inside inside (by norm_num) (by decide) rest [] length

end

theorem exists_head_stringText (s : String) :
    ∃ c cs, (stringText s).toList = c :: cs ∧ (c = '"' ∨ c = '\'') := by
  unfold stringText
  dsimp only
  rw [String.toList_ofList]
  split_ifs
  · exact ⟨'"', _, rfl, .inl rfl⟩
  · exact ⟨'\'', _, rfl, .inr rfl⟩
  · exact ⟨'"', _, rfl, .inl rfl⟩
  · exact ⟨'\'', _, rfl, .inr rfl⟩
  · exact ⟨'"', _, rfl, .inl rfl⟩
  · exact ⟨'"', _, rfl, .inl rfl⟩

/-- **Strings.**  The spelling of a string is read back as that string. -/
theorem string?_stringText (s : String) (rest : List Char) {fuel : ℕ}
    (enough : (stringText s).toList.length ≤ fuel) :
    string? fuel ((stringText s).toList ++ '\n' :: rest) = some (s, '\n' :: rest) := by
  unfold stringText at enough ⊢
  dsimp only at enough ⊢
  rw [String.toList_ofList] at enough ⊢
  have whole : String.ofList s.toList = s := String.ofList_toList
  generalize s.toList = cs at *
  subst whole
  split_ifs at enough ⊢ with basic_holds literal_holds basicLines_hold literalLines_hold lines
  · exact string?_basic cs rest enough
  · simp only [Bool.and_eq_true, Bool.not_eq_true', decide_eq_true_eq, List.any_eq_false,
      List.contains_eq_mem, decide_eq_false_iff_not] at literal_holds
    obtain ⟨⟨held, unmarked⟩, one_line⟩ := literal_holds
    refine string?_literal cs rest (fun c mem => ?_) (not_mem_of_longestRun unmarked)
    have other : c ≠ '\n' := fun same => one_line (same ▸ mem)
    simpa [needsEscape, other] using held c mem
  · exact string?_basicLines cs rest enough
  · simp only [Bool.and_eq_true, Bool.not_eq_true', decide_eq_true_eq, List.any_eq_false,
      Bool.not_eq_true] at literalLines_hold
    exact string?_literalLines cs rest literalLines_hold.1 literalLines_hold.2 enough
  · exact string?_basicLines cs rest enough
  · exact string?_basic cs rest enough

end Prognosis.Toml
