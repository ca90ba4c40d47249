import Mathlib.Tactic.IntervalCases
import Mathlib.Tactic.SplitIfs
import Prognosis.Json.Quoted

/-!
# Strings of JSON read back

One character is written and read at a time: it stands for itself or is escaped
(`escaped_cases`).  So a string between its marks is read back as that string, whatever characters
are in it and whatever follows it (`unquote?_escaped`).
-/

namespace Prognosis.Json

open Prognosis.Text

theorem hexDigit?_hexLower {d : ℕ} (digit : d < 16) : hexDigit? (hexLower d) = some d := by
  interval_cases d <;> decide

theorem codeEscape?_hexLower {c : Char} (control : c.toNat < 32) (rest : List Char) :
    codeEscape? ('0' :: '0' :: hexLower (c.toNat / 16) :: hexLower (c.toNat % 16) :: rest) =
      some (some c, rest) := by
  have zero : hexDigit? '0' = some 0 := by decide
  have code : fourHex? '0' '0' (hexLower (c.toNat / 16)) (hexLower (c.toNat % 16)) =
      some c.toNat := by
    have high : hexDigit? (hexLower (c.toNat / 16)) = some (c.toNat / 16) :=
      hexDigit?_hexLower (by omega)
    have low : hexDigit? (hexLower (c.toNat % 16)) = some (c.toNat % 16) :=
      hexDigit?_hexLower (by omega)
    simp only [fourHex?, zero, high, low, Option.bind_eq_bind, Option.bind_some, Option.some_inj]
    omega
  have no_lead : isLead c.toNat = false := by simp [isLead]; omega
  have no_trail : isTrail c.toNat = false := by simp [isTrail]; omega
  rw [codeEscape?, code]
  simp [no_lead, no_trail, Char.ofNat_toNat]

/-- What is written for a character: the character, or an escape for it. -/
theorem escaped_cases (c : Char) :
    (escaped c = [c] ∧ c ≠ '"' ∧ c ≠ '\\' ∧ 32 ≤ c.toNat) ∨
      ∃ e es, escaped c = '\\' :: e :: es ∧
        ∀ rest, escape? (e :: es ++ rest) = some (some c, rest) := by
  unfold escaped
  split_ifs with quote backslash back feed line_break carriage tab control
  · subst quote
    exact .inr ⟨'"', [], rfl, fun rest => rfl⟩
  · subst backslash
    exact .inr ⟨'\\', [], rfl, fun rest => rfl⟩
  · subst back
    exact .inr ⟨'b', [], rfl, fun rest => rfl⟩
  · subst feed
    exact .inr ⟨'f', [], rfl, fun rest => rfl⟩
  · subst line_break
    exact .inr ⟨'n', [], rfl, fun rest => rfl⟩
  · subst carriage
    exact .inr ⟨'r', [], rfl, fun rest => rfl⟩
  · subst tab
    exact .inr ⟨'t', [], rfl, fun rest => rfl⟩
  · refine .inr ⟨'u', _, rfl, ?_⟩
    intro rest
    exact codeEscape?_hexLower control rest
  · exact .inl ⟨rfl, quote, backslash, Nat.le_of_not_lt control⟩

/-- Characters are read one after the other, behind those that were read before. -/
theorem unquoteFrom?_escaped (cs rest read : List Char) {fuel : ℕ}
    (enough : (cs.flatMap escaped).length < fuel) :
    unquoteFrom? fuel (cs.flatMap escaped ++ '"' :: rest) (some read) =
      some (some (String.ofList (read.reverse ++ cs)), rest) := by
  induction cs generalizing read fuel with
  | nil =>
    obtain ⟨fuel, rfl⟩ : ∃ n, fuel = n + 1 := ⟨fuel - 1, by omega⟩
    simp [unquoteFrom?]
  | cons c cs ih =>
    obtain ⟨fuel, rfl⟩ : ∃ n, fuel = n + 1 := ⟨fuel - 1, by omega⟩
    rw [List.flatMap_cons, List.length_append] at enough
    rw [List.flatMap_cons, List.append_assoc]
    rcases escaped_cases c with ⟨same, quote, backslash, visible⟩ | ⟨e, es, same, escapes⟩
    · rw [same] at enough ⊢
      rw [List.length_singleton] at enough
      rw [List.singleton_append, unquoteFrom?, if_neg quote, if_neg backslash,
        if_neg (Nat.not_lt.2 visible), keep, ih (c :: read) (by omega)]
      simp
    · rw [same] at enough ⊢
      rw [List.length_cons] at enough
      rw [List.cons_append, unquoteFrom?, if_neg (by decide), if_pos rfl, escapes]
      dsimp only
      rw [keep, ih (c :: read) (by omega)]
      simp

/-- **Strings.**  A string is read back up to its closing mark. -/
theorem unquote?_escaped (s : String) (rest : List Char) {fuel : ℕ}
    (enough : (s.toList.flatMap escaped).length < fuel) :
    unquote? fuel (s.toList.flatMap escaped ++ '"' :: rest) = some (some s, rest) := by
  rw [unquote?, unquoteFrom?_escaped s.toList rest [] enough, List.reverse_nil, List.nil_append,
    String.ofList_toList]

theorem toList_quote (s : String) :
    (quote s).toList = '"' :: (s.toList.flatMap escaped ++ ['"']) := by
  simp [quote]

end Prognosis.Json
