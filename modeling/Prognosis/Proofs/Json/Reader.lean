import Mathlib.Data.List.Forall2
import Prognosis.Json.Printer
import Prognosis.Json.Reader
import Prognosis.Proofs.Json.Numeral
import Prognosis.Proofs.Json.Quoted

/-!
# Written JSON read back

A text is read as a value whatever follows it, as long as that cannot go on a numeral (`Reads`).
This is shown for each kind of value: with any blanks between the marks, a list is read where its
items are (`reads_list`) and a table where its members are (`reads_table`).  So a value is read back
from its lines (`Legible.reads_prettyAt`) if its numbers are, and a table as the table of what its
members are read as (`rereads_table`).
-/

namespace Prognosis.Json

open Prognosis.Document Prognosis.Text

/-! ## Blanks -/

/-- A text of blanks. -/
def Blank (s : String) : Prop := ∀ c ∈ s.toList, isBlank c = true

theorem blank_empty : Blank "" := by
  intro c mem
  rw [String.toList_empty] at mem
  cases mem

theorem blank_space : Blank " " := by
  intro c mem
  rw [List.mem_singleton.1 mem]
  rfl

theorem blank_newLine (level : ℕ) : Blank (newLine level) := by
  intro c mem
  rw [newLine, String.toList_append, List.mem_append] at mem
  rcases mem with feed | indent
  · rw [List.mem_singleton.1 feed]
    rfl
  · rw [String.toList_ofList] at indent
    rw [List.eq_of_mem_replicate indent]
    rfl

section

variable {s : String} {c : Char} {cs : List Char} {fuel : ℕ}

theorem dropBlanks_append (blank : Blank s) (cs : List Char) :
    dropBlanks (s.toList ++ cs) = dropBlanks cs := List.dropWhile_append_of_pos blank

theorem dropBlanks_cons (visible : isBlank c = false) (cs : List Char) :
    dropBlanks (c :: cs) = c :: cs := by
  rw [dropBlanks, List.dropWhile_cons_of_neg (by simp [visible])]

theorem value_append (blank : Blank s) (cs : List Char) :
    value fuel (s.toList ++ cs) = value fuel cs := by
  cases fuel with
  | zero => rfl
  | succ fuel => rw [value, value, dropBlanks_append blank]

theorem moreItems_append (blank : Blank s) (cs : List Char) :
    moreItems fuel (s.toList ++ cs) = moreItems fuel cs := by
  cases fuel with
  | zero => rfl
  | succ fuel => rw [moreItems, moreItems, value_append blank]

theorem moreMembers_append (blank : Blank s) (cs : List Char) :
    moreMembers fuel (s.toList ++ cs) = moreMembers fuel cs := by
  cases fuel with
  | zero => rfl
  | succ fuel => rw [moreMembers, moreMembers, dropBlanks_append blank]

theorem ends_append (blank : Blank s) (ends : Ends cs) : Ends (s.toList ++ cs) := by
  intro c rest same
  cases text : s.toList with
  | nil =>
    rw [text, List.nil_append] at same
    exact ends c rest same
  | cons d ds =>
    have blank_d : isBlank d = true := blank d (by rw [text]; exact List.mem_cons_self)
    rw [text, List.cons_append] at same
    obtain ⟨rfl, -⟩ := List.cons.inj same
    simp only [isBlank, Bool.or_eq_true, decide_eq_true_eq] at blank_d
    rcases blank_d with ((rfl | rfl) | rfl) | rfl <;> decide

end

/-! ## Values -/

/-- A text that is read as a value, in front of anything that cannot go on a numeral. -/
structure Reads (v : Value) (s : String) : Prop where
  head : ∃ c cs, s.toList = c :: cs ∧ isBlank c = false ∧ c ≠ ']'
  reads : ∀ fuel rest, 2 * s.length ≤ fuel → Ends rest →
    value fuel (s.toList ++ rest) = (v.toNode, some rest)

theorem reads_of_head {v : Value} {s : String} {c : Char} {cs : List Char}
    (text : s.toList = c :: cs) (visible : isBlank c = false) (no_end : c ≠ ']')
    (reads : ∀ fuel rest, 2 * cs.length < fuel → Ends rest →
      value (fuel + 1) (c :: (cs ++ rest)) = (v.toNode, some rest)) : Reads v s := by
  refine ⟨⟨c, cs, text, visible, no_end⟩, ?_⟩
  intro fuel rest enough ends
  rw [← String.length_toList, text, List.length_cons] at enough
  obtain ⟨fuel, rfl⟩ : ∃ n, fuel = n + 1 := ⟨fuel - 1, by omega⟩
  rw [text, List.cons_append]
  exact reads fuel rest (by omega) ends

theorem reads_null : Reads .null "null" := by
  refine reads_of_head (c := 'n') rfl rfl (by decide) ?_
  intro fuel rest _ _
  rfl

theorem reads_bool (b : Bool) : Reads (.bool b) (boolText b) := by
  cases b with
  | false =>
    refine reads_of_head (c := 'f') rfl rfl (by decide) ?_
    intro fuel rest _ _
    rfl
  | true =>
    refine reads_of_head (c := 't') rfl rfl (by decide) ?_
    intro fuel rest _ _
    rfl

theorem reads_text (s : String) : Reads (.text s) (quote s) := by
  refine reads_of_head (toList_quote s) rfl (by decide) ?_
  intro fuel rest enough _
  rw [List.length_append, List.length_singleton] at enough
  rw [value, dropBlanks_cons rfl]
  simp only [if_true]
  rw [string, List.append_assoc, List.singleton_append, unquote?_escaped s rest (by omega)]
  rfl

theorem reads_numeral {s : String} {n : Numeral} {x : Number} (text : s.toList = n.chars)
    (formed : n.WellFormed) (stands : n.number? = some x) : Reads (.num x) s := by
  obtain ⟨c, cs, head, start⟩ := exists_head_chars formed
  have other (mark : Char) (no_minus : mark ≠ '-') (no_digit : digit? mark = none) : c ≠ mark := by
    rcases start with rfl | ⟨d, digit, rfl⟩
    · exact no_minus.symm
    · exact digitChar_ne digit no_digit
  have visible : isBlank c = false := by
    simp [isBlank, other ' ' (by decide) rfl, other '\n' (by decide) rfl,
      other '\t' (by decide) rfl, other '\r' (by decide) rfl]
  refine reads_of_head (text.trans head) visible (other ']' (by decide) rfl) ?_
  intro fuel rest _ ends
  rw [value, dropBlanks_cons visible]
  simp only [other '"' (by decide) rfl, other '[' (by decide) rfl, other '\x7b' (by decide) rfl,
    other 'n' (by decide) rfl, other 't' (by decide) rfl, other 'f' (by decide) rfl, if_false]
  rw [← List.cons_append, ← head, number, numeral?_chars formed ends]
  dsimp only
  rw [stands]
  rfl

theorem reads_nat {n : ℕ} (small : n < UInt64.size) : Reads (.nat n) (toString n) := by
  obtain ⟨ds, spelled⟩ := exists_spelling n
  exact reads_numeral (chars_of_spelling spelled) (wellFormed_of_spelling spelled)
    (number?_spelling spelled small)

/-! ## Lists -/

theorem toList_joined_cons (separator s t : String) (rest : List String) :
    (joined separator (s :: t :: rest)).toList =
      s.toList ++ (separator.toList ++ (joined separator (t :: rest)).toList) := by
  simp [joined]

theorem length_joined_cons (separator s t : String) (rest : List String) :
    (joined separator (s :: t :: rest)).length =
      s.length + separator.length + (joined separator (t :: rest)).length := by
  simp [joined]

theorem toList_comma (gap : String) : ("," ++ gap).toList = ',' :: gap.toList := by
  simp

theorem length_comma (gap : String) : ("," ++ gap).length = gap.length + 1 := by
  rw [String.length_append]
  exact Nat.add_comm 1 _

theorem exists_head_joined {separator p : String} {c : Char} {cs : List Char}
    (head : p.toList = c :: cs) (ps : List String) :
    ∃ ds, (joined separator (p :: ps)).toList = c :: ds := by
  cases ps with
  | nil => exact ⟨cs, head⟩
  | cons q ps =>
    rw [toList_joined_cons, head, List.cons_append]
    exact ⟨_, rfl⟩

theorem value_list (fuel : ℕ) (cs : List Char) :
    value (fuel + 1) ('[' :: cs) =
      (.list (items fuel cs).1.1 (items fuel cs).1.2, (items fuel cs).2) := rfl

section

variable {vs : List Value} {ps : List String} {before gap after : String}

/-- Items with blanks in front of all but the first, up to the mark that closes the list. -/
theorem moreItems_joined (each : List.Forall₂ Reads vs ps) (some_item : ps ≠ [])
    (blank_gap : Blank gap) (blank_after : Blank after) (rest : List Char) {fuel : ℕ}
    (enough : 2 * ((joined ("," ++ gap) ps).length + after.length + 1) ≤ fuel) :
    moreItems fuel ((joined ("," ++ gap) ps).toList ++ (after.toList ++ ']' :: rest)) =
      ((nodesOf vs, true), some rest) := by
  induction each generalizing fuel with
  | nil => exact absurd rfl some_item
  | @cons v p vs ps reads each ih =>
    obtain ⟨fuel, rfl⟩ : ∃ n, fuel = n + 1 := ⟨fuel - 1, by omega⟩
    cases each with
    | nil =>
      rw [joined] at enough ⊢
      have ends : Ends (after.toList ++ ']' :: rest) :=
        ends_append blank_after (ends_cons rfl (by decide) (by decide) (by decide) rest)
      rw [moreItems, reads.reads fuel _ (by omega) ends]
      dsimp only
      rw [dropBlanks_append blank_after, dropBlanks_cons rfl]
      rfl
    | @cons w q vs ps read each =>
      rw [length_joined_cons, length_comma] at enough
      have ends : Ends (',' :: (gap.toList ++ ((joined ("," ++ gap) (q :: ps)).toList ++
          (after.toList ++ ']' :: rest)))) :=
        ends_cons rfl (by decide) (by decide) (by decide) _
      rw [toList_joined_cons, toList_comma, List.append_assoc, List.cons_append, List.cons_append,
        List.append_assoc, moreItems, reads.reads fuel _ (by omega) ends]
      dsimp only
      rw [dropBlanks_cons rfl]
      simp only [if_true]
      rw [moreItems_append blank_gap, ih (List.cons_ne_nil q ps) (by omega)]
      rfl

/-- **Lists.**  A list is read where its items are, with any blanks between the marks. -/
theorem reads_list (each : List.Forall₂ Reads vs ps) (some_item : ps ≠ [])
    (blank_before : Blank before) (blank_gap : Blank gap) (blank_after : Blank after) :
    Reads (.list vs) ("[" ++ before ++ joined ("," ++ gap) ps ++ after ++ "]") := by
  have text : ("[" ++ before ++ joined ("," ++ gap) ps ++ after ++ "]").toList =
      '[' :: (before.toList ++ ((joined ("," ++ gap) ps).toList ++ (after.toList ++ [']']))) := by
    simp
  refine reads_of_head text rfl (by decide) ?_
  intro fuel rest enough _
  simp only [List.length_append, String.length_toList, List.length_singleton] at enough
  obtain ⟨fuel, rfl⟩ : ∃ n, fuel = n + 1 := ⟨fuel - 1, by omega⟩
  have run : moreItems fuel ((joined ("," ++ gap) ps).toList ++ (after.toList ++ ']' :: rest)) =
      ((nodesOf vs, true), some rest) :=
    moreItems_joined each some_item blank_gap blank_after rest (by omega)
  cases each with
  | nil => exact absurd rfl some_item
  | @cons v p vs ps reads each =>
    obtain ⟨c, cs, head, visible, no_end⟩ := reads.head
    obtain ⟨ds, first⟩ := @exists_head_joined ("," ++ gap) p c cs head ps
    simp only [List.append_assoc, List.singleton_append]
    rw [value_list, items, dropBlanks_append blank_before]
    rw [first, List.cons_append] at run ⊢
    rw [dropBlanks_cons visible]
    dsimp only
    rw [if_neg no_end, run]
    rfl

theorem reads_empty_list : Reads (.list []) "[]" := by
  refine reads_of_head (c := '[') rfl rfl (by decide) ?_
  intro fuel rest enough _
  obtain ⟨fuel, rfl⟩ : ∃ n, fuel = n + 1 := ⟨fuel - 1, by simp at enough; omega⟩
  rfl

end

/-! ## Tables -/

/-- A text that is read as a member of a table. -/
def ReadsMember (m : String × Value) (s : String) : Prop :=
  ∃ space t, Blank space ∧ Reads m.2 t ∧ s = quote m.1 ++ ":" ++ space ++ t

theorem value_table (fuel : ℕ) (cs : List Char) :
    value (fuel + 1) ('\x7b' :: cs) =
      (.table (members fuel cs).1.1 (members fuel cs).1.2, (members fuel cs).2) := rfl

section

variable {ms : List (String × Value)} {ps : List String} {before gap after : String}

theorem toList_member (key space t : String) (cs : List Char) :
    (quote key ++ ":" ++ space ++ t).toList ++ cs =
      '"' :: (key.toList.flatMap escaped ++
        '"' :: ':' :: (space.toList ++ (t.toList ++ cs))) := by
  simp [toList_quote]

theorem length_member (key space t : String) :
    (quote key ++ ":" ++ space ++ t).length =
      (key.toList.flatMap escaped).length + space.length + t.length + 3 := by
  rw [← String.length_toList, ← List.append_nil (String.toList _), toList_member]
  simp only [List.length_cons, List.length_append, String.length_toList, List.length_nil]
  omega

theorem moreMembers_member {m : String × Value} {p : String} (reads : ReadsMember m p) {fuel : ℕ}
    {cs : List Char} (enough : 2 * p.length ≤ fuel) (ends : Ends cs) {c : Char} {ds : List Char}
    (next : dropBlanks cs = c :: ds) :
    moreMembers (fuel + 1) (p.toList ++ cs) =
      if c = ',' then Run.cons (some m.1, m.2.toNode) (moreMembers fuel ds)
      else if c = '\x7d' then (([(some m.1, m.2.toNode)], true), some ds)
      else Run.stop (some m.1, m.2.toNode) := by
  obtain ⟨space, t, blank_space, reads, rfl⟩ := reads
  rw [length_member] at enough
  rw [toList_member, moreMembers, dropBlanks_cons rfl]
  simp only [if_true]
  rw [unquote?_escaped m.1 _ (by omega)]
  dsimp only
  rw [dropBlanks_cons rfl]
  simp only [if_true]
  rw [value_append blank_space, reads.reads fuel cs (by omega) ends]
  dsimp only
  rw [next]

/-- Members with blanks in front of all but the first, up to the mark that closes the table. -/
theorem moreMembers_joined (each : List.Forall₂ ReadsMember ms ps) (some_member : ps ≠ [])
    (blank_gap : Blank gap) (blank_after : Blank after) (rest : List Char) {fuel : ℕ}
    (enough : 2 * ((joined ("," ++ gap) ps).length + after.length + 1) ≤ fuel) :
    moreMembers fuel ((joined ("," ++ gap) ps).toList ++ (after.toList ++ '\x7d' :: rest)) =
      ((memberNodesOf ms, true), some rest) := by
  induction each generalizing fuel with
  | nil => exact absurd rfl some_member
  | @cons m p ms ps reads each ih =>
    obtain ⟨fuel, rfl⟩ : ∃ n, fuel = n + 1 := ⟨fuel - 1, by omega⟩
    cases each with
    | nil =>
      rw [joined] at enough ⊢
      have ends : Ends (after.toList ++ '\x7d' :: rest) :=
        ends_append blank_after (ends_cons rfl (by decide) (by decide) (by decide) rest)
      have next : dropBlanks (after.toList ++ '\x7d' :: rest) = '\x7d' :: rest := by
        rw [dropBlanks_append blank_after, dropBlanks_cons rfl]
      rw [moreMembers_member reads (by omega) ends next]
      rfl
    | @cons w q ms ps read each =>
      rw [length_joined_cons, length_comma] at enough
      have ends : Ends (',' :: (gap.toList ++ ((joined ("," ++ gap) (q :: ps)).toList ++
          (after.toList ++ '\x7d' :: rest)))) :=
        ends_cons rfl (by decide) (by decide) (by decide) _
      rw [toList_joined_cons, toList_comma, List.append_assoc, List.cons_append, List.cons_append,
        List.append_assoc, moreMembers_member reads (by omega) ends (dropBlanks_cons rfl _),
        if_pos rfl, moreMembers_append blank_gap, ih (List.cons_ne_nil q ps) (by omega)]
      rfl

/-- **Tables.**  A table is read where its members are, with any blanks between the marks. -/
theorem reads_table (each : List.Forall₂ ReadsMember ms ps) (some_member : ps ≠ [])
    (blank_before : Blank before) (blank_gap : Blank gap) (blank_after : Blank after) :
    Reads (.table ms) ("\x7b" ++ before ++ joined ("," ++ gap) ps ++ after ++ "\x7d") := by
  have text : ("\x7b" ++ before ++ joined ("," ++ gap) ps ++ after ++ "\x7d").toList =
      '\x7b' :: (before.toList ++
        ((joined ("," ++ gap) ps).toList ++ (after.toList ++ ['\x7d']))) := by
    simp
  refine reads_of_head text rfl (by decide) ?_
  intro fuel rest enough _
  simp only [List.length_append, String.length_toList, List.length_singleton] at enough
  obtain ⟨fuel, rfl⟩ : ∃ n, fuel = n + 1 := ⟨fuel - 1, by omega⟩
  have run : moreMembers fuel
      ((joined ("," ++ gap) ps).toList ++ (after.toList ++ '\x7d' :: rest)) =
        ((memberNodesOf ms, true), some rest) :=
    moreMembers_joined each some_member blank_gap blank_after rest (by omega)
  cases each with
  | nil => exact absurd rfl some_member
  | @cons m p ms ps reads each =>
    obtain ⟨space, t, -, -, rfl⟩ := reads
    obtain ⟨cs, head⟩ : ∃ cs, (quote m.1 ++ ":" ++ space ++ t).toList = '"' :: cs := by
      rw [← List.append_nil (String.toList _), toList_member]
      exact ⟨_, rfl⟩
    obtain ⟨ds, first⟩ := @exists_head_joined ("," ++ gap) _ '"' cs head ps
    simp only [List.append_assoc, List.singleton_append]
    rw [value_table, members, dropBlanks_append blank_before]
    rw [first, List.cons_append] at run ⊢
    rw [dropBlanks_cons rfl]
    dsimp only
    rw [if_neg (by decide), run]
    rfl

theorem reads_empty_table : Reads (.table []) "\x7b\x7d" := by
  refine reads_of_head (c := '\x7b') rfl rfl (by decide) ?_
  intro fuel rest enough _
  obtain ⟨fuel, rfl⟩ : ∃ n, fuel = n + 1 := ⟨fuel - 1, by simp at enough; omega⟩
  rfl

end

/-! ## Whole texts -/

/-- All numbers of a value are read back. -/
inductive Legible : Value → Prop where
  | null : Legible .null
  | bool (b : Bool) : Legible (.bool b)
  | num {n : Number} (reads : Reads (.num n) (numberText n)) : Legible (.num n)
  | text (s : String) : Legible (.text s)
  | list {vs : List Value} (items : ∀ v ∈ vs, Legible v) : Legible (.list vs)
  | table {ms : List (String × Value)} (members : ∀ m ∈ ms, Legible m.2) : Legible (.table ms)

theorem legible_nat {n : ℕ} (small : n < UInt64.size) : Legible (.nat n) := .num (reads_nat small)

theorem prettyItems_eq_map (level : ℕ) (vs : List Value) :
    prettyItems level vs = vs.map (prettyAt level) := by
  induction vs with
  | nil => rfl
  | cons v vs ih => rw [prettyItems, ih, List.map_cons]

theorem prettyMembers_eq_map (level : ℕ) (ms : List (String × Value)) :
    prettyMembers level ms = ms.map fun m => quote m.1 ++ ": " ++ prettyAt level m.2 := by
  induction ms with
  | nil => rfl
  | cons m ms ih => rw [prettyMembers, ih, List.map_cons]

/-- **Lines.**  A value is read back from its lines. -/
theorem Legible.reads_prettyAt {v : Value} (legible : Legible v) (level : ℕ) :
    Reads v (prettyAt level v) := by
  induction legible generalizing level with
  | null => exact reads_null
  | bool b => exact reads_bool b
  | num reads => exact reads
  | text s => exact reads_text s
  | @list vs items ih =>
    rw [prettyAt, prettyItems_eq_map, block]
    split_ifs with empty
    · rw [List.map_eq_nil_iff.1 empty]
      exact reads_empty_list
    · refine reads_list ?_ empty (blank_newLine _) (blank_newLine _) (blank_newLine _)
      rw [List.forall₂_map_right_iff, List.forall₂_same]
      intro v mem
      exact ih v mem (level + 1)
  | @table ms members ih =>
    rw [prettyAt, prettyMembers_eq_map, block]
    split_ifs with empty
    · rw [List.map_eq_nil_iff.1 empty]
      exact reads_empty_table
    · refine reads_table ?_ empty (blank_newLine _) (blank_newLine _) (blank_newLine _)
      rw [List.forall₂_map_right_iff, List.forall₂_same]
      intro m mem
      refine ⟨" ", prettyAt (level + 1) m.2, blank_space, ih m mem (level + 1), ?_⟩
      simp [String.append_assoc]

theorem compactMembers_eq_map (ms : List (String × Value)) :
    compactMembers ms = ms.map fun m => quote m.1 ++ ":" ++ compact m.2 := by
  induction ms with
  | nil => rfl
  | cons m ms ih => rw [compactMembers, ih, List.map_cons]

/-- A value whose text, with or without blanks, is read as another value. -/
structure Rereads (w v : Value) : Prop where
  compact : Reads w (compact v)
  lines : ∀ level, Reads w (prettyAt level v)

theorem rereads_text (s : String) : Rereads (.text s) (.text s) :=
  ⟨reads_text s, fun _ => reads_text s⟩

theorem rereads_nat {n : ℕ} (small : n < UInt64.size) : Rereads (.nat n) (.nat n) :=
  ⟨reads_nat small, fun _ => reads_nat small⟩

theorem reads_lines_of_members {ms ns : List (String × Value)}
    (each : List.Forall₂ (fun n m => n.1 = m.1 ∧ Rereads n.2 m.2) ns ms) (level : ℕ) :
    List.Forall₂ ReadsMember ns (prettyMembers level ms) := by
  rw [prettyMembers_eq_map, List.forall₂_map_right_iff]
  refine each.imp ?_
  rintro ⟨k, w⟩ ⟨-, v⟩ ⟨rfl, rereads⟩
  exact ⟨" ", prettyAt level v, blank_space, rereads.lines level, by simp [String.append_assoc]⟩

theorem reads_compact_of_members {ms ns : List (String × Value)}
    (each : List.Forall₂ (fun n m => n.1 = m.1 ∧ Rereads n.2 m.2) ns ms) :
    List.Forall₂ ReadsMember ns (compactMembers ms) := by
  rw [compactMembers_eq_map, List.forall₂_map_right_iff]
  refine each.imp ?_
  rintro ⟨k, w⟩ ⟨-, v⟩ ⟨rfl, rereads⟩
  exact ⟨"", Json.compact v, blank_empty, rereads.compact, by simp⟩

/-- A table is read as the table of what its members are read as. -/
theorem rereads_table {ms ns : List (String × Value)}
    (each : List.Forall₂ (fun n m => n.1 = m.1 ∧ Rereads n.2 m.2) ns ms) :
    Rereads (.table ns) (.table ms) := by
  have lines := reads_lines_of_members each
  have compact := reads_compact_of_members each
  cases each with
  | nil => exact ⟨reads_empty_table, fun _ => reads_empty_table⟩
  | @cons n m ns ms first rest =>
    obtain ⟨k, v⟩ := m
    refine ⟨?_, fun level => ?_⟩
    · have reads := reads_table compact (List.cons_ne_nil _ _) blank_empty blank_empty blank_empty
      simpa only [Json.compact, String.append_empty] using reads
    · exact reads_table (lines (level + 1)) (List.cons_ne_nil _ _) (blank_newLine _)
        (blank_newLine _) (blank_newLine _)

section

variable {v : Value} {s : String}

/-- A text that is read as a value is the text of that value and nothing else. -/
theorem Reads.ofString (reads : Reads v s) : Text.ofString s = ⟨v.toNode, true⟩ := by
  have read := reads.reads (2 * s.length + 3) [] (by omega) ends_nil
  rw [List.append_nil] at read
  rw [Text.ofString, read]
  rfl

/-- Decoding a text is decoding the value that it is read as. -/
theorem Reads.decode {β : Type} (reads : Reads v s) (d : Decoder β) :
    decode d s = d v.toNode := by
  rw [Json.decode, reads.ofString]
  cases d v.toNode with
  | error fault => rfl
  | ok b => rfl

theorem keeps_toNode (v : Value) : dialect.keeps v.toNode = true ↔ v.toNode.depth ≤ 127 := by
  simp [Dialect.keeps, dialect]

theorem Reads.parse? (reads : Reads v s) (shallow : v.toNode.depth ≤ 127) :
    parse? s = some v := by
  have kept : Decoder.kept dialect (fun n => orMismatch n.sound?) v.toNode = .ok v := by
    rw [Decoder.kept, if_pos ((keeps_toNode v).2 shallow), v.sound?_toNode]
    rfl
  rw [Json.parse?, reads.decode, kept]

end

/-! ## How a text starts and ends -/

section

variable {t : String} {mark : Char}

/-- The first character of a text that is no blank. -/
def OpensWith (t : String) (mark : Char) : Prop := ∃ rest, dropBlanks t.toList = mark :: rest

theorem exists_root_table (opens : OpensWith t '\x7b') :
    ∃ ms closed, (Text.ofString t).root = .table ms closed := by
  obtain ⟨rest, visible⟩ := opens
  rw [Text.ofString, value, visible]
  exact ⟨_, _, rfl⟩

theorem exists_root_list (opens : OpensWith t '[') :
    ∃ ns closed, (Text.ofString t).root = .list ns closed := by
  obtain ⟨rest, visible⟩ := opens
  rw [Text.ofString, value, visible]
  exact ⟨_, _, rfl⟩

variable {β γ : Type} {d : Decoder β} {b : β}

/-- A text is decoded where its tree is and nothing follows it. -/
theorem decode_eq_ok_iff :
    decode d t = .ok b ↔ d (Text.ofString t).root = .ok b ∧ (Text.ofString t).complete = true := by
  rw [decode]
  cases d (Text.ofString t).root with
  | error fault => simp [bind, Except.bind]
  | ok c => cases (Text.ofString t).complete <;> simp [bind, Except.bind, Decoder.ended]

/-- What is done with a decoded value can be done after the whole text is decoded. -/
theorem decode_map (f : β → γ) : decode (fun n => (d n).map f) t = (decode d t).map f := by
  rw [decode, decode]
  cases d (Text.ofString t).root with
  | error fault => rfl
  | ok c => cases (Text.ofString t).complete <;> rfl

end

end Prognosis.Json
