import Prognosis.Proofs.Document.Record
import Prognosis.Proofs.Json.Reader
import Prognosis.Sample.Batch

/-!
# One sample, many samples

A list of samples starts with a sample, and a sample written as a list starts with the text of its
timestamp; no text is a sample, so no tree but the empty list can be read in both layouts
(`eq_empty_of_listed_of_decode`).  A batch may therefore be read as the first layout that fits
(`batch_unambiguous`), and the three doors through which samples come in find the same ones in a
text (`doors_agree`): what a history file or a batch keeps before it is judged, a request reads in
passing, and keeping a value only ever refuses more (`Decoder.kept_eq_ok_iff`).
-/

namespace Prognosis.Batch

open Document

/-! ## Layouts -/

/-- The samples of a text in the layout in which they were found. -/
inductive Layout where
  | many (samples : List Sample)
  | one (sample : Sample)

/-- The samples in either layout. -/
def Layout.samples : Layout → List Sample
  | many samples => samples
  | one sample => [sample]

/-- A batch with its layout. -/
def laidOut : Decoder Layout :=
  .kept Json.dialect (orElse (fun n => (listed n).map .many) fun n =>
    (Sample.decode Json.dialect n).map .one)

theorem batch_eq (n : Node) : batch n = (laidOut n).map Layout.samples := by
  rw [batch, laidOut, Decoder.kept, Decoder.kept]
  split
  · rw [orElse, orElse]
    cases listed n with
    | ok samples => rfl
    | error fault =>
      cases Sample.decode Json.dialect n with
      | ok sample => rfl
      | error fault => rfl
  · rfl

section

variable {β : Type} {d e : Decoder β} {n : Node} {b : β}

theorem orElse_eq_ok_iff : orElse d e n = .ok b ↔ d n = .ok b ∨ (∀ c, d n ≠ .ok c) ∧ e n = .ok b := by
  rw [orElse]
  cases d n with
  | ok c => simp
  | error fault => simp

end

section

variable {n : Node} {samples : List Sample} {sample : Sample}

theorem laidOut_eq_many_iff :
    laidOut n = .ok (.many samples) ↔ Json.dialect.keeps n = true ∧ listed n = .ok samples := by
  rw [laidOut, Decoder.kept_eq_ok_iff, orElse_eq_ok_iff]
  cases listed n with
  | ok found => simp [Except.map]
  | error fault => cases Sample.decode Json.dialect n <;> simp [Except.map]

theorem laidOut_eq_one_iff :
    laidOut n = .ok (.one sample) ↔ Json.dialect.keeps n = true ∧
      (∀ samples, listed n ≠ .ok samples) ∧ Sample.decode Json.dialect n = .ok sample := by
  rw [laidOut, Decoder.kept_eq_ok_iff, orElse_eq_ok_iff]
  cases listed n with
  | ok found => simp [Except.map]
  | error fault => cases Sample.decode Json.dialect n <;> simp [Except.map]

/-! ## How each layout starts -/

/-- A sample that is written as a list starts with the text of its timestamp. -/
theorem exists_text_of_decode_list {dialect : Dialect} {ns : List Node} {closed : Bool}
    (read : Sample.decode dialect (.list (n :: ns) closed) = .ok sample) :
    ∃ t, n = .text (some t) := by
  obtain ⟨-, taken⟩ := Decoder.ended_iff.1 read
  obtain ⟨r, stored, -⟩ := exists_of_bind_eq_ok taken
  obtain ⟨timestamp, instant, -⟩ := exists_of_map_eq_ok stored
  obtain ⟨t, text, -⟩ := Decoder.textWith_eq_ok_iff.1 instant
  exact ⟨t, text⟩

theorem decode_text_ne_ok {dialect : Dialect} (t : Option String) :
    Sample.decode dialect (.text t) ≠ .ok sample := by
  intro read
  cases read

theorem not_text_of_listed {ns : List Node} {closed : Bool} {t : Option String}
    (read : listed (.list (n :: ns) closed) = .ok samples) : n ≠ .text t := by
  rintro rfl
  obtain ⟨_, ⟨⟩, each⟩ := Decoder.exists_of_list_eq_ok read
  obtain ⟨sample, first⟩ := Decoder.exists_of_items_eq_ok each _ List.mem_cons_self
  exact decode_text_ne_ok t first

/-- Only the empty list can be read in both layouts. -/
theorem eq_empty_of_listed_of_decode (many : listed n = .ok samples)
    (one : Sample.decode Json.dialect n = .ok sample) : n = .list [] true := by
  obtain ⟨ns, rfl, -⟩ := Decoder.exists_of_list_eq_ok many
  cases ns with
  | nil => rfl
  | cons n ns =>
    obtain ⟨t, text⟩ := exists_text_of_decode_list one
    exact absurd text (not_text_of_listed many)

/-- A batch is a list of samples or a sample that can be kept. -/
theorem exists_batch_iff :
    (∃ samples, batch n = .ok samples) ↔ Json.dialect.keeps n = true ∧
      ((∃ samples, listed n = .ok samples) ∨
        ∃ sample, Sample.decode Json.dialect n = .ok sample) := by
  rw [batch, exists_congr fun samples => Decoder.kept_eq_ok_iff, exists_and_left]
  refine and_congr_right fun _ => ?_
  rw [exists_congr fun samples => orElse_eq_ok_iff]
  cases listed n with
  | ok found => simp
  | error fault => cases Sample.decode Json.dialect n <;> simp [Except.map]

/-- A list whose first item is a text. -/
def TextFirst (ns : List Node) : Prop := ∃ t rest, ns = .text (some t) :: rest

variable {ns : List Node} {closed : Bool}

theorem not_textFirst_of_listed (read : listed (.list ns closed) = .ok samples) :
    ¬ TextFirst ns := by
  rintro ⟨t, rest, rfl⟩
  exact not_text_of_listed read rfl

/-- What is read as a list, but not as a list of samples, starts with a text. -/
theorem textFirst_of_decode (not_listed : ∀ samples, listed (.list ns closed) ≠ .ok samples)
    (read : Sample.decode Json.dialect (.list ns closed) = .ok sample) : TextFirst ns := by
  cases ns with
  | nil =>
    cases closed with
    | false => cases read
    | true => exact absurd rfl (not_listed [])
  | cons n rest =>
    obtain ⟨t, rfl⟩ := exists_text_of_decode_list read
    exact ⟨t, rest, rfl⟩

end

/-- **One layout.**  A value is never both a list of samples and a sample, unless it is the empty
list, which is an empty batch.  So what can be kept is accepted as a batch where it is one of the
two; an accepted list is one sample where it starts with a text; and any other list is refused as a
whole for one item that is no sample. -/
theorem batch_unambiguous (n : Node) :
    (∀ samples sample, listed n = .ok samples → Sample.decode Json.dialect n = .ok sample →
      n = .list [] true) ∧
    laidOut (.list [] true) = .ok (.many []) ∧
    batch n = (laidOut n).map Layout.samples ∧
    ((∃ samples, batch n = .ok samples) ↔ Json.dialect.keeps n = true ∧
      ((∃ samples, listed n = .ok samples) ∨
        ∃ sample, Sample.decode Json.dialect n = .ok sample)) ∧
    (∀ ns closed layout, n = .list ns closed → laidOut n = .ok layout →
      ((∃ sample, layout = .one sample) ↔ TextFirst ns)) ∧
    (∀ ns closed, n = .list ns closed → ¬ TextFirst ns →
      (∃ m ∈ ns, ∀ sample, Sample.decode Json.dialect m ≠ .ok sample) →
      ∀ samples, batch n ≠ .ok samples) := by
  refine ⟨fun _ _ => eq_empty_of_listed_of_decode, rfl, batch_eq n, exists_batch_iff, ?_, ?_⟩
  · rintro ns closed layout rfl found
    cases layout with
    | many samples =>
      have many := (laidOut_eq_many_iff.1 found).2
      simp [not_textFirst_of_listed many]
    | one sample =>
      obtain ⟨-, not_listed, one⟩ := laidOut_eq_one_iff.1 found
      simp [textFirst_of_decode not_listed one]
  · rintro ns closed rfl other ⟨m, mem, no_sample⟩ samples accepted
    have not_listed : ∀ samples, listed (.list ns closed) ≠ .ok samples := by
      intro samples many
      obtain ⟨_, ⟨⟩, each⟩ := Decoder.exists_of_list_eq_ok many
      obtain ⟨sample, read⟩ := Decoder.exists_of_items_eq_ok each m mem
      exact no_sample sample read
    rcases (exists_batch_iff.1 ⟨samples, accepted⟩).2 with ⟨samples, many⟩ | ⟨sample, one⟩
    · exact not_listed samples many
    · exact other (textFirst_of_decode not_listed one)

/-- A list of one moment is a sample, and a list of nothing but null is refused. -/
theorem batch_unambiguous_of_short_lists :
    (∃ sample, laidOut (.list [.text (some "1970-01-01T00:00:00Z")] true) = .ok (.one sample)) ∧
      ∀ samples, batch (.list [.null] true) ≠ .ok samples := by
  constructor
  · obtain ⟨-, -, -, -, reading, -⟩ :=
      batch_unambiguous (.list [.text (some "1970-01-01T00:00:00Z")] true)
    obtain ⟨sample, same⟩ := (reading _ true (.one Sample.empty) rfl rfl).2 ⟨_, _, rfl⟩
    refine ⟨sample, ?_⟩
    rw [← same]
    rfl
  · obtain ⟨-, -, -, -, -, refused⟩ := batch_unambiguous (.list [.null] true)
    refine refused [.null] true rfl ?_ ⟨.null, List.mem_singleton_self _, ?_⟩
    · rintro ⟨t, rest, ⟨⟩⟩
    · intro sample read
      cases read

/-! ## Values that are too deep -/

/-- Nothing in a number of lists, one in the other, and one more. -/
def nested : ℕ → Value
  | 0 => .list []
  | k + 1 => .list [nested k]

theorem depth_nested (k : ℕ) : (nested k).toNode.depth = k + 1 := by
  induction k with
  | zero => rfl
  | succ k ih => simp [nested, Value.toNode, nodesOf, Node.depth, depthOfItems, ih]

theorem passable_nested (k : ℕ) : (nested k).toNode.passable = true := by
  induction k with
  | zero => rfl
  | succ k ih => simp [nested, Value.toNode, nodesOf, Node.passable, allPassable, ih]

/-- A sample passes over a member that it does not know, however deep that is. -/
theorem decode_nested (k : ℕ) :
    Sample.decode Json.dialect (Value.table [("note", nested k)]).toNode = .ok Sample.empty := by
  have unknown : (Sample.fields.find? fun f => f.name = "note") = none := rfl
  refine Record.read_toNode ?_ Json.dialect
  rw [memberNodesOf, Record.members, unknown]
  simp only [passable_nested, if_true]
  rfl

/-- A batch keeps that member, and it has to have room for it. -/
theorem exists_batch_nested_iff (k : ℕ) :
    (∃ samples, batch (Value.table [("note", nested k)]).toNode = .ok samples) ↔ k ≤ 125 := by
  have depth : (Value.table [("note", nested k)]).toNode.depth = k + 2 := by
    simp [Value.toNode, memberNodesOf, Node.depth, depthOfMembers, depth_nested]
  rw [exists_batch_iff, Json.keeps_toNode, and_iff_left (.inr ⟨_, decode_nested k⟩), depth]
  omega

/-- A sample of 128 levels is no batch. -/
theorem batch_refuses_deep_sample :
    Sample.decode Json.dialect (Value.table [("note", nested 126)]).toNode = .ok Sample.empty ∧
      ¬ ∃ samples, batch (Value.table [("note", nested 126)]).toNode = .ok samples :=
  ⟨decode_nested 126, by rw [exists_batch_nested_iff]; decide⟩

/-! ## Every door -/

section

variable {n : Node} {samples : List Sample}

/-- A history file that is a table is what a request reads, if it can be kept. -/
theorem historyFile_table_iff {ms : List (Option String × Node)} {closed : Bool} :
    historyFile (.table ms closed) = .ok samples ↔
      request (.table ms closed) = .ok samples ∧
        Json.dialect.keeps (.table ms closed) = true := by
  rw [historyFile, Decoder.kept_eq_ok_iff, orElse_eq_ok_iff, and_comm]
  have no_list (found : List Sample) : listed (.table ms closed) ≠ .ok found := by
    intro read
    cases read
  simp [no_list, wrapped]

/-- A history file that is a list is what a batch reads as many samples. -/
theorem historyFile_list_iff {ns : List Node} {closed : Bool} :
    historyFile (.list ns closed) = .ok samples ↔
      laidOut (.list ns closed) = .ok (.many samples) := by
  rw [historyFile, Decoder.kept_eq_ok_iff, orElse_eq_ok_iff, laidOut_eq_many_iff]
  simp [wrapped]

end

/-- **Every door.**  A history file that is a table gives a scoring request the same samples; it is
refused where the request is read only if it cannot be kept.  A history file that is a list is read
as the samples of a batch of many, and a batch comes to its samples in either layout. -/
theorem doors_agree (t : String) (samples : List Sample) :
    (Json.OpensWith t '\x7b' →
      (Json.decode historyFile t = .ok samples ↔
        Json.decode request t = .ok samples ∧
          Json.dialect.keeps (Json.Text.ofString t).root = true)) ∧
    (Json.OpensWith t '[' →
      (Json.decode historyFile t = .ok samples ↔
        Json.decode laidOut t = .ok (.many samples))) ∧
    Json.decode batch t = (Json.decode laidOut t).map Layout.samples := by
  refine ⟨?_, ?_, ?_⟩
  · intro opens
    obtain ⟨ms, closed, root⟩ := Json.exists_root_table opens
    rw [Json.decode_eq_ok_iff, Json.decode_eq_ok_iff, root, historyFile_table_iff, and_right_comm]
  · intro opens
    obtain ⟨ns, closed, root⟩ := Json.exists_root_list opens
    rw [Json.decode_eq_ok_iff, Json.decode_eq_ok_iff, root, historyFile_list_iff]
  · rw [← Json.decode_map, funext batch_eq]

theorem reads_pair : Json.Reads (.list [.list [], .list []]) "[[],[]]" :=
  Json.reads_list (.cons Json.reads_empty_list (.cons Json.reads_empty_list .nil))
    (List.cons_ne_nil _ _) Json.blank_empty Json.blank_empty Json.blank_empty

theorem reads_request :
    Json.Reads (.table [("samples", .list [.list [], .list []])])
      "\x7b\"samples\":[[],[]]\x7d" := by
  have member : Json.ReadsMember ("samples", .list [.list [], .list []])
      (Json.quote "samples" ++ ":" ++ "" ++ "[[],[]]") :=
    ⟨"", "[[],[]]", Json.blank_empty, reads_pair, rfl⟩
  have text : "\x7b\"samples\":[[],[]]\x7d" = "\x7b" ++ "" ++ Json.joined ("," ++ "")
      [Json.quote "samples" ++ ":" ++ "" ++ "[[],[]]"] ++ "" ++ "\x7d" := by decide
  rw [text]
  exact Json.reads_table (.cons member .nil) (List.cons_ne_nil _ _) Json.blank_empty
    Json.blank_empty Json.blank_empty

/-- Two samples come in through every door. -/
theorem doors_agree_on_pair :
    Json.decode request "\x7b\"samples\":[[],[]]\x7d" = .ok [.empty, .empty] ∧
      Json.decode laidOut "[[],[]]" = .ok (.many [.empty, .empty]) := by
  constructor
  · have file : Json.decode historyFile "\x7b\"samples\":[[],[]]\x7d" =
        .ok [.empty, .empty] := by
      rw [reads_request.decode]
      rfl
    exact (((doors_agree _ _).1 ⟨_, rfl⟩).1 file).1
  · have file : Json.decode historyFile "[[],[]]" = .ok [.empty, .empty] := by
      rw [reads_pair.decode]
      rfl
    exact ((doors_agree _ _).2.1 ⟨_, rfl⟩).1 file

end Prognosis.Batch
