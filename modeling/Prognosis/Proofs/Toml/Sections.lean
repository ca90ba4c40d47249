import Mathlib.Data.List.Basic
import Prognosis.Toml.Reader

/-!
# Tables from sections

Keys of one part that are given once become the entries of a table (`addKeys?_fields`).  A header
begins a table at the end of its parent (`beginTable?_fresh`), or one more of the tables of its name
(`beginItem?_withTables`); a longer header acts on the last of them (`underHeader?_withTables`).
-/

namespace Prognosis.Toml

open Document

/-! ## Members -/

namespace Members

variable {key : String} {ms : Members}

theorem find?_eq_none_iff : ms.find? key = none ↔ key ∉ ms.map (·.1) := by
  unfold find?
  simp only [Option.map_eq_none_iff, List.find?_eq_none, List.mem_map, decide_eq_true_eq]
  constructor
  · rintro absent ⟨m, mem, rfl⟩
    exact absent m mem rfl
  · rintro absent m mem rfl
    exact absent ⟨m, mem, rfl⟩

theorem find?_append_self (fresh : ms.find? key = none) (e : Entry) :
    (ms ++ [(key, e)]).find? key = some e := by
  unfold find? at fresh ⊢
  rw [Option.map_eq_none_iff] at fresh
  rw [List.find?_append, fresh]
  simp

theorem put_fresh (fresh : ms.find? key = none) (e : Entry) : ms.put key e = ms ++ [(key, e)] := by
  rw [find?_eq_none_iff] at fresh
  induction ms with
  | nil => rfl
  | cons m ms ih =>
    obtain ⟨k, old⟩ := m
    rw [List.map_cons, List.mem_cons, not_or] at fresh
    rw [put, if_neg (Ne.symm fresh.1), ih fresh.2]
    rfl

theorem put_append_self (fresh : ms.find? key = none) (old e : Entry) :
    (ms ++ [(key, old)]).put key e = ms ++ [(key, e)] := by
  rw [find?_eq_none_iff] at fresh
  induction ms with
  | nil =>
    show put key e [(key, old)] = _
    rw [put, if_pos rfl]
    rfl
  | cons m ms ih =>
    obtain ⟨k, other⟩ := m
    rw [List.map_cons, List.mem_cons, not_or] at fresh
    rw [List.cons_append, put, if_neg (Ne.symm fresh.1), ih fresh.2]
    rfl

end Members

/-! ## Keys of one part -/

/-- Values with their names. -/
abbrev Fields := List (String × Value)

/-- The keys of one part that give these values. -/
def keysOf (fs : Fields) : KeyValues := fs.map fun f => ([f.1], f.2)

/-- The entries of a table with these values. -/
def entriesOf (fs : Fields) : Members := fs.map fun f => (f.1, .value f.2)

theorem addKeys?_cons (ms : Members) (key : List String) (v : Value) (kvs : KeyValues) :
    addKeys? ms ((key, v) :: kvs) = (addKey? true v key ms).bind fun ms => addKeys? ms kvs := rfl

theorem addKeys?_fields {ms : Members} {fs : Fields}
    (distinct : (ms.map (·.1) ++ fs.map (·.1)).Nodup) :
    addKeys? ms (keysOf fs) = some (ms ++ entriesOf fs) := by
  induction fs generalizing ms with
  | nil => simp [addKeys?, keysOf, entriesOf]
  | cons f fs ih =>
    have fresh : ms.find? f.1 = none := by
      rw [Members.find?_eq_none_iff]
      intro mem
      exact (List.nodup_append.1 distinct).2.2 _ mem _ (by simp) rfl
    have first : addKey? true f.2 [f.1] ms = some (ms ++ [(f.1, .value f.2)]) := by
      rw [addKey?, addLast?, fresh, if_pos ⟨rfl, rfl⟩, Members.put_fresh fresh]
    have rest := @ih (ms ++ [(f.1, .value f.2)]) (by simpa using distinct)
    show addKeys? ms (([f.1], f.2) :: keysOf fs) = _
    rw [addKeys?_cons, first, Option.bind_some, rest]
    simp [entriesOf]

theorem beginTable?_fresh {key : String} {ms : Members} {fs : Fields}
    (fresh : ms.find? key = none) (distinct : (fs.map (·.1)).Nodup) :
    beginTable? key (keysOf fs) ms = some (ms ++ [(key, .table .header (entriesOf fs))]) := by
  have keys := @addKeys?_fields [] fs (by simpa using distinct)
  simp [beginTable?, fresh, keys, Members.put_fresh fresh]

/-! ## Tables of one name -/

/-- A table with several tables of one name at its end, once there are any. -/
def withTables (key : String) (base : Members) (all : List Members) : Members :=
  if all = [] then base else base ++ [(key, .tables all)]

theorem changeLast?_append (change : Members → Option Members) (all : List Members) (m : Members) :
    changeLast? change (all ++ [m]) = (change m).map fun m => all ++ [m] := by
  induction all with
  | nil => rfl
  | cons first all ih =>
    have more : ∃ second rest, all ++ [m] = second :: rest := by
      cases all with
      | nil => exact ⟨m, [], rfl⟩
      | cons second all => exact ⟨second, all ++ [m], rfl⟩
    obtain ⟨second, rest, shape⟩ := more
    rw [List.cons_append]
    rw [shape] at ih ⊢
    rw [changeLast?, ih, Option.map_map]
    rfl

section

variable {key : String} {base : Members} (fresh : base.find? key = none)

include fresh

/-- One more table of a name. -/
theorem beginItem?_withTables {fs : Fields} (distinct : (fs.map (·.1)).Nodup) (all : List Members) :
    beginItem? key (keysOf fs) (withTables key base all) =
      some (withTables key base (all ++ [entriesOf fs])) := by
  have keys := @addKeys?_fields [] fs (by simpa using distinct)
  unfold beginItem? withTables
  by_cases none : all = []
  · subst none
    simp [fresh, keys, Members.put_fresh fresh]
  · simp [none, Members.find?_append_self fresh, keys, Members.put_append_self fresh]

/-- A header of several parts acts on the last table of the name it starts with. -/
theorem underHeader?_withTables (change : Members → Option Members) (path : List String)
    (all : List Members) (m : Members) :
    underHeader? change (key :: path) (withTables key base (all ++ [m])) =
      (underHeader? change path m).map fun m => withTables key base (all ++ [m]) := by
  have some_tables (m : Members) : withTables key base (all ++ [m]) =
      base ++ [(key, .tables (all ++ [m]))] := if_neg (by simp)
  simp only [some_tables]
  rw [underHeader?, Members.find?_append_self fresh]
  dsimp only
  rw [changeLast?_append]
  cases underHeader? change path m with
  | none => rfl
  | some m' =>
    show some (Members.put key (.tables (all ++ [m'])) (base ++ [(key, .tables (all ++ [m]))])) = _
    rw [Members.put_append_self fresh]
    rfl

end

/-! ## Documents -/

/-- Adds sections to a document, one after the other. -/
def addAll? (root : Members) (ss : List Section) : Option Members :=
  ss.foldlM (fun root s => s.addTo? root) root

theorem addAll?_cons (root : Members) (s : Section) (ss : List Section) :
    addAll? root (s :: ss) = (s.addTo? root).bind fun root => addAll? root ss := rfl

theorem addAll?_append (root : Members) (ss ss' : List Section) :
    addAll? root (ss ++ ss') = (addAll? root ss).bind fun root => addAll? root ss' :=
  List.foldlM_append

theorem build?_eq (kvs : KeyValues) (ss : List Section) :
    Outline.build? (kvs, ss) = (addKeys? [] kvs).bind fun root => addAll? root ss := rfl

/-! ## Values of tables -/

theorem memberValues_eq_map (ms : Members) :
    memberValues ms = ms.map fun m => (m.1, m.2.toValue) := by
  induction ms with
  | nil => rfl
  | cons m ms ih => rw [memberValues, ih, List.map_cons]

theorem tableValues_eq_map (all : List Members) :
    tableValues all = all.map fun ms => .table (memberValues ms) := by
  induction all with
  | nil => rfl
  | cons ms all ih => rw [tableValues, ih, List.map_cons]

theorem memberValues_append (ms ms' : Members) :
    memberValues (ms ++ ms') = memberValues ms ++ memberValues ms' := by
  simp only [memberValues_eq_map, List.map_append]

@[simp] theorem memberValues_entriesOf (fs : Fields) : memberValues (entriesOf fs) = fs := by
  rw [memberValues_eq_map, entriesOf, List.map_map]
  exact List.map_id fs

end Prognosis.Toml
