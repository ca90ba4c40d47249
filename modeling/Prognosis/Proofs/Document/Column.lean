import Prognosis.Proofs.Document.Overlay

/-!
# Records in columns

Where each column of a record keeps what is put into it and no column touches another, laying values
over the record is filling its columns one by one (`Column.Complete.overlay?_iff`), and a record is
read from the table of its columns (`Column.Complete.read_toNode`).
-/

namespace Prognosis.Document.Record

variable {δ : Type}

namespace Column

/-- A column keeps what is put into it, and reads what it writes. -/
structure Lawful (c : Column δ) : Prop where
  get_set : ∀ b r, c.get (c.set b r) = b
  set_get : ∀ r, c.set (c.get r) r = r
  read_write : ∀ b, c.read (c.write b).toNode = .ok b

/-- It does not matter which of two columns is filled first. -/
def Commutes (c c' : Column δ) : Prop :=
  ∀ b b' r, c'.set b' (c.set b r) = c.set b (c'.set b' r)

/-- A column holds what is given for it, or what it held before. -/
def Fills (c : Column δ) (given : String → Option Node) (r s : δ) : Prop :=
  Filled c.read (given c.name) (c.get r) (c.get s)

/-- A record with the columns of another one. -/
def copy (columns : List (Column δ)) (s r : δ) : δ :=
  columns.foldl (fun r c => c.set (c.get s) r) r

section

variable {c c' : Column δ} {columns : List (Column δ)} {given : String → Option Node} {r s : δ}

theorem Commutes.get_set (commute : c.Commutes c') (lawful : c.Lawful) (b' : c'.β) (r : δ) :
    c.get (c'.set b' r) = c.get r := by
  have put := commute (c.get r) b' r
  rw [lawful.set_get] at put
  rw [put, lawful.get_set]

theorem get_copy (lawful : c.Lawful) (commute : ∀ c' ∈ columns, c.Commutes c') (s r : δ) :
    c.get (copy columns s r) = c.get r := by
  induction columns generalizing r with
  | nil => rfl
  | cons c' columns ih =>
    rw [List.forall_mem_cons] at commute
    show c.get (copy columns s (c'.set (c'.get s) r)) = c.get r
    rw [ih commute.2, commute.1.get_set lawful]

/-- Values that are laid over a record fill its columns and change nothing else. -/
theorem overlay?_iff (lawful : ∀ c ∈ columns, c.Lawful) (commute : columns.Pairwise Commutes) :
    overlay? (columns.map (·.field)) given r = some s ↔
      (∀ c ∈ columns, c.Fills given r s) ∧ copy columns s r = s := by
  induction columns generalizing r with
  | nil => simp [overlay?, copy]
  | cons c columns ih =>
    rw [List.forall_mem_cons] at lawful
    rw [List.pairwise_cons] at commute
    have later (b : c.β) {c' : Column δ} (mem : c' ∈ columns) :
        c'.get (c.set b r) = c'.get r := by
      have swapped : c'.Commutes c := fun b' b r => (commute.1 c' mem b b' r).symm
      exact swapped.get_set (lawful.2 c' mem) b r
    have fills (b : c.β) : (∀ c' ∈ columns, c'.Fills given (c.set b r) s) ↔
        ∀ c' ∈ columns, c'.Fills given r s :=
      forall₂_congr fun c' mem => by rw [Fills, Fills, later b mem]
    rw [List.map_cons, field, overlay?_cons_of_iff (lawful.1.set_get r), List.forall_mem_cons]
    constructor
    · rintro ⟨b, own, laid⟩
      obtain ⟨others, copied⟩ := (ih lawful.2 commute.2).1 laid
      obtain rfl : c.get s = b := by
        rw [← copied, get_copy lawful.1 commute.1, lawful.1.get_set]
      exact ⟨⟨own, (fills _).1 others⟩, copied⟩
    · rintro ⟨⟨own, others⟩, copied⟩
      exact ⟨c.get s, own, (ih lawful.2 commute.2).2 ⟨(fills _).2 others, copied⟩⟩

end

/-- A record whose columns have distinct names, stay apart and are all there is in it. -/
structure Complete (columns : List (Column δ)) : Prop where
  distinct : (columns.map (·.name)).Nodup
  lawful : ∀ c ∈ columns, c.Lawful
  commute : columns.Pairwise Commutes
  copy : ∀ s r, copy columns s r = s

namespace Complete

variable {columns : List (Column δ)} (complete : Complete columns)

include complete

theorem apart : Apart (columns.map (·.field)) where
  distinct := by
    rw [List.map_map]
    exact complete.distinct
  independent := by
    rw [List.pairwise_map]
    exact complete.commute.imp fun commute => Field.independent_of commute

/-- Values are laid over a record column by column. -/
theorem overlay?_iff {given : String → Option Node} {r s : δ} :
    overlay? (columns.map (·.field)) given r = some s ↔ ∀ c ∈ columns, c.Fills given r s := by
  rw [Column.overlay?_iff complete.lawful complete.commute, and_iff_left (complete.copy s r)]

/-- A record is read from the table of all its columns, whatever it is laid over. -/
theorem read_toNode (dialect : Dialect) (r s : δ) :
    Record.read dialect (columns.map (·.field)) r
      (Value.table (columns.map (·.member s))).toNode = .ok s := by
  have distinct : ((columns.map (·.member s)).map (·.1)).Nodup := by
    rw [List.map_map]
    exact complete.distinct
  have tidy : Tidy (columns.map (·.field)) (memberNodesOf (columns.map (·.member s))) :=
    tidy_memberNodesOf distinct
  rw [Value.toNode, read_table_iff complete.apart]
  refine ⟨rfl, tidy, complete.overlay?_iff.2 fun c mem => ?_⟩
  have given : lookup (memberNodesOf (columns.map (·.member s))) c.name =
      some (c.write (c.get s)).toNode := by
    have once := tidy.once c.field (List.mem_map_of_mem mem)
    refine (lookup_eq_some_iff once).2 ?_
    rw [memberNodesOf_eq_map, List.map_map]
    exact List.mem_map.2 ⟨c, mem, rfl⟩
  rw [Fills, given]
  exact (complete.lawful c mem).read_write (c.get s)

end Complete

end Column

end Prognosis.Document.Record
