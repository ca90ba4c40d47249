import Prognosis.Proofs.ByteOrder
import Prognosis.Proofs.Stream
import Prognosis.Service.Registry

/-!
# What a registry holds

A registry is seen through `find?` and through `contents`, the list of what it holds.  Putting a
history in its place changes one answer of `find?` (`find?_put`) and adds a name exactly when it is
new (`names_put_of_found`, `names_put_of_new`); putting back a settled history changes nothing that
can be seen (`contents_put_settle`).  `ingest?_cases` says once how a batch can fare.
-/

namespace Prognosis.Registry

variable {name : String} {h : History Sample} {ns : List (String × History Sample)}

/-! ## Places in a list of nodes -/

theorem find?_putIn (name other : String) (h : History Sample)
    (ns : List (String × History Sample)) :
    (putIn name h ns).find? (fun n => n.1 = other) =
      if name = other then some (name, h) else ns.find? fun n => n.1 = other := by
  induction ns with
  | nil =>
    rw [putIn, List.find?_singleton]
    by_cases same : name = other <;> simp [same]
  | cons n ns ih =>
    rw [putIn]
    split
    · next lt =>
      have ne : n.1 ≠ name := fun eq => String.lt_irrefl _ (eq ▸ lt)
      rw [List.find?_cons, List.find?_cons, ih]
      by_cases same : name = other
      · subst same
        simp [ne]
      · rw [if_neg same]
        simp [same]
    · split
      · next eq =>
        rw [List.find?_cons, List.find?_cons, eq]
        by_cases same : name = other <;> simp [same]
      · rw [List.find?_cons]
        by_cases same : name = other <;> simp [same]

/-- A new name comes between the nodes. -/
theorem exists_putIn_of_not_mem (h : History Sample) (new : ∀ n ∈ ns, n.1 ≠ name) :
    ∃ before after, ns = before ++ after ∧ putIn name h ns = before ++ (name, h) :: after := by
  induction ns with
  | nil => exact ⟨[], [], rfl, rfl⟩
  | cons n ns ih =>
    rw [putIn]
    split
    · obtain ⟨before, after, eq, eq'⟩ := ih fun m hm => new m (List.mem_cons_of_mem _ hm)
      exact ⟨n :: before, after, by rw [eq, List.cons_append], by rw [eq', List.cons_append]⟩
    · rw [if_neg (new n List.mem_cons_self)]
      exact ⟨[], n :: ns, rfl, rfl⟩

theorem exists_putIn_of_mem {old : History Sample} (h : History Sample)
    (sorted : ns.Pairwise (fun a b => a.1 < b.1)) (mem : (name, old) ∈ ns) :
    ∃ before after, ns = before ++ (name, old) :: after ∧
      putIn name h ns = before ++ (name, h) :: after := by
  induction ns with
  | nil => exact absurd mem List.not_mem_nil
  | cons n ns ih =>
    obtain ⟨first, rest⟩ := List.pairwise_cons.1 sorted
    rw [putIn]
    rcases List.mem_cons.1 mem with rfl | mem
    · rw [if_neg (String.lt_irrefl _), if_pos rfl]
      exact ⟨[], ns, rfl, rfl⟩
    · rw [if_pos (first _ mem)]
      obtain ⟨before, after, eq, eq'⟩ := ih rest mem
      exact ⟨n :: before, after, by rw [eq, List.cons_append], by rw [eq', List.cons_append]⟩

/-! ## Looking up -/

theorem find?_eq_some_iff {r : Registry} : r.find? name = some h ↔ (name, h) ∈ r.nodes := by
  rw [find?, Option.map_eq_some_iff]
  constructor
  · rintro ⟨⟨m, g⟩, found, rfl⟩
    have eq : m = name := by simpa using List.find?_some found
    exact eq ▸ List.mem_of_find?_eq_some found
  · intro mem
    refine ⟨(name, h), ?_, rfl⟩
    obtain ⟨before, after, eq⟩ := List.append_of_mem mem
    have sorted := r.increasing
    rw [eq, List.pairwise_append] at sorted
    rw [List.find?_eq_some_iff_append]
    refine ⟨by simp, before, after, eq, fun n hn => ?_⟩
    have lt := sorted.2.2 n hn (name, h) List.mem_cons_self
    have ne : n.1 ≠ name := fun same => String.lt_irrefl _ (same ▸ lt)
    simpa using ne

theorem find?_eq_none_iff {r : Registry} :
    r.find? name = none ↔ ∀ n ∈ r.nodes, n.1 ≠ name := by
  rw [find?, Option.map_eq_none_iff, List.find?_eq_none]
  simp

theorem find?_put (r : Registry) (name other : String) (h : History Sample) :
    (r.put name h).find? other = if name = other then some h else r.find? other := by
  rw [find?, put, find?_putIn]
  split
  · rfl
  · rfl

/-! ## Names and contents -/

@[simp] theorem nodes_put (r : Registry) (name : String) (h : History Sample) :
    (r.put name h).nodes = putIn name h r.nodes := rfl

def names (r : Registry) : List String := r.nodes.map (·.1)

theorem mem_names {r : Registry} : name ∈ r.names ↔ (r.find? name).isSome := by
  rw [names, List.mem_map, Option.isSome_iff_exists]
  constructor
  · rintro ⟨⟨m, g⟩, mem, rfl⟩
    exact ⟨g, find?_eq_some_iff.2 mem⟩
  · rintro ⟨g, found⟩
    exact ⟨(name, g), find?_eq_some_iff.1 found, rfl⟩

theorem length_names (r : Registry) : r.names.length = r.size := List.length_map _

theorem names_bytes_increasing (r : Registry) :
    r.names.Pairwise (fun a b => bytes a < bytes b) := by
  rw [names, List.pairwise_map]
  exact r.increasing.imp bytes_lt_bytes

/-- All that can be seen of a registry: the tracked names in their order, each with the capacity of
its history and the samples in it, oldest first. -/
def contents (r : Registry) : List (String × Nat × List Sample) :=
  r.nodes.map fun (name, h) => (name, h.capacity, h.toList)

/-- Reading a history in one piece changes nothing that can be seen. -/
theorem contents_put_settle {r : Registry} (found : r.find? name = some h) :
    (r.put name h.settle).contents = r.contents := by
  obtain ⟨before, after, eq, eq'⟩ :=
    exists_putIn_of_mem h.settle r.increasing (find?_eq_some_iff.1 found)
  rw [contents, contents, nodes_put, eq', eq]
  simp

theorem names_eq_of_contents {r s : Registry} (same : s.contents = r.contents) :
    s.names = r.names := by
  have project (t : Registry) : t.contents.map (·.1) = t.names := by
    rw [contents, names, List.map_map]
    rfl
  rw [← project, same, project]

theorem names_put_of_found {r : Registry} (h : History Sample)
    (found : (r.find? name).isSome) : (r.put name h).names = r.names := by
  obtain ⟨old, found⟩ := Option.isSome_iff_exists.1 found
  obtain ⟨before, after, eq, eq'⟩ :=
    exists_putIn_of_mem h r.increasing (find?_eq_some_iff.1 found)
  rw [names, nodes_put, eq', names, eq, List.map_append, List.map_append, List.map_cons,
    List.map_cons]

theorem names_put_of_new {r : Registry} (h : History Sample) (new : r.find? name = none) :
    (r.put name h).names.Perm (r.names ++ [name]) := by
  obtain ⟨before, after, eq, eq'⟩ := exists_putIn_of_not_mem h (find?_eq_none_iff.1 new)
  rw [names, nodes_put, eq', names, eq, List.map_append, List.map_append, List.map_cons]
  exact List.perm_middle.trans (List.perm_append_singleton _ _).symm

/-! ## Batches -/

/-- The samples that a history retains; zero acts as one. -/
def Limits.retained (limits : Limits) : Nat := max limits.historyCapacity 1

/-- The history of a node after its first batch. -/
def Limits.firstHistory (limits : Limits) (batch : List Sample) : History Sample :=
  (History.withCapacity limits.historyCapacity).extend batch

@[simp] theorem Limits.capacity_firstHistory (limits : Limits) (batch : List Sample) :
    (limits.firstHistory batch).capacity = limits.retained := by
  rw [firstHistory, History.capacity_extend, History.capacity_withCapacity, retained]

@[simp] theorem Limits.toList_firstHistory (limits : Limits) (batch : List Sample) :
    (limits.firstHistory batch).toList = lastOf limits.retained batch := by
  rw [firstHistory, History.toList_extend, History.capacity_withCapacity,
    History.toList_withCapacity, List.nil_append, retained]

/-- How a batch fares: a known node takes it in, an empty batch of an unknown one changes nothing,
and any other is refused or tracked, as there is room. -/
theorem ingest?_cases (limits : Limits) (r : Registry) (name : String) (batch : List Sample) :
    (∃ h, r.find? name = some h ∧
      r.ingest? limits name batch =
        some (r.put name (h.extend batch), (h.extend batch).size)) ∨
    (r.find? name = none ∧ batch = [] ∧ r.ingest? limits name batch = some (r, 0)) ∨
    (r.find? name = none ∧ batch ≠ [] ∧ limits.maxNodes ≤ r.size ∧
      r.ingest? limits name batch = none) ∨
    (r.find? name = none ∧ batch ≠ [] ∧ r.size < limits.maxNodes ∧
      r.ingest? limits name batch =
        some (r.put name (limits.firstHistory batch), (limits.firstHistory batch).size)) := by
  unfold ingest?
  cases found : r.find? name with
  | some h => exact .inl ⟨h, rfl, rfl⟩
  | none =>
    refine .inr ?_
    by_cases nothing : batch = []
    · exact .inl ⟨rfl, nothing, by simp only [if_pos nothing]⟩
    · refine .inr ?_
      by_cases no_room : limits.maxNodes ≤ r.size
      · exact .inl ⟨rfl, nothing, no_room, by simp only [if_neg nothing, if_pos no_room]⟩
      · refine .inr ⟨rfl, nothing, by omega, ?_⟩
        simp only [if_neg nothing, if_neg no_room]
        rfl

end Prognosis.Registry
