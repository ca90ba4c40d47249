import Prognosis.Engine
import Prognosis.History

/-!
# Tracked nodes and their histories

A registry keeps a history for each tracked node, in strictly increasing order of their names.
`ingest` takes in a batch: known nodes always accept it, an empty batch for an unknown node is
accepted without tracking it, and new nodes are tracked while there is room.
-/

namespace Prognosis

/-- Tracked nodes by name. -/
structure Registry where
  nodes : List (String × History Sample)
  increasing : nodes.Pairwise (fun a b => a.1 < b.1)

namespace Registry

def empty : Registry := ⟨[], .nil⟩

def find? (r : Registry) (name : String) : Option (History Sample) :=
  (r.nodes.find? fun n => n.1 = name).map (·.2)

def size (r : Registry) : Nat := r.nodes.length

/-- Puts a history in its place, over that of the same name. -/
def putIn (name : String) (h : History Sample) :
    List (String × History Sample) → List (String × History Sample)
  | [] => [(name, h)]
  | n :: ns =>
    if n.1 < name then n :: putIn name h ns
    else if n.1 = name then (name, h) :: ns
    else (name, h) :: n :: ns

theorem mem_putIn {name : String} {h : History Sample} {ns : List (String × History Sample)}
    {m : String × History Sample} (hm : m ∈ putIn name h ns) : m = (name, h) ∨ m ∈ ns := by
  induction ns with
  | nil => simpa [putIn] using hm
  | cons n ns ih =>
    rw [putIn] at hm
    split at hm
    · rcases List.mem_cons.1 hm with rfl | hm
      · simp
      · rcases ih hm with rfl | hm <;> simp_all
    · split at hm <;> simp_all
      rcases hm with rfl | hm <;> simp_all

theorem lt_of_not {a b : String} (h : ¬ a < b) (ne : a ≠ b) : b < a := by
  have := String.le_antisymm (a := a) (b := b)
  rcases String.le_total (a := a) (b := b) with le | le
  · exact absurd (this le (String.not_lt.1 h)) ne
  · exact String.not_le.1 fun le' => ne (this le' le)

theorem increasing_putIn {name : String} {h : History Sample}
    {ns : List (String × History Sample)} (sorted : ns.Pairwise (fun a b => a.1 < b.1)) :
    (putIn name h ns).Pairwise (fun a b => a.1 < b.1) := by
  induction ns with
  | nil => simp [putIn]
  | cons n ns ih =>
    have ⟨first, rest⟩ := List.pairwise_cons.1 sorted
    rw [putIn]
    split
    · next lt =>
      refine List.pairwise_cons.2 ⟨fun m hm => ?_, ih rest⟩
      rcases mem_putIn hm with rfl | hm
      · exact lt
      · exact first m hm
    · next not_lt =>
      split
      · next eq =>
        subst eq
        exact List.pairwise_cons.2 ⟨first, rest⟩
      · next ne =>
        have lt := lt_of_not not_lt ne
        refine List.pairwise_cons.2 ⟨fun m hm => ?_, sorted⟩
        rcases List.mem_cons.1 hm with rfl | hm
        · exact lt
        · exact String.lt_trans lt (first m hm)

/-- Puts a history in the place of its node. -/
def put (r : Registry) (name : String) (h : History Sample) : Registry :=
  ⟨putIn name h r.nodes, increasing_putIn r.increasing⟩

/-- What a registry allows. -/
structure Limits where
  /-- The samples retained for each node. -/
  historyCapacity : Nat
  /-- The nodes tracked before new ones are refused. -/
  maxNodes : Nat

/-- Takes in a batch for a node: the registry after it and the number of samples then retained, or
none where a new node finds no room. -/
def ingest? (limits : Limits) (r : Registry) (name : String) (batch : List Sample) :
    Option (Registry × Nat) :=
  match r.find? name with
  | some h =>
    let h := h.extend batch
    some (r.put name h, h.size)
  | none =>
    if batch = [] then some (r, 0)
    else if limits.maxNodes ≤ r.size then none
    else
      let h := (History.withCapacity limits.historyCapacity).extend batch
      some (r.put name h, h.size)

end Registry

end Prognosis
