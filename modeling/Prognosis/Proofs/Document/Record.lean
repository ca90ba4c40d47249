import Prognosis.Document.Decode
import Prognosis.Signal

/-!
# Decoding what is given

A decoder reads the tree of a value without faults (`Decoder.list_toNode`, `Decoder.kept_toNode`),
a record takes in the members of a table one after the other (`Record.members_of`), and grades are
known by their names (`Status.named_name` and so on).
-/

namespace Prognosis.Document

variable {β δ : Type}

/-! ## Single values -/

namespace Decoder

theorem text_toNode (s : String) : text (Value.text s).toNode = .ok s := rfl

theorem nat_toNode {n bound : Nat} (below : n < bound) :
    nat bound (Value.nat n).toNode = .ok n := by
  show orMismatch (if 0 ≤ (n : Int) ∧ (n : Int) < bound then some (n : Int).toNat else none) = _
  rw [if_pos ⟨by omega, by omega⟩]
  rfl

theorem textWith_toNode {read? : String → Option β} {s : String} {b : β} (read : read? s = some b) :
    textWith read? (Value.text s).toNode = .ok b := by
  show orMismatch (read? s) = _
  rw [read]
  rfl

theorem named_toNode [Named β] {b : β} (found : Named.ofName? (Named.name b) = some b)
    (dialect : Dialect) : named dialect (Value.text (Named.name b)).toNode = .ok b := by
  show orMismatch (Named.ofName? (Named.name b)) = _
  rw [found]
  rfl

theorem items_nodesOf {d : Decoder β} {value : β → Value} (each : ∀ b, d (value b).toNode = .ok b)
    (bs : List β) : items d (nodesOf (bs.map value)) = .ok bs := by
  induction bs with
  | nil => rfl
  | cons b bs ih =>
    rw [List.map_cons, nodesOf, items, each, ih]
    rfl

/-- A list is read item by item. -/
theorem list_toNode {d : Decoder β} {value : β → Value} (each : ∀ b, d (value b).toNode = .ok b)
    (bs : List β) : list d (Value.list (bs.map value)).toNode = .ok bs := by
  rw [Value.toNode, list, items_nodesOf each]
  rfl

/-- A value without faults can always be kept where there is room. -/
theorem kept_toNode {d : Decoder β} {dialect : Dialect} {v : Value} {b : β}
    (room : dialect.room = none) (read : d v.toNode = .ok b) : kept dialect d v.toNode = .ok b := by
  have keeps : dialect.keeps v.toNode = true := by simp [Dialect.keeps, room]
  rw [kept, if_pos keeps, read]
  rfl

end Decoder

/-! ## Records -/

namespace Record

/-- A field that is given for the first time is put into the record. -/
theorem members_of {fields : List (Field δ)} {k : String} {d : Decoder β} {set : β → δ → δ}
    {v : Value} {b : β} {seen : List String}
    (found : (fields.find? fun f => f.name = k) = some (.of k d set)) (new : k ∉ seen)
    (read : d v.toNode = .ok b) (ms : List (String × Value)) (r : δ) :
    members fields (memberNodesOf ((k, v) :: ms)) seen r =
      members fields (memberNodesOf ms) (k :: seen) (set b r) := by
  have stored : (Field.of k d set).store v.toNode r = .ok (set b r) := by
    show (d v.toNode).map (fun b => set b r) = _
    rw [read]
    rfl
  rw [memberNodesOf, members, found]
  dsimp only
  rw [if_neg new, stored]
  rfl

theorem read_toNode {fields : List (Field δ)} {start r : δ} {ms : List (String × Value)}
    (taken : members fields (memberNodesOf ms) [] start = .ok r) (dialect : Dialect) :
    read dialect fields start (Value.table ms).toNode = .ok r := by
  rw [Value.toNode, read, taken]
  rfl

end Record

/-! ## Steps of a reader -/

section

variable {ε γ : Type} {x : Except ε β} {c : γ}

theorem exists_of_bind_eq_ok {f : β → Except ε γ} (run : x >>= f = .ok c) :
    ∃ b, x = .ok b ∧ f b = .ok c := by
  cases x with
  | error fault => cases run
  | ok b => exact ⟨b, rfl, run⟩

theorem exists_of_map_eq_ok {f : β → γ} (run : x.map f = .ok c) : ∃ b, x = .ok b ∧ f b = c := by
  cases x with
  | error fault => cases run
  | ok b =>
    cases run
    exact ⟨b, rfl, rfl⟩

theorem exists_map_eq_ok_iff {f : β → γ} : (∃ c, x.map f = .ok c) ↔ ∃ b, x = .ok b := by
  constructor
  · rintro ⟨c, run⟩
    obtain ⟨b, read, -⟩ := exists_of_map_eq_ok run
    exact ⟨b, read⟩
  · rintro ⟨b, rfl⟩
    exact ⟨f b, rfl⟩

theorem exists_of_any {p : β → Bool} (run : x.toOption.any p = true) :
    ∃ b, x = .ok b ∧ p b = true := by
  cases x with
  | error fault => cases run
  | ok b => exact ⟨b, rfl, run⟩

theorem mapError_eq_ok_iff {ε' : Type} {f : ε → ε'} {b : β} :
    x.mapError f = .ok b ↔ x = .ok b := by
  constructor
  · intro mapped
    cases x <;> cases mapped
    rfl
  · rintro rfl
    rfl

end

namespace Decoder

section

variable {n : Node}

theorem float_eq_ok_iff {x : Float} :
    float n = .ok x ↔ ∃ m : Number, n = .num (some m) ∧ m.toFloat = x := by
  constructor
  · intro read
    unfold float at read
    split at read
    case h_1 m =>
      cases read
      exact ⟨m, rfl, rfl⟩
    case h_2 => cases read
  · rintro ⟨m, rfl, rfl⟩
    rfl

theorem nat_eq_ok_iff {bound b : Nat} :
    nat bound n = .ok b ↔ b < bound ∧ n = .num (some (.int b)) := by
  constructor
  · intro read
    unfold nat at read
    split at read
    case h_1 number =>
      cases number with
      | int i =>
        change orMismatch (if 0 ≤ i ∧ i < bound then some i.toNat else none) = _ at read
        split at read
        case isTrue inside =>
          cases read
          exact ⟨by omega, by rw [Int.toNat_of_nonneg inside.1]⟩
        case isFalse => cases read
      | float x => cases read
    case h_2 => cases read
  · rintro ⟨below, rfl⟩
    exact nat_toNode below

theorem text_eq_ok_iff {s : String} : text n = .ok s ↔ n = .text (some s) := by
  constructor
  · intro read
    unfold text at read
    split at read
    case h_1 =>
      cases read
      rfl
    case h_2 => cases read
  · rintro rfl
    rfl

theorem textWith_eq_ok_iff {read? : String → Option β} {b : β} :
    textWith read? n = .ok b ↔ ∃ s, n = .text (some s) ∧ read? s = some b := by
  constructor
  · intro read
    obtain ⟨s, text, read⟩ := exists_of_bind_eq_ok read
    refine ⟨s, text_eq_ok_iff.1 text, ?_⟩
    cases found : read? s with
    | none =>
      rw [found] at read
      cases read
    | some b =>
      rw [found] at read
      cases read
      rfl
  · rintro ⟨s, rfl, read⟩
    exact textWith_toNode read

end

theorem ended_iff {taken : Except Fault δ} {closed : Bool} {r : δ} :
    (do
      let r ← taken
      ended closed
      .ok r) = Except.ok r ↔ closed = true ∧ taken = .ok r := by
  cases taken <;> cases closed <;> simp [bind, Except.bind, ended]

/-- A value that is read after it is kept is read as it would be without. -/
theorem kept_eq_ok_iff {d : Decoder β} {dialect : Dialect} {n : Node} {b : β} :
    kept dialect d n = .ok b ↔ dialect.keeps n = true ∧ d n = .ok b := by
  rw [kept]
  cases keeps : dialect.keeps n with
  | false => simp
  | true => simp [mapError_eq_ok_iff]

theorem exists_of_items_eq_ok {d : Decoder β} {ns : List Node} {bs : List β}
    (read : items d ns = .ok bs) : ∀ n ∈ ns, ∃ b, d n = .ok b := by
  induction ns generalizing bs with
  | nil => exact List.forall_mem_nil _
  | cons n ns ih =>
    obtain ⟨b, head, rest⟩ := exists_of_bind_eq_ok read
    obtain ⟨cs, tail, -⟩ := exists_of_bind_eq_ok rest
    exact List.forall_mem_cons.2 ⟨⟨b, head⟩, ih tail⟩

theorem exists_of_list_eq_ok {d : Decoder β} {n : Node} {bs : List β}
    (read : list d n = .ok bs) : ∃ ns, n = .list ns true ∧ items d ns = .ok bs := by
  cases n with
  | list ns closed =>
    obtain ⟨rfl, each⟩ := ended_iff.1 read
    exact ⟨ns, rfl, each⟩
  | _ => cases read

end Decoder

/-! ## What reading keeps -/

theorem nodesOf_eq_map (vs : List Value) : nodesOf vs = vs.map Value.toNode := by
  induction vs with
  | nil => rfl
  | cons v vs ih => rw [nodesOf, ih, List.map_cons]

theorem memberNodesOf_eq_map (ms : List (String × Value)) :
    memberNodesOf ms = ms.map fun m => (some m.1, m.2.toNode) := by
  induction ms with
  | nil => rfl
  | cons m ms ih => rw [memberNodesOf, ih, List.map_cons]

/-- A property of trees that holds of all that is inside. -/
structure Hereditary (Given : Node → Prop) : Prop where
  items {ns : List Node} {closed : Bool} (given : Given (.list ns closed)) : ∀ n ∈ ns, Given n
  members {ms : List (Option String × Node)} {closed : Bool} (given : Given (.table ms closed)) :
    ∀ m ∈ ms, Given m.2

namespace Record

/-- Whatever is given for a field, it keeps a property of the record. -/
def Field.Keeps (f : Field δ) (Given : Node → Prop) (Kept : δ → Prop) : Prop :=
  ∀ n r r', Given n → Kept r → f.store n r = .ok r' → Kept r'

theorem Field.keeps_of {k : String} {d : Decoder β} {set : β → δ → δ} {Given : Node → Prop}
    {Kept : δ → Prop} (keeps : ∀ n b r, Given n → d n = .ok b → Kept r → Kept (set b r)) :
    (Field.of k d set).Keeps Given Kept := by
  intro n r r' given kept stored
  obtain ⟨b, read, rfl⟩ := exists_of_map_eq_ok stored
  exact keeps n b r given read kept

variable {fields : List (Field δ)} {Given : Node → Prop} {Kept : δ → Prop}
  (keeps : ∀ f ∈ fields, f.Keeps Given Kept)

include keeps

theorem members_keeps {ms : List (Option String × Node)} (given : ∀ m ∈ ms, Given m.2)
    {seen : List String} {r r' : δ} (kept : Kept r) (read : members fields ms seen r = .ok r') :
    Kept r' := by
  induction ms generalizing seen r with
  | nil =>
    cases read
    exact kept
  | cons m ms ih =>
    rw [List.forall_mem_cons] at given
    obtain ⟨k, n⟩ := m
    cases k with
    | none => cases read
    | some k =>
      rw [members] at read
      split at read
      · split at read
        · exact ih given.2 kept read
        · cases read
      · next f found =>
        split at read
        · cases read
        · obtain ⟨r₁, stored, rest⟩ := exists_of_bind_eq_ok read
          have next := keeps f (List.mem_of_find?_eq_some found) n r r₁ given.1 kept stored
          exact ih given.2 next rest

theorem items_keeps {surplus : Bool} {ns : List Node} (given : ∀ n ∈ ns, Given n) {r r' : δ}
    (kept : Kept r) (read : items surplus fields ns r = .ok r') : Kept r' := by
  induction fields generalizing ns r with
  | nil =>
    cases ns with
    | nil =>
      cases read
      exact kept
    | cons n ns =>
      rw [items] at read
      split at read
      · cases read
        exact kept
      · cases read
  | cons f fields ih =>
    rw [List.forall_mem_cons] at keeps
    cases ns with
    | nil =>
      cases read
      exact kept
    | cons n ns =>
      rw [List.forall_mem_cons] at given
      obtain ⟨r₁, stored, rest⟩ := exists_of_bind_eq_ok read
      exact ih keeps.2 given.2 (keeps.1 n r r₁ given.1 kept stored) rest

/-- A record keeps what all its fields keep. -/
theorem read_keeps (hereditary : Hereditary Given) {dialect : Dialect} {start r : δ} {n : Node}
    (given : Given n) (kept : Kept start) (read : Record.read dialect fields start n = .ok r) :
    Kept r := by
  cases n with
  | table ms closed =>
    exact members_keeps keeps (hereditary.members given) kept (Decoder.ended_iff.1 read).2
  | list ns closed =>
    exact items_keeps keeps (hereditary.items given) kept (Decoder.ended_iff.1 read).2
  | _ => cases read

end Record

end Prognosis.Document

/-! ## Grades by name -/

namespace Prognosis

open Document Decoder

theorem Signal.named_name (s : Signal) (dialect : Dialect) :
    named dialect (Value.text s.name).toNode = .ok s :=
  named_toNode (by cases s <;> rfl) dialect

theorem Severity.named_name (s : Severity) (dialect : Dialect) :
    named dialect (Value.text s.name).toNode = .ok s :=
  named_toNode (by cases s <;> rfl) dialect

theorem Status.named_name (s : Status) (dialect : Dialect) :
    named dialect (Value.text s.name).toNode = .ok s :=
  named_toNode (by cases s <;> rfl) dialect

theorem Direction.named_name (d : Direction) (dialect : Dialect) :
    named dialect (Value.text d.name).toNode = .ok d :=
  named_toNode (by cases d <;> rfl) dialect

end Prognosis
