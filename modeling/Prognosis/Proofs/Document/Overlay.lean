import Mathlib.Data.List.Count
import Mathlib.Data.List.Nodup
import Prognosis.Proofs.Document.Record

/-!
# Records as overlays

A record takes in the members of a table in the order of the text.  Where its fields do not get in
each other's way (`Record.Apart`), the result does not depend on that order: a value can be put into
its field before all other fields or in the place of the field (`Record.bind_overlay?`).  So reading
a table lays the values over the record by name (`Record.read_table_iff`), and reading a list lays
them over it by place (`Record.read_list_iff`).
-/

namespace Prognosis.Document

variable {β δ : Type}

/-! ## Trees of values -/

mutual

theorem Value.passable_toNode : (v : Value) → v.toNode.passable = true
  | .null => rfl
  | .bool _ => rfl
  | .num _ => rfl
  | .text _ => rfl
  | .list items => by rw [Value.toNode, Node.passable, allPassable_nodesOf items, Bool.and_true]
  | .table members => by
    rw [Value.toNode, Node.passable, allMembersPassable_memberNodesOf members, Bool.and_true]

theorem allPassable_nodesOf : (vs : List Value) → allPassable (nodesOf vs) = true
  | [] => rfl
  | v :: vs => by
    rw [nodesOf, allPassable, v.passable_toNode, allPassable_nodesOf vs, Bool.and_true]

theorem allMembersPassable_memberNodesOf :
    (ms : List (String × Value)) → allMembersPassable (memberNodesOf ms) = true
  | [] => rfl
  | (k, v) :: ms => by
    rw [memberNodesOf, allMembersPassable, v.passable_toNode, allMembersPassable_memberNodesOf ms,
      Bool.and_true]

end

namespace Record

/-! ## What is given -/

/-- What the members of a table give for a name: the first of them that has it. -/
def lookup (ms : List (Option String × Node)) (name : String) : Option Node :=
  (ms.find? fun m => m.1 = some name).map (·.2)

section

variable {ms : List (Option String × Node)} {k name : String} {n : Node}

theorem lookup_cons_self : lookup ((some k, n) :: ms) k = some n := by
  simp [lookup]

theorem lookup_cons_of_ne (ne : k ≠ name) : lookup ((some k, n) :: ms) name = lookup ms name := by
  simp [lookup, ne]

theorem lookup_eq_none_iff : lookup ms name = none ↔ (ms.map (·.1)).count (some name) = 0 := by
  simp only [lookup, Option.map_eq_none_iff, List.find?_eq_none, decide_eq_true_eq,
    List.count_eq_zero, List.mem_map]
  constructor
  · rintro absent ⟨m, mem, same⟩
    exact absent m mem same
  · intro absent m mem same
    exact absent ⟨m, mem, same⟩

theorem mem_of_lookup (given : lookup ms name = some n) : (some name, n) ∈ ms := by
  obtain ⟨⟨k, n'⟩, found, rfl⟩ := Option.map_eq_some_iff.1 given
  obtain rfl : k = some name := by simpa using List.find?_some found
  exact List.mem_of_find?_eq_some found

theorem lookup_eq_some_iff (once : (ms.map (·.1)).count (some name) ≤ 1) :
    lookup ms name = some n ↔ (some name, n) ∈ ms := by
  induction ms with
  | nil => simp [lookup]
  | cons m ms ih =>
    obtain ⟨k, v⟩ := m
    rw [List.map_cons, List.count_cons] at once
    rw [List.mem_cons]
    by_cases same : k = some name
    · subst same
      rw [beq_self_eq_true, if_pos rfl] at once
      have none_more : (some name, n) ∉ ms := by
        intro mem
        have present : some name ∈ ms.map (·.1) := List.mem_map.2 ⟨_, mem, rfl⟩
        have := List.count_pos_iff.2 present
        omega
      rw [lookup_cons_self]
      simp [none_more, eq_comm]
    · have rest : lookup ((k, v) :: ms) name = lookup ms name := by simp [lookup, same]
      have ne : (some name, n) ≠ (k, v) := fun eq => same (congrArg (·.1) eq).symm
      rw [rest, ih (by omega), or_iff_right ne]

end

/-- Members that all have a name. -/
def named (given : List (String × Node)) : List (Option String × Node) :=
  given.map fun m => (some m.1, m.2)

section

variable {given given' : List (String × Node)} {name : String} {n : Node}

theorem mem_named : (some name, n) ∈ named given ↔ (name, n) ∈ given := by
  simp [named]

theorem count_named :
    ((named given).map (·.1)).count (some name) = (given.map (·.1)).count name := by
  have keys : (named given).map (·.1) = (given.map (·.1)).map some := by simp [named]
  rw [keys, List.count_map_of_injective _ some fun _ _ => Option.some.inj]

section

variable {ms : List (Option String × Node)} (others : ∀ m ∈ given', m.1 ≠ name)
  (perm : ms.Perm (named (given ++ given')))

include others perm

theorem count_of_perm : (ms.map (·.1)).count (some name) = (given.map (·.1)).count name := by
  have none_more : (given'.map (·.1)).count name = 0 := by
    rw [List.count_eq_zero, List.mem_map]
    rintro ⟨m, mem, same⟩
    exact others m mem same
  rw [(perm.map _).count_eq, count_named, List.map_append, List.count_append, none_more]
  exact Nat.add_zero _

/-- What is given for a name depends on its members alone, whatever their order is. -/
theorem lookup_of_perm (once : (given.map (·.1)).count name ≤ 1) :
    lookup ms name = lookup (named given) name := by
  ext n
  rw [lookup_eq_some_iff (by rw [count_of_perm others perm]; exact once),
    lookup_eq_some_iff (by rw [count_named]; exact once), perm.mem_iff, mem_named, mem_named,
    List.mem_append]
  exact or_iff_left fun mem => others _ mem rfl

end

theorem prefix_map_fst_zip (names : List String) (ns : List Node) :
    (names.zip ns).map (·.1) <+: names := by
  induction names generalizing ns with
  | nil => exact List.prefix_rfl
  | cons name names ih =>
    cases ns with
    | nil => exact List.nil_prefix
    | cons n ns =>
      rw [List.zip_cons_cons, List.map_cons, List.cons_prefix_cons]
      exact ⟨rfl, ih ns⟩

theorem zip_map_snd {names : List String} (first : given.map (·.1) <+: names) :
    names.zip (given.map (·.2)) = given := by
  induction given generalizing names with
  | nil => exact List.zip_nil_right
  | cons m given ih =>
    cases names with
    | nil => simp at first
    | cons name names =>
      rw [List.map_cons, List.cons_prefix_cons] at first
      obtain ⟨rfl, first⟩ := first
      rw [List.map_cons, List.zip_cons_cons, ih first]

end

/-! ## Laying values over a record -/

namespace Field

/-- The record with a value put into a field, if the field takes it. -/
def put? (f : Field δ) (n : Node) (r : δ) : Option δ := (f.store n r).toOption

/-- A field with what is given for it, if anything is. -/
def lay? (f : Field δ) (given : Option Node) (r : δ) : Option δ :=
  given.elim (some r) fun n => f.put? n r

/-- Fields that do not get in each other's way. -/
def Independent (f g : Field δ) : Prop :=
  ∀ m n r, (f.put? m r).bind (g.put? n) = (g.put? n r).bind (f.put? m)

/-- A field takes a value, whatever the record is. -/
def Takes (f : Field δ) (n : Node) : Prop := ∀ r, (f.put? n r).isSome = true

/-- Whether a field takes a value does not depend on the record. -/
def Uniform (f : Field δ) : Prop := ∀ n r, (f.put? n r).isSome = true → f.Takes n

variable {f g : Field δ} {n : Node} {r s : δ}

theorem store_eq_ok_iff : f.store n r = .ok s ↔ f.put? n r = some s := by
  rw [put?]
  cases f.store n r <;> simp [Except.toOption]

theorem Independent.symm (apart : f.Independent g) : g.Independent f :=
  fun m n r => (apart n m r).symm

theorem Independent.bind_lay? (apart : f.Independent g) (n : Node) (given : Option Node) (r : δ) :
    (f.put? n r).bind (g.lay? given) = (g.lay? given r).bind (f.put? n) := by
  cases given with
  | none =>
    show (f.put? n r).bind some = f.put? n r
    exact Option.bind_fun_some _
  | some m => exact apart n m r

section

variable {k k' : String} {γ : Type} {d : Decoder β} {d' : Decoder γ} {set : β → δ → δ}
  {set' : γ → δ → δ}

theorem put?_of : (Field.of k d set).put? n = fun r => (d n).toOption.map fun b => set b r := by
  funext r
  show ((d n).map fun b => set b r).toOption = _
  cases d n <;> rfl

theorem independent_of (commute : ∀ b c r, set' c (set b r) = set b (set' c r)) :
    (Field.of k d set).Independent (Field.of k' d' set') := by
  intro m n r
  rw [put?_of, put?_of]
  cases (d m).toOption <;> cases (d' n).toOption <;> simp [commute]

theorem of_comp (f : β → γ) (set : γ → δ → δ) :
    Field.of k d (fun b => set (f b)) = Field.of k (fun n => (d n).map f) set := by
  unfold Field.of
  congr 1
  funext n r
  dsimp only
  cases d n <;> rfl

theorem uniform_of : (Field.of k d set).Uniform := by
  intro n r put r'
  rw [put?_of] at put ⊢
  rwa [Option.isSome_map] at put ⊢

theorem takes_of_iff [Inhabited δ] : (Field.of k d set).Takes n ↔ ∃ b, d n = .ok b := by
  have put (r : δ) : ((Field.of k d set).put? n r).isSome = true ↔ ∃ b, d n = .ok b := by
    rw [put?_of, Option.isSome_map]
    cases d n <;> simp [Except.toOption]
  exact ⟨fun takes => (put default).1 (takes default), fun read r => (put r).2 read⟩

end

end Field

/-- Lays values over a record, field by field in the order of the fields. -/
def overlay? : List (Field δ) → (String → Option Node) → δ → Option δ
  | [], _, r => some r
  | f :: fields, given, r => (f.lay? (given f.name) r).bind (overlay? fields given)

section

variable {fields : List (Field δ)} {given given' : String → Option Node} {r s : δ}

theorem overlay?_congr (same : ∀ f ∈ fields, given f.name = given' f.name) :
    overlay? fields given = overlay? fields given' := by
  induction fields with
  | nil => rfl
  | cons f fields ih =>
    rw [List.forall_mem_cons] at same
    funext r
    rw [overlay?, overlay?, same.1, ih same.2]

/-- Fields of different names that do not get in each other's way. -/
structure Apart (fields : List (Field δ)) : Prop where
  distinct : (fields.map (·.name)).Nodup
  independent : fields.Pairwise Field.Independent

/-- A value can be put into its field in front of all others. -/
theorem bind_overlay? (apart : Apart fields) {f : Field δ} (mem : f ∈ fields) {n : Node}
    (absent : given f.name = none) (present : given' f.name = some n)
    (others : ∀ name, f.name ≠ name → given' name = given name) (r : δ) :
    (f.put? n r).bind (overlay? fields given) = overlay? fields given' r := by
  obtain ⟨distinct, independent⟩ := apart
  induction fields generalizing r with
  | nil => cases mem
  | cons g fields ih =>
    rw [List.map_cons, List.nodup_cons] at distinct
    rw [List.pairwise_cons] at independent
    have name_of {h : Field δ} (mem : h ∈ fields) : h.name ∈ fields.map (·.name) :=
      List.mem_map_of_mem mem
    rcases List.mem_cons.1 mem with rfl | mem
    · have rest : overlay? fields given = overlay? fields given' :=
        overlay?_congr fun h mem => (others h.name fun same => distinct.1 (same ▸ name_of mem)).symm
      have nothing (r : δ) : overlay? (f :: fields) given r = overlay? fields given r := by
        rw [overlay?, absent]
        rfl
      rw [funext nothing, rest, overlay?, present]
      rfl
    · have ne : f.name ≠ g.name := fun same => distinct.1 (same ▸ name_of mem)
      have before := (independent.1 f mem).symm.bind_lay? n (given g.name) r
      calc (f.put? n r).bind (overlay? (g :: fields) given)
          = ((f.put? n r).bind (g.lay? (given g.name))).bind (overlay? fields given) := by
            rw [Option.bind_assoc]
            rfl
        _ = (g.lay? (given g.name) r).bind fun r => (f.put? n r).bind (overlay? fields given) := by
            rw [before, Option.bind_assoc]
        _ = (g.lay? (given' g.name) r).bind (overlay? fields given') := by
            rw [others g.name ne]
            exact congrArg _ (funext fun r => ih mem r distinct.2 independent.2)
        _ = overlay? (g :: fields) given' r := rfl

end

/-! ## Reading tables -/

/-- Members that can be taken in: all have a name, none of a field is repeated, and what stands
under other names can be passed over. -/
structure Tidy (fields : List (Field δ)) (ms : List (Option String × Node)) : Prop where
  named : ∀ m ∈ ms, m.1 ≠ none
  once : ∀ f ∈ fields, (ms.map (·.1)).count (some f.name) ≤ 1
  passable : ∀ k n, (some k, n) ∈ ms → (∀ f ∈ fields, f.name ≠ k) → n.passable = true

section

variable {fields : List (Field δ)} {ms : List (Option String × Node)} {n : Node}

theorem tidy_nil : Tidy fields [] where
  named := List.forall_mem_nil _
  once := fun _ _ => Nat.zero_le _
  passable := fun _ _ mem => absurd mem List.not_mem_nil

theorem tidy_cons_of_unknown {k : String} (unknown : ∀ f ∈ fields, f.name ≠ k) :
    Tidy fields ((some k, n) :: ms) ↔ n.passable = true ∧ Tidy fields ms := by
  have count (f : Field δ) (mem : f ∈ fields) :
      (((some k, n) :: ms).map (·.1)).count (some f.name) =
        (ms.map (·.1)).count (some f.name) := by
    have ne : k ≠ f.name := (unknown f mem).symm
    simp [ne]
  constructor
  · rintro ⟨named, once, passable⟩
    refine ⟨passable k n List.mem_cons_self unknown, (List.forall_mem_cons.1 named).2, ?_, ?_⟩
    · exact fun f mem => count f mem ▸ once f mem
    · exact fun k' n' mem => passable k' n' (List.mem_cons_of_mem _ mem)
  · rintro ⟨passable, rest⟩
    refine ⟨List.forall_mem_cons.2 ⟨Option.some_ne_none k, rest.named⟩, ?_, ?_⟩
    · exact fun f mem => (count f mem).symm ▸ rest.once f mem
    · intro k' n' mem
      rcases List.mem_cons.1 mem with same | mem
      · cases same
        exact fun _ => passable
      · exact rest.passable k' n' mem

theorem tidy_cons_of_known {f : Field δ} (known : f ∈ fields) :
    Tidy fields ((some f.name, n) :: ms) ↔ lookup ms f.name = none ∧ Tidy fields ms := by
  have once_more (g : Field δ) : (((some f.name, n) :: ms).map (·.1)).count (some g.name) =
      (ms.map (·.1)).count (some g.name) + if f.name = g.name then 1 else 0 := by
    simp [List.count_cons]
  rw [lookup_eq_none_iff]
  constructor
  · rintro ⟨named, once, passable⟩
    have own := once f known
    rw [once_more, if_pos rfl] at own
    refine ⟨by omega, (List.forall_mem_cons.1 named).2, fun g mem => ?_, ?_⟩
    · have other := once g mem
      rw [once_more] at other
      omega
    · exact fun k' n' mem => passable k' n' (List.mem_cons_of_mem _ mem)
  · rintro ⟨absent, rest⟩
    refine ⟨List.forall_mem_cons.2 ⟨Option.some_ne_none _, rest.named⟩, fun g mem => ?_, ?_⟩
    · have other := rest.once g mem
      rw [once_more]
      split_ifs with same
      · rw [← same]
        omega
      · exact other
    · intro k' n' mem unknown
      rcases List.mem_cons.1 mem with same | mem
      · cases same
        exact absurd rfl (unknown f known)
      · exact rest.passable k' n' mem unknown

/-- Members are tidy where each field is given once at most and all others can be passed over,
whatever their order is. -/
theorem tidy_of_perm {given others : List (String × Node)}
    (distinct : (given.map (·.1)).Nodup) (known : ∀ m ∈ given, m.1 ∈ fields.map (·.name))
    (unknown : ∀ m ∈ others, m.1 ∉ fields.map (·.name))
    (passable : ∀ m ∈ others, m.2.passable = true)
    (perm : ms.Perm (Record.named (given ++ others))) : Tidy fields ms where
  named := by
    intro m mem
    obtain ⟨_, -, rfl⟩ := List.mem_map.1 (perm.subset mem)
    exact Option.some_ne_none _
  once := by
    intro f mem
    have others_differ : ∀ m ∈ others, m.1 ≠ f.name :=
      fun m m_mem same => unknown m m_mem (same ▸ List.mem_map_of_mem mem)
    rw [count_of_perm others_differ perm]
    exact List.nodup_iff_count_le_one.1 distinct f.name
  passable := by
    intro k n mem no_field
    rw [perm.mem_iff, mem_named, List.mem_append] at mem
    rcases mem with mem | mem
    · obtain ⟨f, f_mem, name⟩ := List.mem_map.1 (known _ mem)
      exact absurd name (no_field f f_mem)
    · exact passable _ mem

theorem tidy_memberNodesOf {ms : List (String × Value)} (distinct : (ms.map (·.1)).Nodup) :
    Tidy fields (memberNodesOf ms) := by
  rw [memberNodesOf_eq_map]
  constructor
  case named =>
    rw [List.forall_mem_map]
    exact fun m _ => Option.some_ne_none m.1
  case once =>
    intro f _
    have keys : (ms.map fun m => (some m.1, m.2.toNode)).map (·.1) = (ms.map (·.1)).map some := by
      simp
    rw [keys, List.count_map_of_injective _ some fun _ _ => Option.some.inj]
    exact List.nodup_iff_count_le_one.1 distinct f.name
  case passable =>
    intro k n mem _
    obtain ⟨m, -, same⟩ := List.mem_map.1 mem
    cases same
    exact m.2.passable_toNode

theorem overlay?_of_nothing {given : String → Option Node}
    (nothing : ∀ f ∈ fields, given f.name = none) (r : δ) : overlay? fields given r = some r := by
  induction fields with
  | nil => rfl
  | cons f fields ih =>
    rw [List.forall_mem_cons] at nothing
    rw [overlay?, nothing.1]
    exact ih nothing.2

/-- Members that can be laid over a record, with the result.  No field that was seen before is given
again. -/
structure Lays (fields : List (Field δ)) (seen : List String) (ms : List (Option String × Node))
    (r s : δ) : Prop where
  tidy : Tidy fields ms
  fresh : ∀ f ∈ fields, f.name ∈ seen → lookup ms f.name = none
  laid : overlay? fields (lookup ms) r = some s

section

variable {seen : List String} {r s : δ}

theorem lays_nil_iff : Lays fields seen [] r s ↔ r = s := by
  have nothing : overlay? fields (lookup []) r = some r := overlay?_of_nothing (fun _ _ => rfl) r
  constructor
  · intro lays
    exact Option.some.inj (nothing.symm.trans lays.laid)
  · rintro rfl
    exact ⟨tidy_nil, fun _ _ _ => rfl, nothing⟩

theorem lays_cons_of_unknown_iff {k : String} (unknown : ∀ f ∈ fields, f.name ≠ k) :
    Lays fields seen ((some k, n) :: ms) r s ↔ n.passable = true ∧ Lays fields seen ms r s := by
  have same : ∀ f ∈ fields, lookup ((some k, n) :: ms) f.name = lookup ms f.name :=
    fun f mem => lookup_cons_of_ne (unknown f mem).symm
  constructor
  · rintro ⟨tidy, fresh, laid⟩
    rw [tidy_cons_of_unknown unknown] at tidy
    rw [overlay?_congr same] at laid
    exact ⟨tidy.1, tidy.2, fun f mem before => (same f mem).symm.trans (fresh f mem before), laid⟩
  · rintro ⟨passable, tidy, fresh, laid⟩
    refine ⟨(tidy_cons_of_unknown unknown).2 ⟨passable, tidy⟩, fun f mem before => ?_, ?_⟩
    · rw [same f mem, fresh f mem before]
    · rw [overlay?_congr same, laid]

/-- A value is put into its field, and the other members are laid over the result. -/
theorem lays_cons_of_known_iff (apart : Apart fields) {f : Field δ} (mem : f ∈ fields) :
    Lays fields seen ((some f.name, n) :: ms) r s ↔
      f.name ∉ seen ∧ ∃ r', f.put? n r = some r' ∧ Lays fields (f.name :: seen) ms r' s := by
  have front (absent : lookup ms f.name = none) :
      overlay? fields (lookup ((some f.name, n) :: ms)) r =
        (f.put? n r).bind (overlay? fields (lookup ms)) :=
    (bind_overlay? apart mem absent lookup_cons_self (fun _ => lookup_cons_of_ne) r).symm
  have others {g : Field δ} (new : f.name ∉ seen) (before : g.name ∈ seen) :
      lookup ((some f.name, n) :: ms) g.name = lookup ms g.name :=
    lookup_cons_of_ne fun same => new (same ▸ before)
  constructor
  · rintro ⟨tidy, fresh, laid⟩
    obtain ⟨absent, tidy⟩ := (tidy_cons_of_known mem).1 tidy
    have new : f.name ∉ seen := by
      intro before
      have given := fresh f mem before
      rw [lookup_cons_self] at given
      cases given
    rw [front absent] at laid
    obtain ⟨r', put, laid⟩ := Option.bind_eq_some_iff.1 laid
    refine ⟨new, r', put, tidy, fun g g_mem before => ?_, laid⟩
    rcases List.mem_cons.1 before with same | before
    · rw [same, absent]
    · rw [← others new before, fresh g g_mem before]
  · rintro ⟨new, r', put, tidy, fresh, laid⟩
    have absent := fresh f mem List.mem_cons_self
    refine ⟨(tidy_cons_of_known mem).2 ⟨absent, tidy⟩, fun g g_mem before => ?_, ?_⟩
    · rw [others new before, fresh g g_mem (List.mem_cons_of_mem _ before)]
    · rw [front absent, put]
      exact laid

/-- Taking in members one after the other lays them over the record by name. -/
theorem members_eq_ok_iff (apart : Apart fields) :
    members fields ms seen r = .ok s ↔ Lays fields seen ms r s := by
  induction ms generalizing seen r with
  | nil =>
    rw [members, lays_nil_iff]
    exact ⟨Except.ok.inj, congrArg _⟩
  | cons m ms ih =>
    obtain ⟨k, n⟩ := m
    cases k with
    | none =>
      rw [members]
      constructor
      · intro read
        cases read
      · intro lays
        exact absurd rfl (lays.tidy.named _ List.mem_cons_self)
    | some k =>
      rw [members]
      split
      case h_1 absent =>
        have unknown : ∀ f ∈ fields, f.name ≠ k := by simpa using absent
        rw [lays_cons_of_unknown_iff unknown, ← ih]
        cases n.passable <;> simp
      case h_2 f found =>
        have mem := List.mem_of_find?_eq_some found
        obtain rfl : f.name = k := by simpa using List.find?_some found
        rw [lays_cons_of_known_iff apart mem]
        by_cases before : f.name ∈ seen
        · rw [if_pos before]
          simp [before]
        · rw [if_neg before, and_iff_right before]
          constructor
          · intro read
            obtain ⟨r', stored, rest⟩ := exists_of_bind_eq_ok read
            exact ⟨r', Field.store_eq_ok_iff.1 stored, ih.1 rest⟩
          · rintro ⟨r', put, lays⟩
            rw [Field.store_eq_ok_iff.2 put]
            exact ih.2 lays

end

/-- **Tables.**  Reading a table lays its members over the record by name. -/
theorem read_table_iff (apart : Apart fields) {dialect : Dialect} {closed : Bool} {r s : δ} :
    read dialect fields r (.table ms closed) = .ok s ↔
      closed = true ∧ Tidy fields ms ∧ overlay? fields (lookup ms) r = some s := by
  rw [read, Decoder.ended_iff, members_eq_ok_iff apart]
  refine and_congr_right fun _ => ⟨fun lays => ⟨lays.tidy, lays.laid⟩, ?_⟩
  rintro ⟨tidy, laid⟩
  exact ⟨tidy, fun _ _ before => absurd before List.not_mem_nil, laid⟩

/-! ## Reading lists -/

theorem items_eq_ok_iff (distinct : (fields.map (·.name)).Nodup) {surplus : Bool} {ns : List Node}
    {r s : δ} :
    items surplus fields ns r = .ok s ↔
      (surplus = true ∨ ns.length ≤ fields.length) ∧
        overlay? fields (lookup (named ((fields.map (·.name)).zip ns))) r = some s := by
  induction fields generalizing ns r with
  | nil => cases ns <;> cases surplus <;> simp [items, overlay?]
  | cons f fields ih =>
    rw [List.map_cons, List.nodup_cons] at distinct
    cases ns with
    | nil =>
      rw [items, overlay?_of_nothing fun _ _ => rfl]
      simp
    | cons n ns =>
      have others : ∀ g ∈ fields,
          lookup (named (((f :: fields).map (·.name)).zip (n :: ns))) g.name =
            lookup (named ((fields.map (·.name)).zip ns)) g.name := by
        intro g mem
        have ne : f.name ≠ g.name := fun same => distinct.1 (same ▸ List.mem_map_of_mem mem)
        exact lookup_cons_of_ne ne
      have own : lookup (named (((f :: fields).map (·.name)).zip (n :: ns))) f.name = some n :=
        lookup_cons_self
      have room : (n :: ns).length ≤ (f :: fields).length ↔ ns.length ≤ fields.length := by simp
      rw [items, overlay?, own, overlay?_congr others, room]
      constructor
      · intro read
        obtain ⟨r', stored, rest⟩ := exists_of_bind_eq_ok read
        obtain ⟨fits, laid⟩ := (ih distinct.2).1 rest
        exact ⟨fits, Option.bind_eq_some_iff.2 ⟨r', Field.store_eq_ok_iff.1 stored, laid⟩⟩
      · rintro ⟨fits, laid⟩
        obtain ⟨r', put, laid⟩ := Option.bind_eq_some_iff.1 laid
        rw [Field.store_eq_ok_iff.2 put]
        exact (ih distinct.2).2 ⟨fits, laid⟩

/-- **Lists.**  Reading a list lays its items over the record by place. -/
theorem read_list_iff (distinct : (fields.map (·.name)).Nodup) {dialect : Dialect} {closed : Bool}
    {ns : List Node} {r s : δ} :
    read dialect fields r (.list ns closed) = .ok s ↔
      closed = true ∧ (dialect.surplus = true ∨ ns.length ≤ fields.length) ∧
        overlay? fields (lookup (named ((fields.map (·.name)).zip ns))) r = some s := by
  rw [read, Decoder.ended_iff, items_eq_ok_iff distinct]

end

/-! ## When values can be laid over a record -/

section

variable {fields : List (Field δ)} {given : String → Option Node}

/-- Each value that is given is taken by the field for which it is given. -/
def Accepted (fields : List (Field δ)) (given : String → Option Node) : Prop :=
  ∀ f ∈ fields, ∀ n, given f.name = some n → f.Takes n

/-- Values can be laid over a record just where each of them is taken. -/
theorem exists_overlay?_iff (uniform : ∀ f ∈ fields, f.Uniform) (r : δ) :
    (∃ s, overlay? fields given r = some s) ↔ Accepted fields given := by
  induction fields generalizing r with
  | nil => exact ⟨fun _ => List.forall_mem_nil _, fun _ => ⟨r, rfl⟩⟩
  | cons f fields ih =>
    rw [List.forall_mem_cons] at uniform
    rw [Accepted, List.forall_mem_cons]
    constructor
    · rintro ⟨s, laid⟩
      obtain ⟨r', own, rest⟩ := Option.bind_eq_some_iff.1 laid
      refine ⟨fun n present => ?_, (ih uniform.2 r').1 ⟨s, rest⟩⟩
      rw [present] at own
      exact uniform.1 n r (Option.isSome_iff_exists.2 ⟨r', own⟩)
    · rintro ⟨taken, accepted⟩
      obtain ⟨r', laid⟩ : ∃ r', f.lay? (given f.name) r = some r' := by
        cases present : given f.name with
        | none => exact ⟨r, rfl⟩
        | some n => exact Option.isSome_iff_exists.1 (taken n present r)
      obtain ⟨s, rest⟩ := (ih uniform.2 r').2 accepted
      exact ⟨s, Option.bind_eq_some_iff.2 ⟨r', laid, rest⟩⟩

end

/-! ## What stands in a field -/

/-- What a field holds after reading: what is read off the value given for it, or what it held
before. -/
def Filled (d : Decoder β) (given : Option Node) (before after : β) : Prop :=
  given.elim (after = before) fun n => d n = .ok after

section

variable {d : Decoder β} {given : String → Option Node} {before : β}

theorem exists_filled_iff {n : Option Node} :
    (∃ b, Filled d n before b) ↔ ∀ m, n = some m → ∃ b, d m = .ok b := by
  cases n with
  | none => simp [Filled]
  | some n => simp [Filled]

theorem overlay?_cons_of_iff {k : String} {set : β → δ → δ} {fields : List (Field δ)} {r s : δ}
    (same : set before r = r) :
    overlay? (.of k d set :: fields) given r = some s ↔
      ∃ b, Filled d (given k) before b ∧ overlay? fields given (set b r) = some s := by
  have name : (Field.of k d set).name = k := rfl
  rw [overlay?, name]
  cases given k with
  | none =>
    show overlay? fields given r = some s ↔ ∃ b, b = before ∧ _
    simp [same]
  | some n =>
    show ((Field.of k d set).put? n r).bind _ = some s ↔ ∃ b, d n = .ok b ∧ _
    rw [Field.put?_of]
    cases d n <;> simp [Except.toOption]

end

/-- What the table under a name gives. -/
def within : Option Node → String → Option Node
  | some (.table ms _), name => lookup ms name
  | _, _ => none

/-- A record inside a record is laid over what stood there. -/
theorem filled_read_iff {fields : List (Field δ)} (apart : Apart fields) {dialect : Dialect}
    {given : Option Node} {start r : δ}
    (tidy : ∀ n, given = some n → ∃ ms, n = .table ms true ∧ Tidy fields ms) :
    Filled (read dialect fields start) given start r ↔
      overlay? fields (within given) start = some r := by
  cases given with
  | none =>
    rw [overlay?_of_nothing fun _ _ => rfl, Option.some_inj]
    exact eq_comm
  | some n =>
    obtain ⟨ms, rfl, own⟩ := tidy n rfl
    show read dialect fields start (.table ms true) = .ok r ↔ _
    rw [read_table_iff apart]
    exact ⟨fun laid => laid.2.2, fun laid => ⟨rfl, own, laid⟩⟩

end Record

end Prognosis.Document
