import Mathlib.Data.List.Nodup
import Prognosis.Proofs.Toml.Sections

/-!
# Names and whole numbers of documents

Every whole number of a document has 64 bits with a sign, and no table of it has a name twice
(`fits_of_parse?`): numbers are read that way, and neither tables inside a line nor headers bring in
others, or a name that is there already.
-/

namespace Prognosis.Toml

open Document

/-! ## What a computation gives -/

section

variable {β γ : Type} {P : β → Prop} {Q : γ → Prop}

/-- Whatever a computation gives has a property. -/
def Ensures (r : Option β) (P : β → Prop) : Prop := ∀ b, r = some b → P b

theorem ensures_none : Ensures none P := nofun

theorem ensures_some {b : β} (holds : P b) : Ensures (some b) P := by
  rintro _ ⟨⟩
  exact holds

theorem Ensures.bind {r : Option β} {f : β → Option γ} (first : Ensures r P)
    (next : ∀ b, P b → Ensures (f b) Q) : Ensures (r >>= f) Q := by
  cases r with
  | none => exact ensures_none
  | some b => exact next b (first b rfl)

/-- A computation about whose first part nothing need be known. -/
theorem ensures_bind {r : Option β} {f : β → Option γ} (next : ∀ b, Ensures (f b) Q) :
    Ensures (r >>= f) Q := by
  cases r with
  | none => exact ensures_none
  | some b => exact next b

theorem Ensures.map {r : Option β} {f : β → γ} (first : Ensures r fun b => Q (f b)) :
    Ensures (r.map f) Q := by
  cases r with
  | none => exact ensures_none
  | some b => exact ensures_some (first b rfl)

theorem ensures_ite {c : Prop} [Decidable c] {r r' : Option β} (first : Ensures r P)
    (second : Ensures r' P) : Ensures (if c then r else r') P := by
  split
  · exact first
  · exact second

end

/-! ## Values that fit -/

/-- All whole numbers of a value have 64 bits with a sign, and the names of each table are
distinct. -/
inductive Fits : Value → Prop where
  | null : Fits .null
  | bool (b : Bool) : Fits (.bool b)
  | int {i : Int} (low : -Decimal.halfWord ≤ i) (high : i < Decimal.halfWord) : Fits (.num (.int i))
  | float (x : Float) : Fits (.num (.float x))
  | text (s : String) : Fits (.text s)
  | list {vs : List Value} (items : ∀ v ∈ vs, Fits v) : Fits (.list vs)
  | table {ms : List (String × Value)} (distinct : (ms.map (·.1)).Nodup)
    (members : ∀ m ∈ ms, Fits m.2) : Fits (.table ms)

theorem ensures_int? (i : Int) : Ensures (int? i) Fits := by
  unfold int?
  split
  · next range => exact ensures_some (.int range.1 range.2)
  · exact ensures_none

theorem ensures_real? (negative : Bool) (whole fraction : List ℕ) (exponent : Int) :
    Ensures (real? negative whole fraction exponent) Fits := by
  unfold real?
  exact ensures_ite (ensures_some (.float _)) (ensures_ite ensures_none (ensures_some (.float _)))

theorem ensures_decimal? (cs : List Char) : Ensures (decimal? cs) fun r => Fits r.1 := by
  unfold decimal?
  refine ensures_bind fun whole => ?_
  dsimp only
  split
  · refine ensures_bind fun fraction => ensures_bind fun exponent => ?_
    exact (ensures_real? _ _ _ _).bind fun v fits => ensures_some fits
  · refine ensures_bind fun exponent => ?_
    split
    · exact (ensures_int? _).bind fun v fits => ensures_some fits
    · exact (ensures_real? _ _ _ _).bind fun v fits => ensures_some fits

theorem ensures_special? (cs : List Char) : Ensures (special? cs) fun r => Fits r.1 := by
  unfold special?
  dsimp only
  split
  · exact ensures_some (.float _)
  · exact ensures_some (.float _)
  · exact ensures_none

theorem ensures_number? (cs : List Char) : Ensures (number? cs) fun r => Fits r.1 := by
  have special := ensures_special? cs
  unfold number?
  split
  · next r found => exact ensures_some (special r found)
  · refine ensures_bind fun digits => ?_
    exact (ensures_int? _).bind fun v fits => ensures_some fits
  · exact ensures_decimal? cs

theorem fits_dateValue : Fits dateValue := .table (List.nodup_singleton _) (by simp [Fits.null])

theorem ensures_date? (cs : List Char) : Ensures (date? cs) fun r => Fits r.1 := by
  unfold date?
  split
  · exact ensures_some fits_dateValue
  · refine Ensures.map ?_
    exact fun _ _ => fits_dateValue

/-! ## Tables -/

/-- All whole numbers of an entry have 64 bits with a sign, and the names of each table are
distinct. -/
inductive FitsEntry : Entry → Prop where
  | value {v : Value} (fits : Fits v) : FitsEntry (.value v)
  | table (origin : Origin) {ms : Members} (distinct : (ms.map (·.1)).Nodup)
    (members : ∀ m ∈ ms, FitsEntry m.2) : FitsEntry (.table origin ms)
  | tables {all : List Members} (distinct : ∀ ms ∈ all, (ms.map (·.1)).Nodup)
    (members : ∀ ms ∈ all, ∀ m ∈ ms, FitsEntry m.2) : FitsEntry (.tables all)

/-- Members of distinct names whose entries fit. -/
structure FitsMembers (ms : Members) : Prop where
  distinct : (ms.map (·.1)).Nodup
  entries : ∀ m ∈ ms, FitsEntry m.2

theorem fits_table {ms : Members} (distinct : (ms.map (·.1)).Nodup)
    (values : ∀ m ∈ ms, Fits m.2.toValue) : Fits (.table (memberValues ms)) := by
  rw [memberValues_eq_map]
  refine .table ?_ (List.forall_mem_map.2 values)
  rw [List.map_map]
  exact distinct

theorem fits_toValue {e : Entry} (fits : FitsEntry e) : Fits e.toValue := by
  induction fits with
  | value fits => exact fits
  | table origin distinct _ ih =>
    rw [Entry.toValue]
    exact fits_table distinct ih
  | tables distinct _ ih =>
    rw [Entry.toValue, tableValues_eq_map]
    refine .list ?_
    rw [List.forall_mem_map]
    exact fun ms mem => fits_table (distinct ms mem) (ih ms mem)

theorem FitsMembers.fits {ms : Members} (fits : FitsMembers ms) : Fits (.table (memberValues ms)) :=
  fits_table fits.distinct fun m mem => fits_toValue (fits.entries m mem)

theorem fitsMembers_nil : FitsMembers [] := ⟨List.nodup_nil, List.forall_mem_nil _⟩

/-- Members are put in the place of a name or behind all others. -/
theorem forall_mem_put {P : String × Entry → Prop} {ms : Members} {key : String} {e : Entry}
    (new : P (key, e)) (old : ∀ m ∈ ms, P m) : ∀ m ∈ ms.put key e, P m := by
  induction ms with
  | nil => exact List.forall_mem_singleton.2 new
  | cons m ms ih =>
    obtain ⟨k, before⟩ := m
    rw [List.forall_mem_cons] at old
    rw [Members.put]
    split
    · next same =>
      subst same
      exact List.forall_mem_cons.2 ⟨new, old.2⟩
    · exact List.forall_mem_cons.2 ⟨old.1, ih old.2⟩

theorem nodup_put {ms : Members} (distinct : (ms.map (·.1)).Nodup) (key : String) (e : Entry) :
    ((ms.put key e).map (·.1)).Nodup := by
  induction ms with
  | nil => exact List.nodup_singleton key
  | cons m ms ih =>
    obtain ⟨k, before⟩ := m
    rw [List.map_cons, List.nodup_cons] at distinct
    rw [Members.put]
    split
    · exact List.nodup_cons.2 distinct
    · next ne =>
      have others : ∀ m ∈ Members.put key e ms, m.1 ≠ k := by
        refine forall_mem_put (Ne.symm ne) fun m mem same => distinct.1 ?_
        exact List.mem_map.2 ⟨m, mem, same⟩
      refine List.nodup_cons.2 ⟨fun mem => ?_, ih distinct.2⟩
      obtain ⟨m, m_mem, same⟩ := List.mem_map.1 mem
      exact others m m_mem same

theorem FitsMembers.put {ms : Members} (fits : FitsMembers ms) {e : Entry} (entry : FitsEntry e)
    (key : String) : FitsMembers (ms.put key e) :=
  ⟨nodup_put fits.distinct key e, forall_mem_put entry fits.entries⟩

theorem fitsEntry_tables {all : List Members} (fits : ∀ ms ∈ all, FitsMembers ms) :
    FitsEntry (.tables all) :=
  .tables (fun ms mem => (fits ms mem).distinct) fun ms mem => (fits ms mem).entries

theorem FitsMembers.find? {ms : Members} (fits : FitsMembers ms) {key : String} {e : Entry}
    (found : ms.find? key = some e) : FitsEntry e := by
  unfold Members.find? at found
  obtain ⟨m, first, rfl⟩ := Option.map_eq_some_iff.1 found
  exact fits.entries m (List.mem_of_find?_eq_some first)

theorem ensures_changeLast? {change : Members → Option Members} {all : List Members}
    (keeps : ∀ ms, FitsMembers ms → Ensures (change ms) FitsMembers)
    (fits : ∀ ms ∈ all, FitsMembers ms) :
    Ensures (changeLast? change all) fun all => ∀ ms ∈ all, FitsMembers ms := by
  induction all with
  | nil => exact ensures_none
  | cons ms all ih =>
    rw [List.forall_mem_cons] at fits
    cases all with
    | nil =>
      refine Ensures.map fun ms' changed => ?_
      exact List.forall_mem_singleton.2 (keeps ms fits.1 ms' changed)
    | cons ms' all =>
      refine Ensures.map fun all' changed => ?_
      exact List.forall_mem_cons.2 ⟨fits.1, ih fits.2 all' changed⟩

section

variable {ms : Members} (fits : FitsMembers ms) {key : String}

include fits

theorem FitsMembers.inner {origin : Origin} {inner : Members}
    (found : ms.find? key = some (.table origin inner)) : FitsMembers inner := by
  cases fits.find? found with
  | table _ distinct members => exact ⟨distinct, members⟩

theorem FitsMembers.inner_tables {all : List Members} (found : ms.find? key = some (.tables all)) :
    ∀ ms ∈ all, FitsMembers ms := by
  cases fits.find? found with
  | tables distinct members => exact fun ms mem => ⟨distinct ms mem, members ms mem⟩

theorem FitsMembers.ensures_put_table (origin : Origin) {r : Option Members}
    (inner : Ensures r FitsMembers) :
    Ensures (r.map (Entry.table origin) >>= fun e => some (ms.put key e)) FitsMembers := by
  have entry : Ensures (r.map (Entry.table origin)) FitsEntry :=
    Ensures.map fun members made =>
      .table origin (inner members made).distinct (inner members made).entries
  exact entry.bind fun e entry => ensures_some (fits.put entry key)

theorem FitsMembers.ensures_put_tables {r : Option (List Members)}
    (all : Ensures r fun all => ∀ ms ∈ all, FitsMembers ms) :
    Ensures (r.map Entry.tables >>= fun e => some (ms.put key e)) FitsMembers := by
  have entry : Ensures (r.map Entry.tables) FitsEntry :=
    Ensures.map fun members made => fitsEntry_tables (all members made)
  exact entry.bind fun e entry => ensures_some (fits.put entry key)

end

theorem ensures_underHeader? {change : Members → Option Members}
    (keeps : ∀ ms, FitsMembers ms → Ensures (change ms) FitsMembers) (path : List String)
    {ms : Members} (fits : FitsMembers ms) :
    Ensures (underHeader? change path ms) FitsMembers := by
  induction path generalizing ms with
  | nil => exact keeps ms fits
  | cons key path ih =>
    rw [underHeader?]
    split
    · exact fits.ensures_put_table _ (ih fitsMembers_nil)
    · next origin inner found => exact fits.ensures_put_table _ (ih (fits.inner found))
    · next all found =>
      refine fits.ensures_put_tables (ensures_changeLast? ?_ (fits.inner_tables found))
      exact fun ms fits => ih fits
    · exact ensures_none

theorem ensures_addKey? (path : List String) {v : Value} (value : Fits v) {own : Bool}
    {ms : Members} (fits : FitsMembers ms) : Ensures (addKey? own v path ms) FitsMembers := by
  induction path generalizing own ms with
  | nil => exact ensures_none
  | cons key path ih =>
    cases path with
    | nil => exact ensures_ite (ensures_some (fits.put (.value value) key)) ensures_none
    | cons key' path =>
      rw [addKey?]
      split
      · exact fits.ensures_put_table _ (ih fitsMembers_nil)
      · next inner found => exact fits.ensures_put_table _ (ih (fits.inner found))
      · next inner found => exact fits.ensures_put_table _ (ih (fits.inner found))
      · next all found =>
        refine fits.ensures_put_tables (ensures_changeLast? ?_ (fits.inner_tables found))
        exact fun ms fits => ih fits
      · exact ensures_none
      · exact ensures_none
      · simp

/-- All whole numbers given with keys have 64 bits with a sign. -/
def FitsKeys (kvs : KeyValues) : Prop := ∀ kv ∈ kvs, Fits kv.2

theorem ensures_addKeys? {kvs : KeyValues} (keys : FitsKeys kvs) {ms : Members}
    (fits : FitsMembers ms) : Ensures (addKeys? ms kvs) FitsMembers := by
  induction kvs generalizing ms with
  | nil => exact ensures_some fits
  | cons kv kvs ih =>
    rw [FitsKeys, List.forall_mem_cons] at keys
    exact (ensures_addKey? kv.1 keys.1 fits).bind fun ms fits => ih keys.2 fits

theorem ensures_beginTable? {kvs : KeyValues} (keys : FitsKeys kvs) (key : String) {ms : Members}
    (fits : FitsMembers ms) : Ensures (beginTable? key kvs ms) FitsMembers := by
  have begins {inner : Members} (members : FitsMembers inner) :
      Ensures (do some (ms.put key (.table .header (← addKeys? inner kvs)))) FitsMembers :=
    (ensures_addKeys? keys members).bind fun inner members =>
      ensures_some (fits.put (.table _ members.distinct members.entries) key)
  unfold beginTable?
  split
  · exact begins fitsMembers_nil
  · next inner found => exact begins (fits.inner found)
  · exact ensures_none

theorem ensures_beginItem? {kvs : KeyValues} (keys : FitsKeys kvs) (key : String) {ms : Members}
    (fits : FitsMembers ms) : Ensures (beginItem? key kvs ms) FitsMembers := by
  have begins {before : List Members} (members : ∀ ms ∈ before, FitsMembers ms) :
      Ensures (do some (ms.put key (.tables (before ++ [← addKeys? [] kvs])))) FitsMembers :=
    (ensures_addKeys? keys fitsMembers_nil).bind fun last fits_last => by
      have all : ∀ ms ∈ before ++ [last], FitsMembers ms :=
        List.forall_mem_append.2 ⟨members, List.forall_mem_singleton.2 fits_last⟩
      exact ensures_some (fits.put (fitsEntry_tables all) key)
  unfold beginItem?
  split
  · exact begins (List.forall_mem_nil _)
  · next all found => exact begins (fits.inner_tables found)
  · exact ensures_none

theorem ensures_addTo? {s : Section} (keys : FitsKeys s.keys) {root : Members}
    (fits : FitsMembers root) : Ensures (s.addTo? root) FitsMembers := by
  unfold Section.addTo?
  refine ensures_bind fun key => ensures_underHeader? (fun ms fits => ?_) _ fits
  split
  · exact ensures_beginItem? keys key fits
  · exact ensures_beginTable? keys key fits

theorem ensures_addAll? {ss : List Section} (keys : ∀ s ∈ ss, FitsKeys s.keys) {root : Members}
    (fits : FitsMembers root) : Ensures (addAll? root ss) FitsMembers := by
  induction ss generalizing root with
  | nil => exact ensures_some fits
  | cons s ss ih =>
    rw [List.forall_mem_cons] at keys
    exact (ensures_addTo? keys.1 fits).bind fun root fits => ih keys.2 fits

/-! ## Values -/

/-- What is read with some fuel fits. -/
structure FitsAt (fuel : ℕ) : Prop where
  value (room : ℕ) (cs : List Char) : Ensures (value? fuel room cs) fun r => Fits r.1
  array (room : ℕ) (cs : List Char) : Ensures (array? fuel room cs) fun r => ∀ v ∈ r.1, Fits v
  inline (room : ℕ) (cs : List Char) : Ensures (inline? fuel room cs) fun r => FitsKeys r.1
  inlineMore (room : ℕ) (cs : List Char) : Ensures (inlineMore? fuel room cs) fun r => FitsKeys r.1

theorem fitsAt_zero : FitsAt 0 := by
  constructor
  · intro room cs
    rw [value?]
    exact ensures_none
  · intro room cs
    rw [array?]
    exact ensures_none
  · intro room cs
    rw [inline?]
    exact ensures_none
  · intro room cs
    rw [inlineMore?]
    exact ensures_none

theorem ensures_inlineTable? {kvs : KeyValues} (keys : FitsKeys kvs) :
    Ensures (inlineTable? kvs) Fits := by
  refine Ensures.map fun ms built => ?_
  exact (ensures_addKeys? keys fitsMembers_nil ms built).fits

section

variable {fuel : ℕ} (at_fuel : FitsAt fuel) (room : ℕ) (cs : List Char)

include at_fuel

theorem ensures_value?_succ : Ensures (value? (fuel + 1) room cs) fun r => Fits r.1 := by
  cases cs with
  | nil =>
    rw [value?]
    exact ensures_none
  | cons c cs =>
    rw [value?]
    refine ensures_ite (Ensures.map fun _ _ => .text _) ?_
    refine ensures_ite (ensures_ite ensures_none ?_) ?_
    · exact (at_fuel.array _ _).bind fun r items => ensures_some (.list items)
    refine ensures_ite (ensures_ite ensures_none ?_) ?_
    · refine (at_fuel.inline _ _).bind fun r keys => ?_
      exact (ensures_inlineTable? keys).bind fun v fits => ensures_some fits
    refine ensures_ite (Ensures.map fun _ _ => .bool true) ?_
    refine ensures_ite (Ensures.map fun _ _ => .bool false) ?_
    have date := ensures_date? (c :: cs)
    split
    · next r found => exact ensures_some (date r found)
    · exact ensures_number? (c :: cs)

theorem ensures_array?_succ : Ensures (array? (fuel + 1) room cs) fun r => ∀ v ∈ r.1, Fits v := by
  rw [array?]
  split
  · exact ensures_some (List.forall_mem_nil _)
  · refine (at_fuel.value _ _).bind fun r fits => ?_
    dsimp only
    split
    · refine (at_fuel.array _ _).bind fun rs items => ?_
      exact ensures_some (List.forall_mem_cons.2 ⟨fits, items⟩)
    · refine ensures_bind fun rest => ?_
      exact ensures_some (List.forall_mem_singleton.2 fits)

theorem ensures_inline?_succ : Ensures (inline? (fuel + 1) room cs) fun r => FitsKeys r.1 := by
  rw [inline?]
  split
  · exact ensures_some (List.forall_mem_nil _)
  · exact at_fuel.inlineMore _ _

theorem ensures_inlineMore?_succ :
    Ensures (inlineMore? (fuel + 1) room cs) fun r => FitsKeys r.1 := by
  rw [inlineMore?]
  refine ensures_bind fun key => ensures_bind fun rest => ?_
  refine (at_fuel.value _ _).bind fun r fits => ?_
  dsimp only
  split
  · refine (at_fuel.inlineMore _ _).bind fun rs keys => ?_
    exact ensures_some (List.forall_mem_cons.2 ⟨fits, keys⟩)
  · refine ensures_bind fun rest => ?_
    exact ensures_some (List.forall_mem_singleton.2 fits)

end

theorem fitsAt (fuel : ℕ) : FitsAt fuel := by
  induction fuel with
  | zero => exact fitsAt_zero
  | succ fuel ih =>
    exact ⟨ensures_value?_succ ih, ensures_array?_succ ih, ensures_inline?_succ ih,
      ensures_inlineMore?_succ ih⟩

/-! ## Documents -/

/-- All whole numbers of an outline have 64 bits with a sign. -/
def FitsOutline (o : Outline) : Prop := FitsKeys o.1 ∧ ∀ s ∈ o.2, FitsKeys s.keys

theorem ensures_keyLine? (fuel : ℕ) (cs : List Char) :
    Ensures (keyLine? fuel cs) fun r => Fits r.1.2 := by
  unfold keyLine?
  refine ensures_bind fun key => ensures_bind fun rest => ?_
  refine ((fitsAt fuel).value _ _).bind fun r fits => ?_
  exact ensures_bind fun rest => ensures_some fits

theorem ensures_outline? (fuel : ℕ) (cs : List Char) : Ensures (outline? fuel cs) FitsOutline := by
  induction fuel generalizing cs with
  | zero => exact ensures_none
  | succ fuel ih =>
    rw [outline?]
    split
    · exact ensures_some ⟨List.forall_mem_nil _, List.forall_mem_nil _⟩
    · next c cs' _ =>
      refine ensures_ite ?_ (ensures_ite ?_ ?_)
      · split
        · exact ih _
        · exact ensures_none
      · split
        · refine Ensures.map fun o read => ⟨List.forall_mem_nil _, ?_⟩
          have rest := ih _ o read
          exact List.forall_mem_cons.2 rest
        · exact ensures_none
      · split
        · exact ih _
        · have line := ensures_keyLine? fuel (c :: cs')
          split
          · next kv _ found =>
            refine Ensures.map fun o read => ?_
            have rest := ih _ o read
            exact ⟨List.forall_mem_cons.2 ⟨line _ found, rest.1⟩, rest.2⟩
          · exact ensures_none

theorem ensures_build? {o : Outline} (fits : FitsOutline o) : Ensures o.build? FitsMembers := by
  unfold Outline.build?
  refine (ensures_addKeys? fits.1 fitsMembers_nil).bind fun root members => ?_
  exact ensures_addAll? fits.2 members

/-- Every whole number of a document has 64 bits with a sign, and no table of it has a name
twice. -/
theorem fits_of_parse? {text : String} {ms : List (String × Value)} (read : parse? text = some ms) :
    Fits (.table ms) := by
  have outline := ensures_outline? (2 * text.length + 3) (dropMark text.toList)
  have values : Ensures (parse? text) fun ms => Fits (.table ms) := by
    unfold parse?
    refine outline.bind fun o fits => Ensures.map fun root built => ?_
    exact (ensures_build? fits root built).fits
  exact values ms read

end Prognosis.Toml
