import Prognosis.Proofs.Stream
import Mathlib.Logic.Function.Basic
import Mathlib.Logic.Function.Iterate

/-!
# Histories in use

Values go into several histories one operation at a time, some histories are copies of others, and
reading one may rearrange it.  `Op.record` says which values each history has taken in, and nothing
of how they are held.  `Windows` relates the two: a history holds the last values of its stream.
Every operation keeps it (`Windows.perform`), and all that can be seen of a history is a function
of its stream (`History.view_eq`).
-/

namespace Prognosis

/-! ## The eviction loop -/

namespace Queue

variable {β : Type}

/-- How often the eviction loop runs. -/
def evictions (capacity : Nat) (q : Queue β) : Nat :=
  if capacity < q.size then evictions capacity q.tail + 1 else 0
termination_by q.size
decreasing_by rw [size_tail]; omega

theorem evict_eq_iterate (capacity : Nat) (q : Queue β) :
    q.evict capacity = tail^[q.evictions capacity] q := by
  fun_induction evict capacity q with
  | case1 q more ih =>
    have again : q.evictions capacity = q.tail.evictions capacity + 1 := by
      rw [evictions, if_pos more]
    rw [ih, again, Function.iterate_succ_apply]
  | case2 q fits => rw [evictions, if_neg fits, Function.iterate_zero_apply]

theorem evictions_eq (capacity : Nat) (q : Queue β) : q.evictions capacity = q.size - capacity := by
  fun_induction evictions capacity q with
  | case1 q more ih =>
    rw [ih, size_tail]
    omega
  | case2 q fits => omega

end Queue

namespace History

variable {β : Type}

theorem evictions_push_le (h : History β) (b : β) :
    (h.toQueue.append b).evictions h.capacity ≤ 1 := by
  have le := h.size_le
  rw [Queue.evictions_eq, Queue.size_append]
  omega

/-! ## What can be seen of a history -/

theorem samples_fst (h : History β) : h.samples.1 = h.toList := rfl

theorem reversed_eq (h : History β) : h.reversed = h.toList.reverse := by
  unfold reversed toList Queue.toList
  rw [List.reverse_append, List.reverse_reverse]

end History

/-- All that can be seen of a history. -/
structure View (β : Type) where
  samples : List β
  forward : List β
  backward : List β
  latest? : Option β
  length : Nat
  deriving DecidableEq

def History.view {β : Type} (h : History β) : View β where
  samples := h.samples.1
  forward := h.toList
  backward := h.reversed
  latest? := h.latest?
  length := h.size

/-- The last `n` values of a stream as a history should show them. -/
def View.ofStream {β : Type} (n : Nat) (stream : List β) : View β where
  samples := lastOf n stream
  forward := lastOf n stream
  backward := (lastOf n stream).reverse
  latest? := stream.getLast?
  length := min stream.length n

/-- The view shows nothing but the content. -/
theorem History.view_eq {β : Type} {n : Nat} (pos : 0 < n) {h : History β} {stream : List β}
    (content : h.toList = lastOf n stream) : h.view = .ofStream n stream := by
  have newest : h.latest? = stream.getLast? := by
    rw [latest?, content, getLast?_lastOf pos]
  have length : h.size = min stream.length n := by
    rw [← length_toList, content, length_lastOf]
  unfold view View.ofStream
  rw [samples_fst, reversed_eq, content, newest, length]

/-! ## Operations on several histories -/

/-- What is done to a history.  The histories are told apart by handles. -/
inductive Op (ι β : Type) where
  | push (i : ι) (b : β)
  | extend (i : ι) (bs : List β)
  | samples (i : ι)
  | iter (i : ι)
  | clone (source copy : ι)
  deriving DecidableEq

section

variable {ι β : Type}

/-- Every history has room for `n` values and holds the last of its stream. -/
def Windows (n : Nat) (histories : ι → History β) (streams : ι → List β) : Prop :=
  ∀ i, (histories i).capacity = n ∧ (histories i).toList = lastOf n (streams i)

theorem windows_withCapacity (k : Nat) :
    Windows (max k 1) (fun _ : ι => (History.withCapacity k : History β)) fun _ => [] := by
  intro i
  refine ⟨History.capacity_withCapacity k, ?_⟩
  rw [History.toList_withCapacity, lastOf_nil]

variable [DecidableEq ι]

theorem update_congr {α : Type} {f g : ι → α} {i j : ι} {a b : α} (same : f i = g i)
    (new : i = j → a = b) : Function.update f j a i = Function.update g j b i := by
  by_cases here : i = j
  · subst here
    rw [Function.update_self, Function.update_self, new rfl]
  · rw [Function.update_of_ne here, Function.update_of_ne here, same]

namespace Op

/-- The histories after an operation. -/
def perform (op : Op ι β) (histories : ι → History β) : ι → History β :=
  match op with
  | push i b => Function.update histories i ((histories i).push b)
  | extend i bs => Function.update histories i ((histories i).extend bs)
  | samples i => Function.update histories i (histories i).samples.2
  | iter _ => histories
  | clone source copy => Function.update histories copy (histories source)

/-- The values that the histories have taken in, after an operation.  A copy starts with the values
of its source. -/
def record (op : Op ι β) (streams : ι → List β) : ι → List β :=
  match op with
  | push i b => Function.update streams i (streams i ++ [b])
  | extend i bs => Function.update streams i (streams i ++ bs)
  | samples _ => streams
  | iter _ => streams
  | clone source copy => Function.update streams copy (streams source)

/-- Only what is copied in makes a stream depend on other streams. -/
theorem record_congr {op : Op ι β} {i : ι} (kept : ∀ source, op ≠ clone source i)
    {streams others : ι → List β} (same : streams i = others i) :
    op.record streams i = op.record others i := by
  cases op with
  | push j b =>
    apply update_congr same
    rintro rfl
    rw [same]
  | extend j bs =>
    apply update_congr same
    rintro rfl
    rw [same]
  | samples j => exact same
  | iter j => exact same
  | clone source copy =>
    apply update_congr same
    rintro rfl
    exact absurd rfl (kept source)

end Op

/-- The histories after a run of operations. -/
def performAll (ops : List (Op ι β)) (histories : ι → History β) : ι → History β :=
  ops.foldl (fun histories op => op.perform histories) histories

/-- The values that the histories have taken in, after a run of operations. -/
def recordAll (ops : List (Op ι β)) (streams : ι → List β) : ι → List β :=
  ops.foldl (fun streams op => op.record streams) streams

theorem recordAll_append (before after : List (Op ι β)) (streams : ι → List β) :
    recordAll (before ++ after) streams = recordAll after (recordAll before streams) :=
  List.foldl_append

theorem recordAll_cons (op : Op ι β) (ops : List (Op ι β)) (streams : ι → List β) :
    recordAll (op :: ops) streams = recordAll ops (op.record streams) := rfl

theorem recordAll_congr {ops : List (Op ι β)} {i : ι} (kept : ∀ source, .clone source i ∉ ops)
    {streams others : ι → List β} (same : streams i = others i) :
    recordAll ops streams i = recordAll ops others i := by
  induction ops generalizing streams others with
  | nil => exact same
  | cons op ops ih =>
    apply ih
    · intro source later
      exact kept source (List.mem_cons_of_mem _ later)
    · apply Op.record_congr _ same
      rintro source rfl
      exact kept source List.mem_cons_self

variable {n : Nat} {histories : ι → History β} {streams : ι → List β}

theorem Windows.update (windows : Windows n histories streams) (i : ι) {h : History β}
    {stream : List β} (capacity : h.capacity = n) (content : h.toList = lastOf n stream) :
    Windows n (Function.update histories i h) (Function.update streams i stream) := by
  intro j
  by_cases here : j = i
  · subst here
    rw [Function.update_self, Function.update_self]
    exact ⟨capacity, content⟩
  · rw [Function.update_of_ne here, Function.update_of_ne here]
    exact windows j

theorem Windows.perform (windows : Windows n histories streams) (op : Op ι β) :
    Windows n (op.perform histories) (op.record streams) := by
  cases op with
  | push i b =>
    obtain ⟨capacity, content⟩ := windows i
    apply windows.update i
    · rw [History.capacity_push, capacity]
    · rw [History.toList_push_eq, capacity, content, lastOf_append]
  | extend i bs =>
    obtain ⟨capacity, content⟩ := windows i
    apply windows.update i
    · rw [History.capacity_extend, capacity]
    · rw [History.toList_extend, capacity, content, lastOf_append]
  | samples i =>
    -- The history that was read is another one than before, its stream is the same.
    obtain ⟨capacity, content⟩ := windows i
    have capacity : (histories i).samples.2.capacity = n := capacity
    have content : (histories i).samples.2.toList = lastOf n (streams i) :=
      (histories i).toList_settle.trans content
    have windows := windows.update i capacity content
    rw [Function.update_eq_self] at windows
    exact windows
  | iter i => exact windows
  | clone source copy =>
    obtain ⟨capacity, content⟩ := windows source
    exact windows.update copy capacity content

theorem Windows.performAll (windows : Windows n histories streams) (ops : List (Op ι β)) :
    Windows n (performAll ops histories) (recordAll ops streams) := by
  induction ops generalizing histories streams with
  | nil => exact windows
  | cons op ops ih => exact ih (windows.perform op)

/-! ## Runs -/

/-- The values that a history has taken in, those of its source included. -/
def streamOf (ops : List (Op ι β)) (i : ι) : List β := recordAll ops (fun _ => []) i

/-- What can be seen of a history after a run that begins with empty histories. -/
def viewAfter (k : Nat) (ops : List (Op ι β)) (i : ι) : View β :=
  (performAll ops (fun _ => .withCapacity k) i).view

theorem viewAfter_eq (k : Nat) (ops : List (Op ι β)) (i : ι) :
    viewAfter k ops i = .ofStream (max k 1) (streamOf ops i) := by
  have windows := (windows_withCapacity k).performAll ops
  exact History.view_eq (Nat.le_max_right ..) (windows i).2

/-- Operations that leave the stream of a history alone cannot be noticed from it. -/
theorem viewAfter_congr (k : Nat) {ops others : List (Op ι β)} {i : ι}
    (same : streamOf ops i = streamOf others i) : viewAfter k ops i = viewAfter k others i := by
  rw [viewAfter_eq, viewAfter_eq, same]

theorem streamOf_unrecorded (before after : List (Op ι β)) (i : ι) {op : Op ι β}
    (unrecorded : ∀ streams, op.record streams = streams) :
    streamOf (before ++ op :: after) i = streamOf (before ++ after) i := by
  unfold streamOf
  rw [recordAll_append, recordAll_append, recordAll_cons, unrecorded]

theorem streamOf_clone (before : List (Op ι β)) {after : List (Op ι β)} {original : ι} (copy : ι)
    (kept : ∀ source, .clone source original ∉ after) :
    streamOf (before ++ .clone original copy :: after) original =
      streamOf (before ++ after) original := by
  unfold streamOf
  rw [recordAll_append, recordAll_append, recordAll_cons]
  apply recordAll_congr kept
  by_cases itself : original = copy
  · subst itself
    exact Function.update_self ..
  · exact Function.update_of_ne itself ..

/-- A history is a window over its stream.  Whatever was done before, it shows the last values that
it has taken in, oldest first; reading a history is not noticed later, nor is copying it, unless
something else is copied in its place; the batches that values come in do not matter; and a push
runs the eviction loop once at most. -/
theorem history_is_window (ι β : Type) [DecidableEq ι] (k : Nat) :
    (∀ (ops : List (Op ι β)) (i : ι),
      viewAfter k ops i = .ofStream (max k 1) (streamOf ops i)) ∧
    (∀ (before after : List (Op ι β)) (read i : ι),
      viewAfter k (before ++ .samples read :: after) i = viewAfter k (before ++ after) i ∧
      viewAfter k (before ++ .iter read :: after) i = viewAfter k (before ++ after) i) ∧
    (∀ (before after : List (Op ι β)) (original copy : ι),
      (∀ source, .clone source original ∉ after) →
      viewAfter k (before ++ .clone original copy :: after) original =
        viewAfter k (before ++ after) original) ∧
    (∀ (h : History β) (xs ys : List β), h.extend (xs ++ ys) = (h.extend xs).extend ys) ∧
    ∀ (h : History β) (b : β),
      (h.push b).toQueue =
        Queue.tail^[(h.toQueue.append b).evictions h.capacity] (h.toQueue.append b) ∧
      (h.toQueue.append b).evictions h.capacity ≤ 1 := by
  refine ⟨viewAfter_eq k, ?reads, ?clones, History.extend_append, ?evictions⟩
  case reads =>
    intro before after read i
    constructor
    · exact viewAfter_congr k (streamOf_unrecorded before after i fun _ => rfl)
    · exact viewAfter_congr k (streamOf_unrecorded before after i fun _ => rfl)
  case clones =>
    intro before after original copy kept
    exact viewAfter_congr k (streamOf_clone before copy kept)
  case evictions =>
    intro h b
    exact ⟨Queue.evict_eq_iterate .., h.evictions_push_le b⟩

/-- A history that has let values go is read, fed and copied.  Both go on from what it held, and what
one takes in is not seen in the other. -/
theorem history_is_window_of_copied :
    let before : List (Op Bool ℕ) := [.extend false [1, 2, 3], .samples false, .push false 4]
    let after : List (Op Bool ℕ) := [.push true 9, .push false 5]
    let copied := before ++ .clone false true :: after
    (∀ source, .clone source false ∉ after) ∧
      viewAfter 2 copied false = viewAfter 2 (before ++ after) false ∧
      viewAfter 2 copied false = ⟨[4, 5], [4, 5], [5, 4], some 5, 2⟩ ∧
      viewAfter 2 copied true = ⟨[4, 9], [4, 9], [9, 4], some 9, 2⟩ := by
  intro before after copied
  have kept : ∀ source, .clone source false ∉ after := by
    intro source again
    simp [after] at again
  obtain ⟨view, -, original, -, -⟩ := history_is_window Bool ℕ 2
  refine ⟨kept, original before after false true kept, ?_, ?_⟩
  · rw [view]
    decide
  · rw [view]
    decide

end

end Prognosis
