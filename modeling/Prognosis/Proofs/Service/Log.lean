import Mathlib.Data.List.Induction
import Prognosis.Proofs.Service.Call

/-!
# The log of a run

A run is a list of requests, each with its moment, answered one after the other from the empty
registry.  Its log collects, for every node, the samples of the batches that were answered with
200.  `Follows` says that a registry shows such a log through a window of bounded length;
`Follows.answer` is the step and `follows_registryAfter` the run.
-/

namespace Prognosis.Service

/-! ## Runs -/

/-- A request and the response to it. -/
structure Exchange where
  request : Request
  response : Response

section

variable (setup : Setup)

/-- The registry after a run from the empty one. -/
def registryAfter (requests : List (String × Request)) : Registry :=
  (answerAll setup .empty requests).2

/-- The exchanges of a run from the empty registry. -/
def exchanges (requests : List (String × Request)) : List Exchange :=
  List.zipWith (fun r response => ⟨r.2, response⟩) requests (answerAll setup .empty requests).1

theorem answerAll_cons (registry : Registry) (now : String) (r : Request)
    (rest : List (String × Request)) :
    answerAll setup registry ((now, r) :: rest) =
      ((answer setup now registry r).1 ::
          (answerAll setup (answer setup now registry r).2 rest).1,
        (answerAll setup (answer setup now registry r).2 rest).2) := rfl

theorem answerAll_append (registry : Registry) (past later : List (String × Request)) :
    answerAll setup registry (past ++ later) =
      ((answerAll setup registry past).1 ++
          (answerAll setup (answerAll setup registry past).2 later).1,
        (answerAll setup (answerAll setup registry past).2 later).2) := by
  induction past generalizing registry with
  | nil => rfl
  | cons first past ih =>
    obtain ⟨now, r⟩ := first
    rw [List.cons_append, answerAll_cons, ih, answerAll_cons, List.cons_append]

theorem length_answerAll (registry : Registry) (requests : List (String × Request)) :
    (answerAll setup registry requests).1.length = requests.length := by
  induction requests generalizing registry with
  | nil => rfl
  | cons first requests ih =>
    obtain ⟨now, r⟩ := first
    rw [answerAll_cons, List.length_cons, List.length_cons, ih]

theorem registryAfter_concat (past : List (String × Request)) (now : String) (r : Request) :
    registryAfter setup (past ++ [(now, r)]) =
      (answer setup now (registryAfter setup past) r).2 := by
  rw [registryAfter, answerAll_append]
  rfl

theorem exchanges_concat (past : List (String × Request)) (now : String) (r : Request) :
    exchanges setup (past ++ [(now, r)]) =
      exchanges setup past ++ [⟨r, (answer setup now (registryAfter setup past) r).1⟩] := by
  rw [exchanges, answerAll_append,
    List.zipWith_append (length_answerAll setup .empty past).symm]
  rfl

end

/-! ## Logs -/

/-- The samples for a node that an exchange took in: those of a batch that was answered with
200. -/
def Exchange.taken (x : Exchange) (name : String) : List Sample :=
  match x.request.call? with
  | some (.ingest target batch) =>
    if target = name ∧ x.response.status = 200 then batch else []
  | _ => []

/-- All samples taken in for a node, in the order of the exchanges. -/
def logOf (xs : List Exchange) (name : String) : List Sample := xs.flatMap fun x => x.taken name

/-- A log with one more exchange. -/
def record (log : String → List Sample) (x : Exchange) (name : String) : List Sample :=
  log name ++ x.taken name

theorem logOf_concat (xs : List Exchange) (x : Exchange) :
    logOf (xs ++ [x]) = record (logOf xs) x := by
  funext name
  rw [logOf, List.flatMap_append, List.flatMap_singleton, record, logOf]

section

variable {log : String → List Sample} {x : Exchange}

theorem record_of_taken_eq_nil (h : ∀ name, x.taken name = []) : record log x = log := by
  funext name
  rw [record, h, List.append_nil]

theorem record_of_not_ingest {r : Request} {response : Response} {c : Option Call}
    (call : r.call? = c) (h : ∀ target batch, c ≠ some (.ingest target batch)) :
    record log ⟨r, response⟩ = log := by
  refine record_of_taken_eq_nil fun name => ?_
  rw [Exchange.taken, call]
  split
  · next target batch => exact absurd rfl (h target batch)
  · rfl

variable {target : String} {batch : List Sample}
  (call : x.request.call? = some (.ingest target batch))

include call

theorem taken_of_ingest (name : String) :
    x.taken name = if target = name ∧ x.response.status = 200 then batch else [] := by
  rw [Exchange.taken, call]

theorem record_of_refused (status : x.response.status ≠ 200) : record log x = log := by
  refine record_of_taken_eq_nil fun name => ?_
  rw [taken_of_ingest call, if_neg fun h => status h.2]

theorem record_self (status : x.response.status = 200) :
    record log x target = log target ++ batch := by
  rw [record, taken_of_ingest call, if_pos ⟨rfl, status⟩]

theorem record_other {name : String} (ne : target ≠ name) : record log x name = log name := by
  rw [record, taken_of_ingest call, if_neg fun h => ne h.1, List.append_nil]

end

/-! ## Following a log -/

/-- What is kept of a log: nothing of an empty one, of any other a history with its last samples,
as many as are retained. -/
def Shows (retained : Nat) (log : List Sample) : Option (History Sample) → Prop
  | none => log = []
  | some h => log ≠ [] ∧ h.capacity = retained ∧ h.toList = lastOf retained log

/-- A registry shows the log of every node. -/
def Follows (limits : Registry.Limits) (registry : Registry) (log : String → List Sample) : Prop :=
  ∀ name, Shows limits.retained (log name) (registry.find? name)

section

variable {limits : Registry.Limits} {registry : Registry} {log : String → List Sample}

theorem Follows.log_eq_nil (follows : Follows limits registry log) {name : String}
    (new : registry.find? name = none) : log name = [] := by
  have shown := follows name
  rw [new] at shown
  exact shown

theorem Follows.shows (follows : Follows limits registry log) {name : String} {h : History Sample}
    (found : registry.find? name = some h) : Shows limits.retained (log name) (some h) := by
  have shown := follows name
  rw [found] at shown
  exact shown

theorem follows_empty (limits : Registry.Limits) : Follows limits .empty fun _ => [] :=
  fun _ => rfl

/-- Putting a history in its place concerns the log of its node alone. -/
theorem Follows.put (follows : Follows limits registry log) {name : String} {h : History Sample}
    {after : String → List Sample} (here : Shows limits.retained (after name) (some h))
    (there : ∀ n, name ≠ n → after n = log n) :
    Follows limits (registry.put name h) after := by
  intro n
  rw [Registry.find?_put]
  by_cases same : name = n
  · rw [if_pos same, ← same]
    exact here
  · rw [if_neg same, there n same]
    exact follows n

theorem Shows.extend {retained : Nat} {log : List Sample} {h : History Sample}
    (shown : Shows retained log (some h)) (batch : List Sample) :
    Shows retained (log ++ batch) (some (h.extend batch)) := by
  obtain ⟨some_log, capacity, content⟩ := shown
  refine ⟨fun nothing => some_log (List.append_eq_nil_iff.1 nothing).1, ?_, ?_⟩
  · rw [History.capacity_extend, capacity]
  · rw [History.toList_extend, capacity, content, lastOf_append]

theorem Shows.settle {retained : Nat} {log : List Sample} {h : History Sample}
    (shown : Shows retained log (some h)) : Shows retained log (some h.settle) := by
  obtain ⟨some_log, capacity, content⟩ := shown
  exact ⟨some_log, capacity, h.toList_settle.trans content⟩

theorem Shows.size {retained : Nat} {log : List Sample} {h : History Sample}
    (shown : Shows retained log (some h)) : h.size = min log.length retained := by
  rw [← History.length_toList, shown.2.2, length_lastOf]

theorem shows_firstHistory (limits : Registry.Limits) {batch : List Sample}
    (some_batch : batch ≠ []) :
    Shows limits.retained batch (some (limits.firstHistory batch)) :=
  ⟨some_batch, limits.capacity_firstHistory batch, limits.toList_firstHistory batch⟩

/-- Taking in a batch, or refusing it, keeps a registry in step with the log. -/
theorem Follows.ingest {setup : Setup} (follows : Follows setup.limits registry log)
    {now name : String} {batch : List Sample} {x : Exchange}
    (call : x.request.call? = some (.ingest name batch))
    (status : x.response.status =
      (perform setup now registry (.ingest name batch)).1.status) :
    Follows setup.limits (perform setup now registry (.ingest name batch)).2 (record log x) := by
  rcases perform_ingest_cases setup now registry name batch with
    ⟨h, found, result⟩ | ⟨new, nothing, result⟩ | ⟨new, some_batch, full, result⟩ |
      ⟨new, some_batch, room, result⟩
  · rw [result] at status ⊢
    refine follows.put ?_ fun n ne => record_other call ne
    rw [record_self call status]
    exact (follows.shows found).extend batch
  · rw [result]
    rw [record_of_taken_eq_nil fun n => ?_]
    · exact follows
    · rw [taken_of_ingest call, nothing, ite_self]
  · rw [result] at status ⊢
    have refused : x.response.status ≠ 200 := by
      rw [status, Response.status_full]
      decide
    rw [record_of_refused call refused]
    exact follows
  · rw [result] at status ⊢
    refine follows.put ?_ fun n ne => record_other call ne
    rw [record_self call status, follows.log_eq_nil new, List.nil_append]
    exact shows_firstHistory _ some_batch

/-- **One request.**  Answering a request keeps a registry in step with the log. -/
theorem Follows.answer {setup : Setup} (follows : Follows setup.limits registry log)
    (now : String) (r : Request) :
    Follows setup.limits (answer setup now registry r).2
      (record log ⟨r, (answer setup now registry r).1⟩) := by
  cases call : r.call? with
  | none =>
    rw [record_of_not_ingest call nofun,
      (answer_of_no_call setup now registry call).1]
    exact follows
  | some c =>
    rw [answer_of_call? setup now registry call]
    cases c with
    | ingest name batch => exact follows.ingest call rfl
    | list =>
      rw [record_of_not_ingest call nofun]
      exact follows
    | score samples =>
      rw [record_of_not_ingest call nofun]
      exact follows
    | predict name =>
      rw [record_of_not_ingest call nofun, perform]
      cases found : registry.find? name with
      | none => exact follows
      | some h => exact follows.put (follows.shows found).settle fun n _ => rfl

end

/-- **A whole run.**  After any run the registry shows the log of the run. -/
theorem follows_registryAfter (setup : Setup) (requests : List (String × Request)) :
    Follows setup.limits (registryAfter setup requests) (logOf (exchanges setup requests)) := by
  -- A run is taken apart at its last request, because that is where a log grows.
  induction requests using List.reverseRecOn with
  | nil => exact follows_empty setup.limits
  | append_singleton past last ih =>
    obtain ⟨now, r⟩ := last
    rw [registryAfter_concat, exchanges_concat, logOf_concat]
    exact ih.answer now r

end Prognosis.Service
