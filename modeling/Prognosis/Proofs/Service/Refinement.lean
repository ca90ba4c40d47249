import Prognosis.Proofs.Service.Log

/-!
# The service as an append-only log

`answers_follow_log`: after any run the tracked nodes are those with a log, each retains the last
samples of its log, and the response to any further request is read off the logs alone.

1. `Follows.samples_eq` and `Follows.mem_names` say what is tracked.
2. `accepted_of_status`, `nodes_map_size` and `perform_predict` read the responses off the logs.
3. `contents_answer` shows that nothing but an accepted batch changes what a registry holds.
-/

namespace Prognosis.Service

section

variable {setup : Setup} {registry : Registry} {log : String → List Sample}
  (follows : Follows setup.limits registry log)

include follows

/-! ## What is tracked -/

/-- A node with a log is tracked and retains the last samples of the log. -/
theorem Follows.samples_eq (name : String) :
    (registry.find? name).map History.toList =
      if log name = [] then none else some (lastOf setup.limits.retained (log name)) := by
  cases found : registry.find? name with
  | none => rw [if_pos (follows.log_eq_nil found), Option.map_none]
  | some h =>
    have shown := follows.shows found
    rw [if_neg shown.1, Option.map_some, shown.2.2]

theorem Follows.mem_names {name : String} : name ∈ registry.names ↔ log name ≠ [] := by
  have eq := follows.samples_eq name
  rw [Registry.mem_names, ← Option.isSome_map (f := History.toList), eq]
  by_cases nothing : log name = [] <;> simp [nothing]

/-! ## Responses -/

/-- A batch answered with 200 is counted onto the log. -/
theorem Follows.accepted_of_status {now name : String} {batch : List Sample}
    (status : (perform setup now registry (.ingest name batch)).1.status = 200) :
    (perform setup now registry (.ingest name batch)).1 =
      .accepted now name batch.length
        (min (log name ++ batch).length setup.limits.retained) := by
  rcases perform_ingest_cases setup now registry name batch with
    ⟨h, found, result⟩ | ⟨new, nothing, result⟩ | ⟨new, some_batch, full, result⟩ |
      ⟨new, some_batch, room, result⟩
  · rw [result, ← ((follows.shows found).extend batch).size]
  · rw [result, nothing, follows.log_eq_nil new, List.append_nil, List.length_nil, Nat.zero_min]
  · rw [result, Response.status_full] at status
    exact absurd status (by decide)
  · rw [result, follows.log_eq_nil new, List.nil_append,
      (shows_firstHistory setup.limits some_batch).size]

theorem Follows.perform_predict (now name : String) :
    (perform setup now registry (.predict name)).1 =
      if log name = [] then .unknown name
      else .predicted (setup.engine.predict (lastOf setup.limits.retained (log name))) name
        (min (log name).length setup.limits.retained) := by
  rw [perform]
  cases found : registry.find? name with
  | none => rw [if_pos (follows.log_eq_nil found)]
  | some h =>
    have shown := follows.shows found
    rw [if_neg shown.1, ← shown.2.2, ← shown.size]

theorem Follows.nodes_map_size :
    registry.nodes.map (fun n => (n.1, n.2.size)) =
      registry.names.map fun name => (name, min (log name).length setup.limits.retained) := by
  rw [Registry.names, List.map_map]
  refine List.map_congr_left fun n mem => ?_
  have shown := follows.shows (Registry.find?_eq_some_iff.2 mem)
  rw [Function.comp_apply, ← shown.size]

end

/-! ## What changes -/

/-- Only a batch that is answered with 200 changes what a registry holds. -/
theorem contents_answer (setup : Setup) (now : String) (registry : Registry) (r : Request)
    (refused : ∀ name batch, r.call? = some (.ingest name batch) →
      (answer setup now registry r).1.status ≠ 200) :
    (answer setup now registry r).2.contents = registry.contents := by
  cases call : r.call? with
  | none => rw [(answer_of_no_call setup now registry call).1]
  | some c =>
    rw [answer_of_call? setup now registry call]
    cases c with
    | list => rfl
    | score samples => rfl
    | predict name =>
      rw [perform]
      cases found : registry.find? name with
      | none => rfl
      | some h => exact Registry.contents_put_settle found
    | ingest name batch =>
      have status := refused name batch call
      rw [response_of_call? setup now registry call, Response.status_sentTo] at status
      rcases perform_ingest_cases setup now registry name batch with
        ⟨h, _, result⟩ | ⟨_, _, result⟩ | ⟨_, _, _, result⟩ | ⟨_, _, _, result⟩
      · rw [result, Response.status_accepted] at status
        exact absurd rfl status
      · rw [result]
      · rw [result]
      · rw [result, Response.status_accepted] at status
        exact absurd rfl status

/-! ## The whole service -/

/-- **Refinement.**  After any run from the empty registry a node is tracked exactly when samples
for it were taken in, and it retains the last of them.  Of any further request, only a batch
answered with 200 changes what is held; what is answered to a batch, to a question for the nodes and
to a question for one node is read off the logs, and every other answer does not depend on them. -/
theorem answers_follow_log (setup : Setup) (requests : List (String × Request)) :
    let registry := registryAfter setup requests
    let log := logOf (exchanges setup requests)
    let retained := setup.limits.retained
    (∀ name, (registry.find? name).map History.toList =
      if log name = [] then none else some (lastOf retained (log name))) ∧
    ∀ (now : String) (r : Request),
      let response := (answer setup now registry r).1
      ((∀ name batch, r.call? = some (.ingest name batch) → response.status ≠ 200) →
        (answer setup now registry r).2.contents = registry.contents) ∧
      (∀ name batch, r.call? = some (.ingest name batch) → response.status = 200 →
        response = (Response.accepted now name batch.length
          (min (log name ++ batch).length retained)).sentTo r) ∧
      (r.call? = some .list → ∃ names : List String,
        names.Pairwise (fun a b => bytes a < bytes b) ∧
        (∀ name, name ∈ names ↔ log name ≠ []) ∧
        response = (Response.listed
          (names.map fun name => (name, min (log name).length retained))).sentTo r) ∧
      (∀ name, r.call? = some (.predict name) →
        response = (if log name = [] then Response.unknown name
          else .predicted (setup.engine.predict (lastOf retained (log name))) name
            (min (log name).length retained)).sentTo r) ∧
      (∀ samples, r.call? = some (.score samples) →
        response = (Response.scored now (setup.engine.predict samples)).sentTo r) ∧
      (r.call? = none → ∀ other, (answer setup now other r).1 = response) := by
  intro registry log retained
  have follows : Follows setup.limits registry log := follows_registryAfter setup requests
  refine ⟨follows.samples_eq, fun now r => ?_⟩
  intro response
  refine ⟨contents_answer setup now registry r, ?_, ?_, ?_, ?_, ?_⟩
  · intro name batch call status
    have answered := response_of_call? setup now registry call
    have performed : (perform setup now registry (.ingest name batch)).1.status = 200 := by
      rw [← Response.status_sentTo _ r, ← answered]
      exact status
    rw [← follows.accepted_of_status performed]
    exact answered
  · intro call
    refine ⟨registry.names, registry.names_bytes_increasing, fun name => follows.mem_names, ?_⟩
    rw [← follows.nodes_map_size]
    exact response_of_call? setup now registry call
  · intro name call
    rw [← follows.perform_predict now name]
    exact response_of_call? setup now registry call
  · intro samples call
    exact response_of_call? setup now registry call
  · intro call
    exact (answer_of_no_call setup now registry call).2

end Prognosis.Service
