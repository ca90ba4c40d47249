import Mathlib.Data.List.Infix
import Prognosis.Proofs.Service.Refinement

/-!
# Admission

A node asks for a place with its first samples, and places go to whoever asks first.  `firsts n`
takes the first `n` distinct values of a list; `names_perm_answer` is the step and
`names_perm_admitted` the run: the tracked nodes are the first `maxNodes` that asked.  Since
`firsts` only grows (`firsts_isPrefix`), no place is ever taken away.
-/

namespace Prognosis

/-! ## The first distinct values -/

section

variable {β : Type} [BEq β] [LawfulBEq β]

/-- The first `n` distinct values of a list, in their order. -/
def firsts (n : Nat) (xs : List β) : List β := xs.eraseDups.take n

theorem mem_of_mem_firsts {n : Nat} {xs : List β} {x : β} (mem : x ∈ firsts n xs) : x ∈ xs :=
  List.mem_eraseDups.1 (List.mem_of_mem_take mem)

omit [LawfulBEq β] in
theorem length_firsts (n : Nat) (xs : List β) :
    (firsts n xs).length = min n xs.eraseDups.length := List.length_take

theorem eraseDups_concat_of_mem {xs : List β} {x : β} (mem : x ∈ xs) :
    (xs ++ [x]).eraseDups = xs.eraseDups := by
  have again : [x].removeAll xs = [] := by simp [List.removeAll, mem]
  rw [List.eraseDups_append, again, List.eraseDups_nil, List.append_nil]

theorem eraseDups_concat_of_not_mem {xs : List β} {x : β} (new : x ∉ xs) :
    (xs ++ [x]).eraseDups = xs.eraseDups ++ [x] := by
  have first : [x].removeAll xs = [x] := by simp [List.removeAll, new]
  rw [List.eraseDups_append, first]
  rfl

theorem nodup_eraseDups (xs : List β) : xs.eraseDups.Nodup := by
  induction xs using List.reverseRecOn with
  | nil => exact .nil
  | append_singleton xs x ih =>
    by_cases mem : x ∈ xs
    · rw [eraseDups_concat_of_mem mem]
      exact ih
    · have new : x ∉ xs.eraseDups := fun h => mem (List.mem_eraseDups.1 h)
      rw [eraseDups_concat_of_not_mem mem]
      refine List.nodup_append.2 ⟨ih, List.pairwise_singleton _ x, fun y mem z last eq => new ?_⟩
      rw [← List.mem_singleton.1 last, ← eq]
      exact mem

theorem firsts_concat_of_mem (n : Nat) {xs : List β} {x : β} (mem : x ∈ xs) :
    firsts n (xs ++ [x]) = firsts n xs := by
  rw [firsts, eraseDups_concat_of_mem mem, firsts]

/-- After `n` distinct values all others come too late. -/
theorem firsts_concat_of_full {n : Nat} {xs : List β} (full : n ≤ (firsts n xs).length) (x : β) :
    firsts n (xs ++ [x]) = firsts n xs := by
  rw [length_firsts] at full
  by_cases mem : x ∈ xs
  · exact firsts_concat_of_mem n mem
  · rw [firsts, eraseDups_concat_of_not_mem mem, List.take_append_of_le_length (by omega), firsts]

theorem firsts_concat_of_room {n : Nat} {xs : List β} (room : (firsts n xs).length < n) {x : β}
    (new : x ∉ firsts n xs) : firsts n (xs ++ [x]) = firsts n xs ++ [x] := by
  rw [length_firsts] at room
  have all : firsts n xs = xs.eraseDups := List.take_of_length_le (by omega)
  have new : x ∉ xs := fun mem => new (by rw [all]; exact List.mem_eraseDups.2 mem)
  rw [all, firsts, eraseDups_concat_of_not_mem new, List.take_of_length_le]
  rw [List.length_append, List.length_singleton]
  omega

theorem firsts_isPrefix (n : Nat) (xs ys : List β) : firsts n xs <+: firsts n (xs ++ ys) := by
  rw [firsts, firsts, List.eraseDups_append]
  exact List.IsPrefix.take (List.prefix_append _ _) n

/-- Whether a value is among the first is settled once it has come. -/
theorem mem_firsts_append_iff (n : Nat) {xs ys : List β} {x : β} (mem : x ∈ xs) :
    x ∈ firsts n (xs ++ ys) ↔ x ∈ firsts n xs := by
  constructor
  · intro found
    rw [firsts, List.eraseDups_append, List.take_append, List.mem_append] at found
    rcases found with found | found
    · exact found
    · have fresh := List.mem_eraseDups.1 (List.mem_of_mem_take found)
      simp [List.removeAll, mem] at fresh
  · intro found
    exact (firsts_isPrefix n xs ys).subset found

end

namespace Service

/-! ## Asking for a place -/

/-- The node that a request brings samples for. -/
def Request.brings? (r : Request) : Option String :=
  match r.call? with
  | some (.ingest name batch) => if batch = [] then none else some name
  | _ => none

/-- The nodes that samples are brought for, once for each batch. -/
def arrivals (requests : List (String × Request)) : List String :=
  requests.filterMap fun r => r.2.brings?

/-- The nodes that get a place: the first `maxNodes` that samples are brought for. -/
def admitted (maxNodes : Nat) (requests : List (String × Request)) : List String :=
  firsts maxNodes (arrivals requests)

theorem arrivals_append (past later : List (String × Request)) :
    arrivals (past ++ later) = arrivals past ++ arrivals later := List.filterMap_append

theorem admitted_isPrefix (maxNodes : Nat) (past later : List (String × Request)) :
    admitted maxNodes past <+: admitted maxNodes (past ++ later) := by
  rw [admitted, admitted, arrivals_append]
  exact firsts_isPrefix maxNodes _ _

section

variable {r : Request} {name : String} {batch : List Sample}

theorem brings?_of_ingest (call : r.call? = some (.ingest name batch)) :
    r.brings? = if batch = [] then none else some name := by
  rw [Request.brings?, call]

theorem arrivals_concat (past : List (String × Request)) (now : String) :
    arrivals (past ++ [(now, r)]) = arrivals past ++ r.brings?.toList := by
  rw [arrivals_append]
  cases brought : r.brings? with
  | none => simp [arrivals, brought]
  | some name => simp [arrivals, brought]

end

/-! ## One request -/

section

variable {setup : Setup} {registry : Registry} {seen : List String}
  (perm : registry.names.Perm (firsts setup.limits.maxNodes seen))

include perm

/-- Performing a call keeps the tracked nodes to the first that asked. -/
theorem names_perm_ingest {r : Request} {name : String} {batch : List Sample}
    (call : r.call? = some (.ingest name batch)) (now : String) :
    (perform setup now registry (.ingest name batch)).2.names.Perm
      (firsts setup.limits.maxNodes (seen ++ r.brings?.toList)) := by
  rw [brings?_of_ingest call]
  have size : registry.size = (firsts setup.limits.maxNodes seen).length := by
    rw [← registry.length_names, perm.length_eq]
  rcases perform_ingest_cases setup now registry name batch with
    ⟨h, found, result⟩ | ⟨new, nothing, result⟩ | ⟨new, some_batch, full, result⟩ |
      ⟨new, some_batch, room, result⟩
  · -- A tracked node has asked before, so this batch is no new arrival.
    have known : (registry.find? name).isSome := by rw [found, Option.isSome_some]
    have asked : name ∈ seen :=
      mem_of_mem_firsts (perm.mem_iff.1 (Registry.mem_names.2 known))
    rw [result, Registry.names_put_of_found _ known]
    by_cases nothing : batch = []
    · rw [if_pos nothing, Option.toList_none, List.append_nil]
      exact perm
    · rw [if_neg nothing, Option.toList_some, firsts_concat_of_mem _ asked]
      exact perm
  · rw [result, if_pos nothing, Option.toList_none, List.append_nil]
    exact perm
  · rw [result, if_neg some_batch, Option.toList_some, firsts_concat_of_full (by omega)]
    exact perm
  · have unknown : name ∉ firsts setup.limits.maxNodes seen := by
      rw [← perm.mem_iff, Registry.mem_names, new]
      exact Bool.false_ne_true
    rw [result, if_neg some_batch, Option.toList_some, firsts_concat_of_room (by omega) unknown]
    exact (Registry.names_put_of_new _ new).trans (perm.append_right [name])

/-- **One request.**  Answering a request keeps the tracked nodes to the first that asked. -/
theorem names_perm_answer (now : String) (r : Request) :
    (answer setup now registry r).2.names.Perm
      (firsts setup.limits.maxNodes (seen ++ r.brings?.toList)) := by
  by_cases ingests : ∃ name batch, r.call? = some (.ingest name batch)
  · obtain ⟨name, batch, call⟩ := ingests
    rw [registry_of_call? setup now registry call]
    exact names_perm_ingest perm call now
  · have no_batch : r.brings? = none := by
      unfold Request.brings?
      split
      · next name batch call => exact absurd ⟨name, batch, call⟩ ingests
      · rfl
    have same := contents_answer setup now registry r fun name batch call =>
      absurd ⟨name, batch, call⟩ ingests
    rw [Registry.names_eq_of_contents same, no_batch, Option.toList_none, List.append_nil]
    exact perm

end

/-! ## A whole run -/

/-- **A whole run.**  After any run the tracked nodes are the first that asked. -/
theorem names_perm_admitted (setup : Setup) (requests : List (String × Request)) :
    (registryAfter setup requests).names.Perm (admitted setup.limits.maxNodes requests) := by
  induction requests using List.reverseRecOn with
  | nil =>
    have nobody : admitted setup.limits.maxNodes [] = [] := List.take_nil
    rw [nobody]
    exact .nil
  | append_singleton past last ih =>
    obtain ⟨now, r⟩ := last
    rw [registryAfter_concat, admitted, arrivals_concat]
    exact names_perm_answer ih now r

/-! ## Refusals -/

section

variable (setup : Setup) (now : String) (registry : Registry) (name : String)
  (batch : List Sample)

/-- A batch is refused exactly when it has samples and its node is not tracked even then. -/
theorem status_ingest_eq_503_iff :
    (perform setup now registry (.ingest name batch)).1.status = 503 ↔
      batch ≠ [] ∧ name ∉ (perform setup now registry (.ingest name batch)).2.names := by
  have tracked (h : History Sample) : name ∈ (registry.put name h).names := by
    rw [Registry.mem_names, Registry.find?_put, if_pos rfl, Option.isSome_some]
  rcases perform_ingest_cases setup now registry name batch with
    ⟨h, found, result⟩ | ⟨new, nothing, result⟩ | ⟨new, some_batch, full, result⟩ |
      ⟨new, some_batch, room, result⟩
  · rw [result]
    exact iff_of_false (by simp) fun h => h.2 (tracked _)
  · rw [result]
    exact iff_of_false (by simp) fun h => h.1 nothing
  · rw [result]
    refine iff_of_true Response.status_full ⟨some_batch, ?_⟩
    rw [Registry.mem_names, new]
    exact Bool.false_ne_true
  · rw [result]
    exact iff_of_false (by simp) fun h => h.2 (tracked _)

/-- A refused batch changes nothing at all. -/
theorem perform_ingest_of_refused
    (refused : (perform setup now registry (.ingest name batch)).1.status = 503) :
    (perform setup now registry (.ingest name batch)).2 = registry := by
  rcases perform_ingest_cases setup now registry name batch with
    ⟨h, _, result⟩ | ⟨_, _, result⟩ | ⟨_, _, _, result⟩ | ⟨_, _, _, result⟩
  · rw [result, Response.status_accepted] at refused
    exact absurd refused (by decide)
  · rw [result]
  · rw [result]
  · rw [result, Response.status_accepted] at refused
    exact absurd refused (by decide)

theorem perform_ingest_nil (new : name ∉ registry.names) :
    perform setup now registry (.ingest name []) = (.accepted now name 0 0, registry) := by
  rcases perform_ingest_cases setup now registry name [] with
    ⟨h, found, _⟩ | ⟨_, _, result⟩ | ⟨_, some_batch, _⟩ | ⟨_, some_batch, _⟩
  · exact absurd (Registry.mem_names.2 (by rw [found, Option.isSome_some])) new
  · exact result
  · exact absurd rfl some_batch
  · exact absurd rfl some_batch

end

/-! ## Admission -/

/-- A node that a request brings samples for is answered as all requests up to then decide, and no
later request changes that. -/
theorem status_eq_503_iff (setup : Setup) (requests later : List (String × Request))
    (now : String) {r : Request} {name : String} {batch : List Sample}
    (call : r.call? = some (.ingest name batch)) :
    (answer setup now (registryAfter setup requests) r).1.status = 503 ↔
      batch ≠ [] ∧ name ∉ admitted setup.limits.maxNodes (requests ++ (now, r) :: later) := by
  have perm := names_perm_admitted setup (requests ++ [(now, r)])
  rw [registryAfter_concat, registry_of_call? setup now _ call] at perm
  rw [response_of_call? setup now _ call, Response.status_sentTo, status_ingest_eq_503_iff]
  refine and_congr_right fun some_batch => ?_
  have asked : name ∈ arrivals (requests ++ [(now, r)]) := by
    rw [arrivals_concat, brings?_of_ingest call, if_neg some_batch, Option.toList_some]
    exact List.mem_append_right _ List.mem_cons_self
  rw [perm.mem_iff, admitted, admitted, List.append_cons requests (now, r) later,
    arrivals_append _ later, mem_firsts_append_iff _ asked]

/-- A node keeps its place. -/
theorem mem_names_append (setup : Setup) {requests : List (String × Request)} {name : String}
    (tracked : name ∈ (registryAfter setup requests).names) (later : List (String × Request)) :
    name ∈ (registryAfter setup (requests ++ later)).names := by
  rw [(names_perm_admitted setup _).mem_iff] at tracked ⊢
  exact (admitted_isPrefix _ _ _).subset tracked

/-- **Admission.**  After any run the tracked nodes are the first `maxNodes` that samples were
brought for.  A batch is answered with 503 exactly when it has samples and its node is not among
these, and then it changes nothing; an empty batch for an unknown node is accepted and changes
nothing either.  A tracked node stays tracked and is never refused. -/
theorem first_come_first_served (setup : Setup) (requests : List (String × Request)) :
    let registry := registryAfter setup requests
    let maxNodes := setup.limits.maxNodes
    registry.names.Perm (admitted maxNodes requests) ∧
    registry.size ≤ maxNodes ∧
    (∀ (now : String) (r : Request) (name : String) (batch : List Sample),
      r.call? = some (.ingest name batch) →
      let result := answer setup now registry r
      (∀ later, result.1.status = 503 ↔
        batch ≠ [] ∧ name ∉ admitted maxNodes (requests ++ (now, r) :: later)) ∧
      (result.1.status = 503 → result.2 = registry) ∧
      (batch = [] → name ∉ registry.names →
        result = ((Response.accepted now name 0 0).sentTo r, registry))) ∧
    (∀ name ∈ registry.names, ∀ later,
      name ∈ (registryAfter setup (requests ++ later)).names ∧
      ∀ (now : String) (r : Request) (batch : List Sample),
        r.call? = some (.ingest name batch) →
        (answer setup now (registryAfter setup (requests ++ later)) r).1.status ≠ 503) := by
  intro registry maxNodes
  have perm : registry.names.Perm (admitted maxNodes requests) :=
    names_perm_admitted setup requests
  refine ⟨perm, ?_, ?_, ?_⟩
  · rw [← registry.length_names, perm.length_eq, admitted, length_firsts]
    exact Nat.min_le_left _ _
  · intro now r name batch call result
    refine ⟨fun later => status_eq_503_iff setup requests later now call, ?_, ?_⟩
    · intro refused
      have status : (perform setup now registry (.ingest name batch)).1.status = 503 := by
        rw [← Response.status_sentTo _ r, ← response_of_call? setup now registry call]
        exact refused
      rw [← perform_ingest_of_refused setup now registry name batch status]
      exact registry_of_call? setup now registry call
    · rintro rfl new
      have performed := answer_of_call? setup now registry call
      rw [perform_ingest_nil setup now registry name new] at performed
      exact performed
  · intro name tracked later
    have still := mem_names_append setup tracked later
    refine ⟨still, fun now r batch call refused => ?_⟩
    have missing := ((status_eq_503_iff setup (requests ++ later) [] now call).1 refused).2
    rw [(names_perm_admitted setup _).mem_iff] at still
    exact missing ((admitted_isPrefix _ _ _).subset still)

/-- With one place the second node is refused, and the first still gets its batches in. -/
example :
    let batch (path : String) : Request :=
      { method := "POST", path, contentType := some "application/json", body := "[[]]".toByteArray }
    let first := batch "/api/v1/nodes/a/samples"
    let second := batch "/api/v1/nodes/b/samples"
    let setup : Setup := ⟨.standard, ⟨1, 1⟩⟩
    (answerAll setup .empty [("", first), ("", second), ("", first)]).1.map (·.status) =
      [200, 503, 200] := by
  decide +kernel

end Service

end Prognosis
