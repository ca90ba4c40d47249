import Prognosis.Proofs.Registry
import Prognosis.Service.Answer

/-!
# Calls: what a request comes down to

Most of a request is about how it is addressed and encoded.  `Request.call?` is what is left of a
sound request, and `answer` is `perform` on that call (`answer_of_call?`); a request without a call
is answered without a look at the registry (`answer_of_no_call`).  `perform_ingest_cases` says once
how a batch can fare.
-/

namespace Prognosis.Service

open Document

/-- A sound request, decoded. -/
inductive Call where
  /-- A batch of samples for a node. -/
  | ingest (name : String) (batch : List Sample)
  /-- The list of the tracked nodes. -/
  | list
  /-- The prediction for a node. -/
  | predict (name : String)
  /-- The prediction for samples that are not kept. -/
  | score (samples : List Sample)

/-- The call that a request makes on a route that takes it, none if it is refused there. -/
def Request.callOn? (r : Request) : Route → Option Call
  | .health => none
  | .predict => (decodeBody Batch.request r).toOption.map .score
  | .nodes => some .list
  | .samples segment =>
    match decodeName? segment, decodeBody Batch.batch r with
    | some name, .ok batch => some (.ingest name batch)
    | _, _ => none
  | .prediction segment => (decodeName? segment).map .predict

/-- The call of a request, none if the request is refused or does not concern samples. -/
def Request.call? (r : Request) : Option Call :=
  match Route.ofPath? r.path with
  | none => none
  | some route => if route.takes r.method then r.callOn? route else none

namespace Request

variable {r : Request} {name : String}

theorem call?_eq_some_iff {c : Call} :
    r.call? = some c ↔ ∃ route, Route.ofPath? r.path = some route ∧
      route.takes r.method = true ∧ r.callOn? route = some c := by
  unfold call?
  constructor
  · intro call
    split at call
    · cases call
    · next route path =>
      split at call
      · next method => exact ⟨route, path, method, call⟩
      · cases call
  · rintro ⟨route, path, method, call⟩
    rw [path]
    simp only [if_pos method, call]

theorem callOn?_eq_predict_iff {route : Route} :
    r.callOn? route = some (.predict name) ↔ ∃ segment, route = .prediction segment ∧
      decodeName? segment = some name := by
  constructor
  · intro call
    cases route with
    | prediction segment =>
      obtain ⟨_, decoded, eq⟩ := Option.map_eq_some_iff.1 call
      cases eq
      exact ⟨segment, rfl, decoded⟩
    | samples segment =>
      rw [callOn?] at call
      split at call <;> cases call
    | predict =>
      obtain ⟨_, _, eq⟩ := Option.map_eq_some_iff.1 call
      cases eq
    | health => cases call
    | nodes => cases call
  · rintro ⟨segment, rfl, decoded⟩
    rw [callOn?, decoded, Option.map_some]

end Request

/-! ## Responses -/

namespace Response

/-- A batch was taken in: how many samples it had and how many are retained. -/
def accepted (now name : String) (received buffered : Nat) : Response :=
  json 200
    [ ("data", .table
        [("node", .text name), ("received", .nat received), ("buffered", .nat buffered)]),
      ("meta", stamp now) ]

/-- There is no room for a new node. -/
def full : Response := json 503 [("error", .text "node limit reached")]

/-- A node is not tracked. -/
def unknown (name : String) : Response := json 404 [("error", .text ("unknown node: " ++ name))]

/-- The prediction for a node with so many samples. -/
def predicted (p : Prediction) (name : String) (samples : Nat) : Response :=
  json 200
    [ ("data", p.toValue),
      ("meta", .table [("node", .text name), ("samples", .nat samples)]) ]

/-- The prediction for samples that are not kept. -/
def scored (now : String) (p : Prediction) : Response :=
  json 200 [("data", p.toValue), ("meta", stamp now)]

/-- A list of nodes, each with the number of its samples. -/
def listed (nodes : List (String × Nat)) : Response :=
  json 200
    [ ("data", .list (nodes.map fun (name, samples) =>
        Value.table [("node", .text name), ("samples", .nat samples)])),
      ("meta", .table [("total", .nat nodes.length)]) ]

/-- The member `data` of a response. -/
def data? (response : Response) : Option Value :=
  match response.content with
  | .json v => v.get? "data"
  | .plain _ | .reason => none

/-- The response as it goes out: to `HEAD` without its content. -/
def sentTo (response : Response) (r : Request) : Response :=
  { response with sent := decide (r.method ≠ "HEAD") }

@[simp] theorem status_accepted (now name : String) (received buffered : Nat) :
    (accepted now name received buffered).status = 200 := rfl

@[simp] theorem status_full : full.status = 503 := rfl

@[simp] theorem status_sentTo (response : Response) (r : Request) :
    (response.sentTo r).status = response.status := rfl

@[simp] theorem data?_sentTo (response : Response) (r : Request) :
    (response.sentTo r).data? = response.data? := rfl

end Response

/-! ## Performing a call -/

/-- Does what a call wants. -/
def perform (setup : Setup) (now : String) (registry : Registry) : Call → Response × Registry
  | .ingest name batch =>
    match registry.ingest? setup.limits name batch with
    | none => (.full, registry)
    | some (after, buffered) => (.accepted now name batch.length buffered, after)
  | .list => (.listed (registry.nodes.map fun (name, h) => (name, h.size)), registry)
  | .predict name =>
    match registry.find? name with
    | none => (.unknown name, registry)
    | some h =>
      (.predicted (setup.engine.predict h.toList) name h.size, registry.put name h.settle)
  | .score samples => (.scored now (setup.engine.predict samples), registry)

section

variable (setup : Setup) (now : String) (registry : Registry) {r : Request}

/-- How a batch fares: a known node takes it in, an empty batch for an unknown one is accepted
without effect, and any other is refused or tracked, as there is room. -/
theorem perform_ingest_cases (name : String) (batch : List Sample) :
    (∃ h, registry.find? name = some h ∧
      perform setup now registry (.ingest name batch) =
        (.accepted now name batch.length (h.extend batch).size,
          registry.put name (h.extend batch))) ∨
    (registry.find? name = none ∧ batch = [] ∧
      perform setup now registry (.ingest name batch) = (.accepted now name 0 0, registry)) ∨
    (registry.find? name = none ∧ batch ≠ [] ∧ setup.limits.maxNodes ≤ registry.size ∧
      perform setup now registry (.ingest name batch) = (.full, registry)) ∨
    (registry.find? name = none ∧ batch ≠ [] ∧ registry.size < setup.limits.maxNodes ∧
      perform setup now registry (.ingest name batch) =
        (.accepted now name batch.length (setup.limits.firstHistory batch).size,
          registry.put name (setup.limits.firstHistory batch))) := by
  rw [perform]
  rcases registry.ingest?_cases setup.limits name batch with
    ⟨h, found, result⟩ | ⟨new, nothing, result⟩ | ⟨new, some_batch, full, result⟩ |
      ⟨new, some_batch, room, result⟩
  · rw [result]
    exact .inl ⟨h, found, rfl⟩
  · rw [result, nothing]
    exact .inr (.inl ⟨new, rfl, rfl⟩)
  · rw [result]
    exact .inr (.inr (.inl ⟨new, some_batch, full, rfl⟩))
  · rw [result]
    exact .inr (.inr (.inr ⟨new, some_batch, room, rfl⟩))

theorem list_eq_listed :
    list registry = .listed (registry.nodes.map fun (name, h) => (name, h.size)) := by
  rw [list, Response.listed, List.map_map, List.length_map]
  rfl

theorem ingest_of_ok (name : String) {batch : List Sample}
    (body : decodeBody Batch.batch r = .ok batch) :
    ingest setup now registry name r = perform setup now registry (.ingest name batch) := by
  rw [ingest, body, perform]
  rfl

theorem predict_of_ok {samples : List Sample} (body : decodeBody Batch.request r = .ok samples) :
    predict setup now r = .scored now (setup.engine.predict samples) := by
  rw [predict, body]
  rfl

theorem predictNode_eq_perform (name : String) :
    predictNode setup registry name = perform setup now registry (.predict name) := by
  rw [predictNode, perform]
  rfl

theorem answer_of_route {route : Route} (path : Route.ofPath? r.path = some route)
    (method : route.takes r.method = true) :
    answer setup now registry r =
      ((handle setup now registry r route).1.sentTo r, (handle setup now registry r route).2) := by
  rw [answer, path]
  simp only [if_pos method]
  rfl

/-- A sound request is answered by performing its call. -/
theorem answer_of_call? {c : Call} (h : r.call? = some c) :
    answer setup now registry r =
      ((perform setup now registry c).1.sentTo r, (perform setup now registry c).2) := by
  obtain ⟨route, path, method, call⟩ := Request.call?_eq_some_iff.1 h
  rw [answer_of_route setup now registry path method]
  cases route with
  | health => cases call
  | predict =>
    obtain ⟨samples, decoded, rfl⟩ := Option.map_eq_some_iff.1 call
    cases body : decodeBody Batch.request r with
    | error e => rw [body] at decoded; cases decoded
    | ok _ =>
      rw [body] at decoded
      cases decoded
      rw [handle, predict_of_ok setup now body, perform]
  | nodes =>
    cases call
    rw [handle, list_eq_listed, perform]
  | samples segment =>
    rw [Request.callOn?] at call
    split at call
    · next name batch decoded body =>
      cases call
      rw [handle, withName, decoded]
      simp only [ingest_of_ok setup now registry name body]
    · cases call
  | prediction segment =>
    obtain ⟨name, decoded, rfl⟩ := Option.map_eq_some_iff.1 call
    rw [handle, withName, decoded]
    simp only [predictNode_eq_perform setup now registry]

theorem response_of_call? {c : Call} (h : r.call? = some c) :
    (answer setup now registry r).1 = (perform setup now registry c).1.sentTo r := by
  rw [answer_of_call? setup now registry h]

theorem registry_of_call? {c : Call} (h : r.call? = some c) :
    (answer setup now registry r).2 = (perform setup now registry c).2 := by
  rw [answer_of_call? setup now registry h]

/-- A request without a call changes nothing, and its response does not depend on what is
tracked. -/
theorem answer_of_no_call (h : r.call? = none) :
    (answer setup now registry r).2 = registry ∧
      ∀ other, (answer setup now other r).1 = (answer setup now registry r).1 := by
  unfold Request.call? at h
  cases path : Route.ofPath? r.path with
  | none => simp only [answer, path, implies_true, and_self]
  | some route =>
    by_cases method : route.takes r.method = true
    · simp only [path, if_pos method, Request.callOn?] at h
      simp only [answer_of_route setup now _ path method]
      cases route with
      | health => exact ⟨rfl, fun _ => rfl⟩
      | predict => exact ⟨rfl, fun _ => rfl⟩
      | nodes => cases h
      | samples segment =>
        simp only [handle, withName]
        cases decoded : decodeName? segment with
        | none => exact ⟨rfl, fun _ => rfl⟩
        | some name =>
          cases body : decodeBody Batch.batch r with
          | error e => simp only [ingest, body, implies_true, and_self]
          | ok batch => simp [decoded, body] at h
      | prediction segment =>
        simp only [handle, withName]
        cases decoded : decodeName? segment with
        | none => exact ⟨rfl, fun _ => rfl⟩
        | some name => simp [decoded] at h
    · simp only [answer, path, if_neg method, implies_true, and_self]

end

end Prognosis.Service
