import Prognosis.Proofs.Service.Admission

/-!
# Nodes do not interfere

Where there is room for all nodes that samples are brought for, a node is answered from its own
requests alone (`timeless_responsesFor`): what other nodes are sent, and when, does not show.  So
two runs that agree on the requests of every node, each in its own order, agree on all their
responses up to the moment at which these were made, and they leave the same list of nodes
(`responses_of_interleaving`).
-/

namespace Prognosis.Service

open Document

/-! ## Responses without their moment -/

/-- Changes the member of a table with a name. -/
def changeMember (name : String) (f : Value → Value) : Value → Value
  | .table members => .table (members.map fun m => if m.1 = name then (m.1, f m.2) else m)
  | v => v

/-- A response without the moment at which it was made. -/
def Response.timeless (response : Response) : Response :=
  { response with
    content := match response.content with
      | .json v => .json (changeMember "meta" (changeMember "timestamp" fun _ => .text "") v)
      | content => content }

theorem timeless_accepted (now name : String) (received buffered : Nat) :
    (Response.accepted now name received buffered).timeless =
      .accepted "" name received buffered := by
  simp [Response.timeless, Response.accepted, json, stamp, changeMember]

theorem timeless_health (now : String) : (health now).timeless = health "" := by
  simp [Response.timeless, health, json, stamp, changeMember]

theorem timeless_sentTo (response : Response) (r : Request) :
    (response.sentTo r).timeless = response.timeless.sentTo r := rfl

/-- The moment shows in the timestamp of a refusal or a report on the service, if anywhere. -/
theorem timeless_answer_of_no_call (setup : Setup) (now : String) (registry : Registry)
    {r : Request} (h : r.call? = none) :
    (answer setup now registry r).1.timeless = (answer setup "" registry r).1.timeless := by
  unfold Request.call? at h
  cases path : Route.ofPath? r.path with
  | none => simp only [answer, path]
  | some route =>
    by_cases method : route.takes r.method = true
    · simp only [path, if_pos method, Request.callOn?] at h
      simp only [answer_of_route setup _ registry path method, timeless_sentTo]
      cases route with
      | health => simp only [handle, timeless_health]
      | predict =>
        cases body : decodeBody Batch.request r with
        | error e => simp only [handle, predict, body]
        | ok samples => simp [body, Except.toOption] at h
      | nodes => cases h
      | samples segment =>
        simp only [handle, withName]
        cases decoded : decodeName? segment with
        | none => rfl
        | some name =>
          cases body : decodeBody Batch.batch r with
          | error e => simp only [ingest, body]
          | ok batch => simp [decoded, body] at h
      | prediction segment => rfl
    · simp only [answer, path, if_neg method]

/-! ## The requests of a node -/

/-- The node that a route leads to. -/
def Route.node? : Route → Option String
  | .samples segment | .prediction segment => decodeName? segment
  | _ => none

/-- The node that a request is addressed to. -/
def Request.node? (r : Request) : Option String := (Route.ofPath? r.path).bind Route.node?

/-- The node that a call concerns. -/
def Call.node? : Call → Option String
  | .ingest name _ | .predict name => some name
  | .list | .score _ => none

/-- The samples that a request brings for a node. -/
def Request.samplesFor (name : String) (r : Request) : List Sample :=
  match r.call? with
  | some (.ingest target batch) => if target = name then batch else []
  | _ => []

/-- The requests addressed to a node, in their order. -/
def requestsFor (name : String) (requests : List (String × Request)) : List Request :=
  (requests.map (·.2)).filter fun r => r.node? = some name

/-- All samples that requests bring for a node. -/
def ownSamples (name : String) (rs : List Request) : List Sample :=
  rs.flatMap (Request.samplesFor name)

/-- The responses to the requests addressed to a node, in their order. -/
def responsesFor (setup : Setup) (name : String) (requests : List (String × Request)) :
    List Response :=
  ((exchanges setup requests).filter fun x => x.request.node? = some name).map (·.response)

section

variable {r : Request} {name : String}

theorem node?_of_call? {c : Call} (call : r.call? = some c) : r.node? = c.node? := by
  obtain ⟨route, path, _, call⟩ := Request.call?_eq_some_iff.1 call
  rw [Request.node?, path, Option.bind_some]
  cases route with
  | samples segment =>
    rw [Request.callOn?] at call
    split at call
    · next decoded _ =>
      cases call
      exact decoded
    · cases call
  | prediction segment =>
    obtain ⟨_, decoded, rfl⟩ := Option.map_eq_some_iff.1 call
    exact decoded
  | predict =>
    obtain ⟨_, _, rfl⟩ := Option.map_eq_some_iff.1 call
    rfl
  | health => cases call
  | nodes =>
    cases call
    rfl

theorem samplesFor_of_ne (other : r.node? ≠ some name) : r.samplesFor name = [] := by
  unfold Request.samplesFor
  split
  · next target batch call =>
    refine if_neg fun same => other ?_
    rw [node?_of_call? call, Call.node?, same]
  · rfl

theorem requestsFor_concat (past : List (String × Request)) (now : String) :
    requestsFor name (past ++ [(now, r)]) =
      requestsFor name past ++ if r.node? = some name then [r] else [] := by
  rw [requestsFor, List.map_append, List.filter_append, ← requestsFor]
  by_cases own : r.node? = some name <;> simp [own]

theorem ownSamples_concat (rs : List Request) :
    ownSamples name (rs ++ [r]) = ownSamples name rs ++ r.samplesFor name := by
  rw [ownSamples, List.flatMap_append, List.flatMap_singleton, ← ownSamples]

end

/-! ## Room for all -/

/-- There is room for all nodes that samples are brought for. -/
def Roomy (setup : Setup) (requests : List (String × Request)) : Prop :=
  (arrivals requests).eraseDups.length ≤ setup.limits.maxNodes

section

variable {setup : Setup}

theorem Roomy.left {past later : List (String × Request)} (room : Roomy setup (past ++ later)) :
    Roomy setup past := by
  rw [Roomy, arrivals_append, List.eraseDups_append, List.length_append] at room
  rw [Roomy]
  omega

theorem Roomy.status {past : List (String × Request)} {now : String} {r : Request} {name : String}
    {batch : List Sample} (room : Roomy setup (past ++ [(now, r)]))
    (call : r.call? = some (.ingest name batch)) :
    (answer setup now (registryAfter setup past) r).1.status = 200 := by
  have accepted : (answer setup now (registryAfter setup past) r).1.status ≠ 503 := by
    intro refused
    obtain ⟨some_batch, missing⟩ := (status_eq_503_iff setup past [] now call).1 refused
    have asked : name ∈ arrivals (past ++ [(now, r)]) := by
      rw [arrivals_concat, brings?_of_ingest call, if_neg some_batch, Option.toList_some]
      exact List.mem_append_right _ List.mem_cons_self
    rw [admitted, firsts, List.take_of_length_le room] at missing
    exact missing (List.mem_eraseDups.2 asked)
  rw [response_of_call? setup now _ call, Response.status_sentTo] at accepted ⊢
  rcases perform_ingest_cases setup now (registryAfter setup past) name batch with
    ⟨h, _, result⟩ | ⟨_, _, result⟩ | ⟨_, _, _, result⟩ | ⟨_, _, _, result⟩
  · rw [result, Response.status_accepted]
  · rw [result, Response.status_accepted]
  · rw [result, Response.status_full] at accepted
    exact absurd rfl accepted
  · rw [result, Response.status_accepted]

theorem taken_eq_samplesFor {r : Request} {response : Response}
    (status : ∀ target batch, r.call? = some (.ingest target batch) → response.status = 200)
    (name : String) : Exchange.taken ⟨r, response⟩ name = r.samplesFor name := by
  cases call : r.call? with
  | none => simp only [Exchange.taken, Request.samplesFor, call]
  | some c =>
    cases c with
    | ingest target batch =>
      simp only [Exchange.taken, Request.samplesFor, call, status target batch call, and_true]
    | list => simp only [Exchange.taken, Request.samplesFor, call]
    | predict target => simp only [Exchange.taken, Request.samplesFor, call]
    | score samples => simp only [Exchange.taken, Request.samplesFor, call]

/-- Where there is room, the log of a node is what its own requests bring. -/
theorem logOf_exchanges {requests : List (String × Request)} (room : Roomy setup requests)
    (name : String) :
    logOf (exchanges setup requests) name = ownSamples name (requestsFor name requests) := by
  induction requests using List.reverseRecOn with
  | nil => rfl
  | append_singleton past last ih =>
    obtain ⟨now, r⟩ := last
    have status (target : String) (batch : List Sample)
        (call : r.call? = some (.ingest target batch)) :
        (answer setup now (registryAfter setup past) r).1.status = 200 := room.status call
    have taken := taken_eq_samplesFor status name
    rw [exchanges_concat, logOf_concat, record, ih room.left, requestsFor_concat, taken]
    by_cases own : r.node? = some name
    · rw [if_pos own, ownSamples_concat]
    · rw [if_neg own, List.append_nil, samplesFor_of_ne own, List.append_nil]

end

/-! ## Replies to a node of its own -/

/-- What is answered to a request of a node that has brought so many samples before. -/
def replyTo (setup : Setup) (name : String) (log : List Sample) (r : Request) : Response :=
  match r.call? with
  | some (.ingest _ batch) =>
    (Response.accepted "" name batch.length
      (min (log ++ batch).length setup.limits.retained)).sentTo r
  | some (.predict _) =>
    (if log = [] then Response.unknown name
      else .predicted (setup.engine.predict (lastOf setup.limits.retained log)) name
        (min log.length setup.limits.retained)).sentTo r
  | _ => (answer setup "" .empty r).1.timeless

/-- What is answered to the requests of a node, one after the other. -/
def repliesTo (setup : Setup) (name : String) : List Sample → List Request → List Response
  | _, [] => []
  | log, r :: rs => replyTo setup name log r :: repliesTo setup name (log ++ r.samplesFor name) rs

theorem repliesTo_concat (setup : Setup) (name : String) (log : List Sample) (rs : List Request)
    (r : Request) :
    repliesTo setup name log (rs ++ [r]) =
      repliesTo setup name log rs ++ [replyTo setup name (log ++ ownSamples name rs) r] := by
  induction rs generalizing log with
  | nil =>
    rw [List.nil_append, ownSamples, List.flatMap_nil, List.append_nil]
    rfl
  | cons first rs ih =>
    rw [List.cons_append, repliesTo, ih, repliesTo, List.cons_append, List.append_assoc]
    rfl

section

variable {setup : Setup}

/-- **One request.**  A request of a node is answered from the log of that node. -/
theorem timeless_answer_of_follows {registry : Registry} {log : String → List Sample}
    (follows : Follows setup.limits registry log) {now : String} {r : Request} {name : String}
    (node : r.node? = some name)
    (status : ∀ target batch, r.call? = some (.ingest target batch) →
      (answer setup now registry r).1.status = 200) :
    (answer setup now registry r).1.timeless = replyTo setup name (log name) r := by
  cases call : r.call? with
  | none =>
    rw [timeless_answer_of_no_call setup now registry call, replyTo, call,
      (answer_of_no_call setup "" .empty call).2]
  | some c =>
    have answered := response_of_call? setup now registry call
    have concerns := (node?_of_call? call).symm.trans node
    cases c with
    | ingest target batch =>
      obtain rfl : target = name := Option.some_inj.1 concerns
      have performed := status target batch call
      rw [answered, Response.status_sentTo] at performed
      rw [answered, follows.accepted_of_status performed, timeless_sentTo, timeless_accepted,
        replyTo, call]
    | predict target =>
      obtain rfl : target = name := Option.some_inj.1 concerns
      rw [answered, follows.perform_predict, timeless_sentTo, replyTo, call]
      split
      · rfl
      · rfl
    | list => cases concerns
    | score samples => cases concerns

end

/-! ## A whole run -/

section

variable {setup : Setup}

theorem responsesFor_concat (name : String) (past : List (String × Request)) (now : String)
    (r : Request) :
    responsesFor setup name (past ++ [(now, r)]) =
      responsesFor setup name past ++
        if r.node? = some name then [(answer setup now (registryAfter setup past) r).1]
        else [] := by
  rw [responsesFor, exchanges_concat, List.filter_append, List.map_append, ← responsesFor]
  by_cases own : r.node? = some name <;> simp [own]

/-- **Isolation.**  Where there is room, the responses to the requests of a node are the replies to
a node of its own. -/
theorem timeless_responsesFor {requests : List (String × Request)} (room : Roomy setup requests)
    (name : String) :
    (responsesFor setup name requests).map Response.timeless =
      repliesTo setup name [] (requestsFor name requests) := by
  induction requests using List.reverseRecOn with
  | nil => rfl
  | append_singleton past last ih =>
    obtain ⟨now, r⟩ := last
    rw [responsesFor_concat, requestsFor_concat, List.map_append, ih room.left]
    by_cases own : r.node? = some name
    · have reply := timeless_answer_of_follows (follows_registryAfter setup past) own
        fun _ _ call => room.status call
      rw [if_pos own, if_pos own, repliesTo_concat, List.map_singleton, reply,
        logOf_exchanges room.left, List.nil_append]
    · rw [if_neg own, if_neg own, List.map_nil, List.append_nil, List.append_nil]

end

/-! ## Two runs -/

section

variable {setup : Setup} {requests others : List (String × Request)}

theorem mem_arrivals_iff {name : String} :
    name ∈ arrivals requests ↔ ∃ r ∈ requestsFor name requests, r.brings? = some name := by
  have addressed {r : Request} (brings : r.brings? = some name) : r.node? = some name := by
    unfold Request.brings? at brings
    split at brings
    · next target batch call =>
      split at brings
      · cases brings
      · cases brings
        exact node?_of_call? call
    · cases brings
  rw [arrivals, List.mem_filterMap]
  constructor
  · rintro ⟨⟨now, r⟩, mem, brings⟩
    refine ⟨r, List.mem_filter.2 ⟨List.mem_map.2 ⟨(now, r), mem, rfl⟩, ?_⟩, brings⟩
    exact decide_eq_true (addressed brings)
  · rintro ⟨r, mem, brings⟩
    obtain ⟨request, given, rfl⟩ := List.mem_map.1 (List.mem_filter.1 mem).1
    exact ⟨request, given, brings⟩

variable (same : ∀ name, requestsFor name requests = requestsFor name others)

include same

/-- Runs that agree on the requests of every node need the same room. -/
theorem Roomy.congr (room : Roomy setup requests) : Roomy setup others := by
  have perm : (arrivals others).eraseDups.Perm (arrivals requests).eraseDups := by
    rw [List.perm_ext_iff_of_nodup (nodup_eraseDups _) (nodup_eraseDups _)]
    intro name
    rw [List.mem_eraseDups, List.mem_eraseDups, mem_arrivals_iff, mem_arrivals_iff, same]
  rw [Roomy, perm.length_eq]
  exact room

theorem logOf_congr (room : Roomy setup requests) (name : String) :
    logOf (exchanges setup requests) name = logOf (exchanges setup others) name := by
  rw [logOf_exchanges room, logOf_exchanges (room.congr same), same]

/-- Runs that agree on the requests of every node leave the same nodes, in the same order. -/
theorem names_congr (room : Roomy setup requests) :
    (registryAfter setup requests).names = (registryAfter setup others).names := by
  have increasing (registry : Registry) : registry.names.Pairwise (· < ·) :=
    List.pairwise_map.2 registry.increasing
  have nodup (registry : Registry) : registry.names.Nodup := by
    refine List.Pairwise.imp (fun lt => ?_) (increasing registry)
    rintro rfl
    exact String.lt_irrefl _ lt
  have perm : (registryAfter setup requests).names.Perm (registryAfter setup others).names := by
    rw [List.perm_ext_iff_of_nodup (nodup _) (nodup _)]
    intro name
    rw [(follows_registryAfter setup requests).mem_names,
      (follows_registryAfter setup others).mem_names, logOf_congr same room]
  exact perm.eq_of_pairwise (fun _ _ _ _ before after => absurd after (String.lt_asymm before))
    (increasing _) (increasing _)

/-- **Interference.**  Take two runs that agree on the requests of every node, each node's in its
own order, with room for all nodes that samples are brought for.  Then every request addressed to a
node gets the same response in both, up to the moment at which it was made, and a question for the
list of nodes after the runs gets the same response. -/
theorem responses_of_interleaving (room : Roomy setup requests) :
    (∀ name, (responsesFor setup name requests).map Response.timeless =
      (responsesFor setup name others).map Response.timeless) ∧
    ∀ (now later : String) (r : Request), r.call? = some .list →
      (answer setup now (registryAfter setup requests) r).1 =
        (answer setup later (registryAfter setup others) r).1 := by
  constructor
  · intro name
    rw [timeless_responsesFor room, timeless_responsesFor (room.congr same), same]
  · intro now later r call
    have sizes : (registryAfter setup requests).nodes.map (fun n => (n.1, n.2.size)) =
        (registryAfter setup others).nodes.map fun n => (n.1, n.2.size) := by
      rw [(follows_registryAfter setup requests).nodes_map_size,
        (follows_registryAfter setup others).nodes_map_size, names_congr same room]
      simp only [logOf_congr same room]
    rw [response_of_call? setup now _ call, response_of_call? setup later _ call, perform, perform]
    exact congrArg (fun nodes => (Response.listed nodes).sentTo r) sizes

end

/-- Two nodes send a batch each, and one asks for its prediction, in two orders. -/
theorem responses_of_two_nodes :
    let send (path : String) : Request :=
      { method := "POST", path, contentType := some "application/json", body := "[[]]".toByteArray }
    let ask (path : String) : Request := { method := "GET", path }
    let first := send "/api/v1/nodes/a/samples"
    let second := send "/api/v1/nodes/b/samples"
    let question := ask "/api/v1/nodes/a/prediction"
    let setup : Setup := ⟨.standard, ⟨1, 2⟩⟩
    let requests := [("1", first), ("2", second), ("3", question)]
    let others := [("4", second), ("5", ask "/api/v1/nodes"), ("6", first), ("7", question)]
    Roomy setup requests ∧ (∀ name, requestsFor name requests = requestsFor name others) ∧
      (responsesFor setup "a" requests).map Response.timeless =
        (responsesFor setup "a" others).map Response.timeless := by
  intro send ask first second question setup requests others
  have first_node : first.node? = some "a" := by decide +kernel
  have second_node : second.node? = some "b" := by decide +kernel
  have question_node : question.node? = some "a" := by decide +kernel
  have list_node : (ask "/api/v1/nodes").node? = none := by decide +kernel
  have room : Roomy setup requests := by
    rw [Roomy]
    decide +kernel
  have same (name : String) : requestsFor name requests = requestsFor name others := by
    by_cases a : "a" = name
    · subst a
      simp [requestsFor, requests, others, first_node, second_node, question_node, list_node]
    · by_cases b : "b" = name <;>
        simp [requestsFor, requests, others, first_node, second_node, question_node, list_node, a,
          b]
  exact ⟨room, same, (responses_of_interleaving same room).1 "a"⟩

end Prognosis.Service
