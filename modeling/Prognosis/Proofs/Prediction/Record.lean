import Prognosis.Json.Reader
import Prognosis.Prediction.Record
import Prognosis.Proofs.Document.Record
import Prognosis.Proofs.Json.Reader

/-!
# Predictions there and back

A prediction whose numbers are percentages is decoded from its own table
(`Prediction.decode_toValue`), and since that table has no other numbers, from its own lines as well
(`Prediction.reads_pretty`), whatever texts are in it.
-/

namespace Prognosis

open Document Decoder Json

/-! ## Decoding -/

theorem Issue.decode_toValue (i : Issue) (dialect : Dialect) :
    decode dialect i.toValue.toNode = .ok i := by
  have taken : Record.read dialect (fields dialect) {} i.toValue.toNode =
      .ok ⟨some i.metric, some i.severity, some i.description, some i.trend,
        some i.trendRate⟩ := by
    refine Record.read_toNode ?_ dialect
    rw [Record.members_of rfl (by simp) (i.metric.named_name _),
      Record.members_of rfl (by simp) (i.severity.named_name _),
      Record.members_of rfl (by simp) (text_toNode _),
      Record.members_of rfl (by simp) (i.trend.named_name _),
      Record.members_of rfl (by simp) (text_toNode _)]
    rfl
  unfold decode
  rw [taken]
  rfl

theorem optional_toNode (s : Option String) :
    optional text (Value.ofText? s).toNode = .ok s := by
  cases s <;> rfl

namespace Prediction

/-- **Records.**  A prediction is decoded from its own table. -/
theorem decode_toValue {p : Prediction} (probability : p.failureProbability < 256)
    (confidence : p.confidence < 256) (dialect : Dialect) :
    decode dialect p.toValue.toNode = .ok p := by
  have issues := list_toNode (fun i => Issue.decode_toValue i dialect) p.issues
  have taken : Record.read dialect (fields dialect) {} p.toValue.toNode =
      .ok ⟨some p.status, some p.failureProbability, p.timeToFailure, some p.confidence,
        some p.issues, some p.recommendation⟩ := by
    refine Record.read_toNode ?_ dialect
    rw [Record.members_of rfl (by simp) (p.status.named_name _),
      Record.members_of rfl (by simp) (nat_toNode probability),
      Record.members_of rfl (by simp) (optional_toNode _),
      Record.members_of rfl (by simp) (nat_toNode confidence),
      Record.members_of rfl (by simp) issues,
      Record.members_of rfl (by simp) (text_toNode _)]
    rfl
  unfold decode
  rw [taken]
  rfl

end Prediction

/-! ## Texts -/

theorem Issue.legible_toValue (i : Issue) : Legible i.toValue := by
  apply Legible.table
  simp only [List.forall_mem_cons]
  exact ⟨.text _, .text _, .text _, .text _, .text _, List.forall_mem_nil _⟩

namespace Prediction

variable {p : Prediction}

theorem legible_toValue (probability : p.failureProbability < 256)
    (confidence : p.confidence < 256) : Legible p.toValue := by
  have small {n : ℕ} (byte : n < 256) : n < UInt64.size := by
    have : UInt64.size = 2 ^ 64 := rfl
    omega
  have time : Legible (Value.ofText? p.timeToFailure) := by
    cases p.timeToFailure with
    | none => exact .null
    | some s => exact .text s
  have issues : Legible (.list (p.issues.map Issue.toValue)) := by
    apply Legible.list
    intro v mem
    obtain ⟨i, -, rfl⟩ := List.mem_map.1 mem
    exact i.legible_toValue
  apply Legible.table
  simp only [List.forall_mem_cons]
  exact ⟨.text _, legible_nat (small probability), time, legible_nat (small confidence), issues,
    .text _, List.forall_mem_nil _⟩

theorem depth_toValue (p : Prediction) : p.toValue.toNode.depth ≤ 3 := by
  have issues : ∀ is : List Issue, depthOfItems (nodesOf (is.map Issue.toValue)) ≤ 1 := by
    intro is
    induction is with
    | nil => exact Nat.zero_le 1
    | cons i is ih =>
      rw [List.map_cons, nodesOf, depthOfItems]
      exact max_le (by rfl) ih
  have time : (Value.ofText? p.timeToFailure).toNode.depth = 0 := by
    cases p.timeToFailure <;> rfl
  have := issues p.issues
  simp [toValue, Value.toNode, memberNodesOf, Node.depth, depthOfMembers, time, Value.nat]
  omega

/-- **Texts.**  A prediction is read back from its lines. -/
theorem reads_pretty (probability : p.failureProbability < 256)
    (confidence : p.confidence < 256) : Reads p.toValue (pretty p.toValue) :=
  (legible_toValue probability confidence).reads_prettyAt 0

end Prediction

end Prognosis
