import Prognosis.Proofs.Json.ReadBack
import Prognosis.Proofs.Sample.Overlay

/-!
# Samples read back

A sample is decoded from its own table (`Sample.decode_toValue`).  The text of that table is read as
the table of the same instant, the same counts, and every quantity as it is read back
(`Sample.rereads_toValue`).  So the sample is the same where all quantities are short
(`Sample.mapQuantities_eq_self`), and within a few roundings otherwise (`Sample.decode_written`).
-/

namespace Prognosis

open Binary64 Document Decoder Calendar

namespace Sample

/-! ## Tables -/

/-- The measured quantities of a sample. -/
def quantities (s : Sample) : List Float :=
  [s.cpuUsage, s.cpuIdle, s.memoryUsed, s.memoryTotal, s.diskReadRate, s.diskWriteRate,
    s.networkLatencyMs, s.networkThroughput, s.queryLatencyP50Ms, s.queryLatencyP95Ms,
    s.queryLatencyP99Ms, s.errorRate, s.utilizationScore]

/-- A sample with its quantities changed; the instant and the counts stay. -/
def mapQuantities (f : Float → Float) (s : Sample) : Sample :=
  { s with
    cpuUsage := f s.cpuUsage
    cpuIdle := f s.cpuIdle
    memoryUsed := f s.memoryUsed
    memoryTotal := f s.memoryTotal
    diskReadRate := f s.diskReadRate
    diskWriteRate := f s.diskWriteRate
    networkLatencyMs := f s.networkLatencyMs
    networkThroughput := f s.networkThroughput
    queryLatencyP50Ms := f s.queryLatencyP50Ms
    queryLatencyP95Ms := f s.queryLatencyP95Ms
    queryLatencyP99Ms := f s.queryLatencyP99Ms
    errorRate := f s.errorRate
    utilizationScore := f s.utilizationScore }

theorem mapQuantities_eq_self {f : Float → Float} {s : Sample}
    (kept : ∀ x ∈ s.quantities, f x = x) : s.mapQuantities f = s := by
  simp only [quantities, List.forall_mem_cons] at kept
  obtain ⟨h₁, h₂, h₃, h₄, h₅, h₆, h₇, h₈, h₉, h₁₀, h₁₁, h₁₂, h₁₃, -⟩ := kept
  unfold mapQuantities
  rw [h₁, h₂, h₃, h₄, h₅, h₆, h₇, h₈, h₉, h₁₀, h₁₁, h₁₂, h₁₃]

/-! ## Texts -/

section

variable {s : Sample} (finite : ∀ x ∈ s.quantities, x.isFinite = true)

include finite

theorem rereads_columns : ∀ c ∈ columns,
    Json.Rereads (c.write (c.get (s.mapQuantities Json.readBack))) (c.write (c.get s)) := by
  simp only [quantities, List.forall_mem_cons] at finite
  have peers := s.peerCount.toNat_lt.trans (show 2 ^ 32 < UInt64.size by decide)
  simp [columns, timestampColumn, peersColumn, quantity, count, mapQuantities, Json.rereads_text,
    Decimal.rereads_float, Json.rereads_nat, UInt64.toNat_lt_size, finite, peers]

/-- **Texts.**  A sample is read from its text, with or without blanks, up to its quantities. -/
theorem rereads_toValue : Json.Rereads (s.mapQuantities Json.readBack).toValue s.toValue := by
  refine Json.rereads_table ?_
  rw [List.forall₂_map_left_iff, List.forall₂_map_right_iff, List.forall₂_same]
  exact fun c mem => ⟨rfl, rereads_columns finite c mem⟩

theorem decode_text : ∀ text ∈ [Json.compact s.toValue, Json.pretty s.toValue],
    Json.decode (decode Json.dialect) text = .ok (s.mapQuantities Json.readBack) := by
  have rereads := rereads_toValue finite
  have decoded {text : String} (reads : Json.Reads (s.mapQuantities Json.readBack).toValue text) :
      Json.decode (decode Json.dialect) text = .ok (s.mapQuantities Json.readBack) := by
    rw [reads.decode, decode_toValue]
  simp only [List.forall_mem_cons]
  exact ⟨decoded rereads.compact, decoded (rereads.lines 0), List.forall_mem_nil _⟩

/-- **Samples read back.**  The text of a sample is decoded with the same instant and the same
counts.  Every quantity comes back finite, on the same side of zero and within eight roundings and
three times the least number; a short one comes back as it is, and so does a sample of
short ones. -/
theorem decode_written :
    (∀ text ∈ [Json.compact s.toValue, Json.pretty s.toValue],
      Json.decode (decode Json.dialect) text = .ok (s.mapQuantities Json.readBack)) ∧
    (∀ x ∈ s.quantities, (Json.readBack x).isFinite = true ∧
      0 ≤ value x * value (Json.readBack x) ∧
      |value (Json.readBack x) - value x| ≤ 8 * roundoff * |value x| + 3 * grain ∧
      (Json.Short x → Json.readBack x = x)) ∧
    ((∀ x ∈ s.quantities, Json.Short x) → s.mapQuantities Json.readBack = s) := by
  refine ⟨decode_text finite, ?_, ?_⟩
  · intro x mem
    obtain ⟨back_finite, side, near⟩ := Decimal.readBack_spec (finite x mem)
    exact ⟨back_finite, side, near, Decimal.readBack_of_short (finite x mem)⟩
  · intro short
    exact mapQuantities_eq_self fun x mem =>
      Decimal.readBack_of_short (finite x mem) (short x mem)

end

/-- A leap second, the largest counts and a quantity with a fraction come back. -/
theorem decode_written_of_short :
    let s : Sample := {
      timestamp := ⟨⟨-1, 12, 31, by decide⟩, 1439, 60, 500000000⟩
      cpuUsage := 42.1
      diskReadRate := 1e-9
      peerCount := 4294967295
      uptimeSecs := 18446744073709551615 }
    Json.decode (decode Json.dialect) (Json.compact s.toValue) = .ok s := by
  intro s
  have finite : ∀ x ∈ s.quantities, x.isFinite = true := by decide +kernel
  have short : ∀ x ∈ s.quantities, Json.Short x := by decide +kernel
  obtain ⟨decoded, -, same⟩ := decode_written finite
  rw [decoded _ List.mem_cons_self, same short]

/-- Above nine quadrillions, one more digit than is exact is written behind the point, and the
last bit of an odd number is lost. -/
theorem decode_compact_of_large :
    let s : Sample := { cpuUsage := 9007199254740991.0 }
    let t : Sample := { cpuUsage := 9007199254740990.0 }
    (∀ x ∈ s.quantities, x.isFinite = true) ∧
      Json.decode (decode Json.dialect) (Json.compact s.toValue) = .ok t ∧ s ≠ t := by
  intro s t
  have finite : ∀ x ∈ s.quantities, x.isFinite = true := by decide +kernel
  have loses : Json.readBack 9007199254740991.0 = 9007199254740990.0 :=
    eq_of_decode (by decide +kernel)
  have keeps : Json.readBack 0.0 = 0.0 := Decimal.readBack_of_zero rfl rfl
  have differ : Decimal.decode s.cpuUsage ≠ Decimal.decode t.cpuUsage := by decide +kernel
  have back : s.mapQuantities Json.readBack = t := by
    simp only [s, t, mapQuantities, loses, keeps]
  refine ⟨finite, ?_, ?_⟩
  · rw [decode_text finite _ List.mem_cons_self, back]
  · intro same
    exact differ (by rw [same])

end Sample

end Prognosis
