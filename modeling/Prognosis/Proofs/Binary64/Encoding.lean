import Prognosis.Decimal.Binary64
import Prognosis.Proofs.Binary64.Unpacked

/-!
# The encoding of binary64 numbers

What is unpacked from an encoding is in canonical form, and packing it again gives the encoding back
(`pack_unpack`).  A canonical number survives packing unless its exponent is too large, and then it
becomes infinity (`unpack_pack`).  Exact arithmetic reads the same number from the encoding
(`decode_eq`).
-/

namespace Prognosis.Binary64

open Float.Model Float.Model.UnpackedFloat

/-! ## The three fields -/

def signField (b : BitVec 64) : Sign := Sign.ofBitVec (@unpackSign .binary64 b)

def exponentField (b : BitVec 64) : BitVec 11 := @unpackExponent .binary64 b

def fractionField (b : BitVec 64) : BitVec 52 := @unpackMantissa .binary64 b

section

variable (b : BitVec 64)

theorem toNat_fractionField : (fractionField b).toNat = b.toNat % 2 ^ 52 := by
  simp [fractionField, unpackMantissa]

theorem toNat_exponentField : (exponentField b).toNat = b.toNat / 2 ^ 52 % 2 ^ 11 := by
  simp [exponentField, unpackExponent, Nat.shiftRight_eq_div_pow]

theorem toNat_unpackSign : (@unpackSign .binary64 b).toNat = b.toNat / 2 ^ 63 % 2 := by
  simp [unpackSign, Nat.shiftRight_eq_div_pow]

theorem toBitVec_signField : (signField b).toBitVec = @unpackSign .binary64 b :=
  Sign.toBitVec_ofBitVec _

end

section

variable (s : Sign) (e : BitVec 11) (m : BitVec 52)

@[simp] theorem signField_packComponents : signField (packComponents .binary64 s e m) = s := by
  rw [signField, unpackSign_packComponents, Sign.ofBitVec_toBitVec]

@[simp] theorem exponentField_packComponents :
    exponentField (packComponents .binary64 s e m) = e :=
  unpackExponent_packComponents

@[simp] theorem fractionField_packComponents :
    fractionField (packComponents .binary64 s e m) = m :=
  unpackMantissa_packComponents

end

theorem toNat_implicit (m : BitVec 52) : (1#1 ++ m).toNat = 2 ^ 52 + m.toNat := by
  rw [BitVec.toNat_append, ← Nat.shiftLeft_add_eq_or_of_lt m.isLt]
  simp [Nat.shiftLeft_eq]

/-! ## Unpacking -/

theorem unpack_eq (b : BitVec 64) :
    UnpackedFloat.unpack .binary64 b =
      if exponentField b = -1#11 then
        if fractionField b = 0#52 then .infinity (signField b) else .notANumber
      else if exponentField b = 0#11 then
        assemble (signField b) (fractionField b).toNat (-1074)
      else
        assemble (signField b) (2 ^ 52 + (fractionField b).toNat)
          ((exponentField b).toNat - 1075) := by
  unfold UnpackedFloat.unpack signField exponentField fractionField
  dsimp only
  split_ifs with special fraction tiny zero
  · rfl
  · rfl
  · rw [assemble, dif_pos (by rw [zero]; rfl)]
  · have nonzero : (@unpackMantissa .binary64 b).toNat ≠ 0 := fun h =>
      zero (BitVec.eq_of_toNat_eq h)
    rw [assemble, dif_neg nonzero]
    simp [tiny, Format.exponentBias]
  · rw [assemble, dif_neg (by omega)]
    simp [toNat_implicit, Format.exponentBias]

theorem exponentField_pos {b : BitVec 64} (large : exponentField b ≠ 0#11) :
    0 < (exponentField b).toNat :=
  Nat.pos_of_ne_zero fun h => large (BitVec.eq_of_toNat_eq h)

theorem rounded_unpack (x : Float.Model) : Rounded x.unpack := by
  unfold Float.Model.unpack
  have bound := (fractionField x.toBits.toBitVec).isLt
  rw [unpack_eq]
  split_ifs with special fraction tiny
  · trivial
  · trivial
  · exact Canonical.rounded ⟨by omega, le_rfl, .inr rfl⟩ _
  · have := exponentField_pos tiny
    exact Canonical.rounded ⟨by omega, by omega, .inl (by omega)⟩ _

/-! ## Packing -/

theorem pack_finite (s : Sign) {m : ℕ} (e : ℤ) (pos : 0 < m) :
    UnpackedFloat.pack .binary64 (.finite s m e pos) =
      if 2048 ≤ (e + (1023 : ℕ) + (52 : ℕ)).toNat + 1 then packedInfinity .binary64 s
      else if m.log2 + 1 = 53 then
        packComponents .binary64 s (BitVec.ofNat 11 (e + (1023 : ℕ) + (52 : ℕ)).toNat)
          (BitVec.ofNat 52 m)
      else packComponents .binary64 s 0#11 (BitVec.ofNat 52 m) :=
  rfl

theorem pack_assemble_of_small (s : Sign) {m : ℕ} (small : m < 2 ^ 52) :
    UnpackedFloat.pack .binary64 (assemble s m (-1074)) =
      packComponents .binary64 s 0#11 (BitVec.ofNat 52 m) := by
  unfold assemble
  split_ifs with zero
  · rw [zero]
    rfl
  · have log : m.log2 < 52 := (Nat.log2_lt zero).2 small
    rw [pack_finite, if_neg (by norm_num), if_neg (by omega)]

theorem pack_assemble_of_digits (s : Sign) {m : ℕ} {e : ℤ} (leading : 2 ^ 52 ≤ m)
    (digits : m < 2 ^ 53) (fits : e ≤ 971) :
    UnpackedFloat.pack .binary64 (assemble s m e) =
      packComponents .binary64 s (BitVec.ofNat 11 (e + 1075).toNat) (BitVec.ofNat 52 m) := by
  have nonzero : m ≠ 0 := by omega
  have log : m.log2 + 1 = 53 := by
    have := (Nat.log2_lt nonzero).2 digits
    have := (Nat.le_log2 nonzero).2 leading
    omega
  have biased : e + (1023 : ℕ) + (52 : ℕ) = e + 1075 := by push_cast; ring
  rw [assemble, dif_neg nonzero, pack_finite, if_neg (by omega), if_pos log, biased]

/-- Packing undoes unpacking. -/
theorem pack_unpack (x : Float.Model) : Float.Model.pack x.unpack = x := by
  obtain ⟨bits, valid⟩ := x
  simp only [Float.Model.pack, Float.Model.unpack, pack_unpack_of_valid valid]

/-- A number whose exponent is too large becomes infinity. -/
def held : UnpackedFloat → UnpackedFloat
  | .finite s m e pos => if 971 < e then .infinity s else .finite s m e pos
  | u => u

theorem unpack_packComponents (s : Sign) (e : BitVec 11) (m : BitVec 52) :
    UnpackedFloat.unpack .binary64 (packComponents .binary64 s e m) =
      if e = -1#11 then if m = 0#52 then .infinity s else .notANumber
      else if e = 0#11 then assemble s m.toNat (-1074)
      else assemble s (2 ^ 52 + m.toNat) (e.toNat - 1075) := by
  have fields := unpack_eq (packComponents .binary64 s e m)
  rwa [signField_packComponents, exponentField_packComponents, fractionField_packComponents]
    at fields

/-- Unpacking undoes the packing of canonical numbers within range. -/
theorem unpack_pack {u : UnpackedFloat} (rounded : Rounded u) :
    (Float.Model.pack u).unpack = held u := by
  show UnpackedFloat.unpack .binary64 (UnpackedFloat.pack .binary64 u) = held u
  cases u with
  | infinity s => exact unpack_packComponents s (-1#11) 0#52
  | notANumber => exact unpack_packComponents .positive (-1#11) (1#52 <<< 51)
  | zero s => exact unpack_packComponents s 0#11 0#52
  | finite s m e pos =>
    have whole : assemble s m e = .finite s m e pos := by rw [assemble, dif_neg pos.ne']
    obtain ⟨digits, least, leading⟩ := rounded
    rw [held]
    split_ifs with large
    · rw [pack_finite, if_pos (by omega)]
      exact unpack_packComponents s (-1#11) 0#52
    · by_cases normal : 2 ^ 52 ≤ m
      · have biased : (BitVec.ofNat 11 (e + 1075).toNat).toNat = (e + 1075).toNat := by
          rw [BitVec.toNat_ofNat]
          omega
        have ordinary : BitVec.ofNat 11 (e + 1075).toNat ≠ -1#11 := fun h => by
          rw [h, show (-1#11).toNat = 2047 from rfl] at biased
          omega
        have positive : BitVec.ofNat 11 (e + 1075).toNat ≠ 0#11 := fun h => by
          rw [h, show (0#11).toNat = 0 from rfl] at biased
          omega
        have fraction : 2 ^ 52 + (BitVec.ofNat 52 m).toNat = m := by
          rw [BitVec.toNat_ofNat]
          omega
        have exponent : (((e + 1075).toNat : ℕ) : ℤ) - 1075 = e := by omega
        rw [← whole, pack_assemble_of_digits s normal digits (by omega), unpack_packComponents,
          if_neg ordinary, if_neg positive, fraction, biased, exponent]
      · have small := not_le.1 normal
        have fraction : (BitVec.ofNat 52 m).toNat = m := by
          rw [BitVec.toNat_ofNat]
          omega
        obtain rfl := leading.resolve_left normal
        rw [← whole, pack_assemble_of_small s small, unpack_packComponents, if_neg (by decide),
          if_pos rfl, fraction]

/-! ## Decoding -/

def isMinus : Sign → Bool
  | .negative => true
  | .positive => false

/-- An unpacked number as a decoded one. -/
def decoded : UnpackedFloat → Decimal.Binary64
  | .notANumber => .nan
  | .infinity s => .infinite (isMinus s)
  | .zero s => .finite ⟨isMinus s, 0, Decimal.leastExponent⟩
  | .finite s m e _ => .finite ⟨isMinus s, m, e⟩

theorem decoded_assemble_of_small (s : Sign) (m : ℕ) :
    decoded (assemble s m (-1074)) = .finite ⟨isMinus s, m, Decimal.leastExponent⟩ := by
  unfold assemble
  split_ifs with zero
  · rw [zero]
    rfl
  · rfl

theorem isMinus_signField (b : BitVec 64) :
    isMinus (signField b) = decide (UInt64.size ≤ 2 * b.toNat) := by
  have bit := toNat_unpackSign b
  have bound := b.isLt
  rw [← toBitVec_signField] at bit
  cases sign : signField b with
  | negative =>
    rw [sign, show Sign.negative.toBitVec.toNat = 1 from rfl] at bit
    exact (decide_eq_true (show 2 ^ 64 ≤ 2 * b.toNat by omega)).symm
  | positive =>
    rw [sign, show Sign.positive.toBitVec.toNat = 0 from rfl] at bit
    exact (decide_eq_false (show ¬ 2 ^ 64 ≤ 2 * b.toNat by omega)).symm

/-- Decoding and unpacking read the same number from an encoding. -/
theorem decode_eq (x : Float) : Decimal.decode x = decoded x.toModel.unpack := by
  have bits : x.toBits.toNat = x.toModel.toBits.toBitVec.toNat := rfl
  unfold Decimal.decode Float.Model.unpack
  rw [bits]
  generalize x.toModel.toBits.toBitVec = b
  have fraction : b.toNat % Decimal.leadingBit = (fractionField b).toNat :=
    (toNat_fractionField b).symm
  have exponent : b.toNat / Decimal.leadingBit % 2048 = (exponentField b).toNat :=
    (toNat_exponentField b).symm
  dsimp only
  rw [unpack_eq, fraction, exponent, ← isMinus_signField]
  have special : (exponentField b).toNat = 2047 ↔ exponentField b = -1#11 :=
    BitVec.toNat_inj (y := -1#11)
  have tiny : (exponentField b).toNat = 0 ↔ exponentField b = 0#11 :=
    BitVec.toNat_inj (y := 0#11)
  have none : (fractionField b).toNat = 0 ↔ fractionField b = 0#52 :=
    BitVec.toNat_inj (y := 0#52)
  simp only [special, tiny, none]
  split_ifs with h₁ h₂ h₃
  · rfl
  · rfl
  · rw [decoded_assemble_of_small]
  · have exponent : Decimal.leastExponent + ((exponentField b).toNat : ℤ) - 1 =
        (exponentField b).toNat - 1075 := by
      rw [Decimal.leastExponent]
      ring
    rw [assemble, dif_neg (by omega), decoded, exponent]
    rfl

end Prognosis.Binary64
