import Prognosis.Proofs.Binary64.Value

/-!
# Running sums side by side

Adding a finite number to two numbers keeps their order.  An infinite one does not: it cancels the
infinity of the other sign to an undefined sum, on one side earlier than on the other.  What every
addition keeps is that one number trails the other (`Trails.add`): it is at most the other one, or
it is lost at the bottom while the other one is lost at the top.
-/

namespace Prognosis.Binary64

open Float.Model (UnpackedFloat)
open Float.Model.UnpackedFloat (Sign)

variable {x y z : Float}

/-! ## Sums that are not finite -/

theorem unpack_of_undefined (undefined : x.isNaN = true) : x.toModel.unpack = .notANumber := by
  unfold Float.isNaN Float.Model.isNaN at undefined
  cases h : x.toModel.unpack with
  | notANumber => rfl
  | _ =>
    rw [h] at undefined
    cases undefined

theorem defined_iff_unpack : x.isNaN = false ↔ x.toModel.unpack ≠ .notANumber := by
  unfold Float.isNaN Float.Model.isNaN
  cases x.toModel.unpack <;> simp [UnpackedFloat.isNaN]

/-- A sum that is undefined or infinite is not rounded. -/
theorem unpack_add_eq {u : UnpackedFloat}
    (sum : UnpackedFloat.add .binary64 x.toModel.unpack y.toModel.unpack = u)
    (not_finite : u.isFinite = false) : (x + y).toModel.unpack = u := by
  show (Float.Model.pack (UnpackedFloat.add .binary64 _ _)).unpack = u
  rw [sum]
  cases u with
  | infinity s => exact unpack_pack trivial
  | notANumber => exact unpack_pack trivial
  | zero s => cases not_finite
  | finite s m e pos => cases not_finite

theorem unpack_add_of_undefined (undefined : x.toModel.unpack = .notANumber) :
    (x + y).toModel.unpack = .notANumber := by
  apply unpack_add_eq _ rfl
  rw [undefined]
  rfl

theorem unpack_add_of_undefined_right (undefined : y.toModel.unpack = .notANumber) :
    (x + y).toModel.unpack = .notANumber := by
  apply unpack_add_eq _ rfl
  rw [undefined]
  cases x.toModel.unpack <;> rfl

/-- Undefined, or the infinity of a sign. -/
def LostAt (s : Sign) (x : Float) : Prop :=
  x.toModel.unpack = .notANumber ∨ x.toModel.unpack = .infinity s

section

variable {s : Sign}

/-- Infinity cancels its opposite. -/
theorem unpack_add_of_lost (infinite : y.toModel.unpack = .infinity s) (lost : LostAt (-s) x) :
    (x + y).toModel.unpack = .notANumber := by
  apply unpack_add_eq _ rfl
  rw [infinite]
  rcases lost with undefined | opposite
  · rw [undefined]
    rfl
  · rw [opposite]
    cases s <;> rfl

theorem unpack_add_of_not_lost (infinite : y.toModel.unpack = .infinity s)
    (kept : ¬ LostAt (-s) x) : (x + y).toModel.unpack = .infinity s := by
  apply unpack_add_eq _ rfl
  rw [infinite]
  obtain ⟨defined, not_opposite⟩ := not_or.1 kept
  cases h : x.toModel.unpack with
  | notANumber => exact absurd h defined
  | infinity t =>
    rw [h] at not_opposite
    cases s <;> cases t <;> first | rfl | exact absurd rfl not_opposite
  | zero t => rfl
  | finite t m e pos => rfl

theorem lostAt_add (x : Float) (infinite : y.toModel.unpack = .infinity s) : LostAt s (x + y) := by
  by_cases lost : LostAt (-s) x
  · exact .inl (unpack_add_of_lost infinite lost)
  · exact .inr (unpack_add_of_not_lost infinite lost)

theorem LostAt.add_finite (lost : LostAt s x) (y_finite : y.isFinite = true) :
    LostAt s (x + y) := by
  rcases lost with undefined | infinite
  · exact .inl (unpack_add_of_undefined undefined)
  · right
    have x_infinite : x.isInf = true := by
      rw [Float.isInf, Float.Model.isInf, infinite]
      rfl
    rw [add_of_infinite x_infinite y_finite]
    exact infinite

theorem le_of_unpack_infinity (left : x.toModel.unpack = .infinity s)
    (right : y.toModel.unpack = .infinity s) : x ≤ y := by
  have x_defined : x.isNaN = false := defined_iff_unpack.2 (by simp [left])
  have y_defined : y.isNaN = false := defined_iff_unpack.2 (by simp [right])
  rw [le_iff_value x_defined y_defined, value, value, left, right]

end

/-! ## Ends of the range -/

theorem unpack_of_le_bottom (le : x ≤ y) (bottom : y.toModel.unpack = .infinity .negative) :
    x.toModel.unpack = .infinity .negative := by
  obtain ⟨x_defined, y_defined⟩ := defined_of_le le
  have low : value x ≤ -edge := by
    have values := (le_iff_value x_defined y_defined).1 le
    rwa [value, value, bottom, valueOf, factor_negative, neg_one_mul] at values
  rcases finite_or_infinite x_defined with finite | infinite
  · linarith [(value_lt_edge finite).1]
  · obtain ⟨s, unpacked⟩ := exists_unpack_of_infinite infinite
    cases s with
    | negative => exact unpacked
    | positive =>
      rw [value, unpacked, valueOf, factor_positive, one_mul] at low
      linarith [edge_pos]

theorem unpack_of_top_le (le : x ≤ y) (top : x.toModel.unpack = .infinity .positive) :
    y.toModel.unpack = .infinity .positive := by
  obtain ⟨x_defined, y_defined⟩ := defined_of_le le
  have high : edge ≤ value y := by
    have values := (le_iff_value x_defined y_defined).1 le
    rwa [value, value, top, valueOf, factor_positive, one_mul] at values
  rcases finite_or_infinite y_defined with finite | infinite
  · linarith [(value_lt_edge finite).2]
  · obtain ⟨s, unpacked⟩ := exists_unpack_of_infinite infinite
    cases s with
    | positive => exact unpacked
    | negative =>
      rw [value, unpacked, valueOf, factor_negative, neg_one_mul] at high
      linarith [edge_pos]

theorem LostAt.of_le (le : x ≤ y) (lost : LostAt .negative y) : LostAt .negative x := by
  rcases lost with undefined | bottom
  · exact absurd undefined (defined_iff_unpack.1 (defined_of_le le).2)
  · exact .inr (unpack_of_le_bottom le bottom)

theorem LostAt.of_ge (le : x ≤ y) (lost : LostAt .positive x) : LostAt .positive y := by
  rcases lost with undefined | top
  · exact absurd undefined (defined_iff_unpack.1 (defined_of_le le).1)
  · exact .inr (unpack_of_top_le le top)

/-! ## Trailing -/

/-- One number is at most the other, or both are lost at opposite ends. -/
def Trails (x y : Float) : Prop := x ≤ y ∨ LostAt .negative x ∧ LostAt .positive y

/-- Adding infinity: unless it cancels on the left, it does not cancel on the right either. -/
theorem Trails.add_top (trails : Trails x y) (top : z.toModel.unpack = .infinity .positive) :
    Trails (x + z) (y + z) := by
  by_cases sunk : LostAt .negative x
  · right
    exact ⟨.inl (unpack_add_of_lost top sunk), lostAt_add y top⟩
  · left
    have le : x ≤ y := trails.resolve_right fun lost => sunk lost.1
    have kept : ¬ LostAt .negative y := fun lost => sunk (lost.of_le le)
    exact le_of_unpack_infinity (unpack_add_of_not_lost top sunk) (unpack_add_of_not_lost top kept)

/-- Subtracting infinity: unless it cancels on the right, it does not cancel on the left either. -/
theorem Trails.add_bottom (trails : Trails x y)
    (bottom : z.toModel.unpack = .infinity .negative) : Trails (x + z) (y + z) := by
  by_cases soared : LostAt .positive y
  · right
    exact ⟨lostAt_add x bottom, .inl (unpack_add_of_lost bottom soared)⟩
  · left
    have le : x ≤ y := trails.resolve_right fun lost => soared lost.2
    have kept : ¬ LostAt .positive x := fun lost => soared (lost.of_ge le)
    exact le_of_unpack_infinity (unpack_add_of_not_lost bottom kept)
      (unpack_add_of_not_lost bottom soared)

/-- **Running sums.**  Adding the same number, whatever it is, keeps one sum behind the other. -/
theorem Trails.add (trails : Trails x y) (z : Float) : Trails (x + z) (y + z) := by
  by_cases z_defined : z.isNaN = false
  · rcases finite_or_infinite z_defined with finite | infinite
    · rcases trails with le | ⟨sunk, soared⟩
      · exact .inl (add_le_add_of_finite le finite)
      · exact .inr ⟨sunk.add_finite finite, soared.add_finite finite⟩
    · obtain ⟨s, unpacked⟩ := exists_unpack_of_infinite infinite
      cases s with
      | positive => exact trails.add_top unpacked
      | negative => exact trails.add_bottom unpacked
  · have undefined := unpack_of_undefined (Bool.eq_true_of_not_eq_false z_defined)
    exact .inr ⟨.inl (unpack_add_of_undefined_right undefined),
      .inl (unpack_add_of_undefined_right undefined)⟩

end Prognosis.Binary64
