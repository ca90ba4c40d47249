import Mathlib.Data.Prod.Lex
import Mathlib.Order.Compare
import Prognosis.Scalar

/-!
# The order of binary64 numbers

Every number but the marker of an undefined result has a place: its sign class, its exponent and
its significand, mirrored below zero.  One number is less than another exactly when its place comes
first (`lt_iff_place`), so `<` inherits the laws of the lexicographic order on places.
-/

namespace Prognosis.Binary64

open Float.Model (UnpackedFloat)

/-- Sign class, exponent and significand, in the order in which they decide. -/
abbrev Place : Type := Int ×ₗ Int ×ₗ Int

/-- The place of an unpacked number, none for an undefined one. -/
def placeOf : UnpackedFloat → Option Place
  | .notANumber => none
  | .infinity .negative => some (toLex (-2, toLex (0, 0)))
  | .finite .negative m e _ => some (toLex (-1, toLex (-e, -(m : Int))))
  | .zero _ => some (toLex (0, toLex (0, 0)))
  | .finite .positive m e _ => some (toLex (1, toLex (e, (m : Int))))
  | .infinity .positive => some (toLex (2, toLex (0, 0)))

/-- The place of a number, none for an undefined one. -/
def place (x : Float) : Option Place := placeOf x.toModel.unpack

/-- Comparing unpacked numbers is comparing their places. -/
theorem unpacked_lt_iff (a b : UnpackedFloat) :
    a.lt b = true ↔ ∃ p q, placeOf a = some p ∧ placeOf b = some q ∧ p < q := by
  rcases a with (_ | _) | _ | _ | ⟨_ | _, m, e, _⟩ <;>
    rcases b with (_ | _) | _ | _ | ⟨_ | _, m', e', _⟩ <;>
      dsimp only [UnpackedFloat.lt, UnpackedFloat.compare, placeOf] <;>
        simp [Prod.Lex.lt_iff, Ordering.then_eq_lt, Ordering.then_eq_gt, compare_lt_iff_lt,
          compare_gt_iff_gt]
  -- The signs of two infinities are compared by a function of their own.
  rfl

theorem unpacked_le_iff (a b : UnpackedFloat) :
    a.le b = true ↔ ∃ p q, placeOf a = some p ∧ placeOf b = some q ∧ p ≤ q := by
  rcases a with (_ | _) | _ | _ | ⟨_ | _, m, e, _⟩ <;>
    rcases b with (_ | _) | _ | _ | ⟨_ | _, m', e', _⟩ <;>
      dsimp only [UnpackedFloat.le, UnpackedFloat.compare, placeOf] <;>
        simp [Prod.Lex.le_iff, Ordering.isLE_iff_ne_gt, Ordering.isGE_iff_ne_lt,
          Ordering.then_eq_lt, Ordering.then_eq_gt, compare_lt_iff_lt, compare_gt_iff_gt] <;>
          first | omega | rfl

theorem lt_iff_place {x y : Float} :
    x < y ↔ ∃ p q, place x = some p ∧ place y = some q ∧ p < q := by
  rw [place, place, ← unpacked_lt_iff]
  show decide (x.toModel < y.toModel) = true ↔ _
  rw [decide_eq_true_iff]
  rfl

theorem le_iff_place {x y : Float} :
    x ≤ y ↔ ∃ p q, place x = some p ∧ place y = some q ∧ p ≤ q := by
  rw [place, place, ← unpacked_le_iff]
  show decide (x.toModel ≤ y.toModel) = true ↔ _
  rw [decide_eq_true_iff]
  rfl

theorem lt_trans {x y z : Float} (xy : x < y) (yz : y < z) : x < z := by
  rw [lt_iff_place] at xy yz ⊢
  obtain ⟨p, q, x_place, y_place, pq⟩ := xy
  obtain ⟨q', r, y_place', z_place, qr⟩ := yz
  have same : q = q' := Option.some_inj.1 (y_place.symm.trans y_place')
  rw [← same] at qr
  exact ⟨p, r, x_place, z_place, pq.trans qr⟩

end Prognosis.Binary64
