import Prognosis.Proofs.Binary64
import Prognosis.Proofs.Binary64.Encoding
import Prognosis.Proofs.Binary64.Operations

/-!
# The exact value of a binary64 number

Every number but the undefined one has an exact value, infinity standing in the place of the first
power of two that is too large.  Comparing numbers is comparing values (`lt_iff_value`,
`le_iff_value`), and sums, products and quotients of finite numbers are the exact ones, rounded and
held within range (`value_add`, `value_mul`, `value_div`).
-/

namespace Prognosis.Binary64

open Float.Model (UnpackedFloat)
open Float.Model.UnpackedFloat (Sign)

/-- The exact value of a number.  An undefined one gets zero. -/
def value (x : Float) : ℚ := valueOf x.toModel.unpack

/-- The value of the binary64 number nearest to `q`. -/
def nearest64 (q : ℚ) : ℚ := max (-edge) (min edge (nearest q))

/-! ## Canonical magnitudes -/

theorem edge_pos : 0 < edge := two_zpow_pos _

section

variable {m n : ℕ} {e f : ℤ}

theorem magnitude_pos (pos : 0 < m) (e : ℤ) : (0 : ℚ) < m * 2 ^ e :=
  mul_pos (by exact_mod_cast pos) (two_zpow_pos e)

theorem magnitude_lt_edge (digits : m < 2 ^ 53) (fits : e ≤ 971) : (m * 2 ^ e : ℚ) < edge := by
  calc (m * 2 ^ e : ℚ) < 2 ^ (53 : ℤ) * 2 ^ e :=
        mul_lt_mul_of_pos_right (by exact_mod_cast digits) (two_zpow_pos e)
    _ ≤ 2 ^ (53 : ℤ) * 2 ^ (971 : ℤ) :=
        mul_le_mul_of_nonneg_left (two_zpow_le fits) (two_zpow_pos 53).le
    _ = edge := by rw [← two_zpow_add, edge]; norm_num

theorem edge_le_magnitude (leading : 2 ^ 52 ≤ m) (large : 971 < e) : edge ≤ (m * 2 ^ e : ℚ) := by
  calc edge = 2 ^ (52 : ℤ) * 2 ^ (972 : ℤ) := by rw [← two_zpow_add, edge]; norm_num
    _ ≤ 2 ^ (52 : ℤ) * 2 ^ e :=
        mul_le_mul_of_nonneg_left (two_zpow_le large) (two_zpow_pos 52).le
    _ ≤ m * 2 ^ e :=
        mul_le_mul_of_nonneg_right (by exact_mod_cast leading) (two_zpow_pos e).le

theorem magnitude_lt_of_exponent (canonical : Canonical m e) (canonical' : Canonical n f)
    (lt : e < f) : (m * 2 ^ e : ℚ) < n * 2 ^ f := by
  have leading : 2 ^ 52 ≤ n := by
    rcases canonical'.leading with le | least
    · exact le
    · have := canonical.least
      omega
  calc (m * 2 ^ e : ℚ) < 2 ^ (53 : ℤ) * 2 ^ e :=
        mul_lt_mul_of_pos_right (by exact_mod_cast canonical.digits) (two_zpow_pos e)
    _ = 2 ^ (52 : ℤ) * 2 ^ (e + 1) := by rw [← two_zpow_add, ← two_zpow_add]; congr 1; ring
    _ ≤ 2 ^ (52 : ℤ) * 2 ^ f := mul_le_mul_of_nonneg_left (two_zpow_le lt) (two_zpow_pos 52).le
    _ ≤ n * 2 ^ f := mul_le_mul_of_nonneg_right (by exact_mod_cast leading) (two_zpow_pos f).le

theorem magnitude_lt_iff (canonical : Canonical m e) (canonical' : Canonical n f) :
    (m * 2 ^ e : ℚ) < n * 2 ^ f ↔ e < f ∨ e = f ∧ m < n := by
  rcases lt_trichotomy e f with less | rfl | greater
  · exact iff_of_true (magnitude_lt_of_exponent canonical canonical' less) (.inl less)
  · rw [mul_lt_mul_iff_left₀ (two_zpow_pos e), Nat.cast_lt]
    omega
  · have := magnitude_lt_of_exponent canonical' canonical greater
    exact iff_of_false this.asymm (by omega)

end

/-! ## Order -/

/-- A canonical number whose exponent is not too large. -/
structure InRange (u : UnpackedFloat) : Prop where
  rounded : Rounded u
  fits : held u = u

theorem inRange_unpack (x : Float) : InRange x.toModel.unpack where
  rounded := rounded_unpack _
  fits := by
    have again := unpack_pack (rounded_unpack x.toModel)
    rw [pack_unpack] at again
    exact again.symm

theorem InRange.exponent_le {s : Sign} {m : ℕ} {e : ℤ} {pos : 0 < m}
    (h : InRange (.finite s m e pos)) : e ≤ 971 := by
  have fits := h.fits
  rw [held] at fits
  split_ifs at fits with large
  exact not_lt.1 large

theorem InRange.bounds {s : Sign} {m : ℕ} {e : ℤ} {pos : 0 < m}
    (h : InRange (.finite s m e pos)) : (0 : ℚ) < m * 2 ^ e ∧ (m * 2 ^ e : ℚ) < edge :=
  ⟨magnitude_pos pos e, magnitude_lt_edge h.rounded.digits h.exponent_le⟩

theorem unpacked_lt_iff_valueOf {u v : UnpackedFloat} (hu : InRange u) (hv : InRange v)
    (u_defined : u.isNaN = false) (v_defined : v.isNaN = false) :
    u.lt v = true ↔ valueOf u < valueOf v := by
  have pos := edge_pos
  rw [unpacked_lt_iff]
  rcases u with (_ | _) | _ | _ | ⟨_ | _, m, e, m_pos⟩ <;>
    rcases v with (_ | _) | _ | _ | ⟨_ | _, n, f, n_pos⟩ <;>
      simp [placeOf, Prod.Lex.lt_iff, valueOf]
  -- Numbers of one sign are compared by exponent and digits, all others by their signs alone.
  case finite.negative.finite.negative =>
    rw [magnitude_lt_iff hv.rounded hu.rounded]
    omega
  case finite.positive.finite.positive => rw [magnitude_lt_iff hu.rounded hv.rounded]
  all_goals first
    | exact Bool.noConfusion u_defined
    | exact Bool.noConfusion v_defined
    | linarith
    | linarith [hu.bounds.1, hu.bounds.2]
    | linarith [hv.bounds.1, hv.bounds.2]
    | linarith [hu.bounds.1, hv.bounds.1]

theorem lt_iff_value {x y : Float} (x_defined : x.isNaN = false) (y_defined : y.isNaN = false) :
    x < y ↔ value x < value y := by
  rw [value, value, ← unpacked_lt_iff_valueOf (inRange_unpack x) (inRange_unpack y) x_defined
    y_defined, unpacked_lt_iff, lt_iff_place]
  rfl

theorem exists_placeOf {u : UnpackedFloat} (u_defined : u.isNaN = false) :
    ∃ p, placeOf u = some p := by
  rcases u with (_ | _) | _ | _ | ⟨_ | _, m, e, m_pos⟩
  case notANumber => exact Bool.noConfusion u_defined
  all_goals exact ⟨_, rfl⟩

theorem le_iff_value {x y : Float} (x_defined : x.isNaN = false) (y_defined : y.isNaN = false) :
    x ≤ y ↔ value x ≤ value y := by
  obtain ⟨p, x_place⟩ : ∃ p, place x = some p := exists_placeOf x_defined
  obtain ⟨q, y_place⟩ : ∃ q, place y = some q := exists_placeOf y_defined
  rw [← not_lt, ← lt_iff_value y_defined x_defined, le_iff_place, lt_iff_place]
  simp [x_place, y_place]

theorem defined_of_le {x y : Float} (le : x ≤ y) : x.isNaN = false ∧ y.isNaN = false := by
  have undefined (u : UnpackedFloat) (p : Place) (h : placeOf u = some p) : u.isNaN = false := by
    cases u with
    | notANumber => cases h
    | _ => rfl
  obtain ⟨p, q, x_place, y_place, -⟩ := le_iff_place.1 le
  exact ⟨undefined _ p x_place, undefined _ q y_place⟩

theorem le_refl_of_defined {x : Float} (x_defined : x.isNaN = false) : x ≤ x :=
  (le_iff_value x_defined x_defined).2 le_rfl

protected theorem le_trans {x y z : Float} (xy : x ≤ y) (yz : y ≤ z) : x ≤ z := by
  obtain ⟨x_defined, y_defined⟩ := defined_of_le xy
  have z_defined := (defined_of_le yz).2
  rw [le_iff_value x_defined y_defined] at xy
  rw [le_iff_value y_defined z_defined] at yz
  rw [le_iff_value x_defined z_defined]
  exact xy.trans yz

theorem defined_of_lt {x y : Float} (lt : x < y) : x.isNaN = false ∧ y.isNaN = false := by
  obtain ⟨p, q, x_place, y_place, less⟩ := lt_iff_place.1 lt
  exact defined_of_le (le_iff_place.2 ⟨p, q, x_place, y_place, less.le⟩)

protected theorem lt_of_lt_of_le {x y z : Float} (xy : x < y) (yz : y ≤ z) : x < z := by
  obtain ⟨x_defined, y_defined⟩ := defined_of_lt xy
  have z_defined := (defined_of_le yz).2
  rw [lt_iff_value x_defined y_defined] at xy
  rw [le_iff_value y_defined z_defined] at yz
  rw [lt_iff_value x_defined z_defined]
  exact xy.trans_le yz

protected theorem not_lt_of_le {x y : Float} (le : x ≤ y) : ¬ y < x := by
  obtain ⟨x_defined, y_defined⟩ := defined_of_le le
  rw [lt_iff_value y_defined x_defined, not_lt]
  exact (le_iff_value x_defined y_defined).1 le

/-! ## Range -/

theorem valueOf_bounds {u : UnpackedFloat} (h : InRange u) :
    -edge ≤ valueOf u ∧ valueOf u ≤ edge := by
  have pos := edge_pos
  rcases u with (_ | _) | _ | _ | ⟨_ | _, m, e, m_pos⟩ <;>
    simp only [valueOf, factor_positive, factor_negative]
  case finite.negative | finite.positive =>
    obtain ⟨low, high⟩ := h.bounds
    constructor <;> linarith
  all_goals constructor <;> linarith

theorem neg_edge_le_value (x : Float) : -edge ≤ value x := (valueOf_bounds (inRange_unpack x)).1

theorem value_le_edge (x : Float) : value x ≤ edge := (valueOf_bounds (inRange_unpack x)).2

theorem nearest64_mono {p q : ℚ} (le : p ≤ q) : nearest64 p ≤ nearest64 q :=
  max_le_max_left _ (min_le_min_left _ (nearest_mono le))

theorem nearest64_of_nearest {q : ℚ} (fixed : nearest q = q) (low : -edge ≤ q) (high : q ≤ edge) :
    nearest64 q = q := by
  rw [nearest64, fixed, min_eq_right high, max_eq_right low]

theorem nearest64_natCast {n : ℕ} (digits : n < 2 ^ 53) : nearest64 n = n := by
  have small : (n : ℚ) < edge := by
    simpa using magnitude_lt_edge (e := 0) digits (by norm_num)
  have nonneg : (0 : ℚ) ≤ n := Nat.cast_nonneg n
  exact nearest64_of_nearest (nearest_natCast digits) (by linarith [edge_pos]) small.le

/-! ## Operations -/

theorem valueOf_held {u : UnpackedFloat} {q : ℚ} (h : Rounds u q) :
    valueOf (held u) = nearest64 q ∧ (held u).isNaN = false := by
  obtain ⟨finite, rounded, exact⟩ := h
  rw [nearest64, ← exact]
  have pos := edge_pos
  cases u with
  | infinity s => cases finite
  | notANumber => cases finite
  | zero s =>
    refine ⟨?_, rfl⟩
    rw [show valueOf (.zero s) = 0 from rfl, min_eq_right pos.le, max_eq_right (by linarith)]
    rfl
  | finite s m e m_pos =>
    rw [held]
    split_ifs with large
    · have leading : 2 ^ 52 ≤ m := rounded.leading.resolve_right (by omega)
      have beyond := edge_le_magnitude leading large
      refine ⟨?_, rfl⟩
      cases s with
      | positive =>
        rw [valueOf, valueOf, factor_positive, one_mul, one_mul, min_eq_left beyond,
          max_eq_right (by linarith)]
      | negative =>
        rw [valueOf, valueOf, factor_negative, neg_one_mul, neg_one_mul,
          min_eq_right (by linarith), max_eq_left (by linarith)]
    · have below := magnitude_lt_edge rounded.digits (not_lt.1 large)
      have above := magnitude_pos m_pos e
      refine ⟨?_, rfl⟩
      cases s with
      | positive =>
        rw [valueOf, factor_positive, one_mul, min_eq_right below.le, max_eq_right (by linarith)]
      | negative =>
        rw [valueOf, factor_negative, neg_one_mul, min_eq_right (by linarith),
          max_eq_right (by linarith)]

section

variable {x y : Float}

theorem nearest64_value (x_finite : x.isFinite = true) : nearest64 (value x) = value x := by
  have range := inRange_unpack x
  have again := (valueOf_held (rounds_self x_finite range.rounded)).1
  rw [range.fits] at again
  exact again.symm

/-- Sums of finite numbers. -/
theorem value_add (x_finite : x.isFinite = true) (y_finite : y.isFinite = true) :
    value (x + y) = nearest64 (value x + value y) ∧ (x + y).isNaN = false := by
  have sum := rounds_add x_finite y_finite (rounded_unpack _) (rounded_unpack _)
  have unpacked : (x + y).toModel.unpack = _ := unpack_pack sum.rounded
  rw [value, unpacked, Float.isNaN, Float.Model.isNaN, unpacked]
  exact valueOf_held sum

/-- Products of finite numbers. -/
theorem value_mul (x_finite : x.isFinite = true) (y_finite : y.isFinite = true) :
    value (x * y) = nearest64 (value x * value y) ∧ (x * y).isNaN = false := by
  have product := rounds_mul x_finite y_finite (rounded_unpack _) (rounded_unpack _)
  have unpacked : (x * y).toModel.unpack = _ := unpack_pack product.rounded
  rw [value, unpacked, Float.isNaN, Float.Model.isNaN, unpacked]
  exact valueOf_held product

/-- Quotients of finite numbers. -/
theorem value_div (x_finite : x.isFinite = true) (y_finite : y.isFinite = true)
    (nonzero : value y ≠ 0) :
    value (x / y) = nearest64 (value x / value y) ∧ (x / y).isNaN = false := by
  have quotient := rounds_div x_finite y_finite nonzero
  have unpacked : (x / y).toModel.unpack = _ := unpack_pack quotient.rounded
  rw [value, unpacked, Float.isNaN, Float.Model.isNaN, unpacked]
  exact valueOf_held quotient

end

/-! ## Infinite operands -/

section

variable {x y : Float}

theorem finite_or_infinite (x_defined : x.isNaN = false) : x.isFinite = true ∨ x.isInf = true := by
  unfold Float.isNaN Float.Model.isNaN at x_defined
  unfold Float.isFinite Float.isInf Float.Model.isFinite Float.Model.isInf
  cases h : x.toModel.unpack with
  | notANumber =>
    rw [h] at x_defined
    exact Bool.noConfusion x_defined
  | infinity s => exact .inr rfl
  | zero s => exact .inl rfl
  | finite s m e pos => exact .inl rfl

theorem defined_of_finite (x_finite : x.isFinite = true) : x.isNaN = false := by
  unfold Float.isFinite Float.Model.isFinite at x_finite
  unfold Float.isNaN Float.Model.isNaN
  cases h : x.toModel.unpack with
  | notANumber =>
    rw [h] at x_finite
    exact Bool.noConfusion x_finite
  | _ => rfl

theorem exists_unpack_of_infinite (x_infinite : x.isInf = true) :
    ∃ s, x.toModel.unpack = .infinity s := by
  unfold Float.isInf Float.Model.isInf at x_infinite
  cases h : x.toModel.unpack with
  | infinity s => exact ⟨s, rfl⟩
  | _ =>
    rw [h] at x_infinite
    exact Bool.noConfusion x_infinite

theorem value_of_infinite (x_infinite : x.isInf = true) : value x = edge ∨ value x = -edge := by
  obtain ⟨s, unpacked⟩ := exists_unpack_of_infinite x_infinite
  rw [value, unpacked, valueOf]
  cases s
  · exact .inr (neg_one_mul _)
  · exact .inl (one_mul _)

theorem finite_of_value (x_defined : x.isNaN = false) (low : -edge < value x)
    (high : value x < edge) : x.isFinite = true := by
  rcases finite_or_infinite x_defined with finite | infinite
  · exact finite
  · rcases value_of_infinite infinite with top | bottom
    · exact absurd top high.ne
    · exact absurd bottom low.ne'

theorem eq_of_unpack (same : x.toModel.unpack = y.toModel.unpack) : x = y := by
  have models : x.toModel = y.toModel := by rw [← pack_unpack x.toModel, same, pack_unpack]
  cases x
  cases y
  exact congrArg _ models

theorem unpack_of_finite (x_finite : x.isFinite = true) :
    (∃ s, x.toModel.unpack = .zero s) ∨ ∃ s m e h, x.toModel.unpack = .finite s m e h := by
  unfold Float.isFinite Float.Model.isFinite at x_finite
  cases h : x.toModel.unpack with
  | infinity s =>
    rw [h] at x_finite
    exact Bool.noConfusion x_finite
  | notANumber =>
    rw [h] at x_finite
    exact Bool.noConfusion x_finite
  | zero s => exact .inl ⟨s, rfl⟩
  | finite s m e pos => exact .inr ⟨s, m, e, pos, rfl⟩

theorem value_lt_edge (x_finite : x.isFinite = true) : -edge < value x ∧ value x < edge := by
  have range := inRange_unpack x
  have pos := edge_pos
  unfold value
  rcases unpack_of_finite x_finite with ⟨s, h⟩ | ⟨s, m, e, m_pos, h⟩ <;> rw [h] at range ⊢
  · exact ⟨neg_lt_zero.2 pos, pos⟩
  · obtain ⟨low, high⟩ := range.bounds
    cases s <;> simp only [valueOf, factor_positive, factor_negative] <;>
      constructor <;> linarith

theorem add_of_infinite (x_infinite : x.isInf = true) (y_finite : y.isFinite = true) :
    x + y = x := by
  obtain ⟨s, unpacked⟩ := exists_unpack_of_infinite x_infinite
  have same : UnpackedFloat.add .binary64 x.toModel.unpack y.toModel.unpack = x.toModel.unpack := by
    rw [unpacked]
    rcases unpack_of_finite y_finite with ⟨t, h⟩ | ⟨t, m, e, pos, h⟩ <;> rw [h] <;> rfl
  show Float.ofModel (Float.Model.pack _) = x
  rw [same, pack_unpack]

theorem add_of_infinite_right (x_finite : x.isFinite = true) (y_infinite : y.isInf = true) :
    x + y = y := by
  obtain ⟨s, unpacked⟩ := exists_unpack_of_infinite y_infinite
  have same : UnpackedFloat.add .binary64 x.toModel.unpack y.toModel.unpack = y.toModel.unpack := by
    rw [unpacked]
    rcases unpack_of_finite x_finite with ⟨t, h⟩ | ⟨t, m, e, pos, h⟩ <;> rw [h] <;> rfl
  show Float.ofModel (Float.Model.pack _) = y
  rw [same, pack_unpack]

theorem defined_add (x_defined : x.isNaN = false) (y_finite : y.isFinite = true) :
    (x + y).isNaN = false := by
  rcases finite_or_infinite x_defined with finite | infinite
  · exact (value_add finite y_finite).2
  · rwa [add_of_infinite infinite y_finite]

theorem defined_add_right (x_finite : x.isFinite = true) (y_defined : y.isNaN = false) :
    (x + y).isNaN = false := by
  rcases finite_or_infinite y_defined with finite | infinite
  · exact (value_add x_finite finite).2
  · rwa [add_of_infinite_right x_finite infinite]

theorem exists_unpack_of_pos (y_finite : y.isFinite = true) (pos : 0 < value y) :
    ∃ m e h, y.toModel.unpack = .finite .positive m e h := by
  unfold value at pos
  rcases unpack_of_finite y_finite with ⟨s, h⟩ | ⟨s, m, e, m_pos, h⟩ <;> rw [h] at pos
  · exact absurd pos (lt_irrefl _)
  · cases s with
    | positive => exact ⟨m, e, m_pos, h⟩
    | negative =>
      rw [valueOf, factor_negative, neg_one_mul] at pos
      linarith [magnitude_pos m_pos e]

theorem mul_of_infinite (x_infinite : x.isInf = true) (y_finite : y.isFinite = true)
    (pos : 0 < value y) : x * y = x := by
  obtain ⟨s, unpacked⟩ := exists_unpack_of_infinite x_infinite
  obtain ⟨m, e, m_pos, unpacked'⟩ := exists_unpack_of_pos y_finite pos
  have same : UnpackedFloat.mul .binary64 x.toModel.unpack y.toModel.unpack = x.toModel.unpack := by
    rw [unpacked, unpacked']
    cases s <;> rfl
  show Float.ofModel (Float.Model.pack _) = x
  rw [same, pack_unpack]

theorem div_of_infinite (x_infinite : x.isInf = true) (y_finite : y.isFinite = true)
    (pos : 0 < value y) : x / y = x := by
  obtain ⟨s, unpacked⟩ := exists_unpack_of_infinite x_infinite
  obtain ⟨m, e, m_pos, unpacked'⟩ := exists_unpack_of_pos y_finite pos
  have same : UnpackedFloat.div .binary64 x.toModel.unpack y.toModel.unpack = x.toModel.unpack := by
    rw [unpacked, unpacked']
    cases s <;> rfl
  show Float.ofModel (Float.Model.pack _) = x
  rw [same, pack_unpack]

end

/-! ## Monotone operations -/

/-- An operation that rounds a monotone one, and keeps infinity, is monotone. -/
theorem mono_of_rounds {f : Float → Float} {g : ℚ → ℚ} (mono : Monotone g)
    (finite : ∀ x, x.isFinite = true → value (f x) = nearest64 (g (value x)) ∧ (f x).isNaN = false)
    (infinite : ∀ x, x.isInf = true → f x = x) {x y : Float} (le : x ≤ y) : f x ≤ f y := by
  obtain ⟨x_defined, y_defined⟩ := defined_of_le le
  have values := (le_iff_value x_defined y_defined).1 le
  rcases finite_or_infinite x_defined with x_finite | x_infinite <;>
    rcases finite_or_infinite y_defined with y_finite | y_infinite
  · obtain ⟨x_value, fx_defined⟩ := finite x x_finite
    obtain ⟨y_value, fy_defined⟩ := finite y y_finite
    rw [le_iff_value fx_defined fy_defined, x_value, y_value]
    exact nearest64_mono (mono values)
  · have fx_defined := (finite x x_finite).2
    rw [infinite y y_infinite, le_iff_value fx_defined y_defined]
    rcases value_of_infinite y_infinite with top | bottom
    · rw [top]
      exact value_le_edge _
    · linarith [(value_lt_edge x_finite).1]
  · have fy_defined := (finite y y_finite).2
    rw [infinite x x_infinite, le_iff_value x_defined fy_defined]
    rcases value_of_infinite x_infinite with top | bottom
    · linarith [(value_lt_edge y_finite).2]
    · rw [bottom]
      exact neg_edge_le_value _
  · rw [infinite x x_infinite, infinite y y_infinite]
    exact le

section

variable {x y z : Float}

theorem add_le_add_of_finite (le : x ≤ y) (z_finite : z.isFinite = true) : x + z ≤ y + z :=
  mono_of_rounds (f := (· + z)) (g := (· + value z)) (fun _ _ le => by simpa using le)
    (fun _ x_finite => value_add x_finite z_finite)
    (fun _ x_infinite => add_of_infinite x_infinite z_finite) le

theorem add_le_add_of_finite_left (le : y ≤ z) (x_finite : x.isFinite = true) : x + y ≤ x + z :=
  mono_of_rounds (f := (x + ·)) (g := (value x + ·)) (fun _ _ le => by simpa using le)
    (fun _ y_finite => value_add x_finite y_finite)
    (fun _ y_infinite => add_of_infinite_right x_finite y_infinite) le

theorem add_le_add_of_le {w : Float} (le : x ≤ y) (le' : z ≤ w) (z_finite : z.isFinite = true)
    (w_finite : w.isFinite = true) : x + z ≤ y + w := by
  have y_defined := (defined_of_le le).2
  refine Binary64.le_trans (add_le_add_of_finite le z_finite) ?_
  rcases finite_or_infinite y_defined with y_finite | y_infinite
  · exact add_le_add_of_finite_left le' y_finite
  · rw [add_of_infinite y_infinite z_finite, add_of_infinite y_infinite w_finite]
    exact le_refl_of_defined y_defined

theorem mul_le_mul_of_pos (le : x ≤ y) (z_finite : z.isFinite = true) (pos : 0 < value z) :
    x * z ≤ y * z :=
  mono_of_rounds (f := (· * z)) (g := (· * value z))
    (fun _ _ le => mul_le_mul_of_nonneg_right le pos.le)
    (fun _ x_finite => value_mul x_finite z_finite)
    (fun _ x_infinite => mul_of_infinite x_infinite z_finite pos) le

theorem div_le_div_of_pos (le : x ≤ y) (z_finite : z.isFinite = true) (pos : 0 < value z) :
    x / z ≤ y / z :=
  mono_of_rounds (f := (· / z)) (g := (· / value z))
    (fun _ _ le => div_le_div_of_nonneg_right le pos.le)
    (fun _ x_finite => value_div x_finite z_finite pos.ne')
    (fun _ x_infinite => div_of_infinite x_infinite z_finite pos) le

end

/-! ## Values fix numbers -/

theorem eq_of_placeOf {u v : UnpackedFloat} (same : placeOf u = placeOf v)
    (nonzero : valueOf u ≠ 0) : u = v := by
  rcases u with (_ | _) | _ | _ | ⟨_ | _, m, e, m_pos⟩ <;>
    rcases v with (_ | _) | _ | _ | ⟨_ | _, n, f, n_pos⟩ <;>
      simp_all [placeOf, valueOf]

/-- Two numbers of the same value are the same, unless that is zero. -/
theorem eq_of_value {x y : Float} (x_defined : x.isNaN = false) (y_defined : y.isNaN = false)
    (same : value x = value y) (nonzero : value x ≠ 0) : x = y := by
  obtain ⟨p, x_place⟩ : ∃ p, place x = some p := exists_placeOf x_defined
  obtain ⟨q, y_place⟩ : ∃ q, place y = some q := exists_placeOf y_defined
  have not_lt : ¬ x < y := by rw [lt_iff_value x_defined y_defined, same]; exact lt_irrefl _
  have not_gt : ¬ y < x := by rw [lt_iff_value y_defined x_defined, same]; exact lt_irrefl _
  rw [lt_iff_place] at not_lt not_gt
  have places : p = q := by
    rcases lt_trichotomy p q with less | same | greater
    · exact absurd ⟨p, q, x_place, y_place, less⟩ not_lt
    · exact same
    · exact absurd ⟨q, p, y_place, x_place, greater⟩ not_gt
  refine eq_of_unpack (eq_of_placeOf ?_ nonzero)
  show place x = place y
  rw [x_place, y_place, places]

end Prognosis.Binary64
