import Prognosis.Engine
import Prognosis.History

/-!
# Histories as windows over a stream

`lastOf n` keeps the last `n` values of a stream, and taking more values commutes with it
(`lastOf_append`).  A history therefore shows the last values of all that it ever took in
(`History.toList_extend`), however they were cut into batches.
-/

namespace Prognosis

variable {β : Type}

/-! ## The last values of a list -/

@[simp] theorem lastOf_nil (n : Nat) : lastOf n ([] : List β) = [] := by
  rw [lastOf, List.drop_nil]

theorem lastOf_of_length_le {n : Nat} {xs : List β} (h : xs.length ≤ n) : lastOf n xs = xs := by
  rw [lastOf, Nat.sub_eq_zero_of_le h, List.drop_zero]

@[simp] theorem length_lastOf (n : Nat) (xs : List β) :
    (lastOf n xs).length = min xs.length n := by
  rw [lastOf, List.length_drop]
  omega

theorem lastOf_lastOf {m n : Nat} (h : m ≤ n) (xs : List β) :
    lastOf m (lastOf n xs) = lastOf m xs := by
  have len := length_lastOf n xs
  rw [lastOf, len, lastOf, List.drop_drop, lastOf]
  congr 1
  omega

/-- Values in front of a full window do not show. -/
theorem lastOf_append_right {n : Nat} (xs : List β) {ys : List β} (h : n ≤ ys.length) :
    lastOf n (xs ++ ys) = lastOf n ys := by
  have start : (xs ++ ys).length - n = xs.length + (ys.length - n) := by
    rw [List.length_append]
    omega
  rw [lastOf, start, List.drop_append, List.drop_of_length_le (by omega), List.nil_append,
    Nat.add_sub_cancel_left, lastOf]

/-- What falls out of the window before more values come would fall out afterwards. -/
theorem lastOf_append (n : Nat) (xs ys : List β) :
    lastOf n (lastOf n xs ++ ys) = lastOf n (xs ++ ys) := by
  by_cases h : xs.length ≤ n
  · rw [lastOf_of_length_le h]
  · have full : n ≤ (lastOf n xs ++ ys).length := by
      rw [List.length_append, length_lastOf]
      omega
    have split : xs ++ ys = xs.take (xs.length - n) ++ (lastOf n xs ++ ys) := by
      rw [lastOf, ← List.append_assoc, List.take_append_drop]
    rw [split, lastOf_append_right _ full]

theorem getLast?_lastOf {n : Nat} (pos : 0 < n) (xs : List β) :
    (lastOf n xs).getLast? = xs.getLast? := by
  rcases Nat.eq_zero_or_pos xs.length with h | h
  · rw [List.length_eq_zero_iff.1 h, lastOf_nil]
  · rw [lastOf, List.getLast?_drop, if_neg (by omega)]

/-! ## Histories -/

namespace History

@[simp] theorem capacity_settle (h : History β) : h.settle.capacity = h.capacity := rfl

theorem length_le (h : History β) : h.toList.length ≤ h.capacity := by
  rw [length_toList]
  exact h.size_le

/-- A push moves the window by one value. -/
theorem toList_push_eq (h : History β) (b : β) :
    (h.push b).toList = lastOf h.capacity (h.toList ++ [b]) := by
  have le := h.size_le
  have len : (h.toList ++ [b]).length = h.size + 1 := by
    rw [List.length_append, length_toList, List.length_singleton]
  rw [toList_push, lastOf, len]
  split
  · next room => rw [Nat.sub_eq_zero_of_le (by omega), List.drop_zero]
  · next full =>
    rw [show h.size + 1 - h.capacity = 1 by omega, List.drop_one]

@[simp] theorem capacity_extend (h : History β) (bs : List β) :
    (h.extend bs).capacity = h.capacity := by
  induction bs generalizing h with
  | nil => rfl
  | cons b bs ih => rw [extend_cons, ih, capacity_push]

/-- A history shows the last values of all that it has taken in. -/
theorem toList_extend (h : History β) (bs : List β) :
    (h.extend bs).toList = lastOf h.capacity (h.toList ++ bs) := by
  induction bs generalizing h with
  | nil => rw [extend_nil, List.append_nil, lastOf_of_length_le h.length_le]
  | cons b bs ih =>
    rw [extend_cons, ih, capacity_push, toList_push_eq, lastOf_append, List.append_assoc,
      List.singleton_append]

end History

end Prognosis
