/-!
# Bounded histories

A history keeps the latest values of a stream, at most `capacity` of them.  They stand in a queue
of two parts, old values in front and new ones behind in reverse order.  `toList` is the content,
oldest first, and every operation is described by what it does to that list.
-/

namespace Prognosis

/-! ## Queues -/

/-- A queue in two parts. -/
structure Queue (β : Type) where
  /-- Old values, oldest first. -/
  front : List β
  /-- New values, newest first. -/
  back : List β
  /-- The number of values. -/
  size : Nat
  size_eq : size = front.length + back.length := by simp

namespace Queue

variable {β : Type}

def toList (q : Queue β) : List β := q.front ++ q.back.reverse

@[simp] theorem length_toList (q : Queue β) : q.toList.length = q.size := by
  rw [toList, List.length_append, List.length_reverse, q.size_eq]

def empty : Queue β where
  front := []
  back := []
  size := 0
  size_eq := rfl

def append (q : Queue β) (b : β) : Queue β where
  front := q.front
  back := b :: q.back
  size := q.size + 1
  size_eq := by rw [q.size_eq, List.length_cons, Nat.add_assoc]

@[simp] theorem size_append (q : Queue β) (b : β) : (q.append b).size = q.size + 1 := rfl

@[simp] theorem toList_append (q : Queue β) (b : β) : (q.append b).toList = q.toList ++ [b] := by
  simp [append, toList]

/-- The queue without its oldest value.  When the front has run out, the new values come to the
front. -/
def tail (q : Queue β) : Queue β :=
  match front_eq : q.front with
  | _ :: rest =>
    { front := rest
      back := q.back
      size := q.size - 1
      size_eq := by have := q.size_eq; rw [front_eq, List.length_cons] at this; omega }
  | [] =>
    { front := q.back.reverse.tail
      back := []
      size := q.size - 1
      size_eq := by have := q.size_eq; rw [front_eq] at this; simp_all }

@[simp] theorem size_tail (q : Queue β) : q.tail.size = q.size - 1 := by
  unfold tail
  split <;> rfl

@[simp] theorem toList_tail (q : Queue β) : q.tail.toList = q.toList.tail := by
  unfold tail
  split
  · next front_eq => simp [toList, front_eq]
  · next front_eq => simp [toList, front_eq]

/-- Lets the oldest values go for as long as there are more than the capacity. -/
def evict (capacity : Nat) (q : Queue β) : Queue β :=
  if capacity < q.size then evict capacity q.tail else q
termination_by q.size
decreasing_by rw [size_tail]; omega

theorem size_evict_le (capacity : Nat) (q : Queue β) : (q.evict capacity).size ≤ capacity := by
  fun_induction evict capacity q with
  | case1 q more ih => exact ih
  | case2 q fits => exact Nat.le_of_not_lt fits

theorem toList_evict (capacity : Nat) (q : Queue β) :
    (q.evict capacity).toList = q.toList.drop (q.size - capacity) := by
  fun_induction evict capacity q with
  | case1 q more ih =>
    rw [ih, toList_tail, size_tail, List.drop_tail]
    congr 1
    omega
  | case2 q fits => rw [Nat.sub_eq_zero_of_le (Nat.le_of_not_lt fits), List.drop_zero]

def settle (q : Queue β) : Queue β where
  front := q.toList
  back := []
  size := q.size

@[simp] theorem toList_settle (q : Queue β) : q.settle.toList = q.toList :=
  List.append_nil q.toList

end Queue

/-! ## Histories -/

/-- The latest values of a stream, at least one and at most `capacity` of them. -/
structure History (β : Type) extends Queue β where
  capacity : Nat
  capacity_pos : 0 < capacity := by omega
  size_le : size ≤ capacity := by omega

namespace History

variable {β : Type}

def toList (h : History β) : List β := h.toQueue.toList

@[simp] theorem length_toList (h : History β) : h.toList.length = h.size := h.toQueue.length_toList

/-- An empty history; capacity zero acts as one. -/
def withCapacity (capacity : Nat) : History β where
  toQueue := .empty
  capacity := max capacity 1
  capacity_pos := Nat.le_max_right ..
  size_le := Nat.zero_le _

@[simp] theorem toList_withCapacity (n : Nat) : (withCapacity n : History β).toList = [] := rfl

@[simp] theorem capacity_withCapacity (n : Nat) :
    (withCapacity n : History β).capacity = max n 1 := rfl

/-- The capacity where none is configured: a day at five-minute cadence. -/
def standardCapacity : Nat := 288

def settle (h : History β) : History β :=
  { h with toQueue := h.toQueue.settle, size_le := h.size_le }

@[simp] theorem toList_settle (h : History β) : h.settle.toList = h.toList :=
  h.toQueue.toList_settle

/-- Takes in a value and lets the oldest ones go until all the others have room. -/
def push (h : History β) (b : β) : History β where
  toQueue := (h.toQueue.append b).evict h.capacity
  capacity := h.capacity
  capacity_pos := h.capacity_pos
  size_le := Queue.size_evict_le ..

@[simp] theorem capacity_push (h : History β) (b : β) : (h.push b).capacity = h.capacity := rfl

/-- A full history loses its oldest value, any other keeps all. -/
theorem toList_push (h : History β) (b : β) :
    (h.push b).toList =
      if h.size < h.capacity then h.toList ++ [b] else (h.toList ++ [b]).tail := by
  have content : (h.push b).toList = (h.toList ++ [b]).drop (h.size + 1 - h.capacity) := by
    rw [toList, push, Queue.toList_evict, Queue.toList_append, Queue.size_append, toList]
  rw [content]
  split
  · next room => rw [Nat.sub_eq_zero_of_le room, List.drop_zero]
  · next full =>
    have le := h.size_le
    rw [show h.size + 1 - h.capacity = 1 by omega, List.drop_one]

def extend (h : History β) (bs : List β) : History β := bs.foldl push h

@[simp] theorem extend_nil (h : History β) : h.extend [] = h := rfl

@[simp] theorem extend_cons (h : History β) (b : β) (bs : List β) :
    h.extend (b :: bs) = (h.push b).extend bs := rfl

theorem extend_append (h : History β) (bs cs : List β) :
    h.extend (bs ++ cs) = (h.extend bs).extend cs := by
  simp [extend]

/-- The content as one piece, oldest value first, with the history that it is a piece of. -/
def samples (h : History β) : List β × History β := (h.settle.front, h.settle)

def reversed (h : History β) : List β := h.back ++ h.front.reverse

def latest? (h : History β) : Option β := h.toList.getLast?

def isEmpty (h : History β) : Bool := h.size = 0

end History

end Prognosis
