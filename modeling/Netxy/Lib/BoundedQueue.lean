import Mathlib.Data.Nat.Notation
import Mathlib.Data.List.Basic

/-!
# Queues of a bounded length

Items go in at the back and come out at the front, and there is room for so many of them. What
does not fit as a whole is not taken at all.
-/

/-- A queue with room for `capacity` items. -/
@[ext] structure BoundedQueue (α : Type*) where
  capacity : ℕ
  items : List α
  length_le : items.length ≤ capacity

namespace BoundedQueue

variable {α : Type*}

def empty (capacity : ℕ) : BoundedQueue α := ⟨capacity, [], Nat.zero_le _⟩

/-- The number of items that still fit. -/
def room (q : BoundedQueue α) : ℕ := q.capacity - q.items.length

/-- All the items at the back, if they fit. -/
def push? (q : BoundedQueue α) (xs : List α) : Option (BoundedQueue α) :=
  if h : xs.length ≤ q.room then
    some
      { capacity := q.capacity
        items := q.items ++ xs
        length_le := by
          have hle := q.length_le
          rw [room] at h
          rw [List.length_append]
          omega }
  else none

/-- A push, and whether the items were taken. -/
def push (q : BoundedQueue α) (xs : List α) : BoundedQueue α × Bool :=
  match q.push? xs with
  | some q' => (q', true)
  | none => (q, false)

/-- Without the first `n` items. -/
def drop (q : BoundedQueue α) (n : ℕ) : BoundedQueue α where
  capacity := q.capacity
  items := q.items.drop n
  length_le := by
    have hle := q.length_le
    rw [List.length_drop]
    omega

/-- Without any items. -/
def clear (q : BoundedQueue α) : BoundedQueue α := ⟨q.capacity, [], Nat.zero_le _⟩

theorem push?_eq_some {q : BoundedQueue α} {xs : List α} (h : xs.length ≤ q.room) :
    ∃ q', q.push? xs = some q' ∧ q'.capacity = q.capacity ∧ q'.items = q.items ++ xs :=
  ⟨_, dif_pos h, rfl, rfl⟩

theorem push_of_le {q : BoundedQueue α} {xs : List α} (h : xs.length ≤ q.room) :
    (q.push xs).2 = true ∧ (q.push xs).1.capacity = q.capacity ∧
      (q.push xs).1.items = q.items ++ xs := by
  obtain ⟨q', hq, hcapacity, hitems⟩ := push?_eq_some h
  rw [push, hq]
  exact ⟨rfl, hcapacity, hitems⟩

theorem push_of_lt {q : BoundedQueue α} {xs : List α} (h : q.room < xs.length) :
    q.push xs = (q, false) := by
  have hnone : q.push? xs = none := dif_neg (by omega)
  rw [push, hnone]

end BoundedQueue
