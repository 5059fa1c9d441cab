import Mathlib.Data.List.Basic

/-!
# Logs of spans

A producer reports data of several kinds in spans, and notes between them. How it cuts the
data into spans is up to it, so two logs say the same when they agree after neighbouring spans
of one kind are put together. `Same` is that relation, closed under what may still follow.
-/

namespace Spans

/-- A span of data of one kind, or a note. -/
inductive Event (κ ν β : Type*)
  | data (k : κ) (bytes : List β)
  | note (n : ν)
deriving DecidableEq, Repr

variable {κ ν β : Type*} [DecidableEq κ]

/-- An event in front of a log; a span is put together with one of its kind. -/
def push : Event κ ν β → List (Event κ ν β) → List (Event κ ν β)
  | .data k a, .data k' b :: r =>
    if k = k' then .data k (a ++ b) :: r else .data k a :: .data k' b :: r
  | e, r => e :: r

/-- The log with neighbouring spans of one kind put together. -/
def coalesce (l : List (Event κ ν β)) : List (Event κ ν β) := l.foldr push []

/-- Logs that agree when they are coalesced, whatever follows. -/
def Same (x y : List (Event κ ν β)) : Prop := ∀ z, coalesce (x ++ z) = coalesce (y ++ z)

theorem push_push_data (k : κ) (a b : List β) (r : List (Event κ ν β)) :
    push (.data k a) (push (.data k b) r) = push (.data k (a ++ b)) r := by
  rcases r with _ | ⟨e, r⟩
  · show (if k = k then _ else _) = _
    rw [if_pos rfl]
    rfl
  · cases e with
    | note n =>
      show (if k = k then _ else _) = _
      rw [if_pos rfl]
      rfl
    | data k' c =>
      by_cases h : k = k'
      · simp only [push, if_pos h, if_true, List.append_assoc]
      · simp only [push, if_neg h, if_true]

theorem coalesce_append (x y : List (Event κ ν β)) :
    coalesce (x ++ y) = x.foldr push (coalesce y) := by
  rw [coalesce, List.foldr_append, coalesce]

theorem Same.refl (x : List (Event κ ν β)) : Same x x := fun _ => rfl

theorem Same.symm {x y : List (Event κ ν β)} (h : Same x y) : Same y x := fun z => (h z).symm

theorem Same.trans {x y w : List (Event κ ν β)} (h : Same x y) (h' : Same y w) : Same x w :=
  fun z => (h z).trans (h' z)

theorem Same.append_right {x y : List (Event κ ν β)} (h : Same x y) (z : List (Event κ ν β)) :
    Same (x ++ z) (y ++ z) := by
  intro w
  rw [List.append_assoc, List.append_assoc]
  exact h (z ++ w)

/-- A span that is cut in two says the same. -/
theorem same_cut (x : List (Event κ ν β)) (k : κ) (a b : List β) :
    Same (x ++ [.data k a] ++ [.data k b]) (x ++ [.data k (a ++ b)]) := by
  intro z
  rw [List.append_assoc, List.append_assoc, List.append_assoc, coalesce_append x,
    coalesce_append x]
  congr 1
  exact push_push_data k a b (coalesce z)

end Spans
