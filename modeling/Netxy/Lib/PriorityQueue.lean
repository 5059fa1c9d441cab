import Mathlib.Data.List.Basic
import Mathlib.Data.List.MinMax
import Mathlib.Data.Nat.Notation

/-!
# Priority queues

A queue is the list of its elements, in whatever order, with a comparator: `less x y` puts `x`
behind `y`. What comes out next is an element that is behind no other one; which of several
such elements it is, is left open.
-/

namespace PriorityQueue

variable {α κ : Type*}

/-- `x` may be on top of the queue `q`. -/
def IsTop (less : α → α → Bool) (q : List α) (x : α) : Prop :=
  x ∈ q ∧ ∀ y ∈ q, less x y = false

instance decidableIsTop [DecidableEq α] (less : α → α → Bool) (q : List α) (x : α) :
    Decidable (IsTop less q x) := inferInstanceAs (Decidable (_ ∧ _))

variable [LinearOrder κ] {key : α → κ} {q : List α} {x : α}

/-- Where larger keys are behind, the key on top is minimal. -/
theorem isTop_iff_minimal :
    IsTop (fun l r => decide (key r < key l)) q x ↔ x ∈ q ∧ ∀ y ∈ q, key x ≤ key y := by
  simp only [IsTop, decide_eq_false_iff_not, not_lt]

/-- A bound below the top is below the whole queue. -/
theorem le_of_le_top {b : κ} (h : IsTop (fun l r => decide (key r < key l)) q x)
    (hb : b ≤ key x) : ∀ y ∈ q, b ≤ key y := by
  intro y hy
  exact hb.trans ((isTop_iff_minimal.mp h).2 y hy)

/-- A queue that is not empty has a top. -/
theorem exists_isTop (h : q ≠ []) :
    ∃ x, IsTop (fun l r => decide (key r < key l)) q x := by
  obtain ⟨x, hx⟩ := Option.ne_none_iff_exists'.mp (mt (List.argmin_eq_none (f := key)).mp h)
  exact ⟨x, isTop_iff_minimal.mpr
    ⟨List.argmin_mem (f := key) hx, fun y hy => List.le_of_mem_argmin (f := key) hy hx⟩⟩

end PriorityQueue
