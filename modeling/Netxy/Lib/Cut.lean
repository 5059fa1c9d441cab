import Mathlib.Data.List.Basic

/-!
# Cutting a list at a separator

The first occurrence of a separator in a list splits it into what comes before and what comes
behind.
-/

namespace Cut

variable {α : Type*} [DecidableEq α]

/-- What stands before and behind the first `sep`. -/
def cut (sep : List α) : List α → Option (List α × List α)
  | [] => none
  | c :: cs =>
    if sep.isPrefixOf (c :: cs) then some ([], (c :: cs).drop sep.length)
    else (cut sep cs).map fun r => (c :: r.1, r.2)

variable {p : α} {ps l : List α}

/-- A separator is found behind a text in which its first element does not occur. -/
theorem cut_append (h : p ∉ l) (r : List α) : cut (p :: ps) (l ++ p :: ps ++ r) = some (l, r) := by
  induction l with
  | nil =>
    have hprefix : (p :: ps).isPrefixOf (p :: (ps ++ r)) = true :=
      List.isPrefixOf_iff_prefix.mpr (List.prefix_append (p :: ps) r)
    change cut (p :: ps) (p :: (ps ++ r)) = _
    rw [cut, if_pos hprefix]
    exact congrArg (fun r => some ([], r)) (List.drop_left' rfl)
  | cons c cs ih =>
    rw [List.mem_cons, not_or] at h
    have hprefix : ¬ (p :: ps).isPrefixOf (c :: (cs ++ p :: ps ++ r)) = true := by
      rw [List.isPrefixOf_iff_prefix, List.cons_prefix_cons]
      exact fun hp => h.1 hp.1
    change cut (p :: ps) (c :: (cs ++ p :: ps ++ r)) = _
    rw [cut, if_neg hprefix, ih h.2]
    rfl

/-- What was cut makes the text again. -/
theorem eq_of_cut {sep : List α} {r : List α × List α} (h : cut sep l = some r) :
    l = r.1 ++ sep ++ r.2 := by
  induction l generalizing r with
  | nil => cases h
  | cons c cs ih =>
    rw [cut] at h
    split_ifs at h with hprefix
    · cases h
      exact (List.prefix_iff_eq_append.mp (List.isPrefixOf_iff_prefix.mp hprefix)).symm
    · obtain ⟨s, hs, rfl⟩ := Option.map_eq_some_iff.mp h
      exact congrArg (c :: ·) (ih hs)

end Cut
