import Mathlib.Data.List.Basic
import Mathlib.Data.List.GetD
import Mathlib.Algebra.Order.Group.Nat

/-!
# Bits in groups

The bits of words of one width, highest first, taken in groups of another width: what an
encoding of bytes by the letters of an alphabet rests on. `group_flatMap_msbs` and
`flatMap_msbs_group` say that grouping and writing out undo each other.
-/

namespace BitGroups

/-- The bits of a word, highest first. -/
def msbs {w : ℕ} (x : BitVec w) : List Bool := (List.range w).map x.getMsbD

/-- The word of width `w` with these bits, highest first. -/
def ofMsbs : (w : ℕ) → List Bool → BitVec w
  | 0, _ => 0
  | w + 1, bs => BitVec.cons (bs.headD false) (ofMsbs w bs.tail)

/-- The whole groups of `w` bits, as words. -/
def group (w : ℕ) (bs : List Bool) : List (BitVec w) :=
  (List.range (bs.length / w)).map fun k => ofMsbs w (bs.drop (k * w))

@[simp] theorem length_msbs {w : ℕ} (x : BitVec w) : (msbs x).length = w := by
  rw [msbs, List.length_map, List.length_range]

theorem length_flatMap_msbs {w : ℕ} (xs : List (BitVec w)) :
    (xs.flatMap msbs).length = xs.length * w := by
  induction xs with
  | nil => rw [List.flatMap_nil, List.length_nil, List.length_nil, Nat.zero_mul]
  | cons x xs ih =>
    rw [List.flatMap_cons, List.length_append, length_msbs, ih, List.length_cons, Nat.succ_mul,
      Nat.add_comm]

/-- The bits of the first words. -/
theorem flatMap_msbs_take {w : ℕ} (xs : List (BitVec w)) (k : ℕ) :
    (xs.take k).flatMap msbs = (xs.flatMap msbs).take (k * w) := by
  induction k generalizing xs with
  | zero => rw [List.take_zero, List.flatMap_nil, Nat.zero_mul, List.take_zero]
  | succ k ih =>
    rcases xs with _ | ⟨x, xs⟩
    · rw [List.take_nil, List.flatMap_nil, List.take_nil]
    · have htake : (msbs x ++ xs.flatMap msbs).take (w + k * w) =
          msbs x ++ (xs.flatMap msbs).take (k * w) := by
        have hx : (msbs x).take (w + k * w) = msbs x := by
          apply List.take_of_length_le
          rw [length_msbs]
          exact Nat.le_add_right w (k * w)
        rw [List.take_append, length_msbs, Nat.add_sub_cancel_left, hx]
      rw [List.take_succ_cons, List.flatMap_cons, List.flatMap_cons, ih, Nat.succ_mul,
        Nat.add_comm, htake]

theorem length_group (w : ℕ) (bs : List Bool) : (group w bs).length = bs.length / w := by
  rw [group, List.length_map, List.length_range]

theorem getMsbD_ofMsbs (w : ℕ) (bs : List Bool) (i : ℕ) (hi : i < w) :
    (ofMsbs w bs).getMsbD i = bs.getD i false := by
  induction w generalizing bs i with
  | zero => omega
  | succ w ih =>
    rw [ofMsbs]
    cases i with
    | zero =>
      rw [BitVec.getMsbD_cons_zero]
      cases bs <;> rfl
    | succ i =>
      rw [BitVec.getMsbD_cons_succ, ih bs.tail i (by omega)]
      cases bs <;> rfl

/-- Only the first `w` bits matter. -/
theorem ofMsbs_append {w : ℕ} {bs : List Bool} (h : bs.length = w) (cs : List Bool) :
    ofMsbs w (bs ++ cs) = ofMsbs w bs := by
  apply BitVec.eq_of_getMsbD_eq
  intro i hi
  rw [getMsbD_ofMsbs w _ i hi, getMsbD_ofMsbs w _ i hi, List.getD_append _ _ _ _ (by omega)]

theorem ofMsbs_msbs {w : ℕ} (x : BitVec w) : ofMsbs w (msbs x) = x := by
  apply BitVec.eq_of_getMsbD_eq
  intro i hi
  rw [getMsbD_ofMsbs w _ i hi, List.getD_eq_getElem _ _ (by rwa [length_msbs])]
  simp only [msbs, List.getElem_map, List.getElem_range]

theorem msbs_ofMsbs {w : ℕ} {bs : List Bool} (h : bs.length = w) : msbs (ofMsbs w bs) = bs := by
  apply List.ext_getElem
  · rw [length_msbs, h]
  · intro i hi hi'
    simp only [msbs, List.getElem_map, List.getElem_range]
    rw [getMsbD_ofMsbs w bs i (by omega), List.getD_eq_getElem _ _ hi']

/-! ## Groups -/

theorem group_of_lt {w : ℕ} {bs : List Bool} (h : bs.length < w) : group w bs = [] := by
  rw [group, Nat.div_eq_of_lt h, List.range_zero, List.map_nil]

/-- The first group, and the groups of the rest. -/
theorem group_append {w : ℕ} (hw : 0 < w) {bs : List Bool} (h : bs.length = w) (cs : List Bool) :
    group w (bs ++ cs) = ofMsbs w bs :: group w cs := by
  have hlen : (bs ++ cs).length / w = cs.length / w + 1 := by
    rw [List.length_append, h, Nat.add_comm, Nat.add_div_right _ hw]
  rw [group, hlen, List.range_succ_eq_map, List.map_cons, List.map_map]
  congr 1
  · rw [Nat.zero_mul, List.drop_zero, ofMsbs_append h]
  · apply List.map_congr_left
    intro k _
    show ofMsbs w ((bs ++ cs).drop ((k + 1) * w)) = _
    rw [Nat.succ_mul, Nat.add_comm, ← List.drop_drop, List.drop_left' h]

/-- A word in front of the bits is the first group. -/
theorem group_msbs_append {w : ℕ} (hw : 0 < w) (x : BitVec w) (cs : List Bool) :
    group w (msbs x ++ cs) = x :: group w cs := by
  rw [group_append hw (length_msbs x), ofMsbs_msbs]

/-- Whole groups in front are grouped by themselves. -/
theorem group_append_of_dvd {w : ℕ} (hw : 0 < w) {bs : List Bool} (h : w ∣ bs.length)
    (cs : List Bool) : group w (bs ++ cs) = group w bs ++ group w cs := by
  obtain ⟨k, hk⟩ := h
  induction k generalizing bs with
  | zero =>
    have hbs : bs = [] := List.eq_nil_of_length_eq_zero (by rw [hk, Nat.mul_zero])
    have hnil : group w [] = [] := group_of_lt hw
    rw [hbs, List.nil_append, hnil, List.nil_append]
  | succ k ih =>
    have htake : (bs.take w).length = w := by
      rw [List.length_take, hk, Nat.mul_succ]
      omega
    have hrest : (bs.drop w).length = w * k := by
      rw [List.length_drop, hk, Nat.mul_succ]
      omega
    rw [← List.take_append_drop w bs, List.append_assoc, group_append hw htake, ih hrest,
      group_append hw htake, List.cons_append]

/-- **Writing words out and grouping** gives the words back; less than a group behind them is
dropped. -/
theorem group_flatMap_msbs {w : ℕ} (hw : 0 < w) (xs : List (BitVec w)) {r : List Bool}
    (h : r.length < w) : group w (xs.flatMap msbs ++ r) = xs := by
  induction xs with
  | nil => exact group_of_lt h
  | cons x xs ih =>
    rw [List.flatMap_cons, List.append_assoc, group_msbs_append hw, ih]

/-- **Grouping and writing out** gives whole groups of bits back. -/
theorem flatMap_msbs_group {w : ℕ} (hw : 0 < w) {bs : List Bool} (h : w ∣ bs.length) :
    (group w bs).flatMap msbs = bs := by
  obtain ⟨k, hk⟩ := h
  induction k generalizing bs with
  | zero =>
    have hbs : bs = [] := List.eq_nil_of_length_eq_zero (by rw [hk, Nat.mul_zero])
    rw [hbs, group_of_lt hw, List.flatMap_nil]
  | succ k ih =>
    have htake : (bs.take w).length = w := by
      rw [List.length_take, hk, Nat.mul_succ]
      omega
    have hrest : (bs.drop w).length = w * k := by
      rw [List.length_drop, hk, Nat.mul_succ]
      omega
    have hgroup := group_append hw htake (bs.drop w)
    rw [List.take_append_drop] at hgroup
    rw [hgroup, List.flatMap_cons, ih hrest, msbs_ofMsbs htake, List.take_append_drop]

end BitGroups
