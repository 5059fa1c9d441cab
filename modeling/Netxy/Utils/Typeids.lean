import Mathlib.Data.List.Nodup
import Mathlib.Data.List.Range
import Mathlib.Tactic.Linarith

/-!
# `TypeIDS`: a growing table of recycled slots

`TypeIDS<T>` for a pointer type `T`; a null pointer is `none`. Slots are handed out from the
back of `mIds`, so `mIds` is listed here with its back first. The assertions are passed, as
in a build without them.

`TypeIDS.Serves` says that the table holds just the given objects, each in its own slot, and
that every other slot is free. Claiming and reclaiming keep it.
-/

namespace Netxy

/-- `TypeIDS<T>`: the values by id, and the ids that are free. -/
structure TypeIDS (α : Type*) where
  mValues : List (Option α)
  mIds : List ℕ
deriving DecidableEq, Repr

namespace TypeIDS

variable {α : Type*}

def empty : TypeIDS α := ⟨[], []⟩

/-- `_NUM` in `increase`. -/
def batch : ℕ := 100

/-- `increase`, by 100 slots at a time. -/
def increase (t : TypeIDS α) : TypeIDS α :=
  let oldsize := t.mValues.length
  { mValues := t.mValues ++ List.replicate batch none
    mIds := (List.range' oldsize batch).reverse ++ t.mIds }

/-- `none` is the exception "no memory in TypeIDS::claimID". -/
def claimID (t : TypeIDS α) : Option (ℕ × TypeIDS α) :=
  let t := if t.mIds = [] then t.increase else t
  match t.mIds with
  | [] => none
  | id :: ids => some (id, { t with mIds := ids })

/-- `reclaimID`. -/
def reclaimID (t : TypeIDS α) (id : ℕ) : TypeIDS α := { t with mIds := id :: t.mIds }

/-- `set`; its answer, which no caller reads, is left out. -/
def set (t : TypeIDS α) (v : Option α) (id : ℕ) : TypeIDS α :=
  if id < t.mValues.length then { t with mValues := t.mValues.set id v } else t

/-- `get(id, out) && out != nullptr`; moving a raw pointer out of the table leaves it there. -/
def get (t : TypeIDS α) (id : ℕ) : Option α := (t.mValues[id]?).join

@[simp] theorem reclaimID_mValues (t : TypeIDS α) (id : ℕ) :
    (t.reclaimID id).mValues = t.mValues := rfl

@[simp] theorem reclaimID_mIds (t : TypeIDS α) (id : ℕ) :
    (t.reclaimID id).mIds = id :: t.mIds := rfl

@[simp] theorem reclaimID_get (t : TypeIDS α) (id k : ℕ) :
    (t.reclaimID id).get k = t.get k := rfl

@[simp] theorem set_mIds (t : TypeIDS α) (v : Option α) (id : ℕ) :
    (t.set v id).mIds = t.mIds := by
  unfold set
  split <;> rfl

@[simp] theorem length_set (t : TypeIDS α) (v : Option α) (id : ℕ) :
    (t.set v id).mValues.length = t.mValues.length := by
  unfold set
  split
  · exact List.length_set
  · rfl

/-- What was set is got. -/
theorem get_set_self {t : TypeIDS α} {id : ℕ} (v : Option α) (h : id < t.mValues.length) :
    (t.set v id).get id = v := by
  simp only [set, if_pos h, get, List.getElem?_set_self h, Option.join_some]

/-- Another id's value is left alone. -/
theorem get_set_of_ne {t : TypeIDS α} {id k : ℕ} (v : Option α) (h : k ≠ id) :
    (t.set v id).get k = t.get k := by
  unfold set
  split
  · simp only [get, List.getElem?_set_ne h.symm]
  · rfl

/-- An entry found after a `set` is the one set or was there before. -/
theorem get_of_get_set {t : TypeIDS α} {v : Option α} {id k : ℕ} {p : α}
    (h : (t.set v id).get k = some p) : k = id ∧ v = some p ∨ k ≠ id ∧ t.get k = some p := by
  by_cases hk : k = id
  · subst hk
    by_cases hlt : k < t.mValues.length
    · rw [get_set_self v hlt] at h
      exact .inl ⟨rfl, h⟩
    · rw [set, if_neg hlt, get, List.getElem?_eq_none (not_lt.mp hlt)] at h
      cases h
  · rw [get_set_of_ne v hk] at h
    exact .inr ⟨hk, h⟩

/-- Only the slots that there are hold something. -/
theorem lt_of_get {t : TypeIDS α} {id : ℕ} {p : α} (h : t.get id = some p) :
    id < t.mValues.length := by
  by_contra hlt
  rw [get, List.getElem?_eq_none (not_lt.mp hlt)] at h
  cases h

/-! ## What a claim does -/

/-- A claim from a nonempty `mIds`. -/
theorem claimID_cons {t : TypeIDS α} {id : ℕ} {ids : List ℕ} (h : t.mIds = id :: ids) :
    t.claimID = some (id, { t with mIds := ids }) := by
  simp only [claimID, h, reduceCtorEq, if_false]

/-- A claim from an empty `mIds` opens a batch and takes its last slot. -/
theorem claimID_nil {t : TypeIDS α} (h : t.mIds = []) :
    t.claimID = some (t.mValues.length + 99,
      { mValues := t.mValues ++ List.replicate 100 none
        mIds := (List.range' t.mValues.length 99).reverse }) := by
  have hrange : (List.range' t.mValues.length 100).reverse =
      (t.mValues.length + 99) :: (List.range' t.mValues.length 99).reverse := by
    rw [show (100 : ℕ) = 99 + 1 from rfl, List.range'_concat, List.reverse_append, one_mul]
    rfl
  simp only [claimID, h, if_true, increase, batch, hrange, List.append_nil]

/-- No claim throws. -/
theorem claimID_isSome (t : TypeIDS α) : t.claimID.isSome := by
  rcases h : t.mIds with _ | ⟨id, ids⟩
  · rw [claimID_nil h]
    rfl
  · rw [claimID_cons h]
    rfl

/-- A claim leaves what the table holds as it is. -/
theorem get_claimID {t t' : TypeIDS α} {id : ℕ} (h : t.claimID = some (id, t')) (k : ℕ) :
    t'.get k = t.get k := by
  rcases hids : t.mIds with _ | ⟨i, ids⟩
  · rw [claimID_nil hids, Option.some.injEq, Prod.mk.injEq] at h
    obtain ⟨-, rfl⟩ := h
    rcases Nat.lt_or_ge k t.mValues.length with hlt | hge
    · rw [get, get, List.getElem?_append_left hlt]
    · rw [get, get, List.getElem?_append_right hge, List.getElem?_eq_none hge,
        List.getElem?_replicate]
      split <;> rfl
  · rw [claimID_cons hids, Option.some.injEq, Prod.mk.injEq] at h
    obtain ⟨-, rfl⟩ := h
    rfl

/-! ## The table of a set of live objects -/

/-- The table holds the live objects in their slots, and all its other slots are free. -/
structure Serves (t : TypeIDS α) (live : List α) (slot : α → ℕ) : Prop where
  nodup : t.mIds.Nodup
  lt : ∀ k ∈ t.mIds, k < t.mValues.length
  held : ∀ p ∈ live, t.get (slot p) = some p
  free : ∀ p ∈ live, slot p ∉ t.mIds
  cover : ∀ k < t.mValues.length, k ∈ t.mIds ∨ ∃ p ∈ live, slot p = k
  card : t.mValues.length = live.length + t.mIds.length
  dvd : batch ∣ t.mValues.length

/-- A table without slots serves nobody. -/
theorem serves_empty (slot : α → ℕ) : (empty : TypeIDS α).Serves [] slot where
  nodup := List.nodup_nil
  lt _ h := absurd h List.not_mem_nil
  held _ h := absurd h List.not_mem_nil
  free _ h := absurd h List.not_mem_nil
  cover _ h := absurd h (Nat.not_lt_zero _)
  card := rfl
  dvd := dvd_zero _

variable {t t' : TypeIDS α} {live : List α} {slot : α → ℕ}

/-- Two that are served have different slots. -/
theorem Serves.slot_inj (h : t.Serves live slot) {p q : α} (hp : p ∈ live) (hq : q ∈ live)
    (heq : slot p = slot q) : p = q := by
  have hheld := h.held p hp
  rw [heq, h.held q hq] at hheld
  exact (Option.some.inj hheld).symm

/-- What a claim leaves: the claimed slot is in the table, held by none and free no more. -/
theorem Serves.claim (h : t.Serves live slot) {id : ℕ} (hclaim : t.claimID = some (id, t')) :
    id < t'.mValues.length ∧ (∀ p ∈ live, slot p ≠ id) ∧ (id :: t'.mIds).Nodup ∧
      (∀ k ∈ t'.mIds, k < t'.mValues.length) ∧ (∀ p ∈ live, slot p ∉ t'.mIds) ∧
      (∀ k < t'.mValues.length, k = id ∨ k ∈ t'.mIds ∨ ∃ p ∈ live, slot p = k) ∧
      t'.mValues.length = live.length + t'.mIds.length + 1 ∧ batch ∣ t'.mValues.length := by
  rcases hids : t.mIds with _ | ⟨i, ids⟩
  · -- no slot is free: the table grows by a batch of them above all the live ones
    rw [claimID_nil hids, Option.some.injEq, Prod.mk.injEq] at hclaim
    obtain ⟨rfl, rfl⟩ := hclaim
    have hslot : ∀ p ∈ live, slot p < t.mValues.length := fun p hp => lt_of_get (h.held p hp)
    have hcard := h.card
    rw [hids, List.length_nil] at hcard
    simp only [List.length_append, List.length_replicate, List.nodup_cons, List.mem_reverse,
      List.mem_range'_1, List.nodup_reverse, List.length_reverse, List.length_range']
    refine ⟨by omega, fun p hp => ?_, ⟨by omega, List.nodup_range'⟩, fun k hk => by omega,
      fun p hp => ?_, fun k hk => ?_, by omega, (Nat.dvd_add_right h.dvd).mpr (dvd_refl _)⟩
    · have := hslot p hp
      omega
    · have := hslot p hp
      omega
    · rcases Nat.lt_or_ge k t.mValues.length with hlt | hge
      · have hcover := h.cover k hlt
        rw [hids] at hcover
        exact .inr (.inr (hcover.resolve_left List.not_mem_nil))
      · omega
  · rw [claimID_cons hids, Option.some.injEq, Prod.mk.injEq] at hclaim
    obtain ⟨rfl, rfl⟩ := hclaim
    have hmem : ∀ k ∈ ids, k ∈ t.mIds := fun k hk => by
      rw [hids]
      exact List.mem_cons_of_mem _ hk
    have hself : i ∈ t.mIds := by
      rw [hids]
      exact List.mem_cons_self
    have hcard := h.card
    rw [hids, List.length_cons] at hcard
    refine ⟨h.lt i hself, fun p hp heq => h.free p hp (heq ▸ hself), hids ▸ h.nodup,
      fun k hk => h.lt k (hmem k hk), fun p hp hk => h.free p hp (hmem _ hk), fun k hk => ?_,
      hcard, h.dvd⟩
    rcases h.cover k hk with hk | hk
    · rw [hids, List.mem_cons] at hk
      exact hk.imp_right .inl
    · exact .inr (.inr hk)

/-- An object moves into a claimed slot. -/
theorem Serves.enter (h : t.Serves live slot) {id : ℕ} (hclaim : t.claimID = some (id, t'))
    {p : α} {slot' : α → ℕ} (hp : slot' p = id) (hsame : ∀ q ∈ live, slot' q = slot q) :
    (t'.set (some p) id).Serves (p :: live) slot' := by
  obtain ⟨hid, hne, hnodup, hlt, hfree, hcover, hcard, hdvd⟩ := h.claim hclaim
  obtain ⟨hnot, hnodup⟩ := List.nodup_cons.mp hnodup
  constructor
  case nodup =>
    rw [set_mIds]
    exact hnodup
  case lt =>
    simpa only [set_mIds, length_set] using hlt
  case held =>
    intro q hq
    rcases List.mem_cons.mp hq with rfl | hq
    · rw [hp, get_set_self _ hid]
    · rw [hsame q hq, get_set_of_ne _ (hne q hq)]
      exact (get_claimID hclaim _).trans (h.held q hq)
  case free =>
    intro q hq
    rw [set_mIds]
    rcases List.mem_cons.mp hq with rfl | hq
    · rw [hp]
      exact hnot
    · rw [hsame q hq]
      exact hfree q hq
  case cover =>
    intro k hk
    rw [length_set] at hk
    rw [set_mIds]
    rcases hcover k hk with rfl | hk | ⟨q, hq, rfl⟩
    · exact .inr ⟨p, List.mem_cons_self, hp⟩
    · exact .inl hk
    · exact .inr ⟨q, List.mem_cons_of_mem _ hq, hsame q hq⟩
  case card =>
    rw [length_set, set_mIds, List.length_cons, hcard]
    omega
  case dvd =>
    rw [length_set]
    exact hdvd

/-- An object leaves its slot. -/
theorem Serves.leave [DecidableEq α] (h : t.Serves live slot) (hlive : live.Nodup) {p : α}
    (hp : p ∈ live) :
    ((t.set none (slot p)).reclaimID (slot p)).Serves (live.erase p) slot := by
  have hmem : ∀ q, q ∈ live.erase p ↔ q ≠ p ∧ q ∈ live := fun q => hlive.mem_erase_iff
  constructor
  case nodup =>
    rw [reclaimID_mIds, set_mIds, List.nodup_cons]
    exact ⟨h.free p hp, h.nodup⟩
  case lt =>
    intro k hk
    rw [reclaimID_mIds, set_mIds, List.mem_cons] at hk
    rw [reclaimID_mValues, length_set]
    rcases hk with rfl | hk
    · exact lt_of_get (h.held p hp)
    · exact h.lt k hk
  case held =>
    intro q hq
    obtain ⟨hne, hq⟩ := (hmem q).mp hq
    rw [reclaimID_get, get_set_of_ne _ fun heq => hne (h.slot_inj hq hp heq)]
    exact h.held q hq
  case free =>
    intro q hq
    obtain ⟨hne, hq⟩ := (hmem q).mp hq
    rw [reclaimID_mIds, set_mIds, List.mem_cons, not_or]
    exact ⟨fun heq => hne (h.slot_inj hq hp heq), h.free q hq⟩
  case cover =>
    intro k hk
    rw [reclaimID_mValues, length_set] at hk
    rw [reclaimID_mIds, set_mIds, List.mem_cons]
    rcases h.cover k hk with hk | ⟨q, hq, rfl⟩
    · exact .inl (.inr hk)
    · by_cases heq : q = p
      · exact .inl (.inl (heq ▸ rfl))
      · exact .inr ⟨q, (hmem q).mpr ⟨heq, hq⟩, rfl⟩
  case card =>
    have hpos := List.length_pos_of_mem hp
    rw [reclaimID_mValues, length_set, reclaimID_mIds, set_mIds, List.length_cons,
      List.length_erase_of_mem hp, h.card]
    omega
  case dvd =>
    rw [reclaimID_mValues, length_set]
    exact h.dvd

/-- The table outgrows a multiple of the batch size only when more objects are live. -/
theorem Serves.length_claim_le (h : t.Serves live slot) {id n : ℕ}
    (hclaim : t.claimID = some (id, t')) (hn : batch ∣ n) (hlen : t.mValues.length ≤ n)
    (hlive : live.length < n) : t'.mValues.length ≤ n := by
  rcases hids : t.mIds with _ | ⟨i, ids⟩
  · -- with no slot free the table is as long as there are live objects
    have hcard := h.card
    have hdvd := h.dvd
    rw [hids, List.length_nil] at hcard
    rw [claimID_nil hids, Option.some.injEq, Prod.mk.injEq] at hclaim
    obtain ⟨-, rfl⟩ := hclaim
    rw [List.length_append, List.length_replicate]
    unfold batch at hn hdvd
    omega
  · rw [claimID_cons hids, Option.some.injEq, Prod.mk.injEq] at hclaim
    obtain ⟨-, rfl⟩ := hclaim
    exact hlen

end TypeIDS

end Netxy
