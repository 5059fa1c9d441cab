import Netxy.Lib.Transition
import Netxy.Utils.Typeids

/-!
# `TypeIDS` for any element type

`get` moves the value out of the table. What stays behind depends on the element type `T`: a raw
pointer stays as it is, an owning pointer becomes null. Here `T` is any type with a null value,
which is `none`, and `moved v` is what a move out of `v` leaves behind.

A run is a list of calls. The ids in use differ at all times, and `get` returns what was last set
as long as nothing that a move changes is got twice.
-/

namespace Netxy
namespace TypeIDS

open Transition

variable {α : Type*}

/-- `get`: what `out` is assigned, or `none` for the answer `false`, and the table it leaves. -/
def moveOut (moved : Option α → Option α) (t : TypeIDS α) (id : ℕ) :
    Option (Option α) × TypeIDS α :=
  match t.mValues[id]? with
  | some v => (some v, { t with mValues := t.mValues.set id (moved v) })
  | none => (none, t)

/-- For raw pointers `get` only reads. -/
theorem moveOut_raw (t : TypeIDS α) (id : ℕ) :
    (moveOut (fun v => v) t id).1.join = t.get id ∧ (moveOut (fun v => v) t id).2 = t := by
  unfold moveOut get
  rcases h : t.mValues[id]? with _ | v
  · exact ⟨rfl, rfl⟩
  · obtain ⟨hlt, hv⟩ := List.getElem?_eq_some_iff.mp h
    have hset : t.mValues.set id v = t.mValues := by
      rw [← hv]
      exact List.set_getElem_self hlt
    simp only [hset, and_true]

/-! ## Runs -/

/-- The calls of the interface. -/
inductive Call (α : Type*)
  | claimID
  | set (v : Option α) (id : ℕ)
  | get (id : ℕ)
  | reclaimID (id : ℕ)

/-- A table, the ids that are claimed and not reclaimed, and the calls so far, newest first. -/
structure Run (α : Type*) where
  table : TypeIDS α
  claimed : List ℕ
  history : List (Call α)

def Run.start : Run α := ⟨empty, [], []⟩

/-- All but `claimID` is called on claimed ids. -/
def step (moved : Option α → Option α) (s : Run α) (call : Call α) : Option (Run α) :=
  match call with
  | .claimID =>
    s.table.claimID.map fun (id, table) => ⟨table, id :: s.claimed, call :: s.history⟩
  | .set v id =>
    if id ∈ s.claimed then some ⟨s.table.set v id, s.claimed, call :: s.history⟩ else none
  | .get id =>
    if id ∈ s.claimed then some ⟨(moveOut moved s.table id).2, s.claimed, call :: s.history⟩
    else none
  | .reclaimID id =>
    if id ∈ s.claimed then
      some ⟨s.table.reclaimID id, s.claimed.erase id, call :: s.history⟩
    else none

/-- The value most recently set for the id. -/
def lastSet (id : ℕ) : List (Call α) → Option (Option α)
  | [] => none
  | .set v k :: calls => if k = id then some v else lastSet id calls
  | _ :: calls => lastSet id calls

/-- There was a `get` on the id after its last `set`. -/
def gotSince (id : ℕ) : List (Call α) → Bool
  | [] => false
  | .set _ k :: calls => if k = id then false else gotSince id calls
  | .get k :: calls => if k = id then true else gotSince id calls
  | _ :: calls => gotSince id calls

/-- A `get` on a claimed id returns the value most recently set for it. -/
def Returns (moved : Option α → Option α) (s : Run α) : Call α → Prop
  | .get id =>
    id ∈ s.claimed → ∀ v ∈ lastSet id s.history, (moveOut moved s.table id).1 = some v
  | _ => True

/-- What is got a second time is not changed by a move. -/
def Undisturbed (moved : Option α → Option α) (s : Run α) : Call α → Prop
  | .get id =>
    id ∈ s.claimed → gotSince id s.history = true → ∀ v ∈ lastSet id s.history, moved v = v
  | _ => True

/-- No id is claimed twice. -/
def Run.Distinct (s : Run α) : Prop := s.claimed.Nodup

/-! ## The ids -/

/-- The claimed ids and the free ones are different slots of the table. -/
structure Slots (t : TypeIDS α) (claimed : List ℕ) : Prop where
  nodup : (claimed ++ t.mIds).Nodup
  lt : ∀ id ∈ claimed ++ t.mIds, id < t.mValues.length

variable {t t' : TypeIDS α} {claimed : List ℕ} {id : ℕ}

/-- New slots are free. -/
theorem Slots.increase (h : t.Slots claimed) : t.increase.Slots claimed := by
  have hlength : t.increase.mValues.length = t.mValues.length + batch := by
    rw [TypeIDS.increase, List.length_append, List.length_replicate]
  -- the new ids are above all the others
  have hperm : (claimed ++ t.increase.mIds).Perm
      ((List.range' t.mValues.length batch).reverse ++ (claimed ++ t.mIds)) :=
    List.perm_append_comm_assoc _ _ _
  constructor
  case nodup =>
    rw [hperm.nodup_iff, List.nodup_append]
    refine ⟨List.nodup_reverse.mpr List.nodup_range', h.nodup, fun x hx y hy => ?_⟩
    rw [List.mem_reverse, List.mem_range'_1] at hx
    have := h.lt y hy
    omega
  case lt =>
    intro x hx
    rw [hperm.mem_iff, List.mem_append, List.mem_reverse, List.mem_range'_1] at hx
    rw [hlength]
    rcases hx with hx | hx
    · omega
    · have := h.lt x hx
      omega

/-- The id that is popped is claimed from now on. -/
theorem Slots.pop {ids : List ℕ} (h : t.Slots claimed) (hids : t.mIds = id :: ids) :
    Slots { t with mIds := ids } (id :: claimed) := by
  have hperm : (id :: claimed ++ ids).Perm (claimed ++ t.mIds) := by
    rw [hids]
    exact List.perm_middle.symm
  constructor
  case nodup => exact hperm.nodup_iff.mpr h.nodup
  case lt =>
    intro x hx
    exact h.lt x (hperm.mem_iff.mp hx)

/-- A claim takes the id in front, of the table as it is or grown by a batch. -/
theorem exists_pop (h : t.claimID = some (id, t')) :
    ∃ t₁ ids, (t₁ = t ∨ t₁ = t.increase) ∧ t₁.mIds = id :: ids ∧ t' = { t₁ with mIds := ids } := by
  have hgrown : (if t.mIds = [] then t.increase else t) = t ∨
      (if t.mIds = [] then t.increase else t) = t.increase := by
    split
    · exact .inr rfl
    · exact .inl rfl
  unfold claimID at h
  simp only at h
  split at h
  · exact absurd h.symm (Option.some_ne_none _)
  · rename_i x ids hids
    obtain ⟨rfl, rfl⟩ := Prod.mk.inj (Option.some.inj h)
    exact ⟨_, ids, hgrown, hids, rfl⟩

/-- Claiming takes an id that nobody has. -/
theorem Slots.claim (h : t.Slots claimed) (hclaim : t.claimID = some (id, t')) :
    t'.Slots (id :: claimed) := by
  obtain ⟨t₁, ids, hgrown, hids, rfl⟩ := exists_pop hclaim
  rcases hgrown with rfl | rfl
  · exact h.pop hids
  · exact h.increase.pop hids

/-- An id that is given back is free again. -/
theorem Slots.reclaim (h : t.Slots claimed) (hid : id ∈ claimed) :
    (t.reclaimID id).Slots (claimed.erase id) := by
  have hperm : (claimed.erase id ++ id :: t.mIds).Perm (claimed ++ t.mIds) :=
    List.perm_middle.trans ((List.perm_cons_erase hid).symm.append_right t.mIds)
  constructor
  case nodup => exact hperm.nodup_iff.mpr h.nodup
  case lt =>
    intro x hx
    exact h.lt x (hperm.mem_iff.mp hx)

/-- `get` leaves the ids alone. -/
theorem moveOut_mIds (moved : Option α → Option α) (t : TypeIDS α) (id : ℕ) :
    (moveOut moved t id).2.mIds = t.mIds := by
  unfold moveOut
  split <;> rfl

/-- `get` leaves the slots where they are. -/
theorem length_moveOut (moved : Option α → Option α) (t : TypeIDS α) (id : ℕ) :
    (moveOut moved t id).2.mValues.length = t.mValues.length := by
  unfold moveOut
  split
  · exact List.length_set
  · rfl

/-- Which ids are taken depends on the free ids and the number of slots alone. -/
theorem Slots.congr (h : t.Slots claimed) (hmIds : t'.mIds = t.mIds)
    (hlength : t'.mValues.length = t.mValues.length) : t'.Slots claimed := by
  constructor
  case nodup =>
    rw [hmIds]
    exact h.nodup
  case lt =>
    rw [hmIds, hlength]
    exact h.lt

variable {moved : Option α → Option α} {s u : Run α}

/-- What a step can do. -/
theorem step_cases {call : Call α} (hstep : step moved s call = some u) :
    (call = .claimID ∧ ∃ id table, s.table.claimID = some (id, table) ∧
      u = ⟨table, id :: s.claimed, call :: s.history⟩) ∨
    (∃ v, ∃ id ∈ s.claimed, call = .set v id ∧
      u = ⟨s.table.set v id, s.claimed, call :: s.history⟩) ∨
    (∃ id ∈ s.claimed, call = .get id ∧
      u = ⟨(moveOut moved s.table id).2, s.claimed, call :: s.history⟩) ∨
    ∃ id ∈ s.claimed, call = .reclaimID id ∧
      u = ⟨s.table.reclaimID id, s.claimed.erase id, call :: s.history⟩ := by
  cases call with
  | claimID =>
    obtain ⟨⟨id, table⟩, hclaim, hu⟩ := Option.map_eq_some_iff.mp hstep
    exact .inl ⟨rfl, id, table, hclaim, hu.symm⟩
  | set v id =>
    obtain ⟨hid, hu⟩ := Option.ite_none_right_eq_some.mp hstep
    exact .inr (.inl ⟨v, id, hid, rfl, (Option.some.inj hu).symm⟩)
  | get id =>
    obtain ⟨hid, hu⟩ := Option.ite_none_right_eq_some.mp hstep
    exact .inr (.inr (.inl ⟨id, hid, rfl, (Option.some.inj hu).symm⟩))
  | reclaimID id =>
    obtain ⟨hid, hu⟩ := Option.ite_none_right_eq_some.mp hstep
    exact .inr (.inr (.inr ⟨id, hid, rfl, (Option.some.inj hu).symm⟩))

/-- No call loses or doubles an id. -/
theorem slots_step {call : Call α} (h : s.table.Slots s.claimed)
    (hstep : step moved s call = some u) : u.table.Slots u.claimed := by
  rcases step_cases hstep with ⟨-, id, table, hclaim, rfl⟩ | ⟨v, id, -, -, rfl⟩ |
    ⟨id, -, -, rfl⟩ | ⟨id, hid, -, rfl⟩
  · exact h.claim hclaim
  · exact h.congr (set_mIds _ v id) (length_set _ v id)
  · exact h.congr (moveOut_mIds moved _ id) (length_moveOut moved _ id)
  · exact h.reclaim hid

/-! ## The values -/

/-- A slot for which a value was set has it, or what a move has left of it. -/
structure Inv (moved : Option α → Option α) (s : Run α) : Prop where
  slots : s.table.Slots s.claimed
  held : ∀ id, ∀ v ∈ lastSet id s.history,
    s.table.mValues[id]? = some (if gotSince id s.history then moved v else v)

theorem inv_start (moved : Option α → Option α) : Inv moved (Run.start : Run α) where
  slots := ⟨List.nodup_nil, fun _ h => absurd h List.not_mem_nil⟩
  held _ _ h := absurd h.symm (Option.some_ne_none _)

/-- Claiming leaves the slots that there are as they are. -/
theorem getElem?_claimID (h : t.claimID = some (id, t')) {k : ℕ} (hk : k < t.mValues.length) :
    t'.mValues[k]? = t.mValues[k]? := by
  obtain ⟨t₁, ids, hgrown, -, rfl⟩ := exists_pop h
  rcases hgrown with rfl | rfl
  · rfl
  · exact List.getElem?_append_left hk

theorem getElem?_set_self (v : Option α) (h : id < t.mValues.length) :
    (t.set v id).mValues[id]? = some v := by
  rw [set, if_pos h]
  exact List.getElem?_set_self h

theorem getElem?_set_of_ne (v : Option α) {k : ℕ} (hk : id ≠ k) :
    (t.set v id).mValues[k]? = t.mValues[k]? := by
  unfold set
  split
  · exact List.getElem?_set_ne hk
  · rfl

/-- The slot that is read holds what the move leaves. -/
theorem getElem?_moveOut_self {v : Option α} (h : t.mValues[id]? = some v) :
    (moveOut moved t id).1 = some v ∧ (moveOut moved t id).2.mValues[id]? = some (moved v) := by
  obtain ⟨hlt, -⟩ := List.getElem?_eq_some_iff.mp h
  rw [moveOut, h]
  exact ⟨rfl, List.getElem?_set_self hlt⟩

/-- The others hold what they held. -/
theorem getElem?_moveOut_of_ne {k : ℕ} (hk : id ≠ k) :
    (moveOut moved t id).2.mValues[k]? = t.mValues[k]? := by
  unfold moveOut
  split
  · exact List.getElem?_set_ne hk
  · rfl

/-- What is set replaces what the slot held, moved from or not. -/
theorem Inv.set (h : Inv moved s) {v : Option α} (hid : id ∈ s.claimed) :
    ∀ k, ∀ w ∈ lastSet k (.set v id :: s.history), (s.table.set v id).mValues[k]? =
      some (if gotSince k (.set v id :: s.history) then moved w else w) := by
  intro k w hw
  by_cases hk : id = k
  · subst hk
    rw [lastSet, if_pos rfl] at hw
    rw [gotSince, if_pos rfl, if_neg Bool.false_ne_true, ← Option.some.inj hw]
    exact getElem?_set_self v (h.slots.lt id (List.mem_append_left _ hid))
  · rw [lastSet, if_neg hk] at hw
    rw [gotSince, if_neg hk, getElem?_set_of_ne v hk]
    exact h.held k w hw

/-- A second `get` finds what the first one has left, and leaves that again. -/
theorem Inv.get (h : Inv moved s) (hid : id ∈ s.claimed) (hcall : Undisturbed moved s (.get id)) :
    ∀ k, ∀ w ∈ lastSet k (.get id :: s.history), (moveOut moved s.table id).2.mValues[k]? =
      some (if gotSince k (.get id :: s.history) then moved w else w) := by
  intro k w hw
  have hheld := h.held k w hw
  by_cases hk : id = k
  · subst hk
    rw [gotSince, if_pos rfl, if_pos rfl, (getElem?_moveOut_self hheld).2]
    by_cases hgot : gotSince id s.history = true
    · rw [if_pos hgot, hcall hid hgot w hw, hcall hid hgot w hw]
    · rw [if_neg hgot]
  · rw [gotSince, if_neg hk, getElem?_moveOut_of_ne hk]
    exact hheld

/-- Each call keeps what a slot holds in step with its history. -/
theorem Inv.step {call : Call α} (h : Inv moved s) (hcall : Undisturbed moved s call)
    (hstep : step moved s call = some u) : Inv moved u := by
  refine ⟨slots_step h.slots hstep, ?_⟩
  rcases step_cases hstep with ⟨rfl, id, table, hclaim, rfl⟩ | ⟨v, id, hid, rfl, rfl⟩ |
    ⟨id, hid, rfl, rfl⟩ | ⟨id, -, rfl, rfl⟩
  · intro k v hv
    have hheld := h.held k v hv
    obtain ⟨hk, -⟩ := List.getElem?_eq_some_iff.mp hheld
    exact (getElem?_claimID hclaim hk).trans hheld
  · exact h.set hid
  · exact h.get hid hcall
  · exact h.held

/-- Where the values are as the invariant says, a `get` goes wrong just if it is a second one that
a move has disturbed. -/
theorem Inv.returns_iff (h : Inv moved s) (call : Call α) :
    Returns moved s call ↔ Undisturbed moved s call := by
  cases call with
  | get id =>
    apply forall_congr'
    intro _
    constructor
    · intro hreturns hgot v hv
      have hheld := h.held id v hv
      rw [if_pos hgot] at hheld
      have hout := hreturns v hv
      rw [(getElem?_moveOut_self hheld).1] at hout
      exact Option.some.inj hout
    · intro hcall v hv
      rw [(getElem?_moveOut_self (h.held id v hv)).1]
      by_cases hgot : gotSince id s.history = true
      · rw [if_pos hgot, hcall hgot v hv]
      · rw [if_neg hgot]
  | _ => exact Iff.rfl

/-- In every run no id is claimed twice. -/
theorem distinct_run (moved : Option α → Option α) (calls : List (Call α)) :
    Always (step moved) Run.Distinct Run.start calls := by
  have hslots : Always (TypeIDS.step moved) (fun s => s.table.Slots s.claimed) Run.start calls := by
    apply always_of_invariant
    · intro s call u h hstep
      exact slots_step h hstep
    · exact (inv_start moved).slots
  apply hslots.imp
  intro s h
  exact h.nodup.of_append_left

/-- In every run `get` returns what was set last, exactly if no slot is read again after a move that
changed it. -/
theorem returns_run_iff (moved : Option α → Option α) (calls : List (Call α)) :
    Throughout (step moved) (Returns moved) Run.start calls ↔
      Throughout (step moved) (Undisturbed moved) Run.start calls := by
  apply throughout_iff
  · intro s call h
    exact Inv.returns_iff h call
  · intro s call u h hcall hstep
    exact Inv.step h hcall hstep
  · exact inv_start moved

/-- A table of raw pointers, which moves leave as they are, never forgets a value. -/
theorem returns_raw (calls : List (Call α)) :
    Throughout (step fun v => v) (Returns fun v => v) Run.start calls := by
  rw [returns_run_iff]
  apply throughout_of_forall
  intro s call
  cases call with
  | get id => exact fun _ _ _ _ => rfl
  | _ => trivial

/-- Ids in use differ in every state of a run, and the run returns what was last set exactly if
nothing that a move changes is got twice. -/
theorem nonDestructive_iff (moved : Option α → Option α) (calls : List (Call α)) :
    Always (step moved) Run.Distinct Run.start calls ∧
        Throughout (step moved) (Returns moved) Run.start calls ↔
      Throughout (step moved) (Undisturbed moved) Run.start calls := by
  rw [and_iff_right (distinct_run moved calls)]
  exact returns_run_iff moved calls

/-- An owning pointer that is got twice is null the second time. -/
theorem not_nonDestructive_owning :
    ¬ (Always (step fun _ => none) Run.Distinct Run.start
          [.claimID, .set (some 7) 99, .get 99, .get 99] ∧
        Throughout (step fun _ => none) (Returns fun _ => none) Run.start
          [.claimID, .set (some 7) 99, .get 99, .get 99]) := by
  rintro ⟨-, hreturns⟩
  have hsecond := (((hreturns.2 _ rfl).2 _ rfl).2 _ rfl).1
  exact absurd (hsecond (by decide) (some 7) rfl) (by decide)

end TypeIDS
end Netxy
