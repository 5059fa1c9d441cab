import Mathlib.Data.List.Pairwise
import Mathlib.Data.Nat.Notation
import Mathlib.Logic.Function.Basic
import Netxy.Lib.Transition
import Netxy.Utils.Typeids

/-!
# Session ids and the table of a loop

`TcpService::SessionId`, `MakeID` and `procDataSocketClose`, and the capacity of one loop:
the ids of its live sessions are distinct exactly as long as at most 65500 are live.
-/

namespace Netxy

/-! ## `SessionId` -/

/-- `SESSION_TYPE`, a 64-bit integer. -/
abbrev SessionType := BitVec 64

/-- The fields of the union `SessionId`. -/
@[ext]
structure SessionId where
  loopIndex : BitVec 16
  index : BitVec 16
  iid : BitVec 32
deriving DecidableEq, Repr

namespace SessionId

/-- The `id` of the union, as a little-endian machine lays it out. -/
def id (sid : SessionId) : SessionType := sid.iid ++ sid.index ++ sid.loopIndex

/-- The fields of the union with this `id`. -/
def ofId (id : SessionType) : SessionId where
  loopIndex := id.extractLsb' 0 16
  index := id.extractLsb' 16 16
  iid := id.extractLsb' 32 32

@[simp] theorem ofId_id (sid : SessionId) : ofId sid.id = sid := by
  ext i hi <;> rw [← BitVec.getLsbD_eq_getElem, ← BitVec.getLsbD_eq_getElem] <;>
    simp only [ofId, SessionId.id, BitVec.getLsbD_extractLsb', BitVec.getLsbD_append, hi,
      decide_true, Bool.true_and]
  · rw [if_pos (by omega), Nat.zero_add]
  · rw [if_neg (by omega), if_pos (by omega), Nat.add_sub_cancel_left]
  · rw [if_neg (by omega), if_neg (by omega), show 32 + i - 16 - 16 = i by omega]

@[simp] theorem id_ofId (id : SessionType) : (ofId id).id = id := by
  apply BitVec.eq_of_getLsbD_eq
  intro i hi
  simp only [ofId, SessionId.id, BitVec.getLsbD_extractLsb', BitVec.getLsbD_append]
  by_cases hlow : i < 16
  · simp [hlow]
  · by_cases hmid : i - 16 < 16
    · simp [hlow, hmid, show 16 + (i - 16) = i by omega]
    · simp [hlow, hmid, show i - 16 - 16 < 32 by omega, show 32 + (i - 16 - 16) = i by omega]

end SessionId

/-! ## The table of one loop -/

/-- `mDataSockets[i]` and `mIncIds[i]` of loop `i`; the increment wraps around. -/
structure SessionTable (α : Type*) where
  mDataSockets : TypeIDS α
  mIncId : BitVec 32
deriving DecidableEq, Repr

namespace SessionTable

variable {α : Type*}

/-- As `startWorkerThread` sets it up. -/
def empty : SessionTable α := ⟨.empty, 0⟩

/-- `MakeID`. The union's fields cut the loop's index and the claimed slot to 16 bits. -/
def makeID (t : SessionTable α) (loopIndex : ℕ) : Option (SessionId × SessionTable α) := do
  let (slot, mDataSockets) ← t.mDataSockets.claimID
  return (⟨BitVec.ofNat 16 loopIndex, BitVec.ofNat 16 slot, t.mIncId⟩, ⟨mDataSockets, t.mIncId + 1⟩)

/-- The enter callback of `helpAddChannel` up to `setUserData`: the id for the socket, and
the socket's place in the table. -/
def enter (t : SessionTable α) (loopIndex : ℕ) (p : α) : Option (SessionId × SessionTable α) := do
  let (sid, t) ← t.makeID loopIndex
  return (sid, { t with mDataSockets := t.mDataSockets.set (some p) sid.index.toNat })

/-- `procDataSocketClose`, on the table it finds by the socket's id. -/
def procDataSocketClose (t : SessionTable α) (sid : SessionId) : SessionTable α :=
  { t with mDataSockets :=
      (t.mDataSockets.set none sid.index.toNat).reclaimID sid.index.toNat }

/-- No enter throws. -/
theorem enter_eq (t : SessionTable α) (loopIndex : ℕ) (p : α) :
    ∃ slot ids, t.mDataSockets.claimID = some (slot, ids) ∧
      t.enter loopIndex p =
        some (⟨BitVec.ofNat 16 loopIndex, BitVec.ofNat 16 slot, t.mIncId⟩,
          ⟨ids.set (some p) (slot % 2 ^ 16), t.mIncId + 1⟩) := by
  obtain ⟨⟨slot, ids⟩, hclaim⟩ := Option.isSome_iff_exists.mp t.mDataSockets.claimID_isSome
  refine ⟨slot, ids, hclaim, ?_⟩
  simp only [enter, makeID, hclaim, Option.pure_def, Option.bind_eq_bind, Option.bind_some,
    BitVec.toNat_ofNat]

end SessionTable

/-! ## Enters and closes on one loop -/

/-- The sessions of one loop. `live` lists the sockets between their enter callback and
their disconnect callback, each at an address of its own. -/
structure LoopSessions (α : Type*) where
  table : SessionTable α
  userData : α → SessionType
  live : List α

namespace LoopSessions

variable {α : Type*} [DecidableEq α]

def init : LoopSessions α := ⟨.empty, fun _ => -1, []⟩

inductive Event (α : Type*)
  | enter (p : α)
  | close (p : α)
deriving DecidableEq, Repr

/-- One event on the loop with this index. -/
def step (loopIndex : Fin (2 ^ 16)) (s : LoopSessions α) : Event α → Option (LoopSessions α)
  | .enter p =>
    if p ∈ s.live then none
    else do
      let (sid, table) ← s.table.enter loopIndex p
      return ⟨table, Function.update s.userData p sid.id, p :: s.live⟩
  | .close p =>
    if p ∈ s.live then
      some { s with
        table := s.table.procDataSocketClose (SessionId.ofId (s.userData p))
        live := s.live.erase p }
    else none

/-- `SessionId.data.index` of a socket. -/
def slot (s : LoopSessions α) (p : α) : ℕ := (SessionId.ofId (s.userData p)).index.toNat

/-- The live sessions hold pairwise distinct slot indices and pairwise distinct ids, and the
table entry at the slot of each is that session. -/
def Distinct (s : LoopSessions α) : Prop :=
  s.live.Pairwise (fun p q => s.slot p ≠ s.slot q) ∧
    s.live.Pairwise (fun p q => s.userData p ≠ s.userData q) ∧
    ∀ p ∈ s.live, s.table.mDataSockets.get (s.slot p) = some p

/-! ## Up to 65500 live sessions -/

/-- The most slots a table can have whose indices all fit in 16 bits. -/
def capacity : ℕ := 65500

/-- The table serves the live sessions, and none of its slots is cut off. -/
structure Inv (s : LoopSessions α) : Prop where
  nodup : s.live.Nodup
  serves : s.table.mDataSockets.Serves s.live s.slot
  small : s.table.mDataSockets.mValues.length ≤ capacity

omit [DecidableEq α] in
theorem inv_init : Inv (init : LoopSessions α) where
  nodup := List.nodup_nil
  serves := TypeIDS.serves_empty _
  small := Nat.zero_le _

variable {loopIndex : Fin (2 ^ 16)} {s t : LoopSessions α} {p : α}

/-- What an enter does: the slot it claims, and the id, made of the low 16 bits of it. -/
theorem step_enter (h : step loopIndex s (.enter p) = some t) :
    p ∉ s.live ∧ ∃ slot ids, s.table.mDataSockets.claimID = some (slot, ids) ∧
      t.live = p :: s.live ∧ t.table.mDataSockets = ids.set (some p) (slot % 2 ^ 16) ∧
      t.slot p = slot % 2 ^ 16 ∧ ∀ q, q ≠ p → t.slot q = s.slot q := by
  simp only [step] at h
  split at h
  · cases h
  · rename_i hp
    obtain ⟨slot, ids, hclaim, henter⟩ := s.table.enter_eq loopIndex p
    rw [henter] at h
    cases h
    refine ⟨hp, slot, ids, hclaim, rfl, rfl, ?_, fun q hq => ?_⟩
    · simp only [LoopSessions.slot, Function.update_self, SessionId.ofId_id, BitVec.toNat_ofNat]
    · simp only [LoopSessions.slot, Function.update_of_ne hq]

theorem step_close (h : step loopIndex s (.close p) = some t) :
    p ∈ s.live ∧ t.live = s.live.erase p ∧ t.slot = s.slot ∧
      t.table.mDataSockets = (s.table.mDataSockets.set none (s.slot p)).reclaimID (s.slot p) := by
  simp only [step] at h
  split at h
  · rename_i hp
    cases h
    exact ⟨hp, rfl, rfl, rfl⟩
  · cases h

theorem Inv.enter (hs : Inv s) (h : step loopIndex s (.enter p) = some t)
    (hcap : s.live.length < capacity) : Inv t := by
  obtain ⟨hp, slot, ids, hclaim, hlive, htable, hslot, hsame⟩ := step_enter h
  have hsmall := hs.serves.length_claim_le hclaim (by decide) hs.small hcap
  have hlt := (hs.serves.claim hclaim).1
  -- below the capacity no bit of the slot is cut off
  have hmod : slot % 2 ^ 16 = slot := by
    apply Nat.mod_eq_of_lt
    unfold capacity at hsmall
    omega
  rw [hmod] at htable hslot
  constructor
  case nodup =>
    rw [hlive]
    exact List.nodup_cons.mpr ⟨hp, hs.nodup⟩
  case serves =>
    rw [hlive, htable]
    exact hs.serves.enter hclaim hslot fun q hq => hsame q fun heq => hp (heq ▸ hq)
  case small =>
    rw [htable, TypeIDS.length_set]
    exact hsmall

theorem Inv.close (hs : Inv s) (h : step loopIndex s (.close p) = some t) : Inv t := by
  obtain ⟨hp, hlive, hslot, htable⟩ := step_close h
  constructor
  case nodup =>
    rw [hlive]
    exact hs.nodup.erase p
  case serves =>
    rw [hlive, hslot, htable]
    exact hs.serves.leave hs.nodup hp
  case small =>
    rw [htable, TypeIDS.reclaimID_mValues, TypeIDS.length_set]
    exact hs.small

omit [DecidableEq α] in
theorem Inv.distinct (hs : Inv s) : Distinct s := by
  have hslot : s.live.Pairwise fun p q => s.slot p ≠ s.slot q :=
    hs.nodup.imp_of_mem fun hp hq hne heq => hne (hs.serves.slot_inj hp hq heq)
  refine ⟨hslot, hslot.imp fun hne heq => hne ?_, hs.serves.held⟩
  rw [LoopSessions.slot, heq, LoopSessions.slot]

/-- The table is full, and the next batch starts at 65500: the slot claimed is 65599, its
low 16 bits are 63, and slot 63 is taken. -/
theorem Inv.collision (hs : Inv s) (h : step loopIndex s (.enter p) = some t)
    (hfull : s.live.length = capacity) : ¬ Distinct t := by
  obtain ⟨hp, slot, ids, hclaim, hlive, -, hslot, hsame⟩ := step_enter h
  have hcard := hs.serves.card
  have hsmall := hs.small
  have hlen : s.table.mDataSockets.mValues.length = capacity := by omega
  have hids : s.table.mDataSockets.mIds = [] := List.eq_nil_of_length_eq_zero (by omega)
  rw [TypeIDS.claimID_nil hids, hlen, Option.some.injEq, Prod.mk.injEq] at hclaim
  obtain ⟨rfl, -⟩ := hclaim
  -- 65599 is 63 mod 2^16
  have hcover := hs.serves.cover 63 (by rw [hlen]; decide)
  rw [hids] at hcover
  obtain ⟨q, hq, hq63⟩ := hcover.resolve_left List.not_mem_nil
  rintro ⟨hdistinct, -, -⟩
  rw [hlive, List.pairwise_cons] at hdistinct
  apply hdistinct.1 q hq
  rw [hslot, hsame q fun heq => hp (heq ▸ hq), hq63]
  decide

theorem always_distinct_iff (hs : Inv s) (hcap : s.live.length ≤ capacity)
    (hist : List (Event α)) :
    Transition.Always (step loopIndex) Distinct s hist ↔
      Transition.Always (step loopIndex) (fun s => s.live.length ≤ capacity) s hist := by
  induction hist generalizing s with
  | nil => exact ⟨fun _ => hcap, fun _ => hs.distinct⟩
  | cons e hist ih =>
    simp only [Transition.Always, hs.distinct, hcap, true_and]
    refine forall₂_congr fun t h => ?_
    cases e with
    | close p =>
      obtain ⟨hp, hlive, -, -⟩ := step_close h
      have hle : t.live.length ≤ s.live.length := by
        rw [hlive]
        exact List.length_erase_le
      exact ih (hs.close h) (hle.trans hcap)
    | enter p =>
      obtain ⟨-, -, -, -, hlive, -, -, -⟩ := step_enter h
      have hlen : t.live.length = s.live.length + 1 := by rw [hlive, List.length_cons]
      -- the histories part at the first enter into a full table: both sides fail there
      rcases Nat.lt_or_ge s.live.length capacity with hlt | hge
      · exact ih (hs.enter h hlt) (by omega)
      · have hnot := hs.collision h (Nat.le_antisymm hcap hge)
        constructor
        · intro halways
          exact absurd halways.head hnot
        · intro halways
          have := halways.head
          omega

/-- In every history of enters and closes on a loop, the live sessions have distinct slots,
distinct ids and their own table entries throughout exactly if at most 65500 sessions are
live throughout. -/
theorem sessions_distinct_iff_live_le (loopIndex : Fin (2 ^ 16)) (hist : List (Event α)) :
    Transition.Always (step loopIndex) Distinct init hist ↔
      Transition.Always (step loopIndex) (fun s => s.live.length ≤ 65500) init hist :=
  always_distinct_iff inv_init (Nat.zero_le _) hist

/-! ## The 65501st session -/

/-- Sockets not yet live can enter one after the other. -/
theorem exec_enters (ps : List α) (hnodup : ps.Nodup) (hnew : ∀ p ∈ ps, p ∉ s.live) :
    ∃ t, Transition.exec (step loopIndex) s (ps.map .enter) = some t ∧
      t.live.length = s.live.length + ps.length := by
  induction ps generalizing s with
  | nil => exact ⟨s, rfl, rfl⟩
  | cons p ps ih =>
    obtain ⟨hp, hnodup⟩ := List.nodup_cons.mp hnodup
    obtain ⟨u, hu⟩ : ∃ u, step loopIndex s (.enter p) = some u := by
      obtain ⟨slot, ids, -, henter⟩ := s.table.enter_eq loopIndex p
      simp only [step, if_neg (hnew p List.mem_cons_self), henter, Option.pure_def,
        Option.bind_eq_bind, Option.bind_some, Option.some.injEq, exists_eq']
    obtain ⟨-, -, -, -, hlive, -, -, -⟩ := step_enter hu
    have hnew' : ∀ q ∈ ps, q ∉ u.live := by
      intro q hq hmem
      rw [hlive, List.mem_cons] at hmem
      rcases hmem with rfl | hmem
      · exact hp hq
      · exact hnew q (List.mem_cons_of_mem _ hq) hmem
    obtain ⟨t, ht, hlen⟩ := ih hnodup hnew'
    refine ⟨t, Transition.exec_cons.mpr ⟨u, hu, ht⟩, ?_⟩
    rw [hlen, hlive, List.length_cons, List.length_cons]
    omega

/-- No event adds more than one live session. -/
theorem always_live_le (hist : List (Event α)) {n : ℕ} (hn : s.live.length + hist.length ≤ n) :
    Transition.Always (step loopIndex) (fun s => s.live.length ≤ n) s hist := by
  induction hist generalizing s with
  | nil => exact hn
  | cons e hist ih =>
    rw [List.length_cons] at hn
    refine ⟨by omega, fun t h => ih ?_⟩
    cases e with
    | enter p =>
      obtain ⟨-, -, -, -, hlive, -, -, -⟩ := step_enter h
      rw [hlive, List.length_cons]
      omega
    | close p =>
      obtain ⟨-, hlive, -, -⟩ := step_close h
      have hle : t.live.length ≤ s.live.length := by
        rw [hlive]
        exact List.length_erase_le
      omega

/-- `n` sockets enter a loop, more than it has room for and no more than documented. -/
theorem not_always_distinct_enters {n : ℕ} (hlow : capacity < n) (hhigh : n ≤ 65535) :
    (Transition.exec (step 0) init ((List.range n).map Event.enter)).isSome ∧
      Transition.Always (step 0) (fun s => s.live.length ≤ 65535) init
        ((List.range n).map Event.enter) ∧
      ¬ Transition.Always (step 0) Distinct init ((List.range n).map Event.enter) := by
  obtain ⟨t, ht, hlen⟩ : ∃ t, Transition.exec (step 0) init ((List.range n).map .enter) = some t ∧
      t.live.length = (init : LoopSessions ℕ).live.length + (List.range n).length :=
    exec_enters (List.range n) List.nodup_range fun _ _ => List.not_mem_nil
  rw [List.length_range] at hlen
  refine ⟨Option.isSome_iff_exists.mpr ⟨t, ht⟩, ?_, fun halways => ?_⟩
  · apply always_live_le
    rw [List.length_map, List.length_range]
    exact (Nat.zero_add n).trans_le hhigh
  · rw [always_distinct_iff inv_init (Nat.zero_le _)] at halways
    have hle := halways.last ht
    rw [hlen] at hle
    exact absurd ((Nat.zero_add n).symm.trans_le hle) (by omega)

/-- 65501 live sessions are too many. -/
theorem sessions_collide_at_65501 :
    (Transition.exec (step 0) init ((List.range 65501).map Event.enter)).isSome ∧
      Transition.Always (step 0) (fun s => s.live.length ≤ 65535) init
        ((List.range 65501).map Event.enter) ∧
      ¬ Transition.Always (step 0) Distinct init ((List.range 65501).map Event.enter) :=
  not_always_distinct_enters (by decide) (by decide)

end LoopSessions

end Netxy
