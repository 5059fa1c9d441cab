import Netxy.Rpc.FunctorMgr

/-!
# The ids of response callbacks

`makeNextID` counts a 32-bit `int` up and looks at nothing else; callbacks that are never
answered stay in `mResponseCallbacks`. The steps are those of a service among any peers: calls
with and without a callback, replies to any of them, and messages that nobody asked for.
-/

namespace Netxy.Rpc
namespace Service

variable {τ φ κ α : Type*} {s t : Service τ φ κ} {reader : ArgReader τ α}

/-- A call or a reply whose last argument is a callback. -/
def registers (_ : Service τ φ κ) : Action τ φ κ α → Bool
  | .call (some _) => true
  | _ => false

/-- The id of a new callback is none that is outstanding, and not the one for no callback. -/
def IdFresh (s : Service τ φ κ) (a : Action τ φ κ α) : Prop :=
  s.registers a = true →
    s.makeNextID ≠ -1 ∧ ∀ req_id, s.ResponseRegistered req_id → s.makeNextID ≠ req_id

/-! ## The ids after a number of calls -/

/-- The id of call number `k`. -/
def idOf (k : ℕ) : ℤ := (k : ℤ).bmod (2 ^ 32)

theorem bmod_of_lt {x : ℤ} (h0 : 0 ≤ x) (hx : x < 2 ^ 32) :
    x.bmod (2 ^ 32) = if x < 2 ^ 31 then x else x - 2 ^ 32 := by
  rw [Int.bmod_def]
  omega

/-- The counter goes up to the largest `int` and on from the smallest. -/
theorem idOf_eq {k : ℕ} (hk : k < 2 ^ 32) :
    idOf k = if (k : ℤ) < 2 ^ 31 then (k : ℤ) else (k : ℤ) - 2 ^ 32 :=
  bmod_of_lt (Int.natCast_nonneg k) (by omega)

theorem idOf_inj_of_lt {j k : ℕ} (hj : j < 2 ^ 32) (hk : k < 2 ^ 32) (h : idOf j = idOf k) :
    j = k := by
  rw [idOf_eq hj, idOf_eq hk] at h
  omega

/-- Among the first 2^32 calls it is the last but one that gets the id -1. -/
theorem idOf_eq_neg_one_iff {k : ℕ} (hk : k < 2 ^ 32) : idOf k = -1 ↔ k = 2 ^ 32 - 1 := by
  rw [idOf_eq hk]
  omega

/-- `n` callbacks have been registered, and what is outstanding is among them. -/
structure Issued (n : ℕ) (s : Service τ φ κ) : Prop where
  next : s.mNextID = idOf n
  outstanding : ∀ req_id, s.ResponseRegistered req_id → ∃ k, 0 < k ∧ k ≤ n ∧ req_id = idOf k

theorem Issued.makeNextID {n : ℕ} (h : Issued n s) : s.makeNextID = idOf (n + 1) := by
  unfold Service.makeNextID
  rw [h.next]
  exact Int.bmod_add_bmod

theorem issued_init : Issued 0 (init reader : Service τ φ κ) where
  next := rfl
  outstanding := fun _ h => by cases h

/-- Nothing but a call with a callback touches the counter or registers anything. -/
theorem Issued.mono {n : ℕ} (h : Issued n s) (hnext : t.mNextID = s.mNextID)
    (hsub : ∀ req_id, t.ResponseRegistered req_id → s.ResponseRegistered req_id) :
    Issued n t where
  next := hnext.trans h.next
  outstanding := fun req_id hreg => h.outstanding req_id (hsub req_id hreg)

theorem Issued.delResponse {n : ℕ} (h : Issued n s) (req_id : ℤ) :
    Issued n (s.delResponse req_id) := by
  unfold Service.delResponse
  split
  case h_1 m hdel =>
    refine h.mono rfl fun id hreg => ?_
    unfold FunctorMgr.del at hdel
    split at hdel
    · cases hdel
      -- the name that was deleted is gone, any other one is as before
      by_cases hid : toString id = toString req_id
      · simp only [ResponseRegistered, hid, Function.update_self] at hreg
        cases hreg
      · simpa only [ResponseRegistered, Function.update_of_ne hid] using hreg
    · cases hdel
  case h_2 => exact h.mono rfl fun _ => id

theorem Issued.handleResponse {n : ℕ} (h : Issued n s) (response : Option (Packet α)) :
    Issued n (s.handleResponse reader response).1 := by
  unfold Service.handleResponse
  split
  · exact h
  · split
    · exact h.mono rfl fun _ => id
    · refine h.mono rfl fun req_id hreg => ?_
      simp only [FunctorMgr.realFunction, ResponseRegistered] at hreg ⊢
      split at hreg <;> exact hreg

theorem Issued.rpcReply {n : ℕ} (h : Issued n s) (req_id : ℤ) (response : Option (Packet α)) :
    Issued n (s.rpcReply reader req_id response) := by
  have hres : Issued n (s.handleResponse reader response).1 := h.handleResponse response
  unfold Service.rpcReply
  split
  case h_1 s' hs =>
    rw [hs] at hres
    exact hres.mono rfl fun _ => id
  case h_2 s' hs =>
    rw [hs] at hres
    exact hres.delResponse req_id

theorem Issued.handleRpc {n : ℕ} (h : Issued n s) (message : Packet α) :
    Issued n (s.handleRpc reader message) := by
  unfold Service.handleRpc
  split
  · exact h.mono rfl fun _ => id
  · have hs : Issued n
        { s with mRpcFunctions := (s.mRpcFunctions.realFunction message.funname).2 } :=
      h.mono rfl fun _ => id
    dsimp only
    split
    · exact hs.rpcReply _ _
    · exact hs

theorem Issued.call {n : ℕ} (h : Issued n s) (callback : τ × κ) :
    Issued (n + 1) (s.call (some callback)) where
  next := h.makeNextID
  outstanding := by
    intro req_id hreg
    by_cases hid : req_id = s.makeNextID
    · exact ⟨n + 1, Nat.succ_pos n, le_rfl, hid.trans h.makeNextID⟩
    · have hname : toString req_id ≠ toString s.makeNextID :=
        fun heq => hid (Endpoint.toString_int_injective heq)
      have hold : s.ResponseRegistered req_id := by
        simpa only [ResponseRegistered, Service.call, FunctorMgr.insertFunction,
          Function.update_of_ne hname] using hreg
      obtain ⟨k, hpos, hle, hk⟩ := h.outstanding req_id hold
      exact ⟨k, hpos, hle.trans (Nat.le_succ n), hk⟩

/-- One step counts the callback it registers, if it does. -/
theorem Issued.step {n : ℕ} (h : Issued n s) {a : Action τ φ κ α}
    (ht : step reader s a = some t) : Issued (n + (s.registers a).toNat) t := by
  cases a with
  | define funname Args f =>
    cases ht
    exact h.mono rfl fun _ => id
  | call callback =>
    cases ht
    cases callback with
    | none => exact h
    | some callback => exact h.call callback
  | handleRpc message =>
    cases ht
    exact h.handleRpc message
  | finishReply =>
    rw [Service.step] at ht
    split at ht
    · cases ht
    case h_2 req_id running hrunning =>
      cases ht
      have hs : Issued n { s with running } := h.mono rfl fun _ => id
      exact hs.delResponse req_id

/-- Before the counter has come round, the next id is fresh exactly if it is not -1. -/
theorem Issued.idFresh_iff {n : ℕ} (h : Issued n s) (hn : n < 2 ^ 32 - 1)
    (a : Action τ φ κ α) : s.IdFresh a ↔ n + (s.registers a).toNat < 2 ^ 32 - 1 := by
  have hlt : n + 1 < 2 ^ 32 := by omega
  unfold IdFresh
  cases hreg : s.registers a with
  | false => exact iff_of_true (fun hf => absurd hf Bool.false_ne_true) hn
  | true =>
    rw [Bool.toNat_true, h.makeNextID]
    simp only [forall_const]
    constructor
    · rintro ⟨hne, -⟩
      have hnot : n + 1 ≠ 2 ^ 32 - 1 := fun heq => hne ((idOf_eq_neg_one_iff hlt).mpr heq)
      omega
    · intro hless
      have hnot : n + 1 ≠ 2 ^ 32 - 1 := by omega
      refine ⟨mt (idOf_eq_neg_one_iff hlt).mp hnot, fun req_id hout heq => ?_⟩
      obtain ⟨k, -, hk, hid⟩ := h.outstanding req_id hout
      have hsame : n + 1 = k := idOf_inj_of_lt hlt (by omega) (heq.trans hid)
      omega

/-! ## Runs -/

theorem Issued.throughout_iff {n : ℕ} (actions : List (Action τ φ κ α)) (h : Issued n s)
    (hn : n < 2 ^ 32 - 1) :
    Transition.Throughout (Service.step reader) IdFresh s actions ↔
      n + Transition.count (Service.step reader) registers s actions < 2 ^ 32 - 1 := by
  induction actions generalizing n s with
  | nil => exact iff_of_true trivial hn
  | cons a as ih =>
    rw [Transition.Throughout, h.idFresh_iff hn, Transition.count, ← Nat.add_assoc]
    rcases ht : Service.step reader s a with _ | t
    · simp only [Option.map_none, Option.getD_none, Nat.add_zero, reduceCtorEq, false_implies,
        implies_true, and_true]
    · simp only [Option.map_some, Option.getD_some, Option.some.injEq, forall_eq']
      constructor
      · rintro ⟨hless, hrest⟩
        exact (ih (h.step ht) hless).mp hrest
      · intro hcount
        have hless := (Nat.le_add_right _ _).trans_lt hcount
        exact ⟨hless, (ih (h.step ht) hless).mpr hcount⟩

/-- All ids of a run are fresh, and none is -1, exactly if fewer than 2^32 - 1 callbacks are
registered in it. -/
theorem ids_fresh_iff (reader : ArgReader τ α) (actions : List (Action τ φ κ α)) :
    Transition.Throughout (Service.step reader) IdFresh (init reader) actions ↔
      Transition.count (Service.step reader) registers (init reader) actions < 2 ^ 32 - 1 := by
  rw [issued_init.throughout_iff actions (by decide), Nat.zero_add]

/-- Calls with a callback are always possible, and each counts. -/
theorem count_replicate_call (reader : ArgReader τ α) (callback : τ × κ) (n : ℕ)
    (s : Service τ φ κ) :
    Transition.count (Service.step reader) registers s
      (List.replicate n (.call (some callback))) = n := by
  induction n generalizing s with
  | zero => rfl
  | succ n ih =>
    rw [List.replicate_succ, Transition.count_cons rfl, ih, registers, Bool.toNat_true,
      Nat.add_comm]

/-- 2^32 - 1 calls with a callback: the last one is told -1. -/
theorem not_ids_fresh :
    ¬ ∀ (reader : ArgReader Unit Unit) (actions : List (Action Unit Unit Unit Unit)),
      Transition.Throughout (Service.step reader) IdFresh (init reader) actions := by
  intro h
  let reader : ArgReader Unit Unit := ⟨(), fun _ _ => true, fun _ => (1, none)⟩
  have hrun := h reader (List.replicate (2 ^ 32 - 1) (.call (some ((), ()))))
  rw [issued_init.throughout_iff _ (by decide), count_replicate_call, Nat.zero_add] at hrun
  exact lt_irrefl _ hrun

end Service
end Netxy.Rpc
