import Netxy.Net.Bookkeeping

/-!
# A call reaches the session its id was issued to

An id is checked when the call executes, not when it is made, and slots are recycled. A call
still never reaches another session: a loop counts the ids it issues, the count is part of
the id, and the socket found in the slot has to carry the whole id. The count wraps around
after 2^32 sessions, and the index of a loop has 16 bits.
-/

namespace Netxy

namespace LoopState

variable {κ : Type*} {i : ℕ} {l l' : LoopState κ} {p q : ℕ} {X : SessionType}

/-! ## The ids of a loop -/

/-- What loop `i` knows of the ids it has issued. -/
structure IdsOk (i : ℕ) (l : LoopState κ) : Prop where
  mIncId : l.table.mIncId = BitVec.ofNat 32 l.issued.length
  iid : ∀ k X p, l.issued[k]? = some (X, p) → (SessionId.ofId X).iid = BitVec.ofNat 32 k
  loopIndex : ∀ X p, (X, p) ∈ l.issued → (SessionId.ofId X).loopIndex = BitVec.ofNat 16 i
  live : ∀ p, (l.sessions p).status = .live → ((l.sessions p).ds.mUserData, p) ∈ l.issued

theorem idsOk_init (i : ℕ) : IdsOk i (init : LoopState κ) where
  mIncId := rfl
  iid k X p h := by
    rw [init, List.getElem?_nil] at h
    cases h
  loopIndex X p h := absurd h List.not_mem_nil
  live p h := by cases h

/-- Unless the count has wrapped around, an id has been issued once. -/
theorem IdsOk.unique (h : IdsOk i l) (hlen : l.issued.length < 2 ^ 32) (hp : (X, p) ∈ l.issued)
    (hq : (X, q) ∈ l.issued) : p = q := by
  obtain ⟨k, hk⟩ := List.getElem?_of_mem hp
  obtain ⟨m, hm⟩ := List.getElem?_of_mem hq
  have hk_lt : k < 2 ^ 32 := (List.getElem?_eq_some_iff.mp hk).1.trans hlen
  have hm_lt : m < 2 ^ 32 := (List.getElem?_eq_some_iff.mp hm).1.trans hlen
  have hiid := congrArg BitVec.toNat ((h.iid k X p hk).symm.trans (h.iid m X q hm))
  rw [BitVec.toNat_ofNat, BitVec.toNat_ofNat, Nat.mod_eq_of_lt hk_lt, Nat.mod_eq_of_lt hm_lt]
    at hiid
  rw [hiid, hm, Option.some.injEq, Prod.mk.injEq] at hk
  exact hk.2.symm

/-- Only what a live socket is called matters. -/
theorem IdsOk.of_same (h : IdsOk i l) (hinc : l'.table.mIncId = l.table.mIncId)
    (hissued : l'.issued = l.issued)
    (hlive : ∀ q, (l'.sessions q).status = .live → (l.sessions q).status = .live)
    (huser : ∀ q, (l'.sessions q).ds.mUserData = (l.sessions q).ds.mUserData) : IdsOk i l' := by
  constructor
  case mIncId =>
    rw [hinc, hissued]
    exact h.mIncId
  case iid =>
    rw [hissued]
    exact h.iid
  case loopIndex =>
    rw [hissued]
    exact h.loopIndex
  case live =>
    intro q hq
    rw [hissued, huser]
    exact h.live q (hlive q hq)

/-- A new session gets the next id. -/
theorem IdsOk.enters (h : IdsOk i l) (hstep : Enters i l l' p) : IdsOk i l' := by
  obtain ⟨slot, ids, -, htable, huser⟩ := hstep.claim
  have hself : SessionId.ofId (l'.sessions p).ds.mUserData =
      ⟨BitVec.ofNat 16 i, BitVec.ofNat 16 slot, l.table.mIncId⟩ := by
    rw [huser, SessionId.ofId_id]
  constructor
  case mIncId =>
    rw [htable, hstep.issued, List.length_append, List.length_singleton, h.mIncId,
      BitVec.ofNat_add]
    rfl
  case iid =>
    intro k X q hk
    rw [hstep.issued] at hk
    -- the `k`-th id issued has `k + 1` as its counter, also the last one
    rcases Nat.lt_trichotomy k l.issued.length with hlt | rfl | hgt
    · rw [List.getElem?_append_left hlt] at hk
      exact h.iid k X q hk
    · rw [List.getElem?_concat_length, Option.some.injEq, Prod.mk.injEq] at hk
      rw [← hk.1, hself]
      exact h.mIncId
    · rw [List.getElem?_eq_none (by
        rw [List.length_append, List.length_singleton]
        omega)] at hk
      cases hk
  case loopIndex =>
    intro X q hq
    rw [hstep.issued, List.mem_append, List.mem_singleton, Prod.mk.injEq] at hq
    rcases hq with hq | ⟨rfl, -⟩
    · exact h.loopIndex X q hq
    · rw [hself]
  case live =>
    intro q hq
    rw [hstep.issued, List.mem_append, List.mem_singleton]
    by_cases hqp : q = p
    · rw [hqp]
      exact .inr rfl
    · rw [hstep.others q hqp] at hq ⊢
      exact .inl (h.live q hq)

theorem IdsOk.leaves (h : IdsOk i l) (hstep : Leaves i l l' p) : IdsOk i l' := by
  refine h.of_same ?_ hstep.issued (fun q hq => ?_) fun q => ?_
  · rw [hstep.table]
    split <;> rfl
  · by_cases hqp : q = p
    · rw [hqp]
      exact hstep.wasLive
    · rwa [hstep.others q hqp] at hq
  · by_cases hqp : q = p
    · rw [hqp]
      exact hstep.mUserData
    · rw [hstep.others q hqp]

/-! ## What a call touches -/

/-- What belongs to socket `p`: the object, its functors still to run and its timers. -/
def view (l : LoopState κ) (p : ℕ) : Session κ × List AfterLoopProc × List PingTimer :=
  (l.sessions p, l.entries p, l.timers.filter (·.sock = p))

theorem view_of_same (hsessions : l'.sessions q = l.sessions q)
    (hafter : l'.mAfterLoopProcs = l.mAfterLoopProcs)
    (hcopy : l'.mCopyAfterLoopProcs = l.mCopyAfterLoopProcs)
    (htimers : l'.timers.filter (·.sock = q) = l.timers.filter (·.sock = q)) :
    l'.view q = l.view q := by
  simp only [view, entries, hsessions, hafter, hcopy, htimers]

theorem view_setSession {x : Session κ} (hq : q ≠ p) : (l.setSession p x).view q = l.view q :=
  view_of_same (setSession_sessions_of_ne hq) rfl rfl rfl

theorem view_onSocket {f : DataSocket κ → DataSocket κ × List AfterLoopProc} (hq : q ≠ p) :
    (l.onSocket p f).view q = l.view q := by
  rw [← view_setSession (l := l) hq, onSocket, view, entries_pushAfterLoopProc, if_neg hq,
    List.append_nil]
  rfl

theorem view_startPingCheckTimer (hq : q ≠ p) (firing : Option ℕ) :
    (l.startPingCheckTimer p firing).view q = l.view q := by
  unfold startPingCheckTimer
  split
  · refine view_of_same (setSession_sessions_of_ne hq) rfl rfl ?_
    rw [addPingTimer, List.filter_cons_of_neg (by simpa using Ne.symm hq)]
  · rfl

/-- No two sockets share a timer. -/
theorem Safe.view_cancelTimer (hl : Safe i l) (hq : q ≠ p) :
    (l.cancelTimer (l.sessions p).ds.mTimer).view q = l.view q := by
  refine view_of_same rfl rfl rfl ?_
  rw [LoopState.cancelTimer, List.filter_map]
  have hsock : ((fun t : PingTimer => decide (t.sock = q)) ∘ fun t =>
      if (l.sessions p).ds.mTimer = some t.id then { t with mActive := false } else t) =
        fun t => decide (t.sock = q) := by
    funext t
    simp only [Function.comp_apply]
    split <;> rfl
  rw [hsock]
  -- a timer of `q` is not the one cancelled: its id would be the `mTimer` of both sockets
  refine (List.map_congr_left fun t ht => ?_).trans (List.map_id _)
  obtain ⟨hmem, hsockq⟩ := List.mem_filter.mp ht
  have htimer := (hl.timers t hmem).1
  rw [of_decide_eq_true hsockq] at htimer
  rw [if_neg fun hp => hq ((hl.timerIds p t.id hp).2 q htimer)]
  rfl

theorem Safe.view_setCheckTime (hl : Safe i l) (hq : q ≠ p) (overtime : ℤ) :
    (l.setCheckTime p overtime).view q = l.view q := by
  unfold LoopState.setCheckTime
  split
  · exact (view_startPingCheckTimer hq none).trans (view_setSession hq)
  · split
    · exact (view_setSession hq).trans (hl.view_cancelTimer hq)
    · rfl

theorem Safe.view_perform (hl : Safe i l) (hq : q ≠ p) (thread : Thread) (op : SessionOp κ) :
    (l.perform p thread op).view q = l.view q := by
  cases op with
  | send packet callback =>
    rw [perform, LoopState.sendPacketInLoop, view_onSocket hq]
    exact view_setSession hq
  | shutdown => exact view_onSocket hq
  | disConnect => exact view_onSocket hq
  | setPingCheckTime checktime => exact hl.view_setCheckTime hq checktime

/-- A call changes the live socket that carries its id, and no other. -/
theorem Safe.view_execute (hl : Safe i l) (hi : i < 2 ^ 16) (c : Call κ)
    (h : (l.execute c).view q ≠ l.view q) :
    (l.sessions q).status = .live ∧ (l.sessions q).ds.mUserData = c.id := by
  unfold LoopState.execute at h
  split at h
  · rename_i p hfind
    by_cases hq : q = p
    · rw [hq]
      exact ⟨hl.find_live hi hfind, (find_get hfind).2⟩
    · exact absurd (hl.view_perform hq c.thread c.op) h
  · exact absurd rfl h

end LoopState

/-! ## The service -/

namespace TcpService
open LoopState

variable {κ : Type*} {logic : Thread} {s t : TcpService κ} {a : Action κ}

/-- The loops keep account of their ids, and only those of the service issue any. -/
structure AllIdsOk (s : TcpService κ) : Prop where
  safe : AllSafe s
  idsOk : ∀ i, IdsOk i (s.loops i)
  issued : ∀ i, s.mLoopNum ≤ i → (s.loops i).issued = []

theorem allIdsOk_init (mLoopNum : ℕ) : AllIdsOk (init mLoopNum : TcpService κ) :=
  ⟨allSafe_init mLoopNum, idsOk_init, fun _ _ => rfl⟩

/-- The number of loops is fixed, and only the logic thread touches the cached messages. -/
theorem cache_step (h : step logic s a = some t) :
    t.mLoopNum = s.mLoopNum ∧
      (t.mCachePacketList = s.mCachePacketList ∧ t.flushing = s.flushing ∨
        (∃ m, a = .cacheSend m) ∨ a = .flushCache ∨ a = .flushRound) := by
  cases a with
  | call c =>
    obtain ⟨-, rfl⟩ := step_call h
    unfold pushCall
    split
    · split <;> exact ⟨rfl, .inl ⟨rfl, rfl⟩⟩
    · exact ⟨rfl, .inl ⟨rfl, rfl⟩⟩
  | addChannel thread i p linkOk =>
    obtain ⟨-, -, ⟨l, -, rfl⟩ | rfl⟩ := step_addChannel h <;> exact ⟨rfl, .inl ⟨rfl, rfl⟩⟩
  | cacheSend m =>
    obtain ⟨-, rfl⟩ := step_cacheSend h
    refine ⟨?_, .inr (.inl ⟨m, rfl⟩)⟩
    split <;> rfl
  | flushCache =>
    obtain ⟨-, rfl⟩ := step_flushCache h
    exact ⟨rfl, .inr (.inr (.inl rfl))⟩
  | flushRound =>
    obtain ⟨i, -, rfl⟩ := step_flushRound h
    refine ⟨?_, .inr (.inr (.inr rfl))⟩
    unfold flushRound
    split
    · rfl
    · split <;> rfl
  | runAsync i linkOk =>
    obtain ⟨-, ⟨l, -, rfl⟩ | ⟨l, c, -, rfl⟩⟩ := step_runAsync h <;> exact ⟨rfl, .inl ⟨rfl, rfl⟩⟩
  | runAfterLoop i =>
    obtain ⟨-, ⟨l, -, rfl⟩ | ⟨l, sid, -, rfl⟩⟩ := step_runAfterLoop h <;>
      exact ⟨rfl, .inl ⟨rfl, rfl⟩⟩
  | work i w =>
    obtain ⟨-, l, -, rfl⟩ := step_work h
    exact ⟨rfl, .inl ⟨rfl, rfl⟩⟩

theorem idsOk_sessionsStep (hs : AllIdsOk s) {j : ℕ} {l : LoopState κ} (h : SessionsStep s j l) :
    IdsOk j l ∧ (s.mLoopNum ≤ j → l.issued = []) := by
  have hj := hs.idsOk j
  cases h with
  | keeps h =>
    refine ⟨hj.of_same (by rw [h.table]) h.issued (fun q => (h.isLive q).mp) h.mUserData, ?_⟩
    rw [h.issued]
    exact hs.issued j
  | enters p hlt h => exact ⟨hj.enters h, fun hle => absurd hle (Nat.not_le.mpr hlt)⟩
  | leaves p h =>
    refine ⟨hj.leaves h, ?_⟩
    rw [h.issued]
    exact hs.issued j
  | closeSlot i q hi hij hq hloop h =>
    subst h
    exact ⟨hj.of_same rfl rfl (fun _ => id) fun _ => rfl, hs.issued j⟩

theorem allIdsOk_step (hs : AllIdsOk s) (h : step logic s a = some t) : AllIdsOk t := by
  have hloop : ∀ j, IdsOk j (t.loops j) ∧ (s.mLoopNum ≤ j → (t.loops j).issued = []) :=
    fun j => idsOk_sessionsStep hs (sessionsStep_of_loopStep hs.safe (loopStep_of_step h j))
  refine ⟨allSafe_step hs.safe h, fun j => (hloop j).1, ?_⟩
  rw [(cache_step h).1]
  exact fun j => (hloop j).2

/-! ### The call a step executes -/

/-- The call that an action executes: one that the loop's own thread makes, one taken off a
queue, or a cached message sent from the loop's own thread. -/
def executes (logic : Thread) (s : TcpService κ) : Action κ → Option (Call κ)
  | .call c => if c.loopIndex < s.mLoopNum ∧ c.thread = c.loopIndex then some c else none
  | .flushRound =>
    match s.flushing with
    | some i =>
      match s.mCachePacketList i with
      | m :: _ => if logic = i then some ⟨logic, m.id, .send m.packet m.callback⟩ else none
      | [] => none
    | none => none
  | .runAsync i linkOk => ((s.loops i).runAsync i linkOk).bind Prod.snd
  | _ => none

/-- The step leaves the sockets to the call. -/
theorem eq_execute_of_executes (hs : AllSafe s) {c : Call κ} (h : step logic s a = some t)
    (hc : s.executes logic a = some c) :
    ∃ s₀ : TcpService κ, t = s₀.execute c ∧ AllSafe s₀ ∧
      ∀ j, ∃ procs, s₀.loops j = { s.loops j with mCopyAsyncProcs := procs } := by
  cases a with
  | call c' =>
    simp only [executes] at hc
    split at hc <;> cases hc
    rename_i hguard
    obtain ⟨-, rfl⟩ := step_call h
    rw [if_pos hguard.1, pushCall, if_pos hguard.2]
    exact ⟨s, rfl, hs, fun j => ⟨_, rfl⟩⟩
  | flushRound =>
    obtain ⟨i, hi, rfl⟩ := step_flushRound h
    simp only [executes, hi] at hc
    unfold flushRound
    cases hcache : s.mCachePacketList i with
    | nil =>
      rw [hcache] at hc
      cases hc
    | cons m msgList =>
      simp only [hcache] at hc
      split at hc <;> cases hc
      rename_i hlogic
      simp only [if_pos hlogic]
      exact ⟨_, rfl, hs, fun j => ⟨_, rfl⟩⟩
  | runAsync i linkOk =>
    obtain ⟨-, ⟨l, hl, rfl⟩ | ⟨l, d, hl, rfl⟩⟩ := step_runAsync h <;>
      rw [executes, hl, Option.bind_some] at hc <;> cases hc
    refine ⟨_, rfl, fun j => ?_, fun j => ?_⟩ <;> by_cases hj : j = i
    · subst hj
      rw [setLoop_loops_self]
      exact (hs j).runAsync hl
    · rw [setLoop_loops_of_ne _ hj]
      exact hs j
    · subst hj
      rw [setLoop_loops_self]
      exact runAsync_some hl
    · rw [setLoop_loops_of_ne _ hj]
      exact ⟨_, rfl⟩
  | addChannel thread i p linkOk => cases hc
  | cacheSend m => cases hc
  | flushCache => cases hc
  | runAfterLoop i => cases hc
  | work i w => cases hc

/-- A call changes live sockets only, and only such as carry its id. -/
theorem live_of_executes (hs : AllSafe s) (h : step logic s a = some t) {c : Call κ}
    (hc : s.executes logic a = some c) {i p : ℕ}
    (hview : (t.loops i).view p ≠ (s.loops i).view p) :
    ((s.loops i).sessions p).status = .live ∧ ((s.loops i).sessions p).ds.mUserData = c.id := by
  obtain ⟨s₀, rfl, hsafe, hloops⟩ := eq_execute_of_executes hs h hc
  obtain ⟨procs, hprocs⟩ := hloops i
  have hview₀ : (s.loops i).view p = (s₀.loops i).view p := by rw [hprocs]; rfl
  rw [hview₀] at hview
  -- the call reaches the loop its id names, and leaves the others as they are
  by_cases hi : i = c.loopIndex
  · subst hi
    rw [execute, setLoop_loops_self] at hview
    have hlive := (hsafe _).view_execute (lt_of_loopIndex rfl) c hview
    rwa [hprocs] at hlive
  · rw [execute, setLoop_loops_of_ne _ hi] at hview
    exact absurd rfl hview

/-- With at most 2^16 loops, an id names the loop that issued it. -/
theorem AllIdsOk.loop_eq (hs : AllIdsOk s) (hn : s.mLoopNum ≤ 2 ^ 16) {X : SessionType}
    {i j p q : ℕ} (hp : (X, p) ∈ (s.loops i).issued) (hq : (X, q) ∈ (s.loops j).issued) :
    i = j := by
  have hlt : ∀ {k r}, (X, r) ∈ (s.loops k).issued → k < 2 ^ 16 := fun {k r} hr => by
    by_contra hle
    rw [hs.issued k (by omega)] at hr
    exact absurd hr List.not_mem_nil
  have hloop := congrArg BitVec.toNat
    (((hs.idsOk i).loopIndex X p hp).symm.trans ((hs.idsOk j).loopIndex X q hq))
  rwa [BitVec.toNat_ofNat, BitVec.toNat_ofNat, Nat.mod_eq_of_lt (hlt hp),
    Nat.mod_eq_of_lt (hlt hq)] at hloop

/-- On at most 2^16 loops with less than 2^32 sessions each, a call that executes changes a
socket only if it is live and is the one socket that the id of the call was issued to; if
that socket is not live any more, the call changes none. -/
theorem call_acts_on_its_session (logic : Thread) {mLoopNum : ℕ} (hn : mLoopNum ≤ 2 ^ 16)
    (acts : List (Action κ)) (s : TcpService κ)
    (h : Transition.exec (step logic) (init mLoopNum) acts = some s)
    (hissued : ∀ i, (s.loops i).issued.length < 2 ^ 32) (a : Action κ) (t : TcpService κ)
    (hstep : step logic s a = some t) (c : Call κ) (hc : s.executes logic a = some c) :
    (∀ i p, (t.loops i).view p ≠ (s.loops i).view p →
      ((s.loops i).sessions p).status = .live ∧ (c.id, p) ∈ (s.loops i).issued ∧
        ∀ j q, (c.id, q) ∈ (s.loops j).issued → j = i ∧ q = p) ∧
    ∀ i p, (c.id, p) ∈ (s.loops i).issued → ((s.loops i).sessions p).status ≠ .live →
      ∀ j q, (t.loops j).view q = (s.loops j).view q := by
  have hs : AllIdsOk s := Transition.exec_invariant (fun _ _ _ => allIdsOk_step)
    (allIdsOk_init mLoopNum) h
  have hnum : s.mLoopNum = mLoopNum := Transition.exec_invariant
    (fun _ _ _ hs h => (cache_step h).1.trans hs) rfl h
  have hchanged : ∀ i p, (t.loops i).view p ≠ (s.loops i).view p →
      ((s.loops i).sessions p).status = .live ∧ (c.id, p) ∈ (s.loops i).issued ∧
        ∀ j q, (c.id, q) ∈ (s.loops j).issued → j = i ∧ q = p := by
    intro i p hview
    obtain ⟨hlive, huser⟩ := live_of_executes hs.safe hstep hc hview
    -- the id of a live socket was issued to it, and to no other in any loop
    have hp := (hs.idsOk i).live p hlive
    rw [huser] at hp
    refine ⟨hlive, hp, fun j q hq => ?_⟩
    have hj : j = i := hs.loop_eq (hnum ▸ hn) hq hp
    subst hj
    exact ⟨rfl, (hs.idsOk j).unique (hissued j) hq hp⟩
  refine ⟨hchanged, fun i p hp hdead j q => ?_⟩
  -- a socket that changed would be the one the id was issued to, which is not live
  by_contra hview
  obtain ⟨hlive, -, hunique⟩ := hchanged j q hview
  obtain ⟨rfl, rfl⟩ := hunique i p hp
  exact hdead hlive

/-! ### Runs with few sessions -/

/-- A step adds at most one session to a loop. -/
theorem length_le_of_step (hs : AllSafe s) (h : step logic s a = some t) (i : ℕ) :
    (t.loops i).live.length ≤ (s.loops i).live.length + 1 ∧
      (t.loops i).issued.length ≤ (s.loops i).issued.length + 1 := by
  cases sessionsStep_of_loopStep hs (loopStep_of_step h i) with
  | keeps h =>
    rw [h.live, h.issued]
    omega
  | enters p hlt h =>
    rw [h.live, h.issued, List.length_cons, List.length_append, List.length_singleton]
    omega
  | leaves p h =>
    have hle : ((s.loops i).live.erase p).length ≤ (s.loops i).live.length :=
      List.length_erase_le
    rw [h.live, h.issued]
    omega
  | closeSlot j q hi hij hq hloop h =>
    rw [h]
    exact ⟨Nat.le_succ _, Nat.le_succ _⟩

/-- A short run cannot have many sessions. -/
theorem always_few_sessions {acts : List (Action κ)} (hs : AllSafe s) {n : ℕ}
    (hlen : ∀ i, (s.loops i).live.length + acts.length ≤ n ∧
      (s.loops i).issued.length + acts.length ≤ n) :
    Transition.Always (step logic)
      (fun s => ∀ i, (s.loops i).live.length ≤ n ∧ (s.loops i).issued.length ≤ n) s acts := by
  induction acts generalizing s with
  | nil => exact hlen
  | cons a acts ih =>
    simp only [List.length_cons] at hlen
    refine ⟨fun i => ?_, fun t ht => ih (allSafe_step hs ht) fun i => ?_⟩
    · have := hlen i
      omega
    · have := hlen i
      have := length_le_of_step hs ht i
      omega

theorem few_sessions {mLoopNum : ℕ} {acts : List (Action κ)} (hacts : acts.length ≤ 65500) :
    Transition.Always (step logic)
      (fun s => ∀ i, (s.loops i).live.length ≤ 65500 ∧ (s.loops i).issued.length ≤ 65500)
      (init mLoopNum) acts := by
  refine always_few_sessions (allSafe_init mLoopNum) fun i => ?_
  simpa only [init, LoopState.init, List.length_nil, Nat.zero_add, and_self] using hacts

/-- Thread 5 disconnects the first session of loop 0, which closes before the functor runs;
another socket has taken its slot by then. -/
def staleDisconnect : List (Action ℕ) :=
  [.addChannel 0 0 7 true, .call ⟨0, firstId, .disConnect⟩, .work 0 (.epollWait []),
    .work 0 .eventsDone, .work 0 .asyncDone, .runAfterLoop 0, .call ⟨5, firstId, .disConnect⟩,
    .work 0 .delete, .work 0 .afterLoopDone, .work 0 .timersDone, .addChannel 0 0 8 true,
    .work 0 (.epollWait []), .work 0 .eventsDone]

set_option maxRecDepth 8000 in
/-- The call does not reach the socket that has the slot by now. -/
theorem call_acts_on_its_session_staleDisconnect :
    ∃ s t : TcpService ℕ, Transition.exec (step 1) (init 1) staleDisconnect = some s ∧
      step 1 s (.runAsync 0 true) = some t ∧
      s.executes 1 (.runAsync 0 true) = some ⟨5, firstId, .disConnect⟩ ∧
      (s.loops 0).table.mDataSockets.get 99 = some 8 ∧
      ∀ j q, (t.loops j).view q = (s.loops j).view q := by
  have hs : Transition.exec (step 1) (init 1) staleDisconnect = some _ := rfl
  have hfew := fun i => ((few_sessions (by decide)).last hs i).2.trans_lt (by decide : 65500 < 2 ^ 32)
  refine ⟨_, _, hs, rfl, rfl, rfl, ?_⟩
  exact (call_acts_on_its_session 1 (by decide) staleDisconnect _ hs hfew (.runAsync 0 true) _ rfl
    _ rfl).2 0 7 (by decide) (by decide)

/-- A session enters the last of 2^16 + 1 loops, and its id names loop 0. A call with this id
by another thread waits in loop 0, where another session enters. -/
def crossLoop : List (Action ℕ) :=
  [.addChannel 65536 65536 1 true, .call ⟨5, firstId, .disConnect⟩, .addChannel 0 0 0 true,
    .work 0 (.epollWait []), .work 0 .eventsDone]

/-- The call was made when its id had been issued to the socket of loop 65536 only, and it
closes that of loop 0. -/
theorem call_acts_on_another_session :
    ∃ s₁ s t : TcpService ℕ,
      Transition.exec (step 1) (init 65537) (crossLoop.take 2) = some s₁ ∧
      (s₁.loops 65536).issued = [(firstId, 1)] ∧ (s₁.loops 0).issued = [] ∧
      Transition.exec (step 1) (init 65537) crossLoop = some s ∧
      (∀ i, (s.loops i).live.length ≤ 65500 ∧ (s.loops i).issued.length ≤ 65500) ∧
      step 1 s (.runAsync 0 true) = some t ∧
      s.executes 1 (.runAsync 0 true) = some ⟨5, firstId, .disConnect⟩ ∧
      (t.loops 0).view 0 ≠ (s.loops 0).view 0 := by
  have hs : Transition.exec (step 1) (init 65537) crossLoop = some _ := rfl
  refine ⟨_, _, _, rfl, rfl, rfl, hs, (few_sessions (by decide)).last hs, rfl, rfl,
    fun hview => ?_⟩
  have hopen := congrArg (fun v => v.1.ds.isOpen) hview
  cases hopen

end TcpService

end Netxy
