import Netxy.Lib.Transition
import Netxy.Net.SafeDeletion

/-!
# Idle detection

The ping timers of the sockets of one loop: `setCheckTime`, received data, and the passes of
`TimerMgr::schedule`, in any order. A timer that is queued may be due at any time.
-/

namespace Netxy

namespace LoopState

variable {κ : Type*}

/-- `TimerMgr::schedule` pops a timer and runs it. -/
def schedule (l : LoopState κ) (t : PingTimer) : Option (LoopState κ) :=
  if t ∈ l.timers then
    let l := { l with timers := l.timers.erase t }
    some (if t.mActive then l.pingCheck t.sock t.id else l)
  else none

/-- The timers as the loop's thread works on them. -/
theorem work_timer (l : LoopState κ) (t : PingTimer) :
    l.work (.timer t) = if l.phase = .timers then l.schedule t else none := by
  simp only [work, schedule]
  by_cases hphase : l.phase = .timers
  · simp only [hphase, true_and, if_true]
  · simp only [hphase, false_and, if_false]

inductive IdleAction
  | setCheckTime (p : ℕ) (overtime : ℤ)
  /-- `recv` has data for socket `p` -/
  | recvData (p : ℕ)
  | procCloseInLoop (p : ℕ)
  | schedule (t : PingTimer)
deriving DecidableEq, Repr

def idleStep (l : LoopState κ) : IdleAction → Option (LoopState κ)
  | .setCheckTime p overtime => some (l.setCheckTime p overtime)
  | .recvData p => some (l.setDs p { (l.sessions p).ds with mRecvData := true })
  | .procCloseInLoop p => some (l.onSocket p DataSocket.procCloseInLoop)
  | .schedule t => l.schedule t

/-- An open socket with a positive interval has a timer that will run its `PingCheck`, which
closes the socket if it was silent. -/
def Watched (p : ℕ) (l : LoopState κ) : Prop :=
  (l.sessions p).ds.isOpen = true → 0 < (l.sessions p).ds.mCheckTime →
    ∃ t ∈ l.timers, t.sock = p ∧ t.mActive = true ∧
      ((l.sessions p).ds.mRecvData = false →
        ∀ l', l.schedule t = some l' → (l'.sessions p).ds.isOpen = false)

/-- `startPingCheckTimer` is called while a timer of the socket is still alive that will not
run `PingCheck` again: the one that is just running it, or a cancelled one in the queue. -/
def Disarms (p : ℕ) (l : LoopState κ) : IdleAction → Prop
  | .schedule t =>
    t ∈ l.timers ∧ t.sock = p ∧ t.mActive = true ∧ (l.sessions p).ds.isOpen = true ∧
      (l.sessions p).ds.mRecvData = true
  | .setCheckTime q overtime =>
    q = p ∧ 0 < overtime ∧ (l.sessions p).ds.isOpen = true ∧
      ∃ t ∈ l.timers, t.sock = p ∧ t.mActive = false
  | _ => False

/-! ## The queue -/

/-- Every timer in the queue is the one its socket points to. -/
structure Pointed (l : LoopState κ) : Prop where
  timers : ∀ t ∈ l.timers, (l.sessions t.sock).ds.mTimer = some t.id
  timerIds : l.TimerIdsOk
  nodup : (l.timers.map PingTimer.id).Nodup
  final : ∀ p, (l.sessions p).ds.mIsPostFinalClose = true → (l.sessions p).ds.isOpen = false

theorem pointed_init : (init : LoopState κ).Pointed where
  timers := nofun
  timerIds := nofun
  nodup := List.nodup_nil
  final _ := nofun

/-- A socket has one timer in the queue at most. -/
theorem Pointed.unique {l : LoopState κ} (h : l.Pointed) {t u : PingTimer} (ht : t ∈ l.timers)
    (hu : u ∈ l.timers) (hsock : t.sock = u.sock) : t = u := by
  have hid : t.id = u.id := by
    have h1 := h.timers t ht
    rw [hsock, h.timers u hu, Option.some.injEq] at h1
    exact h1.symm
  exact List.inj_on_of_nodup_map h.nodup ht hu hid

/-- `mTimer` is alive exactly if the timer it points to is queued or running. -/
theorem Pointed.timerAlive_iff {l : LoopState κ} (h : l.Pointed) (p : ℕ) :
    l.timerAlive none (l.sessions p).ds.mTimer = true ↔ ∃ t ∈ l.timers, t.sock = p := by
  unfold timerAlive
  constructor
  · intro halive
    split at halive
    · cases halive
    · rename_i id hid
      obtain ⟨t, ht, rfl⟩ : ∃ t ∈ l.timers, t.id = id := by simpa using halive
      exact ⟨t, ht, (h.timerIds p t.id hid).2 t.sock (h.timers t ht)⟩
  · rintro ⟨t, ht, rfl⟩
    rw [h.timers t ht]
    simpa using ⟨t, ht, rfl⟩

/-- A change of a socket that leaves its timer alone. -/
theorem Pointed.setDs {l : LoopState κ} (h : l.Pointed) {p : ℕ} {ds : DataSocket κ}
    (htimer : ds.mTimer = (l.sessions p).ds.mTimer)
    (hfinal : ds.mIsPostFinalClose = true → ds.isOpen = false) : (l.setDs p ds).Pointed := by
  have hsame : ∀ q, ((l.setDs p ds).sessions q).ds.mTimer = (l.sessions q).ds.mTimer :=
    setSession_congr (fun x => x.ds.mTimer) htimer
  refine ⟨fun t ht => (hsame t.sock).trans (h.timers t ht), h.timerIds.of_same hsame rfl, h.nodup,
    fun q => ?_⟩
  by_cases hq : q = p
  · rw [hq, LoopState.setDs, setSession_sessions_self]
    exact hfinal
  · rw [LoopState.setDs, setSession_sessions_of_ne hq]
    exact h.final q

theorem Pointed.addPingTimer {l : LoopState κ} (h : l.Pointed) {p : ℕ}
    (hnone : ∀ t ∈ l.timers, t.sock ≠ p) : (l.addPingTimer p).Pointed := by
  refine ⟨fun t ht => ?_, h.timerIds.add, ?_, fun q => ?_⟩
  · rcases List.mem_cons.mp ht with rfl | ht
    · simp only [LoopState.addPingTimer, LoopState.setDs, setSession_sessions_self]
    · simp only [LoopState.addPingTimer, LoopState.setDs,
        setSession_sessions_of_ne (hnone t ht)]
      exact h.timers t ht
  · rw [LoopState.addPingTimer, List.map_cons, List.nodup_cons]
    refine ⟨fun hmem => ?_, h.nodup⟩
    obtain ⟨t, ht, hid⟩ := List.mem_map.mp hmem
    have hlt := (h.timerIds t.sock t.id (h.timers t ht)).1
    rw [hid] at hlt
    exact Nat.lt_irrefl _ hlt
  · by_cases hq : q = p
    · simp only [hq, LoopState.addPingTimer, LoopState.setDs, setSession_sessions_self]
      exact h.final p
    · simp only [LoopState.addPingTimer, LoopState.setDs, setSession_sessions_of_ne hq]
      exact h.final q

theorem Pointed.cancelTimer {l : LoopState κ} (h : l.Pointed) (mTimer : Option ℕ) :
    (l.cancelTimer mTimer).Pointed := by
  refine ⟨fun t ht => ?_, h.timerIds, ?_, h.final⟩
  · obtain ⟨u, hu, rfl⟩ := List.mem_map.mp ht
    have hid := h.timers u hu
    split <;> exact hid
  · have hids : (l.cancelTimer mTimer).timers.map PingTimer.id = l.timers.map PingTimer.id := by
      rw [LoopState.cancelTimer, List.map_map]
      refine List.map_congr_left fun t _ => ?_
      simp only [Function.comp]
      split <;> rfl
    rw [hids]
    exact h.nodup

theorem Pointed.erase {l : LoopState κ} (h : l.Pointed) (t : PingTimer) :
    ({ l with timers := l.timers.erase t } : LoopState κ).Pointed where
  timers u hu := h.timers u (List.mem_of_mem_erase hu)
  timerIds := h.timerIds
  nodup := h.nodup.sublist ((List.erase_sublist).map PingTimer.id)
  final := h.final

/-- Behind a pop no timer of the socket is queued. -/
theorem Pointed.not_mem_erase {l : LoopState κ} (h : l.Pointed) {t u : PingTimer}
    (ht : t ∈ l.timers) (hu : u ∈ l.timers.erase t) : u.sock ≠ t.sock := by
  intro hsock
  have heq := h.unique (List.mem_of_mem_erase hu) ht hsock
  subst heq
  have hnodup : l.timers.Nodup := List.Nodup.of_map PingTimer.id h.nodup
  exact (hnodup.mem_erase_iff.mp hu).1 rfl

/-- `startPingCheckTimer` with a positive interval adds a timer where none is alive. -/
theorem Pointed.startPingCheckTimer_cases {l : LoopState κ} (h : l.Pointed) {p : ℕ}
    (hpos : 0 < (l.sessions p).ds.mCheckTime) :
    (l.startPingCheckTimer p none = l ∧ ∃ t ∈ l.timers, t.sock = p) ∨
      l.startPingCheckTimer p none = l.addPingTimer p ∧ ∀ t ∈ l.timers, t.sock ≠ p := by
  by_cases halive : l.timerAlive none (l.sessions p).ds.mTimer = true
  · refine .inl ⟨if_neg fun hnot => hnot.1 halive, (h.timerAlive_iff p).mp halive⟩
  · refine .inr ⟨if_pos ⟨halive, hpos⟩, fun t ht hsock => ?_⟩
    exact halive ((h.timerAlive_iff p).mpr ⟨t, ht, hsock⟩)

/-- `setCheckTime` with a positive interval, before the timer is started. -/
def withCheckTime (l : LoopState κ) (p : ℕ) (overtime : ℤ) : LoopState κ :=
  l.setDs p { (l.sessions p).ds with mCheckTime := overtime }

theorem withCheckTime_self (l : LoopState κ) (p : ℕ) (overtime : ℤ) :
    ((l.withCheckTime p overtime).sessions p).ds =
      { (l.sessions p).ds with mCheckTime := overtime } := by
  rw [withCheckTime, LoopState.setDs, setSession_sessions_self]

theorem Pointed.withCheckTime {l : LoopState κ} (h : l.Pointed) (p : ℕ) (overtime : ℤ) :
    (l.withCheckTime p overtime).Pointed :=
  h.setDs rfl (h.final p)

/-- A positive interval adds a timer where none is alive. -/
theorem Pointed.setCheckTime_cases {l : LoopState κ} (h : l.Pointed) {p : ℕ} {overtime : ℤ}
    (hpos : 0 < overtime) :
    (l.setCheckTime p overtime = l.withCheckTime p overtime ∧ ∃ t ∈ l.timers, t.sock = p) ∨
      l.setCheckTime p overtime = (l.withCheckTime p overtime).addPingTimer p ∧
        ∀ t ∈ l.timers, t.sock ≠ p := by
  have hset : l.setCheckTime p overtime =
      (l.withCheckTime p overtime).startPingCheckTimer p none := if_pos hpos
  rw [hset]
  refine (h.withCheckTime p overtime).startPingCheckTimer_cases ?_
  rw [withCheckTime_self]
  exact hpos

/-- The timer that runs `PingCheck` keeps a new one from being added. -/
theorem startPingCheckTimer_firing {l : LoopState κ} {p firing : ℕ}
    (h : (l.sessions p).ds.mTimer = some firing) : l.startPingCheckTimer p firing = l := by
  refine if_neg fun hnot => hnot.1 ?_
  rw [h]
  simp [timerAlive]

/-! ## One socket -/

/-- An open socket with a positive interval has a timer that is not cancelled. -/
structure Armed (p : ℕ) (l : LoopState κ) : Prop extends Pointed l where
  positive : ∀ t ∈ l.timers, t.sock = p → t.mActive = true → 0 < (l.sessions p).ds.mCheckTime
  armed : (l.sessions p).ds.isOpen = true → 0 < (l.sessions p).ds.mCheckTime →
    ∃ t ∈ l.timers, t.sock = p ∧ t.mActive = true

theorem armed_init (p : ℕ) : Armed p (init : LoopState κ) where
  toPointed := pointed_init
  positive := nofun
  armed _ h := absurd h (by simp [init, DataSocket.new])

/-- What `PingCheck` does, be it its own timer that runs it. -/
theorem Pointed.schedule_active {l : LoopState κ} (h : l.Pointed) {t : PingTimer}
    (ht : t ∈ l.timers) (hactive : t.mActive = true) :
    l.schedule t = some
      (if (l.sessions t.sock).ds.mRecvData then
        ({ l with timers := l.timers.erase t } : LoopState κ).setDs t.sock
          { (l.sessions t.sock).ds with mRecvData := false }
      else
        ({ l with timers := l.timers.erase t } : LoopState κ).onSocket t.sock
          DataSocket.procCloseInLoop) := by
  rw [schedule, if_pos ht]
  simp only [hactive, if_true, pingCheck]
  split
  · rw [startPingCheckTimer_firing]
    simp only [LoopState.setDs, setSession_sessions_self]
    exact h.timers t ht
  · rfl

theorem isOpen_onSocket_procCloseInLoop {l : LoopState κ} (h : l.Pointed) (p : ℕ) :
    ((l.onSocket p DataSocket.procCloseInLoop).sessions p).ds.isOpen = false := by
  simp only [onSocket, LoopState.setDs, pushAfterLoopProc_sessions, setSession_sessions_self]
  exact DataSocket.isOpen_procCloseInLoop (h.final p)

theorem Armed.watched {p : ℕ} {l : LoopState κ} (h : Armed p l) : l.Watched p := by
  intro hopen hpos
  obtain ⟨t, ht, rfl, hactive⟩ := h.armed hopen hpos
  refine ⟨t, ht, rfl, hactive, fun hsilent l' hl' => ?_⟩
  rw [h.schedule_active ht hactive, Option.some.injEq] at hl'
  simp only [hsilent, Bool.false_eq_true, if_false] at hl'
  exact hl' ▸ isOpen_onSocket_procCloseInLoop (h.toPointed.erase t) t.sock

/-- A change of a socket that starts nothing. -/
theorem Armed.setDs {p q : ℕ} {l : LoopState κ} (h : Armed p l) {ds : DataSocket κ}
    (htimer : ds.mTimer = (l.sessions q).ds.mTimer)
    (hfinal : ds.mIsPostFinalClose = true → ds.isOpen = false)
    (hcheck : ds.mCheckTime = (l.sessions q).ds.mCheckTime)
    (hopen : ds.isOpen = true → (l.sessions q).ds.isOpen = true) : Armed p (l.setDs q ds) := by
  have hsame : ((l.setDs q ds).sessions p).ds.mCheckTime = (l.sessions p).ds.mCheckTime :=
    setSession_congr (fun x => x.ds.mCheckTime) hcheck p
  refine ⟨h.toPointed.setDs htimer hfinal, fun t ht hsock hactive => ?_, fun ho hpos => ?_⟩
  · rw [hsame]
    exact h.positive t ht hsock hactive
  · rw [hsame] at hpos
    refine h.armed ?_ hpos
    by_cases hp : p = q
    · rw [LoopState.setDs, hp, setSession_sessions_self] at ho
      exact hp ▸ hopen ho
    · rwa [LoopState.setDs, setSession_sessions_of_ne hp] at ho

theorem Pointed.procCloseInLoop {l : LoopState κ} (h : l.Pointed) (p : ℕ) :
    (l.onSocket p DataSocket.procCloseInLoop).Pointed := by
  have hset := h.setDs (sound_procCloseInLoop (l.sessions p).ds).mTimer
    fun _ => DataSocket.isOpen_procCloseInLoop (h.final p)
  exact ⟨hset.timers, hset.timerIds, hset.nodup, hset.final⟩

theorem Armed.procCloseInLoop {p : ℕ} {l : LoopState κ} (h : Armed p l) (q : ℕ) :
    Armed p (l.onSocket q DataSocket.procCloseInLoop) := by
  have hclosed := DataSocket.isOpen_procCloseInLoop (h.final q)
  have hcheck : (l.sessions q).ds.procCloseInLoop.1.mCheckTime = (l.sessions q).ds.mCheckTime := by
    unfold DataSocket.procCloseInLoop DataSocket.onClose DataSocket.closeSocket
    cases (l.sessions q).ds.isOpen <;> cases (l.sessions q).ds.mIsPostFinalClose <;> rfl
  have hset : Armed p (l.setDs q (l.sessions q).ds.procCloseInLoop.1) :=
    h.setDs (sound_procCloseInLoop _).mTimer (fun _ => hclosed) hcheck fun hopen => by
      rw [hclosed] at hopen
      cases hopen
  exact ⟨h.toPointed.procCloseInLoop q, hset.positive, hset.armed⟩

/-- The timer of another socket leaves the queue, or that of a socket which needs none. -/
theorem Armed.erase {p : ℕ} {l : LoopState κ} (h : Armed p l) {t : PingTimer} (ht : t ∈ l.timers)
    (hneedless : t.sock ≠ p ∨ t.mActive = false ∨ (l.sessions p).ds.isOpen = false) :
    Armed p { l with timers := l.timers.erase t } := by
  refine ⟨h.toPointed.erase t, fun u hu => h.positive u (List.mem_of_mem_erase hu),
    fun hopen hpos => ?_⟩
  obtain ⟨u, hu, hsock, hactive⟩ := h.armed hopen hpos
  refine ⟨u, (List.mem_erase_of_ne ?_).mpr hu, hsock, hactive⟩
  rintro rfl
  rcases hneedless with hne | hcancelled | hclosed
  · exact hne hsock
  · rw [hcancelled] at hactive
    cases hactive
  · rw [hclosed] at hopen
    cases hopen

theorem Armed.addPingTimer {p q : ℕ} {l : LoopState κ} (h : Armed p l)
    (hnone : ∀ t ∈ l.timers, t.sock ≠ q) (hpos : 0 < (l.sessions q).ds.mCheckTime) :
    Armed p (l.addPingTimer q) := by
  have hcheck : ((l.addPingTimer q).sessions p).ds.mCheckTime = (l.sessions p).ds.mCheckTime :=
    setSession_congr (x := { l.sessions q with
      ds := { (l.sessions q).ds with mTimer := some l.nextTimer } }) (·.ds.mCheckTime) rfl p
  have hopen : ((l.addPingTimer q).sessions p).ds.isOpen = (l.sessions p).ds.isOpen :=
    setSession_congr (x := { l.sessions q with
      ds := { (l.sessions q).ds with mTimer := some l.nextTimer } }) (·.ds.isOpen) rfl p
  refine ⟨h.toPointed.addPingTimer hnone, fun t ht hsock hactive => ?_, fun ho hp => ?_⟩
  · rw [hcheck]
    rcases List.mem_cons.mp ht with rfl | ht
    · exact hsock ▸ hpos
    · exact h.positive t ht hsock hactive
  · rw [hopen] at ho
    rw [hcheck] at hp
    obtain ⟨t, ht, hsock, hactive⟩ := h.armed ho hp
    exact ⟨t, List.mem_cons_of_mem _ ht, hsock, hactive⟩

/-- `setCheckTime` with a positive interval, on a socket with no cancelled timer in the
queue. -/
theorem Armed.setCheckTime_pos {p q : ℕ} {l : LoopState κ} (h : Armed p l) {overtime : ℤ}
    (hpos : 0 < overtime)
    (hnot : q = p → (l.sessions p).ds.isOpen = true → ∀ t ∈ l.timers, t.sock = p → t.mActive = true) :
    Armed p (l.setCheckTime q overtime) := by
  have hpointed := h.toPointed.withCheckTime q overtime
  have hcheck : 0 < ((l.withCheckTime q overtime).sessions q).ds.mCheckTime := by
    rw [withCheckTime_self]
    exact hpos
  by_cases hq : q = p
  · subst hq
    -- a timer that is alive stays, and otherwise a new one is queued
    rcases h.toPointed.setCheckTime_cases hpos with ⟨hsame, t, ht, hsock⟩ | ⟨hadd, hnone⟩
    · rw [hsame]
      refine ⟨hpointed, fun _ _ _ _ => hcheck, fun hopen _ => ⟨t, ht, hsock, ?_⟩⟩
      rw [withCheckTime_self] at hopen
      exact hnot rfl hopen t ht hsock
    · rw [hadd]
      refine ⟨hpointed.addPingTimer hnone, fun _ _ _ _ => ?_, fun _ _ =>
        ⟨_, List.mem_cons_self, rfl, rfl⟩⟩
      simp only [LoopState.addPingTimer, LoopState.setDs, setSession_sessions_self]
      exact hcheck
  · have hother : (l.withCheckTime q overtime).sessions p = l.sessions p :=
      setSession_sessions_of_ne (Ne.symm hq)
    have harmed : Armed p (l.withCheckTime q overtime) := by
      refine ⟨hpointed, ?_, ?_⟩
      · rw [hother]
        exact h.positive
      · rw [hother]
        exact h.armed
    rcases h.toPointed.setCheckTime_cases hpos with ⟨hsame, -⟩ | ⟨hadd, hnone⟩
    · rw [hsame]
      exact harmed
    · rw [hadd]
      exact harmed.addPingTimer hnone hcheck

/-- `setCheckTime(-1)` cancels the timer of the socket. -/
theorem Armed.setCheckTime_off {p q : ℕ} {l : LoopState κ} (h : Armed p l) :
    Armed p (l.setCheckTime q (-1)) := by
  have hset : l.setCheckTime q (-1) = (l.cancelTimer (l.sessions q).ds.mTimer).setDs q
      { (l.sessions q).ds with mCheckTime := -1 } := rfl
  have hpointed : (l.setCheckTime q (-1)).Pointed := by
    rw [hset]
    exact (h.toPointed.cancelTimer _).setDs rfl (h.final q)
  by_cases hq : q = p
  · subst hq
    refine ⟨hpointed, fun t ht hsock hactive => ?_, fun _ hpos => ?_⟩
    · -- the timer of the socket is the one cancelled
      obtain ⟨u, hu, rfl⟩ := List.mem_map.mp ht
      have hid := h.timers u hu
      split at hsock <;> rename_i heq
      · rw [if_pos heq] at hactive
        cases hactive
      · rw [hsock] at hid
        exact absurd hid heq
    · rw [hset, LoopState.setDs, setSession_sessions_self] at hpos
      exact absurd hpos (show ¬ (0 : ℤ) < -1 by decide)
  · have hother : (l.setCheckTime q (-1)).sessions p = l.sessions p :=
      setSession_sessions_of_ne (Ne.symm hq)
    refine ⟨hpointed, fun t ht hsock hactive => ?_, fun hopen hpos => ?_⟩
    · rw [hother]
      obtain ⟨u, hu, rfl⟩ := List.mem_map.mp ht
      split at hsock <;> rename_i heq
      · rw [if_pos heq] at hactive
        cases hactive
      · rw [if_neg heq] at hactive
        exact h.positive u hu hsock hactive
    · rw [hother] at hopen hpos
      obtain ⟨u, hu, hsock, hactive⟩ := h.armed hopen hpos
      have hne : ¬ (l.sessions q).ds.mTimer = some u.id := by
        intro hid
        have hp := h.timers u hu
        rw [hsock] at hp
        exact hq ((h.timerIds p u.id hp).2 q hid)
      refine ⟨u, List.mem_map.mpr ⟨u, hu, if_neg hne⟩, hsock, hactive⟩

/-- A step that disarms no timer of the socket keeps it armed. -/
theorem armed_step {p : ℕ} {l l' : LoopState κ} {a : IdleAction} (h : Armed p l)
    (hdisarms : ¬ l.Disarms p a) (hl' : l.idleStep a = some l') : Armed p l' := by
  cases a with
  | setCheckTime q overtime =>
    cases hl'
    by_cases hpos : 0 < overtime
    · refine h.setCheckTime_pos hpos fun hq hopen t ht hsock => ?_
      by_contra hcancelled
      exact hdisarms ⟨hq, hpos, hopen, t, ht, hsock, Bool.eq_false_iff.mpr hcancelled⟩
    · by_cases hoff : overtime = -1
      · rw [hoff]
        exact h.setCheckTime_off
      · have hsame : l.setCheckTime q overtime = l := (if_neg hpos).trans (if_neg hoff)
        rw [hsame]
        exact h
  | recvData q =>
    cases hl'
    exact h.setDs rfl (h.final q) rfl id
  | procCloseInLoop q =>
    cases hl'
    exact h.procCloseInLoop q
  | schedule t =>
    have ht : t ∈ l.timers := (Option.ite_none_right_eq_some.mp hl').1
    cases hactive : t.mActive with
    | false =>
      -- a cancelled timer leaves the queue and does nothing
      have hsame : l.schedule t = some { l with timers := l.timers.erase t } := by
        rw [schedule, if_pos ht]
        simp only [hactive, Bool.false_eq_true, if_false]
      rw [idleStep, hsame, Option.some.injEq] at hl'
      exact hl' ▸ h.erase ht (.inr (.inl hactive))
    | true =>
      rw [idleStep, h.schedule_active ht hactive, Option.some.injEq] at hl'
      subst hl'
      by_cases hneedless : t.sock ≠ p ∨ (l.sessions p).ds.isOpen = false
      · have herase := h.erase ht (hneedless.imp_right .inr)
        split
        · exact herase.setDs rfl (h.final t.sock) rfl id
        · exact herase.procCloseInLoop t.sock
      · -- the socket is open; it was silent, and is closed
        simp only [not_or, not_not, Bool.not_eq_false] at hneedless
        obtain ⟨rfl, hopen⟩ := hneedless
        have hsilent : ¬ (l.sessions t.sock).ds.mRecvData = true := fun hrecv =>
          hdisarms ⟨ht, rfl, hactive, hopen, hrecv⟩
        rw [if_neg hsilent]
        have hclosed := isOpen_onSocket_procCloseInLoop (h.toPointed.erase t) t.sock
        refine ⟨(h.toPointed.erase t).procCloseInLoop t.sock, fun u hu hsock => ?_, fun ho => ?_⟩
        · exact absurd hsock (h.not_mem_erase ht hu)
        · rw [hclosed] at ho
          cases ho

/-- A step that disarms the timer of the socket leaves it unwatched. -/
theorem not_watched_of_disarms {p : ℕ} {l : LoopState κ} {a : IdleAction} (h : Armed p l)
    (hdisarms : l.Disarms p a) : ∃ l', l.idleStep a = some l' ∧ ¬ l'.Watched p := by
  cases a with
  | recvData q | procCloseInLoop q => cases hdisarms
  | schedule t =>
    obtain ⟨ht, rfl, hactive, hopen, hrecv⟩ := hdisarms
    refine ⟨_, h.schedule_active ht hactive, fun hwatched => ?_⟩
    rw [if_pos hrecv] at hwatched
    obtain ⟨u, hu, hsock, -⟩ := hwatched
      (by rw [LoopState.setDs, setSession_sessions_self]; exact hopen)
      (by rw [LoopState.setDs, setSession_sessions_self]; exact h.positive t ht rfl hactive)
    exact h.not_mem_erase ht hu hsock
  | setCheckTime q overtime =>
    obtain ⟨rfl, hpos, hopen, t, ht, hsock, hcancelled⟩ := hdisarms
    -- the cancelled timer still counts as alive, so that no other is queued
    have hsame : l.setCheckTime q overtime = l.withCheckTime q overtime := by
      rcases h.toPointed.setCheckTime_cases hpos with ⟨hsame, -⟩ | ⟨-, hnone⟩
      · exact hsame
      · exact absurd hsock (hnone t ht)
    refine ⟨_, rfl, fun hwatched => ?_⟩
    rw [hsame, Watched, withCheckTime_self] at hwatched
    obtain ⟨u, hu, husock, hactive, -⟩ := hwatched hopen hpos
    have heq : u = t := h.unique hu ht (husock.trans hsock.symm)
    rw [heq, hcancelled] at hactive
    cases hactive

/-- **Idle detection stays armed**, at every point of every run, exactly if no step of it has
the timer restarted while one is alive that will not run `PingCheck` again. -/
theorem always_watched_iff (p : ℕ) (actions : List IdleAction) :
    Transition.Always idleStep (Watched p) (init : LoopState κ) actions ↔
      Transition.Throughout idleStep (fun l a => ¬ l.Disarms p a) (init : LoopState κ) actions := by
  refine Transition.always_iff_throughout (W := fun _ _ => True) (I := Armed p)
    (fun l h => h.watched) (fun l a l' h _ hC hl' => armed_step h hC hl')
    (fun l a h _ hC => not_watched_of_disarms h (not_not.mp hC)) (armed_init p)
    (Transition.throughout_of_forall (fun _ _ => trivial) _ _)

/-- The first check finds that data was received: the pass of `schedule` ends with no timer. -/
theorem unwatched_after_first_check :
    ∃ l : LoopState Empty, Transition.exec idleStep init
        [.setCheckTime 0 1000, .recvData 0, .schedule ⟨0, 0, true⟩] = some l ∧
      (l.sessions 0).ds.isOpen = true ∧ 0 < (l.sessions 0).ds.mCheckTime ∧ l.timers = [] ∧
      ¬ l.Watched 0 := by
  refine ⟨_, rfl, rfl, by decide, rfl, fun hwatched => ?_⟩
  obtain ⟨t, ht, -⟩ := hwatched rfl (by decide)
  exact List.not_mem_nil (show t ∈ ([] : List PingTimer) from ht)

end LoopState

end Netxy
