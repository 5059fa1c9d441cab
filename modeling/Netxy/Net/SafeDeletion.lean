import Mathlib.Data.List.Nodup
import Netxy.Net.TcpService

/-!
# A socket is deleted last

The disconnect callback of a socket deletes it. The functors a socket posts hold its raw
pointer, and so do its ping timer and the reported events, so the callback has to run once
and behind everything else. What carries this is a fact about each socket and the functors
posted for it: none of them is the disconnect callback while the socket is open, and once
the socket is closed the callback is the last of them.
-/

namespace Netxy

/-! ## Closing and the posted functors -/

/-- What holds of a live socket and the functors posted for it, oldest first. -/
def CloseOk {κ : Type*} (ds : DataSocket κ) (entries : List AfterLoopProc) : Prop :=
  (ds.isOpen = true ∧ ds.mIsPostFinalClose = false ∧ .disconnect ∉ entries) ∨
    (ds.isOpen = false ∧ ds.mIsPostFinalClose = true ∧
      ∃ before, entries = before ++ [.disconnect] ∧ .disconnect ∉ before)

section CloseOk
variable {κ : Type*} {ds ds' : DataSocket κ} {entries posted : List AfterLoopProc}

/-- Another functor of the socket is done. -/
theorem CloseOk.tail {proc : AfterLoopProc} (h : CloseOk ds (proc :: entries))
    (hproc : proc ≠ .disconnect) : CloseOk ds entries := by
  rcases h with ⟨hopen, hfinal, hnot⟩ | ⟨hopen, hfinal, before, heq, hnot⟩
  · exact .inl ⟨hopen, hfinal, fun hmem => hnot (List.mem_cons_of_mem _ hmem)⟩
  · rcases before with _ | ⟨b, before⟩
    · rw [List.nil_append, List.cons.injEq] at heq
      exact absurd heq.1 hproc
    · rw [List.cons_append, List.cons.injEq] at heq
      exact .inr ⟨hopen, hfinal, before, heq.2, fun hmem => hnot (List.mem_cons_of_mem _ hmem)⟩

/-- The disconnect callback comes last. -/
theorem CloseOk.eq_nil (h : CloseOk ds (.disconnect :: entries)) : entries = [] := by
  rcases h with ⟨-, -, hnot⟩ | ⟨-, -, before, heq, hnot⟩
  · exact absurd List.mem_cons_self hnot
  · rcases before with _ | ⟨b, before⟩
    · rw [List.nil_append, List.cons.injEq] at heq
      exact heq.2
    · rw [List.cons_append, List.cons.injEq] at heq
      exact absurd (heq.1 ▸ List.mem_cons_self) hnot

/-- A step that opens and closes nothing keeps it, if it posts only for an open socket. -/
theorem CloseOk.same (h : CloseOk ds entries) (hopen : ds'.isOpen = ds.isOpen)
    (hfinal : ds'.mIsPostFinalClose = ds.mIsPostFinalClose) (hnot : .disconnect ∉ posted)
    (hposted : ds.isOpen = false → posted = []) : CloseOk ds' (entries ++ posted) := by
  rcases h with ⟨ho, hf, hn⟩ | ⟨ho, hf, hbefore⟩
  · refine .inl ⟨hopen.trans ho, hfinal.trans hf, fun hmem => ?_⟩
    exact (List.mem_append.mp hmem).elim hn hnot
  · rw [hposted ho, List.append_nil]
    exact .inr ⟨hopen.trans ho, hfinal.trans hf, hbefore⟩

/-- What every method called on a live socket does to it and to the functors posted. -/
structure Sound (ds : DataSocket κ) (r : DataSocket κ × List AfterLoopProc) : Prop where
  mUserData : r.1.mUserData = ds.mUserData
  mTimer : r.1.mTimer = ds.mTimer
  closeOk : ∀ entries, CloseOk ds entries → CloseOk r.1 (entries ++ r.2)

/-- An operation that posts no disconnect and leaves the socket as it was. -/
theorem Sound.same (huser : ds'.mUserData = ds.mUserData) (htimer : ds'.mTimer = ds.mTimer)
    (hopen : ds'.isOpen = ds.isOpen) (hfinal : ds'.mIsPostFinalClose = ds.mIsPostFinalClose)
    (hnot : .disconnect ∉ posted) (hposted : ds.isOpen = false → posted = []) :
    Sound ds (ds', posted) :=
  ⟨huser, htimer, fun _ h => h.same hopen hfinal hnot hposted⟩

/-- And one that posts nothing at all. -/
theorem Sound.quiet (huser : ds'.mUserData = ds.mUserData) (htimer : ds'.mTimer = ds.mTimer)
    (hopen : ds'.isOpen = ds.isOpen) (hfinal : ds'.mIsPostFinalClose = ds.mIsPostFinalClose) :
    Sound ds (ds', []) :=
  .same huser htimer hopen hfinal List.not_mem_nil fun _ => rfl

/-- A method may follow a change that opens and closes nothing. -/
theorem Sound.after {r : DataSocket κ × List AfterLoopProc} (h : Sound ds' r)
    (hds : Sound ds (ds', [])) : Sound ds r where
  mUserData := h.mUserData.trans hds.mUserData
  mTimer := h.mTimer.trans hds.mTimer
  closeOk entries hentries := h.closeOk entries (by simpa using hds.closeOk entries hentries)

variable (ds)

/-- `postShutdown` posts a shutdown. -/
theorem sound_postShutdown : Sound ds ds.postShutdown := by
  refine .same rfl rfl rfl rfl ?_ fun h => ?_
  · split <;> simp
  · rw [h]
    rfl

/-- `runAfterFlush` posts a flush. -/
theorem sound_runAfterFlush : Sound ds ds.runAfterFlush := by
  unfold DataSocket.runAfterFlush
  split
  · rename_i h
    exact .same rfl rfl rfl rfl (by simp) fun hclosed => by simp [hclosed] at h
  · exact .quiet rfl rfl rfl rfl

theorem sound_sendPacketInLoop (packet : List UInt8) (callback : Option κ) :
    Sound ds (ds.sendPacketInLoop packet callback) :=
  (sound_runAfterFlush _).after (.quiet rfl rfl rfl rfl)

theorem sound_checkWrite : Sound ds (ds.checkWrite, []) := by
  unfold DataSocket.checkWrite
  split <;> exact .quiet rfl rfl rfl rfl

theorem sound_removeCheckWrite : Sound ds (ds.removeCheckWrite, []) := by
  unfold DataSocket.removeCheckWrite
  split <;> exact .quiet rfl rfl rfl rfl

theorem sound_canSend : Sound ds ds.canSend :=
  have h : Sound ds.removeCheckWrite ds.canSend :=
    (sound_runAfterFlush _).after (.quiet rfl rfl rfl rfl)
  h.after (sound_removeCheckWrite ds)

theorem sound_procShutdownInLoop : Sound ds (ds.procShutdownInLoop, []) := by
  unfold DataSocket.procShutdownInLoop
  split <;> exact .quiet rfl rfl rfl rfl

/-- The final close is posted once, and the socket is closed by then. -/
theorem sound_onClose : Sound ds ds.onClose := by
  unfold DataSocket.onClose
  split
  · exact .quiet rfl rfl rfl rfl
  · rename_i hfinal
    refine ⟨?_, ?_, fun entries h => ?_⟩
    · exact ds.closeSocket_mUserData
    · exact ds.closeSocket_mTimer
    · rcases h with ⟨hopen, -, hnot⟩ | ⟨-, hf, -⟩
      · refine .inr ⟨?_, rfl, entries, rfl, hnot⟩
        simp only [DataSocket.closeSocket, if_pos hopen]
      · exact absurd hf hfinal

/-- The socket is closed first, and its disconnect is posted once. -/
theorem sound_procCloseInLoop : Sound ds ds.procCloseInLoop := by
  unfold DataSocket.procCloseInLoop
  split
  · exact sound_onClose ds
  · exact .quiet rfl rfl rfl rfl

theorem sound_flushSend (kind : DataSocket.FlushKind) (r : DataSocket.SysRet) :
    Sound ds ((ds.flushSend kind r).ds, (ds.flushSend kind r).posted) := by
  rcases DataSocket.flushSend_cases kind ds r with h | ⟨o, -, h⟩ | h | h <;> rw [h]
  · exact .quiet rfl rfl rfl rfl
  · exact .quiet rfl rfl rfl rfl
  · exact (sound_checkWrite _).after (.quiet rfl rfl rfl rfl)
  · exact sound_procCloseInLoop ds

theorem sound_flushTail (sendLen : ℕ) (want : ℤ) :
    Sound ds ((ds.flushTail sendLen want).ds, (ds.flushTail sendLen want).posted) := by
  rcases DataSocket.flushTail_cases ds sendLen want with h | h | h <;> rw [h]
  · exact .quiet rfl rfl rfl rfl
  · exact .quiet rfl rfl rfl rfl
  · exact (sound_checkWrite _).after (.quiet rfl rfl rfl rfl)

/-- One step of `flush`, wherever it stands between its system calls. -/
theorem sound_flushStep (kind : DataSocket.FlushKind) (pc : DataSocket.FlushPc)
    (r : DataSocket.SysRet) :
    Sound ds ((ds.flushStep kind pc r).ds, (ds.flushStep kind pc r).posted) := by
  cases pc with
  | sendProc => exact sound_flushSend ds kind r
  | written sendLen want tmpLen =>
    simp only [DataSocket.flushStep, DataSocket.flushWritten]
    split
    · exact sound_flushTail ds sendLen want
    · split
      · exact .quiet rfl rfl rfl rfl
      · exact (sound_flushTail _ sendLen want).after (.quiet rfl rfl rfl rfl)
  | completed sendLen want tmpLen => exact .quiet rfl rfl rfl rfl

end CloseOk

/-! ## One loop -/

namespace LoopState

variable {κ : Type*}

/-- The functors posted for socket `p` and still to be run, in order. -/
def entries (l : LoopState κ) (p : ℕ) : List AfterLoopProc :=
  ((l.mCopyAfterLoopProcs ++ l.mAfterLoopProcs).filter (·.1 = p)).map Prod.snd

/-- The socket a functor of `helpAddChannel` is to enter. -/
def entering : AsyncProc κ → Option ℕ
  | .enter p => some p
  | _ => none

/-- The sockets whose enter functors are queued. -/
def enters (l : LoopState κ) : List ℕ :=
  (l.mCopyAsyncProcs ++ l.mAsyncProcs).filterMap entering

/-- The slot of a socket. -/
def slot (l : LoopState κ) (p : ℕ) : ℕ :=
  (SessionId.ofId (l.sessions p).ds.mUserData).index.toNat

/-- A socket and the functors posted for it, in each part of its life. -/
def SessionOk (x : Session κ) (entries : List AfterLoopProc) : Prop :=
  match x.status with
  | .absent | .posted => x.ds = .new ∧ entries = [] ∧ x.disconnects = 0
  | .live => CloseOk x.ds entries ∧ x.disconnects = 0
  | .closing => entries = [] ∧ x.disconnects = 1
  | .deleted => entries = [] ∧ x.disconnects ≤ 1

/-- The socket whose code runs is alive. -/
def FrameOk (l : LoopState κ) : Prop :=
  match l.frame with
  | .none => True
  | .recv e | .recvDone e => l.phase = .events ∧ (l.sessions e.sock).status = .live
  | .flush p _ => l.phase = .afterLoopProcs ∧ (l.sessions p).status = .live
  | .disconnect p => l.phase = .afterLoopProcs ∧ (l.sessions p).status = .closing

/-- The table holds live sockets, each in its own slot only. -/
def TableOk (l : LoopState κ) : Prop :=
  ∀ k p, l.table.mDataSockets.get k = some p → (l.sessions p).status = .live ∧ k = l.slot p

/-- No two sockets have pointed to the same timer. -/
def TimerIdsOk (l : LoopState κ) : Prop :=
  ∀ p id, (l.sessions p).ds.mTimer = some id →
    id < l.nextTimer ∧ ∀ q, (l.sessions q).ds.mTimer = some id → q = p

/-- What holds of loop `i` in every state. -/
structure Safe (i : ℕ) (l : LoopState κ) : Prop where
  session : ∀ p, SessionOk (l.sessions p) (l.entries p)
  closing : ∀ p, (l.sessions p).status = .closing → l.frame = .disconnect p
  frame : l.FrameOk
  events : l.phase ≠ .events → l.batch = []
  batch : ∀ e ∈ l.batch, (l.sessions e.sock).status = .live
  copyAfter : l.phase ≠ .afterLoopProcs → l.mCopyAfterLoopProcs = []
  timers : ∀ t ∈ l.timers, (l.sessions t.sock).ds.mTimer = some t.id ∧
    (t.mActive = true →
      (l.sessions t.sock).status = .live ∨ (l.sessions t.sock).status = .closing)
  timerIds : l.TimerIdsOk
  enters : l.enters.Nodup ∧ ∀ p ∈ l.enters, (l.sessions p).status = .posted
  loopIndex : ∀ p, (l.sessions p).status = .live →
    (SessionId.ofId (l.sessions p).ds.mUserData).loopIndex = BitVec.ofNat 16 i
  table : i < 2 ^ 16 → l.TableOk

/-- What `FrameOk` says of the frame there is. -/
theorem Safe.frame_eq {i : ℕ} {l : LoopState κ} (hl : Safe i l) {frame : SocketFrame}
    (h : l.frame = frame) : FrameOk { l with frame := frame } := h ▸ hl.frame

/-- A new loop has no sockets, no timers and nothing queued. -/
theorem safe_init (i : ℕ) : Safe i (init : LoopState κ) where
  session _ := ⟨rfl, rfl, rfl⟩
  closing _ h := by cases h
  frame := trivial
  events _ := rfl
  batch _ h := absurd h List.not_mem_nil
  copyAfter _ := rfl
  timers _ h := absurd h List.not_mem_nil
  timerIds _ _ h := by cases h
  enters := ⟨List.nodup_nil, fun _ h => absurd h List.not_mem_nil⟩
  loopIndex _ h := by cases h
  table _ k p h := by
    simp only [init, SessionTable.empty, TypeIDS.empty, TypeIDS.get, List.getElem?_nil] at h
    cases h

variable {i : ℕ} {l l' : LoopState κ} {p q : ℕ} {x : Session κ}

/-! ### Changing one socket -/

/-- The functors a method of `p` posts. -/
theorem entries_pushAfterLoopProc (l : LoopState κ) (p q : ℕ) (posted : List AfterLoopProc) :
    (l.pushAfterLoopProc p posted).entries q = l.entries q ++ if q = p then posted else [] := by
  have hposted : ((posted.map (p, ·)).filter (·.1 = q)).map Prod.snd =
      if q = p then posted else [] := by
    split
    · rename_i h
      rw [List.filter_eq_self.mpr, List.map_map]
      · exact List.map_id _
      · intro a ha
        obtain ⟨b, -, rfl⟩ := List.mem_map.mp ha
        exact decide_eq_true h.symm
    · rename_i h
      rw [List.filter_eq_nil_iff.mpr, List.map_nil]
      intro a ha
      obtain ⟨b, -, rfl⟩ := List.mem_map.mp ha
      simpa using Ne.symm h
  simp only [entries, pushAfterLoopProc, ← List.append_assoc, List.filter_append,
    List.map_append, hposted]

/-- The function on the stack stays good as long as its socket stays. -/
theorem FrameOk.of_same (h : l.FrameOk) (hframe : l'.frame = l.frame)
    (hphase : l'.phase = l.phase)
    (hstatus : ∀ q, (l.sessions q).status = .live ∨ (l.sessions q).status = .closing →
      (l'.sessions q).status = (l.sessions q).status) : l'.FrameOk := by
  unfold FrameOk at h ⊢
  rw [hframe, hphase]
  cases hf : l.frame with
  | none => trivial
  | recv e =>
    rw [hf] at h
    exact ⟨h.1, (hstatus _ (.inl h.2)).trans h.2⟩
  | recvDone e =>
    rw [hf] at h
    exact ⟨h.1, (hstatus _ (.inl h.2)).trans h.2⟩
  | flush p pc =>
    rw [hf] at h
    exact ⟨h.1, (hstatus _ (.inl h.2)).trans h.2⟩
  | disconnect p =>
    rw [hf] at h
    exact ⟨h.1, (hstatus _ (.inr h.2)).trans h.2⟩

/-- The timers depend on the sockets' `mTimer` alone. -/
theorem TimerIdsOk.of_same (h : l.TimerIdsOk)
    (hsame : ∀ q, (l'.sessions q).ds.mTimer = (l.sessions q).ds.mTimer)
    (hnext : l'.nextTimer = l.nextTimer) : l'.TimerIdsOk := by
  intro p id hp
  rw [hsame] at hp
  obtain ⟨hlt, hinj⟩ := h p id hp
  exact ⟨hlt.trans_eq hnext.symm, fun q hq => hinj q ((hsame q).symm.trans hq)⟩

/-- Beyond `session` and the timers, only the lives and the ids of the sockets matter. -/
theorem Safe.of_same (hl : Safe i l) (hsession : ∀ q, SessionOk (l'.sessions q) (l'.entries q))
    (htimers : ∀ t ∈ l'.timers, (l'.sessions t.sock).ds.mTimer = some t.id ∧
      (t.mActive = true →
        (l.sessions t.sock).status = .live ∨ (l.sessions t.sock).status = .closing))
    (htimerIds : l'.TimerIdsOk)
    (hstatus : ∀ q, (l'.sessions q).status = (l.sessions q).status)
    (huser : ∀ q, (l'.sessions q).ds.mUserData = (l.sessions q).ds.mUserData)
    (hframe : l'.frame = l.frame) (hphase : l'.phase = l.phase) (hbatch : l'.batch = l.batch)
    (hcopy : l'.mCopyAfterLoopProcs = l.mCopyAfterLoopProcs)
    (henters : l'.enters = l.enters) (htable : l'.table = l.table) : Safe i l' := by
  constructor
  case session =>
    exact hsession
  case closing =>
    intro q hq
    rw [hframe]
    exact hl.closing q ((hstatus q).symm.trans hq)
  case frame =>
    exact hl.frame.of_same hframe hphase fun q _ => hstatus q
  case events =>
    rw [hphase, hbatch]
    exact hl.events
  case batch =>
    simp only [hbatch, hstatus]
    exact hl.batch
  case copyAfter =>
    rw [hphase, hcopy]
    exact hl.copyAfter
  case timers =>
    simp only [hstatus]
    exact htimers
  case timerIds =>
    exact htimerIds
  case enters =>
    simp only [henters, hstatus]
    exact hl.enters
  case loopIndex =>
    simp only [hstatus, huser]
    exact hl.loopIndex
  case table =>
    simp only [TableOk, slot, htable, hstatus, huser]
    exact hl.table

/-- A change of one socket that leaves its life, its id and its timer alone, with what it
posts. -/
theorem Safe.touch (hl : Safe i l) {posted : List AfterLoopProc}
    (hstatus : x.status = (l.sessions p).status)
    (huser : x.ds.mUserData = (l.sessions p).ds.mUserData)
    (htimer : x.ds.mTimer = (l.sessions p).ds.mTimer)
    (hok : SessionOk x (l.entries p ++ posted)) :
    Safe i ((l.setSession p x).pushAfterLoopProc p posted) := by
  have hsame := setSession_congr (fun x : Session κ => x.ds.mTimer) htimer
  refine hl.of_same (fun q => ?_) (fun t ht => ?_) (hl.timerIds.of_same hsame rfl)
    (setSession_congr Session.status hstatus)
    (setSession_congr (fun x => x.ds.mUserData) huser) rfl rfl rfl rfl rfl rfl
  · rw [entries_pushAfterLoopProc, pushAfterLoopProc_sessions]
    by_cases hq : q = p
    · subst hq
      rw [setSession_sessions_self, if_pos rfl]
      exact hok
    · rw [setSession_sessions_of_ne hq, if_neg hq, List.append_nil]
      exact hl.session q
  · obtain ⟨h1, h2⟩ := hl.timers t ht
    exact ⟨(hsame t.sock).trans h1, h2⟩

/-- A socket in use has not been disconnected yet. -/
theorem sessionOk_live (hx : x.status = .live) (entries : List AfterLoopProc) :
    SessionOk x entries ↔ CloseOk x.ds entries ∧ x.disconnects = 0 := by
  simp only [SessionOk, hx]

/-- A method of a live socket is called. -/
theorem Safe.onSocket (hl : Safe i l) (hp : (l.sessions p).status = .live)
    {f : DataSocket κ → DataSocket κ × List AfterLoopProc}
    (hf : Sound (l.sessions p).ds (f (l.sessions p).ds)) : Safe i (l.onSocket p f) := by
  refine hl.touch rfl hf.mUserData hf.mTimer ?_
  have hsession := (sessionOk_live hp _).mp (hl.session p)
  refine (sessionOk_live ?_ _).mpr ⟨?_, ?_⟩
  · exact hp
  · exact hf.closeOk _ hsession.1
  · exact hsession.2

/-- A change of a live socket that posts nothing. -/
theorem Safe.setDs (hl : Safe i l) (hp : (l.sessions p).status = .live) {ds : DataSocket κ}
    (hds : Sound (l.sessions p).ds (ds, [])) : Safe i (l.setDs p ds) := by
  have h := hl.onSocket (f := fun _ => (ds, [])) hp hds
  rwa [LoopState.onSocket, pushAfterLoopProc_nil] at h

/-! ### The ping timer -/

/-- A cancelled timer does not fire. -/
theorem Safe.cancelTimer (hl : Safe i l) (mTimer : Option ℕ) : Safe i (l.cancelTimer mTimer) := by
  refine { hl with timers := fun t ht => ?_ }
  obtain ⟨u, hu, rfl⟩ := List.mem_map.mp ht
  obtain ⟨h1, h2⟩ := hl.timers u hu
  split
  · exact ⟨h1, fun h => by cases h⟩
  · exact ⟨h1, h2⟩

/-- The timers of a socket whose `mTimer` is not alive are gone. -/
theorem Safe.no_timer (hl : Safe i l) {firing : Option ℕ}
    (h : l.timerAlive firing (l.sessions p).ds.mTimer = false) : ∀ t ∈ l.timers, t.sock ≠ p := by
  rintro t ht rfl
  rw [(hl.timers t ht).1, timerAlive, Bool.or_eq_false_iff, List.any_eq_false] at h
  exact h.2 t ht (by simp)

/-- A new timer has a new number. -/
theorem TimerIdsOk.add (h : l.TimerIdsOk) : (l.addPingTimer p).TimerIdsOk := by
  have hself : ((l.addPingTimer p).sessions p).ds.mTimer = some l.nextTimer := by
    simp only [LoopState.addPingTimer, LoopState.setDs, setSession_sessions_self]
  have hother : ∀ q, q ≠ p → (l.addPingTimer p).sessions q = l.sessions q :=
    fun q hq => setSession_sessions_of_ne hq
  have hold : ∀ q id, q ≠ p → ((l.addPingTimer p).sessions q).ds.mTimer = some id →
      id < l.nextTimer := fun q id hq hid => by
    rw [hother q hq] at hid
    exact (h q id hid).1
  intro q id hid
  by_cases hq : q = p
  · -- the new id is above all those in use
    rw [hq, hself, Option.some.injEq] at hid
    subst hid
    refine ⟨Nat.lt_succ_self _, fun r hr => ?_⟩
    by_contra hne
    exact absurd (hold r _ (hq ▸ hne) hr) (Nat.lt_irrefl _)
  · have hlt := hold q id hq hid
    refine ⟨Nat.lt_succ_of_lt hlt, fun r hr => ?_⟩
    by_cases hrp : r = p
    · rw [hrp, hself, Option.some.injEq] at hr
      omega
    · rw [hother q hq] at hid
      rw [hother r hrp] at hr
      exact (h q id hid).2 r hr

/-- A timer is added for a socket in use. -/
theorem Safe.addPingTimer (hl : Safe i l) (hp : (l.sessions p).status = .live)
    (hdead : ∀ t ∈ l.timers, t.sock ≠ p) : Safe i (l.addPingTimer p) := by
  refine hl.of_same (fun q => ?_) (fun t ht => ?_) hl.timerIds.add
    (setSession_congr Session.status rfl)
    (setSession_congr (fun x => x.ds.mUserData) rfl) rfl rfl rfl rfl rfl rfl
  · by_cases hq : q = p
    · subst hq
      simp only [LoopState.addPingTimer, LoopState.setDs, setSession_sessions_self]
      refine (sessionOk_live ?_ _).mpr ?_
      · exact hp
      · exact (sessionOk_live hp _).mp (hl.session q)
    · simp only [LoopState.addPingTimer, LoopState.setDs, setSession_sessions_of_ne hq]
      exact hl.session q
  · rcases List.mem_cons.mp ht with rfl | ht
    · simp only [LoopState.addPingTimer, LoopState.setDs, setSession_sessions_self, true_and]
      exact fun _ => .inl hp
    · simp only [LoopState.addPingTimer, LoopState.setDs, setSession_sessions_of_ne (hdead t ht)]
      exact hl.timers t ht

/-- A timer is started if there is none and the time is checked. -/
theorem Safe.startPingCheckTimer (hl : Safe i l) (hp : (l.sessions p).status = .live)
    (firing : Option ℕ) : Safe i (l.startPingCheckTimer p firing) := by
  unfold LoopState.startPingCheckTimer
  split
  · rename_i h
    exact hl.addPingTimer hp (hl.no_timer (Bool.eq_false_iff.mpr h.1))
  · exact hl

/-- The time limit is set, or taken away with its timer. -/
theorem Safe.setCheckTime (hl : Safe i l) (hp : (l.sessions p).status = .live) (overtime : ℤ) :
    Safe i (l.setCheckTime p overtime) := by
  unfold LoopState.setCheckTime
  split
  · apply Safe.startPingCheckTimer
    · exact hl.setDs hp (.quiet rfl rfl rfl rfl)
    · rw [LoopState.setDs, setSession_sessions_self]
      exact hp
  · split
    · exact (hl.cancelTimer _).setDs hp (.quiet rfl rfl rfl rfl)
    · exact hl

/-- The timer that fires is started again, or closes the socket. -/
theorem Safe.pingCheck (hl : Safe i l) (hp : (l.sessions p).status = .live) (firing : ℕ) :
    Safe i (l.pingCheck p firing) := by
  unfold LoopState.pingCheck
  split
  · apply Safe.startPingCheckTimer
    · exact hl.setDs hp (.quiet rfl rfl rfl rfl)
    · rw [LoopState.setDs, setSession_sessions_self]
      exact hp
  · exact hl.onSocket hp (sound_procCloseInLoop _)

/-! ### Calls on sessions -/

/-- A session that is found has the whole id. -/
theorem find_get {id : SessionType} (h : l.find id = some p) :
    l.table.mDataSockets.get (SessionId.ofId id).index.toNat = some p ∧
      (l.sessions p).ds.mUserData = id := by
  unfold find at h
  split at h
  · rename_i q hq
    split at h
    · rename_i hid
      cases h
      exact ⟨hq, hid⟩
    · cases h
  · cases h

/-- A call finds live sockets only. -/
theorem Safe.find_live (hl : Safe i l) (hi : i < 2 ^ 16) {id : SessionType}
    (h : l.find id = some p) : (l.sessions p).status = .live :=
  (hl.table hi _ _ (find_get h).1).1

/-- What is received is only noted. -/
theorem Safe.receive (hl : Safe i l) (p : ℕ) (entry : Thread × List UInt8 × Option κ) :
    Safe i (l.receive p entry) := by
  rw [← pushAfterLoopProc_nil (l.receive p entry) p]
  refine hl.touch rfl rfl rfl ?_
  rw [List.append_nil]
  exact hl.session p

/-- A packet for a socket in use. -/
theorem Safe.sendPacketInLoop (hl : Safe i l) (hp : (l.sessions p).status = .live)
    (thread : Thread) (packet : List UInt8) (callback : Option κ) :
    Safe i (l.sendPacketInLoop p thread packet callback) := by
  refine (hl.receive p (thread, packet, callback)).onSocket ?_
    (sound_sendPacketInLoop _ packet callback)
  rw [LoopState.receive, setSession_sessions_self]
  exact hp

/-- A call from outside, which finds its session by the id or does nothing. -/
theorem Safe.execute (hl : Safe i l) (hi : i < 2 ^ 16) (c : Call κ) : Safe i (l.execute c) := by
  unfold LoopState.execute
  split
  · rename_i p hfind
    have hp := hl.find_live hi hfind
    unfold perform
    split
    · exact hl.sendPacketInLoop hp _ _ _
    · exact hl.onSocket hp (sound_postShutdown _)
    · exact hl.onSocket hp (sound_procCloseInLoop _)
    · exact hl.setCheckTime hp _
  · exact hl

/-- A functor is queued that brings no new socket. -/
theorem Safe.push (hl : Safe i l) {f : AsyncProc κ} (hf : entering f = none) :
    Safe i (l.push f) := by
  have henters : (l.push f).enters = l.enters := by
    simp only [LoopState.enters, LoopState.push, ← List.append_assoc, List.filterMap_append,
      List.filterMap_cons, List.filterMap_nil, hf, List.append_nil]
  exact hl.of_same hl.session hl.timers hl.timerIds (fun _ => rfl) (fun _ => rfl) rfl rfl rfl rfl henters rfl

/-- Another loop's close can only empty a slot here. -/
theorem Safe.closeSlot (hl : Safe i l) (sid : SessionId) : Safe i (l.closeSlot sid) := by
  refine { hl with table := fun hi k p hk => hl.table hi k p ?_ }
  simp only [LoopState.closeSlot, SessionTable.procDataSocketClose, TypeIDS.reclaimID_get] at hk
  rcases TypeIDS.get_of_get_set hk with ⟨-, hnone⟩ | ⟨-, hk⟩
  · cases hnone
  · exact hk

/-! ### New sockets -/

/-- A socket is on its way to the loop as long as it is posted, and no longer. -/
theorem Safe.not_mem_enters (hl : Safe i l) (hp : (l.sessions p).status ≠ .posted) :
    p ∉ l.enters := fun hmem => hp (hl.enters.2 p hmem)

/-- A socket before its enter callback has no timer. -/
theorem Safe.timer_ne (hl : Safe i l) (hds : (l.sessions p).ds = .new) :
    ∀ t ∈ l.timers, t.sock ≠ p := by
  rintro t ht rfl
  have h := (hl.timers t ht).1
  rw [hds] at h
  cases h

/-- A socket that is neither live nor closing changes its life, and the functors that enter
sockets change with it. -/
theorem Safe.move (hl : Safe i l) (hsessions : l'.sessions = (l.setSession p x).sessions)
    (hds : (l.sessions p).ds = .new) (hlive : (l.sessions p).status ≠ .live)
    (hclosing : (l.sessions p).status ≠ .closing) (hclosing' : x.status ≠ .closing)
    (hok : SessionOk x (l.entries p)) (hentries : l'.entries = l.entries)
    (hframe : l'.frame = l.frame) (hphase : l'.phase = l.phase) (hbatch : l'.batch = l.batch)
    (hcopy : l'.mCopyAfterLoopProcs = l.mCopyAfterLoopProcs) (htimers : l'.timers = l.timers)
    (hnext : l'.nextTimer = l.nextTimer) (hnone : x.ds.mTimer = none)
    (henters : l'.enters.Nodup ∧ ∀ q ∈ l'.enters, (l'.sessions q).status = .posted)
    (hloop : x.status = .live →
      (SessionId.ofId x.ds.mUserData).loopIndex = BitVec.ofNat 16 i)
    (htable : i < 2 ^ 16 → l'.TableOk) : Safe i l' := by
  have hother : ∀ q, q ≠ p → l'.sessions q = l.sessions q := fun q hq => by
    rw [hsessions, setSession_sessions_of_ne hq]
  have hself : l'.sessions p = x := by rw [hsessions, setSession_sessions_self]
  have hne : ∀ q, (l.sessions q).status = .live ∨ (l.sessions q).status = .closing → q ≠ p := by
    rintro q hq rfl
    exact hq.elim hlive hclosing
  constructor
  case session =>
    intro q
    rw [hentries]
    by_cases hq : q = p
    · rw [hq, hself]
      exact hok
    · rw [hother q hq]
      exact hl.session q
  case closing =>
    intro q hq
    rw [hframe]
    by_cases hqp : q = p
    · rw [hqp, hself] at hq
      exact absurd hq hclosing'
    · rw [hother q hqp] at hq
      exact hl.closing q hq
  case frame =>
    exact hl.frame.of_same hframe hphase fun q hq => by rw [hother q (hne q hq)]
  case events =>
    rw [hphase, hbatch]
    exact hl.events
  case batch =>
    rw [hbatch]
    intro e he
    rw [hother _ (hne _ (.inl (hl.batch e he)))]
    exact hl.batch e he
  case copyAfter =>
    rw [hphase, hcopy]
    exact hl.copyAfter
  case timers =>
    rw [htimers]
    intro t ht
    rw [hother _ (hl.timer_ne hds t ht)]
    exact hl.timers t ht
  case timerIds =>
    refine hl.timerIds.of_same (fun q => ?_) hnext
    by_cases hqp : q = p
    · rw [hqp, hself, hnone, hds]
      rfl
    · rw [hother q hqp]
  case enters =>
    exact henters
  case loopIndex =>
    intro q hq
    by_cases hqp : q = p
    · rw [hqp, hself] at hq ⊢
      exact hloop hq
    · rw [hother q hqp] at hq ⊢
      exact hl.loopIndex q hq
  case table =>
    exact htable

/-- A socket that has not entered is as its constructor left it. -/
theorem Safe.new_of_fresh (hl : Safe i l)
    (hp : (l.sessions p).status = .absent ∨ (l.sessions p).status = .posted) :
    (l.sessions p).ds = .new ∧ l.entries p = [] ∧ (l.sessions p).disconnects = 0 := by
  have h := hl.session p
  unfold SessionOk at h
  rcases hp with hp | hp <;> rw [hp] at h <;> exact h

/-- A new socket enters; its enter functor, if it had one, is off the queue. -/
theorem Safe.enter (hl : Safe i l)
    (hp : (l.sessions p).status = .absent ∨ (l.sessions p).status = .posted)
    (hnot : p ∉ l.enters) {linkOk : Bool} (h : l.enter i p linkOk = some l') : Safe i l' := by
  obtain ⟨hds, hentries, hdisconnects⟩ := hl.new_of_fresh hp
  have hlive : (l.sessions p).status ≠ .live := by rcases hp with hp | hp <;> simp [hp]
  have hclosing : (l.sessions p).status ≠ .closing := by rcases hp with hp | hp <;> simp [hp]
  have henters : ∀ {y : Session κ},
      l.enters.Nodup ∧ ∀ q ∈ l.enters, ((l.setSession p y).sessions q).status = .posted := by
    refine ⟨hl.enters.1, fun q hq => ?_⟩
    have hne : q ≠ p := fun heq => hnot (heq ▸ hq)
    rw [setSession_sessions_of_ne hne]
    exact hl.enters.2 q hq
  have hold : ∀ {y : Session κ} {k q : ℕ}, i < 2 ^ 16 → l.table.mDataSockets.get k = some q →
      ((l.setSession p y).sessions q).status = .live ∧ k = (l.setSession p y).slot q := by
    intro y k q hi hk
    have hok := hl.table hi k q hk
    have hne : q ≠ p := by
      rintro rfl
      exact hlive hok.1
    simpa only [slot, setSession_sessions_of_ne hne] using hok
  rcases enter_cases h with rfl | ⟨slot, ids, sid, hclaim, rfl, rfl⟩
  · -- `onEnterEventLoop` failed, and the socket is deleted on the spot
    refine hl.move rfl hds hlive hclosing (by simp) ?_ rfl rfl rfl rfl rfl rfl rfl ?_ henters
      (by simp) fun hi k q hk => hold hi hk
    · exact ⟨hentries, by simp only [hdisconnects, Nat.zero_le]⟩
    · rw [DataSocket.closeSocket_mTimer, hds]
      rfl
  · refine hl.move rfl hds hlive hclosing (by simp) ?_ rfl rfl rfl rfl rfl rfl rfl
      (by rw [hds]; rfl) henters (fun _ => by rw [SessionId.ofId_id]) fun hi k q hk => ?_
    · refine (sessionOk_live rfl _).mpr ⟨?_, hdisconnects⟩
      rw [hentries, hds]
      exact .inl ⟨rfl, rfl, List.not_mem_nil⟩
    · -- the claimed slot holds `p`, the others what they held before
      rcases TypeIDS.get_of_get_set hk with ⟨rfl, hq⟩ | ⟨-, hk⟩
      · cases hq
        simp only [LoopState.slot, setSession_sessions_self, SessionId.ofId_id,
          BitVec.toNat_ofNat, true_and]
      · rw [TypeIDS.get_claimID hclaim] at hk
        exact hold hi hk

/-- A new socket has its enter functor queued. -/
theorem Safe.post (hl : Safe i l) (hp : (l.sessions p).status = .absent) :
    Safe i (l.post p) := by
  obtain ⟨hds, hentries, hdisconnects⟩ := hl.new_of_fresh (.inl hp)
  have hnot : p ∉ l.enters := hl.not_mem_enters (by simp [hp])
  have henters : (l.post p).enters = l.enters ++ [p] := by
    simp only [LoopState.post, LoopState.push, LoopState.enters, setSession, ← List.append_assoc,
      List.filterMap_append, List.filterMap_cons, List.filterMap_nil, entering]
  refine hl.move rfl hds (by simp [hp]) (by simp [hp]) (by simp) ⟨hds, hentries, hdisconnects⟩ rfl
    rfl rfl rfl rfl rfl rfl (by rw [hds]; rfl) ?_ (by simp) fun hi k q hk => ?_
  · rw [henters]
    refine ⟨List.nodup_append_comm.mp (List.nodup_cons.mpr ⟨hnot, hl.enters.1⟩), fun q hq => ?_⟩
    rcases List.mem_append.mp hq with hq | hq
    · have hne : q ≠ p := fun heq => hnot (heq ▸ hq)
      exact (congrArg Session.status (setSession_sessions_of_ne hne)).trans (hl.enters.2 q hq)
    · rw [List.mem_singleton.mp hq]
      exact congrArg Session.status setSession_sessions_self
  · have hok := hl.table hi k q hk
    have hne : q ≠ p := by
      rintro rfl
      simp [hp] at hok
    rw [LoopState.slot, show (l.post p).sessions q = l.sessions q from setSession_sessions_of_ne hne]
    exact hok

/-! ### The functors of `mAsyncProcs` -/

/-- Running a functor takes it off the queue. -/
theorem Safe.popAsync (hl : Safe i l) {procs : List (AsyncProc κ)}
    (hprocs : (procs.filterMap entering).Sublist (l.mCopyAsyncProcs.filterMap entering)) :
    Safe i { l with mCopyAsyncProcs := procs } := by
  have hsub : (LoopState.enters { l with mCopyAsyncProcs := procs }).Sublist l.enters := by
    simp only [LoopState.enters, List.filterMap_append]
    exact hprocs.append_right _
  refine { hl with enters := ⟨hl.enters.1.sublist hsub, fun q hq => ?_⟩ }
  exact hl.enters.2 q (hsub.subset hq)

/-- One entry of the queue of `pushAsyncProc`. -/
theorem Safe.runAsync (hl : Safe i l) {linkOk : Bool} {call : Option (Call κ)}
    (h : l.runAsync i linkOk = some (l', call)) : Safe i l' := by
  cases (runAsync_cases h).2 with
  | enter p rest l' hcopy henter =>
    have henters : l.enters = p :: LoopState.enters { l with mCopyAsyncProcs := rest } := by
      simp only [LoopState.enters, hcopy, List.cons_append, List.filterMap_cons, entering]
    have hpop : Safe i { l with mCopyAsyncProcs := rest } := hl.popAsync (by
      rw [hcopy]
      exact List.sublist_cons_self p _)
    refine hpop.enter (.inr (hl.enters.2 p ?_)) ?_ henter
    · rw [henters]
      exact List.mem_cons_self
    · -- no socket is queued twice
      have hnodup := hl.enters.1
      rw [henters] at hnodup
      exact (List.nodup_cons.mp hnodup).1
  | session c rest hcopy => exact hl.popAsync (by rw [hcopy, List.filterMap_cons_none rfl])
  | flushed thread rest hcopy => exact hl.popAsync (by rw [hcopy, List.filterMap_cons_none rfl])
  | message thread m msgList rest hcopy =>
    exact hl.popAsync (by rw [hcopy, List.filterMap_cons_none rfl, List.filterMap_cons_none rfl])

/-! ### The functors of `mAfterLoopProcs` -/

section AfterLoop
variable {proc : AfterLoopProc} {rest : List (ℕ × AfterLoopProc)}

/-- The entry in front belongs to one socket. -/
theorem entries_cons (hcopy : l.mCopyAfterLoopProcs = (p, proc) :: rest) (q : ℕ) :
    l.entries q = (if q = p then [proc] else []) ++
      LoopState.entries { l with mCopyAfterLoopProcs := rest } q := by
  simp only [LoopState.entries, hcopy, List.cons_append, List.filter_cons]
  by_cases hq : q = p
  · simp [hq]
  · simp [hq, Ne.symm hq]

/-- A socket with an entry in the queues is in use: it is not deleted under it. -/
theorem Safe.live_of_entry (hl : Safe i l) (h : l.entries p ≠ []) :
    (l.sessions p).status = .live := by
  have hsession := hl.session p
  unfold SessionOk at hsession
  cases hp : (l.sessions p).status with
  | live => rfl
  | absent | posted =>
    rw [hp] at hsession
    exact absurd hsession.2.1 h
  | closing | deleted =>
    rw [hp] at hsession
    exact absurd hsession.1 h

/-- The socket of the next functor is live. -/
theorem Safe.head_live (hl : Safe i l) (hcopy : l.mCopyAfterLoopProcs = (p, proc) :: rest) :
    (l.sessions p).status = .live := by
  apply hl.live_of_entry
  rw [entries_cons hcopy, if_pos rfl]
  exact List.cons_ne_nil _ _

/-- An entry that is taken from the queue to be run. -/
theorem Safe.popAfterLoop (hl : Safe i l) (hphase : l.phase = .afterLoopProcs)
    (hcopy : l.mCopyAfterLoopProcs = (p, proc) :: rest) (hproc : proc ≠ .disconnect) :
    Safe i { l with mCopyAfterLoopProcs := rest } := by
  refine { hl with session := fun q => ?_, copyAfter := fun hne => absurd hphase hne }
  have hq := hl.session q
  rw [entries_cons hcopy] at hq
  by_cases hqp : q = p
  · subst hqp
    have hlive := hl.head_live hcopy
    rw [if_pos rfl, sessionOk_live hlive] at hq
    exact (sessionOk_live hlive _).mpr ⟨hq.1.tail hproc, hq.2⟩
  · rw [if_neg hqp] at hq
    exact hq

/-- Another socket's code runs, or none. -/
theorem Safe.setFrame (hl : Safe i l) (hnot : ∀ p, l.frame ≠ .disconnect p) {frame : SocketFrame}
    (hframe : FrameOk { l with frame := frame }) : Safe i { l with frame := frame } :=
  { hl with frame := hframe, closing := fun p hp => absurd (hl.closing p hp) (hnot p) }

/-- One socket goes on towards its end behind the events, and the others stay as they are. -/
theorem Safe.leave (hl : Safe i l) (hother : ∀ q, q ≠ p → l'.sessions q = l.sessions q)
    (hposted : (l.sessions p).status ≠ .posted) (hlive : (l'.sessions p).status ≠ .live)
    (hself : SessionOk (l'.sessions p) (l'.entries p))
    (hentries : ∀ q, q ≠ p → l'.entries q = l.entries q)
    (hclosing : ∀ q, (l'.sessions q).status = .closing → l'.frame = .disconnect q)
    (hframe : l'.FrameOk) (hbatch : l'.batch = [])
    (hcopyAfter : l'.phase ≠ .afterLoopProcs → l'.mCopyAfterLoopProcs = [])
    (htimers : ∀ t ∈ l'.timers, (l'.sessions t.sock).ds.mTimer = some t.id ∧
      (t.mActive = true →
        (l'.sessions t.sock).status = .live ∨ (l'.sessions t.sock).status = .closing))
    (hmTimer : (l'.sessions p).ds.mTimer = (l.sessions p).ds.mTimer)
    (hnext : l'.nextTimer = l.nextTimer) (henters : l'.enters = l.enters)
    (htable : i < 2 ^ 16 → ∀ k q, l'.table.mDataSockets.get k = some q →
      q ≠ p ∧ l.table.mDataSockets.get k = some q) : Safe i l' := by
  constructor
  case session =>
    intro q
    by_cases hqp : q = p
    · rw [hqp]
      exact hself
    · rw [hother q hqp, hentries q hqp]
      exact hl.session q
  case closing =>
    exact hclosing
  case frame =>
    exact hframe
  case events =>
    -- behind the events no event is left that could name the socket
    exact fun _ => hbatch
  case batch =>
    rw [hbatch]
    exact fun e he => absurd he List.not_mem_nil
  case copyAfter =>
    exact hcopyAfter
  case timers =>
    exact htimers
  case timerIds =>
    refine hl.timerIds.of_same (fun q => ?_) hnext
    by_cases hqp : q = p
    · rw [hqp, hmTimer]
    · rw [hother q hqp]
  case enters =>
    rw [henters]
    refine ⟨hl.enters.1, fun q hq => ?_⟩
    have hqp : q ≠ p := by
      rintro rfl
      exact hposted (hl.enters.2 q hq)
    rw [hother q hqp]
    exact hl.enters.2 q hq
  case loopIndex =>
    intro q hq
    have hqp : q ≠ p := by
      rintro rfl
      exact hlive hq
    rw [hother q hqp] at hq ⊢
    exact hl.loopIndex q hq
  case table =>
    intro hi k q hk
    obtain ⟨hqp, hk⟩ := htable hi k q hk
    rw [LoopState.slot, hother q hqp]
    exact hl.table hi k q hk

/-- The disconnect callback starts: `procDataSocketClose` has emptied the slot. -/
theorem Safe.beginDisconnect (hl : Safe i l) (hphase : l.phase = .afterLoopProcs)
    (hcopy : l.mCopyAfterLoopProcs = (p, .disconnect) :: rest)
    (hsessions : l'.sessions = (l.setSession p { l.sessions p with
      status := .closing, disconnects := (l.sessions p).disconnects + 1 }).sessions)
    (hentries : l'.entries = LoopState.entries { l with mCopyAfterLoopProcs := rest })
    (hframe : l'.frame = .disconnect p) (hphase' : l'.phase = l.phase)
    (hbatch : l'.batch = l.batch) (htimers : l'.timers = l.timers)
    (hnext : l'.nextTimer = l.nextTimer) (henters : l'.enters = l.enters)
    (htable : i < 2 ^ 16 → ∀ k q, l'.table.mDataSockets.get k = some q →
      k ≠ l.slot p ∧ l.table.mDataSockets.get k = some q)
    (hclosing : ∀ q, (l.sessions q).status ≠ .closing) : Safe i l' := by
  have hlive := hl.head_live hcopy
  have hself : l'.sessions p = { l.sessions p with
      status := .closing, disconnects := (l.sessions p).disconnects + 1 } := by
    rw [hsessions, setSession_sessions_self]
  have hother : ∀ q, q ≠ p → l'.sessions q = l.sessions q := fun q hq => by
    rw [hsessions, setSession_sessions_of_ne hq]
  apply hl.leave hother
  case hposted => rw [hlive]; decide
  case hlive =>
    rw [hself]
    exact fun h => by cases h
  case hself =>
    -- the disconnect functor was the last one of the socket
    have hp := hl.session p
    rw [entries_cons hcopy, if_pos rfl, List.singleton_append, sessionOk_live hlive] at hp
    rw [hself, hentries, hp.1.eq_nil]
    exact ⟨rfl, by rw [hp.2]⟩
  case hentries =>
    intro q hqp
    rw [hentries, entries_cons hcopy, if_neg hqp, List.nil_append]
  case hclosing =>
    intro q hq
    by_cases hqp : q = p
    · rw [hframe, hqp]
    · rw [hother q hqp] at hq
      exact absurd hq (hclosing q)
  case hframe =>
    unfold FrameOk
    rw [hframe]
    exact ⟨hphase'.trans hphase, by rw [hself]⟩
  case hbatch =>
    rw [hbatch]
    exact hl.events (by rw [hphase]; decide)
  case hcopyAfter => exact fun h => absurd (hphase'.trans hphase) h
  case htimers =>
    rw [htimers]
    intro t ht
    by_cases htp : t.sock = p
    · -- its timer stays armed until the destructor cancels it
      rw [htp, hself, ← htp]
      exact ⟨(hl.timers t ht).1, fun _ => .inr rfl⟩
    · rw [hother _ htp]
      exact hl.timers t ht
  case hmTimer => rw [hself]
  case hnext => exact hnext
  case henters => exact henters
  case htable =>
    intro hi k q hk
    obtain ⟨hkp, hk⟩ := htable hi k q hk
    refine ⟨?_, hk⟩
    rintro rfl
    exact hkp (hl.table hi k q hk).2

end AfterLoop

/-- Running the next functor; for a disconnect callback, with the table it works on. -/
theorem Safe.runAfterLoop (hl : Safe i l) {closed : Option SessionId}
    (h : l.runAfterLoop = some (l', closed)) :
    match closed with
    | none => Safe i l'
    | some sid => Safe i (if sid.loopIndex.toNat = i then l'.closeSlot sid else l') := by
  obtain ⟨hphase, hframe, hrun⟩ := runAfterLoop_cases h
  cases hrun with
  | flush p rest frame hcopy hflush =>
    have hlive := hl.head_live hcopy
    have hds : Safe i (LoopState.setDs { l with mCopyAfterLoopProcs := rest } p
        { (l.sessions p).ds with mIsPostFlush := false }) :=
      (hl.popAfterLoop hphase hcopy (by decide)).setDs hlive (.quiet rfl rfl rfl rfl)
    refine hds.setFrame (fun q hq => ?_) ?_
    · cases hframe.symm.trans hq
    · rcases hflush with rfl | ⟨pc, rfl⟩
      · trivial
      · refine ⟨hphase, ?_⟩
        rw [LoopState.setDs, setSession_sessions_self]
        exact hlive
  | shutdown p rest hcopy =>
    exact (hl.popAfterLoop hphase hcopy (by decide)).setDs (hl.head_live hcopy)
      (sound_procShutdownInLoop _)
  | disconnect p rest hcopy =>
    have hlive := hl.head_live hcopy
    have hclosing : ∀ q, (l.sessions q).status ≠ .closing := fun q hq => by
      cases hframe.symm.trans (hl.closing q hq)
    dsimp only
    split
    · refine hl.beginDisconnect hphase hcopy rfl rfl rfl rfl rfl rfl rfl rfl
        (fun _ k q hk => ?_) hclosing
      rcases TypeIDS.get_of_get_set hk with ⟨-, hnone⟩ | hk
      · cases hnone
      · exact hk
    · -- below 2^16 the id of a socket names its own loop
      rename_i hne
      refine hl.beginDisconnect hphase hcopy rfl rfl rfl rfl rfl rfl rfl rfl (fun hi => ?_) hclosing
      rw [hl.loopIndex p hlive, BitVec.toNat_ofNat] at hne
      exact absurd (Nat.mod_eq_of_lt hi) hne

/-! ### The rest of the work -/

/-- The destructor runs at the end of the disconnect callback. -/
theorem Safe.endDisconnect (hl : Safe i l) (hframe : l.frame = .disconnect p)
    (hsessions : l'.sessions = (l.delete p).sessions) (htimers : l'.timers = (l.delete p).timers)
    (hnext : l'.nextTimer = l.nextTimer)
    (hframe' : l'.frame = .none) (hphase : l'.phase = l.phase) (hbatch : l'.batch = l.batch)
    (hcopy : l'.mCopyAfterLoopProcs = l.mCopyAfterLoopProcs) (hentries : l'.entries = l.entries)
    (henters : l'.enters = l.enters) (htable : l'.table = l.table) : Safe i l' := by
  obtain ⟨hafter, hclosing⟩ := hl.frame_eq hframe
  have hother : ∀ q, q ≠ p → l'.sessions q = l.sessions q := fun q hq => by
    rw [hsessions]
    exact setSession_sessions_of_ne hq
  have hself : l'.sessions p = { l.sessions p with
      status := .deleted, ds := (l.sessions p).ds.closeSocket } := by
    rw [hsessions]
    exact setSession_sessions_self
  apply hl.leave hother
  case hposted => rw [hclosing]; decide
  case hlive =>
    rw [hself]
    exact fun h => by cases h
  case hself =>
    have h := hl.session p
    unfold SessionOk at h
    rw [hclosing] at h
    rw [hself, hentries]
    exact ⟨h.1, h.2.le⟩
  case hentries => exact fun q _ => by rw [hentries]
  case hclosing =>
    intro q hq
    have hqp : q ≠ p := by
      rintro rfl
      rw [hself] at hq
      cases hq
    rw [hother q hqp] at hq
    have h := hl.closing q hq
    rw [hframe, SocketFrame.disconnect.injEq] at h
    exact absurd h.symm hqp
  case hframe =>
    unfold FrameOk
    rw [hframe']
    trivial
  case hbatch => exact hbatch.trans (hl.events (by rw [hafter]; decide))
  case hcopyAfter =>
    rw [hphase, hcopy]
    exact hl.copyAfter
  case htimers =>
    rw [htimers]
    intro t ht
    obtain ⟨u, hu, rfl⟩ := List.mem_map.mp ht
    obtain ⟨h1, h2⟩ := hl.timers u hu
    by_cases hup : u.sock = p
    · -- a timer of the deleted socket is the one its `mTimer` names, and is cancelled
      rw [hup] at h1
      rw [if_pos h1]
      refine ⟨?_, fun h => by cases h⟩
      rw [hup, hself]
      exact (DataSocket.closeSocket_mTimer _).trans h1
    · split
      · rw [hother _ hup]
        exact ⟨h1, fun h => by cases h⟩
      · rw [hother _ hup]
        exact ⟨h1, h2⟩
  case hmTimer =>
    rw [hself]
    exact DataSocket.closeSocket_mTimer _
  case hnext => exact hnext
  case henters => exact henters
  case htable =>
    intro hi k q hk
    rw [htable] at hk
    refine ⟨?_, hk⟩
    rintro rfl
    cases hclosing.symm.trans (hl.table hi k q hk).1

/-- Outside of the two loops no function of a socket is on the stack. -/
theorem Safe.frame_none (hl : Safe i l) (hevents : l.phase ≠ .events)
    (hafter : l.phase ≠ .afterLoopProcs) : l.frame = .none := by
  have h := hl.frame
  unfold FrameOk at h
  split at h
  · assumption
  · exact absurd h.1 hevents
  · exact absurd h.1 hevents
  · exact absurd h.1 hafter
  · exact absurd h.1 hafter

/-- The thread goes on to another phase, outside of any socket's code. -/
theorem Safe.setPhase (hl : Safe i l) (hframe : l.frame = .none) {phase : Phase}
    (hbatch : phase ≠ .events → l.batch = [])
    (hcopy : phase ≠ .afterLoopProcs → l.mCopyAfterLoopProcs = []) :
    Safe i { l with phase := phase } := by
  refine { hl with frame := ?_, events := hbatch, copyAfter := hcopy }
  unfold FrameOk
  simp only [hframe]

/-- What a socket does does not end its session. -/
theorem onSocket_status {f : DataSocket κ → DataSocket κ × List AfterLoopProc} (q : ℕ) :
    ((l.onSocket p f).sessions q).status = (l.sessions q).status := by
  rw [LoopState.onSocket, pushAfterLoopProc_sessions, LoopState.setDs]
  exact setSession_congr Session.status (by rfl) q

/-- One call of `recv` on the descriptor. -/
theorem Safe.recv (hl : Safe i l) {r : RecvRet} (h : l.work (.recv r) = some l') : Safe i l' := by
  simp only [LoopState.work] at h
  split at h
  · rename_i e hframe
    obtain ⟨hphase, hlive⟩ := hl.frame_eq hframe
    split at h
    · cases h
      exact hl.setDs hlive (.quiet rfl rfl rfl rfl)
    · split at h <;> cases h
      · refine (hl.onSocket hlive (sound_procCloseInLoop _)).setFrame (fun p hp => ?_)
          ⟨hphase, (onSocket_status _).trans hlive⟩
        cases hframe.symm.trans hp
      · exact hl.setFrame (fun p hp => by cases hframe.symm.trans hp) ⟨hphase, hlive⟩
  · cases h

/-- The loop over `recv` is left, and the socket closed, or written to if it can be. -/
theorem Safe.recvDone (hl : Safe i l) (h : l.work .recvDone = some l') : Safe i l' := by
  simp only [LoopState.work] at h
  split at h
  · rename_i e hframe
    obtain ⟨-, hlive⟩ := hl.frame_eq hframe
    have hnot : ∀ p, l.frame ≠ .disconnect p := fun p hp => by cases hframe.symm.trans hp
    split at h
    · cases h
      exact (hl.onSocket hlive (sound_onClose _)).setFrame hnot trivial
    · split at h <;> cases h
      · exact (hl.onSocket hlive (sound_canSend _)).setFrame hnot trivial
      · exact hl.setFrame hnot trivial
  · cases h

/-- One step of `flush`. -/
theorem Safe.flush (hl : Safe i l) {r : DataSocket.SysRet} (h : l.work (.flush r) = some l') :
    Safe i l' := by
  simp only [LoopState.work] at h
  split at h
  · rename_i p pc hframe
    obtain ⟨hphase, hlive⟩ := hl.frame_eq hframe
    have hstep := sound_flushStep (l.sessions p).ds .quickFlush pc r
    cases h
    have hlive' : ((l.onSocket p fun _ => (((l.sessions p).ds.flushStep .quickFlush pc r).ds,
        ((l.sessions p).ds.flushStep .quickFlush pc r).posted)).sessions p).status = .live :=
      (onSocket_status p).trans hlive
    refine (hl.onSocket hlive hstep).setFrame (fun q hq => by cases hframe.symm.trans hq) ?_
    unfold FrameOk
    split <;> rename_i heq <;> split at heq <;> cases heq
    · trivial
    · exact ⟨hphase, hlive'⟩
  · cases h

/-- A timer fires, which belongs to a socket in use. -/
theorem Safe.timer (hl : Safe i l) {t : PingTimer} (h : l.work (.timer t) = some l') :
    Safe i l' := by
  simp only [LoopState.work] at h
  split at h
  · rename_i hguard
    obtain ⟨hphase, hmem⟩ := hguard
    cases h
    have herase : Safe i { l with timers := l.timers.erase t } :=
      { hl with timers := fun u hu => hl.timers u (List.mem_of_mem_erase hu) }
    split
    · rename_i hactive
      refine herase.pingCheck ?_ t.id
      rcases (hl.timers t hmem).2 hactive with hlive | hclosing
      · exact hlive
      · -- the disconnect callback is over before the timers are checked
        have hframe := hl.frame_none (by rw [hphase]; decide) (by rw [hphase]; decide)
        cases hframe.symm.trans (hl.closing _ hclosing)
    · exact herase
  · cases h

/-- `epoll_wait` reports sockets that are registered. -/
theorem Safe.epollWait (hl : Safe i l) {batch : List EpollEvent}
    (h : l.work (.epollWait batch) = some l') : Safe i l' := by
  simp only [LoopState.work] at h
  split at h
  · rename_i hguard
    obtain ⟨hphase, hreg⟩ := hguard
    cases h
    have hframe := hl.frame_none (by rw [hphase]; decide) (by rw [hphase]; decide)
    have hnext : Safe i { l with phase := .events } := hl.setPhase hframe
      (fun hne => absurd rfl hne) (fun _ => hl.copyAfter (by rw [hphase]; decide))
    exact { hnext with
      events := fun hne => absurd rfl hne, batch := fun e he => (hreg e he).1 }
  · cases h

/-- The events of one socket. -/
theorem Safe.event (hl : Safe i l) (h : l.work .event = some l') : Safe i l' := by
  simp only [LoopState.work] at h
  split at h
  · rename_i hframe
    split at h
    · cases h
    · rename_i e batch hbatch
      cases h
      have hphase : l.phase = .events := by
        by_contra hne
        rw [hl.events hne] at hbatch
        cases hbatch
      -- disconnects run behind the events, so the socket of every event still is live
      have hlive := hl.batch e (by rw [hbatch]; exact List.mem_cons_self)
      have hpop : Safe i { l with batch := batch } := { hl with
        events := fun hne => absurd hphase hne
        batch := fun e he => hl.batch e (by rw [hbatch]; exact List.mem_cons_of_mem _ he) }
      refine hpop.setFrame (fun p hp => by cases hframe.symm.trans hp) ?_
      unfold FrameOk
      split <;> rename_i heq <;> split at heq <;> cases heq <;> exact ⟨hphase, hlive⟩
  · cases h

/-- All events are handled. -/
theorem Safe.eventsDone (hl : Safe i l) (h : l.work .eventsDone = some l') : Safe i l' := by
  simp only [LoopState.work] at h
  split at h
  · rename_i hguard
    obtain ⟨hphase, hframe, hbatch⟩ := hguard
    cases h
    have hnext : Safe i { l with phase := .asyncProcs } := hl.setPhase hframe
      (fun _ => hbatch) (fun _ => hl.copyAfter (by rw [hphase]; decide))
    -- the swap changes the order of the two queues, and no functor
    refine { hnext with enters := ?_ }
    have hperm : (l.mAsyncProcs ++ l.mCopyAsyncProcs).Perm (l.mCopyAsyncProcs ++ l.mAsyncProcs) :=
      List.perm_append_comm
    have henters := hperm.filterMap entering
    exact ⟨henters.nodup_iff.mpr hl.enters.1, fun q hq => hl.enters.2 q (henters.mem_iff.mp hq)⟩
  · cases h

/-- The queue of `pushAsyncProc` is empty. -/
theorem Safe.asyncDone (hl : Safe i l) (h : l.work .asyncDone = some l') : Safe i l' := by
  simp only [LoopState.work] at h
  split at h
  · rename_i hguard
    obtain ⟨hphase, hcopy⟩ := hguard
    cases h
    have hframe := hl.frame_none (by rw [hphase]; decide) (by rw [hphase]; decide)
    have hafter : l.mCopyAfterLoopProcs = [] := hl.copyAfter (by rw [hphase]; decide)
    have hnext : Safe i { l with phase := .afterLoopProcs } := hl.setPhase hframe
      (fun _ => hl.events (by rw [hphase]; decide)) (fun hne => absurd rfl hne)
    -- the last batch was run to its end, so the swap leaves the functors of each socket
    refine { hnext with session := fun q => ?_, copyAfter := fun hne => absurd rfl hne }
    have hq := hl.session q
    simp only [LoopState.entries, hafter, List.append_nil, List.nil_append] at hq ⊢
    exact hq
  · cases h

/-- So is the one of `pushAfterLoopProc`. -/
theorem Safe.afterLoopDone (hl : Safe i l) (h : l.work .afterLoopDone = some l') : Safe i l' := by
  simp only [LoopState.work] at h
  split at h
  · rename_i hguard
    obtain ⟨hphase, hframe, hcopy⟩ := hguard
    cases h
    exact hl.setPhase hframe (fun _ => hl.events (by rw [hphase]; decide)) (fun _ => hcopy)
  · cases h

/-- No timer is due any more. -/
theorem Safe.timersDone (hl : Safe i l) (h : l.work .timersDone = some l') : Safe i l' := by
  simp only [LoopState.work] at h
  split at h
  · rename_i hphase
    cases h
    have hframe := hl.frame_none (by rw [hphase]; decide) (by rw [hphase]; decide)
    exact hl.setPhase hframe (fun _ => hl.events (by rw [hphase]; decide))
      (fun _ => hl.copyAfter (by rw [hphase]; decide))
  · cases h

/-- The function that was posted last deletes the socket. -/
theorem Safe.deleted (hl : Safe i l) (h : l.work .delete = some l') : Safe i l' := by
  simp only [LoopState.work] at h
  split at h
  · rename_i p hframe
    cases h
    exact hl.endDisconnect hframe rfl rfl rfl rfl rfl rfl rfl rfl rfl rfl
  · cases h

/-- Whatever the loop does next. -/
theorem Safe.work (hl : Safe i l) {w : Work} (h : l.work w = some l') : Safe i l' := by
  cases w with
  | epollWait batch => exact hl.epollWait h
  | event => exact hl.event h
  | recv r => exact hl.recv h
  | recvDone => exact hl.recvDone h
  | eventsDone => exact hl.eventsDone h
  | asyncDone => exact hl.asyncDone h
  | flush r => exact hl.flush h
  | delete => exact hl.deleted h
  | afterLoopDone => exact hl.afterLoopDone h
  | timer t => exact hl.timer h
  | timersDone => exact hl.timersDone h

end LoopState

/-! ## The service -/

namespace TcpService
open LoopState

variable {κ : Type*}

/-- A loop's index is what an id can hold. -/
theorem lt_of_loopIndex {c : Call κ} {j : ℕ} (h : c.loopIndex = j) : j < 2 ^ 16 :=
  h ▸ (SessionId.ofId c.id).loopIndex.isLt

/-- Each step of a loop keeps it safe. -/
theorem safe_loopStep {s : TcpService κ} (hs : ∀ i, Safe i (s.loops i)) {j : ℕ}
    {l : LoopState κ} (h : LoopStep s j l) : Safe j l := by
  cases h with
  | same => exact hs j
  | execute c hc => exact (hs j).execute (lt_of_loopIndex hc) c
  | push c hc hthread => exact (hs j).push rfl
  | flushCache thread hthread => exact (hs j).push rfl
  | enter p linkOk _ hj hp h =>
    exact (hs j).enter (.inl hp) ((hs j).not_mem_enters (by simp [hp])) h
  | post p hj hp => exact (hs j).post hp
  | runAsync linkOk _ call hj h => exact (hs j).runAsync h
  | runAsyncExecute linkOk l c hj h hc => exact ((hs j).runAsync h).execute (lt_of_loopIndex hc) c
  | runAfterLoop _ h => exact (hs j).runAfterLoop h
  | disconnect l sid h => exact (hs j).runAfterLoop h
  | closeSlot i hi hij l sid h hsid => exact (hs j).closeSlot sid
  | work w _ h => exact (hs j).work h

/-- Every loop of the service is safe. -/
def AllSafe (s : TcpService κ) : Prop := ∀ i, Safe i (s.loops i)

/-- The service begins without sessions. -/
theorem allSafe_init (mLoopNum : ℕ) : AllSafe (init mLoopNum : TcpService κ) :=
  fun i => safe_init i

/-- Every step of every thread. -/
theorem allSafe_step {logic : Thread} {s t : TcpService κ} {a : Action κ} (hs : AllSafe s)
    (h : step logic s a = some t) : AllSafe t :=
  fun j => safe_loopStep hs (loopStep_of_step h j)

/-- Every run. -/
theorem allSafe_of_exec {logic : Thread} {mLoopNum : ℕ} {acts : List (Action κ)}
    {s : TcpService κ} (h : Transition.exec (step logic) (init mLoopNum) acts = some s) :
    AllSafe s :=
  Transition.exec_invariant (fun _ _ _ => allSafe_step) (allSafe_init mLoopNum) h

/-- In every run, on every loop, the disconnect callback of a socket runs at most once, and
once it has run no functor still to be executed, no active timer and no unhandled event
refers to the socket. -/
theorem disconnect_once_and_last (logic : Thread) (mLoopNum : ℕ) (acts : List (Action κ))
    (s : TcpService κ) (h : Transition.exec (step logic) (init mLoopNum) acts = some s)
    (i p : ℕ) :
    ((s.loops i).sessions p).disconnects ≤ 1 ∧
      (((s.loops i).sessions p).disconnects = 1 → (s.loops i).frame ≠ .disconnect p →
        (∀ proc, (p, proc) ∉ (s.loops i).mAfterLoopProcs ∧
          (p, proc) ∉ (s.loops i).mCopyAfterLoopProcs) ∧
        (∀ t ∈ (s.loops i).timers, t.sock = p → t.mActive = false) ∧
        ∀ e ∈ (s.loops i).batch, e.sock ≠ p) := by
  have hs := allSafe_of_exec h i
  have hsession := hs.session p
  unfold SessionOk at hsession
  cases hp : ((s.loops i).sessions p).status with
  | absent | posted =>
    rw [hp] at hsession
    refine ⟨by omega, fun hone => by omega⟩
  | live =>
    rw [hp] at hsession
    refine ⟨by omega, fun hone => by omega⟩
  | closing =>
    rw [hp] at hsession
    exact ⟨hsession.2.le, fun _ hframe => absurd (hs.closing p hp) hframe⟩
  | deleted =>
    rw [hp] at hsession
    refine ⟨hsession.2, fun _ _ => ⟨fun proc => ?_, ?_, ?_⟩⟩
    · have hnil := hsession.1
      simp only [entries, List.map_eq_nil_iff, List.filter_eq_nil_iff, List.mem_append,
        decide_eq_true_eq] at hnil
      exact ⟨fun hmem => hnil _ (.inr hmem) rfl, fun hmem => hnil _ (.inl hmem) rfl⟩
    · -- an active timer has a socket that is live or closing
      rintro t ht rfl
      by_contra hactive
      rcases (hs.timers t ht).2 (by simpa using hactive) with h | h <;> simp [hp] at h
    · rintro e he rfl
      have h := hs.batch e he
      simp [hp] at h

/-- The id of the first session of loop 0. -/
def firstId : SessionType := (SessionId.mk 0 99 0).id

/-- A session with a timer sends and disconnects at once, and the loop runs its functors. -/
def sendAndDisconnect : List (Action ℕ) :=
  [.addChannel 0 0 7 true, .call ⟨0, firstId, .setPingCheckTime 100⟩,
    .call ⟨0, firstId, .send [1] none⟩, .call ⟨0, firstId, .disConnect⟩,
    .work 0 (.epollWait []), .work 0 .eventsDone, .work 0 .asyncDone, .runAfterLoop 0,
    .runAfterLoop 0, .work 0 .delete]

set_option maxRecDepth 8000 in
/-- The disconnect callback has run once, and the timer is cancelled. -/
theorem disconnect_once_and_last_sendAndDisconnect :
    ∃ s : TcpService ℕ, Transition.exec (step 1) (init 1) sendAndDisconnect = some s ∧
      ((s.loops 0).sessions 7).disconnects = 1 ∧ (s.loops 0).timers = [⟨0, 7, false⟩] ∧
      ((s.loops 0).sessions 7).disconnects ≤ 1 ∧
      (((s.loops 0).sessions 7).disconnects = 1 → (s.loops 0).frame ≠ .disconnect 7 →
        (∀ proc, (7, proc) ∉ (s.loops 0).mAfterLoopProcs ∧
          (7, proc) ∉ (s.loops 0).mCopyAfterLoopProcs) ∧
        (∀ t ∈ (s.loops 0).timers, t.sock = 7 → t.mActive = false) ∧
        ∀ e ∈ (s.loops 0).batch, e.sock ≠ 7) :=
  ⟨_, rfl, rfl, rfl, disconnect_once_and_last 1 1 sendAndDisconnect _ rfl 0 7⟩

end TcpService

end Netxy
