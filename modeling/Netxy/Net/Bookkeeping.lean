import Mathlib.Data.List.Infix
import Netxy.Net.OutputStream
import Netxy.Net.SafeDeletion

/-!
# What a step does to the sessions of a loop

Most of what happens on a loop concerns neither the table of sessions nor the functors that
other threads queued nor what `mSendList` was given. `LoopState.Keeps` says so, and holds of
all the work of a loop's thread but for the functors it runs. The table changes only where a
socket enters or leaves, and `TcpService.SessionsStep` lists the ways.
-/

namespace Netxy

/-! ## Methods of a socket -/

namespace DataSocket
open OutputStream

variable {κ : Type*}

/-- The socket keeps its id, and its `mSendList` can only lose packets from the front. -/
structure Drops (ds ds' : DataSocket κ) : Prop where
  mUserData : ds'.mUserData = ds.mUserData
  sendList : ds'.mSendList.map entry <:+ ds.mSendList.map entry

/-- Nothing is dropped where the list stays. -/
theorem Drops.same {ds ds' : DataSocket κ} (huser : ds'.mUserData = ds.mUserData)
    (hsend : ds'.mSendList = ds.mSendList) : Drops ds ds' :=
  ⟨huser, hsend ▸ List.suffix_refl _⟩

/-- `onClose` may drop the whole list. -/
theorem drops_onClose (ds : DataSocket κ) : Drops ds ds.onClose.1 := by
  refine .same (sound_onClose ds).mUserData ?_
  unfold onClose
  split
  · rfl
  · exact closeSocket_mSendList ds

/-- A close leaves the list alone. -/
theorem drops_procCloseInLoop (ds : DataSocket κ) : Drops ds ds.procCloseInLoop.1 :=
  .same (sound_procCloseInLoop ds).mUserData (procCloseInLoop_mSendList ds)

theorem drops_procShutdownInLoop (ds : DataSocket κ) : Drops ds ds.procShutdownInLoop :=
  .same (sound_procShutdownInLoop ds).mUserData (procShutdownInLoop_mSendList ds)

theorem drops_canSend (ds : DataSocket κ) : Drops ds ds.canSend.1 :=
  .same (sound_canSend ds).mUserData (canSend_mSendList ds)

/-- Behind its loop `flush` leaves the list alone. -/
theorem flushTail_mSendList (ds : DataSocket κ) (sendLen : ℕ) (want : ℤ) :
    (ds.flushTail sendLen want).ds.mSendList = ds.mSendList := by
  rcases flushTail_cases ds sendLen want with h | h | h <;> rw [h]
  exact checkWrite_mSendList _

/-- A flush takes packets off the front, or part of the first one. -/
theorem drops_flushStep (kind : FlushKind) (ds : DataSocket κ) (pc : FlushPc) (r : SysRet) :
    Drops ds (ds.flushStep kind pc r).ds := by
  refine ⟨(sound_flushStep ds kind pc r).mUserData, ?_⟩
  cases pc with
  | sendProc =>
    rw [flushStep]
    rcases flushSend_cases kind ds r with h | ⟨o, -, h⟩ | h | h
    · rw [h]
    · rw [h]
    · rw [h, checkWrite_mSendList]
    · rw [h, procCloseInLoop_mSendList]
  | written sendLen want tmpLen =>
    simp only [flushStep, flushWritten]
    split
    · rw [flushTail_mSendList]
    · rename_i b rest hlist
      split
      · exact List.suffix_refl _
      · -- a packet that was written in part stays, with less of it left
        rw [flushTail_mSendList, hlist]
        exact List.suffix_refl _
  | completed sendLen want tmpLen =>
    -- the packet leaves only when its callback has returned
    exact (List.tail_suffix _).map entry

end DataSocket

/-! ## The work of a loop -/

namespace LoopState
open OutputStream DataSocket

variable {κ : Type*} {i : ℕ} {l l' l'' : LoopState κ} {p q : ℕ}

/-- The disconnect callback of the socket has started, or it never became a session. -/
def Gone (x : Session κ) : Prop := x.status = .closing ∨ x.status = .deleted

/-- The sessions of the loop stay what they are. -/
structure KeepsIds (l l' : LoopState κ) : Prop where
  table : l'.table = l.table
  issued : l'.issued = l.issued
  live : l'.live = l.live
  mUserData : ∀ q, (l'.sessions q).ds.mUserData = (l.sessions q).ds.mUserData
  isLive : ∀ q, (l'.sessions q).status = .live ↔ (l.sessions q).status = .live
  gone : ∀ q, Gone (l.sessions q) → Gone (l'.sessions q)

/-- No functor is queued or run. -/
structure KeepsQueues (l l' : LoopState κ) : Prop where
  mAsyncProcs : l'.mAsyncProcs = l.mAsyncProcs
  mCopyAsyncProcs : l'.mCopyAsyncProcs = l.mCopyAsyncProcs
  outside : l'.phase ≠ .asyncProcs → l.phase ≠ .asyncProcs ∨ l.mCopyAsyncProcs = []

/-- Nothing is given to an `mSendList` either. -/
structure KeepsSends (l l' : LoopState κ) : Prop extends KeepsQueues l l' where
  received : ∀ q, (l'.sessions q).received = (l.sessions q).received
  sendList : ∀ q, (l'.sessions q).ds.mSendList.map entry <:+ (l.sessions q).ds.mSendList.map entry

/-- The three of them. -/
structure Keeps (l l' : LoopState κ) : Prop extends KeepsIds l l', KeepsSends l l'

theorem KeepsIds.trans (h : KeepsIds l l') (h' : KeepsIds l' l'') : KeepsIds l l'' where
  table := h'.table.trans h.table
  issued := h'.issued.trans h.issued
  live := h'.live.trans h.live
  mUserData q := (h'.mUserData q).trans (h.mUserData q)
  isLive q := (h'.isLive q).trans (h.isLive q)
  gone q hq := h'.gone q (h.gone q hq)

theorem KeepsQueues.trans (h : KeepsQueues l l') (h' : KeepsQueues l' l'') :
    KeepsQueues l l'' where
  mAsyncProcs := h'.mAsyncProcs.trans h.mAsyncProcs
  mCopyAsyncProcs := h'.mCopyAsyncProcs.trans h.mCopyAsyncProcs
  outside hphase := (h'.outside hphase).elim h.outside fun hcopy =>
    .inr (h.mCopyAsyncProcs.symm.trans hcopy)

theorem KeepsSends.trans (h : KeepsSends l l') (h' : KeepsSends l' l'') : KeepsSends l l'' where
  toKeepsQueues := h.toKeepsQueues.trans h'.toKeepsQueues
  received q := (h'.received q).trans (h.received q)
  sendList q := (h'.sendList q).trans (h.sendList q)

/-- One step behind the other. -/
theorem Keeps.trans (h : Keeps l l') (h' : Keeps l' l'') : Keeps l l'' :=
  ⟨h.toKeepsIds.trans h'.toKeepsIds, h.toKeepsSends.trans h'.toKeepsSends⟩

/-- A change of the thread's position, of the timers or of the posted functors. -/
theorem keeps_of_eq (hsessions : l'.sessions = l.sessions) (htable : l'.table = l.table)
    (hissued : l'.issued = l.issued) (hlive : l'.live = l.live)
    (hasync : l'.mAsyncProcs = l.mAsyncProcs) (hcopy : l'.mCopyAsyncProcs = l.mCopyAsyncProcs)
    (houtside : l'.phase ≠ .asyncProcs → l.phase ≠ .asyncProcs ∨ l.mCopyAsyncProcs = []) :
    Keeps l l' := by
  refine ⟨⟨htable, hissued, hlive, fun q => ?_, fun q => ?_, fun q => ?_⟩,
    ⟨hasync, hcopy, houtside⟩, fun q => ?_, fun q => ?_⟩ <;>
  rw [hsessions]
  exact id

/-- What changes nothing keeps everything. -/
theorem Keeps.refl (l : LoopState κ) : Keeps l l := keeps_of_eq rfl rfl rfl rfl rfl rfl .inl

/-- A change of one socket. -/
theorem keepsIds_setSession {x : Session κ}
    (huser : x.ds.mUserData = (l.sessions p).ds.mUserData)
    (hlive : x.status = .live ↔ (l.sessions p).status = .live)
    (hgone : Gone (l.sessions p) → Gone x) : KeepsIds l (l.setSession p x) := by
  refine ⟨rfl, rfl, rfl, setSession_congr (fun x => x.ds.mUserData) huser, fun q => ?_,
    fun q => ?_⟩ <;> by_cases hq : q = p
  · rw [hq, setSession_sessions_self]
    exact hlive
  · rw [setSession_sessions_of_ne hq]
  · rw [hq, setSession_sessions_self]
    exact hgone
  · rw [setSession_sessions_of_ne hq]
    exact id

/-- One session changes, and its list only shrinks from the front. -/
theorem keepsSends_setSession {x : Session κ}
    (hsend : x.ds.mSendList.map entry <:+ (l.sessions p).ds.mSendList.map entry)
    (hreceived : x.received = (l.sessions p).received) : KeepsSends l (l.setSession p x) := by
  refine ⟨⟨rfl, rfl, .inl⟩, setSession_congr Session.received hreceived, fun q => ?_⟩
  by_cases hq : q = p
  · rw [hq, setSession_sessions_self]
    exact hsend
  · rw [setSession_sessions_of_ne hq]

/-- A session that stays what it is. -/
theorem keeps_setSession {x : Session κ} (hds : Drops (l.sessions p).ds x.ds)
    (hlive : x.status = .live ↔ (l.sessions p).status = .live)
    (hgone : Gone (l.sessions p) → Gone x) (hreceived : x.received = (l.sessions p).received) :
    Keeps l (l.setSession p x) :=
  ⟨keepsIds_setSession hds.mUserData hlive hgone,
    keepsSends_setSession hds.sendList hreceived⟩

/-- A socket that changes within its session. -/
theorem keeps_setDs {ds : DataSocket κ} (hds : Drops (l.sessions p).ds ds) :
    Keeps l (l.setDs p ds) := keeps_setSession hds Iff.rfl id rfl

/-- A function of a socket leaves the id alone. -/
theorem keepsIds_onSocket {f : DataSocket κ → DataSocket κ × List AfterLoopProc}
    (hf : (f (l.sessions p).ds).1.mUserData = (l.sessions p).ds.mUserData) :
    KeepsIds l (l.onSocket p f) := by
  have hds : KeepsIds l (l.setDs p (f (l.sessions p).ds).1) := keepsIds_setSession hf Iff.rfl id
  have hpost : Keeps (l.setDs p (f (l.sessions p).ds).1) (l.onSocket p f) :=
    keeps_of_eq rfl rfl rfl rfl rfl rfl .inl
  exact hds.trans hpost.toKeepsIds

theorem keeps_onSocket {f : DataSocket κ → DataSocket κ × List AfterLoopProc}
    (hf : Drops (l.sessions p).ds (f (l.sessions p).ds).1) : Keeps l (l.onSocket p f) :=
  (keeps_setDs hf).trans (keeps_of_eq rfl rfl rfl rfl rfl rfl .inl)

/-- Timers send nothing. -/
theorem keeps_startPingCheckTimer (l : LoopState κ) (p : ℕ) (firing : Option ℕ) :
    Keeps l (l.startPingCheckTimer p firing) := by
  unfold startPingCheckTimer
  split
  · have hds : Keeps l (l.setDs p { (l.sessions p).ds with mTimer := some l.nextTimer }) :=
      keeps_setDs (.same rfl rfl)
    exact hds.trans (keeps_of_eq rfl rfl rfl rfl rfl rfl .inl)
  · exact .refl l

theorem keeps_cancelTimer (l : LoopState κ) (mTimer : Option ℕ) :
    Keeps l (l.cancelTimer mTimer) := keeps_of_eq rfl rfl rfl rfl rfl rfl .inl

theorem keeps_setCheckTime (l : LoopState κ) (p : ℕ) (overtime : ℤ) :
    Keeps l (l.setCheckTime p overtime) := by
  unfold setCheckTime
  split
  · have hds : Keeps l (l.setDs p { (l.sessions p).ds with mCheckTime := overtime }) :=
      keeps_setDs (.same rfl rfl)
    exact hds.trans (keeps_startPingCheckTimer _ p none)
  · split
    · have hds : Keeps (l.cancelTimer (l.sessions p).ds.mTimer)
          ((l.cancelTimer (l.sessions p).ds.mTimer).setDs p
            { (l.sessions p).ds with mCheckTime := -1 }) :=
        keeps_setDs (.same rfl rfl)
      exact (keeps_cancelTimer l _).trans hds
    · exact .refl l

/-- A check of the time closes a socket at most. -/
theorem keeps_pingCheck (l : LoopState κ) (p firing : ℕ) : Keeps l (l.pingCheck p firing) := by
  unfold pingCheck
  split
  · have hds : Keeps l (l.setDs p { (l.sessions p).ds with mRecvData := false }) :=
      keeps_setDs (.same rfl rfl)
    exact hds.trans (keeps_startPingCheckTimer _ p _)
  · exact keeps_onSocket (drops_procCloseInLoop _)

/-- A deleted socket was closing. -/
theorem keeps_delete (hp : (l.sessions p).status = .closing) : Keeps l (l.delete p) := by
  have hdelete : Drops (l.sessions p).ds (l.sessions p).ds.closeSocket :=
    .same (closeSocket_mUserData _) (closeSocket_mSendList _)
  refine (keeps_cancelTimer l (l.sessions p).ds.mTimer).trans
    (keeps_setSession hdelete ?_ (fun _ => .inr rfl) rfl)
  simp [cancelTimer, hp]

/-- The work of the loop's thread between the queued functors. -/
theorem keeps_work (hl : Safe i l) {w : Work} (hw : w ≠ .eventsDone) (h : l.work w = some l') :
    Keeps l l' := by
  -- `eventsDone` apart, which swaps the queues, no step looks at the functors or the ids
  cases w <;> simp only [work] at h
  case epollWait batch =>
    split at h <;> cases h
    rename_i hguard
    exact keeps_of_eq rfl rfl rfl rfl rfl rfl fun _ => .inl (by rw [hguard.1]; decide)
  case event =>
    split at h
    · split at h <;> cases h
      exact keeps_of_eq rfl rfl rfl rfl rfl rfl .inl
    · cases h
  case recv r =>
    split at h
    · split at h
      · cases h
        exact keeps_setDs (.same rfl rfl)
      · split at h <;> cases h
        · exact (keeps_onSocket (drops_procCloseInLoop _)).trans
            (keeps_of_eq rfl rfl rfl rfl rfl rfl .inl)
        · exact keeps_of_eq rfl rfl rfl rfl rfl rfl .inl
    · cases h
  case recvDone =>
    split at h
    · split at h
      · cases h
        exact (keeps_onSocket (drops_onClose _)).trans (keeps_of_eq rfl rfl rfl rfl rfl rfl .inl)
      · split at h <;> cases h
        · exact (keeps_onSocket (drops_canSend _)).trans (keeps_of_eq rfl rfl rfl rfl rfl rfl .inl)
        · exact keeps_of_eq rfl rfl rfl rfl rfl rfl .inl
    · cases h
  case eventsDone => exact absurd rfl hw
  case asyncDone =>
    split at h <;> cases h
    rename_i hguard
    exact keeps_of_eq rfl rfl rfl rfl rfl rfl fun _ => .inr hguard.2
  case flush r =>
    split at h
    · rename_i p pc hframe
      cases h
      have hon : Keeps l (l.onSocket p fun _ =>
          (((l.sessions p).ds.flushStep .quickFlush pc r).ds,
            ((l.sessions p).ds.flushStep .quickFlush pc r).posted)) :=
        keeps_onSocket (drops_flushStep .quickFlush (l.sessions p).ds pc r)
      exact hon.trans (keeps_of_eq rfl rfl rfl rfl rfl rfl .inl)
    · cases h
  case delete =>
    split at h
    · rename_i p hframe
      cases h
      -- only here a socket changes its life, and it had left already
      have hclosing : (l.sessions p).status = .closing := (hl.frame_eq hframe).2
      exact (keeps_delete hclosing).trans (keeps_of_eq rfl rfl rfl rfl rfl rfl .inl)
    · cases h
  case afterLoopDone =>
    split at h <;> cases h
    rename_i hguard
    exact keeps_of_eq rfl rfl rfl rfl rfl rfl fun _ => .inl (by rw [hguard.1]; decide)
  case timer t =>
    split at h <;> cases h
    have herase : Keeps l { l with timers := l.timers.erase t } :=
      keeps_of_eq rfl rfl rfl rfl rfl rfl .inl
    split
    · exact herase.trans (keeps_pingCheck _ _ _)
    · exact herase
  case timersDone =>
    split at h <;> cases h
    rename_i hphase
    exact keeps_of_eq rfl rfl rfl rfl rfl rfl fun _ => .inl (by rw [hphase]; decide)

/-! ### Calls -/

theorem keepsIds_receive (l : LoopState κ) (p : ℕ) (entry : Thread × List UInt8 × Option κ) :
    KeepsIds l (l.receive p entry) := keepsIds_setSession rfl Iff.rfl id

/-- An operation on a session gives no new id. -/
theorem keepsIds_perform (l : LoopState κ) (p : ℕ) (thread : Thread) (op : SessionOp κ) :
    KeepsIds l (l.perform p thread op) := by
  cases op with
  | send packet callback =>
    rw [perform, sendPacketInLoop]
    exact (keepsIds_receive l p (thread, packet, callback)).trans
      (keepsIds_onSocket (sound_sendPacketInLoop _ packet callback).mUserData)
  | shutdown => exact keepsIds_onSocket (sound_postShutdown _).mUserData
  | disConnect => exact keepsIds_onSocket (sound_procCloseInLoop _).mUserData
  | setPingCheckTime checktime => exact (keeps_setCheckTime l p checktime).toKeepsIds

/-- Nor does a call. -/
theorem keepsIds_execute (l : LoopState κ) (c : Call κ) : KeepsIds l (l.execute c) := by
  unfold execute
  split
  · exact keepsIds_perform l _ _ _
  · exact (Keeps.refl l).toKeepsIds

/-- Nor does an entry of the queue. -/
theorem keepsIds_push (l : LoopState κ) (f : AsyncProc κ) : KeepsIds l (l.push f) :=
  ⟨rfl, rfl, rfl, fun _ => rfl, fun _ => Iff.rfl, fun _ => id⟩

/-! ### Enters and leaves -/

/-- Socket `p` becomes a session of loop `i`, in the claimed slot. -/
structure Enters (i : ℕ) (l l' : LoopState κ) (p : ℕ) : Prop where
  fresh : (l.sessions p).status = .absent ∨ (l.sessions p).status = .posted
  status : (l'.sessions p).status = .live
  live : l'.live = p :: l.live
  others : ∀ q, q ≠ p → l'.sessions q = l.sessions q
  claim : ∃ slot ids, l.table.mDataSockets.claimID = some (slot, ids) ∧
    l'.table = ⟨ids.set (some p) (slot % 2 ^ 16), l.table.mIncId + 1⟩ ∧
    (l'.sessions p).ds.mUserData =
      (SessionId.mk (BitVec.ofNat 16 i) (BitVec.ofNat 16 slot) l.table.mIncId).id
  issued : l'.issued = l.issued ++ [((l'.sessions p).ds.mUserData, p)]

/-- The disconnect callback of session `p` of loop `i` starts. -/
structure Leaves (i : ℕ) (l l' : LoopState κ) (p : ℕ) : Prop where
  wasLive : (l.sessions p).status = .live
  status : (l'.sessions p).status = .closing
  live : l'.live = l.live.erase p
  mUserData : (l'.sessions p).ds.mUserData = (l.sessions p).ds.mUserData
  others : ∀ q, q ≠ p → l'.sessions q = l.sessions q
  table : l'.table = if (SessionId.ofId (l.sessions p).ds.mUserData).loopIndex.toNat = i then
      l.table.procDataSocketClose (SessionId.ofId (l.sessions p).ds.mUserData)
    else l.table
  issued : l'.issued = l.issued

/-- A socket enters with an id of its own, or it is deleted again. -/
theorem enters_of_enter {linkOk : Bool}
    (hp : (l.sessions p).status = .absent ∨ (l.sessions p).status = .posted)
    (h : l.enter i p linkOk = some l') : Enters i l l' p ∨ KeepsIds l l' := by
  rcases enter_cases h with rfl | ⟨slot, ids, sid, hclaim, rfl, rfl⟩
  · -- deleted before it was a session
    refine .inr (keepsIds_setSession (closeSocket_mUserData _) ?_ fun _ => .inr rfl)
    rcases hp with hp | hp <;> simp [hp]
  · have hself := setSession_sessions_self (l := l) (p := p) (x := { l.sessions p with
      status := .live
      ds := { (l.sessions p).ds with mUserData :=
        (SessionId.mk (BitVec.ofNat 16 i) (BitVec.ofNat 16 slot) l.table.mIncId).id } })
    have huser := congrArg (fun x => x.ds.mUserData) hself
    refine .inl ⟨hp, congrArg Session.status hself, rfl, fun q hq => setSession_sessions_of_ne hq,
      ⟨slot, ids, hclaim, rfl, huser⟩, ?_⟩
    dsimp only
    rw [huser]

/-- A socket that enters has nothing to send. -/
theorem keepsSends_enter {linkOk : Bool} (h : l.enter i p linkOk = some l') :
    KeepsSends l l' := by
  rcases enter_cases h with rfl | ⟨slot, ids, sid, -, -, rfl⟩
  · refine keepsSends_setSession ?_ rfl
    rw [closeSocket_mSendList]
  · have hset : KeepsSends l (l.setSession p { l.sessions p with
        status := .live, ds := { (l.sessions p).ds with mUserData := sid.id } }) :=
      keepsSends_setSession (List.suffix_refl _) rfl
    exact ⟨⟨rfl, rfl, .inl⟩, hset.received, hset.sendList⟩

/-- A socket that is posted has no id yet. -/
theorem keepsIds_post (hp : (l.sessions p).status = .absent) : KeepsIds l (l.post p) := by
  have hset : KeepsIds l (l.setSession p { l.sessions p with status := .posted }) :=
    keepsIds_setSession rfl (by simp [hp]) (by simp [Gone, hp])
  exact hset.trans (keepsIds_push _ (.enter p))

/-- A queued functor that enters no socket is taken off the queue. -/
theorem keepsIds_popAsync (l : LoopState κ) (procs : List (AsyncProc κ)) :
    KeepsIds l { l with mCopyAsyncProcs := procs } :=
  ⟨rfl, rfl, rfl, fun _ => rfl, fun _ => Iff.rfl, fun _ => id⟩

/-- A functor whose call is executed next is only taken off the queue. -/
theorem runAsync_some {linkOk : Bool} {c : Call κ} (h : l.runAsync i linkOk = some (l', some c)) :
    ∃ procs, l' = { l with mCopyAsyncProcs := procs } := by
  cases (runAsync_cases h).2 <;> exact ⟨_, rfl⟩

/-- An entry that ends no session. -/
theorem keeps_runAfterLoop (h : l.runAfterLoop = some (l', none)) : Keeps l l' := by
  have hpop : ∀ rest, Keeps l { l with mCopyAfterLoopProcs := rest } :=
    fun rest => keeps_of_eq rfl rfl rfl rfl rfl rfl .inl
  cases (runAfterLoop_cases h).2.2 with
  | flush p rest frame hcopy hframe =>
    have hds : Keeps { l with mCopyAfterLoopProcs := rest }
        (LoopState.setDs { l with mCopyAfterLoopProcs := rest } p
          { (l.sessions p).ds with mIsPostFlush := false }) := keeps_setDs (.same rfl rfl)
    exact ((hpop rest).trans hds).trans (keeps_of_eq rfl rfl rfl rfl rfl rfl .inl)
  | shutdown p rest hcopy => exact (hpop rest).trans (keeps_setDs (drops_procShutdownInLoop _))

/-- A disconnect callback starts, and `procDataSocketClose` has run if the id of the socket
names this loop. -/
theorem leaves_of_runAfterLoop (hl : Safe i l) {sid : SessionId}
    (h : l.runAfterLoop = some (l', some sid)) :
    ∃ p, sid = SessionId.ofId (l.sessions p).ds.mUserData ∧
      Leaves i l (if sid.loopIndex.toNat = i then l'.closeSlot sid else l') p := by
  cases (runAfterLoop_cases h).2.2 with
  | disconnect p rest hcopy =>
    have hlive := hl.head_live hcopy
    have hself := setSession_sessions_self (l := l) (p := p) (x := { l.sessions p with
      status := .closing, disconnects := (l.sessions p).disconnects + 1 })
    have huser := congrArg (fun x => x.ds.mUserData) hself
    refine ⟨p, rfl, ?_⟩
    split
    · rename_i hsid
      refine ⟨hlive, congrArg Session.status hself, rfl, huser,
        fun q hq => setSession_sessions_of_ne hq, ?_, rfl⟩
      rw [if_pos hsid]
      rfl
    · rename_i hsid
      refine ⟨hlive, congrArg Session.status hself, rfl, huser,
        fun q hq => setSession_sessions_of_ne hq, ?_, rfl⟩
      rw [if_neg hsid]
      rfl

/-- One that does. -/
theorem keepsSends_runAfterLoop {sid : SessionId} (h : l.runAfterLoop = some (l', some sid)) :
    KeepsSends l l' := by
  cases (runAfterLoop_cases h).2.2 with
  | disconnect p rest hcopy =>
    have hset : KeepsSends l (l.setSession p { l.sessions p with
        status := .closing, disconnects := (l.sessions p).disconnects + 1 }) :=
      keepsSends_setSession (List.suffix_refl _) rfl
    exact ⟨⟨rfl, rfl, .inl⟩, hset.received, hset.sendList⟩

end LoopState

/-! ## The service -/

namespace TcpService
open LoopState

variable {κ : Type*}

/-- What a step does to the sessions of loop `j`. -/
inductive SessionsStep (s : TcpService κ) (j : ℕ) (l : LoopState κ) : Prop
  | keeps (h : KeepsIds (s.loops j) l)
  | enters (p : ℕ) (hj : j < s.mLoopNum) (h : Enters j (s.loops j) l p)
  | leaves (p : ℕ) (h : Leaves j (s.loops j) l p)
  /-- session `q` of another loop leaves, and its id names loop `j` -/
  | closeSlot (i q : ℕ) (hi : i < s.mLoopNum) (hij : i ≠ j)
    (hq : ((s.loops i).sessions q).status = .live)
    (hloop : (SessionId.ofId ((s.loops i).sessions q).ds.mUserData).loopIndex.toNat = j)
    (h : l = (s.loops j).closeSlot (SessionId.ofId ((s.loops i).sessions q).ds.mUserData))

/-- An entry of the queue as a step of the service's sessions. -/
theorem sessionsStep_of_runAsync {s : TcpService κ} (hs : AllSafe s) {j : ℕ}
    {l : LoopState κ} {linkOk : Bool} {call : Option (Call κ)} (hj : j < s.mLoopNum)
    (h : (s.loops j).runAsync j linkOk = some (l, call)) : SessionsStep s j l := by
  cases (runAsync_cases h).2 with
  | enter p rest l hcopy henter =>
    have hposted : ((s.loops j).sessions p).status = .posted := by
      apply (hs j).enters.2
      rw [LoopState.enters, hcopy]
      exact List.mem_cons_self
    rcases enters_of_enter (l := { s.loops j with mCopyAsyncProcs := rest }) (.inr hposted) henter
      with henters | hkeeps
    · exact .enters p hj ⟨.inr hposted, henters.status, henters.live, henters.others, henters.claim,
        henters.issued⟩
    · exact .keeps ((keepsIds_popAsync _ rest).trans hkeeps)
  | session c rest hcopy => exact .keeps (keepsIds_popAsync _ _)
  | flushed thread rest hcopy => exact .keeps (keepsIds_popAsync _ _)
  | message thread m msgList rest hcopy => exact .keeps (keepsIds_popAsync _ _)

/-- A step of the service, as the sessions of loop `j` see it. -/
theorem sessionsStep_of_loopStep {s : TcpService κ} (hs : AllSafe s) {j : ℕ} {l : LoopState κ}
    (h : LoopStep s j l) : SessionsStep s j l := by
  cases h with
  | same => exact .keeps (Keeps.refl _).toKeepsIds
  | execute c hc => exact .keeps (keepsIds_execute _ c)
  | push c hc hthread => exact .keeps (keepsIds_push _ _)
  | flushCache thread hthread => exact .keeps (keepsIds_push _ _)
  | enter p linkOk _ hj hp h =>
    rcases enters_of_enter (.inl hp) h with henters | hkeeps
    · exact .enters p hj henters
    · exact .keeps hkeeps
  | post p hj hp => exact .keeps (keepsIds_post hp)
  | runAsync linkOk _ call hj h => exact sessionsStep_of_runAsync hs hj h
  | runAsyncExecute linkOk l c hj h hc =>
    obtain ⟨procs, rfl⟩ := runAsync_some h
    exact .keeps ((keepsIds_popAsync _ procs).trans (keepsIds_execute _ c))
  | runAfterLoop _ h => exact .keeps (keeps_runAfterLoop h).toKeepsIds
  | disconnect l sid h =>
    obtain ⟨p, -, hleaves⟩ := leaves_of_runAfterLoop (hs j) h
    exact .leaves p hleaves
  | closeSlot i hi hij l sid h hsid =>
    obtain ⟨q, rfl, hleaves⟩ := leaves_of_runAfterLoop (hs i) h
    exact .closeSlot i q hi hij hleaves.wasLive hsid rfl
  | work w _ h =>
    by_cases hw : w = .eventsDone
    · subst hw
      -- the loop goes on to its next phase, and no session is touched
      simp only [work] at h
      split at h <;> cases h
      exact .keeps ⟨rfl, rfl, rfl, fun _ => rfl, fun _ => Iff.rfl, fun _ => id⟩
    · exact .keeps (keeps_work (hs j) hw h).toKeepsIds

end TcpService

end Netxy
