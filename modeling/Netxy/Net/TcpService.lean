import Mathlib.Data.List.Basic
import Netxy.Net.DataSocket

/-!
# `TcpService` and its event loops

A service runs `loopNum` event loops, each on a thread of its own; thread `i` is that of
loop `i` for `i < loopNum`. A state holds, for each loop, its sockets, its table of
sessions, its two pairs of functor queues, its timers and where its thread stands in
`EventLoop::loop`. A step is one call of a service method by any thread, or one piece of
work of a loop's thread, cut wherever user code runs. What the kernel answers, which events
it reports and when a timer is due is free.

Functors are handed over as in `Netxy.Wakeup`, with push and swap as one step each. Calls by
a loop's own thread may come at any time, since user code runs in all of its callbacks.
-/

namespace Netxy

/-- A thread. -/
abbrev Thread := ℕ

/-! ## One loop -/

/-- What `TcpService` can be asked to do with a session. -/
inductive SessionOp (κ : Type*)
  | send (packet : List UInt8) (callback : Option κ)
  | shutdown
  | disConnect
  | setPingCheckTime (checktime : ℤ)
deriving DecidableEq, Repr

/-- A call of a service method on a session, with the thread that makes it. -/
structure Call (κ : Type*) where
  thread : Thread
  id : SessionType
  op : SessionOp κ
deriving DecidableEq, Repr

/-- The loop the id of a call names. -/
def Call.loopIndex {κ : Type*} (c : Call κ) : ℕ := (SessionId.ofId c.id).loopIndex.toNat

/-- An element of a `MSG_LIST`. -/
structure Msg (κ : Type*) where
  id : SessionType
  packet : List UInt8
  callback : Option κ
deriving DecidableEq, Repr

/-- The functors of `mAsyncProcs`, with the thread that pushed them. -/
inductive AsyncProc (κ : Type*)
  /-- `channel->onEnterEventLoop(loop)` of `helpAddChannel` -/
  | enter (p : ℕ)
  /-- the functor of `send` or of `postSessionAsyncProc` -/
  | session (c : Call κ)
  /-- the functor of `flushCachePackectList`, with the messages it has still to send -/
  | flushCache (thread : Thread) (msgList : List (Msg κ))
deriving DecidableEq, Repr

/-- The life of a `DataSocket` object. -/
inductive Status
  | absent
  /-- its enter functor is queued -/
  | posted
  /-- between its enter callback and its disconnect callback -/
  | live
  /-- its disconnect callback runs -/
  | closing
  | deleted
deriving DecidableEq, Repr

/-- A `DataSocket` object. `received` lists the packets put into its `mSendList` with the
thread that submitted each, `disconnects` counts runs of its disconnect callback. -/
structure Session (κ : Type*) where
  status : Status
  ds : DataSocket κ
  received : List (Thread × List UInt8 × Option κ)
  disconnects : ℕ
deriving DecidableEq, Repr

/-- A `Timer` of `startPingCheckTimer`. -/
structure PingTimer where
  id : ℕ
  sock : ℕ
  mActive : Bool
deriving DecidableEq, Repr

/-- An `epoll_event`. -/
structure EpollEvent where
  sock : ℕ
  rdhup : Bool
  readable : Bool
  writable : Bool
deriving DecidableEq, Repr

/-- Where a loop's thread stands in `EventLoop::loop`. -/
inductive Phase
  | epollWait
  | events
  | asyncProcs
  | afterLoopProcs
  | timers
deriving DecidableEq, Repr

/-- The `DataSocket` code a loop's thread is inside of while user code may run. -/
inductive SocketFrame
  | none
  /-- in `recv`, for this event -/
  | recv (e : EpollEvent)
  /-- behind `recv`, for this event -/
  | recvDone (e : EpollEvent)
  | flush (p : ℕ) (pc : DataSocket.FlushPc)
  /-- in the user's disconnect callback; `delete arg` comes next -/
  | disconnect (p : ℕ)
deriving DecidableEq, Repr

/-- An event loop with its sockets, which are named by natural numbers, and its part of the
service. Of the two lists being run the part still to be run is kept. `live` and `issued`
record the live sockets and every id issued with its socket. -/
structure LoopState (κ : Type*) where
  sessions : ℕ → Session κ
  table : SessionTable ℕ
  mAsyncProcs : List (AsyncProc κ)
  mCopyAsyncProcs : List (AsyncProc κ)
  mAfterLoopProcs : List (ℕ × AfterLoopProc)
  mCopyAfterLoopProcs : List (ℕ × AfterLoopProc)
  timers : List PingTimer
  nextTimer : ℕ
  /-- the reported events not handled yet -/
  batch : List EpollEvent
  phase : Phase
  frame : SocketFrame
  live : List ℕ
  issued : List (SessionType × ℕ)

namespace LoopState

variable {κ : Type*}

def init : LoopState κ where
  sessions := fun _ => ⟨.absent, .new, [], 0⟩
  table := .empty
  mAsyncProcs := []
  mCopyAsyncProcs := []
  mAfterLoopProcs := []
  mCopyAfterLoopProcs := []
  timers := []
  nextTimer := 0
  batch := []
  phase := .epollWait
  frame := .none
  live := []
  issued := []

/-! ### Sockets -/

def setSession (l : LoopState κ) (p : ℕ) (x : Session κ) : LoopState κ :=
  { l with sessions := Function.update l.sessions p x }

def setDs (l : LoopState κ) (p : ℕ) (ds : DataSocket κ) : LoopState κ :=
  l.setSession p { l.sessions p with ds := ds }

/-- `pushAfterLoopProc` of functors of socket `p`. -/
def pushAfterLoopProc (l : LoopState κ) (p : ℕ) (posted : List AfterLoopProc) : LoopState κ :=
  { l with mAfterLoopProcs := l.mAfterLoopProcs ++ posted.map (p, ·) }

/-- Call a method of socket `p`. -/
def onSocket (l : LoopState κ) (p : ℕ) (f : DataSocket κ → DataSocket κ × List AfterLoopProc) :
    LoopState κ :=
  (l.setDs p (f (l.sessions p).ds).1).pushAfterLoopProc p (f (l.sessions p).ds).2

@[simp] theorem setSession_sessions_self {l : LoopState κ} {p : ℕ} {x : Session κ} :
    (l.setSession p x).sessions p = x := by
  simp only [setSession, Function.update_self]

theorem setSession_sessions_of_ne {l : LoopState κ} {p q : ℕ} {x : Session κ} (h : q ≠ p) :
    (l.setSession p x).sessions q = l.sessions q := by
  simp only [setSession, Function.update_of_ne h]

/-- Something that is the same for the new value of `p` is the same for every socket. -/
theorem setSession_congr {β : Type*} {l : LoopState κ} {p : ℕ} {x : Session κ}
    (f : Session κ → β) (h : f x = f (l.sessions p)) (q : ℕ) :
    f ((l.setSession p x).sessions q) = f (l.sessions q) := by
  by_cases hq : q = p
  · rw [hq, setSession_sessions_self, h]
  · rw [setSession_sessions_of_ne hq]

@[simp] theorem pushAfterLoopProc_nil (l : LoopState κ) (p : ℕ) :
    l.pushAfterLoopProc p [] = l := by
  simp only [pushAfterLoopProc, List.map_nil, List.append_nil]

@[simp] theorem pushAfterLoopProc_sessions (l : LoopState κ) (p : ℕ)
    (posted : List AfterLoopProc) :
    (l.pushAfterLoopProc p posted).sessions = l.sessions := rfl

/-! ### The ping timer -/

/-- `mTimer.lock()`: the queue or the caller `firing` it still holds the timer. -/
def timerAlive (l : LoopState κ) (firing mTimer : Option ℕ) : Bool :=
  match mTimer with
  | none => false
  | some id => firing = some id || l.timers.any (·.id = id)

/-- `mTimer = getTimerMgr()->addTimer(mCheckTime, ...)` -/
def addPingTimer (l : LoopState κ) (p : ℕ) : LoopState κ :=
  { l.setDs p { (l.sessions p).ds with mTimer := some l.nextTimer } with
    timers := ⟨l.nextTimer, p, true⟩ :: l.timers
    nextTimer := l.nextTimer + 1 }

def startPingCheckTimer (l : LoopState κ) (p : ℕ) (firing : Option ℕ) : LoopState κ :=
  if ¬ l.timerAlive firing (l.sessions p).ds.mTimer ∧ (l.sessions p).ds.mCheckTime > 0 then
    l.addPingTimer p
  else l

/-- `if (mTimer.lock()) mTimer.lock()->cancel()` -/
def cancelTimer (l : LoopState κ) (mTimer : Option ℕ) : LoopState κ :=
  { l with timers := l.timers.map fun t =>
      if mTimer = some t.id then { t with mActive := false } else t }

def setCheckTime (l : LoopState κ) (p : ℕ) (overtime : ℤ) : LoopState κ :=
  if overtime > 0 then
    (l.setDs p { (l.sessions p).ds with mCheckTime := overtime }).startPingCheckTimer p none
  else if overtime = -1 then
    (l.cancelTimer (l.sessions p).ds.mTimer).setDs p { (l.sessions p).ds with mCheckTime := -1 }
  else l

/-- `PingCheck`, called by the timer `firing`. -/
def pingCheck (l : LoopState κ) (p firing : ℕ) : LoopState κ :=
  if (l.sessions p).ds.mRecvData then
    (l.setDs p { (l.sessions p).ds with mRecvData := false }).startPingCheckTimer p firing
  else l.onSocket p DataSocket.procCloseInLoop

/-! ### Sessions -/

/-- `mDataSockets[i].get(index, tmp) && tmp != nullptr && tmp->getUserData() == id` -/
def find (l : LoopState κ) (id : SessionType) : Option ℕ :=
  match l.table.mDataSockets.get (SessionId.ofId id).index.toNat with
  | some p => if (l.sessions p).ds.mUserData = id then some p else none
  | none => none

/-- Record a packet that `mSendList` receives. -/
def receive (l : LoopState κ) (p : ℕ) (entry : Thread × List UInt8 × Option κ) : LoopState κ :=
  l.setSession p { l.sessions p with received := (l.sessions p).received ++ [entry] }

def sendPacketInLoop (l : LoopState κ) (p : ℕ) (thread : Thread) (packet : List UInt8)
    (callback : Option κ) : LoopState κ :=
  (l.receive p (thread, packet, callback)).onSocket p (·.sendPacketInLoop packet callback)

/-- The method of socket `p` that a call comes down to; the loop's own thread runs the
functors of `postDisConnect` and `postShutdown` on the spot. -/
def perform (l : LoopState κ) (p : ℕ) (thread : Thread) : SessionOp κ → LoopState κ
  | .send packet callback => l.sendPacketInLoop p thread packet callback
  | .shutdown => l.onSocket p DataSocket.postShutdown
  | .disConnect => l.onSocket p DataSocket.procCloseInLoop
  | .setPingCheckTime checktime => l.setCheckTime p checktime

/-- A call on a session is executed. -/
def execute (l : LoopState κ) (c : Call κ) : LoopState κ :=
  match l.find c.id with
  | some p => l.perform p c.thread c.op
  | none => l

/-- `onEnterEventLoop` on loop `i`, with the enter callback of `helpAddChannel`; `linkOk` is
the answer of `epoll_ctl`. A socket that cannot be registered is deleted. -/
def enter (l : LoopState κ) (i p : ℕ) (linkOk : Bool) : Option (LoopState κ) :=
  let x := l.sessions p
  if linkOk then
    (l.table.enter i p).map fun (sid, table) =>
      { l.setSession p { x with status := .live, ds := { x.ds with mUserData := sid.id } } with
        table := table
        live := p :: l.live
        issued := l.issued ++ [(sid.id, p)] }
  else some (l.setSession p { x with status := .deleted, ds := x.ds.closeSocket })

/-- A new socket is refused, or becomes a session in the slot that it claims. -/
theorem enter_cases {l l' : LoopState κ} {i p : ℕ} {linkOk : Bool}
    (h : l.enter i p linkOk = some l') :
    l' = l.setSession p
        { l.sessions p with status := .deleted, ds := (l.sessions p).ds.closeSocket } ∨
      ∃ slot ids sid, l.table.mDataSockets.claimID = some (slot, ids) ∧
        sid = SessionId.mk (BitVec.ofNat 16 i) (BitVec.ofNat 16 slot) l.table.mIncId ∧
        l' = { l.setSession p { l.sessions p with
            status := .live, ds := { (l.sessions p).ds with mUserData := sid.id } } with
          table := ⟨ids.set (some p) (slot % 2 ^ 16), l.table.mIncId + 1⟩
          live := p :: l.live
          issued := l.issued ++ [(sid.id, p)] } := by
  cases linkOk with
  | false =>
    simp only [enter, Bool.false_eq_true, if_false, Option.some.injEq] at h
    exact .inl h.symm
  | true =>
    obtain ⟨slot, ids, hclaim, henter⟩ := l.table.enter_eq i p
    simp only [enter, if_true, henter, Option.map_some, Option.some.injEq] at h
    exact .inr ⟨slot, ids, _, hclaim, rfl, h.symm⟩

/-- `mAsyncProcs.push_back(f)` -/
def push (l : LoopState κ) (f : AsyncProc κ) : LoopState κ :=
  { l with mAsyncProcs := l.mAsyncProcs ++ [f] }

/-- A new channel whose enter functor is queued. -/
def post (l : LoopState κ) (p : ℕ) : LoopState κ :=
  (l.setSession p { l.sessions p with status := .posted }).push (.enter p)

/-- `procDataSocketClose`, in the loop the id of the socket names. -/
def closeSlot (l : LoopState κ) (sid : SessionId) : LoopState κ :=
  { l with table := l.table.procDataSocketClose sid }

/-! ### The loop's thread -/

/-- `x()` for the next of `mCopyAsyncProcs`, one message at a time; the answer holds the
call that is executed. -/
def runAsync (l : LoopState κ) (i : ℕ) (linkOk : Bool) :
    Option (LoopState κ × Option (Call κ)) :=
  if l.phase = .asyncProcs then
    match l.mCopyAsyncProcs with
    | [] => none
    | .enter p :: rest =>
      ({ l with mCopyAsyncProcs := rest }.enter i p linkOk).map fun l => (l, none)
    | .session c :: rest => some ({ l with mCopyAsyncProcs := rest }, some c)
    | .flushCache _ [] :: rest => some ({ l with mCopyAsyncProcs := rest }, none)
    | .flushCache thread (m :: msgList) :: rest =>
      some ({ l with mCopyAsyncProcs := .flushCache thread msgList :: rest },
        some ⟨thread, m.id, .send m.packet m.callback⟩)
  else none

/-- `x()` for the next of `mCopyAfterLoopProcs`; the answer holds the id of a session whose
disconnect callback starts. -/
def runAfterLoop (l : LoopState κ) : Option (LoopState κ × Option SessionId) :=
  if l.phase = .afterLoopProcs ∧ l.frame = .none then
    match l.mCopyAfterLoopProcs with
    | [] => none
    | (p, proc) :: rest =>
      let l := { l with mCopyAfterLoopProcs := rest }
      let x := l.sessions p
      match proc with
      | .flush =>
        let ds := { x.ds with mIsPostFlush := false }
        some ({ l.setDs p ds with
          frame := match ds.flush with
            | some pc => .flush p pc
            | none => .none }, none)
      | .shutdown => some (l.setDs p x.ds.procShutdownInLoop, none)
      | .disconnect =>
        some ({ l.setSession p { x with status := .closing, disconnects := x.disconnects + 1 } with
            live := l.live.erase p
            frame := .disconnect p },
          some (SessionId.ofId x.ds.mUserData))
  else none

/-- What `runAsync` does with the next functor. -/
inductive RunAsync (l : LoopState κ) (i : ℕ) (linkOk : Bool) :
    LoopState κ → Option (Call κ) → Prop
  | enter (p : ℕ) (rest : List (AsyncProc κ)) (l' : LoopState κ)
    (hcopy : l.mCopyAsyncProcs = .enter p :: rest)
    (h : { l with mCopyAsyncProcs := rest }.enter i p linkOk = some l') : RunAsync l i linkOk l' none
  | session (c : Call κ) (rest : List (AsyncProc κ))
    (hcopy : l.mCopyAsyncProcs = .session c :: rest) :
    RunAsync l i linkOk { l with mCopyAsyncProcs := rest } (some c)
  | flushed (thread : Thread) (rest : List (AsyncProc κ))
    (hcopy : l.mCopyAsyncProcs = .flushCache thread [] :: rest) :
    RunAsync l i linkOk { l with mCopyAsyncProcs := rest } none
  | message (thread : Thread) (m : Msg κ) (msgList : List (Msg κ)) (rest : List (AsyncProc κ))
    (hcopy : l.mCopyAsyncProcs = .flushCache thread (m :: msgList) :: rest) :
    RunAsync l i linkOk { l with mCopyAsyncProcs := .flushCache thread msgList :: rest }
      (some ⟨thread, m.id, .send m.packet m.callback⟩)

theorem runAsync_cases {l l' : LoopState κ} {i : ℕ} {linkOk : Bool} {call : Option (Call κ)}
    (h : l.runAsync i linkOk = some (l', call)) :
    l.phase = .asyncProcs ∧ RunAsync l i linkOk l' call := by
  unfold runAsync at h
  split at h
  · rename_i hphase
    refine ⟨hphase, ?_⟩
    split at h
    · cases h
    · rename_i p rest hcopy
      rw [Option.map_eq_some_iff] at h
      obtain ⟨l₁, henter, h⟩ := h
      cases h
      exact .enter p rest l' hcopy henter
    · rename_i c rest hcopy
      cases h
      exact .session c rest hcopy
    · rename_i thread rest hcopy
      cases h
      exact .flushed thread rest hcopy
    · rename_i thread m msgList rest hcopy
      cases h
      exact .message thread m msgList rest hcopy
  · cases h

/-- What `runAfterLoop` does with the next functor. -/
inductive RunAfterLoop (l : LoopState κ) : LoopState κ → Option SessionId → Prop
  | flush (p : ℕ) (rest : List (ℕ × AfterLoopProc)) (frame : SocketFrame)
    (hcopy : l.mCopyAfterLoopProcs = (p, .flush) :: rest)
    (hframe : frame = .none ∨ ∃ pc, frame = .flush p pc) :
    RunAfterLoop l
      { LoopState.setDs { l with mCopyAfterLoopProcs := rest } p
          { (l.sessions p).ds with mIsPostFlush := false } with frame := frame } none
  | shutdown (p : ℕ) (rest : List (ℕ × AfterLoopProc))
    (hcopy : l.mCopyAfterLoopProcs = (p, .shutdown) :: rest) :
    RunAfterLoop l
      (LoopState.setDs { l with mCopyAfterLoopProcs := rest } p
        (l.sessions p).ds.procShutdownInLoop) none
  | disconnect (p : ℕ) (rest : List (ℕ × AfterLoopProc))
    (hcopy : l.mCopyAfterLoopProcs = (p, .disconnect) :: rest) :
    RunAfterLoop l
      { LoopState.setSession { l with mCopyAfterLoopProcs := rest } p { l.sessions p with
          status := .closing, disconnects := (l.sessions p).disconnects + 1 } with
        live := l.live.erase p
        frame := .disconnect p }
      (some (SessionId.ofId (l.sessions p).ds.mUserData))

theorem runAfterLoop_cases {l l' : LoopState κ} {closed : Option SessionId}
    (h : l.runAfterLoop = some (l', closed)) :
    l.phase = .afterLoopProcs ∧ l.frame = .none ∧ RunAfterLoop l l' closed := by
  unfold runAfterLoop at h
  split at h
  · rename_i hguard
    refine ⟨hguard.1, hguard.2, ?_⟩
    split at h
    · cases h
    · rename_i p proc rest hcopy
      cases proc with
      | flush =>
        cases h
        refine .flush p rest _ hcopy ?_
        split
        · exact .inr ⟨_, rfl⟩
        · exact .inl rfl
      | shutdown =>
        cases h
        exact .shutdown p rest hcopy
      | disconnect =>
        cases h
        exact .disconnect p rest hcopy
  · cases h

/-- What `recv` meets: bytes, which go to the data callback, an empty socket, a full buffer
or a refusal of the data callback, a disconnect or an error. -/
inductive RecvRet
  | data
  | wouldBlock
  | noRoom
  | failed
deriving DecidableEq, Repr

/-- The rest of a loop's own work. -/
inductive Work
  /-- `epoll_wait` reports the events -/
  | epollWait (batch : List EpollEvent)
  /-- the next event is taken up -/
  | event
  | recv (r : RecvRet)
  | recvDone
  | eventsDone
  | asyncDone
  /-- the running flush goes on -/
  | flush (r : DataSocket.SysRet)
  /-- `delete arg` -/
  | delete
  | afterLoopDone
  /-- `schedule` pops this timer -/
  | timer (t : PingTimer)
  | timersDone
deriving DecidableEq, Repr

/-- The socket is registered with `epoll`, for these events. -/
def Registered (l : LoopState κ) (e : EpollEvent) : Prop :=
  (l.sessions e.sock).status = .live ∧ (l.sessions e.sock).ds.isOpen ∧
    (e.writable → (l.sessions e.sock).ds.epollOut)

instance (l : LoopState κ) (e : EpollEvent) : Decidable (l.Registered e) :=
  inferInstanceAs (Decidable (_ ∧ _ ∧ (_ → _)))

/-- The destructor of a socket. -/
def delete (l : LoopState κ) (p : ℕ) : LoopState κ :=
  let x := l.sessions p
  (l.cancelTimer x.ds.mTimer).setSession p { x with status := .deleted, ds := x.ds.closeSocket }

def work (l : LoopState κ) : Work → Option (LoopState κ)
  | .epollWait batch =>
    if l.phase = .epollWait ∧ ∀ e ∈ batch, l.Registered e then
      some { l with phase := .events, batch := batch }
    else none
  | .event =>
    if l.frame = .none then
      match l.batch with
      | [] => none
      | e :: batch =>
        some { l with
          batch := batch
          frame := if e.rdhup ∨ e.readable then .recv e else .recvDone e }
    else none
  | .recv r =>
    match l.frame with
    | .recv e =>
      let ds := (l.sessions e.sock).ds
      if ds.isOpen ∧ r = .data then some (l.setDs e.sock { ds with mRecvData := true })
      else if r = .failed then
        some { l.onSocket e.sock DataSocket.procCloseInLoop with frame := .recvDone e }
      else some { l with frame := .recvDone e }
    | _ => none
  | .recvDone =>
    match l.frame with
    | .recvDone e =>
      -- the branch for `EPOLLRDHUP` leaves out `canSend`
      if e.rdhup then some { l.onSocket e.sock DataSocket.onClose with frame := .none }
      else if e.writable then some { l.onSocket e.sock DataSocket.canSend with frame := .none }
      else some { l with frame := .none }
    | _ => none
  | .eventsDone =>
    if l.phase = .events ∧ l.frame = .none ∧ l.batch = [] then
      some { l with
        phase := .asyncProcs
        mCopyAsyncProcs := l.mAsyncProcs
        mAsyncProcs := l.mCopyAsyncProcs }
    else none
  | .asyncDone =>
    if l.phase = .asyncProcs ∧ l.mCopyAsyncProcs = [] then
      some { l with
        phase := .afterLoopProcs
        mCopyAfterLoopProcs := l.mAfterLoopProcs
        mAfterLoopProcs := l.mCopyAfterLoopProcs }
    else none
  | .flush r =>
    match l.frame with
    | .flush p pc =>
      -- an iterator that a send of the callback made invalid is taken to work on here
      let out := DataSocket.flushStep .quickFlush (l.sessions p).ds pc r
      some { l.onSocket p fun _ => (out.ds, out.posted) with
        frame := match out.pc with
          | some pc => .flush p pc
          | none => .none }
    | _ => none
  | .delete =>
    match l.frame with
    | .disconnect p => some { l.delete p with frame := .none }
    | _ => none
  | .afterLoopDone =>
    if l.phase = .afterLoopProcs ∧ l.frame = .none ∧ l.mCopyAfterLoopProcs = [] then
      some { l with phase := .timers }
    else none
  | .timer t =>
    if l.phase = .timers ∧ t ∈ l.timers then
      let l := { l with timers := l.timers.erase t }
      some (if t.mActive then l.pingCheck t.sock t.id else l)
    else none
  | .timersDone => if l.phase = .timers then some { l with phase := .epollWait } else none

end LoopState

/-! ## The service -/

structure TcpService (κ : Type*) where
  mLoopNum : ℕ
  loops : ℕ → LoopState κ
  mCachePacketList : ℕ → List (Msg κ)
  /-- the round `flushCachePackectList` is in, if the logic thread is inside of it -/
  flushing : Option ℕ

namespace TcpService

variable {κ : Type*}

/-- After `startWorkerThread(mLoopNum)`. -/
def init (mLoopNum : ℕ) : TcpService κ := ⟨mLoopNum, fun _ => .init, fun _ => [], none⟩

def setLoop (s : TcpService κ) (i : ℕ) (l : LoopState κ) : TcpService κ :=
  { s with loops := Function.update s.loops i l }

/-- A call is executed, in the loop its id names. -/
def execute (s : TcpService κ) (c : Call κ) : TcpService κ :=
  s.setLoop c.loopIndex ((s.loops c.loopIndex).execute c)

/-- `mLoops[i]->pushAsyncProc` of a functor that is a call: the loop's own thread executes
it at once. -/
def pushCall (s : TcpService κ) (c : Call κ) : TcpService κ :=
  if c.thread = c.loopIndex then s.execute c
  else s.setLoop c.loopIndex ((s.loops c.loopIndex).push (.session c))

/-- The methods of the service, the rounds of `flushCachePackectList`, and what the loops'
threads do. -/
inductive Action (κ : Type*)
  /-- `send`, `shutdown`, `disConnect` or `setPingCheckTime` -/
  | call (c : Call κ)
  /-- `helpAddChannel` of the new socket `p`, with this loop chosen -/
  | addChannel (thread : Thread) (loopIndex p : ℕ) (linkOk : Bool)
  | cacheSend (m : Msg κ)
  /-- `flushCachePackectList` is called -/
  | flushCache
  /-- the next of its rounds -/
  | flushRound
  | runAsync (i : ℕ) (linkOk : Bool)
  | runAfterLoop (i : ℕ)
  | work (i : ℕ) (w : LoopState.Work)
deriving DecidableEq, Repr

/-- The thread is free to call: the logic thread is not while it flushes. -/
def Free (s : TcpService κ) (logic thread : Thread) : Prop := thread = logic → s.flushing = none

instance (s : TcpService κ) (logic thread : Thread) : Decidable (s.Free logic thread) :=
  inferInstanceAs (Decidable (_ → _))

/-- A round of `flushCachePackectList` on a loop other than the caller's hands over the
list; on the caller's own loop the messages are sent one by one. -/
def flushRound (s : TcpService κ) (logic : Thread) (i : ℕ) : TcpService κ :=
  match s.mCachePacketList i with
  | [] => { s with flushing := if i + 1 < s.mLoopNum then some (i + 1) else none }
  | m :: msgList =>
    if logic = i then
      { s with mCachePacketList := Function.update s.mCachePacketList i msgList }.execute
        ⟨logic, m.id, .send m.packet m.callback⟩
    else
      { s with mCachePacketList := Function.update s.mCachePacketList i [] }.setLoop i
        ((s.loops i).push (.flushCache logic (m :: msgList)))

/-- One step; `logic` is the thread that calls `cacheSend` and `flushCachePackectList`. -/
def step (logic : Thread) (s : TcpService κ) : Action κ → Option (TcpService κ)
  | .call c =>
    if s.Free logic c.thread then
      some (if c.loopIndex < s.mLoopNum then s.pushCall c else s)
    else none
  | .addChannel thread i p linkOk =>
    if s.Free logic thread ∧ i < s.mLoopNum ∧ ((s.loops i).sessions p).status = .absent then
      if thread = i then ((s.loops i).enter i p linkOk).map (s.setLoop i)
      else some (s.setLoop i ((s.loops i).post p))
    else none
  | .cacheSend m =>
    if s.flushing = none then
      let i := (SessionId.ofId m.id).loopIndex.toNat
      some (if i < s.mLoopNum then
        { s with mCachePacketList :=
            Function.update s.mCachePacketList i (s.mCachePacketList i ++ [m]) }
      else s)
    else none
  | .flushCache =>
    if s.flushing = none ∧ 0 < s.mLoopNum then some { s with flushing := some 0 } else none
  | .flushRound => s.flushing.map (s.flushRound logic)
  | .runAsync i linkOk =>
    if i < s.mLoopNum then do
      let (l, call) ← (s.loops i).runAsync i linkOk
      match call with
      | some c => return (s.setLoop i l).execute c
      | none => return s.setLoop i l
    else none
  | .runAfterLoop i =>
    if i < s.mLoopNum then do
      let (l, closed) ← (s.loops i).runAfterLoop
      let s := s.setLoop i l
      match closed with
      | some sid =>
        let j := sid.loopIndex.toNat
        return s.setLoop j ((s.loops j).closeSlot sid)
      | none => return s
    else none
  | .work i w => if i < s.mLoopNum then ((s.loops i).work w).map (s.setLoop i) else none

/-! ## What a step does -/

section Step
variable {logic : Thread} {s t : TcpService κ}

theorem step_call {c : Call κ} (h : step logic s (.call c) = some t) :
    s.Free logic c.thread ∧ t = if c.loopIndex < s.mLoopNum then s.pushCall c else s := by
  simp only [step] at h
  split at h <;> cases h
  exact ⟨by assumption, rfl⟩

theorem step_addChannel {thread : Thread} {i p : ℕ} {linkOk : Bool}
    (h : step logic s (.addChannel thread i p linkOk) = some t) :
    i < s.mLoopNum ∧ ((s.loops i).sessions p).status = .absent ∧
      ((∃ l, (s.loops i).enter i p linkOk = some l ∧ t = s.setLoop i l) ∨
        t = s.setLoop i ((s.loops i).post p)) := by
  simp only [step] at h
  split at h
  · rename_i hguard
    refine ⟨hguard.2.1, hguard.2.2, ?_⟩
    split at h
    · rw [Option.map_eq_some_iff] at h
      obtain ⟨l, hl, rfl⟩ := h
      exact .inl ⟨l, hl, rfl⟩
    · cases h
      exact .inr rfl
  · cases h

theorem step_cacheSend {m : Msg κ} (h : step logic s (.cacheSend m) = some t) :
    s.flushing = none ∧
      t = if (SessionId.ofId m.id).loopIndex.toNat < s.mLoopNum then
        { s with
          mCachePacketList := Function.update s.mCachePacketList
            (SessionId.ofId m.id).loopIndex.toNat
            (s.mCachePacketList (SessionId.ofId m.id).loopIndex.toNat ++ [m]) }
      else s := by
  simp only [step] at h
  split at h <;> cases h
  exact ⟨by assumption, rfl⟩

theorem step_flushCache (h : step logic s .flushCache = some t) :
    s.flushing = none ∧ t = { s with flushing := some 0 } := by
  simp only [step] at h
  split at h <;> cases h
  rename_i hguard
  exact ⟨hguard.1, rfl⟩

theorem step_flushRound (h : step logic s .flushRound = some t) :
    ∃ i, s.flushing = some i ∧ t = s.flushRound logic i := by
  simp only [step, Option.map_eq_some_iff] at h
  obtain ⟨i, hi, rfl⟩ := h
  exact ⟨i, hi, rfl⟩

theorem step_runAsync {i : ℕ} {linkOk : Bool} (h : step logic s (.runAsync i linkOk) = some t) :
    i < s.mLoopNum ∧
      ((∃ l, (s.loops i).runAsync i linkOk = some (l, none) ∧ t = s.setLoop i l) ∨
        ∃ l c, (s.loops i).runAsync i linkOk = some (l, some c) ∧
          t = (s.setLoop i l).execute c) := by
  simp only [step] at h
  split at h
  · rename_i hi
    rw [Option.bind_eq_bind, Option.bind_eq_some_iff] at h
    obtain ⟨⟨l, call⟩, hl, h⟩ := h
    cases call <;> cases h
    · exact ⟨hi, .inl ⟨l, hl, rfl⟩⟩
    · exact ⟨hi, .inr ⟨l, _, hl, rfl⟩⟩
  · cases h

theorem step_runAfterLoop {i : ℕ} (h : step logic s (.runAfterLoop i) = some t) :
    i < s.mLoopNum ∧
      ((∃ l, (s.loops i).runAfterLoop = some (l, none) ∧ t = s.setLoop i l) ∨
        ∃ l sid, (s.loops i).runAfterLoop = some (l, some sid) ∧
          t = (s.setLoop i l).setLoop sid.loopIndex.toNat
            (((s.setLoop i l).loops sid.loopIndex.toNat).closeSlot sid)) := by
  simp only [step] at h
  split at h
  · rename_i hi
    rw [Option.bind_eq_bind, Option.bind_eq_some_iff] at h
    obtain ⟨⟨l, closed⟩, hl, h⟩ := h
    cases closed <;> cases h
    · exact ⟨hi, .inl ⟨l, hl, rfl⟩⟩
    · exact ⟨hi, .inr ⟨l, _, hl, rfl⟩⟩
  · cases h

theorem step_work {i : ℕ} {w : LoopState.Work} (h : step logic s (.work i w) = some t) :
    i < s.mLoopNum ∧ ∃ l, (s.loops i).work w = some l ∧ t = s.setLoop i l := by
  simp only [step] at h
  split at h
  · rename_i hi
    rw [Option.map_eq_some_iff] at h
    obtain ⟨l, hl, rfl⟩ := h
    exact ⟨hi, l, hl, rfl⟩
  · cases h

end Step

/-! ### What a step does to one loop -/

/-- What loop `j` may be after a step from `s`. -/
inductive LoopStep (s : TcpService κ) (j : ℕ) : LoopState κ → Prop
  | same : LoopStep s j (s.loops j)
  | execute (c : Call κ) (hc : c.loopIndex = j) : LoopStep s j ((s.loops j).execute c)
  | push (c : Call κ) (hc : c.loopIndex = j) (hthread : c.thread ≠ j) :
    LoopStep s j ((s.loops j).push (.session c))
  | flushCache (thread : Thread) (hthread : thread ≠ j) :
    LoopStep s j ((s.loops j).push (.flushCache thread (s.mCachePacketList j)))
  | enter (p : ℕ) (linkOk : Bool) (l : LoopState κ)
    (hj : j < s.mLoopNum) (hp : ((s.loops j).sessions p).status = .absent)
    (h : (s.loops j).enter j p linkOk = some l) : LoopStep s j l
  | post (p : ℕ) (hj : j < s.mLoopNum)
    (hp : ((s.loops j).sessions p).status = .absent) :
    LoopStep s j ((s.loops j).post p)
  | runAsync (linkOk : Bool) (l : LoopState κ) (call : Option (Call κ))
    (hj : j < s.mLoopNum) (h : (s.loops j).runAsync j linkOk = some (l, call)) : LoopStep s j l
  | runAsyncExecute (linkOk : Bool) (l : LoopState κ) (c : Call κ)
    (hj : j < s.mLoopNum) (h : (s.loops j).runAsync j linkOk = some (l, some c))
    (hc : c.loopIndex = j) : LoopStep s j (l.execute c)
  | runAfterLoop (l : LoopState κ) (h : (s.loops j).runAfterLoop = some (l, none)) :
    LoopStep s j l
  | disconnect (l : LoopState κ) (sid : SessionId)
    (h : (s.loops j).runAfterLoop = some (l, some sid)) :
    LoopStep s j (if sid.loopIndex.toNat = j then l.closeSlot sid else l)
  /-- a socket of another loop disconnects, and its id names loop `j` -/
  | closeSlot (i : ℕ) (hi : i < s.mLoopNum) (hij : i ≠ j) (l : LoopState κ) (sid : SessionId)
    (h : (s.loops i).runAfterLoop = some (l, some sid)) (hsid : sid.loopIndex.toNat = j) :
    LoopStep s j ((s.loops j).closeSlot sid)
  | work (w : LoopState.Work) (l : LoopState κ) (h : (s.loops j).work w = some l) :
    LoopStep s j l

@[simp] theorem setLoop_loops_self (s : TcpService κ) (i : ℕ) (l : LoopState κ) :
    (s.setLoop i l).loops i = l := by
  simp only [setLoop, Function.update_self]

theorem setLoop_loops_of_ne (s : TcpService κ) {i j : ℕ} (h : j ≠ i) (l : LoopState κ) :
    (s.setLoop i l).loops j = s.loops j := by
  simp only [setLoop, Function.update_of_ne h]

/-- A step that changes one loop. -/
theorem loopStep_setLoop {s : TcpService κ} {i : ℕ} {l : LoopState κ} (h : LoopStep s i l)
    (j : ℕ) : LoopStep s j ((s.setLoop i l).loops j) := by
  by_cases hj : j = i
  · subst hj
    rw [setLoop_loops_self]
    exact h
  · rw [setLoop_loops_of_ne s hj]
    exact .same

theorem loopStep_flushRound (s : TcpService κ) (logic : Thread) (i j : ℕ) :
    LoopStep s j ((s.flushRound logic i).loops j) := by
  unfold flushRound
  split
  · exact .same
  · rename_i m msgList hcache
    split
    · exact loopStep_setLoop (.execute _ rfl) j
    · rename_i hthread
      rw [← hcache]
      exact loopStep_setLoop (.flushCache logic hthread) j

theorem loopStep_of_step {logic : Thread} {s t : TcpService κ} {a : Action κ}
    (h : step logic s a = some t) (j : ℕ) : LoopStep s j (t.loops j) := by
  cases a with
  | call c =>
    obtain ⟨-, rfl⟩ := step_call h
    split
    · unfold pushCall
      split
      · exact loopStep_setLoop (.execute c rfl) j
      · rename_i hthread
        exact loopStep_setLoop (.push c rfl hthread) j
    · exact .same
  | addChannel thread i p linkOk =>
    obtain ⟨hi, hp, ⟨l, hl, rfl⟩ | rfl⟩ := step_addChannel h
    · exact loopStep_setLoop (.enter p linkOk l hi hp hl) j
    · exact loopStep_setLoop (.post p hi hp) j
  | cacheSend m =>
    obtain ⟨-, rfl⟩ := step_cacheSend h
    split <;> exact .same
  | flushCache =>
    obtain ⟨-, rfl⟩ := step_flushCache h
    exact .same
  | flushRound =>
    obtain ⟨i, -, rfl⟩ := step_flushRound h
    exact loopStep_flushRound s logic i j
  | runAsync i linkOk =>
    obtain ⟨hi, ⟨l, hl, rfl⟩ | ⟨l, c, hl, rfl⟩⟩ := step_runAsync h
    · exact loopStep_setLoop (.runAsync linkOk l none hi hl) j
    · -- the call runs on loop `i`'s thread, in the loop that its id names
      unfold execute
      by_cases hij : j = i
      · subst hij
        by_cases hc : j = c.loopIndex
        · rw [← hc, setLoop_loops_self, setLoop_loops_self]
          exact .runAsyncExecute linkOk l c hi hl hc.symm
        · rw [setLoop_loops_of_ne _ hc, setLoop_loops_self]
          exact .runAsync linkOk l (some c) hi hl
      · by_cases hc : j = c.loopIndex
        · rw [← hc, setLoop_loops_self, setLoop_loops_of_ne _ hij]
          exact .execute c hc.symm
        · rw [setLoop_loops_of_ne _ hc, setLoop_loops_of_ne _ hij]
          exact .same
  | runAfterLoop i =>
    obtain ⟨hi, ⟨l, hl, rfl⟩ | ⟨l, sid, hl, rfl⟩⟩ := step_runAfterLoop h
    · exact loopStep_setLoop (.runAfterLoop l hl) j
    · -- likewise `procDataSocketClose` works on the table that the id names
      by_cases hij : j = i
      · subst hij
        have hself := LoopStep.disconnect l sid hl
        by_cases hsid : sid.loopIndex.toNat = j
        · rw [if_pos hsid] at hself
          rw [hsid, setLoop_loops_self, setLoop_loops_self]
          exact hself
        · rw [if_neg hsid] at hself
          rw [setLoop_loops_of_ne _ (Ne.symm hsid), setLoop_loops_self]
          exact hself
      · by_cases hsid : j = sid.loopIndex.toNat
        · rw [← hsid, setLoop_loops_self, setLoop_loops_of_ne _ hij]
          exact .closeSlot i hi (Ne.symm hij) l sid hl hsid.symm
        · rw [setLoop_loops_of_ne _ hsid, setLoop_loops_of_ne _ hij]
          exact .same
  | work i w =>
    obtain ⟨-, l, hl, rfl⟩ := step_work h
    exact loopStep_setLoop (.work w l hl) j

end TcpService

end Netxy
