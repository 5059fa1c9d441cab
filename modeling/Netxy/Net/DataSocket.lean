import Mathlib.Data.Int.Notation
import Mathlib.Data.Nat.Notation
import Netxy.Net.SessionTable

/-!
# `DataSocket` on Linux, without SSL

The state of a connection and the methods an event loop calls on it. A method answers the
new state and the functors it hands to `EventLoop::pushAfterLoopProc`, each of which holds
the raw pointer of the socket. The two flush loops are given step by step, cut at the
system call and around each completion callback, since the kernel and user code act there.
-/

namespace Netxy

/-- A `pending_packet`. `κ` are the completion callbacks; a `nullptr` is `none`. -/
structure PendingPacket (κ : Type*) where
  data : List UInt8
  left : ℕ
  mCompleteCallback : Option κ
deriving DecidableEq, Repr

/-- The bytes from `data->c_str() + (data->size() - left)` on. -/
def PendingPacket.remainder {κ : Type*} (b : PendingPacket κ) : List UInt8 :=
  b.data.drop (b.data.length - b.left)

/-- The functors a socket posts to run after the events of the current iteration. -/
inductive AfterLoopProc
  /-- `mIsPostFlush = false; flush()` -/
  | flush
  /-- `procShutdownInLoop()` -/
  | shutdown
  /-- `mDisConnectCallback(this)` -/
  | disconnect
deriving DecidableEq, Repr

structure DataSocket (κ : Type*) where
  /-- `mFD != SOCKET_ERROR` -/
  isOpen : Bool
  mIsPostFinalClose : Bool
  mCanWrite : Bool
  mSendList : List (PendingPacket κ)
  mIsPostFlush : Bool
  mUserData : SessionType
  mRecvData : Bool
  mCheckTime : ℤ
  /-- the timer `mTimer` points to, be it alive or not -/
  mTimer : Option ℕ
  /-- `EPOLLOUT` is among the events registered for the socket -/
  epollOut : Bool
deriving DecidableEq, Repr

namespace DataSocket

variable {κ : Type*}

/-- The constructor, on an open file descriptor. -/
def new : DataSocket κ where
  isOpen := true
  mIsPostFinalClose := false
  mCanWrite := true
  mSendList := []
  mIsPostFlush := false
  mUserData := -1
  mRecvData := false
  mCheckTime := -1
  mTimer := none
  epollOut := false

/-! ## Closing -/

def closeSocket (ds : DataSocket κ) : DataSocket κ :=
  if ds.isOpen then { ds with mCanWrite := false, isOpen := false, epollOut := false } else ds

@[simp] theorem closeSocket_mUserData (ds : DataSocket κ) :
    ds.closeSocket.mUserData = ds.mUserData := by
  unfold closeSocket
  split <;> rfl

@[simp] theorem closeSocket_mTimer (ds : DataSocket κ) : ds.closeSocket.mTimer = ds.mTimer := by
  unfold closeSocket
  split <;> rfl

def onClose (ds : DataSocket κ) : DataSocket κ × List AfterLoopProc :=
  if ds.mIsPostFinalClose then (ds, [])
  else ({ ds.closeSocket with mIsPostFinalClose := true }, [.disconnect])

def procCloseInLoop (ds : DataSocket κ) : DataSocket κ × List AfterLoopProc :=
  if ds.isOpen then ds.onClose else (ds, [])

/-- `procCloseInLoop` closes the socket, unless the final close of an open one was posted. -/
theorem isOpen_procCloseInLoop {ds : DataSocket κ}
    (h : ds.mIsPostFinalClose = true → ds.isOpen = false) :
    ds.procCloseInLoop.1.isOpen = false := by
  unfold procCloseInLoop onClose closeSocket
  cases hopen : ds.isOpen with
  | false => simp [hopen]
  | true =>
    cases hfinal : ds.mIsPostFinalClose with
    | true =>
      rw [h hfinal] at hopen
      cases hopen
    | false => simp

@[simp] theorem procCloseInLoop_mIsPostFlush (ds : DataSocket κ) :
    ds.procCloseInLoop.1.mIsPostFlush = ds.mIsPostFlush := by
  unfold procCloseInLoop onClose closeSocket
  cases ds.isOpen <;> cases ds.mIsPostFinalClose <;> rfl

def procShutdownInLoop (ds : DataSocket κ) : DataSocket κ :=
  if ds.isOpen then { ds with mCanWrite := false } else ds

/-- The functor of `postShutdown`. -/
def postShutdown (ds : DataSocket κ) : DataSocket κ × List AfterLoopProc :=
  (ds, if ds.isOpen then [.shutdown] else [])

/-! ## Sending -/

/-- `EPOLL_CTL_MOD` on a closed descriptor fails, and its answer is ignored. -/
def checkWrite (ds : DataSocket κ) : DataSocket κ :=
  if ds.isOpen then { ds with epollOut := true } else ds

def removeCheckWrite (ds : DataSocket κ) : DataSocket κ :=
  if ds.isOpen then { ds with epollOut := false } else ds

def runAfterFlush (ds : DataSocket κ) : DataSocket κ × List AfterLoopProc :=
  if ¬ ds.mIsPostFlush ∧ ds.mSendList ≠ [] ∧ ds.isOpen then
    ({ ds with mIsPostFlush := true }, [.flush])
  else (ds, [])

def sendPacketInLoop (ds : DataSocket κ) (packet : List UInt8) (callback : Option κ) :
    DataSocket κ × List AfterLoopProc :=
  runAfterFlush { ds with mSendList := ds.mSendList ++ [⟨packet, packet.length, callback⟩] }

def canSend (ds : DataSocket κ) : DataSocket κ × List AfterLoopProc :=
  runAfterFlush { ds.removeCheckWrite with mCanWrite := true }

/-! ## Flushing -/

/-- The two ways to flush. -/
inductive FlushKind
  | quickFlush
  | normalFlush
deriving DecidableEq, Repr

/-- The value of `errno` after a call that wrote nothing, as far as the flush loops look. -/
inductive Errno
  | wouldBlock
  | other
deriving DecidableEq, Repr

/-- What the kernel answers to `writev` or `send`: it is ready to take `count` bytes, and
`errno` reads as given afterwards. An answer of 0 or -1 has `count = 0`. -/
structure SysRet where
  count : ℕ
  errno : Errno
deriving DecidableEq, Repr

/-- The most bytes Linux transfers in one call. -/
def maxRwCount : ℕ := 0x7ffff000

/-- One write: the bytes from the pointer on, the length passed to the kernel, and the number
the result is compared with to see a full write. -/
structure Offer where
  bytes : List UInt8
  len : ℕ
  want : ℤ
deriving DecidableEq, Repr

/-- `MAX_IOVEC` -/
def maxIovec : ℕ := 1024

/-- `SENDBUF_SIZE` -/
def sendbufSize : ℕ := 1024 * 32

/-- `ready_send_len`, an `int` to which each `left` is added. -/
def readySendLen (batch : List (PendingPacket κ)) : ℤ :=
  batch.foldl (fun readySendLen b => Int.bmod (readySendLen + b.left) (2 ^ 32)) 0

/-- The `iovec`s of `quickFlush`. -/
def quickOffer (sendList : List (PendingPacket κ)) : Option Offer :=
  let batch := sendList.take maxIovec
  if batch = [] then none
  else
    let bytes := batch.flatMap PendingPacket.remainder
    some ⟨bytes, bytes.length, readySendLen batch⟩

/-- The `for` of `normalFlush` behind its first packet: what is copied behind
`wait_send_size` bytes already in the buffer. -/
def coalesce : ℕ → List (PendingPacket κ) → List UInt8
  | _, [] => []
  | waitSendSize, b :: rest =>
    if waitSendSize + b.left ≤ sendbufSize then
      b.remainder ++ coalesce (waitSendSize + b.left) rest
    else []

/-- The bytes `normalFlush` sends: packets copied together, or a first packet too large for
the buffer from where it is. -/
def gather : List (PendingPacket κ) → List UInt8
  | [] => []
  | b :: rest => if b.left ≤ sendbufSize then coalesce 0 (b :: rest) else b.remainder

/-- The `send` of `normalFlush`: the length goes through an `int` into a `size_t`. -/
def normalOffer (sendList : List (PendingPacket κ)) : Option Offer :=
  let bytes := gather sendList
  if bytes = [] then none
  else some ⟨bytes, (Int.bmod bytes.length (2 ^ 32) % 2 ^ 64).toNat, bytes.length⟩

def offer : FlushKind → List (PendingPacket κ) → Option Offer
  | .quickFlush => quickOffer
  | .normalFlush => normalOffer

/-- Where a flush that has not returned stands. `sendLen` is the result of its last write,
`want` what it is compared with, and `tmpLen` is `tmp_len`. -/
inductive FlushPc
  /-- at `SEND_PROC` -/
  | sendProc
  /-- at the head of the `for` over the written packets -/
  | written (sendLen : ℕ) (want : ℤ) (tmpLen : ℕ)
  /-- the callback of the first packet was invoked; it is erased next -/
  | completed (sendLen : ℕ) (want : ℤ) (tmpLen : ℕ)
deriving DecidableEq, Repr

/-- In the `for` over the written packets a flush holds an iterator into `mSendList`, a
`std::deque`: `push_back` makes it invalid. -/
def FlushPc.holdsIterator : FlushPc → Bool
  | .sendProc => false
  | .written _ _ _ | .completed _ _ _ => true

/-- `flush`: does it enter a flush loop? -/
def flush (ds : DataSocket κ) : Option FlushPc :=
  if ds.mCanWrite ∧ ds.isOpen then some .sendProc else none

/-- What one step of a flush does; `pc` is `none` where the flush returns. -/
structure FlushStep (κ : Type*) where
  ds : DataSocket κ
  pc : Option FlushPc
  posted : List AfterLoopProc
  /-- bytes the kernel took -/
  accepted : List UInt8
  /-- the completion callback invoked -/
  fired : Option κ
deriving DecidableEq, Repr

/-- The bytes of an offer the kernel takes; a closed descriptor takes none. -/
def taken (ds : DataSocket κ) (o : Offer) (r : SysRet) : List UInt8 :=
  if ds.isOpen then o.bytes.take (min r.count (min o.len maxRwCount)) else []

/-- From `SEND_PROC` through the system call and, where nothing was written, to the end. A
write to a closed descriptor fails for good. -/
def flushSend (kind : FlushKind) (ds : DataSocket κ) (r : SysRet) : FlushStep κ :=
  match offer kind ds.mSendList with
  | none => ⟨ds, none, [], [], none⟩
  | some o =>
    let accepted := ds.taken o r
    if accepted ≠ [] then
      ⟨ds, some (.written accepted.length o.want accepted.length), [], accepted, none⟩
    else if ds.isOpen ∧ r.errno = .wouldBlock then
      ⟨checkWrite { ds with mCanWrite := false }, none, [], [], none⟩
    else ⟨ds.procCloseInLoop.1, none, ds.procCloseInLoop.2, [], none⟩

/-- Behind the `for`: a full write starts over while packets are left, a short one waits
for the socket to become writable. -/
def flushTail (ds : DataSocket κ) (sendLen : ℕ) (want : ℤ) : FlushStep κ :=
  if (sendLen : ℤ) = want then
    ⟨ds, if ds.mSendList = [] then none else some .sendProc, [], [], none⟩
  else ⟨checkWrite { ds with mCanWrite := false }, none, [], [], none⟩

/-- The head of the `for`: a packet written to its end has its callback invoked, the first
one written in part keeps the rest. -/
def flushWritten (ds : DataSocket κ) (sendLen : ℕ) (want : ℤ) (tmpLen : ℕ) : FlushStep κ :=
  match ds.mSendList with
  | [] => flushTail ds sendLen want
  | b :: rest =>
    if b.left ≤ tmpLen then
      ⟨ds, some (.completed sendLen want (tmpLen - b.left)), [], [], b.mCompleteCallback⟩
    else
      flushTail { ds with mSendList := { b with left := b.left - tmpLen } :: rest } sendLen want

/-- One step of a flush that stands at `pc`; an iterator it holds is taken to be valid, and
`OutputStream.step` says what happens where it is not. -/
def flushStep (kind : FlushKind) (ds : DataSocket κ) (pc : FlushPc) (r : SysRet) : FlushStep κ :=
  match pc with
  | .sendProc => flushSend kind ds r
  | .written sendLen want tmpLen => flushWritten ds sendLen want tmpLen
  | .completed sendLen want tmpLen =>
    ⟨{ ds with mSendList := ds.mSendList.tail }, some (.written sendLen want tmpLen), [], [], none⟩

/-- What a write does: nothing to send, some bytes taken, a socket that is full, an error. -/
theorem flushSend_cases (kind : FlushKind) (ds : DataSocket κ) (r : SysRet) :
    flushSend kind ds r = ⟨ds, none, [], [], none⟩ ∨
      (∃ o, offer kind ds.mSendList = some o ∧ flushSend kind ds r =
        ⟨ds, some (.written (ds.taken o r).length o.want (ds.taken o r).length), [],
          ds.taken o r, none⟩) ∨
      flushSend kind ds r = ⟨checkWrite { ds with mCanWrite := false }, none, [], [], none⟩ ∨
      flushSend kind ds r = ⟨ds.procCloseInLoop.1, none, ds.procCloseInLoop.2, [], none⟩ := by
  unfold flushSend
  rcases offer kind ds.mSendList with _ | o
  · exact .inl rfl
  · by_cases htaken : ds.taken o r ≠ []
    · exact .inr (.inl ⟨o, rfl, if_pos htaken⟩)
    · by_cases hblock : ds.isOpen ∧ r.errno = .wouldBlock
      · exact .inr (.inr (.inl ((if_neg htaken).trans (if_pos hblock))))
      · exact .inr (.inr (.inr ((if_neg htaken).trans (if_neg hblock))))

/-- Behind the `for`, a flush starts over, returns, or waits for the socket. -/
theorem flushTail_cases (ds : DataSocket κ) (sendLen : ℕ) (want : ℤ) :
    flushTail ds sendLen want = ⟨ds, none, [], [], none⟩ ∨
      flushTail ds sendLen want = ⟨ds, some .sendProc, [], [], none⟩ ∨
      flushTail ds sendLen want =
        ⟨checkWrite { ds with mCanWrite := false }, none, [], [], none⟩ := by
  unfold flushTail
  split
  · split
    · exact .inl rfl
    · exact .inr (.inl rfl)
  · exact .inr (.inr rfl)

end DataSocket

end Netxy
