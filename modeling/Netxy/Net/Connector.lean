import Mathlib.Data.Finset.Sort
import Mathlib.Data.Int.Order.Basic
import Netxy.Lib.OrderedMap
import Netxy.Lib.Transition
import Netxy.Utils.FdSet

/-!
# `ConnectorWorkThread`

The thread that opens connections, with its three tables: the map `mConnectingInfos`, the set
`mConnectingFds` and the `fdset_s`. A step is one round of one of its loops, so a run passes
through the states between two rounds as well as those between two calls. The kernel's part
is free: which descriptor `socket` returns among those that are not open, what `connect`,
`poll` and `getsockopt` answer, and when a connection is made.
-/

namespace Netxy
namespace Connector

/-! ## The kernel's side -/

def SOCKET_ERROR : ℤ := -1

def EINPROGRESS : ℤ := 115

/-- What a descriptor is to the kernel. A socket of the thread is `connecting` until the
kernel is done with it; `handed` is one that was given to the callback, and `elsewhere` any
other open descriptor of the process. -/
inductive FdState
  | closed
  | connecting
  | connected
  | failed
  | handed
  | elsewhere
deriving DecidableEq, Repr

/-- A socket the thread has opened and not given away. -/
def FdState.IsOwn : FdState → Prop
  | .connecting | .connected | .failed => True
  | _ => False

/-- What `connect` makes of a socket. -/
def connectState (n errno : ℤ) : FdState :=
  if n = 0 then .connected else if n < 0 ∧ errno = EINPROGRESS then .connecting else .failed

/-! ## The thread -/

/-- `AsyncConnectAddr`, without the address that is only passed to `connect`. -/
structure AsyncConnectAddr where
  mTimeout : ℤ
  mUid : ℤ
deriving DecidableEq, Repr

/-- `ConnectingInfo`. `request` is not in the source: it tells which request, in the order
they were popped, the entry belongs to. -/
structure ConnectingInfo where
  startConnectTime : ℤ
  timeout : ℤ
  uid : ℤ
  request : ℕ
deriving DecidableEq, Repr

/-- An invocation of the callback, with what its descriptor was at that moment. -/
structure Call where
  fd : ℤ
  uid : ℤ
  request : ℕ
  fdState : FdState
deriving DecidableEq, Repr

/-- Where the thread is: between two calls, in the second loop of `checkConnectStatus` with
the rest of `complete_fds` to go, or in the loop of `checkTimeout` with the rest of the map. -/
inductive Loop
  | idle
  | completing (complete_fds : List ℤ) (failed_fds : Finset ℤ)
  | timing (now_time : ℤ) (it : List ℤ)
deriving DecidableEq

/-- The thread and the kernel. `requests` are the requests popped so far, `calls` the
invocations of the callback, and `closes` what each descriptor was that the thread closed. -/
structure State where
  mConnectingInfos : List (ℤ × ConnectingInfo)
  mConnectingFds : Finset ℤ
  mFDSet : FdSet
  loop : Loop
  kernel : ℤ → FdState
  requests : List AsyncConnectAddr
  calls : List Call
  closes : List FdState

/-- A new thread, in a process with the open descriptors `opened`. -/
def init (opened : Finset ℤ) : State where
  mConnectingInfos := []
  mConnectingFds := ∅
  mFDSet := FdSet.new
  loop := .idle
  kernel := fun fd => if fd ∈ opened then .elsewhere else .closed
  requests := []
  calls := []
  closes := []

namespace State

/-- `ox_socket_close(fd)`. -/
def close (s : State) (fd : ℤ) : State :=
  { s with kernel := Function.update s.kernel fd .closed, closes := s.closes ++ [s.kernel fd] }

/-- `mCallback(fd, uid)` for a request; from then on the descriptor is the user's. -/
def callback (s : State) (fd uid : ℤ) (request : ℕ) : State :=
  { s with
    calls := s.calls ++ [⟨fd, uid, request, s.kernel fd⟩]
    kernel := if fd = SOCKET_ERROR then s.kernel else Function.update s.kernel fd .handed }

/-- `ox_fdset_del(mFDSet, fd, WriteCheck | ErrorCheck)`. -/
def fdsetDel (s : State) (fd : ℤ) : State :=
  { s with mFDSet := s.mFDSet.del fd (WriteCheck ||| ErrorCheck) }

def eraseInfo (s : State) (fd : ℤ) : State :=
  { s with mConnectingInfos := OrderedMap.erase (· < ·) fd s.mConnectingInfos }

def eraseFd (s : State) (fd : ℤ) : State :=
  { s with mConnectingFds := s.mConnectingFds.erase fd }

/-- `isConnectSuccess`; `soError fd` is the value of `SO_ERROR`, `none` where `getsockopt`
fails. -/
def isConnectSuccess (s : State) (soError : ℤ → Option ℤ) (fd : ℤ) : Bool :=
  s.mFDSet.check fd WriteCheck && soError fd = some 0

/-- `checkConnectStatus` up to its second loop. -/
def checkConnectStatus (s : State) (ret : ℤ) (revents : ℤ → BitVec 16)
    (soError : ℤ → Option ℤ) : State :=
  let s := { s with mFDSet := s.mFDSet.poll revents }
  if ret ≤ 0 then s
  else
    let complete_fds := s.mConnectingFds.filter fun v =>
      s.mFDSet.check v ErrorCheck ∨ s.mFDSet.check v WriteCheck
    let failed_fds := complete_fds.filter fun v =>
      s.mFDSet.check v ErrorCheck ∨ ¬ s.isConnectSuccess soError v
    { s with loop := .completing (complete_fds.sort (· ≤ ·)) failed_fds }

/-- The body of the second loop of `checkConnectStatus`. -/
def complete (s : State) (fd : ℤ) (failed_fds : Finset ℤ) : State :=
  let s := s.fdsetDel fd
  let s :=
    match OrderedMap.find (· < ·) fd s.mConnectingInfos with
    | none => s
    | some it =>
      if fd ∈ failed_fds then
        (((s.close fd).callback SOCKET_ERROR it.uid it.request)).eraseInfo fd
      else (s.callback fd it.uid it.request).eraseInfo fd
  s.eraseFd fd

/-- The body of the loop of `checkTimeout`. -/
def checkEntry (s : State) (now_time fd : ℤ) : State :=
  match OrderedMap.find (· < ·) fd s.mConnectingInfos with
  | none => s
  | some it =>
    if it.timeout ≤ now_time - it.startConnectTime then
      ((((s.fdsetDel fd).eraseFd fd).eraseInfo fd).close fd).callback SOCKET_ERROR it.uid
        it.request
    else s

/-- The body of the loop of `pollConnectRequest`, for a request that was popped: `clientfd` is
what `socket` returns, `n` and `errno` the answer of `connect`, `now` the clock and `stale` the
memory behind the entries of the `fdset_s`. -/
def pollConnectRequest (s : State) (addr : AsyncConnectAddr) (clientfd n errno now : ℤ)
    (stale : BitVec 16) : State :=
  let request := s.requests.length
  let s := { s with requests := s.requests ++ [addr] }
  if clientfd = SOCKET_ERROR then s.callback SOCKET_ERROR addr.mUid request
  else
    let s := { s with kernel := Function.update s.kernel clientfd (connectState n errno) }
    if n < 0 then
      if errno = EINPROGRESS then
        { s with
          mConnectingInfos := OrderedMap.insert (· < ·) clientfd
            ⟨now, addr.mTimeout, addr.mUid, request⟩ s.mConnectingInfos
          mConnectingFds := insert clientfd s.mConnectingFds
          mFDSet := s.mFDSet.add clientfd (WriteCheck ||| ErrorCheck) stale }
      else (s.close clientfd).callback SOCKET_ERROR addr.mUid request
    else if n = 0 then s.callback clientfd addr.mUid request
    else s.callback SOCKET_ERROR addr.mUid request

end State

/-! ## Steps -/

/-- What happens next: the thread goes on, or something happens to a descriptor. -/
inductive Action
  | pollConnectRequest (addr : AsyncConnectAddr) (clientfd n errno now : ℤ) (stale : BitVec 16)
  | checkConnectStatus (ret : ℤ) (revents : ℤ → BitVec 16) (soError : ℤ → Option ℤ)
  | checkTimeout (now_time : ℤ)
  /-- the next round of the loop the thread is in -/
  | next
  /-- the kernel makes a connection -/
  | establish (fd : ℤ)
  /-- the kernel gives a connection up -/
  | refuse (fd : ℤ)
  /-- another part of the process opens a descriptor -/
  | openElsewhere (fd : ℤ)
  /-- another part of the process closes one of its own, or the user one that was handed out -/
  | closeElsewhere (fd : ℤ)

/-- `socket` fails, or returns a descriptor that is not open. -/
def SocketReturns (s : State) (clientfd : ℤ) : Prop :=
  clientfd = SOCKET_ERROR ∨ 0 ≤ clientfd ∧ s.kernel clientfd = .closed

instance (s : State) (clientfd : ℤ) : Decidable (SocketReturns s clientfd) :=
  inferInstanceAs (Decidable (_ ∨ _))

/-- A socket that `poll` reports writable and that has no pending error is connected. -/
def Reports (s : State) (revents : ℤ → BitVec 16) (soError : ℤ → Option ℤ) : Prop :=
  ∀ fd ∈ s.mConnectingFds, revents fd &&& CHECK_WRITE_FLAG ≠ 0 → soError fd = some 0 →
    s.kernel fd = .connected

instance (s : State) (revents : ℤ → BitVec 16) (soError : ℤ → Option ℤ) :
    Decidable (Reports s revents soError) :=
  inferInstanceAs (Decidable (∀ fd ∈ s.mConnectingFds, _))

/-- One step. -/
def step (s : State) : Action → Option State
  | .pollConnectRequest addr clientfd n errno now stale =>
    if s.loop = .idle ∧ SocketReturns s clientfd then
      some (s.pollConnectRequest addr clientfd n errno now stale)
    else none
  | .checkConnectStatus ret revents soError =>
    if s.loop = .idle ∧ Reports s revents soError then
      some (s.checkConnectStatus ret revents soError)
    else none
  | .checkTimeout now_time =>
    if s.loop = .idle then
      some { s with loop := .timing now_time (s.mConnectingInfos.map Prod.fst) }
    else none
  | .next =>
    match s.loop with
    | .idle => none
    | .completing [] _ => some { s with loop := .idle }
    | .completing (fd :: fds) failed_fds =>
      some { s.complete fd failed_fds with loop := .completing fds failed_fds }
    | .timing _ [] => some { s with loop := .idle }
    | .timing now_time (fd :: fds) =>
      some { s.checkEntry now_time fd with loop := .timing now_time fds }
  | .establish fd =>
    if s.kernel fd = .connecting then
      some { s with kernel := Function.update s.kernel fd .connected }
    else none
  | .refuse fd =>
    if s.kernel fd = .connecting then
      some { s with kernel := Function.update s.kernel fd .failed }
    else none
  | .openElsewhere fd =>
    if s.kernel fd = .closed then
      some { s with kernel := Function.update s.kernel fd .elsewhere }
    else none
  | .closeElsewhere fd =>
    if s.kernel fd = .handed ∨ s.kernel fd = .elsewhere then
      some { s with kernel := Function.update s.kernel fd .closed }
    else none

/-! ## What is claimed of every state -/

/-- Request `i` waits in `mConnectingInfos`. -/
def Pending (s : State) (i : ℕ) : Prop := ∃ fd it, (fd, it) ∈ s.mConnectingInfos ∧ it.request = i

/-- How often the callback was invoked for request `i`. -/
def timesCalled (s : State) (i : ℕ) : ℕ := s.calls.countP (·.request = i)

structure Tables (s : State) : Prop where
  sorted : OrderedMap.Sorted (· < ·) s.mConnectingInfos
  mem_fds : ∀ fd, fd ∈ s.mConnectingFds ↔ ∃ it, (fd, it) ∈ s.mConnectingInfos
  writing : s.mFDSet.Writing
  mem_fdset : ∀ fd, fd ∈ s.mFDSet.fds ↔ fd ∈ s.mConnectingFds
  limit : s.mFDSet.pollFds.length ≤ s.mFDSet.limitSize

/-- A descriptor leaves the three tables. -/
def State.drop (s : State) (fd : ℤ) : State := ((s.fdsetDel fd).eraseInfo fd).eraseFd fd

theorem Tables.find_eq_some {s : State} (hs : Tables s) {fd : ℤ} {it : ConnectingInfo} :
    OrderedMap.find (· < ·) fd s.mConnectingInfos = some it ↔ (fd, it) ∈ s.mConnectingInfos :=
  OrderedMap.find_eq_some_iff hs.sorted

theorem Tables.mem_drop_infos {s : State} (hs : Tables s) {fd : ℤ} {x : ℤ × ConnectingInfo} :
    x ∈ (s.drop fd).mConnectingInfos ↔ x ∈ s.mConnectingInfos ∧ x.1 ≠ fd :=
  OrderedMap.mem_erase hs.sorted

theorem mem_drop_fds {s : State} {fd x : ℤ} :
    x ∈ (s.drop fd).mConnectingFds ↔ x ≠ fd ∧ x ∈ s.mConnectingFds :=
  Finset.mem_erase

theorem Tables.drop {s : State} (hs : Tables s) (fd : ℤ) : Tables (s.drop fd) where
  sorted := OrderedMap.sorted_erase hs.sorted
  mem_fds x := by
    rw [mem_drop_fds, hs.mem_fds]
    simp only [hs.mem_drop_infos]
    exact ⟨fun ⟨hne, it, hit⟩ => ⟨it, hit, hne⟩, fun ⟨it, hit, hne⟩ => ⟨hne, it, hit⟩⟩
  writing := (hs.writing.del fd).1
  mem_fdset x := by
    rw [mem_drop_fds, ← hs.mem_fdset]
    exact (hs.writing.del fd).2 x
  limit := FdSet.length_del_le hs.limit fd _

/-- A descriptor that is in none of the tables enters all three. -/
theorem Tables.add {s : State} (hs : Tables s) {fd : ℤ} (h : fd ∉ s.mConnectingFds)
    (it : ConnectingInfo) (stale : BitVec 16) :
    Tables { s with
      mConnectingInfos := OrderedMap.insert (· < ·) fd it s.mConnectingInfos
      mConnectingFds := insert fd s.mConnectingFds
      mFDSet := s.mFDSet.add fd (WriteCheck ||| ErrorCheck) stale } := by
  have hnot : fd ∉ s.mFDSet.fds := fun hfd => h ((hs.mem_fdset fd).mp hfd)
  obtain ⟨hwriting, hfds⟩ := hs.writing.add hnot hs.limit stale
  refine ⟨OrderedMap.sorted_insert hs.sorted, fun x => ?_, hwriting, fun x => ?_,
    FdSet.length_add_le hs.limit fd _ stale⟩
  · simp only [Finset.mem_insert, OrderedMap.mem_insert hs.sorted, hs.mem_fds, Prod.mk.injEq]
    constructor
    · rintro (rfl | ⟨it', hit'⟩)
      · exact ⟨it, Or.inl ⟨rfl, rfl⟩⟩
      · refine ⟨it', Or.inr ⟨hit', ?_⟩⟩
        rintro rfl
        exact h ((hs.mem_fds x).mpr ⟨it', hit'⟩)
    · rintro ⟨it', ⟨rfl, -⟩ | ⟨hit', -⟩⟩
      · exact Or.inl rfl
      · exact Or.inr ⟨it', hit'⟩
  · simp only [hfds, Finset.mem_insert, hs.mem_fdset]

/-! ## The invariant -/

/-- The descriptors in the tables are sockets of the thread. -/
def Owned (s : State) : Prop := ∀ fd ∈ s.mConnectingFds, fd ≠ SOCKET_ERROR ∧ (s.kernel fd).IsOwn

/-- The records agree with the map. -/
structure Recorded (s : State) : Prop where
  entry : ∀ fd it, (fd, it) ∈ s.mConnectingInfos →
    ∃ addr, s.requests[it.request]? = some addr ∧ it.uid = addr.mUid
  unique : ∀ fd it fd' it', (fd, it) ∈ s.mConnectingInfos → (fd', it') ∈ s.mConnectingInfos →
    it.request = it'.request → fd = fd'
  once : ∀ i < s.requests.length,
    (Pending s i ∧ timesCalled s i = 0) ∨ (¬ Pending s i ∧ timesCalled s i = 1)
  called : ∀ c ∈ s.calls, ∃ addr, s.requests[c.request]? = some addr ∧ c.uid = addr.mUid
  connected : ∀ c ∈ s.calls, c.fd ≠ SOCKET_ERROR → c.fdState = .connected
  own_closed : ∀ st ∈ s.closes, st.IsOwn

/-- What a loop has still to visit is in the tables, each descriptor once; a descriptor that
`checkConnectStatus` took for connected is. -/
def Visits (s : State) : Prop :=
  match s.loop with
  | .idle => True
  | .completing fds failed_fds =>
    fds.Nodup ∧ ∀ fd ∈ fds, fd ∈ s.mConnectingFds ∧ (fd ∉ failed_fds → s.kernel fd = .connected)
  | .timing _ fds => fds.Nodup ∧ ∀ fd ∈ fds, fd ∈ s.mConnectingFds

structure Inv (s : State) : Prop where
  tables : Tables s
  owned : Owned s
  recorded : Recorded s
  visits : Visits s

theorem inv_init (opened : Finset ℤ) : Inv (init opened) where
  tables :=
    { sorted := List.Pairwise.nil
      mem_fds := fun fd => by simp [init]
      writing := FdSet.writing_new
      mem_fdset := fun fd => by simp [init, FdSet.new, FdSet.fds, FdSet.upstepPollfd]
      limit := Nat.zero_le _ }
  owned := by simp [Owned, init]
  recorded :=
    { entry := by simp [init]
      unique := by simp [init]
      once := by simp [init]
      called := by simp [init]
      connected := by simp [init]
      own_closed := by simp [init] }
  visits := trivial

/-- The tables are read from three fields. -/
theorem Tables.of_eq {s t : State} (hs : Tables s)
    (hinfos : t.mConnectingInfos = s.mConnectingInfos)
    (hfds : t.mConnectingFds = s.mConnectingFds) (hset : t.mFDSet = s.mFDSet) : Tables t where
  sorted := hinfos ▸ hs.sorted
  mem_fds := hinfos ▸ hfds ▸ hs.mem_fds
  writing := hset ▸ hs.writing
  mem_fdset := hset ▸ hfds ▸ hs.mem_fdset
  limit := hset ▸ hs.limit

/-! ## The records -/

/-- The records are read from four fields. -/
theorem Recorded.of_eq {s t : State} (hs : Recorded s)
    (hinfos : t.mConnectingInfos = s.mConnectingInfos) (hrequests : t.requests = s.requests)
    (hcalls : t.calls = s.calls) (hcloses : t.closes = s.closes) : Recorded t where
  entry := by
    rw [hinfos, hrequests]
    exact hs.entry
  unique := by
    rw [hinfos]
    exact hs.unique
  once := by
    unfold Pending timesCalled
    rw [hinfos, hrequests, hcalls]
    exact hs.once
  called := by
    rw [hrequests, hcalls]
    exact hs.called
  connected := by
    rw [hcalls]
    exact hs.connected
  own_closed := by
    rw [hcloses]
    exact hs.own_closed

/-- The requests after one more, `addr`. -/
theorem requests_append {s b : State} {addr : AsyncConnectAddr}
    (h : b.requests = s.requests ++ [addr]) :
    (∀ (i : ℕ) (a : AsyncConnectAddr), s.requests[i]? = some a → b.requests[i]? = some a) ∧
      b.requests[s.requests.length]? = some addr := by
  constructor
  · intro i a hi
    rw [h, List.getElem?_append_left (List.getElem?_eq_some_iff.mp hi).1, hi]
  · rw [h, List.getElem?_concat_length]

/-- A callback for one of the requests, with a connected descriptor or an error. -/
theorem Recorded.calls_callback {s b : State} (hs : Recorded s) (hcalls : b.calls = s.calls)
    (hold : ∀ (i : ℕ) (a : AsyncConnectAddr), s.requests[i]? = some a → b.requests[i]? = some a)
    {r uid : ℤ} {request : ℕ} (haddr : ∃ a, b.requests[request]? = some a ∧ uid = a.mUid)
    (hr : r ≠ SOCKET_ERROR → b.kernel r = .connected) :
    ∀ c ∈ (b.callback r uid request).calls,
      (∃ a, b.requests[c.request]? = some a ∧ c.uid = a.mUid) ∧
        (c.fd ≠ SOCKET_ERROR → c.fdState = .connected) := by
  intro c hc
  have hc' : c ∈ b.calls ++ [⟨r, uid, request, b.kernel r⟩] := hc
  rw [hcalls, List.mem_append, List.mem_singleton] at hc'
  rcases hc' with hc' | rfl
  · obtain ⟨a, ha, huid⟩ := hs.called c hc'
    exact ⟨⟨a, hold c.request a ha, huid⟩, hs.connected c hc'⟩
  · exact ⟨haddr, hr⟩

theorem timesCalled_callback (s : State) (fd uid : ℤ) (request i : ℕ) :
    timesCalled (s.callback fd uid request) i =
      timesCalled s i + if request = i then 1 else 0 := by
  simp only [timesCalled, State.callback, List.countP_append, List.countP_singleton,
    decide_eq_true_eq]

theorem Recorded.request_lt {s : State} (hs : Recorded s) {fd : ℤ} {it : ConnectingInfo}
    (hit : (fd, it) ∈ s.mConnectingInfos) : it.request < s.requests.length := by
  obtain ⟨addr, haddr, -⟩ := hs.entry fd it hit
  exact (List.getElem?_eq_some_iff.mp haddr).1

/-- Nothing is recorded of the request that is popped next. -/
theorem Recorded.next_request {s : State} (hs : Recorded s) :
    ¬ Pending s s.requests.length ∧ timesCalled s s.requests.length = 0 := by
  constructor
  · rintro ⟨fd, it, hit, heq⟩
    have hlt := hs.request_lt hit
    omega
  · rw [timesCalled, List.countP_eq_zero]
    intro c hc heq
    obtain ⟨addr, haddr, -⟩ := hs.called c hc
    have hlt := (List.getElem?_eq_some_iff.mp haddr).1
    have hreq : c.request = s.requests.length := of_decide_eq_true heq
    omega

/-- The callback for an entry, which leaves the map. `b` is the state right before it. -/
theorem Recorded.complete {s b : State} (hs : Recorded s) (ht : Tables s) {fd r : ℤ}
    {it : ConnectingInfo} (hit : (fd, it) ∈ s.mConnectingInfos)
    (hinfos : b.mConnectingInfos = s.mConnectingInfos) (hrequests : b.requests = s.requests)
    (hcalls : b.calls = s.calls) (hcloses : ∀ st ∈ b.closes, st.IsOwn)
    (hr : r ≠ SOCKET_ERROR → b.kernel r = .connected) :
    Recorded ((b.callback r it.uid it.request).drop fd) := by
  have hmem : ∀ x, x ∈ ((b.callback r it.uid it.request).drop fd).mConnectingInfos ↔
      x ∈ s.mConnectingInfos ∧ x.1 ≠ fd := by
    intro x
    rw [← hinfos]
    exact OrderedMap.mem_erase (hinfos ▸ ht.sorted)
  have htimes : ∀ i, timesCalled ((b.callback r it.uid it.request).drop fd) i =
      timesCalled s i + if it.request = i then 1 else 0 := by
    intro i
    calc timesCalled ((b.callback r it.uid it.request).drop fd) i
        = timesCalled (b.callback r it.uid it.request) i := rfl
      _ = timesCalled b i + if it.request = i then 1 else 0 := timesCalled_callback b r _ _ i
      _ = timesCalled s i + if it.request = i then 1 else 0 := by
          rw [timesCalled, hcalls]
          rfl
  -- no two entries bear one request, so erasing `fd` takes away exactly the request of `it`
  have hpending : ∀ i, Pending ((b.callback r it.uid it.request).drop fd) i ↔
      Pending s i ∧ it.request ≠ i := by
    intro i
    constructor
    · rintro ⟨fd', it', hit', rfl⟩
      obtain ⟨hit', hne⟩ := (hmem _).mp hit'
      exact ⟨⟨fd', it', hit', rfl⟩, fun heq => hne (hs.unique fd' it' fd it hit' hit heq.symm)⟩
    · rintro ⟨⟨fd', it', hit', rfl⟩, hne⟩
      refine ⟨fd', it', (hmem _).mpr ⟨hit', ?_⟩, rfl⟩
      rintro rfl
      have heq : some it' = some it :=
        (ht.find_eq_some.mpr hit').symm.trans (ht.find_eq_some.mpr hit)
      exact hne (congrArg ConnectingInfo.request (Option.some.inj heq)).symm
  have hcall := hs.calls_callback hcalls (fun i a hi => hrequests.symm ▸ hi)
    (hrequests.symm ▸ hs.entry fd it hit) hr
  refine ⟨fun fd' it' h => ?_, fun fd₁ it₁ fd₂ it₂ h₁ h₂ => ?_, fun i hi => ?_,
    fun c hc => (hcall c hc).1, fun c hc => (hcall c hc).2, hcloses⟩
  · obtain ⟨addr, haddr, huid⟩ := hs.entry fd' it' ((hmem _).mp h).1
    exact ⟨addr, hrequests.symm ▸ haddr, huid⟩
  · exact hs.unique fd₁ it₁ fd₂ it₂ ((hmem _).mp h₁).1 ((hmem _).mp h₂).1
  · have hi' : i < s.requests.length := hrequests ▸ hi
    rw [hpending, htimes]
    by_cases heq : it.request = i
    · -- the request of the entry waited, and no longer does
      rcases hs.once i hi' with ⟨-, hzero⟩ | ⟨hnot, -⟩
      · rw [if_pos heq, hzero]
        exact Or.inr ⟨fun h => h.2 heq, rfl⟩
      · exact absurd ⟨fd, it, hit, heq⟩ hnot
    · rw [if_neg heq, Nat.add_zero]
      rcases hs.once i hi' with ⟨hwait, hzero⟩ | ⟨hnot, hone⟩
      · exact Or.inl ⟨⟨hwait, heq⟩, hzero⟩
      · exact Or.inr ⟨fun h => hnot h.1, hone⟩

/-- The callback for a request that was just popped. -/
theorem Recorded.answer {s b : State} (hs : Recorded s) {r : ℤ} {addr : AsyncConnectAddr}
    (hinfos : b.mConnectingInfos = s.mConnectingInfos)
    (hrequests : b.requests = s.requests ++ [addr])
    (hcalls : b.calls = s.calls) (hcloses : ∀ st ∈ b.closes, st.IsOwn)
    (hr : r ≠ SOCKET_ERROR → b.kernel r = .connected) :
    Recorded (b.callback r addr.mUid s.requests.length) := by
  obtain ⟨hold, hnew⟩ := requests_append hrequests
  have htimes : ∀ i, timesCalled (b.callback r addr.mUid s.requests.length) i =
      timesCalled s i + if s.requests.length = i then 1 else 0 := by
    intro i
    rw [timesCalled_callback, timesCalled, hcalls]
    rfl
  have hpending : ∀ i, Pending (b.callback r addr.mUid s.requests.length) i ↔ Pending s i := by
    intro i
    unfold Pending
    rw [← hinfos]
    rfl
  have hcall := hs.calls_callback hcalls hold ⟨addr, hnew, rfl⟩ hr
  refine ⟨fun fd it h => ?_, fun fd it fd' it' h h' => ?_, fun i hi => ?_,
    fun c hc => (hcall c hc).1, fun c hc => (hcall c hc).2, hcloses⟩
  · obtain ⟨a, ha, huid⟩ := hs.entry fd it (hinfos ▸ h)
    exact ⟨a, hold _ a ha, huid⟩
  · exact hs.unique fd it fd' it' (hinfos ▸ h) (hinfos ▸ h')
  · have hi' : i < s.requests.length + 1 := by
      have hlen : i < b.requests.length := hi
      rwa [hrequests, List.length_append, List.length_singleton] at hlen
    rw [hpending, htimes]
    by_cases heq : s.requests.length = i
    · obtain ⟨hnot, hzero⟩ := hs.next_request
      rw [← heq, if_pos rfl, hzero]
      exact Or.inr ⟨hnot, rfl⟩
    · rw [if_neg heq, Nat.add_zero]
      exact hs.once i (by omega)

/-- A request that was just popped enters the map. `b` is the state right after it. -/
theorem Recorded.wait {s b : State} (hs : Recorded s) (ht : Tables s) {fd : ℤ}
    (hfd : fd ∉ s.mConnectingFds) {addr : AsyncConnectAddr} {now : ℤ}
    (hinfos : b.mConnectingInfos = OrderedMap.insert (· < ·) fd
      ⟨now, addr.mTimeout, addr.mUid, s.requests.length⟩ s.mConnectingInfos)
    (hrequests : b.requests = s.requests ++ [addr])
    (hcalls : b.calls = s.calls) (hcloses : b.closes = s.closes) : Recorded b := by
  obtain ⟨hold, hnew⟩ := requests_append hrequests
  -- `fd` is not in the map yet, so the insertion overwrites no entry
  have hmem : ∀ x, x ∈ b.mConnectingInfos ↔
      x = (fd, ⟨now, addr.mTimeout, addr.mUid, s.requests.length⟩) ∨ x ∈ s.mConnectingInfos := by
    intro x
    rw [hinfos, OrderedMap.mem_insert ht.sorted]
    refine or_congr_right (and_iff_left_of_imp ?_)
    rintro hx rfl
    exact hfd ((ht.mem_fds x.1).mpr ⟨x.2, hx⟩)
  have hpending : ∀ i, Pending b i ↔ Pending s i ∨ i = s.requests.length := by
    intro i
    constructor
    · rintro ⟨fd', it', hit', rfl⟩
      rcases (hmem _).mp hit' with heq | hit'
      · exact Or.inr (congrArg (fun x => x.2.request) heq)
      · exact Or.inl ⟨fd', it', hit', rfl⟩
    · rintro (⟨fd', it', hit', rfl⟩ | rfl)
      · exact ⟨fd', it', (hmem _).mpr (Or.inr hit'), rfl⟩
      · exact ⟨fd, _, (hmem _).mpr (Or.inl rfl), rfl⟩
  have htimes : ∀ i, timesCalled b i = timesCalled s i := by
    intro i
    rw [timesCalled, hcalls]
    rfl
  refine ⟨fun fd' it' h => ?_, fun fd₁ it₁ fd₂ it₂ h₁ h₂ heq => ?_, fun i hi => ?_, ?_, ?_, ?_⟩
  · rcases (hmem _).mp h with h | h
    · cases h
      exact ⟨addr, hnew, rfl⟩
    · obtain ⟨a, ha, huid⟩ := hs.entry fd' it' h
      exact ⟨a, hold _ a ha, huid⟩
  · -- the request of the new entry is later than that of every other
    rcases (hmem _).mp h₁ with h₁ | h₁
    · rcases (hmem _).mp h₂ with h₂ | h₂
      · exact (congrArg Prod.fst h₁).trans (congrArg Prod.fst h₂).symm
      · cases h₁
        have hlt := hs.request_lt h₂
        simp only at heq
        omega
    · rcases (hmem _).mp h₂ with h₂ | h₂
      · cases h₂
        have hlt := hs.request_lt h₁
        simp only at heq
        omega
      · exact hs.unique fd₁ it₁ fd₂ it₂ h₁ h₂ heq
  · rw [hrequests, List.length_append, List.length_singleton] at hi
    rw [hpending, htimes]
    by_cases heq : i = s.requests.length
    · obtain ⟨-, hzero⟩ := hs.next_request
      rw [heq]
      exact Or.inl ⟨Or.inr rfl, hzero⟩
    · rcases hs.once i (by omega) with ⟨hwait, hzero⟩ | ⟨hnot, hone⟩
      · exact Or.inl ⟨Or.inl hwait, hzero⟩
      · exact Or.inr ⟨fun h => h.elim hnot heq, hone⟩
  · intro c hc
    obtain ⟨a, ha, huid⟩ := hs.called c (hcalls ▸ hc)
    exact ⟨a, hold _ a ha, huid⟩
  · exact fun c hc => hs.connected c (hcalls ▸ hc)
  · exact fun st hst => hs.own_closed st (hcloses ▸ hst)

/-! ## One step -/

/-- The kernel may change what a descriptor is, as long as the sockets of the thread stay its
own and connections stay made. -/
theorem Inv.kernel {s : State} (hs : Inv s) {k : ℤ → FdState}
    (hown : ∀ fd, (s.kernel fd).IsOwn → (k fd).IsOwn)
    (hconnected : ∀ fd, s.kernel fd = .connected → k fd = .connected) :
    Inv { s with kernel := k } where
  tables := hs.tables.of_eq rfl rfl rfl
  owned fd hfd := ⟨(hs.owned fd hfd).1, hown fd (hs.owned fd hfd).2⟩
  recorded := hs.recorded.of_eq rfl rfl rfl rfl
  visits := by
    have hv := hs.visits
    unfold Visits at hv ⊢
    cases hloop : s.loop with
    | idle => trivial
    | completing fds failed_fds =>
      simp only [hloop] at hv ⊢
      exact ⟨hv.1, fun fd hfd => ⟨(hv.2 fd hfd).1, fun h => hconnected fd ((hv.2 fd hfd).2 h)⟩⟩
    | timing now_time fds =>
      simp only [hloop] at hv ⊢
      exact hv

/-- The thread enters a loop, or leaves one. -/
theorem Inv.goto {s : State} (hs : Inv s) {l : Loop} (hv : Visits { s with loop := l }) :
    Inv { s with loop := l } where
  tables := hs.tables.of_eq rfl rfl rfl
  owned := hs.owned
  recorded := hs.recorded.of_eq rfl rfl rfl rfl
  visits := hv

/-- One descriptor becomes `st`, which was not the thread's own before or is its own now. -/
theorem Inv.update {s : State} (hs : Inv s) {fd : ℤ} {st : FdState}
    (hown : (s.kernel fd).IsOwn → st.IsOwn) (hconnected : s.kernel fd ≠ .connected) :
    Inv { s with kernel := Function.update s.kernel fd st } := by
  apply hs.kernel
  · intro x hx
    by_cases h : x = fd
    · subst h
      rw [Function.update_self]
      exact hown hx
    · rwa [Function.update_of_ne h]
  · intro x hx
    by_cases h : x = fd
    · subst h
      exact absurd hx hconnected
    · rwa [Function.update_of_ne h]

/-- One descriptor leaves the tables, and nothing else changes for the others. -/
theorem Inv.leave {s t : State} (hs : Inv s) {fd : ℤ} (ht : Tables t) (hr : Recorded t)
    (hfds : ∀ x, x ∈ t.mConnectingFds ↔ x ≠ fd ∧ x ∈ s.mConnectingFds)
    (hkernel : ∀ x, x ≠ fd → t.kernel x = s.kernel x) (hv : Visits t) : Inv t where
  tables := ht
  owned x hx := by
    obtain ⟨hne, hx⟩ := (hfds x).mp hx
    rw [hkernel x hne]
    exact hs.owned x hx
  recorded := hr
  visits := hv

theorem kernel_callback_of_ne (s : State) {fd x : ℤ} (h : x ≠ fd) (uid : ℤ) (request : ℕ) :
    (s.callback fd uid request).kernel x = s.kernel x := by
  simp only [State.callback]
  split
  · rfl
  · exact Function.update_of_ne h _ _

theorem kernel_callback_error (s : State) (uid : ℤ) (request : ℕ) :
    (s.callback SOCKET_ERROR uid request).kernel = s.kernel := by
  simp only [State.callback, if_true]

/-- The descriptor is closed, and the callback is told of an error. -/
theorem Inv.fail {s : State} (hs : Inv s) {fd : ℤ} {it : ConnectingInfo}
    (hit : (fd, it) ∈ s.mConnectingInfos) {l : Loop}
    (hv : Visits { ((s.close fd).callback SOCKET_ERROR it.uid it.request).drop fd with
      loop := l }) :
    Inv { ((s.close fd).callback SOCKET_ERROR it.uid it.request).drop fd with loop := l } := by
  have hfd : fd ∈ s.mConnectingFds := (hs.tables.mem_fds fd).mpr ⟨it, hit⟩
  have hcloses : ∀ st ∈ (s.close fd).closes, st.IsOwn := by
    intro st hst
    rcases List.mem_append.mp hst with hst | hst
    · exact hs.recorded.own_closed st hst
    · rw [List.mem_singleton.mp hst]
      exact (hs.owned fd hfd).2
  have hr := hs.recorded.complete (b := s.close fd) hs.tables hit rfl rfl rfl hcloses
    (fun h => absurd rfl h)
  refine hs.leave ((hs.tables.drop fd).of_eq rfl rfl rfl) (hr.of_eq rfl rfl rfl rfl) (fun x => mem_drop_fds) (fun x hx => ?_) hv
  calc ((s.close fd).callback SOCKET_ERROR it.uid it.request).kernel x
      = (s.close fd).kernel x := by rw [kernel_callback_error]
    _ = s.kernel x := Function.update_of_ne hx _ _

/-- The descriptor is handed to the callback. -/
theorem Inv.succeed {s : State} (hs : Inv s) {fd : ℤ} {it : ConnectingInfo}
    (hit : (fd, it) ∈ s.mConnectingInfos) (hconnected : s.kernel fd = .connected) {l : Loop}
    (hv : Visits { (s.callback fd it.uid it.request).drop fd with loop := l }) :
    Inv { (s.callback fd it.uid it.request).drop fd with loop := l } := by
  have hr := hs.recorded.complete (b := s) hs.tables hit rfl rfl rfl hs.recorded.own_closed
    (fun _ => hconnected)
  exact hs.leave ((hs.tables.drop fd).of_eq rfl rfl rfl) (hr.of_eq rfl rfl rfl rfl)
    (fun x => mem_drop_fds) (fun x hx => kernel_callback_of_ne s hx it.uid it.request) hv

/-- Its own sockets are no descriptors that `socket` may return. -/
theorem Inv.notMem_of_closed {s : State} (hs : Inv s) {fd : ℤ} (h : s.kernel fd = .closed) :
    fd ∉ s.mConnectingFds := by
  intro hfd
  have hown := (hs.owned fd hfd).2
  rw [h] at hown
  exact hown

theorem complete_eq {s : State} {fd : ℤ} {it : ConnectingInfo}
    (hfind : OrderedMap.find (· < ·) fd s.mConnectingInfos = some it) (failed_fds : Finset ℤ) :
    s.complete fd failed_fds =
      if fd ∈ failed_fds then ((s.close fd).callback SOCKET_ERROR it.uid it.request).drop fd
      else (s.callback fd it.uid it.request).drop fd := by
  have hfind' : OrderedMap.find (· < ·) fd (s.fdsetDel fd).mConnectingInfos = some it := hfind
  unfold State.complete
  simp only [hfind']
  split <;> rfl

/-- One round of the second loop of `checkConnectStatus`. -/
theorem complete_inv {s : State} (hs : Inv s) {fd : ℤ} {fds : List ℤ} {failed_fds : Finset ℤ}
    (hloop : s.loop = .completing (fd :: fds) failed_fds) :
    Inv { s.complete fd failed_fds with loop := .completing fds failed_fds } := by
  have hv := hs.visits
  unfold Visits at hv
  simp only [hloop] at hv
  obtain ⟨hnodup, hvisit⟩ := hv
  rw [List.nodup_cons] at hnodup
  obtain ⟨hmem, hconnected⟩ := hvisit fd List.mem_cons_self
  obtain ⟨it, hit⟩ := (hs.tables.mem_fds fd).mp hmem
  -- no descriptor is visited twice, so this round leaves those still to come alone
  have hne : ∀ x ∈ fds, x ≠ fd := fun x hx heq => hnodup.1 (heq ▸ hx)
  have hrest : ∀ x ∈ fds, x ∈ s.mConnectingFds ∧ (x ∉ failed_fds → s.kernel x = .connected) :=
    fun x hx => hvisit x (List.mem_cons_of_mem fd hx)
  rw [complete_eq (hs.tables.find_eq_some.mpr hit)]
  by_cases hfailed : fd ∈ failed_fds
  · rw [if_pos hfailed]
    apply hs.fail hit
    refine ⟨hnodup.2, fun x hx => ⟨mem_drop_fds.mpr ⟨hne x hx, (hrest x hx).1⟩, fun h => ?_⟩⟩
    calc ((s.close fd).callback SOCKET_ERROR it.uid it.request).kernel x
        = (s.close fd).kernel x := by rw [kernel_callback_error]
      _ = s.kernel x := Function.update_of_ne (hne x hx) _ _
      _ = .connected := (hrest x hx).2 h
  · rw [if_neg hfailed]
    apply hs.succeed hit (hconnected hfailed)
    refine ⟨hnodup.2, fun x hx => ⟨mem_drop_fds.mpr ⟨hne x hx, (hrest x hx).1⟩, fun h => ?_⟩⟩
    calc (s.callback fd it.uid it.request).kernel x
        = s.kernel x := kernel_callback_of_ne s (hne x hx) it.uid it.request
      _ = .connected := (hrest x hx).2 h

/-- One round of the loop of `checkTimeout`. -/
theorem checkEntry_inv {s : State} (hs : Inv s) {now_time fd : ℤ} {fds : List ℤ}
    (hloop : s.loop = .timing now_time (fd :: fds)) :
    Inv { s.checkEntry now_time fd with loop := .timing now_time fds } := by
  have hv := hs.visits
  unfold Visits at hv
  simp only [hloop] at hv
  obtain ⟨hnodup, hvisit⟩ := hv
  rw [List.nodup_cons] at hnodup
  obtain ⟨it, hit⟩ := (hs.tables.mem_fds fd).mp (hvisit fd List.mem_cons_self)
  have hrest : ∀ x ∈ fds, x ∈ s.mConnectingFds :=
    fun x hx => hvisit x (List.mem_cons_of_mem fd hx)
  have hfind := hs.tables.find_eq_some.mpr hit
  unfold State.checkEntry
  simp only [hfind]
  split
  · -- the time is up: what is still to be visited are other descriptors
    apply hs.fail hit
    refine ⟨hnodup.2, fun x hx => mem_drop_fds.mpr ⟨?_, hrest x hx⟩⟩
    rintro rfl
    exact hnodup.1 hx
  · exact hs.goto ⟨hnodup.2, hrest⟩

/-- `checkConnectStatus` up to its second loop. -/
theorem checkConnectStatus_inv {s : State} (hs : Inv s) {ret : ℤ} {revents : ℤ → BitVec 16}
    {soError : ℤ → Option ℤ} (hidle : s.loop = .idle) (hreports : Reports s revents soError) :
    Inv (s.checkConnectStatus ret revents soError) := by
  have htab : Tables { s with mFDSet := s.mFDSet.poll revents } :=
    { sorted := hs.tables.sorted
      mem_fds := hs.tables.mem_fds
      writing := hs.tables.writing.poll revents
      mem_fdset := fun fd => by
        rw [FdSet.fds_poll]
        exact hs.tables.mem_fdset fd
      limit := by
        simp only [FdSet.poll, List.length_map]
        exact hs.tables.limit }
  unfold State.checkConnectStatus
  simp only
  split
  · -- `poll` has nothing to report, and the round ends
    refine ⟨htab, hs.owned, hs.recorded.of_eq rfl rfl rfl rfl, ?_⟩
    unfold Visits
    simp only [hidle]
  · refine ⟨htab.of_eq rfl rfl rfl, hs.owned, hs.recorded.of_eq rfl rfl rfl rfl,
      Finset.sort_nodup _ _, fun fd hfd => ?_⟩
    rw [Finset.mem_sort, Finset.mem_filter] at hfd
    obtain ⟨hmem, hcheck⟩ := hfd
    refine ⟨hmem, fun hnot => ?_⟩
    -- no error was reported, the socket is writable, and `SO_ERROR` is zero
    rw [Finset.mem_filter, not_and] at hnot
    have hok := hnot (Finset.mem_filter.mpr ⟨hmem, hcheck⟩)
    rw [not_or, not_not] at hok
    have hsuccess : (s.mFDSet.poll revents).check fd WriteCheck = true ∧ soError fd = some 0 := by
      simpa only [State.isConnectSuccess, Bool.and_eq_true, decide_eq_true_eq] using hok.2
    rw [(FdSet.check_poll ((hs.tables.mem_fdset fd).mpr hmem) revents).1, decide_eq_true_eq]
      at hsuccess
    exact hreports fd hmem hsuccess.1 hsuccess.2

/-- A request was answered, and the tables are as they were. -/
theorem Inv.answered {s t : State} (hs : Inv s) (hr : Recorded t)
    (hinfos : t.mConnectingInfos = s.mConnectingInfos)
    (hfds : t.mConnectingFds = s.mConnectingFds) (hset : t.mFDSet = s.mFDSet)
    (hloop : t.loop = .idle) (hkernel : ∀ x ∈ s.mConnectingFds, t.kernel x = s.kernel x) :
    Inv t where
  tables := hs.tables.of_eq hinfos hfds hset
  owned x hx := by
    rw [hfds] at hx
    rw [hkernel x hx]
    exact hs.owned x hx
  recorded := hr
  visits := by
    unfold Visits
    simp only [hloop]

/-- One round of the loop of `pollConnectRequest`. -/
theorem pollConnectRequest_inv {s : State} (hs : Inv s) {addr : AsyncConnectAddr}
    {clientfd n errno now : ℤ} {stale : BitVec 16} (hidle : s.loop = .idle)
    (hsocket : SocketReturns s clientfd) :
    Inv (s.pollConnectRequest addr clientfd n errno now stale) := by
  unfold State.pollConnectRequest
  simp only
  by_cases herror : clientfd = SOCKET_ERROR
  · rw [if_pos herror]
    refine hs.answered (hs.recorded.answer (b := { s with requests := s.requests ++ [addr] }) rfl
      rfl rfl hs.recorded.own_closed (fun h => absurd rfl h)) rfl rfl rfl hidle (fun x _ => ?_)
    rw [kernel_callback_error]
  rw [if_neg herror]
  have hclosed : s.kernel clientfd = .closed := (hsocket.resolve_left herror).2
  have hnot : clientfd ∉ s.mConnectingFds := hs.notMem_of_closed hclosed
  -- the kernel's answer concerns no descriptor of the tables
  have hother : ∀ (st : FdState), ∀ x ∈ s.mConnectingFds,
      Function.update s.kernel clientfd st x = s.kernel x :=
    fun st x hx => Function.update_of_ne (ne_of_mem_of_not_mem hx hnot) _ _
  by_cases hneg : n < 0
  · rw [if_pos hneg]
    by_cases hprogress : errno = EINPROGRESS
    · -- the connection is on its way, and the request waits in the tables
      have hstate : connectState n errno = .connecting := by
        rw [connectState, if_neg (by omega), if_pos ⟨hneg, hprogress⟩]
      rw [if_pos hprogress]
      have htab := hs.tables.add hnot ⟨now, addr.mTimeout, addr.mUid, s.requests.length⟩ stale
      refine ⟨htab.of_eq rfl rfl rfl, fun x hx => ?_, hs.recorded.wait hs.tables hnot rfl rfl rfl rfl, ?_⟩
      · rcases Finset.mem_insert.mp hx with rfl | hx
        · refine ⟨herror, ?_⟩
          simp only [hstate, Function.update_self]
          trivial
        · simp only [hother _ x hx]
          exact hs.owned x hx
      · unfold Visits
        simp only [hidle]
    · -- the connection failed, and the socket is closed before the callback
      have hstate : connectState n errno = .failed := by
        rw [connectState, if_neg (by omega), if_neg fun h => hprogress h.2]
      rw [if_neg hprogress, hstate]
      refine hs.answered (hs.recorded.answer rfl rfl rfl (fun st hst => ?_)
        (fun h => absurd rfl h)) rfl rfl rfl hidle (fun x hx => ?_)
      · rcases List.mem_append.mp hst with hst | hst
        · exact hs.recorded.own_closed st hst
        · rw [List.mem_singleton.mp hst]
          simp only [Function.update_self]
          trivial
      · rw [kernel_callback_error]
        simp only [State.close, Function.update_idem]
        exact hother _ x hx
  · rw [if_neg hneg]
    by_cases hzero : n = 0
    · -- the connection was made at once
      have hstate : connectState n errno = .connected := by
        rw [connectState, if_pos hzero]
      rw [if_pos hzero, hstate]
      refine hs.answered (hs.recorded.answer rfl rfl rfl hs.recorded.own_closed (fun _ => ?_))
        rfl rfl rfl hidle (fun x hx => ?_)
      · exact Function.update_self _ _ _
      · rw [kernel_callback_of_ne _ (ne_of_mem_of_not_mem hx hnot)]
        exact hother _ x hx
    · -- any other answer is reported as an error, and the socket is left open
      rw [if_neg hzero]
      refine hs.answered (hs.recorded.answer rfl rfl rfl hs.recorded.own_closed
        (fun h => absurd rfl h)) rfl rfl rfl hidle (fun x hx => ?_)
      rw [kernel_callback_error]
      exact hother _ x hx

theorem step_inv {s t : State} {a : Action} (hs : Inv s) (h : step s a = some t) : Inv t := by
  cases a with
  | pollConnectRequest addr clientfd n errno now stale =>
    simp only [step, Option.ite_none_right_eq_some, Option.some.injEq] at h
    obtain ⟨⟨hidle, hsocket⟩, rfl⟩ := h
    exact pollConnectRequest_inv hs hidle hsocket
  | checkConnectStatus ret revents soError =>
    simp only [step, Option.ite_none_right_eq_some, Option.some.injEq] at h
    obtain ⟨⟨hidle, hreports⟩, rfl⟩ := h
    exact checkConnectStatus_inv hs hidle hreports
  | checkTimeout now_time =>
    simp only [step, Option.ite_none_right_eq_some, Option.some.injEq] at h
    obtain ⟨hidle, rfl⟩ := h
    -- the iterator meets the keys of `mConnectingInfos` in order, each of them once
    refine hs.goto ⟨?_, fun fd hfd => ?_⟩
    · exact hs.tables.sorted.nodup_keys
    · obtain ⟨x, hx, rfl⟩ := List.mem_map.mp hfd
      exact (hs.tables.mem_fds x.1).mpr ⟨x.2, hx⟩
  | next =>
    cases hloop : s.loop with
    | idle => simp only [step, hloop, reduceCtorEq] at h
    | completing fds failed_fds =>
      cases fds with
      | nil =>
        simp only [step, hloop, Option.some.injEq] at h
        subst h
        exact hs.goto trivial
      | cons fd fds =>
        simp only [step, hloop, Option.some.injEq] at h
        subst h
        exact complete_inv hs hloop
    | timing now_time fds =>
      cases fds with
      | nil =>
        simp only [step, hloop, Option.some.injEq] at h
        subst h
        exact hs.goto trivial
      | cons fd fds =>
        simp only [step, hloop, Option.some.injEq] at h
        subst h
        exact checkEntry_inv hs hloop
  | establish fd =>
    simp only [step, Option.ite_none_right_eq_some, Option.some.injEq] at h
    obtain ⟨hconnecting, rfl⟩ := h
    exact hs.update (fun _ => trivial) (by rw [hconnecting]; decide)
  | refuse fd =>
    simp only [step, Option.ite_none_right_eq_some, Option.some.injEq] at h
    obtain ⟨hconnecting, rfl⟩ := h
    exact hs.update (fun _ => trivial) (by rw [hconnecting]; decide)
  | openElsewhere fd =>
    simp only [step, Option.ite_none_right_eq_some, Option.some.injEq] at h
    obtain ⟨hclosed, rfl⟩ := h
    exact hs.update (by rw [hclosed]; exact False.elim) (by rw [hclosed]; decide)
  | closeElsewhere fd =>
    simp only [step, Option.ite_none_right_eq_some, Option.some.injEq] at h
    obtain ⟨hopen, rfl⟩ := h
    rcases hopen with hopen | hopen
    · exact hs.update (by rw [hopen]; exact False.elim) (by rw [hopen]; decide)
    · exact hs.update (by rw [hopen]; exact False.elim) (by rw [hopen]; decide)

end Connector
end Netxy
