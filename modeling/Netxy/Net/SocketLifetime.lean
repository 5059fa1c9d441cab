import Mathlib.Data.List.Range
import Mathlib.Logic.Function.Basic
import Netxy.Lib.Transition
import Netxy.Net.DataSocket

/-!
# From the constructor of a `DataSocket` to its destructor

The places where a `TcpService` makes a socket, hands it to a loop and deletes it, on Linux and
in builds with and without OpenSSL. A socket belongs to the method that made it, then to the
functor that enters it into its loop, then to the loop. The destructor asserts that the
descriptor is closed; where it is not, that is counted in `assertHits`.
-/

namespace Netxy
namespace SocketLifetime
open DataSocket

variable {κ : Type*}

/-- A `DataSocket` with its loop, its callbacks and its SSL state. -/
structure Channel (κ : Type*) where
  ds : DataSocket κ
  /-- the index of `mEventLoop` in `mLoops` -/
  mEventLoop : Option ℕ
  /-- `mEnterCallback != nullptr` -/
  hasEnterCallback : Bool
  /-- `mDisConnectCallback != nullptr` -/
  hasDisConnectCallback : Bool
  /-- `mSSLCtx != nullptr` -/
  hasSSLCtx : Bool
  /-- `mSSL != nullptr` -/
  hasSSL : Bool
  mIsHandsharked : Bool

/-- What comes of `SSL_connect` or `SSL_accept`. -/
inductive Handshake
  | done
  /-- `SSL_ERROR_WANT_READ` or `SSL_ERROR_WANT_WRITE` -/
  | want
  | failed
deriving DecidableEq, Repr

/-- What a socket meets that enters its loop. -/
structure Entering where
  /-- the answer of `epoll_ctl` for an open descriptor -/
  linkOk : Bool
  handshake : Handshake
deriving DecidableEq, Repr

namespace Channel

/-- The constructor; `isOpen` says whether the descriptor is one. -/
def new (isOpen : Bool) : Channel κ where
  ds := { (DataSocket.new : DataSocket κ) with isOpen := isOpen }
  mEventLoop := none
  hasEnterCallback := false
  hasDisConnectCallback := false
  hasSSLCtx := false
  hasSSL := false
  mIsHandsharked := false

/-- `initAcceptSSL`; `setOk` is the answer of `SSL_set_fd`. -/
def initAcceptSSL (c : Channel κ) (setOk : Bool) : Channel κ × Bool :=
  if c.hasSSL then (c, false) else ({ c with hasSSL := true }, setOk)

/-- `initConnectSSL`; `setOk` is the answer of `SSL_set_fd`. -/
def initConnectSSL (c : Channel κ) (setOk : Bool) : Channel κ × Bool :=
  if c.hasSSLCtx then (c, false) else ({ c with hasSSLCtx := true, hasSSL := true }, setOk)

/-- `checkRead` has nothing to do on Linux. -/
def checkRead : Bool := true

/-- `mEnterCallback(this)`, which sets the disconnect callback, and `mEnterCallback = nullptr`. -/
def runEnterCallback (c : Channel κ) : Channel κ :=
  if c.hasEnterCallback then { c with hasEnterCallback := false, hasDisConnectCallback := true }
  else c

def closeSocket (c : Channel κ) : Channel κ := { c with ds := c.ds.closeSocket }

def onClose (c : Channel κ) : Channel κ × List AfterLoopProc :=
  ({ c with ds := c.ds.onClose.1 }, c.ds.onClose.2)

def procCloseInLoop (c : Channel κ) : Channel κ × List AfterLoopProc :=
  ({ c with ds := c.ds.procCloseInLoop.1 }, c.ds.procCloseInLoop.2)

def processSSLHandshake (c : Channel κ) (handshake : Handshake) :
    Channel κ × List AfterLoopProc :=
  if c.mIsHandsharked then (c, [])
  else
    let (c, mustClose) : Channel κ × Bool :=
      match handshake with
      | .done =>
        let c := { c with mIsHandsharked := true }
        if checkRead then (c.runEnterCallback, false) else (c, true)
      | .want => (c, !checkRead)
      | .failed => (c, true)
    if mustClose then c.runEnterCallback.procCloseInLoop else (c, [])

/-- `onEnterEventLoop`, on the thread of loop `i`. -/
def onEnterEventLoop (c : Channel κ) (i : ℕ) (e : Entering) :
    Channel κ × List AfterLoopProc × Bool :=
  if c.mEventLoop.isSome then (c, [], false)
  else
    let c := { c with mEventLoop := some i }
    -- `linkChannel`
    if ¬ (c.ds.isOpen ∧ e.linkOk) then (c.closeSocket, [], false)
    else if c.hasSSL then
      let (c, posted) := c.processSSLHandshake e.handshake
      (c, posted, true)
    else if checkRead then (c.runEnterCallback, [], true)
    else (c.closeSocket, [], false)

end Channel

/-! ## The service -/

/-- A service with its sockets. `mAsyncProcs i` are those that wait for loop `i` to run the
functor that enters them, `live` those that have entered one, under the names 0, 1, ...;
`mAfterLoopProcs i` are those whose disconnect functor is posted. -/
structure State (κ : Type*) where
  /-- `mListenThread != nullptr` -/
  listening : Bool
  mLoopNum : ℕ
  /-- the length of `mLoops`, where it is no null pointer -/
  mLoops : Option ℕ
  mIOThreads : Option ℕ
  mAsyncProcs : ℕ → List (Channel κ)
  mAfterLoopProcs : ℕ → List ℕ
  live : ℕ → Option (Channel κ)
  entered : ℕ
  assertHits : ℕ

/-- The constructor. -/
def init : State κ where
  listening := false
  mLoopNum := 0
  mLoops := none
  mIOThreads := none
  mAsyncProcs := fun _ => []
  mAfterLoopProcs := fun _ => []
  live := fun _ => none
  entered := 0
  assertHits := 0

namespace State

/-- `delete`: the destructor of a socket. -/
def delete (s : State κ) (c : Channel κ) : State κ :=
  if c.ds.isOpen then { s with assertHits := s.assertHits + 1 } else s

/-- Socket `p` of loop `i` after one of its methods, which posted functors. -/
def setLive (s : State κ) (i p : ℕ) (r : Channel κ × List AfterLoopProc) : State κ :=
  { s with
    live := Function.update s.live p (some r.1)
    mAfterLoopProcs :=
      Function.update s.mAfterLoopProcs i (s.mAfterLoopProcs i ++ r.2.map fun _ => p) }

/-- The functor of `helpAddChannel`, on the thread of loop `i`. -/
def enter (s : State κ) (i : ℕ) (c : Channel κ) (e : Entering) : State κ :=
  let (c, posted, ret) := c.onEnterEventLoop i e
  if ret then { s.setLive i s.entered (c, posted) with entered := s.entered + 1 } else s.delete c

/-- `helpAddChannel`, called by the thread of loop `current`; there is no result where
`mLoops` is a null pointer. -/
def helpAddChannel (s : State κ) (c : Channel κ) (forceSameThreadLoop : Bool)
    (current : Option ℕ) (rand : ℕ) (e : Entering) : Option (State κ × Bool) :=
  if s.mLoopNum = 0 then some (s, false)
  else if s.mLoops = none then none
  else
    let loopIndex :=
      if forceSameThreadLoop then (List.range s.mLoopNum).find? fun i => current = some i
      else some (rand % s.mLoopNum)
    match loopIndex with
    | none => some (s, false)
    | some i =>
      let c := { c with hasEnterCallback := true }
      -- `pushAsyncProc`: the thread of the loop runs the functor at once
      if current = some i then some (s.enter i c e, true)
      else
        some ({ s with
          mAsyncProcs := Function.update s.mAsyncProcs i (s.mAsyncProcs i ++ [c]) }, true)

/-- What the callback of `startListen` and `addDataSocket` do with a new socket; `ret` says
whether its SSL state was set up. -/
def addOrDelete (s : State κ) (c : Channel κ) (ret forceSameThreadLoop : Bool)
    (current : Option ℕ) (rand : ℕ) (e : Entering) : Option (State κ) :=
  if ret then
    (s.helpAddChannel c forceSameThreadLoop current rand e).map fun (s, ret) =>
      if ret then s else s.delete c
  else some (s.delete c)

/-- The callback of `startListen`, on the listening thread, which is no loop's; `hasCTX` is
`getOpenSSLCTX() != nullptr`. -/
def acceptCallback (openSSL : Bool) (s : State κ) (hasCTX setOk : Bool) (rand : ℕ) (e : Entering) :
    Option (State κ) :=
  let (c, ret) : Channel κ × Bool :=
    if openSSL ∧ hasCTX then (Channel.new true).initAcceptSSL setOk else (.new true, true)
  s.addOrDelete c ret false none rand e

/-- `addDataSocket`; `isOpen` says whether `fd` is a descriptor. -/
def addDataSocket (openSSL : Bool) (s : State κ) (isOpen isUseSSL setOk forceSameThreadLoop : Bool)
    (current : Option ℕ) (rand : ℕ) (e : Entering) : Option (State κ) :=
  if openSSL then
    let (c, ret) : Channel κ × Bool :=
      if isUseSSL then (Channel.new isOpen).initConnectSSL setOk else (.new isOpen, true)
    s.addOrDelete c ret forceSameThreadLoop current rand e
  else if isUseSSL then
    -- there is no `DataSocket`, `fd` itself is closed
    some s
  else s.addOrDelete (.new isOpen) true forceSameThreadLoop current rand e

def startWorkerThread (s : State κ) (threadNum : ℕ) : State κ :=
  if s.mLoops = none then
    { s with
      mLoopNum := threadNum
      mLoops := some threadNum
      mIOThreads := some threadNum }
  else s

/-- The threads are joined. -/
def stopWorkerThread (s : State κ) : State κ := { s with mIOThreads := none }

/-- `closeWorkerThread`: the loops go with their functors, and their sockets are left to
nobody. `mLoopNum` keeps its value. -/
def closeWorkerThread (s : State κ) : State κ :=
  { s.stopWorkerThread with
    mLoops := none
    mAsyncProcs := fun _ => []
    mAfterLoopProcs := fun _ => []
    live := fun _ => none }

/-- The thread of its loop calls a method of socket `p`. -/
def onLive (s : State κ) (p : ℕ) (method : Channel κ → Channel κ × List AfterLoopProc) :
    Option (State κ) :=
  match s.live p with
  | none => none
  | some c =>
    match c.mEventLoop with
    | none => none
    | some i => if i < s.mIOThreads.getD 0 then some (s.setLive i p (method c)) else none

/-- The functor of `onClose`: the disconnect callback deletes the socket. -/
def disconnect (s : State κ) (p : ℕ) : State κ :=
  match s.live p with
  | none => s
  | some c =>
    if c.hasDisConnectCallback then
      { s with live := Function.update s.live p none }.delete c
    else s

end State

/-- What happens next: a method of the service is called, the listening thread accepts a
connection, or a loop's thread goes on. -/
inductive Action
  | startListen
  | closeListenThread
  | startWorkerThread (threadNum : ℕ)
  | stopWorkerThread
  | closeWorkerThread
  | closeService
  | accept (hasCTX setOk : Bool) (rand : ℕ) (e : Entering)
  | addDataSocket (isOpen isUseSSL setOk forceSameThreadLoop : Bool) (current : Option ℕ)
      (rand : ℕ) (e : Entering)
  /-- the thread of loop `i` runs the first functor of `helpAddChannel` that waits for it -/
  | runAsyncProc (i : ℕ) (e : Entering)
  /-- of `recv`, a flush, `PingCheck` or `postDisConnect` -/
  | procCloseInLoop (p : ℕ)
  /-- of `EPOLLRDHUP` -/
  | onClose (p : ℕ)
  /-- `canRecv` or `canSend` during the handshake -/
  | processSSLHandshake (p : ℕ) (handshake : Handshake)
  /-- the thread of loop `i` runs the first disconnect functor -/
  | runAfterLoopProc (i : ℕ)
deriving DecidableEq, Repr

/-- One step, in a build with or without `USE_OPENSSL`. -/
def step (openSSL : Bool) (s : State κ) : Action → Option (State κ)
  | .startListen => some { s with listening := true }
  | .closeListenThread => some { s with listening := false }
  | .startWorkerThread threadNum => some (s.startWorkerThread threadNum)
  | .stopWorkerThread => some s.stopWorkerThread
  | .closeWorkerThread => some s.closeWorkerThread
  | .closeService => some { s with listening := false }.closeWorkerThread
  | .accept hasCTX setOk rand e =>
    if s.listening then s.acceptCallback openSSL hasCTX setOk rand e else none
  | .addDataSocket isOpen isUseSSL setOk forceSameThreadLoop current rand e =>
    s.addDataSocket openSSL isOpen isUseSSL setOk forceSameThreadLoop current rand e
  | .runAsyncProc i e =>
    match s.mAsyncProcs i with
    | [] => none
    | c :: rest =>
      if i < s.mIOThreads.getD 0 then
        some ({ s with mAsyncProcs := Function.update s.mAsyncProcs i rest }.enter i c e)
      else none
  | .procCloseInLoop p => s.onLive p Channel.procCloseInLoop
  | .onClose p => s.onLive p Channel.onClose
  | .processSSLHandshake p handshake =>
    s.onLive p fun c => if c.hasSSL then c.processSSLHandshake handshake else (c, [])
  | .runAfterLoopProc i =>
    match s.mAfterLoopProcs i with
    | [] => none
    | p :: rest =>
      if i < s.mIOThreads.getD 0 then
        some ({ s with
          mAfterLoopProcs := Function.update s.mAfterLoopProcs i rest }.disconnect p)
      else none

/-! ## What is claimed -/

/-- No socket was destroyed with its descriptor open. -/
def ClosedBeforeDestroyed (s : State κ) : Prop := s.assertHits = 0

/-- There is no loop for a new socket: none at all, or none of the calling thread, where it
is asked for. -/
def Unplaceable (s : State κ) (forceSameThreadLoop : Bool) (current : Option ℕ) : Prop :=
  s.mLoopNum = 0 ∨ s.mLoops.isSome ∧ forceSameThreadLoop ∧ ∀ i < s.mLoopNum, current ≠ some i

/-- A new socket with an open descriptor is turned away: there is no loop for it, or
`SSL_set_fd` fails. -/
def TurnsAway (openSSL : Bool) (s : State κ) : Action → Prop
  | .accept hasCTX setOk _ _ =>
    s.listening ∧ (openSSL ∧ hasCTX ∧ ¬ setOk ∨ Unplaceable s false none)
  | .addDataSocket isOpen isUseSSL setOk forceSameThreadLoop current _ _ =>
    isOpen ∧ (isUseSSL → openSSL) ∧
      (isUseSSL ∧ ¬ setOk ∨ Unplaceable s forceSameThreadLoop current)
  | _ => False

/-! ## What the methods of a socket keep -/

/-- The outcome of a method of `c`: a closed socket stays closed, and one that posts its
disconnect functor is closed. -/
structure Closes (c : Channel κ) (r : Channel κ × List AfterLoopProc) : Prop where
  stays : c.ds.isOpen = false → r.1.ds.isOpen = false
  posts : r.2 ≠ [] → r.1.ds.isOpen = false

theorem isOpen_closeSocket (ds : DataSocket κ) : ds.closeSocket.isOpen = false := by
  unfold DataSocket.closeSocket
  split
  case isTrue => rfl
  case isFalse h => exact Bool.eq_false_of_not_eq_true h

theorem closes_nothing {c d : Channel κ} (h : d.ds = c.ds) : Closes c (d, []) where
  stays hclosed := h ▸ hclosed
  posts hne := absurd rfl hne

theorem closes_onClose (c : Channel κ) : Closes c c.onClose := by
  unfold Channel.onClose DataSocket.onClose
  split
  case isTrue => exact closes_nothing rfl
  case isFalse => exact ⟨fun _ => isOpen_closeSocket _, fun _ => isOpen_closeSocket _⟩

theorem closes_procCloseInLoop (c : Channel κ) : Closes c c.procCloseInLoop := by
  unfold Channel.procCloseInLoop DataSocket.procCloseInLoop
  split
  case isTrue => exact closes_onClose c
  case isFalse => exact closes_nothing rfl

theorem runEnterCallback_ds (c : Channel κ) : c.runEnterCallback.ds = c.ds := by
  unfold Channel.runEnterCallback
  split <;> rfl

theorem closes_processSSLHandshake (c : Channel κ) (handshake : Handshake) :
    Closes c (c.processSSLHandshake handshake) := by
  unfold Channel.processSSLHandshake
  by_cases hdone : c.mIsHandsharked
  · rw [if_pos hdone]
    exact closes_nothing rfl
  · rw [if_neg hdone]
    cases handshake with
    | done => exact closes_nothing (runEnterCallback_ds _)
    | want => exact closes_nothing rfl
    | failed =>
      have h := closes_procCloseInLoop c.runEnterCallback
      exact ⟨fun hclosed => h.stays (runEnterCallback_ds c ▸ hclosed), h.posts⟩

/-- A socket that waited for its loop enters it, or is closed. -/
theorem onEnterEventLoop_spec {c : Channel κ} (hfirst : c.mEventLoop = none) (i : ℕ) (e : Entering) :
    ((c.onEnterEventLoop i e).2.2 = false → (c.onEnterEventLoop i e).1.ds.isOpen = false) ∧
      Closes c ((c.onEnterEventLoop i e).1, (c.onEnterEventLoop i e).2.1) := by
  unfold Channel.onEnterEventLoop
  rw [hfirst]
  simp only [Option.isSome_none, Bool.false_eq_true, if_false]
  split
  case isTrue =>
    have hclosed := isOpen_closeSocket c.ds
    exact ⟨fun _ => hclosed, fun _ => hclosed, fun h => absurd rfl h⟩
  case isFalse =>
    split
    case isTrue =>
      have h := closes_processSSLHandshake { c with mEventLoop := some i } e.handshake
      exact ⟨(nomatch ·), h.stays, h.posts⟩
    case isFalse =>
      exact ⟨(nomatch ·), closes_nothing (runEnterCallback_ds _)⟩

/-! ## What the steps keep -/

/-- Sockets that wait for a loop are in none, those whose disconnect functor is posted are
closed, and no socket was destroyed while it was open. -/
structure Sound (s : State κ) : Prop where
  waiting : ∀ i, ∀ c ∈ s.mAsyncProcs i, c.mEventLoop = none
  closed : ∀ i, ∀ p ∈ s.mAfterLoopProcs i, ∀ c, s.live p = some c → c.ds.isOpen = false
  named : ∀ i, ∀ p ∈ s.mAfterLoopProcs i, p < s.entered
  live : ∀ p c, s.live p = some c → p < s.entered
  noHit : s.assertHits = 0

theorem sound_init : Sound (init : State κ) where
  waiting _ _ h := absurd h List.not_mem_nil
  closed _ _ h := absurd h List.not_mem_nil
  named _ _ h := absurd h List.not_mem_nil
  live _ _ h := nomatch h
  noHit := rfl

theorem delete_of_closed {c : Channel κ} (h : c.ds.isOpen = false) (s : State κ) : s.delete c = s := by
  rw [State.delete, h]
  exact if_neg Bool.false_ne_true

theorem mem_setLive {s : State κ} {i j p q : ℕ} {r : Channel κ × List AfterLoopProc}
    (h : q ∈ (s.setLive i p r).mAfterLoopProcs j) :
    q ∈ s.mAfterLoopProcs j ∨ q = p ∧ r.2 ≠ [] := by
  unfold State.setLive at h
  by_cases hj : j = i
  · subst hj
    simp only [Function.update_self, List.mem_append, List.mem_map] at h
    rcases h with h | ⟨x, hx, rfl⟩
    · exact .inl h
    · exact .inr ⟨rfl, List.ne_nil_of_mem hx⟩
  · simp only [Function.update_of_ne hj] at h
    exact .inl h

/-- A method of a socket, which is closed if its disconnect functor was or is now posted. -/
theorem Sound.setLive {s : State κ} (hs : Sound s) {p : ℕ} {r : Channel κ × List AfterLoopProc}
    (hp : p < s.entered) (hstays : ∀ i, p ∈ s.mAfterLoopProcs i → r.1.ds.isOpen = false)
    (hposts : r.2 ≠ [] → r.1.ds.isOpen = false) (i : ℕ) : Sound (s.setLive i p r) where
  waiting := hs.waiting
  closed j q hq c hc := by
    by_cases hqp : q = p
    · subst hqp
      have hcr : r.1 = c := by
        simpa only [State.setLive, Function.update_self, Option.some.injEq] using hc
      rcases mem_setLive hq with hold | ⟨-, hne⟩
      · exact hcr ▸ hstays j hold
      · exact hcr ▸ hposts hne
    · simp only [State.setLive, Function.update_of_ne hqp] at hc
      rcases mem_setLive hq with hold | ⟨heq, -⟩
      · exact hs.closed j q hold c hc
      · exact absurd heq hqp
  named j q hq := by
    rcases mem_setLive hq with hold | ⟨rfl, -⟩
    · exact hs.named j q hold
    · exact hp
  live q c hc := by
    by_cases hqp : q = p
    · exact hqp ▸ hp
    · simp only [State.setLive, Function.update_of_ne hqp] at hc
      exact hs.live q c hc
  noHit := hs.noHit

theorem Sound.onLive {s t : State κ} (hs : Sound s) {p : ℕ}
    {method : Channel κ → Channel κ × List AfterLoopProc} (hmethod : ∀ c, Closes c (method c))
    (h : s.onLive p method = some t) : Sound t := by
  unfold State.onLive at h
  split at h
  · cases h
  · rename_i c hc
    split at h
    · cases h
    · rename_i i hi
      split at h
      · cases h
        exact hs.setLive (hs.live p c hc) (fun j hj => (hmethod c).stays (hs.closed j p hj c hc))
          (hmethod c).posts i
      · cases h

theorem Sound.enter {s : State κ} (hs : Sound s) {c : Channel κ} (hc : c.mEventLoop = none) (i : ℕ)
    (e : Entering) : Sound (s.enter i c e) := by
  obtain ⟨hrefused, hcloses⟩ := onEnterEventLoop_spec hc i e
  unfold State.enter
  split
  rename_i d posted ret heq
  rw [heq] at hrefused hcloses
  cases ret with
  | true =>
    have hnext : Sound { s with entered := s.entered + 1 } :=
      ⟨hs.waiting, hs.closed, fun j q hq => (hs.named j q hq).trans (Nat.lt_succ_self _),
        fun q d hd => (hs.live q d hd).trans (Nat.lt_succ_self _), hs.noHit⟩
    exact hnext.setLive (Nat.lt_succ_self _)
      (fun j hj => absurd (hs.named j _ hj) (lt_irrefl _)) hcloses.posts i
  | false =>
    rw [if_neg Bool.false_ne_true, delete_of_closed (hrefused rfl)]
    exact hs

theorem Sound.disconnect {s : State κ} (hs : Sound s) {p : ℕ}
    (hp : ∀ c, s.live p = some c → c.ds.isOpen = false) : Sound (s.disconnect p) := by
  unfold State.disconnect
  split
  · exact hs
  · rename_i c hc
    split
    · rw [delete_of_closed (hp c hc)]
      have hsub : ∀ q d, Function.update s.live p none q = some d → s.live q = some d := by
        intro q d hd
        by_cases hqp : q = p
        · subst hqp
          rw [Function.update_self] at hd
          cases hd
        · rwa [Function.update_of_ne hqp] at hd
      exact ⟨hs.waiting, fun j q hq d hd => hs.closed j q hq d (hsub q d hd), hs.named,
        fun q d hd => hs.live q d (hsub q d hd), hs.noHit⟩
    · exact hs

/-- A queue that is replaced by one with fewer elements. -/
theorem forall_mem_update_tail {β : Type*} {P : ℕ → β → Prop} {queues : ℕ → List β} {x : β}
    {rest : List β} {i : ℕ} (hqueue : queues i = x :: rest) (h : ∀ j, ∀ y ∈ queues j, P j y) :
    ∀ j, ∀ y ∈ Function.update queues i rest j, P j y := by
  intro j y hy
  by_cases hj : j = i
  · subst hj
    rw [Function.update_self] at hy
    exact h j y (hqueue ▸ List.mem_cons_of_mem x hy)
  · rw [Function.update_of_ne hj] at hy
    exact h j y hy

/-! ### New sockets -/

theorem helpAddChannel_of_unplaceable {s : State κ} {forceSameThreadLoop : Bool}
    {current : Option ℕ} (h : Unplaceable s forceSameThreadLoop current) (c : Channel κ) (rand : ℕ)
    (e : Entering) : s.helpAddChannel c forceSameThreadLoop current rand e = some (s, false) := by
  unfold State.helpAddChannel
  by_cases hnum : s.mLoopNum = 0
  · exact if_pos hnum
  · obtain ⟨hloops, hforce, hnone⟩ := h.resolve_left hnum
    have hsome : s.mLoops ≠ none := Option.isSome_iff_ne_none.mp hloops
    have hfind : (List.range s.mLoopNum).find? (fun i => current = some i) = none :=
      List.find?_eq_none.mpr fun i hi => by
        simpa only [decide_eq_true_eq] using hnone i (List.mem_range.mp hi)
    rw [if_neg hnum, if_neg hsome]
    simp only [hforce, if_true, hfind]

/-- Where there is a loop for it, a new socket is entered or queued. -/
theorem Sound.helpAddChannel {s t : State κ} (hs : Sound s) {c : Channel κ}
    (hc : c.mEventLoop = none) {forceSameThreadLoop ret : Bool} {current : Option ℕ} {rand : ℕ}
    {e : Entering} (hplace : ¬ Unplaceable s forceSameThreadLoop current)
    (h : s.helpAddChannel c forceSameThreadLoop current rand e = some (t, ret)) :
    ret = true ∧ Sound t := by
  unfold State.helpAddChannel at h
  have hnum : s.mLoopNum ≠ 0 := fun h0 => hplace (.inl h0)
  rw [if_neg hnum] at h
  split at h
  · cases h
  · rename_i hloops
    simp only at h
    split at h
    · -- the search fails only where no loop is of the calling thread
      rename_i hnone
      exfalso
      refine hplace (.inr ⟨Option.isSome_iff_ne_none.mpr hloops, ?_⟩)
      split at hnone
      case isTrue hforce =>
        refine ⟨hforce, fun i hi => ?_⟩
        simpa only [decide_eq_true_eq] using List.find?_eq_none.mp hnone i (List.mem_range.mpr hi)
      case isFalse => cases hnone
    · rename_i i hi
      split at h
      · cases h
        exact ⟨rfl, hs.enter (c := { c with hasEnterCallback := true }) hc i e⟩
      · cases h
        refine ⟨rfl, fun j d hd => ?_, hs.closed, hs.named, hs.live, hs.noHit⟩
        by_cases hj : j = i
        · subst hj
          simp only [Function.update_self, List.mem_append, List.mem_singleton] at hd
          rcases hd with hd | rfl
          · exact hs.waiting j d hd
          · exact hc
        · simp only [Function.update_of_ne hj] at hd
          exact hs.waiting j d hd

theorem addOrDelete_of_turned_away {s : State κ} {ret forceSameThreadLoop : Bool}
    {current : Option ℕ} (h : ret = false ∨ Unplaceable s forceSameThreadLoop current)
    (c : Channel κ) (rand : ℕ) (e : Entering) :
    s.addOrDelete c ret forceSameThreadLoop current rand e = some (s.delete c) := by
  unfold State.addOrDelete
  cases ret with
  | false => rfl
  | true =>
    rw [helpAddChannel_of_unplaceable (h.resolve_left Bool.true_eq_false_eq_False)]
    rfl

/-- A new socket that is closed, or not turned away. -/
theorem Sound.addOrDelete {s t : State κ} (hs : Sound s) {c : Channel κ} (hc : c.mEventLoop = none)
    {ret forceSameThreadLoop : Bool} {current : Option ℕ} {rand : ℕ} {e : Entering}
    (hnot : c.ds.isOpen = true → ¬ (ret = false ∨ Unplaceable s forceSameThreadLoop current))
    (h : s.addOrDelete c ret forceSameThreadLoop current rand e = some t) : Sound t := by
  by_cases hturned : ret = false ∨ Unplaceable s forceSameThreadLoop current
  · rw [addOrDelete_of_turned_away hturned] at h
    have hclosed : c.ds.isOpen = false := Bool.eq_false_of_not_eq_true fun hopen => hnot hopen hturned
    rw [delete_of_closed hclosed] at h
    cases h
    exact hs
  · rw [not_or, Bool.not_eq_false] at hturned
    unfold State.addOrDelete at h
    rw [if_pos hturned.1, Option.map_eq_some_iff] at h
    obtain ⟨⟨u, ret'⟩, hu, h⟩ := h
    obtain ⟨rfl, hsound⟩ := hs.helpAddChannel hc hturned.2 hu
    exact h ▸ hsound

/-- The callback of `startListen` has a new socket with an open descriptor. -/
theorem acceptCallback_eq (openSSL : Bool) (s : State κ) (hasCTX setOk : Bool) (rand : ℕ)
    (e : Entering) :
    ∃ c : Channel κ, c.ds.isOpen = true ∧ c.mEventLoop = none ∧
      s.acceptCallback openSSL hasCTX setOk rand e =
        s.addOrDelete c (!(openSSL && hasCTX) || setOk) false none rand e := by
  unfold State.acceptCallback
  cases openSSL <;> cases hasCTX <;> exact ⟨_, rfl, rfl, rfl⟩

/-- So has `addDataSocket`, if the descriptor is one and the build has what it asks for. -/
theorem addDataSocket_eq {openSSL isUseSSL : Bool} (h : isUseSSL = true → openSSL = true)
    (s : State κ) (isOpen setOk forceSameThreadLoop : Bool) (current : Option ℕ) (rand : ℕ)
    (e : Entering) :
    ∃ c : Channel κ, c.ds.isOpen = isOpen ∧ c.mEventLoop = none ∧
      s.addDataSocket openSSL isOpen isUseSSL setOk forceSameThreadLoop current rand e =
        s.addOrDelete c (!isUseSSL || setOk) forceSameThreadLoop current rand e := by
  unfold State.addDataSocket
  cases openSSL with
  | false =>
    cases isUseSSL with
    | false => exact ⟨_, rfl, rfl, rfl⟩
    | true => cases h rfl
  | true => cases isUseSSL <;> exact ⟨_, rfl, rfl, rfl⟩

/-! ## Runs -/

theorem sound_closeWorkerThread {s : State κ} (hs : Sound s) : Sound s.closeWorkerThread where
  waiting _ _ h := absurd h List.not_mem_nil
  closed _ _ h := absurd h List.not_mem_nil
  named _ _ h := absurd h List.not_mem_nil
  live _ _ h := nomatch h
  noHit := hs.noHit

theorem sound_step {openSSL : Bool} {s t : State κ} {a : Action} (hs : Sound s)
    (ha : ¬ TurnsAway openSSL s a) (h : step openSSL s a = some t) : Sound t := by
  cases a with
  | startListen | closeListenThread | stopWorkerThread =>
    cases h
    exact ⟨hs.waiting, hs.closed, hs.named, hs.live, hs.noHit⟩
  | startWorkerThread threadNum =>
    cases h
    unfold State.startWorkerThread
    split
    · exact ⟨hs.waiting, hs.closed, hs.named, hs.live, hs.noHit⟩
    · exact hs
  | closeWorkerThread =>
    cases h
    exact sound_closeWorkerThread hs
  | closeService =>
    cases h
    exact sound_closeWorkerThread ⟨hs.waiting, hs.closed, hs.named, hs.live, hs.noHit⟩
  | accept hasCTX setOk rand e =>
    simp only [step] at h
    split at h
    · rename_i hlistening
      obtain ⟨c, hopen, hloop, heq⟩ := acceptCallback_eq openSSL s hasCTX setOk rand e
      rw [heq] at h
      refine hs.addOrDelete hloop (fun _ hturned => ha ⟨hlistening, ?_⟩) h
      exact hturned.imp_left fun hret => by simpa [and_assoc] using hret
    · cases h
  | addDataSocket isOpen isUseSSL setOk forceSameThreadLoop current rand e =>
    simp only [step] at h
    by_cases hssl : isUseSSL = true → openSSL = true
    · obtain ⟨c, hopen, hloop, heq⟩ :=
        addDataSocket_eq hssl s isOpen setOk forceSameThreadLoop current rand e
      rw [heq] at h
      refine hs.addOrDelete hloop (fun hc hturned => ha ⟨hopen ▸ hc, hssl, ?_⟩) h
      exact hturned.imp_left fun hret => by simpa using hret
    · obtain ⟨huse, hno⟩ := Classical.not_imp.mp hssl
      rw [State.addDataSocket, if_neg hno, if_pos huse] at h
      cases h
      exact hs
  | runAsyncProc i e =>
    simp only [step] at h
    split at h
    · cases h
    · rename_i c rest hqueue
      split at h
      · cases h
        have hc : c.mEventLoop = none := hs.waiting i c (hqueue ▸ List.mem_cons_self)
        have hrest : Sound { s with mAsyncProcs := Function.update s.mAsyncProcs i rest } :=
          ⟨forall_mem_update_tail hqueue hs.waiting, hs.closed, hs.named, hs.live, hs.noHit⟩
        exact hrest.enter hc i e
      · cases h
  | procCloseInLoop p => exact hs.onLive closes_procCloseInLoop h
  | onClose p => exact hs.onLive closes_onClose h
  | processSSLHandshake p handshake =>
    refine hs.onLive (fun c => ?_) h
    split
    · exact closes_processSSLHandshake c handshake
    · exact closes_nothing rfl
  | runAfterLoopProc i =>
    simp only [step] at h
    split at h
    · cases h
    · rename_i p rest hqueue
      split at h
      · cases h
        have hrest : Sound { s with mAfterLoopProcs := Function.update s.mAfterLoopProcs i rest } :=
          ⟨hs.waiting, forall_mem_update_tail hqueue hs.closed,
            forall_mem_update_tail hqueue hs.named, hs.live, hs.noHit⟩
        exact hrest.disconnect (hs.closed i p (hqueue ▸ List.mem_cons_self))
      · cases h

/-- A socket that is turned away is destroyed while it is open. -/
theorem assertHits_of_turnsAway {openSSL : Bool} {s : State κ} {a : Action}
    (ha : TurnsAway openSSL s a) :
    ∃ t, step openSSL s a = some t ∧ t.assertHits = s.assertHits + 1 := by
  have hdelete : ∀ {c : Channel κ}, c.ds.isOpen = true →
      (s.delete c).assertHits = s.assertHits + 1 := by
    intro c hopen
    rw [State.delete, if_pos hopen]
  cases a with
  | accept hasCTX setOk rand e =>
    obtain ⟨hlistening, hturned⟩ := ha
    obtain ⟨c, hopen, hloop, heq⟩ := acceptCallback_eq openSSL s hasCTX setOk rand e
    refine ⟨s.delete c, ?_, hdelete hopen⟩
    rw [step, if_pos hlistening, heq]
    refine addOrDelete_of_turned_away (hturned.imp_left fun h => ?_) c rand e
    simpa [and_assoc] using h
  | addDataSocket isOpen isUseSSL setOk forceSameThreadLoop current rand e =>
    obtain ⟨hisOpen, hssl, hturned⟩ := ha
    obtain ⟨c, hopen, hloop, heq⟩ :=
      addDataSocket_eq hssl s isOpen setOk forceSameThreadLoop current rand e
    refine ⟨s.delete c, ?_, hdelete (hopen.trans hisOpen)⟩
    rw [step, heq]
    refine addOrDelete_of_turned_away (hturned.imp_left fun h => ?_) c rand e
    simpa using h
  | _ => exact ha.elim

/-- In every run of a service no socket is destroyed with its descriptor open exactly if no
step turns a new socket away. -/
theorem closed_before_destroyed_iff (openSSL : Bool) (as : List Action) :
    Transition.Always (step openSSL) ClosedBeforeDestroyed (init : State κ) as ↔
      Transition.Throughout (step openSSL) (fun s a => ¬ TurnsAway openSSL s a)
        (init : State κ) as := by
  refine Transition.always_iff_throughout (W := fun _ _ => True) (I := Sound)
    (fun s hs => hs.noHit) ?_ ?_ sound_init (Transition.throughout_of_forall (fun _ _ => trivial) _ _)
  · intro s a t hs _ ha h
    exact sound_step hs ha h
  · intro s a hs _ ha
    obtain ⟨t, ht, hits⟩ := assertHits_of_turnsAway (not_not.mp ha)
    exact ⟨t, ht, fun hnone => absurd (hits.symm.trans hnone) (Nat.succ_ne_zero _)⟩

/-- A connection that is accepted before there are loops. -/
theorem not_closed_before_destroyed :
    ¬ ∀ (openSSL : Bool) (as : List Action),
        Transition.Always (step openSSL) ClosedBeforeDestroyed (init : State ℕ) as := by
  intro h
  have hlast := (h false [.startListen, .accept false false 0 ⟨true, .done⟩]).last rfl
  exact Nat.one_ne_zero hlast

end SocketLifetime
end Netxy
