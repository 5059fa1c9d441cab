import Mathlib.Data.List.Range
import Mathlib.Logic.Function.Basic
import Netxy.Lib.Transition
import Netxy.Net.SessionTable

/-!
# The arrays of a `TcpService`

The life of the five arrays a service allocates for its loops, and the places where it indexes
them: in its own methods, whose guard is `mLoopNum`, and in the functors that the loops'
threads run. An index at which an array is not allocated is counted in `faults`, and what
would follow from it is left out. A failed assertion is counted in `assertHits` and passed.
-/

namespace Netxy
namespace ServiceArrays

/-- `sid.data.loopIndex`. -/
def loopIndex (id : SessionType) : ℕ := (SessionId.ofId id).loopIndex.toNat

/-- The functors of `mAsyncProcs`, by what they index. -/
inductive AsyncProc
  /-- of `send` and `postSessionAsyncProc` -/
  | session (id : SessionType)
  /-- of `flushCachePackectList`, with the ids of its messages -/
  | flushCache (msgList : List SessionType)
  /-- of `helpAddChannel`; it runs the enter callback -/
  | enter (loopIndex : ℕ)
deriving DecidableEq, Repr

/-- A service. An array is its length, or `none` for a null pointer. `cached i` are the ids in
`*mCachePacketList[i]`, `procs i` the functors waiting in `*mLoops[i]`. -/
structure State where
  mCachePacketList : Option ℕ
  mLoops : Option ℕ
  mIOThreads : Option ℕ
  mDataSockets : Option ℕ
  mIncIds : Option ℕ
  mLoopNum : ℕ
  mRunIOLoop : Bool
  cached : ℕ → List SessionType
  procs : ℕ → List AsyncProc
  faults : ℕ
  assertHits : ℕ

/-- The constructor. -/
def init : State where
  mCachePacketList := none
  mLoops := none
  mIOThreads := none
  mDataSockets := none
  mIncIds := none
  mLoopNum := 0
  mRunIOLoop := false
  cached := fun _ => []
  procs := fun _ => []
  faults := 0
  assertHits := 0

namespace State

/-- `array[i]`, and what is done with it. -/
def index (s : State) (array : Option ℕ) (i : ℕ) (k : State → State) : State :=
  if i < array.getD 0 then k s else { s with faults := s.faults + 1 }

/-- `array[i]`, for each `i` below `mLoopNum`. -/
def forLoops (s : State) (body : State → ℕ → State) : State :=
  (List.range s.mLoopNum).foldl body s

/-- `mLoops[i]->pushAsyncProc(f)`. -/
def pushAsyncProc (s : State) (i : ℕ) (f : AsyncProc) : State :=
  s.index s.mLoops i fun s => { s with procs := Function.update s.procs i (s.procs i ++ [f]) }

/-- `assert(sid.data.loopIndex < mLoopNum)`, the same test once more, and what it guards. -/
def guarded (s : State) (id : SessionType) (k : State → State) : State :=
  if loopIndex id < s.mLoopNum then k s else { s with assertHits := s.assertHits + 1 }

/-- `send`; `inLoop` says whether the caller is the thread of the loop. -/
def send (s : State) (id : SessionType) (inLoop : Bool) : State :=
  s.guarded id fun s =>
    s.index s.mLoops (loopIndex id) fun s =>
      if inLoop then s.index s.mDataSockets (loopIndex id) fun s => s
      else s.pushAsyncProc (loopIndex id) (.session id)

/-- `cacheSend`. -/
def cacheSend (s : State) (id : SessionType) : State :=
  s.guarded id fun s =>
    s.index s.mCachePacketList (loopIndex id) fun s =>
      { s with cached := Function.update s.cached (loopIndex id) (s.cached (loopIndex id) ++ [id]) }

/-- The body of the loop of `flushCachePackectList`. -/
def flushLoop (s : State) (i : ℕ) : State :=
  s.index s.mCachePacketList i fun s =>
    if (s.cached i).isEmpty then s
    else
      let s := s.pushAsyncProc i (.flushCache (s.cached i))
      s.index s.mCachePacketList i fun s => { s with cached := Function.update s.cached i [] }

def flushCachePackectList (s : State) : State := s.forLoops flushLoop

/-- `postSessionAsyncProc`, through which `shutdown`, `disConnect` and `setPingCheckTime` go. -/
def postSessionAsyncProc (s : State) (id : SessionType) : State :=
  s.guarded id fun s => s.pushAsyncProc (loopIndex id) (.session id)

/-- `mLoops[i]->wakeup()`. -/
def wakeupLoop (s : State) (i : ℕ) : State := s.index s.mLoops i fun s => s

/-- `wakeup`; `getEventLoopBySocketID` reads `mLoops` in the same way. -/
def wakeup (s : State) (id : SessionType) : State :=
  s.guarded id fun s => s.wakeupLoop (loopIndex id)

def wakeupAll (s : State) : State := s.forLoops wakeupLoop

/-- `getRandomEventLoop`, with the answer of `rand()`. -/
def getRandomEventLoop (s : State) (rand : ℕ) : State :=
  if 0 < s.mLoopNum then s.wakeupLoop (rand % s.mLoopNum) else s

/-- The loop of `helpAddChannel` that looks for the loop of the calling thread, and what is
done with the loop that is found. -/
def searchLoop (current : Option ℕ) (k : State → ℕ → State) : State → List ℕ → State
  | s, [] => s
  | s, i :: is =>
    s.index s.mLoops i fun s => if current = some i then k s i else searchLoop current k s is

/-- `helpAddChannel`; the calling thread is that of loop `current`. -/
def helpAddChannel (s : State) (forceSameThreadLoop : Bool) (current : Option ℕ) (rand : ℕ) :
    State :=
  if s.mLoopNum = 0 then s
  else if forceSameThreadLoop then
    searchLoop current (fun s i => s.pushAsyncProc i (.enter i)) s (List.range s.mLoopNum)
  else s.pushAsyncProc (rand % s.mLoopNum) (.enter (rand % s.mLoopNum))

/-- `startWorkerThread`. -/
def startWorkerThread (s : State) (threadNum : ℕ) : State :=
  if s.mLoops = none then
    { s with
      mRunIOLoop := true
      mCachePacketList := some threadNum
      mLoops := some threadNum
      mIOThreads := some threadNum
      mLoopNum := threadNum
      mDataSockets := some threadNum
      mIncIds := some threadNum
      cached := fun _ => []
      procs := fun _ => [] }
  else s

/-- The first part of `stopWorkerThread`. -/
def wakeLoops (s : State) : State :=
  if s.mLoops.isSome then { s with mRunIOLoop := false }.forLoops wakeupLoop else s

/-- The second part of `stopWorkerThread`: the threads are joined. -/
def joinThreads (s : State) : State :=
  if s.mIOThreads.isSome then
    let s := s.forLoops fun s i => s.index s.mIOThreads i fun s => s
    { s with mIOThreads := none }
  else s

def stopWorkerThread (s : State) : State := s.wakeLoops.joinThreads

/-- `closeWorkerThread`; `mLoopNum` keeps its value. -/
def closeWorkerThread (s : State) : State :=
  { s.stopWorkerThread with
    mLoops := none
    mIncIds := none
    mDataSockets := none
    mCachePacketList := none
    cached := fun _ => []
    procs := fun _ => [] }

/-- A functor, on the thread of its loop. -/
def run (s : State) : AsyncProc → State
  | .session id => s.index s.mDataSockets (loopIndex id) fun s => s
  | .flushCache msgList =>
    msgList.foldl (fun s id => s.index s.mDataSockets (loopIndex id) fun s => s) s
  | .enter i =>
    -- `MakeID`, and the entry of the new session
    s.index s.mDataSockets i fun s =>
      s.index s.mIncIds i fun s => s.index s.mDataSockets i fun s => s

end State

/-! ## Steps -/

/-- What happens next: a method is called, or a loop's thread goes on. -/
inductive Action
  | startWorkerThread (threadNum : ℕ)
  | stopWorkerThread
  /-- `closeService` and `closeWorkerThread`, which differ in the listening thread -/
  | closeService
  | send (id : SessionType) (inLoop : Bool)
  | cacheSend (id : SessionType)
  | flushCachePackectList
  | shutdown (id : SessionType)
  | disConnect (id : SessionType)
  | setPingCheckTime (id : SessionType)
  | addDataSocket (forceSameThreadLoop : Bool) (current : Option ℕ) (rand : ℕ)
  | wakeup (id : SessionType)
  | wakeupAll
  | getRandomEventLoop (rand : ℕ)
  | getEventLoopBySocketID (id : SessionType)
  /-- the thread of loop `i` runs the first functor of its queue -/
  | runProc (i : ℕ)
  /-- `procDataSocketClose` on the thread of loop `i`, for one of its own sessions -/
  | procDataSocketClose (i : ℕ)
deriving DecidableEq, Repr

/-- One step. -/
def step (s : State) : Action → Option State
  | .startWorkerThread threadNum => some (s.startWorkerThread threadNum)
  | .stopWorkerThread => some s.stopWorkerThread
  | .closeService => some s.closeWorkerThread
  | .send id inLoop => some (s.send id inLoop)
  | .cacheSend id => some (s.cacheSend id)
  | .flushCachePackectList => some s.flushCachePackectList
  | .shutdown id => some (s.postSessionAsyncProc id)
  | .disConnect id => some (s.postSessionAsyncProc id)
  | .setPingCheckTime id => some (s.postSessionAsyncProc id)
  | .addDataSocket forceSameThreadLoop current rand =>
    some (s.helpAddChannel forceSameThreadLoop current rand)
  | .wakeup id => some (s.wakeup id)
  | .wakeupAll => some s.wakeupAll
  | .getRandomEventLoop rand => some (s.getRandomEventLoop rand)
  | .getEventLoopBySocketID id => some (s.wakeup id)
  | .runProc i =>
    match s.procs i with
    | [] => none
    | f :: fs =>
      if i < s.mIOThreads.getD 0 then
        some ({ s with procs := Function.update s.procs i fs }.run f)
      else none
  | .procDataSocketClose i =>
    -- the id of a session holds the lower 16 bits of the index of its loop
    if i < s.mIOThreads.getD 0 then
      some (s.index s.mDataSockets (i % 2 ^ 16) fun s =>
        s.index s.mDataSockets (i % 2 ^ 16) fun s => s)
    else none

/-! ## What is claimed -/

/-- No array was indexed where it is not allocated. -/
def NoFault (s : State) : Prop := s.faults = 0

/-- Every index that the checks accept is an index of each array. -/
def TablesAgree (s : State) : Prop :=
  ∀ i < s.mLoopNum, i < s.mLoops.getD 0 ∧ i < s.mDataSockets.getD 0 ∧ i < s.mIncIds.getD 0 ∧
    i < s.mCachePacketList.getD 0

/-- The method goes behind its check of `mLoopNum`. -/
def Accepted (s : State) : Action → Prop
  | .send id _ | .cacheSend id | .shutdown id | .disConnect id | .setPingCheckTime id | .wakeup id
  | .getEventLoopBySocketID id => loopIndex id < s.mLoopNum
  | .flushCachePackectList | .addDataSocket _ _ _ | .wakeupAll | .getRandomEventLoop _ =>
    0 < s.mLoopNum
  | _ => False

/-- A method goes behind its check while the arrays are released. -/
def CallsReleased (s : State) (a : Action) : Prop := s.mLoops = none ∧ Accepted s a

/-- A service that has loops is closed. -/
def ReleasesLoops (s : State) (a : Action) : Prop :=
  a = .closeService ∧ s.mLoops.isSome ∧ 0 < s.mLoopNum

/-! ## A service with its arrays, and without -/

/-- The indices a functor uses. -/
def AsyncProc.Below (n : ℕ) : AsyncProc → Prop
  | .session id => loopIndex id < n
  | .flushCache msgList => ∀ id ∈ msgList, loopIndex id < n
  | .enter i => i < n

/-- The arrays are allocated for `n` loops, and no functor or message names another loop. -/
structure Allocated (n : ℕ) (s : State) : Prop where
  loops : s.mLoops = some n
  cache : s.mCachePacketList = some n
  sockets : s.mDataSockets = some n
  ids : s.mIncIds = some n
  loopNum : s.mLoopNum = n
  threads : s.mIOThreads = none ∨ s.mIOThreads = some n
  cached : ∀ i, ∀ id ∈ s.cached i, loopIndex id < n
  procs : ∀ i, ∀ f ∈ s.procs i, f.Below n
  noFault : s.faults = 0

/-- The arrays are released, or were never allocated. -/
structure Released (s : State) : Prop where
  loops : s.mLoops = none
  cache : s.mCachePacketList = none
  sockets : s.mDataSockets = none
  ids : s.mIncIds = none
  threads : s.mIOThreads = none
  noFault : s.faults = 0

theorem released_init : Released init := ⟨rfl, rfl, rfl, rfl, rfl, rfl⟩

theorem index_some {s : State} {array : Option ℕ} {n i : ℕ} (h : array = some n) (hi : i < n)
    (k : State → State) : s.index array i k = k s := by
  rw [State.index, h, Option.getD_some, if_pos hi]

theorem index_none {s : State} {array : Option ℕ} (h : array = none) (i : ℕ)
    (k : State → State) : s.index array i k = { s with faults := s.faults + 1 } := by
  rw [State.index, h, Option.getD_none, if_neg (Nat.not_lt_zero i)]

/-- What holds of the elements of every list holds with one list replaced. -/
theorem forall_mem_update {β : Type*} {P : β → Prop} {lists : ℕ → List β} {l : List β} {i : ℕ}
    (hlists : ∀ j, ∀ x ∈ lists j, P x) (hl : ∀ x ∈ l, P x) :
    ∀ j, ∀ x ∈ Function.update lists i l j, P x := by
  intro j x hx
  by_cases hj : j = i
  · subst hj
    rw [Function.update_self] at hx
    exact hl x hx
  · rw [Function.update_of_ne hj] at hx
    exact hlists j x hx

/-- What one round keeps, the loop over all loops keeps. -/
theorem forLoops_invariant {P : State → Prop} {s : State} {n : ℕ} {body : State → ℕ → State}
    (hn : s.mLoopNum = n) (hbody : ∀ s i, P s → i < n → P (body s i)) (hs : P s) :
    P (s.forLoops body) := by
  have hfold : ∀ (is : List ℕ) (s : State), P s → (∀ i ∈ is, i < n) → P (is.foldl body s) := by
    intro is
    induction is with
    | nil => exact fun s hs _ => hs
    | cons i is ih =>
      intro s hs his
      exact ih _ (hbody s i hs (his i List.mem_cons_self))
        fun j hj => his j (List.mem_cons_of_mem i hj)
  exact hfold _ s hs fun i hi => hn ▸ List.mem_range.mp hi

/-! ### With the arrays every method is safe -/

section Allocated
variable {s : State} {n : ℕ}

theorem Allocated.assert (hs : Allocated n s) :
    Allocated n { s with assertHits := s.assertHits + 1 } :=
  { hs with noFault := hs.noFault }

theorem Allocated.guarded (hs : Allocated n s) {id : SessionType} {k : State → State}
    (hk : loopIndex id < n → Allocated n (k s)) : Allocated n (s.guarded id k) := by
  unfold State.guarded
  split
  · rename_i h
    exact hk (hs.loopNum ▸ h)
  · exact hs.assert

theorem Allocated.pushAsyncProc (hs : Allocated n s) {i : ℕ} (hi : i < n) {f : AsyncProc}
    (hf : f.Below n) : Allocated n (s.pushAsyncProc i f) := by
  rw [State.pushAsyncProc, index_some hs.loops hi]
  refine { hs with procs := forall_mem_update hs.procs fun g hg => ?_ }
  rcases List.mem_append.mp hg with hg | hg
  · exact hs.procs i g hg
  · rw [List.mem_singleton.mp hg]
    exact hf

theorem Allocated.setCached (hs : Allocated n s) {i : ℕ} {ids : List SessionType}
    (hids : ∀ id ∈ ids, loopIndex id < n) :
    Allocated n { s with cached := Function.update s.cached i ids } :=
  { hs with cached := forall_mem_update hs.cached hids }

theorem Allocated.forLoops (hs : Allocated n s) {body : State → ℕ → State}
    (hbody : ∀ s i, Allocated n s → i < n → Allocated n (body s i)) :
    Allocated n (s.forLoops body) :=
  forLoops_invariant hs.loopNum hbody hs

theorem Allocated.send (hs : Allocated n s) (id : SessionType) (inLoop : Bool) :
    Allocated n (s.send id inLoop) := by
  refine hs.guarded fun hid => ?_
  rw [index_some hs.loops hid]
  split
  · rwa [index_some hs.sockets hid]
  · exact hs.pushAsyncProc hid hid

theorem Allocated.cacheSend (hs : Allocated n s) (id : SessionType) :
    Allocated n (s.cacheSend id) := by
  refine hs.guarded fun hid => ?_
  rw [index_some hs.cache hid]
  apply hs.setCached
  intro x hx
  rcases List.mem_append.mp hx with hx | hx
  · exact hs.cached _ x hx
  · rw [List.mem_singleton.mp hx]
    exact hid

theorem Allocated.flushCachePackectList (hs : Allocated n s) :
    Allocated n s.flushCachePackectList := by
  refine hs.forLoops fun s i hs hi => ?_
  rw [State.flushLoop, index_some hs.cache hi]
  split
  · exact hs
  · have hpush : Allocated n (s.pushAsyncProc i (.flushCache (s.cached i))) :=
      hs.pushAsyncProc hi (hs.cached i)
    simp only
    rw [index_some hpush.cache hi]
    exact hpush.setCached fun id hid => by cases hid

theorem Allocated.postSessionAsyncProc (hs : Allocated n s) (id : SessionType) :
    Allocated n (s.postSessionAsyncProc id) :=
  hs.guarded fun hid => hs.pushAsyncProc hid hid

theorem Allocated.wakeupLoop (hs : Allocated n s) {i : ℕ} (hi : i < n) :
    Allocated n (s.wakeupLoop i) := by
  rwa [State.wakeupLoop, index_some hs.loops hi]

theorem Allocated.wakeup (hs : Allocated n s) (id : SessionType) : Allocated n (s.wakeup id) :=
  hs.guarded fun hid => hs.wakeupLoop hid

theorem Allocated.wakeupAll (hs : Allocated n s) : Allocated n s.wakeupAll :=
  hs.forLoops fun _ _ hs hi => hs.wakeupLoop hi

theorem Allocated.getRandomEventLoop (hs : Allocated n s) (rand : ℕ) :
    Allocated n (s.getRandomEventLoop rand) := by
  unfold State.getRandomEventLoop
  split
  · rename_i hpos
    exact hs.wakeupLoop (hs.loopNum ▸ Nat.mod_lt rand hpos)
  · exact hs

theorem Allocated.searchLoop (hs : Allocated n s) (current : Option ℕ) {is : List ℕ}
    (his : ∀ i ∈ is, i < n) :
    Allocated n (State.searchLoop current (fun s i => s.pushAsyncProc i (.enter i)) s is) := by
  induction is with
  | nil => exact hs
  | cons i is ih =>
    have hi := his i List.mem_cons_self
    rw [State.searchLoop, index_some hs.loops hi]
    split
    · exact hs.pushAsyncProc hi hi
    · exact ih fun j hj => his j (List.mem_cons_of_mem i hj)

theorem Allocated.helpAddChannel (hs : Allocated n s) (forceSameThreadLoop : Bool)
    (current : Option ℕ) (rand : ℕ) :
    Allocated n (s.helpAddChannel forceSameThreadLoop current rand) := by
  unfold State.helpAddChannel
  split
  · exact hs
  · rename_i hzero
    split
    · exact hs.searchLoop current fun i hi => hs.loopNum ▸ List.mem_range.mp hi
    · have hlt : rand % s.mLoopNum < n :=
        hs.loopNum ▸ Nat.mod_lt rand (Nat.pos_of_ne_zero hzero)
      exact hs.pushAsyncProc hlt hlt

theorem Allocated.wakeLoops (hs : Allocated n s) : Allocated n s.wakeLoops := by
  unfold State.wakeLoops
  split
  · refine Allocated.forLoops ?_ fun s i hs hi => hs.wakeupLoop hi
    exact { hs with noFault := hs.noFault }
  · exact hs

theorem Allocated.joinThreads (hs : Allocated n s) :
    Allocated n s.joinThreads ∧ s.joinThreads.mIOThreads = none := by
  unfold State.joinThreads
  rcases hs.threads with hnone | hsome
  · rw [hnone, if_neg (by decide)]
    exact ⟨hs, hnone⟩
  · rw [hsome, if_pos Option.isSome_some]
    have hjoin : Allocated n (s.forLoops fun s i => s.index s.mIOThreads i fun s => s) ∧
        (s.forLoops fun s i => s.index s.mIOThreads i fun s => s).mIOThreads = some n := by
      refine forLoops_invariant (P := fun s => Allocated n s ∧ s.mIOThreads = some n) hs.loopNum
        (fun s i h hi => ?_) ⟨hs, hsome⟩
      rwa [index_some h.2 hi]
    exact ⟨{ hjoin.1 with threads := Or.inl rfl }, rfl⟩

theorem Allocated.stopWorkerThread (hs : Allocated n s) : Allocated n s.stopWorkerThread :=
  hs.wakeLoops.joinThreads.1

theorem Allocated.closeWorkerThread (hs : Allocated n s) :
    Released s.closeWorkerThread ∧ s.closeWorkerThread.mLoopNum = n := by
  obtain ⟨hstop, hthreads⟩ := hs.wakeLoops.joinThreads
  exact ⟨⟨rfl, rfl, rfl, rfl, hthreads, hstop.noFault⟩, hstop.loopNum⟩

theorem Allocated.run (hs : Allocated n s) {f : AsyncProc} (hf : f.Below n) :
    Allocated n (s.run f) := by
  cases f with
  | session id => rwa [State.run, index_some hs.sockets hf]
  | enter i =>
    rwa [State.run, index_some hs.sockets hf, index_some hs.ids hf, index_some hs.sockets hf]
  | flushCache msgList =>
    rw [State.run]
    induction msgList with
    | nil => exact hs
    | cons id ids ih =>
      rw [List.foldl_cons, index_some hs.sockets (hf id List.mem_cons_self)]
      exact ih fun x hx => hf x (List.mem_cons_of_mem id hx)

theorem Allocated.popProc (hs : Allocated n s) {i : ℕ} {f : AsyncProc} {fs : List AsyncProc}
    (hprocs : s.procs i = f :: fs) :
    f.Below n ∧ Allocated n { s with procs := Function.update s.procs i fs } := by
  have hbelow : ∀ g ∈ f :: fs, g.Below n := fun g hg => hs.procs i g (hprocs ▸ hg)
  have hrest : ∀ g ∈ fs, g.Below n := fun g hg => hbelow g (List.mem_cons_of_mem f hg)
  exact ⟨hbelow f List.mem_cons_self, { hs with procs := forall_mem_update hs.procs hrest }⟩

/-- A step keeps the arrays, unless it closes the service. -/
theorem Allocated.step {t : State} {a : Action} (hs : Allocated n s) (h : step s a = some t)
    (ha : a ≠ .closeService) : Allocated n t := by
  cases a with
  | closeService => exact absurd rfl ha
  | startWorkerThread threadNum =>
    simp only [ServiceArrays.step, Option.some.injEq] at h
    subst h
    -- the arrays are there, so nothing is started again
    rw [State.startWorkerThread, if_neg (by rw [hs.loops]; nofun)]
    exact hs
  | stopWorkerThread =>
    cases h
    exact hs.stopWorkerThread
  | send id inLoop =>
    cases h
    exact hs.send id inLoop
  | cacheSend id =>
    cases h
    exact hs.cacheSend id
  | flushCachePackectList =>
    cases h
    exact hs.flushCachePackectList
  | shutdown id | disConnect id | setPingCheckTime id =>
    cases h
    exact hs.postSessionAsyncProc id
  | addDataSocket forceSameThreadLoop current rand =>
    cases h
    exact hs.helpAddChannel forceSameThreadLoop current rand
  | wakeup id | getEventLoopBySocketID id =>
    cases h
    exact hs.wakeup id
  | wakeupAll =>
    cases h
    exact hs.wakeupAll
  | getRandomEventLoop rand =>
    cases h
    exact hs.getRandomEventLoop rand
  | runProc i =>
    rcases hprocs : s.procs i with _ | ⟨f, fs⟩
    · simp only [ServiceArrays.step, hprocs, reduceCtorEq] at h
    · simp only [ServiceArrays.step, hprocs, Option.ite_none_right_eq_some,
        Option.some.injEq] at h
      obtain ⟨-, rfl⟩ := h
      -- a functor that waits has an id that was checked against as many loops
      obtain ⟨hf, hpop⟩ := hs.popProc hprocs
      exact hpop.run hf
  | procDataSocketClose i =>
    simp only [ServiceArrays.step, Option.ite_none_right_eq_some, Option.some.injEq] at h
    obtain ⟨hi, rfl⟩ := h
    have hlt : i % 2 ^ 16 < n := by
      rcases hs.threads with hnone | hsome
      · rw [hnone] at hi
        exact absurd hi (Nat.not_lt_zero i)
      · rw [hsome] at hi
        exact lt_of_le_of_lt (Nat.mod_le i _) hi
    rwa [index_some hs.sockets hlt, index_some hs.sockets hlt]

end Allocated

/-! ### Without the arrays only the checks are safe -/

section Released
variable {s : State}

theorem guarded_fault {id : SessionType} (hid : loopIndex id < s.mLoopNum) {k : State → State}
    (hk : k s = { s with faults := s.faults + 1 }) : (s.guarded id k).faults ≠ 0 := by
  rw [State.guarded, if_pos hid, hk]
  exact Nat.succ_ne_zero s.faults

/-- The loops over all loops fault in every round. -/
theorem forLoops_fault {body : State → ℕ → State}
    (hbody : ∀ t i, Released { t with faults := 0 } → body t i = { t with faults := t.faults + 1 })
    (hs : Released s) : (s.forLoops body).faults = s.mLoopNum := by
  -- induction on the rounds that are left, whatever was counted before
  have hfold : ∀ (is : List ℕ) (t : State), Released { t with faults := 0 } →
      (is.foldl body t).faults = t.faults + is.length := by
    intro is
    induction is with
    | nil => exact fun t _ => rfl
    | cons i is ih =>
      intro t ht
      rw [List.foldl_cons, hbody t i ht, ih { t with faults := t.faults + 1 } ht, List.length_cons]
      simp only
      omega
  have hreset : Released { s with faults := 0 } :=
    ⟨hs.loops, hs.cache, hs.sockets, hs.ids, hs.threads, rfl⟩
  rw [State.forLoops, hfold _ s hreset, hs.noFault, List.length_range, Nat.zero_add]

theorem Released.stopWorkerThread (hs : Released s) : s.stopWorkerThread = s := by
  -- both loops of `stopWorkerThread` are behind a test of their pointer
  have hwake : s.wakeLoops = s := by
    rw [State.wakeLoops, hs.loops, if_neg (by decide)]
  rw [State.stopWorkerThread, hwake, State.joinThreads, hs.threads, if_neg (by decide)]

theorem Released.startWorkerThread (hs : Released s) (threadNum : ℕ) :
    Allocated threadNum (s.startWorkerThread threadNum) := by
  rw [State.startWorkerThread, if_pos hs.loops]
  exact ⟨rfl, rfl, rfl, rfl, rfl, Or.inr rfl, fun _ _ h => (by cases h), fun _ _ h => (by cases h),
    hs.noFault⟩

/-- A method that goes behind its check faults. -/
theorem Released.fault (hs : Released s) {a : Action} (ha : Accepted s a) :
    ∃ t, step s a = some t ∧ t.faults ≠ 0 := by
  cases a with
  | send id inLoop =>
    refine ⟨s.send id inLoop, rfl, guarded_fault ha ?_⟩
    exact index_none hs.loops _ _
  | cacheSend id =>
    refine ⟨s.cacheSend id, rfl, guarded_fault ha ?_⟩
    exact index_none hs.cache _ _
  | shutdown id | disConnect id | setPingCheckTime id =>
    refine ⟨s.postSessionAsyncProc id, rfl, guarded_fault ha ?_⟩
    exact index_none hs.loops _ _
  | wakeup id | getEventLoopBySocketID id =>
    refine ⟨s.wakeup id, rfl, guarded_fault ha ?_⟩
    exact index_none hs.loops _ _
  | flushCachePackectList =>
    refine ⟨s.flushCachePackectList, rfl, ?_⟩
    have hall : s.flushCachePackectList.faults = s.mLoopNum :=
      forLoops_fault (fun t i ht => index_none ht.cache i _) hs
    rw [hall]
    exact Nat.ne_of_gt ha
  | wakeupAll =>
    refine ⟨s.wakeupAll, rfl, ?_⟩
    have hall : s.wakeupAll.faults = s.mLoopNum :=
      forLoops_fault (fun t i ht => index_none ht.loops i _) hs
    rw [hall]
    exact Nat.ne_of_gt ha
  | getRandomEventLoop rand =>
    refine ⟨s.getRandomEventLoop rand, rfl, ?_⟩
    have hpos : 0 < s.mLoopNum := ha
    rw [State.getRandomEventLoop, if_pos hpos, State.wakeupLoop, index_none hs.loops]
    exact Nat.succ_ne_zero s.faults
  | addDataSocket forceSameThreadLoop current rand =>
    refine ⟨s.helpAddChannel forceSameThreadLoop current rand, rfl, ?_⟩
    have hpos : 0 < s.mLoopNum := ha
    rw [State.helpAddChannel, if_neg (by omega)]
    split
    · -- the search for the calling thread's loop begins with `mLoops[0]`
      obtain ⟨m, hm⟩ := Nat.exists_eq_succ_of_ne_zero (Nat.ne_of_gt hpos)
      rw [hm, List.range_succ_eq_map, State.searchLoop, index_none hs.loops]
      exact Nat.succ_ne_zero s.faults
    · rw [State.pushAsyncProc, index_none hs.loops]
      exact Nat.succ_ne_zero s.faults
  | startWorkerThread | stopWorkerThread | closeService | runProc | procDataSocketClose =>
    exact ha.elim

/-- A method that stops at its check changes nothing. -/
theorem Released.guarded_skip (hs : Released s) {id : SessionType}
    (hid : ¬ loopIndex id < s.mLoopNum) (k : State → State) :
    Released (s.guarded id k) ∧ (s.guarded id k).mLoopNum = s.mLoopNum := by
  rw [State.guarded, if_neg hid]
  exact ⟨⟨hs.loops, hs.cache, hs.sockets, hs.ids, hs.threads, hs.noFault⟩, rfl⟩

theorem forLoops_zero (h : s.mLoopNum = 0) (body : State → ℕ → State) : s.forLoops body = s := by
  rw [State.forLoops, h]
  rfl

/-- The other steps keep the arrays released, or allocate them. -/
theorem Released.step {t : State} {a : Action} (hs : Released s) (ha : ¬ Accepted s a)
    (h : step s a = some t) :
    (Released t ∧ t.mLoopNum = s.mLoopNum) ∨ ∃ n, Allocated n t := by
  cases a with
  | startWorkerThread threadNum =>
    cases h
    exact Or.inr ⟨threadNum, hs.startWorkerThread threadNum⟩
  | stopWorkerThread =>
    cases h
    rw [hs.stopWorkerThread]
    exact Or.inl ⟨hs, rfl⟩
  | closeService =>
    cases h
    rw [State.closeWorkerThread, hs.stopWorkerThread]
    exact Or.inl ⟨⟨rfl, rfl, rfl, rfl, hs.threads, hs.noFault⟩, rfl⟩
  | send | cacheSend | shutdown | disConnect | setPingCheckTime | wakeup
  | getEventLoopBySocketID =>
    cases h
    exact Or.inl (hs.guarded_skip ha _)
  | flushCachePackectList =>
    cases h
    rw [State.flushCachePackectList, forLoops_zero (Nat.eq_zero_of_not_pos ha)]
    exact Or.inl ⟨hs, rfl⟩
  | wakeupAll =>
    cases h
    rw [State.wakeupAll, forLoops_zero (Nat.eq_zero_of_not_pos ha)]
    exact Or.inl ⟨hs, rfl⟩
  | getRandomEventLoop rand =>
    have hzero : ¬ 0 < s.mLoopNum := ha
    cases h
    rw [State.getRandomEventLoop, if_neg hzero]
    exact Or.inl ⟨hs, rfl⟩
  | addDataSocket forceSameThreadLoop current rand =>
    cases h
    rw [State.helpAddChannel, if_pos (Nat.eq_zero_of_not_pos ha)]
    exact Or.inl ⟨hs, rfl⟩
  | runProc i =>
    rcases hprocs : s.procs i with _ | ⟨f, fs⟩
    · simp only [ServiceArrays.step, hprocs, reduceCtorEq] at h
    · simp only [ServiceArrays.step, hprocs, hs.threads, Option.getD_none, Nat.not_lt_zero,
        if_false, reduceCtorEq] at h
  | procDataSocketClose i =>
    -- the threads were joined, so none of them runs anything
    simp only [ServiceArrays.step, hs.threads, Option.getD_none, Nat.not_lt_zero, if_false,
      reduceCtorEq] at h

end Released

/-! ## The runs that are safe -/

theorem always_noFault_iff (actions : List Action) :
    Transition.Always step NoFault init actions ↔
      Transition.Throughout step (fun s a => ¬ CallsReleased s a) init actions := by
  refine Transition.always_iff_throughout (W := fun _ _ => True)
    (I := fun s => Released s ∨ ∃ n, Allocated n s) ?_ ?_ ?_ (Or.inl released_init)
    (Transition.throughout_of_forall (fun _ _ => trivial) _ _)
  · rintro s (hs | ⟨n, hs⟩)
    · exact hs.noFault
    · exact hs.noFault
  · rintro s a t (hs | ⟨n, hs⟩) - ha ht
    · rcases hs.step (fun hacc => ha ⟨hs.loops, hacc⟩) ht with h | h
      · exact Or.inl h.1
      · exact Or.inr h
    · by_cases hclose : a = .closeService
      · subst hclose
        cases ht
        exact Or.inl hs.closeWorkerThread.1
      · exact Or.inr ⟨n, hs.step ht hclose⟩
  · rintro s a (hs | ⟨n, hs⟩) - ha
    · exact hs.fault (not_not.mp ha).2
    · have hnone := (not_not.mp ha).1
      rw [hs.loops] at hnone
      cases hnone

/-- Released arrays agree with the loop count only if it is zero. -/
theorem Released.tablesAgree_iff {s : State} (hs : Released s) :
    TablesAgree s ↔ s.mLoopNum = 0 := by
  constructor
  · intro h
    by_contra hne
    have hlt := (h 0 (Nat.pos_of_ne_zero hne)).1
    rw [hs.loops] at hlt
    exact Nat.not_lt_zero 0 hlt
  · intro h i hi
    rw [h] at hi
    exact absurd hi (Nat.not_lt_zero i)

theorem Allocated.tablesAgree {s : State} {n : ℕ} (hs : Allocated n s) : TablesAgree s := by
  intro i hi
  rw [hs.loopNum] at hi
  rw [hs.loops, hs.sockets, hs.ids, hs.cache]
  exact ⟨hi, hi, hi, hi⟩

/-- With no loops no method goes behind its check. -/
theorem not_accepted_of_zero {s : State} (hzero : s.mLoopNum = 0) (a : Action) :
    ¬ Accepted s a := by
  intro h
  have hpos : 0 < s.mLoopNum := by
    cases a with
    | send | cacheSend | shutdown | disConnect | setPingCheckTime | wakeup
    | getEventLoopBySocketID => exact Nat.zero_lt_of_lt h
    | flushCachePackectList | addDataSocket | wakeupAll | getRandomEventLoop => exact h
    | startWorkerThread | stopWorkerThread | closeService | runProc | procDataSocketClose =>
      exact h.elim
  omega

theorem always_tablesAgree_iff (actions : List Action) :
    Transition.Always step TablesAgree init actions ↔
      Transition.Throughout step (fun s a => ¬ ReleasesLoops s a) init actions := by
  refine Transition.always_iff_throughout (W := fun _ _ => True)
    (I := fun s => (Released s ∧ s.mLoopNum = 0) ∨ ∃ n, Allocated n s) ?_ ?_ ?_
    (Or.inl ⟨released_init, rfl⟩) (Transition.throughout_of_forall (fun _ _ => trivial) _ _)
  · rintro s (⟨hs, hzero⟩ | ⟨n, hs⟩)
    · exact hs.tablesAgree_iff.mpr hzero
    · exact hs.tablesAgree
  · rintro s a t (⟨hs, hzero⟩ | ⟨n, hs⟩) - ha ht
    · rcases hs.step (not_accepted_of_zero hzero a) ht with h | h
      · exact Or.inl ⟨h.1, h.2.trans hzero⟩
      · exact Or.inr h
    · by_cases hclose : a = .closeService
      · subst hclose
        cases ht
        refine Or.inl ⟨hs.closeWorkerThread.1, ?_⟩
        by_contra hne
        refine ha ⟨rfl, by rw [hs.loops]; rfl, ?_⟩
        rw [hs.loopNum, ← hs.closeWorkerThread.2]
        exact Nat.pos_of_ne_zero hne
      · exact Or.inr ⟨n, hs.step ht hclose⟩
  · rintro s a (⟨hs, hzero⟩ | ⟨n, hs⟩) - ha
    · have hpos := (not_not.mp ha).2.2
      omega
    · obtain ⟨rfl, -, hpos⟩ := not_not.mp ha
      refine ⟨s.closeWorkerThread, rfl, fun h => ?_⟩
      have hzero := hs.closeWorkerThread.1.tablesAgree_iff.mp h
      rw [hs.closeWorkerThread.2] at hzero
      rw [hs.loopNum] at hpos
      omega

/-- **When the arrays bear the loop count.** No array is indexed out of its bounds in a run
exactly if no method goes behind its check while the arrays are released; and every accepted
index is one of every array in all its states exactly if no service that has loops is closed. -/
theorem arrays_safe_iff (actions : List Action) :
    (Transition.Always step NoFault init actions ↔
      Transition.Throughout step (fun s a => ¬ CallsReleased s a) init actions) ∧
    (Transition.Always step TablesAgree init actions ↔
      Transition.Throughout step (fun s a => ¬ ReleasesLoops s a) init actions) :=
  ⟨always_noFault_iff actions, always_tablesAgree_iff actions⟩

/-- One loop is started, the service is closed, and a session sends. -/
theorem not_always_noFault :
    ¬ ∀ actions, Transition.Always step NoFault init actions := by
  intro h
  have hlast := (h [.startWorkerThread 1, .closeService, .send 0 false]).2 _ rfl
  have hfault : NoFault _ := (hlast.2 _ rfl).2 _ rfl
  unfold NoFault at hfault
  exact absurd hfault (by decide)

end ServiceArrays
end Netxy
