import Mathlib.Data.List.Basic
import Mathlib.Data.Nat.Notation
import Mathlib.Logic.Function.Basic
import Netxy.Lib.Transition

/-!
# `EventLoop::pushAsyncProc` against `EventLoop::loop`

The atomic steps of any number of producer threads handing functors to an event loop, and of
the loop's own thread. Threads are interleaved freely, and the two flags are sequentially
consistent. The eventfd is registered with `EPOLLET`: a write makes `epoll_wait` report it
once more, and `epoll_wait` may also return for another event or at its timeout.
-/

namespace Netxy
namespace Wakeup

/-! ## The two programs -/

/-- The next step of a thread in `pushAsyncProc`. -/
inductive ProducerPc (F : Type*)
  /-- not in `pushAsyncProc` -/
  | idle
  /-- `mAsyncProcsMutex.lock()` -/
  | locking (f : F)
  /-- `mAsyncProcs.push_back(f)` -/
  | pushing (f : F)
  /-- `mAsyncProcsMutex.unlock()` -/
  | unlocking
  /-- the read of `mIsInBlock` in `wakeup` -/
  | readBlock
  /-- `mIsAlreadyPostWakeup.exchange(true)` -/
  | exchange
  /-- `WakeupChannel::wakeup`, the write to the eventfd -/
  | writeFd
deriving DecidableEq, Repr

/-- The next step of the loop's thread in `loop`. -/
inductive LoopPc
  /-- in `epoll_wait` -/
  | waiting
  /-- `mIsInBlock = false`; `evt` says whether the eventfd was reported -/
  | woken (evt : Bool)
  /-- the `for` over the reported events -/
  | handling (evt : Bool)
  /-- the next `read` of `WakeupChannel::canRecv` -/
  | draining
  /-- `mIsAlreadyPostWakeup = false` -/
  | resetWakeup
  /-- `mIsInBlock = true` -/
  | setBlock
  /-- `mAsyncProcsMutex.lock()` in `processAsyncProcs` -/
  | lockSwap
  /-- `mCopyAsyncProcs.swap(mAsyncProcs)` -/
  | swapping
  /-- `mAsyncProcsMutex.unlock()` in `processAsyncProcs` -/
  | unlockSwap
  /-- the `for` over `mCopyAsyncProcs`, and what follows up to the next `epoll_wait` -/
  | running
deriving DecidableEq, Repr

/-- Who holds `mAsyncProcsMutex`. -/
inductive Owner (ι : Type*)
  | producer (p : ι)
  | loop
deriving DecidableEq, Repr

/-- The event loop and its producers. `pushed` and `executed` record the functors in the
order they entered `mAsyncProcs` and in the order they were run. Of `mCopyAsyncProcs` the
model keeps the part that is still to be run. -/
structure State (ι F : Type*) where
  mAsyncProcs : List F
  mCopyAsyncProcs : List F
  mutex : Option (Owner ι)
  mIsInBlock : Bool
  mIsAlreadyPostWakeup : Bool
  /-- the counter of the eventfd -/
  eventfd : ℕ
  /-- the eventfd is on the ready list of the epoll instance -/
  ready : Bool
  producers : ι → ProducerPc F
  loopPc : LoopPc
  pushed : List F
  executed : List F

variable {ι F : Type*}

/-- A new loop, about to wait for the first time. -/
def init : State ι F where
  mAsyncProcs := []
  mCopyAsyncProcs := []
  mutex := none
  mIsInBlock := true
  mIsAlreadyPostWakeup := false
  eventfd := 0
  ready := false
  producers := fun _ => .idle
  loopPc := .waiting
  pushed := []
  executed := []

/-- One atomic step of the loop's thread; `evt` is what `epoll_wait` reports. -/
def loopStep (s : State ι F) (evt : Bool) : Option (State ι F) :=
  match s.loopPc with
  | .waiting =>
    if evt then
      if s.ready then some { s with ready := false, loopPc := .woken true } else none
    else some { s with loopPc := .woken false }
  | .woken evt => some { s with mIsInBlock := false, loopPc := .handling evt }
  | .handling true => some { s with loopPc := .draining }
  | .handling false => some { s with loopPc := .resetWakeup }
  | .draining =>
    -- a read of a zero counter answers -1 and ends the `while (true)`
    if s.eventfd = 0 then some { s with loopPc := .resetWakeup }
    else some { s with eventfd := 0 }
  | .resetWakeup => some { s with mIsAlreadyPostWakeup := false, loopPc := .setBlock }
  | .setBlock => some { s with mIsInBlock := true, loopPc := .lockSwap }
  | .lockSwap =>
    if s.mutex = none then some { s with mutex := some .loop, loopPc := .swapping } else none
  | .swapping =>
    some { s with
      mCopyAsyncProcs := s.mAsyncProcs
      mAsyncProcs := s.mCopyAsyncProcs
      loopPc := .unlockSwap }
  | .unlockSwap => some { s with mutex := none, loopPc := .running }
  | .running =>
    match s.mCopyAsyncProcs with
    | [] => some { s with loopPc := .waiting }
    | f :: fs => some { s with mCopyAsyncProcs := fs, executed := s.executed ++ [f] }

variable [DecidableEq ι]

/-- Producer `p` moves on to `pc`. -/
def State.goto (s : State ι F) (p : ι) (pc : ProducerPc F) : State ι F :=
  { s with producers := Function.update s.producers p pc }

/-- One atomic step of producer `p`, which is not the loop's thread. -/
def producerStep (s : State ι F) (p : ι) : Option (State ι F) :=
  match s.producers p with
  | .idle => none
  | .locking f =>
    if s.mutex = none then some { s.goto p (.pushing f) with mutex := some (.producer p) }
    else none
  | .pushing f =>
    some { s.goto p .unlocking with
      mAsyncProcs := s.mAsyncProcs ++ [f]
      pushed := s.pushed ++ [f] }
  | .unlocking => some { s.goto p .readBlock with mutex := none }
  | .readBlock => some (s.goto p (if s.mIsInBlock then .exchange else .idle))
  | .exchange =>
    some { s.goto p (if s.mIsAlreadyPostWakeup then .idle else .writeFd) with
      mIsAlreadyPostWakeup := true }
  | .writeFd => some { s.goto p .idle with eventfd := s.eventfd + 1, ready := true }

/-- Which thread moves. -/
inductive Action (ι F : Type*)
  /-- `p` calls `pushAsyncProc(f)` -/
  | call (p : ι) (f : F)
  | producer (p : ι)
  | loop (evt : Bool)
deriving DecidableEq, Repr

def step (s : State ι F) : Action ι F → Option (State ι F)
  | .call p f =>
    match s.producers p with
    | .idle => some (s.goto p (.locking f))
    | _ => none
  | .producer p => producerStep s p
  | .loop evt => loopStep s evt

/-! ## What holds in every state -/

/-- Between its push and the end of its wakeup. -/
@[simp] def ProducerPc.Pushed : ProducerPc F → Prop
  | .unlocking | .readBlock | .exchange | .writeFd => True
  | _ => False

/-- In `loop` after `epoll_wait` and before the swap. -/
@[simp] def LoopPc.BeforeSwap : LoopPc → Prop
  | .woken _ | .handling _ | .draining | .resetWakeup | .setBlock | .lockSwap | .swapping => True
  | _ => False

/-- Where `mIsInBlock` is down. -/
@[simp] def LoopPc.Busy : LoopPc → Prop
  | .handling _ | .draining | .resetWakeup | .setBlock => True
  | _ => False

theorem LoopPc.Busy.beforeSwap {pc : LoopPc} (h : pc.Busy) : pc.BeforeSwap := by
  cases pc <;> trivial

/-- On the way to reading the eventfd down to zero. -/
@[simp] def LoopPc.Draining : LoopPc → Prop
  | .woken evt | .handling evt => evt = true
  | .draining => True
  | _ => False

structure Inv (s : State ι F) : Prop where
  /-- Functors leave in the order in which they came. -/
  order : s.executed ++ s.mCopyAsyncProcs ++ s.mAsyncProcs = s.pushed
  copy : s.loopPc ≠ .unlockSwap → s.loopPc ≠ .running → s.mCopyAsyncProcs = []
  /-- A posted wakeup is on its way, or is just being taken. -/
  posted : s.mIsAlreadyPostWakeup = true →
    (∃ p, s.producers p = .writeFd) ∨ 0 < s.eventfd ∨ s.loopPc = .draining ∨ s.loopPc = .resetWakeup
  block : s.mIsInBlock = false → s.loopPc.Busy
  /-- Whatever is queued will be seen. -/
  queue : s.mAsyncProcs ≠ [] →
    s.loopPc.BeforeSwap ∨ (∃ p, (s.producers p).Pushed) ∨ 0 < s.eventfd
  /-- A signalled eventfd will be reported, or is already being read. -/
  ready : 0 < s.eventfd → s.ready = true ∨ s.loopPc.Draining

omit [DecidableEq ι] in
theorem inv_init : Inv (init : State ι F) where
  order := rfl
  copy _ _ := rfl
  posted h := by cases h
  block h := by cases h
  queue h := absurd rfl h
  ready h := absurd h (Nat.lt_irrefl 0)

/-- A thread that is not at `Q` may move without any other thread leaving `Q`. -/
theorem exists_goto {Q : ProducerPc F → Prop} {s : State ι F} {p : ι} (pc : ProducerPc F)
    (hp : ¬ Q (s.producers p)) (h : ∃ q, Q (s.producers q)) :
    ∃ q, Q ((s.goto p pc).producers q) := by
  obtain ⟨q, hq⟩ := h
  have hne : q ≠ p := by
    rintro rfl
    exact hp hq
  exact ⟨q, by simpa only [State.goto, Function.update_of_ne hne] using hq⟩

theorem goto_self {Q : ProducerPc F → Prop} {s : State ι F} {p : ι} {pc : ProducerPc F}
    (h : Q pc) : ∃ q, Q ((s.goto p pc).producers q) :=
  ⟨p, by simpa only [State.goto, Function.update_self] using h⟩

omit [DecidableEq ι] in
theorem Inv.setMutex {s : State ι F} (hs : Inv s) (m : Option (Owner ι)) :
    Inv { s with mutex := m } :=
  ⟨hs.order, hs.copy, hs.posted, hs.block, hs.queue, hs.ready⟩

omit [DecidableEq ι] in
/-- The loop moves on to `pc`, when what `Inv` asks at its old place is asked at `pc` too. -/
theorem Inv.moveLoop {s : State ι F} {pc : LoopPc} (hs : Inv s)
    (hcopy : pc ≠ .unlockSwap → pc ≠ .running → s.mCopyAsyncProcs = [])
    (hposted : s.loopPc = .draining ∨ s.loopPc = .resetWakeup →
      pc = .draining ∨ pc = .resetWakeup)
    (hblock : s.mIsInBlock = false → pc.Busy)
    (hqueue : s.loopPc.BeforeSwap → pc.BeforeSwap)
    (hready : s.loopPc.Draining → 0 < s.eventfd → pc.Draining) :
    Inv { s with loopPc := pc } where
  order := hs.order
  copy := hcopy
  posted h := (hs.posted h).imp_right (Or.imp_right hposted)
  block := hblock
  queue h := (hs.queue h).imp_left hqueue
  ready h := (hs.ready h).imp_right fun hd => hready hd h

/-! ### The loop's own steps -/

omit [DecidableEq ι] in
theorem Inv.not_mIsInBlock {s : State ι F} (hs : Inv s) (h : ¬ s.loopPc.Busy) :
    s.mIsInBlock ≠ false := fun hf => h (hs.block hf)

omit [DecidableEq ι] in
/-- The eventfd is reported and `ready` taken away: the loop will drain it. -/
theorem Inv.reported {s : State ι F} (hs : Inv s) (hpc : s.loopPc = .waiting) :
    Inv { s with ready := false, loopPc := .woken true } := by
  have hcopy := hs.copy (by simp [hpc]) (by simp [hpc])
  have hnot := hs.not_mIsInBlock (by simp [hpc])
  have hwoken : Inv { s with loopPc := .woken true } :=
    hs.moveLoop (fun _ _ => hcopy) (by simp [hpc]) (fun hf => absurd hf hnot) (by simp)
      (by simp [hpc])
  exact { hwoken with ready := fun _ => Or.inr rfl }

omit [DecidableEq ι] in
/-- `mIsInBlock` may be down only at the new place, so it goes down after the move. -/
theorem Inv.woken {s : State ι F} {evt : Bool} (hs : Inv s) (hpc : s.loopPc = .woken evt) :
    Inv { s with mIsInBlock := false, loopPc := .handling evt } := by
  have hcopy := hs.copy (by simp [hpc]) (by simp [hpc])
  have hmove : Inv { s with mIsInBlock := true, loopPc := .handling evt } :=
    Inv.moveLoop (s := { s with mIsInBlock := true })
      { hs with block := fun hf => by cases hf } (fun _ _ => hcopy) (by simp [hpc])
      (fun hf => by cases hf) (by simp) (fun hd _ => by simpa [hpc] using hd)
  exact { hmove with block := fun _ => trivial }

omit [DecidableEq ι] in
/-- A positive counter is read down to zero, and the loop stays to read again. -/
theorem Inv.drain {s : State ι F} (hs : Inv s) (hpc : s.loopPc = .draining) :
    Inv { s with eventfd := 0 } where
  order := hs.order
  copy := hs.copy
  posted _ := Or.inr (Or.inr (Or.inl hpc))
  block := hs.block
  queue _ := Or.inl (by simp [hpc])
  ready he := absurd he (Nat.lt_irrefl 0)

omit [DecidableEq ι] in
theorem Inv.resetWakeup {s : State ι F} (hs : Inv s) (hpc : s.loopPc = .resetWakeup) :
    Inv { s with mIsAlreadyPostWakeup := false, loopPc := .setBlock } where
  order := hs.order
  copy _ _ := hs.copy (by simp [hpc]) (by simp [hpc])
  posted hp := by cases hp
  block _ := trivial
  queue _ := Or.inl trivial
  ready he := Or.inl (by simpa [hpc] using hs.ready he)

omit [DecidableEq ι] in
/-- The swap empties `mAsyncProcs`, since the last batch was run to its end. -/
theorem Inv.swap {s : State ι F} (hs : Inv s) (hpc : s.loopPc = .swapping) :
    Inv { s with
      mCopyAsyncProcs := s.mAsyncProcs
      mAsyncProcs := s.mCopyAsyncProcs
      loopPc := .unlockSwap } := by
  have hcopy := hs.copy (by simp [hpc]) (by simp [hpc])
  constructor
  case order => simpa [hcopy] using hs.order
  case copy => exact fun hne _ => absurd rfl hne
  case posted => exact fun hp => by simpa [hpc] using hs.posted hp
  case block => exact fun hf => absurd hf (hs.not_mIsInBlock (by simp [hpc]))
  case queue => exact fun hne => absurd hcopy hne
  case ready => exact fun he => by simpa [hpc] using hs.ready he

omit [DecidableEq ι] in
theorem Inv.runNext {s : State ι F} {f : F} {fs : List F} (hs : Inv s) (hpc : s.loopPc = .running)
    (hcons : s.mCopyAsyncProcs = f :: fs) :
    Inv { s with mCopyAsyncProcs := fs, executed := s.executed ++ [f] } where
  order := by simpa [hcons] using hs.order
  copy _ hne := absurd hpc hne
  posted := hs.posted
  block := hs.block
  queue := hs.queue
  ready := hs.ready

omit [DecidableEq ι] in
/-- `evt` is false in `woken` exactly when the eventfd was not reported, and then `ready` still
stands. -/
theorem inv_loopStep {s t : State ι F} {evt : Bool} (hs : Inv s) (h : loopStep s evt = some t) :
    Inv t := by
  unfold loopStep at h
  split at h
  case h_1 hpc =>
    split at h
    · split at h <;> cases h
      exact hs.reported hpc
    · cases h
      exact hs.moveLoop (fun _ _ => hs.copy (by simp [hpc]) (by simp [hpc])) (by simp [hpc])
        (fun hf => absurd hf (hs.not_mIsInBlock (by simp [hpc]))) (by simp) (by simp [hpc])
  case h_2 b hpc =>
    cases h
    exact hs.woken hpc
  case h_3 hpc =>
    cases h
    exact hs.moveLoop (fun _ _ => hs.copy (by simp [hpc]) (by simp [hpc])) (by simp [hpc])
      (fun _ => trivial) (by simp) (by simp)
  case h_4 hpc =>
    cases h
    exact hs.moveLoop (fun _ _ => hs.copy (by simp [hpc]) (by simp [hpc])) (by simp [hpc])
      (fun _ => trivial) (by simp) (by simp [hpc])
  case h_5 hpc =>
    split at h
    next hzero =>
      cases h
      exact hs.moveLoop (fun _ _ => hs.copy (by simp [hpc]) (by simp [hpc])) (by simp)
        (fun _ => trivial) (by simp) (by simp [hzero])
    next =>
      cases h
      exact hs.drain hpc
  case h_6 hpc =>
    cases h
    exact hs.resetWakeup hpc
  case h_7 hpc =>
    cases h
    have hset : Inv { s with mIsInBlock := true } := { hs with block := fun hf => by cases hf }
    exact hset.moveLoop (fun _ _ => hs.copy (by simp [hpc]) (by simp [hpc])) (by simp [hpc])
      (fun hf => by cases hf) (by simp) (by simp [hpc])
  case h_8 hpc =>
    split at h <;> cases h
    exact (hs.setMutex (some .loop)).moveLoop
      (fun _ _ => hs.copy (by simp [hpc]) (by simp [hpc])) (by simp [hpc])
      (fun hf => absurd hf (hs.not_mIsInBlock (by simp [hpc]))) (by simp) (by simp [hpc])
  case h_9 hpc =>
    cases h
    exact hs.swap hpc
  case h_10 hpc =>
    cases h
    exact (hs.setMutex none).moveLoop (fun _ hne => absurd rfl hne) (by simp [hpc])
      (fun hf => absurd hf (hs.not_mIsInBlock (by simp [hpc]))) (by simp [hpc]) (by simp [hpc])
  case h_11 hpc =>
    split at h
    next hnil =>
      cases h
      exact hs.moveLoop (fun _ _ => hnil) (by simp [hpc])
        (fun hf => absurd hf (hs.not_mIsInBlock (by simp [hpc]))) (by simp [hpc]) (by simp [hpc])
    next f fs hcons =>
      cases h
      exact hs.runNext hpc hcons

/-! ### The producers' steps -/

/-- Moving a producer on, when it owes no write and leaves no pushed functor behind. -/
theorem Inv.goto {s : State ι F} {p : ι} {pc : ProducerPc F} (hs : Inv s)
    (hwrite : s.producers p ≠ .writeFd) (hpushed : (s.producers p).Pushed → pc.Pushed) :
    Inv (s.goto p pc) where
  order := hs.order
  copy := hs.copy
  posted h := (hs.posted h).imp_left (exists_goto (Q := (· = .writeFd)) pc hwrite)
  block := hs.block
  queue h := by
    refine (hs.queue h).imp_right (Or.imp_left fun hex => ?_)
    by_cases hp : (s.producers p).Pushed
    · exact goto_self (hpushed hp)
    · exact exists_goto pc hp hex
  ready := hs.ready

/-- A producer's steps. It gives up after its push in two places only: where `mIsInBlock` is
down, and then the swap is still ahead, and where the flag was up, and then another wakeup
is on its way. -/
theorem inv_producerStep {s t : State ι F} {p : ι} (hs : Inv s) (h : producerStep s p = some t) :
    Inv t := by
  unfold producerStep at h
  split at h <;> rename_i hpc
  case h_1 => cases h
  case h_2 =>
    split at h <;> cases h
    exact (hs.goto (by simp [hpc]) (by simp [hpc])).setMutex _
  case h_3 f =>
    cases h
    have hgoto : Inv (s.goto p .unlocking) := hs.goto (by simp [hpc]) (by simp [hpc])
    refine ⟨?_, hgoto.copy, hgoto.posted, hgoto.block, fun _ => ?_, hgoto.ready⟩
    · show s.executed ++ s.mCopyAsyncProcs ++ (s.mAsyncProcs ++ [f]) = s.pushed ++ [f]
      rw [← List.append_assoc, hs.order]
    · exact .inr (.inl (goto_self trivial))
  case h_4 =>
    cases h
    exact (hs.goto (by simp [hpc]) (by simp [hpc])).setMutex _
  case h_5 =>
    cases h
    cases hblock : s.mIsInBlock with
    | true => exact hs.goto (by simp [hpc]) (by simp [hpc])
    | false =>
      -- gives up: the loop is busy, so its swap is still to come
      refine ⟨hs.order, hs.copy, fun hp => ?_, hs.block,
        fun _ => .inl (hs.block hblock).beforeSwap, hs.ready⟩
      exact (hs.posted hp).imp_left (exists_goto (Q := (· = .writeFd)) _ (by simp [hpc]))
  case h_6 =>
    cases h
    cases hflag : s.mIsAlreadyPostWakeup with
    | true =>
      -- gives up: wherever the posted wakeup is on its way, the queue will be seen from there
      have hposted := (hs.posted hflag).imp_left
        (exists_goto (Q := (· = .writeFd)) .idle (p := p) (by simp [hpc]))
      refine ⟨hs.order, hs.copy, fun _ => hposted, hs.block, fun _ => ?_, hs.ready⟩
      rcases hposted with ⟨q, hq⟩ | hfd | hpc' | hpc'
      · exact .inr (.inl ⟨q, by rw [if_pos rfl, hq]; trivial⟩)
      · exact .inr (.inr hfd)
      · exact .inl (by simp [State.goto, hpc'])
      · exact .inl (by simp [State.goto, hpc'])
    | false =>
      -- the flag goes up, and this producer is the one that owes the write
      have hgoto : Inv (s.goto p .writeFd) := hs.goto (by simp [hpc]) (by simp)
      exact ⟨hgoto.order, hgoto.copy, fun _ => .inl (goto_self (Q := (· = .writeFd)) rfl),
        hgoto.block, hgoto.queue, hgoto.ready⟩
  case h_7 =>
    -- other producers may still stand at their own write; the counter alone is enough now
    cases h
    exact ⟨hs.order, hs.copy, fun _ => .inr (.inl (Nat.succ_pos _)), hs.block,
      fun _ => .inr (.inr (Nat.succ_pos _)), fun _ => .inl rfl⟩

theorem inv_step {s t : State ι F} {a : Action ι F} (hs : Inv s) (h : step s a = some t) :
    Inv t := by
  cases a with
  | call p f =>
    simp only [step] at h
    split at h
    · rename_i hpc
      cases h
      exact hs.goto (by simp [hpc]) (by simp [hpc])
    · cases h
  | producer p => exact inv_producerStep hs h
  | loop evt => exact inv_loopStep hs h

/-! ## No wakeup is lost -/

/-- The loop sleeps on work: it waits in `epoll_wait` with functors queued, the eventfd is not
signalled, and no producer is between its push and the end of its wakeup. -/
def LostWakeup (s : State ι F) : Prop :=
  s.loopPc = .waiting ∧ s.mAsyncProcs ≠ [] ∧ s.eventfd = 0 ∧ ∀ p, ¬ (s.producers p).Pushed

/-- In every reachable state the functors run, the ones being run and the ones queued are
together the functors pushed, in order and each once, and no wakeup is lost. -/
theorem executed_once_and_no_lost_wakeup (acts : List (Action ι F)) (s : State ι F)
    (h : Transition.exec step init acts = some s) :
    s.executed <+: s.pushed ∧
      s.executed ++ s.mCopyAsyncProcs ++ s.mAsyncProcs = s.pushed ∧ ¬ LostWakeup s := by
  have hs : Inv s := Transition.exec_invariant (fun _ _ _ => inv_step) inv_init h
  refine ⟨⟨_, (List.append_assoc _ _ _).symm.trans hs.order⟩, hs.order, ?_⟩
  rintro ⟨hwait, hqueue, hfd, hprod⟩
  rcases hs.queue hqueue with hbefore | ⟨p, hp⟩ | hpos
  · rw [hwait] at hbefore
    exact hbefore
  · exact hprod p hp
  · omega

/-- A producer stalls between its push of 7 and its write to the eventfd while the loop, at
its timeout, runs 7; a second producer pushes 8, and its own write wakes the loop. -/
def stalledRun : List (Action Bool ℕ) :=
  [.call true 7] ++ List.replicate 5 (.producer true) ++ List.replicate 10 (.loop false) ++
    [.call false 8] ++ List.replicate 6 (.producer false) ++ [.loop true]

/-- The stalled producer loses nothing: 7 was run once, and the loop is awake for 8. -/
theorem executed_once_and_no_lost_wakeup_stalled :
    ∃ s, Transition.exec step init stalledRun = some s ∧
      s.pushed = [7, 8] ∧ s.executed = [7] ∧ s.producers true = .writeFd ∧
      s.executed <+: s.pushed ∧
      s.executed ++ s.mCopyAsyncProcs ++ s.mAsyncProcs = s.pushed ∧ ¬ LostWakeup s :=
  ⟨_, rfl, rfl, rfl, rfl, executed_once_and_no_lost_wakeup stalledRun _ rfl⟩

end Wakeup
end Netxy
