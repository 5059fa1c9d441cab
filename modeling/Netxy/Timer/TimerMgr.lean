import Netxy.Lib.PriorityQueue
import Netxy.Lib.Transition

/-!
# `TimerMgr::schedule`

The timers of an event loop, and the rounds of `schedule` between which callbacks run. A
callback is whatever the program does until it returns: it adds timers, cancels any timer,
clears the queue or calls `schedule` again.
-/

namespace Netxy

/-- `Timer`, less its `mCallback`. A `time_t` has 64 bits, and sums and differences wrap. -/
structure Timer where
  mActive : Bool
  mEndTime : Int64
deriving DecidableEq, Repr

namespace Timer

def getEndMs (t : Timer) : Int64 := t.mEndTime

def cancel (t : Timer) : Timer := { t with mActive := false }

/-- `cancel` leaves the end time alone, which is `const`. -/
@[simp] theorem getEndMs_cancel (t : Timer) : t.cancel.getEndMs = t.getEndMs := rfl

end Timer

/-- `TimerMgr`. `made` are all timers there have been, in the order they were made; a
`Timer::Ptr` is the place of its timer there, and `mTimers` holds pointers in any order. -/
structure TimerMgr where
  made : List Timer
  mTimers : List ℕ
deriving DecidableEq, Repr

namespace TimerMgr

def empty : TimerMgr := ⟨[], []⟩

def getEndMs (m : TimerMgr) (ptr : ℕ) : Int64 :=
  (m.made[ptr]?.map Timer.getEndMs).getD 0

def mActive (m : TimerMgr) (ptr : ℕ) : Bool :=
  (m.made[ptr]?.map Timer.mActive).getD false

/-- `CompareTimer`. -/
def compareTimer (m : TimerMgr) (left right : ℕ) : Bool :=
  decide (m.getEndMs right < m.getEndMs left)

/-- `ptr` may be what `mTimers.top()` returns. -/
def IsTop (m : TimerMgr) (ptr : ℕ) : Prop := PriorityQueue.IsTop m.compareTimer m.mTimers ptr

instance decidableIsTop (m : TimerMgr) (ptr : ℕ) : Decidable (m.IsTop ptr) :=
  inferInstanceAs (Decidable (PriorityQueue.IsTop _ _ _))

def addTimer (m : TimerMgr) (delayMs now : Int64) : TimerMgr where
  made := m.made ++ [⟨true, delayMs + now⟩]
  mTimers := m.made.length :: m.mTimers

/-- `Timer::cancel` of the timer behind a pointer. -/
def cancel (m : TimerMgr) (ptr : ℕ) : TimerMgr :=
  { m with made := m.made.modify ptr Timer.cancel }

def isEmpty (m : TimerMgr) : Bool := m.mTimers.isEmpty

/-- `mTimers.pop()`, with `top` what `mTimers.top()` returned. -/
def pop (m : TimerMgr) (top : ℕ) : TimerMgr := { m with mTimers := m.mTimers.erase top }

def clear (m : TimerMgr) : TimerMgr := { m with mTimers := [] }

/-- `nearEndMs` at the clock reading `now`. -/
def nearEndMs (m : TimerMgr) (top : ℕ) (now : Int64) : Int64 :=
  if m.isEmpty then 0
  else
    let tmp := m.getEndMs top - now
    if tmp < 0 then 0 else tmp

theorem compareTimer_eq (m : TimerMgr) :
    m.compareTimer = fun l r => decide ((m.getEndMs r).toInt < (m.getEndMs l).toInt) := by
  funext l r
  simp only [compareTimer, Int64.lt_iff_toInt_lt]

theorem isTop_iff {m : TimerMgr} {ptr : ℕ} :
    m.IsTop ptr ↔ ptr ∈ m.mTimers ∧ ∀ i ∈ m.mTimers, m.getEndMs ptr ≤ m.getEndMs i := by
  rw [IsTop, compareTimer_eq, PriorityQueue.isTop_iff_minimal]
  simp only [Int64.le_iff_toInt_le]

theorem exists_isTop {m : TimerMgr} (h : m.mTimers ≠ []) : ∃ ptr, m.IsTop ptr := by
  simp only [IsTop, compareTimer_eq]
  exact PriorityQueue.exists_isTop h

/-- What the top has not reached, no timer of the queue has. -/
theorem IsTop.le_all {m : TimerMgr} {ptr : ℕ} (h : m.IsTop ptr) {now : Int64}
    (hnow : now ≤ m.getEndMs ptr) : ∀ i ∈ m.mTimers, now ≤ m.getEndMs i := by
  rw [IsTop, compareTimer_eq] at h
  simp only [Int64.le_iff_toInt_le] at hnow ⊢
  exact PriorityQueue.le_of_le_top h hnow

@[simp] theorem getEndMs_cancel (m : TimerMgr) (ptr i : ℕ) :
    (m.cancel ptr).getEndMs i = m.getEndMs i := by
  by_cases h : ptr = i
  · cases hi : m.made[i]? <;> simp [getEndMs, cancel, h, hi]
  · simp [getEndMs, cancel, h]

/-- A cancelled timer stays cancelled, and no other timer becomes active. -/
theorem mActive_cancel (m : TimerMgr) (ptr i : ℕ) :
    (m.cancel ptr).mActive i = (m.mActive i && decide (ptr ≠ i)) := by
  by_cases h : ptr = i
  · cases hi : m.made[i]? <;> simp [mActive, cancel, h, hi, Timer.cancel]
  · simp [mActive, cancel, h]

theorem mActive_addTimer (m : TimerMgr) (delayMs now : Int64) {i : ℕ} (hi : i < m.made.length) :
    (m.addTimer delayMs now).mActive i = m.mActive i := by
  simp only [mActive, addTimer, List.getElem?_append_left hi]

end TimerMgr

/-! ## Runs -/

/-- A manager with the calls of `schedule` that are in progress, innermost first: `none` is
a call at the head of its loop, `some top` one that runs the callback of `top`. `clock` is
the last reading of the clock, `ran` and `cancelled` record whose callback was run and who
was cancelled. -/
structure Scheduler where
  mgr : TimerMgr
  calls : List (Option ℕ)
  clock : Int64
  ran : List ℕ
  cancelled : List ℕ
deriving DecidableEq, Repr

namespace Scheduler

/-- A new manager. -/
def init (clock : Int64) : Scheduler := ⟨.empty, [], clock, [], []⟩

/-- What happens next: the program, in a callback or outside of `schedule`, uses the
manager, or `schedule` does one round of its loop. -/
inductive Action
  | addTimer (delayMs now : Int64)
  | cancel (ptr : ℕ)
  | clear
  | schedule
  | callbackReturn
  | round (top : ℕ) (now : Int64)
deriving DecidableEq, Repr

/-- No call of `schedule` is at the head of its loop: the program's own code runs. -/
def InProgram (s : Scheduler) : Prop := s.calls.head? ≠ some none

instance decidableInProgram (s : Scheduler) : Decidable s.InProgram :=
  inferInstanceAs (Decidable (_ ≠ _))

/-- One round of the `while (!mTimers.empty())` of `schedule`, for a call within `calls`. -/
def round (s : Scheduler) (calls : List (Option ℕ)) (top : ℕ) (now : Int64) : Option Scheduler :=
  if s.mgr.isEmpty then some { s with calls := calls }
  else if s.mgr.IsTop top ∧ s.clock ≤ now then
    if s.mgr.getEndMs top < now then
      -- `tmp->operator() ()`
      if s.mgr.mActive top then
        some { s with
          mgr := s.mgr.pop top
          calls := some top :: calls
          clock := now
          ran := top :: s.ran }
      else some { s with mgr := s.mgr.pop top, calls := none :: calls, clock := now }
    else some { s with calls := calls, clock := now }
  else none

/-- One step of the program or of `schedule`. Readings of the clock never go back. -/
def step (s : Scheduler) : Action → Option Scheduler
  | .addTimer delayMs now =>
    if s.InProgram ∧ s.clock ≤ now then
      some { s with mgr := s.mgr.addTimer delayMs now, clock := now }
    else none
  | .cancel ptr =>
    if s.InProgram ∧ ptr < s.mgr.made.length then
      some { s with mgr := s.mgr.cancel ptr, cancelled := ptr :: s.cancelled }
    else none
  | .clear => if s.InProgram then some { s with mgr := s.mgr.clear } else none
  | .schedule => if s.InProgram then some { s with calls := none :: s.calls } else none
  | .callbackReturn =>
    match s.calls with
    | some _ :: calls => some { s with calls := none :: calls }
    | _ => none
  | .round top now =>
    match s.calls with
    | none :: calls => s.round calls top now
    | _ => none

/-- What one round of a call within `calls` can do. -/
theorem round_cases {s t : Scheduler} {calls : List (Option ℕ)} {top : ℕ} {now : Int64}
    (h : s.round calls top now = some t) :
    (s.mgr.mTimers = [] ∧ t = { s with calls := calls }) ∨
    (s.mgr.IsTop top ∧ now ≤ s.mgr.getEndMs top ∧ t = { s with calls := calls, clock := now }) ∨
    (s.mgr.IsTop top ∧ s.mgr.getEndMs top < now ∧ s.mgr.mActive top = true ∧
      t = { s with
        mgr := s.mgr.pop top
        calls := some top :: calls
        clock := now
        ran := top :: s.ran }) ∨
    (s.mgr.IsTop top ∧ s.mgr.getEndMs top < now ∧ s.mgr.mActive top = false ∧
      t = { s with mgr := s.mgr.pop top, calls := none :: calls, clock := now }) := by
  unfold round at h
  split_ifs at h with hempty htop hdue hactive
  · left
    exact ⟨List.isEmpty_iff.mp hempty, (Option.some.inj h).symm⟩
  · right; right; left
    exact ⟨htop.1, hdue, hactive, (Option.some.inj h).symm⟩
  · right; right; right
    exact ⟨htop.1, hdue, Bool.eq_false_iff.mpr hactive, (Option.some.inj h).symm⟩
  · right; left
    exact ⟨htop.1, Int64.not_lt.mp hdue, (Option.some.inj h).symm⟩

/-- `schedule` is never stuck at the head of its loop: some round is possible there. -/
theorem exists_round (s : Scheduler) (calls : List (Option ℕ)) :
    ∃ top t, s.round calls top s.clock = some t := by
  by_cases hempty : s.mgr.mTimers = []
  · refine ⟨0, { s with calls := calls }, ?_⟩
    rw [round, TimerMgr.isEmpty, if_pos (List.isEmpty_iff.mpr hempty)]
  · obtain ⟨top, htop⟩ := TimerMgr.exists_isTop hempty
    have hsome : (s.round calls top s.clock).isSome := by
      rw [round, TimerMgr.isEmpty, if_neg (mt List.isEmpty_iff.mp hempty),
        if_pos ⟨htop, Int64.le_refl _⟩]
      split_ifs <;> rfl
    exact ⟨top, Option.isSome_iff_exists.mp hsome⟩

/-! ## What holds between the rounds -/

/-- Pointers are to timers that were made; the queue holds each at most once, and none that
has been run. -/
structure Inv (s : Scheduler) : Prop where
  queued_nodup : s.mgr.mTimers.Nodup
  queued_made : ∀ i ∈ s.mgr.mTimers, i < s.mgr.made.length
  ran_nodup : s.ran.Nodup
  ran_made : ∀ i ∈ s.ran, i < s.mgr.made.length
  ran_not_queued : ∀ i ∈ s.ran, i ∉ s.mgr.mTimers
  cancelled_made : ∀ i ∈ s.cancelled, i < s.mgr.made.length
  cancelled_inactive : ∀ i ∈ s.cancelled, s.mgr.mActive i = false

theorem inv_init (clock : Int64) : (init clock).Inv := by
  constructor <;> simp [init, TimerMgr.empty]

/-- The invariant speaks of neither the calls nor the clock. -/
theorem Inv.setCalls {s : Scheduler} (hs : s.Inv) (calls : List (Option ℕ)) (clock : Int64) :
    Inv { s with calls := calls, clock := clock } := { hs with }

theorem Inv.addTimer {s : Scheduler} (hs : s.Inv) (delayMs now : Int64) :
    Inv { s with mgr := s.mgr.addTimer delayMs now, clock := now } := by
  have hmore : (s.mgr.addTimer delayMs now).made.length = s.mgr.made.length + 1 := by
    simp only [TimerMgr.addTimer, List.length_append, List.length_singleton]
  constructor
  case queued_nodup =>
    refine List.nodup_cons.mpr ⟨fun hmem => ?_, hs.queued_nodup⟩
    exact (hs.queued_made _ hmem).ne rfl
  case queued_made =>
    intro i hi
    rw [hmore]
    rcases List.mem_cons.mp hi with rfl | hi
    · exact Nat.lt_succ_self _
    · exact (hs.queued_made i hi).trans (Nat.lt_succ_self _)
  case ran_nodup => exact hs.ran_nodup
  case ran_made =>
    intro i hi
    rw [hmore]
    exact (hs.ran_made i hi).trans (Nat.lt_succ_self _)
  case ran_not_queued =>
    intro i hi hmem
    rcases List.mem_cons.mp hmem with rfl | hmem
    · exact (hs.ran_made _ hi).ne rfl
    · exact hs.ran_not_queued i hi hmem
  case cancelled_made =>
    intro i hi
    rw [hmore]
    exact (hs.cancelled_made i hi).trans (Nat.lt_succ_self _)
  case cancelled_inactive =>
    intro i hi
    rw [TimerMgr.mActive_addTimer _ _ _ (hs.cancelled_made i hi)]
    exact hs.cancelled_inactive i hi

theorem Inv.cancel {s : Scheduler} (hs : s.Inv) {ptr : ℕ} (hptr : ptr < s.mgr.made.length) :
    Inv { s with mgr := s.mgr.cancel ptr, cancelled := ptr :: s.cancelled } := by
  have hsame : (s.mgr.cancel ptr).made.length = s.mgr.made.length := List.length_modify ..
  constructor
  case queued_nodup => exact hs.queued_nodup
  case queued_made => exact fun i hi => hsame ▸ hs.queued_made i hi
  case ran_nodup => exact hs.ran_nodup
  case ran_made => exact fun i hi => hsame ▸ hs.ran_made i hi
  case ran_not_queued => exact hs.ran_not_queued
  case cancelled_made =>
    intro i hi
    rw [hsame]
    rcases List.mem_cons.mp hi with rfl | hi
    · exact hptr
    · exact hs.cancelled_made i hi
  case cancelled_inactive =>
    intro i hi
    rw [TimerMgr.mActive_cancel]
    rcases List.mem_cons.mp hi with rfl | hi
    · simp
    · rw [hs.cancelled_inactive i hi, Bool.false_and]

/-- Taking timers off the queue. -/
theorem Inv.shrink {s : Scheduler} (hs : s.Inv) {q : List ℕ} (hq : q.Sublist s.mgr.mTimers) :
    Inv { s with mgr := { s.mgr with mTimers := q } } where
  queued_nodup := hs.queued_nodup.sublist hq
  queued_made := fun i hi => hs.queued_made i (hq.subset hi)
  ran_nodup := hs.ran_nodup
  ran_made := hs.ran_made
  ran_not_queued := fun i hi hmem => hs.ran_not_queued i hi (hq.subset hmem)
  cancelled_made := hs.cancelled_made
  cancelled_inactive := hs.cancelled_inactive

theorem Inv.run {s : Scheduler} (hs : s.Inv) {top : ℕ} (htop : top ∈ s.mgr.mTimers) :
    Inv { s with mgr := s.mgr.pop top, ran := top :: s.ran } := by
  have hpop := hs.shrink (List.erase_sublist (a := top) (l := s.mgr.mTimers))
  refine { hpop with ran_nodup := ?_, ran_made := ?_, ran_not_queued := ?_ }
  case refine_1 =>
    exact List.nodup_cons.mpr ⟨fun h => hs.ran_not_queued top h htop, hs.ran_nodup⟩
  case refine_2 =>
    intro i hi
    rcases List.mem_cons.mp hi with rfl | hi
    · exact hs.queued_made _ htop
    · exact hs.ran_made i hi
  case refine_3 =>
    intro i hi
    rcases List.mem_cons.mp hi with rfl | hi
    · exact hs.queued_nodup.not_mem_erase
    · exact hpop.ran_not_queued i hi

theorem Inv.round {s t : Scheduler} (hs : s.Inv) {calls : List (Option ℕ)} {top : ℕ} {now : Int64}
    (h : s.round calls top now = some t) : t.Inv := by
  rcases round_cases h with ⟨-, rfl⟩ | ⟨-, -, rfl⟩ | ⟨htop, -, -, rfl⟩ | ⟨-, -, -, rfl⟩
  · exact hs.setCalls calls s.clock
  · exact hs.setCalls calls now
  · exact (hs.run htop.1).setCalls _ now
  · exact (hs.shrink (List.erase_sublist ..)).setCalls _ now

theorem inv_step (s : Scheduler) (a : Action) (t : Scheduler) (hs : s.Inv)
    (h : step s a = some t) : t.Inv := by
  cases a with
  | addTimer delayMs now =>
    obtain ⟨-, h⟩ := Option.ite_none_right_eq_some.mp h
    cases h
    exact hs.addTimer delayMs now
  | cancel ptr =>
    obtain ⟨⟨-, hptr⟩, h⟩ := Option.ite_none_right_eq_some.mp h
    cases h
    exact hs.cancel hptr
  | clear =>
    obtain ⟨-, h⟩ := Option.ite_none_right_eq_some.mp h
    cases h
    exact hs.shrink (List.nil_sublist _)
  | schedule =>
    obtain ⟨-, h⟩ := Option.ite_none_right_eq_some.mp h
    cases h
    exact hs.setCalls _ s.clock
  | callbackReturn =>
    simp only [step] at h
    split at h
    · cases h
      exact hs.setCalls _ s.clock
    · cases h
  | round top now =>
    simp only [step] at h
    split at h
    · exact hs.round h
    · cases h

/-! ## `schedule` runs what is due, in order, and nothing twice -/

/-- What is asked of a step from `s` to `t`. A callback that it starts is of a queued timer
that nobody has cancelled and that ends before the reading just taken, and no queued timer
ends before that one. If a call of `schedule` returns, no timer left ends before the last
reading. -/
structure Scheduled (s t : Scheduler) : Prop where
  uncancelled : ∀ i, t.ran = i :: s.ran → i ∉ s.cancelled
  due : ∀ i, t.ran = i :: s.ran → s.mgr.getEndMs i < t.clock
  minimal : ∀ i, t.ran = i :: s.ran →
    i ∈ s.mgr.mTimers ∧ ∀ j ∈ s.mgr.mTimers, s.mgr.getEndMs i ≤ s.mgr.getEndMs j
  complete : t.calls.length < s.calls.length → ∀ j ∈ t.mgr.mTimers, t.clock ≤ t.mgr.getEndMs j

/-- A step that starts no callback and returns from no call. -/
theorem Scheduled.of_same {s t : Scheduler} (hran : t.ran = s.ran)
    (hcalls : s.calls.length ≤ t.calls.length) : Scheduled s t := by
  have hnone : ∀ i, t.ran ≠ i :: s.ran := by
    intro i h
    exact List.cons_ne_self i s.ran (h.symm.trans hran)
  exact ⟨fun i h => absurd h (hnone i), fun i h => absurd h (hnone i),
    fun i h => absurd h (hnone i), fun h => absurd h (not_lt.mpr hcalls)⟩

/-- A step that returns from a call, with nothing left that is due. -/
theorem Scheduled.of_return {s t : Scheduler} (hran : t.ran = s.ran)
    (hdue : ∀ j ∈ t.mgr.mTimers, t.clock ≤ t.mgr.getEndMs j) : Scheduled s t := by
  have hnone : ∀ i, t.ran ≠ i :: s.ran := by
    intro i h
    exact List.cons_ne_self i s.ran (h.symm.trans hran)
  exact ⟨fun i h => absurd h (hnone i), fun i h => absurd h (hnone i),
    fun i h => absurd h (hnone i), fun _ => hdue⟩

theorem Inv.scheduled_round {s t : Scheduler} (hs : s.Inv) {calls : List (Option ℕ)} {top : ℕ}
    {now : Int64} (hcalls : s.calls = none :: calls) (h : s.round calls top now = some t) :
    Scheduled s t := by
  rcases round_cases h with
    ⟨hempty, rfl⟩ | ⟨htop, hlater, rfl⟩ | ⟨htop, hdue, hactive, rfl⟩ | ⟨-, -, -, rfl⟩
  · exact .of_return rfl fun j hj => absurd (hempty ▸ hj) List.not_mem_nil
  · exact .of_return rfl (htop.le_all hlater)
  · have hi : ∀ i, top :: s.ran = i :: s.ran → i = top := fun i h => (List.cons.inj h).1.symm
    constructor
    case uncancelled =>
      intro i h hmem
      rw [hi i h] at hmem
      exact Bool.noConfusion (hactive.symm.trans (hs.cancelled_inactive top hmem))
    case due =>
      intro i h
      rw [hi i h]
      exact hdue
    case minimal =>
      intro i h
      rw [hi i h]
      exact TimerMgr.isTop_iff.mp htop
    case complete =>
      intro hless
      rw [hcalls] at hless
      exact absurd hless (lt_irrefl _)
  · exact .of_same rfl (by rw [hcalls])

theorem Inv.scheduled_step {s t : Scheduler} (hs : s.Inv) {a : Action} (h : step s a = some t) :
    Scheduled s t := by
  cases a with
  | addTimer delayMs now =>
    obtain ⟨-, h⟩ := Option.ite_none_right_eq_some.mp h
    cases h
    exact .of_same rfl le_rfl
  | cancel ptr =>
    obtain ⟨-, h⟩ := Option.ite_none_right_eq_some.mp h
    cases h
    exact .of_same rfl le_rfl
  | clear =>
    obtain ⟨-, h⟩ := Option.ite_none_right_eq_some.mp h
    cases h
    exact .of_same rfl le_rfl
  | schedule =>
    obtain ⟨-, h⟩ := Option.ite_none_right_eq_some.mp h
    cases h
    exact .of_same rfl (Nat.le_succ _)
  | callbackReturn =>
    simp only [step] at h
    split at h
    case h_1 x calls hcalls =>
      cases h
      exact .of_same rfl (by rw [hcalls]; exact le_rfl)
    · cases h
  | round top now =>
    simp only [step] at h
    split at h
    case h_1 calls hcalls => exact hs.scheduled_round hcalls h
    · cases h

/-- In every run of a new manager, whatever its callbacks do, each step is as it should be
and no timer is run twice. -/
theorem schedule_runs_due_timers (clock : Int64) (as : List Action) :
    Transition.Always step (fun s => s.ran.Nodup) (init clock) as ∧
      Transition.Throughout step (fun s a => ∀ t, step s a = some t → Scheduled s t)
        (init clock) as := by
  have hinv : Transition.Always step Inv (init clock) as :=
    Transition.always_of_invariant inv_step (inv_init clock) as
  refine ⟨hinv.imp fun s hs => hs.ran_nodup, ?_⟩
  exact hinv.throughout fun s a hs t ht => Inv.scheduled_step hs ht

/-- A callback cancels a timer that ends later and adds one that is due at once: the first
is dropped, the second is run in the same call. -/
example :
    (Transition.exec step (init 0)
      [.addTimer 3 0, .addTimer 5 0, .schedule, .round 0 6, .cancel 1, .addTimer (-1) 6,
        .callbackReturn, .round 1 7, .round 2 7, .callbackReturn, .round 0 7]).map
      (fun s => (s.ran, s.calls, s.mgr.mTimers)) = some ([2, 0], [], []) := by
  decide

end Scheduler
end Netxy
