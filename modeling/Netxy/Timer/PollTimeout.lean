import Mathlib.Algebra.Group.Nat.Defs
import Mathlib.Algebra.Ring.Int.Defs
import Netxy.Timer.TimerMgr

/-!
# The timeout of a worker loop

What `epoll_wait` is given in the threads of `startWorkerThread`: milliseconds that
`nearEndMs` counts in 64 bits, `EventLoop::loop` takes as an `int64_t`, and `epoll_wait` as
an `int` of 32 bits.
-/

namespace Netxy
namespace PollTimeout

def sDefaultLoopTimeOutMS : Int64 := 100

/-- The argument of `eventLoop->loop` in `startWorkerThread`. -/
def loopArgument (m : TimerMgr) (top : ℕ) (now : Int64) : Int64 :=
  if m.isEmpty then sDefaultLoopTimeOutMS else m.nearEndMs top now

/-- What `loop` passes to `epoll_wait`. -/
def epollTimeout {P : Type*} (mAfterLoopProcs : List P) (timeout : Int64) : Int32 :=
  (if mAfterLoopProcs.isEmpty then timeout else 0).toInt32

/-- A wait that ends, and that no queued timer outlasts: a timer of the past leaves no time. -/
structure Respects (m : TimerMgr) (now : Int64) (timeout : Int32) : Prop where
  nonneg : 0 ≤ timeout.toInt
  le_remaining : ∀ i ∈ m.mTimers, timeout.toInt ≤ max 0 ((m.getEndMs i).toInt - now.toInt)

/-- The time to an end survives both conversions: to `time_t`, which is left by ends more
than 2^63 ms ago, and to `int`, where bit 31 is the sign. -/
def Fits (remaining : ℤ) : Prop :=
  (remaining < -2 ^ 63 → remaining % 2 ^ 32 = 0) ∧
    (0 ≤ remaining → remaining < 2 ^ 63 → remaining % 2 ^ 32 < 2 ^ 31)

instance decidableFits (remaining : ℤ) : Decidable (Fits remaining) :=
  inferInstanceAs (Decidable (_ ∧ _))

/-- The earliest timer is the only one that matters. -/
theorem respects_iff {m : TimerMgr} {top : ℕ} (htop : m.IsTop top) {now : Int64}
    {timeout : Int32} :
    Respects m now timeout ↔
      0 ≤ timeout.toInt ∧ timeout.toInt ≤ max 0 ((m.getEndMs top).toInt - now.toInt) := by
  obtain ⟨hmem, hmin⟩ := TimerMgr.isTop_iff.mp htop
  constructor
  · intro h
    exact ⟨h.nonneg, h.le_remaining top hmem⟩
  · rintro ⟨hnonneg, hle⟩
    refine ⟨hnonneg, fun i hi => hle.trans ?_⟩
    have hi := Int64.le_iff_toInt_le.mp (hmin i hi)
    exact max_le_max le_rfl (by omega)

/-- `nearEndMs` of a queue that is not empty, in integers. -/
theorem toInt_nearEndMs {m : TimerMgr} (hm : m.isEmpty = false) (top : ℕ) (now : Int64) :
    (m.nearEndMs top now).toInt =
      max 0 (((m.getEndMs top).toInt - now.toInt).bmod (2 ^ 64)) := by
  have hneg : m.getEndMs top - now < 0 ↔
      ((m.getEndMs top).toInt - now.toInt).bmod (2 ^ 64) < 0 := by
    rw [Int64.lt_iff_toInt_lt, Int64.toInt_sub, Int64.toInt_zero]
  rw [TimerMgr.nearEndMs, hm, if_neg Bool.false_ne_true]
  by_cases h : m.getEndMs top - now < 0
  · rw [if_pos h, Int64.toInt_zero, max_eq_left (hneg.mp h).le]
  · rw [if_neg h, Int64.toInt_sub, max_eq_right (not_lt.mp (mt hneg.mpr h))]

/-- The two conversions of the difference `r` of two values of `time_t`. -/
theorem converted_le_iff {r : ℤ} (hlow : -2 ^ 64 < r) (hhigh : r < 2 ^ 64) :
    (0 ≤ (max 0 (r.bmod (2 ^ 64))).bmod (2 ^ 32) ∧
      (max 0 (r.bmod (2 ^ 64))).bmod (2 ^ 32) ≤ max 0 r) ↔ Fits r := by
  simp only [Int.bmod_def, Fits]
  omega

/-- What reaches `epoll_wait` respects the timers exactly if there are none, if something
waits in `mAfterLoopProcs`, or if the time to the earliest timer fits. -/
theorem respects_timers_iff {P : Type*} (m : TimerMgr) (mAfterLoopProcs : List P) (top : ℕ)
    (now : Int64) (htop : m.isEmpty = false → m.IsTop top) :
    Respects m now (epollTimeout mAfterLoopProcs (loopArgument m top now)) ↔
      m.isEmpty = true ∨ mAfterLoopProcs ≠ [] ∨
        Fits ((m.getEndMs top).toInt - now.toInt) := by
  by_cases hm : m.isEmpty = true
  · -- nothing is queued, and neither 0 nor the default is negative
    refine iff_of_true ⟨?_, fun i hi => ?_⟩ (.inl hm)
    · rw [epollTimeout, loopArgument, if_pos hm]
      split_ifs <;> decide
    · rw [List.isEmpty_iff.mp hm] at hi
      exact absurd hi List.not_mem_nil
  have hm : m.isEmpty = false := Bool.eq_false_iff.mpr hm
  rw [respects_iff (htop hm), hm]
  by_cases hprocs : mAfterLoopProcs = []
  · have hlow := Int64.le_toInt (m.getEndMs top)
    have hhigh := Int64.toInt_lt (m.getEndMs top)
    have hnowlow := Int64.le_toInt now
    have hnowhigh := Int64.toInt_lt now
    rw [epollTimeout, hprocs, List.isEmpty_nil, if_pos rfl, loopArgument, hm,
      if_neg Bool.false_ne_true, Int64.toInt_toInt32, toInt_nearEndMs hm,
      converted_le_iff (by omega) (by omega)]
    simp only [Bool.false_eq_true, ne_eq, not_true_eq_false, false_or]
  · refine iff_of_true ?_ (.inr (.inl hprocs))
    rw [epollTimeout, if_neg (mt List.isEmpty_iff.mp hprocs)]
    exact ⟨le_rfl, le_max_left _ _⟩

/-- A timer of a day. -/
theorem respects_day :
    Respects (TimerMgr.empty.addTimer 86400000 0) 500
      (epollTimeout ([] : List Unit) (loopArgument (TimerMgr.empty.addTimer 86400000 0) 0 500)) :=
  (respects_timers_iff (TimerMgr.empty.addTimer 86400000 0) [] 0 500 (by decide)).mpr (by decide)

/-- The earliest timer ends in 2^31 ms: `epoll_wait` gets a negative timeout, which is none. -/
theorem not_respects_month :
    ¬ Respects (TimerMgr.empty.addTimer 2147483648 0) 0
      (epollTimeout ([] : List Unit)
        (loopArgument (TimerMgr.empty.addTimer 2147483648 0) 0 0)) := by
  intro h
  exact absurd h.nonneg (by decide)

end PollTimeout
end Netxy
