import Mathlib.Data.List.Basic
import Netxy.Lib.Transition

/-!
# `MsgQueue`

The queue between one producer thread and one consumer thread, with the three deques of
`MsgQueue.h`. The producer owns `mWriteList`, the consumer `mReadList`, and elements move
over `mSharedList` under the mutex. The steps of the two threads are interleaved freely: the
emptiness tests outside the lock are steps of their own, so the lock may be taken when their
answers are no longer true.
-/

namespace Netxy
namespace MsgQueue

/-! ## The two programs -/

/-- The next step of the producer. -/
inductive ProducerPc
  /-- in none of the operations -/
  | idle
  /-- `!mWriteList.empty()`, the first test of `trySyncWrite` -/
  | tryWrite
  /-- `mSharedList.empty()`, its second test -/
  | tryShared
  /-- `mMutex.lock()` in `trySyncWrite` -/
  | tryLock
  /-- what `trySyncWrite` does under the lock -/
  | tryLocked
  /-- `!mWriteList.empty()`, the first test of `forceSyncWrite` -/
  | forceWrite
  /-- `mSharedList.empty()`, its second test -/
  | forceShared
  /-- `mMutex.lock()` in `forceSyncWrite` -/
  | forceLock
  /-- what `forceSyncWrite` does under the lock -/
  | forceLocked
  /-- `mMutex.unlock()` -/
  | unlock
deriving DecidableEq, Repr

/-- The next step of the consumer. -/
inductive ConsumerPc
  /-- in none of the operations -/
  | idle
  /-- `mReadList.empty()`, the first test of `syncRead` -/
  | readTest (waitMicroSecond : ℕ)
  /-- the constructor of the `unique_lock` -/
  | waitLock
  /-- `mCond.wait_for`, up to where it gives the mutex back -/
  | waitEnter
  /-- `mCond.wait_for`, which takes the mutex again when it is notified, or times out -/
  | waiting
  /-- the destructor of the `unique_lock` -/
  | waitUnlock
  /-- `mMutex.lock()` in `syncRead` -/
  | readLock
  /-- what `syncRead` does under the lock -/
  | readLocked
  /-- `mMutex.unlock()` -/
  | unlock
deriving DecidableEq, Repr

/-- Who holds `mMutex`. -/
inductive Owner
  | producer
  | consumer
deriving DecidableEq, Repr

/-- The queue and its two threads. `pushed` and `popped` record the elements in the order
`push` was called with them and `popFront` gave them out. -/
structure State (α : Type*) where
  mWriteList : List α
  mSharedList : List α
  mReadList : List α
  mMutex : Option Owner
  producer : ProducerPc
  consumer : ConsumerPc
  pushed : List α
  popped : List α
deriving DecidableEq, Repr

variable {α : Type*}

/-- A new queue. -/
def init : State α where
  mWriteList := []
  mSharedList := []
  mReadList := []
  mMutex := none
  producer := .idle
  consumer := .idle
  pushed := []
  popped := []

/-- The loop over `mSharedList`, last element first, with `mWriteList.push_front`. -/
def pushFrontAll (mSharedList mWriteList : List α) : List α :=
  mSharedList.reverse.foldl (fun l x => x :: l) mWriteList

/-- The loop over `mWriteList` with `mSharedList.push_back`. -/
def pushBackAll (mSharedList mWriteList : List α) : List α :=
  mWriteList.foldl (fun l x => l ++ [x]) mSharedList

/-- `trySyncWrite` under the lock. -/
def State.swapWrite (s : State α) : State α :=
  if !s.mWriteList.isEmpty ∧ s.mSharedList.isEmpty then
    { s with mSharedList := s.mWriteList, mWriteList := s.mSharedList }
  else s

/-- `forceSyncWrite` under the lock. -/
def State.forceWrite (s : State α) : State α :=
  if !s.mWriteList.isEmpty then
    if s.mSharedList.length < s.mWriteList.length then
      -- `mSharedList` is cleared, and swapped with the longer list
      { s with mSharedList := pushFrontAll s.mSharedList s.mWriteList, mWriteList := [] }
    else { s with mSharedList := pushBackAll s.mSharedList s.mWriteList, mWriteList := [] }
  else s

/-- `syncRead` under the lock. -/
def State.swapRead (s : State α) : State α :=
  if s.mReadList.isEmpty ∧ !s.mSharedList.isEmpty then
    { s with mSharedList := s.mReadList, mReadList := s.mSharedList }
  else s

/-- `mMutex.lock()`, which waits while the mutex is held. -/
def State.lock (s : State α) (o : Owner) : Option (State α) :=
  if s.mMutex = none then some { s with mMutex := some o } else none

/-- The next step of the operation the producer is in. `notify_one` is no step: a thread in
`wait_for` may also wake up without it. -/
def producerStep (s : State α) : Option (State α) :=
  match s.producer with
  | .idle => none
  | .tryWrite => some { s with producer := if s.mWriteList.isEmpty then .idle else .tryShared }
  | .tryShared => some { s with producer := if s.mSharedList.isEmpty then .tryLock else .idle }
  | .tryLock => { s with producer := .tryLocked }.lock .producer
  | .tryLocked => some { s.swapWrite with producer := .unlock }
  | .forceWrite =>
    some { s with producer := if s.mWriteList.isEmpty then .idle else .forceShared }
  | .forceShared =>
    -- an empty shared list leads into `trySyncWrite`, from its first test on
    some { s with producer := if s.mSharedList.isEmpty then .tryWrite else .forceLock }
  | .forceLock => { s with producer := .forceLocked }.lock .producer
  | .forceLocked => some { s.forceWrite with producer := .unlock }
  | .unlock => some { s with mMutex := none, producer := .idle }

/-- The next step of the operation the consumer is in. -/
def consumerStep (s : State α) : Option (State α) :=
  match s.consumer with
  | .idle => none
  | .readTest waitMicroSecond =>
    some { s with
      consumer :=
        if s.mReadList.isEmpty then if 0 < waitMicroSecond then .waitLock else .readLock
        else .idle }
  | .waitLock => { s with consumer := .waitEnter }.lock .consumer
  | .waitEnter => some { s with mMutex := none, consumer := .waiting }
  | .waiting => { s with consumer := .waitUnlock }.lock .consumer
  | .waitUnlock => some { s with mMutex := none, consumer := .readLock }
  | .readLock => { s with consumer := .readLocked }.lock .consumer
  | .readLocked => some { s.swapRead with consumer := .unlock }
  | .unlock => some { s with mMutex := none, consumer := .idle }

/-- What happens next: an idle thread calls an operation, or a thread goes on in its own. -/
inductive Action (α : Type*)
  | push (t : α)
  | trySyncWrite
  | forceSyncWrite
  | producer
  | popFront
  | syncRead (waitMicroSecond : ℕ)
  | consumer
deriving DecidableEq, Repr

/-- One atomic step. -/
def step (s : State α) : Action α → Option (State α)
  | .push t =>
    if s.producer = .idle then
      some { s with mWriteList := s.mWriteList ++ [t], pushed := s.pushed ++ [t] }
    else none
  | .trySyncWrite => if s.producer = .idle then some { s with producer := .tryWrite } else none
  | .forceSyncWrite => if s.producer = .idle then some { s with producer := .forceWrite } else none
  | .producer => producerStep s
  | .popFront =>
    if s.consumer = .idle then
      match s.mReadList with
      | [] => some s
      | tmp :: mReadList => some { s with mReadList := mReadList, popped := s.popped ++ [tmp] }
    else none
  | .syncRead waitMicroSecond =>
    if s.consumer = .idle then some { s with consumer := .readTest waitMicroSecond } else none
  | .consumer => consumerStep s

/-! ## What the steps keep -/

/-- The elements in the queue, in the order they are read. -/
def State.queued (s : State α) : List α := s.mReadList ++ s.mSharedList ++ s.mWriteList

/-- Nothing is lost, duplicated or reordered. -/
structure Conserved (s : State α) : Prop where
  popped_prefix : s.popped <+: s.pushed
  queued_eq : s.queued = s.pushed.drop s.popped.length

/-- The form of `Conserved` that one step keeps. -/
def Inv (s : State α) : Prop := s.popped ++ s.queued = s.pushed

/-- What was pushed is somewhere, in order. -/
theorem Inv.conserved {s : State α} (h : Inv s) : Conserved s where
  popped_prefix := ⟨s.queued, h⟩
  queued_eq := by
    rw [← h, List.drop_left]

/-- Elements move from list to list in order, and nothing else changes. -/
structure Moves (s t : State α) : Prop where
  queued : t.queued = s.queued
  pushed : t.pushed = s.pushed
  popped : t.popped = s.popped
  mMutex : t.mMutex = s.mMutex
  producer : t.producer = s.producer
  consumer : t.consumer = s.consumer

theorem Moves.refl (s : State α) : Moves s s := ⟨rfl, rfl, rfl, rfl, rfl, rfl⟩

/-- Moving messages between the lists loses and reorders none. -/
theorem Inv.of_moves {s t : State α} (hs : Inv s) (h : Moves s t) : Inv t := by
  unfold Inv at hs ⊢
  rw [h.queued, h.pushed, h.popped]
  exact hs

/-- The loop over `push_front` puts one list in front of the other. -/
theorem pushFrontAll_eq (mSharedList mWriteList : List α) :
    pushFrontAll mSharedList mWriteList = mSharedList ++ mWriteList := by
  induction mSharedList with
  | nil => rfl
  | cons x xs ih =>
    rw [pushFrontAll, List.reverse_cons, List.foldl_append, List.cons_append]
    exact congrArg (x :: ·) ih

/-- And that over `push_back` puts it behind. -/
theorem pushBackAll_eq (mSharedList mWriteList : List α) :
    pushBackAll mSharedList mWriteList = mSharedList ++ mWriteList := by
  induction mWriteList generalizing mSharedList with
  | nil => simp [pushBackAll]
  | cons x xs ih =>
    calc pushBackAll mSharedList (x :: xs) = pushBackAll (mSharedList ++ [x]) xs := rfl
      _ = mSharedList ++ [x] ++ xs := ih _
      _ = mSharedList ++ x :: xs := by rw [List.append_assoc, List.singleton_append]

/-- `trySyncWrite` hands over by a swap. -/
theorem moves_swapWrite (s : State α) : Moves s s.swapWrite := by
  unfold State.swapWrite
  split
  · rename_i h
    have hempty : s.mSharedList = [] := List.isEmpty_iff.mp h.2
    refine ⟨?_, rfl, rfl, rfl, rfl, rfl⟩
    simp only [State.queued, hempty, List.append_nil]
  · exact .refl s

/-- `forceSyncWrite` may have to append. -/
theorem moves_forceWrite (s : State α) : Moves s s.forceWrite := by
  unfold State.forceWrite
  split
  · -- either list may be copied into the other, the longer one stays
    split
    · refine ⟨?_, rfl, rfl, rfl, rfl, rfl⟩
      simp only [State.queued, pushFrontAll_eq, List.append_nil, List.append_assoc]
    · refine ⟨?_, rfl, rfl, rfl, rfl, rfl⟩
      simp only [State.queued, pushBackAll_eq, List.append_nil, List.append_assoc]
  · exact .refl s

/-- `syncRead` takes all that was handed over. -/
theorem moves_swapRead (s : State α) : Moves s s.swapRead := by
  unfold State.swapRead
  split
  · rename_i h
    have hempty : s.mReadList = [] := List.isEmpty_iff.mp h.1
    refine ⟨?_, rfl, rfl, rfl, rfl, rfl⟩
    simp only [State.queued, hempty, List.append_nil, List.nil_append]
  · exact .refl s

/-- The lock is taken where it is free, and nothing else changes. -/
theorem lock_eq_some {s t : State α} {o : Owner} (h : s.lock o = some t) :
    s.mMutex = none ∧ t = { s with mMutex := some o } := by
  unfold State.lock at h
  split at h
  · rename_i hfree
    exact ⟨hfree, (Option.some.inj h).symm⟩
  · cases h

/-- Whatever the tests before it answered, a step of the producer moves elements on in
order. -/
theorem producerStep_inv {s t : State α} (hs : Inv s) (h : producerStep s = some t) : Inv t := by
  unfold producerStep at h
  cases hpc : s.producer with
  | idle => simp only [hpc, reduceCtorEq] at h
  | tryWrite | tryShared | forceWrite | forceShared | unlock =>
    simp only [hpc, Option.some.injEq] at h
    subst h
    exact hs
  | tryLock | forceLock =>
    simp only [hpc] at h
    obtain ⟨-, rfl⟩ := lock_eq_some h
    exact hs
  | tryLocked =>
    simp only [hpc, Option.some.injEq] at h
    subst h
    have hmoved : Inv s.swapWrite := hs.of_moves (moves_swapWrite s)
    exact hmoved
  | forceLocked =>
    simp only [hpc, Option.some.injEq] at h
    subst h
    have hmoved : Inv s.forceWrite := hs.of_moves (moves_forceWrite s)
    exact hmoved

/-- The consumer's steps keep the order. -/
theorem consumerStep_inv {s t : State α} (hs : Inv s) (h : consumerStep s = some t) : Inv t := by
  unfold consumerStep at h
  cases hpc : s.consumer with
  | idle => simp only [hpc, reduceCtorEq] at h
  | readTest | waitEnter | waitUnlock | unlock =>
    simp only [hpc, Option.some.injEq] at h
    subst h
    exact hs
  | waitLock | waiting | readLock =>
    simp only [hpc] at h
    obtain ⟨-, rfl⟩ := lock_eq_some h
    exact hs
  | readLocked =>
    simp only [hpc, Option.some.injEq] at h
    subst h
    have hmoved : Inv s.swapRead := hs.of_moves (moves_swapRead s)
    exact hmoved

/-- So does every step of the two. -/
theorem step_inv {s t : State α} {a : Action α} (hs : Inv s) (h : step s a = some t) : Inv t := by
  cases a with
  | push x =>
    simp only [step, Option.ite_none_right_eq_some, Option.some.injEq] at h
    obtain ⟨-, rfl⟩ := h
    unfold Inv State.queued at hs ⊢
    -- the new element is last in `mWriteList`, and last of those pushed
    simp only [← hs, List.append_assoc]
  | trySyncWrite | forceSyncWrite | syncRead =>
    simp only [step, Option.ite_none_right_eq_some, Option.some.injEq] at h
    obtain ⟨-, rfl⟩ := h
    exact hs
  | producer => exact producerStep_inv hs h
  | consumer => exact consumerStep_inv hs h
  | popFront =>
    simp only [step, Option.ite_none_right_eq_some] at h
    obtain ⟨-, h⟩ := h
    rcases hread : s.mReadList with _ | ⟨x, xs⟩
    · simp only [hread, Option.some.injEq] at h
      subst h
      exact hs
    · simp only [hread, Option.some.injEq] at h
      subst h
      unfold Inv State.queued at hs ⊢
      -- the element that leaves is the first of `mReadList`
      simp only [← hs, hread, List.append_assoc, List.cons_append, List.nil_append]

/-- **FIFO and conservation.** In every state of every run of a new queue, what was popped is
a prefix of what was pushed, and the three lists hold the rest of it in order. -/
theorem always_conserved (as : List (Action α)) : Transition.Always step Conserved init as := by
  have hinit : Inv (init : State α) := rfl
  have hinv : Transition.Always step Inv init as :=
    Transition.always_of_invariant (fun _ _ _ => step_inv) hinit as
  exact hinv.imp fun _ => Inv.conserved

/-- The producer forces a second element over while the first one is still in the shared
list; the consumer then gets both. -/
example : (Transition.exec step (init : State ℕ)
    [.push 1, .trySyncWrite, .producer, .producer, .producer, .producer, .producer, .push 2,
      .forceSyncWrite, .producer, .producer, .producer, .producer, .producer, .syncRead 0,
      .consumer, .consumer, .consumer, .consumer, .popFront, .popFront]).map
        (fun s => (s.popped, s.queued)) = some ([1, 2], []) := by
  decide

/-! ## The critical sections -/

/-- The producer is between `lock` and `unlock`. -/
def ProducerPc.holds : ProducerPc → Bool
  | .tryLocked | .forceLocked | .unlock => true
  | _ => false

/-- The consumer is between `lock` and `unlock`, and not in `wait_for`. -/
def ConsumerPc.holds : ConsumerPc → Bool
  | .waitEnter | .waitUnlock | .readLocked | .unlock => true
  | _ => false

/-- The mutex is held by the thread that is in a critical section. -/
structure Agrees (mMutex : Option Owner) (producer consumer : Bool) : Prop where
  producer : mMutex = some .producer ↔ producer = true
  consumer : mMutex = some .consumer ↔ consumer = true

/-- The producer takes the lock. -/
theorem Agrees.producer_acquires {producer consumer : Bool} (h : Agrees none producer consumer) :
    Agrees (some .producer) true consumer where
  producer := iff_of_true rfl rfl
  consumer := iff_of_false nofun fun hc => nomatch h.consumer.mpr hc

/-- The producer gives the lock back. -/
theorem Agrees.producer_releases {mMutex : Option Owner} {consumer : Bool}
    (h : Agrees mMutex true consumer) : Agrees none false consumer where
  producer := iff_of_false nofun nofun
  consumer := iff_of_false nofun fun hc =>
    nomatch (h.producer.mpr rfl).symm.trans (h.consumer.mpr hc)

/-- The consumer takes the lock. -/
theorem Agrees.consumer_acquires {producer consumer : Bool} (h : Agrees none producer consumer) :
    Agrees (some .consumer) producer true where
  producer := iff_of_false nofun fun hp => nomatch h.producer.mpr hp
  consumer := iff_of_true rfl rfl

/-- The consumer gives the lock back. -/
theorem Agrees.consumer_releases {mMutex : Option Owner} {producer : Bool}
    (h : Agrees mMutex producer true) : Agrees none producer false where
  producer := iff_of_false nofun fun hp =>
    nomatch (h.consumer.mpr rfl).symm.trans (h.producer.mpr hp)
  consumer := iff_of_false nofun nofun

/-- The mutex is held by the thread that stands in its critical section. -/
def LockInv (s : State α) : Prop := Agrees s.mMutex s.producer.holds s.consumer.holds

/-- The producer enters and leaves with the lock. -/
theorem producerStep_lockInv {s t : State α} (hs : LockInv s) (h : producerStep s = some t) :
    LockInv t := by
  unfold LockInv at hs ⊢
  unfold producerStep at h
  cases hpc : s.producer with
  | idle => simp only [hpc, reduceCtorEq] at h
  | tryWrite | tryShared | forceWrite | forceShared =>
    simp only [hpc, Option.some.injEq] at h
    subst h
    rw [hpc] at hs
    simp only
    split <;> exact hs
  | tryLock | forceLock =>
    simp only [hpc] at h
    obtain ⟨hfree, rfl⟩ := lock_eq_some h
    rw [show s.mMutex = none from hfree] at hs
    exact hs.producer_acquires
  | tryLocked =>
    simp only [hpc, Option.some.injEq] at h
    subst h
    rw [hpc] at hs
    simp only [(moves_swapWrite s).mMutex, (moves_swapWrite s).consumer]
    exact hs
  | forceLocked =>
    simp only [hpc, Option.some.injEq] at h
    subst h
    rw [hpc] at hs
    simp only [(moves_forceWrite s).mMutex, (moves_forceWrite s).consumer]
    exact hs
  | unlock =>
    simp only [hpc, Option.some.injEq] at h
    subst h
    rw [hpc] at hs
    exact hs.producer_releases

/-- And the consumer does. -/
theorem consumerStep_lockInv {s t : State α} (hs : LockInv s) (h : consumerStep s = some t) :
    LockInv t := by
  unfold LockInv at hs ⊢
  unfold consumerStep at h
  cases hpc : s.consumer with
  | idle => simp only [hpc, reduceCtorEq] at h
  | readTest =>
    simp only [hpc, Option.some.injEq] at h
    subst h
    rw [hpc] at hs
    simp only
    split
    · split <;> exact hs
    · exact hs
  | waitLock | waiting | readLock =>
    simp only [hpc] at h
    obtain ⟨hfree, rfl⟩ := lock_eq_some h
    rw [show s.mMutex = none from hfree] at hs
    exact hs.consumer_acquires
  | readLocked =>
    simp only [hpc, Option.some.injEq] at h
    subst h
    rw [hpc] at hs
    simp only [(moves_swapRead s).mMutex, (moves_swapRead s).producer]
    exact hs
  -- a wait on `mCond` lets the mutex go, like an unlock
  | waitEnter | waitUnlock | unlock =>
    simp only [hpc, Option.some.injEq] at h
    subst h
    rw [hpc] at hs
    exact hs.consumer_releases

/-- So does whoever moves. -/
theorem step_lockInv {s t : State α} {a : Action α} (hs : LockInv s) (h : step s a = some t) :
    LockInv t := by
  cases a with
  | producer => exact producerStep_lockInv hs h
  | consumer => exact consumerStep_lockInv hs h
  | push x =>
    simp only [step, Option.ite_none_right_eq_some, Option.some.injEq] at h
    obtain ⟨-, rfl⟩ := h
    exact hs
  | trySyncWrite | forceSyncWrite | syncRead =>
    simp only [step, Option.ite_none_right_eq_some, Option.some.injEq] at h
    obtain ⟨hidle, rfl⟩ := h
    unfold LockInv at hs ⊢
    rw [hidle] at hs
    exact hs
  | popFront =>
    simp only [step, Option.ite_none_right_eq_some] at h
    obtain ⟨-, h⟩ := h
    rcases hread : s.mReadList with _ | ⟨x, xs⟩
    all_goals
      simp only [hread, Option.some.injEq] at h
      subst h
      exact hs

/-- The two threads are never in their critical sections at once. -/
theorem always_exclusive (as : List (Action α)) :
    Transition.Always step (fun s => ¬ (s.producer.holds = true ∧ s.consumer.holds = true))
      init as := by
  have hinit : LockInv (init : State α) := ⟨iff_of_false nofun nofun, iff_of_false nofun nofun⟩
  have hinv : Transition.Always step LockInv init as :=
    Transition.always_of_invariant (fun _ _ _ => step_lockInv) hinit as
  refine hinv.imp fun s hs hboth => ?_
  have hp := hs.producer.mpr hboth.1
  rw [hs.consumer.mpr hboth.2] at hp
  cases hp

end MsgQueue
end Netxy
