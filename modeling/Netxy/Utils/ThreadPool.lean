import Mathlib.Algebra.Order.Group.Multiset
import Netxy.Lib.Transition

/-!
# `thread_pool_s`

Workers that take messages off a stack, and `thread_pool_wait`, which finds out without the lock
whether they are done: it reads the number of messages, and then the flag of one worker after the
other. A worker sets its flag after it has given the lock back, and only then reads the message
through the pointer that it popped. The steps of all threads are interleaved freely.
-/

namespace Netxy
namespace ThreadPool
open Transition

/-- The next step of a worker in `thread_pool_work`. `msg` records which message `msg_ptr` pointed
to when it was popped; the code has nothing but the pointer. -/
inductive WorkPc (α : Type*)
  /-- `ox_mutex_lock(self->msg_lock)`, also at the end of `ox_thread_cond_wait` -/
  | lock
  /-- what `thread_pool_work` does under the lock -/
  | locked
  /-- `ox_mutex_unlock(self->msg_lock)` -/
  | unlock (msg_ptr : ℕ) (msg : α)
  /-- `thread_state[thread_index] = true` -/
  | setState (msg_ptr : ℕ) (msg : α)
  /-- the argument `*msg_ptr` of the callback is read -/
  | deref (msg_ptr : ℕ) (msg : α)
  /-- `(*callback)(self, data)` -/
  | callback (msg data : α)
  /-- `thread_state[thread_index] = false` -/
  | clearState
  /-- out of the loop -/
  | stopped
deriving DecidableEq

/-- The message that a worker took, up to the end of its callback. -/
def WorkPc.msg? {α : Type*} : WorkPc α → Option α
  | .unlock _ msg | .setState _ msg | .deref _ msg | .callback msg _ => some msg
  | .lock | .locked | .clearState | .stopped => none

/-- The slot of the stack that the worker has yet to read. -/
def WorkPc.msg_ptr? {α : Type*} : WorkPc α → Option ℕ
  | .unlock msg_ptr _ | .setState msg_ptr _ | .deref msg_ptr _ => some msg_ptr
  | .lock | .locked | .callback _ _ | .clearState | .stopped => none

/-- The worker has popped a message, and its flag does not say so yet. -/
def WorkPc.unnoted {α : Type*} : WorkPc α → Bool
  | .unlock _ _ | .setState _ _ => true
  | .lock | .locked | .deref _ _ | .callback _ _ | .clearState | .stopped => false

/-- What the flag of the worker is. -/
def WorkPc.flag {α : Type*} : WorkPc α → Bool
  | .deref _ _ | .callback _ _ | .clearState => true
  | .lock | .locked | .unlock _ _ | .setState _ _ | .stopped => false

/-- The next step of `thread_pool_wait`. -/
inductive WaitPc
  /-- it was not called yet -/
  | idle
  /-- `ox_stack_num(self->msg_list) > 0` in `thread_pool_isbusy` -/
  | readNum
  /-- `i < thread_num`, and `self->work_thread_state[i]` -/
  | readState (i : ℕ)
  | returned
deriving DecidableEq

/-- `thread_pool_s` and its threads. `msg_list` are the slots of the stack that are in use, the top
one first, and `slots` is the memory of all of them. The `thread_index` of a worker is its place in
`workers`: a thread goes to the end when it gets its index.

`pushed` records the messages that were pushed, and `finished` the callbacks that have finished:
the message that the worker popped, and the one that it called the callback with. `missed` are the
workers whose flag the last round of `thread_pool_isbusy` read between their pop and
`thread_state[thread_index] = true`. -/
structure State (α : Type*) where
  is_run : Bool
  msg_list : List ℕ
  slots : ℕ → α
  msg_lock : Option ℕ
  work_thread_state : List Bool
  workers : List (WorkPc α)
  waiter : WaitPc
  pushed : List α
  finished : List (α × α)
  missed : List ℕ

variable {α : Type*}

/-- `thread_pool_new`, where the memory of the stack holds anything. -/
def new (thread_num : ℕ) (slots : ℕ → α) : State α where
  is_run := true
  msg_list := []
  slots := slots
  msg_lock := none
  work_thread_state := List.replicate thread_num false
  workers := []
  waiter := .idle
  pushed := []
  finished := []
  missed := []

/-- The worker `i` goes on to its next step. -/
def State.setWorker (s : State α) (i : ℕ) (pc : WorkPc α) : State α :=
  { s with workers := s.workers.set i pc }

/-- What a worker does under the lock. `ox_thread_cond_wait` gives the lock back and takes it
again, with or without a signal. -/
def State.popMsg (s : State α) (i : ℕ) : State α :=
  if s.is_run then
    match s.msg_list with
    | [] => { s with msg_lock := none }.setWorker i .lock
    | msg_ptr :: msg_list =>
      { s with msg_list := msg_list }.setWorker i (.unlock msg_ptr (s.slots msg_ptr))
  else { s with msg_lock := none }.setWorker i .stopped

/-- A step of `thread_pool_work` in the thread with the index `i`. -/
def State.workStep (s : State α) (i : ℕ) : WorkPc α → Option (State α)
  | .lock =>
    if s.msg_lock = none then some ({ s with msg_lock := some i }.setWorker i .locked) else none
  | .locked => some (s.popMsg i)
  | .unlock msg_ptr msg => some ({ s with msg_lock := none }.setWorker i (.setState msg_ptr msg))
  | .setState msg_ptr msg =>
    some ({ s with work_thread_state := s.work_thread_state.set i true }.setWorker i
      (.deref msg_ptr msg))
  | .deref msg_ptr msg => some (s.setWorker i (.callback msg (s.slots msg_ptr)))
  | .callback msg data =>
    some ({ s with finished := (msg, data) :: s.finished }.setWorker i .clearState)
  | .clearState =>
    some ({ s with work_thread_state := s.work_thread_state.set i false }.setWorker i .lock)
  | .stopped => none

/-- A step of `thread_pool_wait`. A busy pool is looked at again. -/
def State.waitStep (s : State α) : Option (State α) :=
  match s.waiter with
  | .idle => some { s with waiter := .readNum }
  | .readNum =>
    if s.msg_list ≠ [] then some s else some { s with waiter := .readState 0, missed := [] }
  | .readState i =>
    match s.work_thread_state[i]? with
    | none => some { s with waiter := .returned }
    | some true => some { s with waiter := .readNum }
    | some false =>
      some
        { s with
          waiter := .readState (i + 1)
          missed := if (s.workers[i]?).any WorkPc.unnoted then i :: s.missed else s.missed }
  | .returned => none

/-- Whose step it is. -/
inductive Action (α : Type*)
  /-- a thread gets its index -/
  | start
  /-- `thread_pool_pushmsg`, where `ox_stack_push` copies the message to the slot -/
  | push (data : α) (slot : ℕ)
  /-- what `thread_pool_stop` does first -/
  | stop
  | work (thread_index : ℕ)
  | wait

/-- One atomic step. Nothing is pushed when `thread_pool_wait` has been called. A push may take any
slot that is not in use, also one whose message was popped and not read yet: which one it takes is
up to the stack. -/
def step (s : State α) : Action α → Option (State α)
  | .start =>
    if s.workers.length < s.work_thread_state.length then
      some { s with workers := s.workers ++ [.lock] }
    else none
  | .push data slot =>
    if s.waiter = .idle ∧ s.is_run ∧ s.msg_lock = none ∧ slot ∉ s.msg_list then
      some
        { s with
          msg_list := slot :: s.msg_list
          slots := Function.update s.slots slot data
          pushed := data :: s.pushed }
    else none
  | .stop => some { s with is_run := false }
  | .work i => (s.workers[i]?).bind (s.workStep i)
  | .wait => s.waitStep

/-- The worker `i` has a message whose callback has not finished. -/
def State.HasMsg (s : State α) (i : ℕ) : Prop := ((s.workers[i]?).bind WorkPc.msg?).isSome

/-- `thread_pool_wait` only returns when the callbacks of all messages have finished. -/
def Done (s : State α) : Prop :=
  s.waiter = .returned → s.pushed.Perm (s.finished.map Prod.snd)

/-- The messages that the workers popped are those that they found in their slots later on. -/
def State.Preserved (s : State α) : Prop :=
  (s.finished.map Prod.fst).Perm (s.finished.map Prod.snd)

/-- A round of `thread_pool_isbusy` has read all flags, and `thread_pool_wait` returns next. -/
def State.AtEnd (s : State α) : Prop :=
  ∃ i, s.waiter = .readState i ∧ s.work_thread_state.length ≤ i

/-- When `thread_pool_wait` returns, the workers that its last round missed have finished. -/
def Noticed (s : State α) : Action α → Prop
  | .wait => s.AtEnd → ∀ j ∈ s.missed, ¬ s.HasMsg j
  | _ => True

/-- When `thread_pool_wait` returns, the workers that its last round missed have finished, and the
messages that were popped were still there when they were read. -/
def Caught (s : State α) : Action α → Prop
  | .wait => s.AtEnd → (∀ j ∈ s.missed, ¬ s.HasMsg j) ∧ s.Preserved
  | _ => True

/-- A push does not take the slot of a message that a worker has popped and not read yet. -/
def Undisturbed (s : State α) : Action α → Prop
  | .push _ slot => ∀ pc ∈ s.workers, pc.msg_ptr? ≠ some slot
  | _ => True

/-! ## One step -/

/-- The messages that workers have. -/
def State.inWork (s : State α) : List α := s.workers.filterMap WorkPc.msg?

/-- What holds in every state of a run in which every missed worker is caught. -/
structure Inv (s : State α) : Prop where
  pushed_eq : (s.pushed : Multiset α) =
    s.finished.map Prod.fst + s.inWork + s.msg_list.map s.slots
  length_le : s.workers.length ≤ s.work_thread_state.length
  flag_iff : ∀ i : ℕ, s.work_thread_state[i]? = some true ↔
    ∃ pc, s.workers[i]? = some pc ∧ WorkPc.flag pc = true
  /-- from the count on there are no messages on the stack, and no worker was overlooked -/
  read : ∀ i, s.waiter = .readState i →
    s.msg_list = [] ∧ ∀ j < i, s.HasMsg j → j ∈ s.missed
  returned : s.waiter = .returned → s.msg_list = [] ∧ (∀ j, ¬ s.HasMsg j) ∧ s.Preserved

/-- A worker that has a message knows which. -/
theorem hasMsg_iff {s : State α} {i : ℕ} :
    s.HasMsg i ↔ ∃ pc, s.workers[i]? = some pc ∧ pc.msg?.isSome := by
  rw [State.HasMsg, Option.isSome_bind, Option.any_eq_true]

/-- Nothing is in work where no worker has a message. -/
theorem inWork_eq_nil_iff {s : State α} : s.inWork = [] ↔ ∀ j, ¬ s.HasMsg j := by
  simp only [State.inWork, List.filterMap_eq_nil_iff, hasMsg_iff, List.mem_iff_getElem?,
    forall_exists_index, not_exists, not_and, Bool.not_eq_true, Option.isSome_eq_false_iff,
    Option.isNone_iff_eq_none]
  exact ⟨fun h j pc hpc => h pc j hpc, fun h pc j hpc => h j pc hpc⟩

/-- Where `thread_pool_wait` has returned, nothing is left. -/
theorem Inv.done {s : State α} (h : Inv s) : Done s := by
  intro hreturned
  obtain ⟨hempty, hnone, hpreserved⟩ := h.returned hreturned
  have heq := h.pushed_eq
  rw [inWork_eq_nil_iff.mpr hnone, hempty] at heq
  have hpopped : s.pushed.Perm (s.finished.map Prod.fst) := by
    simpa only [List.map_nil, Multiset.coe_nil, Multiset.add_zero, Multiset.coe_eq_coe] using heq
  exact hpopped.trans hpreserved

/-- What the workers have, where one of them goes on. -/
theorem inWork_set {workers : List (WorkPc α)} {i : ℕ} {pc : WorkPc α}
    (hpc : workers[i]? = some pc) (pc' : WorkPc α) :
    ∃ others : Multiset α,
      ((workers.filterMap WorkPc.msg? : List α) : Multiset α) = pc.msg?.toList + others ∧
      (((workers.set i pc').filterMap WorkPc.msg? : List α) : Multiset α) =
        pc'.msg?.toList + others := by
  obtain ⟨hi, rfl⟩ := List.getElem?_eq_some_iff.mp hpc
  have hold : workers = workers.take i ++ workers[i] :: workers.drop (i + 1) := by
    rw [List.getElem_cons_drop, List.take_append_drop]
  have hnew := List.set_eq_take_append_cons_drop (l := workers) (i := i) (a := pc')
  rw [if_pos hi] at hnew
  -- the parts of the list before and behind the worker
  have hsplit : ∀ pc : WorkPc α,
      ((((workers.take i ++ pc :: workers.drop (i + 1)).filterMap WorkPc.msg? : List α)) :
        Multiset α) = pc.msg?.toList + ((workers.take i).filterMap WorkPc.msg? +
          (workers.drop (i + 1)).filterMap WorkPc.msg? : Multiset α) := by
    intro pc
    rw [List.filterMap_append, List.filterMap_cons, ← Multiset.coe_add, add_left_comm]
    cases pc.msg? <;> rfl
  refine ⟨_, (congrArg (fun l => ((l.filterMap WorkPc.msg? : List α) : Multiset α)) hold).trans
    (hsplit _), ?_⟩
  rw [hnew]
  exact hsplit pc'

/-- The flags are right after a step of a worker that sets its own, or that needs no other one. -/
theorem Inv.flag_iff_set {s : State α} (h : Inv s) {i : ℕ} {pc pc' : WorkPc α}
    (hpc : s.workers[i]? = some pc) {states : List Bool}
    (hstate : states = s.work_thread_state ∧ pc'.flag = pc.flag ∨
      states = s.work_thread_state.set i pc'.flag) (j : ℕ) :
    states[j]? = some true ↔
      ∃ pc, (if j = i then some pc' else s.workers[j]?) = some pc ∧ WorkPc.flag pc = true := by
  by_cases hj : j = i
  · subst hj
    rw [if_pos rfl]
    simp only [Option.some.injEq, exists_eq_left']
    obtain ⟨rfl, hflag⟩ | rfl := hstate
    · have hold := h.flag_iff j
      rw [hpc] at hold
      rw [hold, hflag]
      simp only [Option.some.injEq, exists_eq_left']
    · have hlt := (List.getElem?_eq_some_iff.mp hpc).1.trans_le h.length_le
      rw [List.getElem?_set_self hlt, Option.some.injEq]
  · have hsame : states[j]? = s.work_thread_state[j]? := by
      obtain ⟨rfl, -⟩ | rfl := hstate
      · rfl
      · rw [List.getElem?_set_ne (Ne.symm hj)]
    rw [hsame, if_neg hj]
    exact h.flag_iff j

/-- A step of a worker keeps the invariant if it loses no message, keeps the flag to what it does,
and gets no message from an empty stack. -/
theorem Inv.work {s t : State α} (h : Inv s) {i : ℕ} {pc pc' : WorkPc α}
    (hpc : s.workers[i]? = some pc) (hworkers : t.workers = s.workers.set i pc')
    (hwaiter : t.waiter = s.waiter) (hmissed : t.missed = s.missed) (hpushed : t.pushed = s.pushed)
    (hmsgs : (t.finished.map Prod.fst : Multiset α) + pc'.msg?.toList + t.msg_list.map t.slots =
      s.finished.map Prod.fst + pc.msg?.toList + s.msg_list.map s.slots)
    (hfinished : t.finished = s.finished ∨ pc.msg?.isSome)
    (hstate : t.work_thread_state = s.work_thread_state ∧ pc'.flag = pc.flag ∨
      t.work_thread_state = s.work_thread_state.set i pc'.flag)
    (hempty : s.msg_list = [] → t.msg_list = [] ∧ (pc'.msg?.isSome → pc.msg?.isSome)) :
    Inv t := by
  have hi : i < s.workers.length := (List.getElem?_eq_some_iff.mp hpc).1
  have hget : ∀ j, t.workers[j]? = if j = i then some pc' else s.workers[j]? := by
    intro j
    rw [hworkers, List.getElem?_set]
    by_cases hj : j = i
    · rw [if_pos hj.symm, if_pos hj, if_pos (hj ▸ hi)]
    · rw [if_neg (Ne.symm hj), if_neg hj]
  have hmsg : s.msg_list = [] → ∀ j, t.HasMsg j → s.HasMsg j := by
    intro hs j
    rw [hasMsg_iff, hasMsg_iff, hget]
    split_ifs with hj
    · rintro ⟨_, hsome, hmsg⟩
      cases hsome
      exact ⟨pc, hj ▸ hpc, (hempty hs).2 hmsg⟩
    · exact id
  constructor
  · obtain ⟨others, hold, hnew⟩ := inWork_set hpc pc'
    rw [hpushed, h.pushed_eq, State.inWork, State.inWork, hworkers, hold, hnew, ← add_assoc,
      ← add_assoc, add_right_comm, ← hmsgs, add_right_comm]
  · rw [hworkers, List.length_set]
    obtain ⟨hsame, -⟩ | hset := hstate
    · exact hsame ▸ h.length_le
    · rw [hset, List.length_set]
      exact h.length_le
  · intro j
    rw [hget]
    exact h.flag_iff_set hpc hstate j
  · intro j hj
    obtain ⟨hs, hread⟩ := h.read j (hwaiter ▸ hj)
    exact ⟨(hempty hs).1, fun k hk hmem => hmissed ▸ hread k hk (hmsg hs k hmem)⟩
  · intro hj
    obtain ⟨hs, hnone, hpreserved⟩ := h.returned (hwaiter ▸ hj)
    refine ⟨(hempty hs).1, fun k hmem => hnone k (hmsg hs k hmem), ?_⟩
    obtain hsame | hsome := hfinished
    · rw [State.Preserved, hsame]
      exact hpreserved
    · exact absurd (hasMsg_iff.mpr ⟨pc, hpc, hsome⟩) (hnone i)

/-- A worker takes a message over from the stack. -/
theorem Inv.popMsg {s : State α} (h : Inv s) {i : ℕ} (hpc : s.workers[i]? = some .locked) :
    Inv (s.popMsg i) := by
  rw [State.popMsg]
  split_ifs with hrun
  · split
    · exact h.work hpc rfl rfl rfl rfl rfl (.inl rfl) (.inl ⟨rfl, rfl⟩) fun hempty => ⟨hempty, id⟩
    · -- the message moves from the stack to the worker
      rename_i msg_ptr msg_list hlist
      refine h.work hpc rfl rfl rfl rfl ?_ (.inl rfl) (.inl ⟨rfl, rfl⟩) fun hempty => ?_
      · change (s.finished.map Prod.fst : Multiset α) + {s.slots msg_ptr} +
          msg_list.map s.slots = s.finished.map Prod.fst + 0 + s.msg_list.map s.slots
        rw [hlist, List.map_cons, ← Multiset.cons_coe, ← Multiset.singleton_add, add_zero,
          add_assoc]
      · rw [hlist] at hempty
        cases hempty
  · exact h.work hpc rfl rfl rfl rfl rfl (.inl rfl) (.inl ⟨rfl, rfl⟩) fun hempty => ⟨hempty, id⟩

/-- A worker's step on its way. -/
theorem Inv.workStep {s t : State α} (h : Inv s) {i : ℕ} {pc : WorkPc α}
    (hpc : s.workers[i]? = some pc) (ht : s.workStep i pc = some t) : Inv t := by
  cases pc with
  | lock =>
    rw [State.workStep] at ht
    split_ifs at ht
    cases ht
    exact h.work hpc rfl rfl rfl rfl rfl (.inl rfl) (.inl ⟨rfl, rfl⟩) fun hempty => ⟨hempty, id⟩
  | locked =>
    cases ht
    exact h.popMsg hpc
  | unlock msg_ptr msg =>
    cases ht
    exact h.work hpc rfl rfl rfl rfl rfl (.inl rfl) (.inl ⟨rfl, rfl⟩) fun hempty =>
      ⟨hempty, fun _ => rfl⟩
  | setState msg_ptr msg =>
    cases ht
    exact h.work hpc rfl rfl rfl rfl rfl (.inl rfl) (.inr rfl) fun hempty =>
      ⟨hempty, fun _ => rfl⟩
  | deref msg_ptr msg =>
    cases ht
    exact h.work hpc rfl rfl rfl rfl rfl (.inl rfl) (.inl ⟨rfl, rfl⟩) fun hempty =>
      ⟨hempty, fun _ => rfl⟩
  | callback msg data =>
    cases ht
    refine h.work hpc rfl rfl rfl rfl ?_ (.inr rfl) (.inl ⟨rfl, rfl⟩) fun hempty =>
      ⟨hempty, fun _ => rfl⟩
    change ((msg :: s.finished.map Prod.fst : List α) : Multiset α) + 0 +
      s.msg_list.map s.slots = s.finished.map Prod.fst + {msg} + s.msg_list.map s.slots
    rw [← Multiset.cons_coe, ← Multiset.singleton_add, add_zero,
      add_comm (s.finished.map Prod.fst : Multiset α) {msg}]
  | clearState =>
    cases ht
    exact h.work hpc rfl rfl rfl rfl rfl (.inl rfl) (.inr rfl) fun hempty => ⟨hempty, id⟩
  | stopped => cases ht

/-- The flag of a worker is only `false` before its callback. -/
theorem Inv.unnoted {s : State α} (h : Inv s) {i : ℕ}
    (hfalse : s.work_thread_state[i]? = some false) (hmsg : s.HasMsg i) :
    (s.workers[i]?).any WorkPc.unnoted = true := by
  obtain ⟨pc, hpc, hsome⟩ := hasMsg_iff.mp hmsg
  rw [hpc]
  cases pc with
  | unlock msg_ptr msg => rfl
  | setState msg_ptr msg => rfl
  | deref msg_ptr msg =>
    have htrue := (h.flag_iff i).mpr ⟨_, hpc, rfl⟩
    cases hfalse.symm.trans htrue
  | callback msg data =>
    have htrue := (h.flag_iff i).mpr ⟨_, hpc, rfl⟩
    cases hfalse.symm.trans htrue
  | lock => cases hsome
  | locked => cases hsome
  | clearState => cases hsome
  | stopped => cases hsome

/-- A round goes on from a worker that is not at a message, unless it is missed. -/
theorem Inv.waitStep {s t : State α} (h : Inv s) (hcaught : Caught s .wait)
    (ht : s.waitStep = some t) : Inv t := by
  rw [State.waitStep] at ht
  split at ht
  · cases ht
    exact ⟨h.pushed_eq, h.length_le, h.flag_iff, nofun, nofun⟩
  · split_ifs at ht with hempty
    · cases ht
      exact h
    · cases ht
      refine ⟨h.pushed_eq, h.length_le, h.flag_iff, fun i hi => ?_, nofun⟩
      cases hi
      exact ⟨not_not.mp hempty, nofun⟩
  · rename_i i hi
    obtain ⟨hempty, hread⟩ := h.read i hi
    split at ht
    · rename_i hend
      cases ht
      have hlen := List.getElem?_eq_none_iff.mp hend
      obtain ⟨hmissed, hpreserved⟩ := hcaught ⟨i, hi, hlen⟩
      refine ⟨h.pushed_eq, h.length_le, h.flag_iff, nofun,
        fun _ => ⟨hempty, fun j hj => ?_, hpreserved⟩⟩
      obtain ⟨pc, hpc, -⟩ := hasMsg_iff.mp hj
      have hj' : j < i :=
        ((List.getElem?_eq_some_iff.mp hpc).1.trans_le h.length_le).trans_le hlen
      exact hmissed j (hread j hj' hj) hj
    · cases ht
      exact ⟨h.pushed_eq, h.length_le, h.flag_iff, nofun, nofun⟩
    · rename_i hfalse
      cases ht
      refine ⟨h.pushed_eq, h.length_le, h.flag_iff, fun k hk => ⟨hempty, fun j hj hmsg => ?_⟩,
        nofun⟩
      cases hk
      rcases Nat.lt_succ_iff_lt_or_eq.mp hj with hj | rfl
      · have hmem := hread j hj hmsg
        change j ∈ if _ then i :: s.missed else s.missed
        split_ifs
        · exact List.mem_cons_of_mem _ hmem
        · exact hmem
      · have hunnoted : (s.workers[j]?).any WorkPc.unnoted := h.unnoted hfalse hmsg
        rw [if_pos hunnoted]
        exact List.mem_cons_self
  · cases ht

/-- A new worker has nothing yet. -/
theorem Inv.start {s : State α} (h : Inv s)
    (hlt : s.workers.length < s.work_thread_state.length) :
    Inv { s with workers := s.workers ++ [.lock] } := by
  have hworker : ∀ {P : WorkPc α → Prop}, ¬ P .lock → ∀ i : ℕ,
      (∃ pc, (s.workers ++ [.lock])[i]? = some pc ∧ P pc) ↔
        ∃ pc, s.workers[i]? = some pc ∧ P pc := by
    intro P hP i
    rcases Nat.lt_trichotomy i s.workers.length with hi | rfl | hi
    · rw [List.getElem?_append_left hi]
    · rw [List.getElem?_concat_length, List.getElem?_eq_none (Nat.le_refl _)]
      simp only [Option.some.injEq, exists_eq_left', hP, reduceCtorEq, false_and, exists_false]
    · have hend : (s.workers ++ [WorkPc.lock]).length ≤ i := by
        rw [List.length_append]
        exact hi
      rw [List.getElem?_eq_none (Nat.le_of_lt hi), List.getElem?_eq_none hend]
  have hmsg : ∀ i, State.HasMsg { s with workers := s.workers ++ [.lock] } i ↔ s.HasMsg i := by
    intro i
    rw [hasMsg_iff, hasMsg_iff]
    exact hworker (P := fun pc => pc.msg?.isSome) Bool.false_ne_true i
  refine ⟨?_, ?_, fun i => ?_, fun i hi => ?_, fun hreturned => ?_⟩
  · rw [h.pushed_eq, State.inWork, State.inWork, List.filterMap_append]
    exact congrArg (fun l : List α =>
      (s.finished.map Prod.fst : Multiset α) + l + s.msg_list.map s.slots)
      (List.append_nil _).symm
  · rw [List.length_append]
    exact hlt
  · exact (h.flag_iff i).trans (hworker (P := fun pc => pc.flag = true) Bool.false_ne_true i).symm
  · obtain ⟨hempty, hread⟩ := h.read i hi
    exact ⟨hempty, fun j hj hj' => hread j hj ((hmsg j).mp hj')⟩
  · obtain ⟨hempty, hnone, hpreserved⟩ := h.returned hreturned
    exact ⟨hempty, fun j hj => hnone j ((hmsg j).mp hj), hpreserved⟩

/-- A push puts its message on the stack, and changes none that is there. -/
theorem map_slots_push {s : State α} {slot : ℕ} (hslot : slot ∉ s.msg_list) (data : α) :
    (slot :: s.msg_list).map (Function.update s.slots slot data) =
      data :: s.msg_list.map s.slots := by
  rw [List.map_cons, Function.update_self]
  congr 1
  refine List.map_congr_left fun p hp => ?_
  exact Function.update_of_ne (ne_of_mem_of_not_mem hp hslot) data s.slots

/-- Every step whose reads are caught up with keeps the count. -/
theorem Inv.step {s t : State α} {a : Action α} (h : Inv s) (hcaught : Caught s a)
    (ht : step s a = some t) : Inv t := by
  cases a with
  | start =>
    rw [ThreadPool.step] at ht
    split_ifs at ht with hlt
    cases ht
    exact h.start hlt
  | push data slot =>
    rw [ThreadPool.step] at ht
    split_ifs at ht with hidle
    cases ht
    refine ⟨?_, h.length_le, h.flag_iff, fun i hi => ?_, fun hreturned => ?_⟩
    · rw [map_slots_push hidle.2.2.2, ← Multiset.cons_coe, ← Multiset.cons_coe, h.pushed_eq,
        Multiset.add_cons]
      rfl
    · cases hidle.1.symm.trans hi
    · cases hidle.1.symm.trans hreturned
  | stop =>
    cases ht
    exact ⟨h.pushed_eq, h.length_le, h.flag_iff, h.read, h.returned⟩
  | work i =>
    obtain ⟨pc, hpc, ht⟩ := Option.bind_eq_some_iff.mp ht
    exact h.workStep hpc ht
  | wait => exact h.waitStep hcaught ht

/-- At the end of a round, all that was pushed has been popped. -/
theorem Inv.done_iff {s : State α} (h : Inv s) {i : ℕ} (hi : s.waiter = .readState i) :
    s.pushed.Perm (s.finished.map Prod.snd) ↔ (∀ j, ¬ s.HasMsg j) ∧ s.Preserved := by
  have heq := h.pushed_eq
  rw [(h.read i hi).1, List.map_nil, Multiset.coe_nil, add_zero] at heq
  rw [← inWork_eq_nil_iff]
  constructor
  · intro hperm
    -- a callback that has not finished makes more messages than callbacks
    have hcard := congrArg Multiset.card heq
    have hlength := hperm.length_eq
    simp only [Multiset.card_add, Multiset.coe_card, List.length_map] at hcard hlength
    have hnil : s.inWork = [] := List.eq_nil_of_length_eq_zero (by omega)
    rw [hnil, Multiset.coe_nil, add_zero, Multiset.coe_eq_coe] at heq
    exact ⟨hnil, heq.symm.trans hperm⟩
  · rintro ⟨hnil, hpreserved⟩
    rw [hnil, Multiset.coe_nil, add_zero, Multiset.coe_eq_coe] at heq
    exact heq.trans hpreserved

/-- After any other step, `thread_pool_wait` has returned too early, or with a message lost. -/
theorem Inv.overlooked {s : State α} {a : Action α} (h : Inv s) (hcaught : ¬ Caught s a) :
    ∃ t, ThreadPool.step s a = some t ∧ ¬ Done t := by
  cases a with
  | wait =>
    simp only [Caught, not_forall] at hcaught
    obtain ⟨⟨i, hi, hlen⟩, hnot⟩ := hcaught
    refine ⟨{ s with waiter := .returned }, ?_, fun hdone => hnot ?_⟩
    · rw [ThreadPool.step, State.waitStep, hi]
      simp only [List.getElem?_eq_none hlen]
    · obtain ⟨hnone, hpreserved⟩ := (h.done_iff hi).mp (hdone rfl)
      exact ⟨fun j _ => hnone j, hpreserved⟩
  | start => exact absurd trivial hcaught
  | push data slot => exact absurd trivial hcaught
  | stop => exact absurd trivial hcaught
  | work i => exact absurd trivial hcaught

/-- A new pool has nothing to do. -/
theorem inv_new (thread_num : ℕ) (slots : ℕ → α) : Inv (new thread_num slots) where
  pushed_eq := rfl
  length_le := Nat.zero_le _
  flag_iff i := by
    simp [new, List.getElem?_replicate]
  read := nofun
  returned := nofun

/-! ## Slots that are left alone -/

/-- What a worker reads, or has read, is the message that it popped. -/
def WorkPc.Kept (slots : ℕ → α) : WorkPc α → Prop
  | .unlock msg_ptr msg | .setState msg_ptr msg | .deref msg_ptr msg => slots msg_ptr = msg
  | .callback msg data => data = msg
  | .lock | .locked | .clearState | .stopped => True

/-- Every callback is called with the message that was popped for it. -/
structure Kept (s : State α) : Prop where
  workers : ∀ pc ∈ s.workers, pc.Kept s.slots
  finished : ∀ call ∈ s.finished, call.1 = call.2

/-- What was finished is what was popped. -/
theorem Kept.preserved {s : State α} (h : Kept s) : s.Preserved := by
  rw [State.Preserved, List.map_congr_left h.finished]

theorem Kept.setWorker {s : State α} (h : Kept s) {i : ℕ} {pc : WorkPc α}
    (hpc : pc.Kept s.slots) : ∀ pc' ∈ s.workers.set i pc, pc'.Kept s.slots := by
  intro pc' hmem
  obtain hold | rfl := List.mem_or_eq_of_mem_set hmem
  · exact h.workers pc' hold
  · exact hpc

/-- A worker reads the slot that it popped. -/
theorem Kept.workStep {s t : State α} (h : Kept s) {i : ℕ} {pc : WorkPc α}
    (hpc : pc.Kept s.slots) (ht : s.workStep i pc = some t) : Kept t := by
  cases pc with
  | lock =>
    rw [State.workStep] at ht
    split_ifs at ht
    cases ht
    exact ⟨h.setWorker trivial, h.finished⟩
  | locked =>
    cases ht
    rw [State.popMsg]
    split_ifs
    · split
      · exact ⟨h.setWorker trivial, h.finished⟩
      · exact ⟨h.setWorker rfl, h.finished⟩
    · exact ⟨h.setWorker trivial, h.finished⟩
  | unlock msg_ptr msg =>
    cases ht
    exact ⟨h.setWorker hpc, h.finished⟩
  | setState msg_ptr msg =>
    cases ht
    exact ⟨h.setWorker hpc, h.finished⟩
  | deref msg_ptr msg =>
    cases ht
    exact ⟨h.setWorker hpc, h.finished⟩
  | callback msg data =>
    cases ht
    exact ⟨h.setWorker trivial, List.forall_mem_cons.mpr ⟨hpc.symm, h.finished⟩⟩
  | clearState =>
    cases ht
    exact ⟨h.setWorker trivial, h.finished⟩
  | stopped => cases ht

/-- A push into a slot that no worker has yet to read. -/
theorem Kept.push {s : State α} (h : Kept s) {slot : ℕ}
    (hfree : ∀ pc ∈ s.workers, pc.msg_ptr? ≠ some slot) (data : α) :
    ∀ pc ∈ s.workers, pc.Kept (Function.update s.slots slot data) := by
  intro pc hmem
  have hkept := h.workers pc hmem
  have hne := hfree pc hmem
  cases pc with
  | unlock msg_ptr msg | setState msg_ptr msg | deref msg_ptr msg =>
    have hptr : msg_ptr ≠ slot := fun heq => hne (congrArg some heq)
    exact (Function.update_of_ne hptr data s.slots).trans hkept
  | callback msg data => exact hkept
  | lock | locked | clearState | stopped => trivial

/-- Waiting touches no worker and no message. -/
theorem waitStep_frame {s t : State α} (ht : s.waitStep = some t) :
    t.workers = s.workers ∧ t.slots = s.slots ∧ t.finished = s.finished := by
  rw [State.waitStep] at ht
  split at ht
  · cases ht
    exact ⟨rfl, rfl, rfl⟩
  · split_ifs at ht <;> cases ht <;> exact ⟨rfl, rfl, rfl⟩
  · split at ht <;> cases ht <;> exact ⟨rfl, rfl, rfl⟩
  · cases ht

/-- Every step that disturbs no slot keeps the messages. -/
theorem Kept.step {s t : State α} {a : Action α} (h : Kept s) (hundisturbed : Undisturbed s a)
    (ht : step s a = some t) : Kept t := by
  cases a with
  | start =>
    rw [ThreadPool.step] at ht
    split_ifs at ht
    cases ht
    refine ⟨fun pc hmem => ?_, h.finished⟩
    obtain hold | hnew := List.mem_append.mp hmem
    · exact h.workers pc hold
    · rw [List.mem_singleton.mp hnew]
      trivial
  | push data slot =>
    rw [ThreadPool.step] at ht
    split_ifs at ht
    cases ht
    exact ⟨h.push hundisturbed data, h.finished⟩
  | stop =>
    cases ht
    exact ⟨h.workers, h.finished⟩
  | work i =>
    obtain ⟨pc, hpc, ht⟩ := Option.bind_eq_some_iff.mp ht
    exact h.workStep (h.workers pc (List.mem_of_getElem? hpc)) ht
  | wait =>
    obtain ⟨hworkers, hslots, hfinished⟩ := waitStep_frame ht
    refine ⟨?_, ?_⟩
    · rw [hworkers, hslots]
      exact h.workers
    · rw [hfinished]
      exact h.finished

/-! ## Whole runs -/

/-- Where no push takes the slot of a message that is not read yet, it is enough that the workers
that were missed have finished. -/
theorem throughout_caught_iff (thread_num : ℕ) (slots : ℕ → α) (actions : List (Action α)) :
    Throughout step (fun s a => Undisturbed s a ∧ Caught s a) (new thread_num slots) actions ↔
      Throughout step (fun s a => Undisturbed s a ∧ Noticed s a) (new thread_num slots)
        actions := by
  refine throughout_iff (I := Kept) (fun s a hs => and_congr_right fun _ => ?_)
    (fun s a t hs h ht => hs.step h.1 ht) ⟨nofun, nofun⟩
  cases a with
  | wait => exact forall_congr' fun _ => and_iff_left hs.preserved
  | start | push _ _ | stop | work _ => exact Iff.rfl

/-- The second message takes the slot of the first one, and its callback is called twice. -/
example : (exec step (new 2 fun _ => 0) [.start, .start, .push 7 0, .work 0, .work 0, .work 0,
    .push 8 0, .work 1, .work 1, .work 1, .work 1, .work 1, .work 1, .work 0, .work 0,
    .work 0]).map State.finished = some [(7, 8), (8, 8)] := rfl

/-- `thread_pool_wait` returns only when all messages are done exactly if, whenever it returns,
no worker still has a message that had one when its flag was read as `false`, and the messages
that were read from the slots are those that were popped. -/
theorem wait_done_iff (thread_num : ℕ) (slots : ℕ → α) (actions : List (Action α)) :
    Always step Done (new thread_num slots) actions ↔
      Throughout step Caught (new thread_num slots) actions :=
  always_iff_throughout (W := fun _ _ => True) (fun _ => Inv.done)
    (fun _ _ _ hs _ hcaught ht => hs.step hcaught ht) (fun _ _ hs _ hcaught => hs.overlooked hcaught)
    (inv_new thread_num slots) (throughout_of_forall (fun _ _ => trivial) _ _)

/-- One worker pops the only message, and `thread_pool_wait` reads 0 messages and no flag. -/
def early : List (Action ℕ) :=
  [.start, .push 7 0, .work 0, .work 0, .wait, .wait, .wait, .wait]

/-- The callback was not called yet when `thread_pool_wait` returns. -/
theorem not_wait_done : ¬ Always step Done (new 1 fun _ => 0) early := by
  intro h
  have hrun : exec step (new 1 fun _ => 0) early = some
      { is_run := true
        msg_list := []
        slots := Function.update (fun _ => 0) 0 7
        msg_lock := some 0
        work_thread_state := [false]
        workers := [.unlock 0 7]
        waiter := .returned
        pushed := [7]
        finished := []
        missed := [0] } := rfl
  have hperm := (h.last hrun) rfl
  exact absurd hperm.length_eq (by decide)

end ThreadPool
end Netxy
