import Netxy.Lib.TimerHistory
import Netxy.Lib.Transition
import Netxy.Timer.Timeaction

/-!
# Runs of a `timer_mgr_s`

Calls of `ox_timer_mgr_add` and `ox_timer_mgr_del`, between calls of `ox_timer_mgr_schedule` or
in the callbacks that it makes. A program that deletes a timer has its id from
`ox_timer_mgr_add`, which may have returned the same id again since.
-/

namespace Netxy
namespace TimeactionMgr
open Transition TimerHistory

variable {κ α : Type*}

/-- Where the one thread is: in the program, in the loop of `ox_timer_mgr_schedule`, or in a
callback that the loop called. The loop has read the clock once. -/
inductive Phase
  | idle
  | looping (now : Int64)
  | calling (now : Int64)

/-- A manager, all that `ox_timer_mgr_add` returned, in order, and what has happened, the newest
event first. A timer's number is its place in `returned`. -/
structure Run (κ α : Type*) where
  mgr : TimeactionMgr κ α
  phase : Phase
  returned : List (Option ℕ)
  log : List (Event (κ × Option α))

inductive Action (κ α : Type*)
  | add (callback : Option κ) (delay : Int64) (arg : Option α) (now : Int64)
  /-- `ox_timer_mgr_del`, with the id that was returned for the timer of this number -/
  | del (number : ℕ)
  | schedule (now : Int64)
  /-- a turn of the loop, with this id on top of the heap, if there is one -/
  | turn (top : Option ℕ)
  | callbackReturns

/-- The program runs, or a callback. -/
def Run.MayCall (s : Run κ α) : Prop :=
  match s.phase with
  | .looping _ => False
  | _ => True

instance Run.decidableMayCall (s : Run κ α) : Decidable s.MayCall :=
  match h : s.phase with
  | .idle => isTrue (by rw [MayCall, h]; trivial)
  | .looping _ => isFalse (by rw [MayCall, h]; exact id)
  | .calling _ => isTrue (by rw [MayCall, h]; trivial)

/-- When the timer is to fire, at the earliest. -/
def deadline (delay now : Int64) : ℤ := now.toInt + delay.toInt

def Run.add (s : Run κ α) (callback : Option κ) (delay : Int64) (arg : Option α) (now : Int64) :
    Run κ α :=
  let (id, mgr) := s.mgr.add callback delay arg now
  { s with
    mgr := mgr
    returned := s.returned ++ [id]
    log :=
      match id, callback with
      | some id, some callback =>
        .added ⟨s.returned.length, id, (callback, arg), deadline delay now⟩ :: s.log
      | _, _ => s.log }

/-- `ox_timer_mgr_schedule` returns. -/
def Run.finish (s : Run κ α) (now : Int64) : Run κ α :=
  { s with phase := .idle, log := .returned now.toInt :: s.log }

/-- A turn of the loop of `ox_timer_mgr_schedule`. -/
def Run.turn (s : Run κ α) (now : Int64) : Option ℕ → Option (Run κ α)
  | none => if s.mgr.compositor_heap = [] then some (s.finish now) else none
  | some top =>
    if s.mgr.IsTop top then
      (s.mgr.turn now top).map fun
        | .break => s.finish now
        | .dropped mgr => { s with mgr := mgr }
        | .called callback arg mgr =>
          { s with
            mgr := mgr
            phase := .calling now
            log := .fired top (callback, arg) now.toInt :: s.log }
    else none

def step (s : Run κ α) : Action κ α → Option (Run κ α)
  | .add callback delay arg now => if s.MayCall then some (s.add callback delay arg now) else none
  | .del number =>
    if s.MayCall then
      (s.returned[number]?).map fun id =>
        { s with mgr := s.mgr.del id, log := .deleted number :: s.log }
    else none
  | .schedule now =>
    match s.phase with
    | .idle => some { s with phase := .looping now }
    | _ => none
  | .turn top =>
    match s.phase with
    | .looping now => s.turn now top
    | _ => none
  | .callbackReturns =>
    match s.phase with
    | .calling now => some { s with phase := .looping now }
    | _ => none

def start (num : ℕ) : Run κ α := ⟨new num, .idle, [], []⟩

/-- The heap has the timer, and the node of its id has what was passed for it. -/
structure Held (m : TimeactionMgr κ α) (timer : TimerHistory.Timer (κ × Option α)) : Prop where
  mem_heap : timer.id ∈ m.compositor_heap
  node : ∃ left_time, left_time.toInt = timer.deadline ∧
    m.node_array[timer.id]? =
      some ⟨timer.id, left_time, timer.call.2, some timer.call.1⟩

/-- What timers are for: each id is free or in the heap, the manager has all that is pending, and
what fires are pending timers that are due. A timer that nobody deletes fires once, before the
first `ox_timer_mgr_schedule` at or after its deadline returns. -/
structure Correct (s : Run κ α) : Prop where
  partitioned : ∀ id, s.mgr.free_node_ids.count id + s.mgr.compositor_heap.count id =
    if id < s.mgr.node_num then 1 else 0
  held : ∀ timer ∈ pending s.log, s.mgr.Held timer
  legal : Legal s.log
  once : ∀ later now log, s.log = later ++ .returned now :: log → ∀ timer, .added timer ∈ log →
    .deleted timer.number ∉ s.log → timer.deadline ≤ now →
    firings timer.number log = 1 ∧ firings timer.number s.log = 1

/-- No deadline needs more than 64 bits, and no id is passed to `ox_timer_mgr_del` for a timer
while another one is pending with it. -/
def Safe (s : Run κ α) : Action κ α → Prop
  | .add callback delay _ now =>
    s.MayCall → callback ≠ none → -2 ^ 63 ≤ deadline delay now ∧ deadline delay now < 2 ^ 63
  | .del number =>
    s.MayCall → ∀ timer ∈ pending s.log, s.returned[number]? = some (some timer.id) →
      timer.number = number
  | _ => True

instance decidableSafe (s : Run κ α) : (a : Action κ α) → Decidable (Safe s a)
  | .add _ _ _ _ => inferInstanceAs (Decidable (_ → _ → _))
  | .del _ => inferInstanceAs (Decidable (_ → _))
  | .schedule _ => isTrue trivial
  | .turn _ => isTrue trivial
  | .callbackReturns => isTrue trivial

/-! ## One step -/

/-- What holds in every state of a run of safe steps. -/
structure Inv (s : Run κ α) : Prop where
  wf : s.mgr.Wf
  held : ∀ timer ∈ pending s.log, s.mgr.Held timer
  legal : Legal s.log
  live : ∀ id ∈ s.mgr.compositor_heap, ∀ node, s.mgr.node_array[id]? = some node →
    node.callback ≠ none → ∃ timer ∈ pending s.log, timer.id = id
  handle : ∀ timer ∈ pending s.log, s.returned[timer.number]? = some (some timer.id)
  number_lt : ∀ timer, .added timer ∈ s.log → timer.number < s.returned.length

theorem Inv.correct {s : Run κ α} (h : Inv s) : Correct s where
  partitioned := h.wf.partitioned
  held := h.held
  legal := h.legal
  once later now log hlog timer ht hdel hdue := by
    rw [hlog] at hdel ⊢
    exact Legal.fires_once (hlog ▸ h.legal) ht hdel hdue

/-- The same id, handle or number in a longer list of results. -/
theorem Inv.handle_append {s : Run κ α} (h : Inv s) (result : Option ℕ) :
    ∀ timer ∈ pending s.log, (s.returned ++ [result])[timer.number]? = some (some timer.id) := by
  intro timer ht
  rw [List.getElem?_append_left (h.number_lt timer (added_of_mem_pending ht))]
  exact h.handle timer ht

theorem Inv.number_lt_append {s : Run κ α} (h : Inv s) (result : Option ℕ) :
    ∀ timer, .added timer ∈ s.log → timer.number < (s.returned ++ [result]).length := by
  intro timer ht
  rw [List.length_append]
  exact (h.number_lt timer ht).trans (Nat.lt_succ_self _)

/-- `NULL` is refused. -/
theorem Inv.add_null {s : Run κ α} (h : Inv s) (delay : Int64) (arg : Option α) (now : Int64) :
    Inv (s.add none delay arg now) :=
  ⟨h.wf, h.held, h.legal, h.live, h.handle_append none, h.number_lt_append none⟩

/-- The run after a call with a callback. -/
theorem Run.add_eq {s : Run κ α} {callback : κ} {delay : Int64} {arg : Option α} {now : Int64}
    {id : ℕ} {mgr : TimeactionMgr κ α}
    (h : s.mgr.add (some callback) delay arg now = (some id, mgr)) :
    s.add (some callback) delay arg now =
      { s with
        mgr := mgr
        returned := s.returned ++ [some id]
        log := .added ⟨s.returned.length, id, (callback, arg), deadline delay now⟩ :: s.log } := by
  rw [Run.add, h]

theorem Inv.add {s : Run κ α} (h : Inv s) {callback : κ} {delay : Int64} {arg : Option α}
    {now : Int64} (hfits : (deadlineOf delay now).toInt = deadline delay now) :
    Inv (s.add (some callback) delay arg now) := by
  obtain ⟨id, mgr, hadd, hwf, hnot, hheap, hnode, hother⟩ := h.wf.add callback delay arg now
  rw [Run.add_eq hadd]
  refine ⟨hwf, fun timer ht => ?_, ⟨h.legal, ?_, ?_⟩, fun i hi node hn hc => ?_,
    fun timer ht => ?_, fun timer ht => ?_⟩
  · rcases List.mem_cons.mp ht with rfl | ht
    · exact ⟨hheap ▸ List.mem_cons_self, _, hfits, hnode⟩
    · have hheld := h.held timer ht
      obtain ⟨left_time, hleft, hold⟩ := hheld.node
      exact ⟨hheap ▸ List.mem_cons_of_mem _ hheld.mem_heap, left_time, hleft,
        (hother _ hheld.mem_heap).trans hold⟩
  · exact h.number_lt
  · intro timer ht heq
    have hid : timer.id = id := heq
    exact hnot (hid ▸ (h.held timer ht).mem_heap)
  · rw [hheap] at hi
    rcases List.mem_cons.mp hi with rfl | hi
    · exact ⟨_, List.mem_cons_self, rfl⟩
    · obtain ⟨timer, ht, hid⟩ := h.live i hi node (hother i hi ▸ hn) hc
      exact ⟨timer, List.mem_cons_of_mem _ ht, hid⟩
  · rcases List.mem_cons.mp ht with rfl | ht
    · exact List.getElem?_concat_length
    · exact h.handle_append _ timer ht
  · rcases List.mem_cons.mp ht with ht | ht
    · cases ht
      rw [List.length_append]
      exact Nat.lt_succ_self _
    · exact h.number_lt_append _ timer ht

/-- The other pending timers are not touched. -/
theorem Inv.del {s : Run κ α} (h : Inv s) {number : ℕ} {id : Option ℕ}
    (hid : s.returned[number]? = some id)
    (hsafe : ∀ timer ∈ pending s.log, id = some timer.id → timer.number = number) :
    Inv { s with mgr := s.mgr.del id, log := .deleted number :: s.log } := by
  have hpending : ∀ timer, timer ∈ pending (.deleted number :: s.log) ↔
      timer ∈ pending s.log ∧ timer.number ≠ number := by
    intro timer
    rw [pending, List.mem_filter, decide_eq_true_eq]
  refine ⟨h.wf.del id, fun timer ht => ?_, ⟨h.legal, trivial⟩, fun i hi node hn hc => ?_,
    fun timer ht => h.handle timer ((hpending timer).mp ht).1, fun timer ht => ?_⟩
  · obtain ⟨ht, hne⟩ := (hpending timer).mp ht
    have hheld := h.held timer ht
    obtain ⟨left_time, hleft, hold⟩ := hheld.node
    have hother : id ≠ some timer.id := fun heq => hne (hsafe timer ht heq)
    exact ⟨(compositor_heap_del (m := s.mgr) id).symm ▸ hheld.mem_heap, left_time, hleft,
      (getElem?_del_of_ne hother).trans hold⟩
  · have hne : id ≠ some i := by
      rintro rfl
      exact hc (callback_del hn)
    have hi' : i ∈ s.mgr.compositor_heap := compositor_heap_del (m := s.mgr) id ▸ hi
    obtain ⟨timer, ht, rfl⟩ := h.live i hi' node ((getElem?_del_of_ne hne).symm.trans hn) hc
    refine ⟨timer, (hpending timer).mpr ⟨ht, ?_⟩, rfl⟩
    rintro rfl
    exact hne (Option.some.inj (hid.symm.trans (h.handle timer ht)))
  · rcases List.mem_cons.mp ht with ht | ht
    · cases ht
    · exact h.number_lt timer ht

/-- The loop ends where the heap has nothing that is due. -/
theorem Inv.finish {s : Run κ α} (h : Inv s) {now : Int64}
    (hdue : ∀ timer ∈ pending s.log, now.toInt < timer.deadline) : Inv (s.finish now) := by
  refine ⟨h.wf, h.held, ⟨h.legal, hdue⟩, h.live, h.handle, fun timer ht => ?_⟩
  rcases List.mem_cons.mp ht with ht | ht
  · cases ht
  · exact h.number_lt timer ht

/-- The pending timers without the one on top, where there is one. -/
theorem Inv.pop {s : Run κ α} (h : Inv s) {top : ℕ} (htop : top ∈ s.mgr.compositor_heap)
    {node : TimeactionNode κ α} (hnode : s.mgr.node_array[top]? = some node) {phase : Phase}
    {log : List (Event (κ × Option α))} (hlegal : Legal log)
    (hpending : ∀ timer, timer ∈ pending log ↔ timer ∈ pending s.log ∧ timer.id ≠ top)
    (hadded : ∀ timer, .added timer ∈ log → .added timer ∈ s.log) :
    Inv { s with mgr := s.mgr.pop top node, phase := phase, log := log } := by
  refine ⟨h.wf.pop htop hnode, fun timer ht => ?_, hlegal, fun i hi n hn hc => ?_,
    fun timer ht => h.handle timer ((hpending timer).mp ht).1,
    fun timer ht => h.number_lt timer (hadded timer ht)⟩
  · obtain ⟨ht, hne⟩ := (hpending timer).mp ht
    have hheld := h.held timer ht
    exact ⟨(h.wf.mem_heap_pop_iff htop node).mpr ⟨hheld.mem_heap, hne⟩, hheld.node⟩
  · obtain ⟨hi, hne⟩ := (h.wf.mem_heap_pop_iff htop node).mp hi
    obtain ⟨timer, ht, rfl⟩ := h.live i hi n hn hc
    exact ⟨timer, (hpending timer).mpr ⟨ht, hne⟩, rfl⟩

theorem left_time_of_node {m : TimeactionMgr κ α} {id : ℕ} {node : TimeactionNode κ α}
    (h : m.node_array[id]? = some node) : m.left_time id = node.left_time := by
  rw [left_time, h, Option.map_some, Option.getD_some]

/-- What a turn does: it ends the loop, or takes the top off the heap. -/
theorem Run.turn_cases {s t : Run κ α} {now : Int64} {top : Option ℕ}
    (ht : s.turn now top = some t) :
    (s.mgr.compositor_heap = [] ∧ t = s.finish now) ∨
      ∃ id node, s.mgr.IsTop id ∧ s.mgr.node_array[id]? = some node ∧
        ((node.callback = none ∧ t = { s with mgr := s.mgr.pop id node }) ∨
          ∃ callback, node.callback = some callback ∧
            ((now < node.left_time ∧ t = s.finish now) ∨
              ¬ now < node.left_time ∧
                t = { s with
                  mgr := s.mgr.pop id node
                  phase := .calling now
                  log := .fired id (callback, node.arg) now.toInt :: s.log })) := by
  cases top with
  | none =>
    rw [Run.turn] at ht
    split_ifs at ht with hempty
    exact .inl ⟨hempty, (Option.some.inj ht).symm⟩
  | some id =>
    rw [Run.turn] at ht
    split_ifs at ht with htop
    obtain ⟨result, hresult, rfl⟩ := Option.map_eq_some_iff.mp ht
    obtain ⟨node, hnode, rfl⟩ := Option.map_eq_some_iff.mp hresult
    refine .inr ⟨id, node, htop, hnode, ?_⟩
    rcases hcallback : node.callback with _ | callback
    · exact .inl ⟨rfl, rfl⟩
    · refine .inr ⟨callback, rfl, ?_⟩
      by_cases hdue : now < node.left_time
      · exact .inl ⟨hdue, by simp only [if_pos hdue]⟩
      · exact .inr ⟨hdue, by simp only [if_neg hdue]⟩

theorem Inv.turn {s t : Run κ α} (h : Inv s) {now : Int64} {top : Option ℕ}
    (ht : s.turn now top = some t) : Inv t := by
  obtain ⟨hempty, rfl⟩ | ⟨id, node, htop, hnode, hturn⟩ := Run.turn_cases ht
  · refine h.finish fun timer htimer => ?_
    have hmem := (h.held timer htimer).mem_heap
    rw [hempty] at hmem
    cases hmem
  obtain ⟨hnull, rfl⟩ | ⟨callback, hcallback, hturn⟩ := hturn
  · -- a deleted timer: none that is pending has its id
    refine h.pop htop.1 hnode h.legal (fun timer => ⟨fun htimer => ⟨htimer, ?_⟩, And.left⟩)
      fun _ hadded => hadded
    rintro rfl
    obtain ⟨left_time, -, hheld⟩ := (h.held timer htimer).node
    cases hnode.symm.trans hheld
    cases hnull
  obtain ⟨timer, htimer, rfl⟩ := h.live id htop.1 node hnode (by rw [hcallback]; nofun)
  obtain ⟨left_time, hleft, hheld⟩ := (h.held timer htimer).node
  cases hnode.symm.trans hheld
  cases hcallback
  obtain ⟨hdue, rfl⟩ | ⟨hdue, rfl⟩ := hturn
  · refine h.finish fun other hother => ?_
    have hle := htop.le other.id (h.held other hother).mem_heap
    obtain ⟨left_time', hleft', hheld'⟩ := (h.held other hother).node
    rw [left_time_of_node hheld, left_time_of_node hheld'] at hle
    rw [Int64.lt_iff_toInt_lt] at hdue
    change left_time.toInt ≤ left_time'.toInt at hle
    change now.toInt < left_time.toInt at hdue
    omega
  · rw [Int64.lt_iff_toInt_lt] at hdue
    change ¬ now.toInt < left_time.toInt at hdue
    refine h.pop htop.1 hnode ⟨h.legal, timer, htimer, rfl, rfl, by omega⟩ (fun other => ?_)
      fun other hother => ?_
    · rw [pending, List.mem_filter, decide_eq_true_eq]
    · rcases List.mem_cons.mp hother with hother | hother
      · cases hother
      · exact hother

theorem Inv.step {s t : Run κ α} {a : Action κ α} (h : Inv s) (hsafe : Safe s a)
    (ht : step s a = some t) : Inv t := by
  cases a with
  | add callback delay arg now =>
    rw [TimeactionMgr.step] at ht
    split_ifs at ht with hcall
    cases ht
    cases callback with
    | none => exact h.add_null delay arg now
    | some callback =>
      exact h.add ((toInt_deadlineOf_eq_iff delay now).mpr (hsafe hcall (by nofun)))
  | del number =>
    rw [TimeactionMgr.step] at ht
    split_ifs at ht with hcall
    obtain ⟨id, hid, rfl⟩ := Option.map_eq_some_iff.mp ht
    exact h.del hid fun timer htimer heq => hsafe hcall timer htimer (heq ▸ hid)
  | schedule now =>
    rw [TimeactionMgr.step] at ht
    split at ht
    · cases ht
      exact ⟨h.wf, h.held, h.legal, h.live, h.handle, h.number_lt⟩
    · cases ht
  | turn top =>
    rw [TimeactionMgr.step] at ht
    split at ht
    · exact h.turn ht
    · cases ht
  | callbackReturns =>
    rw [TimeactionMgr.step] at ht
    split at ht
    · cases ht
      exact ⟨h.wf, h.held, h.legal, h.live, h.handle, h.number_lt⟩
    · cases ht

/-- After any other step, the manager has lost a pending timer, or has it with another
deadline. -/
theorem Inv.spoiled {s : Run κ α} {a : Action κ α} (h : Inv s) (hsafe : ¬ Safe s a) :
    ∃ t, TimeactionMgr.step s a = some t ∧ ¬ Correct t := by
  cases a with
  | add callback delay arg now =>
    simp only [Safe, Classical.not_imp] at hsafe
    obtain ⟨hcall, hsome, hrange⟩ := hsafe
    obtain ⟨callback, rfl⟩ := Option.ne_none_iff_exists'.mp hsome
    refine ⟨_, if_pos hcall, fun ht => hrange ?_⟩
    obtain ⟨id, mgr, hadd, -, -, -, hnode, -⟩ := h.wf.add callback delay arg now
    rw [Run.add_eq hadd] at ht
    obtain ⟨left_time, hleft, hold⟩ := (ht.held _ List.mem_cons_self).node
    cases hnode.symm.trans hold
    exact (toInt_deadlineOf_eq_iff delay now).mp hleft
  | del number =>
    simp only [Safe, Classical.not_imp, not_forall] at hsafe
    obtain ⟨hcall, timer, htimer, hid, hne⟩ := hsafe
    refine ⟨_, (if_pos hcall).trans (congrArg (Option.map _) hid), fun ht => ?_⟩
    have hstill : timer ∈ pending (.deleted number :: s.log) := by
      rw [pending, List.mem_filter, decide_eq_true_eq]
      exact ⟨htimer, hne⟩
    obtain ⟨left_time, -, hold⟩ := (ht.held timer hstill).node
    cases callback_del hold
  | schedule now => exact absurd trivial hsafe
  | turn top => exact absurd trivial hsafe
  | callbackReturns => exact absurd trivial hsafe

theorem inv_start {num : ℕ} (h : 0 < num) : Inv (start num : Run κ α) where
  wf := wf_new h
  held _ ht := nomatch ht
  legal := trivial
  live _ hid := nomatch hid
  handle _ ht := nomatch ht
  number_lt _ ht := nomatch ht

/-! ## The loop ends -/

theorem wf_step {s t : Run κ α} {a : Action κ α} (h : s.mgr.Wf) (ht : step s a = some t) :
    t.mgr.Wf := by
  cases a with
  | add callback delay arg now =>
    rw [step] at ht
    split_ifs at ht
    cases ht
    cases callback with
    | none => exact h
    | some callback =>
      obtain ⟨id, mgr, hadd, hwf, -⟩ := h.add callback delay arg now
      rw [Run.add_eq hadd]
      exact hwf
  | del number =>
    rw [step] at ht
    split_ifs at ht
    obtain ⟨id, -, rfl⟩ := Option.map_eq_some_iff.mp ht
    exact h.del id
  | schedule now =>
    rw [step] at ht
    split at ht <;> cases ht
    exact h
  | turn top =>
    rw [step] at ht
    split at ht
    · obtain ⟨-, rfl⟩ | ⟨id, node, htop, hnode, hturn⟩ := Run.turn_cases ht
      · exact h
      obtain ⟨-, rfl⟩ | ⟨callback, -, ⟨-, rfl⟩ | ⟨-, rfl⟩⟩ := hturn
      · exact h.pop htop.1 hnode
      · exact h
      · exact h.pop htop.1 hnode
    · cases ht
  | callbackReturns =>
    rw [step] at ht
    split at ht <;> cases ht
    exact h

/-- Where nothing is due any more, and callbacks just return, `ox_timer_mgr_schedule` returns:
each turn that does not end it makes the heap smaller. -/
theorem loop_ends {s : Run κ α} (h : s.mgr.Wf) {now : Int64} (hphase : s.phase = .looping now) :
    ∃ turns t, (∀ a ∈ turns, a = .callbackReturns ∨ ∃ top, a = .turn top) ∧
      exec step s turns = some t ∧ t.phase = .idle := by
  induction hn : s.mgr.compositor_heap.length generalizing s with
  | zero =>
    have hempty := List.length_eq_zero_iff.mp hn
    refine ⟨[.turn none], s.finish now, ?_, ?_, rfl⟩
    · intro a ha
      exact .inr ⟨none, List.mem_singleton.mp ha⟩
    · simp only [exec, step, hphase, Run.turn, hempty, if_true, Option.bind_some]
  | succ n ih =>
    have hne : s.mgr.compositor_heap ≠ [] := by
      intro hempty
      rw [hempty] at hn
      cases hn
    obtain ⟨top, htop⟩ := exists_isTop hne
    obtain ⟨node, hnode⟩ := h.exists_node htop.1
    obtain ⟨t, ht⟩ : ∃ t, s.turn now (some top) = some t := by
      rw [Run.turn, if_pos htop, TimeactionMgr.turn, hnode]
      exact ⟨_, rfl⟩
    have hstep : step s (.turn (some top)) = some t := by
      rw [step, hphase]
      exact ht
    -- the heap after a turn that takes its top
    have hpop : ∀ {id : ℕ} {node : TimeactionNode κ α}, s.mgr.IsTop id →
        (s.mgr.pop id node).compositor_heap.length = n := by
      intro id node hid
      rw [pop, List.length_erase_of_mem hid.1, hn, Nat.add_sub_cancel]
    obtain ⟨hempty, -⟩ | ⟨id, node, hid, hnode, hturn⟩ := Run.turn_cases ht
    · exact absurd hempty hne
    obtain ⟨-, rfl⟩ | ⟨callback, -, ⟨-, rfl⟩ | ⟨-, rfl⟩⟩ := hturn
    · obtain ⟨turns, u, hturns, hu, hidle⟩ := ih
        (s := { s with mgr := s.mgr.pop id node }) (h.pop hid.1 hnode) hphase (hpop hid)
      refine ⟨.turn (some top) :: turns, u, ?_, exec_cons.mpr ⟨_, hstep, hu⟩, hidle⟩
      exact List.forall_mem_cons.mpr ⟨.inr ⟨_, rfl⟩, hturns⟩
    · refine ⟨[.turn (some top)], s.finish now, ?_, exec_cons.mpr ⟨_, hstep, rfl⟩, rfl⟩
      exact List.forall_mem_singleton.mpr (.inr ⟨_, rfl⟩)
    · obtain ⟨turns, u, hturns, hu, hidle⟩ := ih
        (s := { s with
          mgr := s.mgr.pop id node
          phase := .looping now
          log := .fired id (callback, node.arg) now.toInt :: s.log })
        (h.pop hid.1 hnode) rfl (hpop hid)
      refine ⟨.turn (some top) :: .callbackReturns :: turns, u, ?_,
        exec_cons.mpr ⟨_, hstep, exec_cons.mpr ⟨_, rfl, hu⟩⟩, hidle⟩
      exact List.forall_mem_cons.mpr
        ⟨.inr ⟨_, rfl⟩, List.forall_mem_cons.mpr ⟨.inl rfl, hturns⟩⟩

/-! ## Whole runs -/

/-- Timers work in every state of a run exactly if no id is passed to `ox_timer_mgr_del` for a
timer while another one is pending with it, and each deadline fits. From anywhere in its loop,
`ox_timer_mgr_schedule` returns if the callbacks do. -/
theorem timers_correct_iff {num : ℕ} (hnum : 0 < num) (actions : List (Action κ α)) :
    (Always step Correct (start num) actions ↔ Throughout step Safe (start num) actions) ∧
      ∀ s now, exec step (start num) actions = some s → s.phase = .looping now →
        ∃ turns t, (∀ a ∈ turns, a = .callbackReturns ∨ ∃ top, a = .turn top) ∧
          exec step s turns = some t ∧ t.phase = .idle := by
  constructor
  · exact always_iff_throughout (W := fun _ _ => True) (fun _ => Inv.correct)
      (fun s a t hs _ hsafe ht => hs.step hsafe ht) (fun s a hs _ hsafe => hs.spoiled hsafe)
      (inv_start hnum) (throughout_of_forall (fun _ _ => trivial) _ _)
  · intro s now hs hphase
    refine loop_ends (exec_invariant (I := fun s => s.mgr.Wf) ?_ (wf_new hnum) hs) hphase
    exact fun s a t => wf_step

/-- One node, whose id is used by a timer that fires, and by a second one. The second timer is
deleted by its own number. -/
def ownId : List (Action ℕ ℕ) :=
  [.add (some 0) 5 none 0, .schedule 5, .turn (some 0), .callbackReturns, .turn none,
    .add (some 1) 5 none 10, .del 1, .schedule 20, .turn (some 0), .turn none]

/-- A timer that is deleted by its own number. -/
theorem timers_correct_own :
    0 < 1 ∧ Always step Correct (start 1) ownId :=
  ⟨by decide, (timers_correct_iff (by decide) ownId).1.mpr (by decide)⟩

/-- The second timer is deleted by the number of the first, and does not fire at 20. -/
def staleId : List (Action ℕ ℕ) :=
  [.add (some 0) 5 none 0, .schedule 5, .turn (some 0), .callbackReturns, .turn none,
    .add (some 1) 5 none 10, .del 0, .schedule 20, .turn (some 0), .turn none]

/-- The wrong timer is deleted by a number that is not its own any more. -/
theorem not_timers_correct : ¬ Always step Correct (start 1) staleId := by
  intro h
  have hrun : exec step (start 1) staleId = some
      { mgr := ⟨[0], [⟨0, 15, none, none⟩], []⟩
        phase := .idle
        returned := [some 0, some 0]
        log := [.returned 20, .deleted 0, .added ⟨1, 0, (1, none), 15⟩, .returned 5,
          .fired 0 (0, none) 5, .added ⟨0, 0, (0, none), 5⟩] } := rfl
  have hlate : (20 : ℤ) < 15 := (h.last hrun).legal.2 ⟨1, 0, (1, none), 15⟩ List.mem_cons_self
  exact absurd hlate (by decide)

end TimeactionMgr
end Netxy
