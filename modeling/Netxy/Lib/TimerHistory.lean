import Mathlib.Data.List.Count
import Mathlib.Data.Int.Notation

/-!
# Histories of timers

What happens to the timers of a service, as a list of events, the newest one first. A timer is
pending from where it is added to where it is deleted or fires, and `Legal` tells which histories
a service of timers may have.
-/

namespace TimerHistory

variable {κ : Type*}

/-- The `number` says which timer it is. The service only knows the `id`, which it may use again. -/
structure Timer (κ : Type*) where
  number : ℕ
  id : ℕ
  call : κ
  deadline : ℤ

inductive Event (κ : Type*)
  | added (timer : Timer κ)
  | deleted (number : ℕ)
  | fired (id : ℕ) (call : κ) (now : ℤ)
  /-- all that is due at `now` has been looked for -/
  | returned (now : ℤ)

/-- The timers that are still to fire. -/
def pending : List (Event κ) → List (Timer κ)
  | [] => []
  | .added timer :: log => timer :: pending log
  | .deleted number :: log => (pending log).filter fun timer => timer.number ≠ number
  | .fired id _ _ :: log => (pending log).filter fun timer => timer.id ≠ id
  | .returned _ :: log => pending log

/-- An event that may follow: no two pending timers share an id, what fires is a pending timer
that is due, with its own call, and none that is due is left behind. -/
def Allowed (log : List (Event κ)) : Event κ → Prop
  | .added timer =>
    (∀ old, .added old ∈ log → old.number < timer.number) ∧
      ∀ other ∈ pending log, other.id ≠ timer.id
  | .deleted _ => True
  | .fired id call now =>
    ∃ timer ∈ pending log, timer.id = id ∧ timer.call = call ∧ timer.deadline ≤ now
  | .returned now => ∀ timer ∈ pending log, now < timer.deadline

def Legal : List (Event κ) → Prop
  | [] => True
  | event :: log => Legal log ∧ Allowed log event

/-- How often the timer with this number has fired. -/
def firings (number : ℕ) : List (Event κ) → ℕ
  | [] => 0
  | .added _ :: log => firings number log
  | .deleted _ :: log => firings number log
  | .fired id _ _ :: log =>
    firings number log +
      (pending log).countP fun timer => timer.id = id && timer.number = number
  | .returned _ :: log => firings number log

theorem added_of_mem_pending {log : List (Event κ)} {timer : Timer κ}
    (h : timer ∈ pending log) : .added timer ∈ log := by
  induction log with
  | nil => cases h
  | cons event log ih =>
    cases event with
    | added new =>
      rcases List.mem_cons.mp h with rfl | h
      · exact List.mem_cons_self
      · exact List.mem_cons_of_mem _ (ih h)
    | deleted number => exact List.mem_cons_of_mem _ (ih (List.mem_filter.mp h).1)
    | fired id call now => exact List.mem_cons_of_mem _ (ih (List.mem_filter.mp h).1)
    | returned now => exact List.mem_cons_of_mem _ (ih h)

/-- The number tells which timer it is. -/
theorem Legal.eq_of_number {log : List (Event κ)} (h : Legal log) {timer other : Timer κ}
    (ht : .added timer ∈ log) (ho : .added other ∈ log) (hn : timer.number = other.number) :
    timer = other := by
  induction log with
  | nil => cases ht
  | cons event log ih =>
    rcases List.mem_cons.mp ht with rfl | ht
    · rcases List.mem_cons.mp ho with ho | ho
      · exact (Event.added.inj ho).symm
      · have hlt := h.2.1 other ho
        omega
    · rcases List.mem_cons.mp ho with hother | ho
      · have hlt := (hother ▸ h.2).1 timer ht
        omega
      · exact ih h.1 ht ho

theorem countP_pending_of_not_added {log : List (Event κ)} {number : ℕ}
    (h : ∀ timer, .added timer ∈ log → timer.number ≠ number) :
    (pending log).countP (fun timer => timer.number = number) = 0 := by
  rw [List.countP_eq_zero]
  intro timer ht
  rw [decide_eq_true_eq]
  exact h timer (added_of_mem_pending ht)

/-- What was not added does not fire. -/
theorem firings_of_not_added {log : List (Event κ)} {number : ℕ}
    (h : ∀ timer, .added timer ∈ log → timer.number ≠ number) : firings number log = 0 := by
  induction log with
  | nil => rfl
  | cons event log ih =>
    have hlog : ∀ timer, .added timer ∈ log → timer.number ≠ number :=
      fun timer ht => h timer (List.mem_cons_of_mem _ ht)
    cases event with
    | added timer => exact ih hlog
    | deleted number' => exact ih hlog
    | fired id call now =>
      have hcount := countP_pending_of_not_added hlog
      rw [List.countP_eq_zero] at hcount
      rw [firings, ih hlog, Nat.zero_add, List.countP_eq_zero]
      intro timer ht hboth
      exact hcount timer ht (Bool.and_eq_true_iff.mp hboth).2
    | returned now => exact ih hlog

/-- A timer that nobody deletes is pending until it fires, and fires once. -/
theorem Legal.firings_add_pending {log : List (Event κ)} (h : Legal log) {timer : Timer κ}
    (ht : .added timer ∈ log) (hdel : .deleted timer.number ∉ log) :
    firings timer.number log + (pending log).countP (fun t => t.number = timer.number) = 1 := by
  induction log with
  | nil => cases ht
  | cons event log ih =>
    have hdel' : .deleted timer.number ∉ log := fun hmem => hdel (List.mem_cons_of_mem _ hmem)
    cases event with
    | added new =>
      rcases List.mem_cons.mp ht with hnew | ht
      · -- the timer is the new one: none before it has its number
        cases hnew
        have hold : ∀ t, .added t ∈ log → t.number ≠ timer.number :=
          fun t ht => Nat.ne_of_lt (h.2.1 t ht)
        rw [firings, firings_of_not_added hold, pending, List.countP_cons,
          countP_pending_of_not_added hold]
        simp
      · have hlt := h.2.1 timer ht
        have hne : new.number ≠ timer.number := by omega
        rw [firings, pending, List.countP_cons_of_neg (by simpa using hne)]
        exact ih h.1 ht hdel'
    | deleted number =>
      have hne : timer.number ≠ number := by
        rintro rfl
        exact hdel List.mem_cons_self
      rw [firings, pending, List.countP_filter, ← ih h.1 (by simpa using ht) hdel']
      congr 2
      funext t
      by_cases htn : t.number = timer.number <;> simp [htn, hne]
    | fired id call now =>
      -- what the event takes out of the pending timers, it counts as having fired
      rw [firings, pending, List.countP_filter, ← ih h.1 (by simpa using ht) hdel', Nat.add_assoc]
      congr 1
      rw [List.countP_eq_countP_filter_add (pending log) (fun t => t.number = timer.number)
        (fun t => t.id = id), List.countP_filter, List.countP_filter]
      congr 2 <;> funext t <;> simp [Bool.and_comm]
    | returned now =>
      rw [firings, pending]
      exact ih h.1 (by simpa using ht) hdel'

theorem Legal.of_append {later log : List (Event κ)} (h : Legal (later ++ log)) : Legal log := by
  induction later with
  | nil => exact h
  | cons event later ih => exact ih h.1

theorem firings_le_append (number : ℕ) (later log : List (Event κ)) :
    firings number log ≤ firings number (later ++ log) := by
  induction later with
  | nil => exact Nat.le_refl _
  | cons event later ih =>
    cases event with
    | added timer => exact ih
    | deleted number' => exact ih
    | fired id call now => exact Nat.le_trans ih (Nat.le_add_right _ _)
    | returned now => exact ih

/-- When all that is due has been looked for, a timer that was due and is never deleted has
fired; it does so once. -/
theorem Legal.fires_once {later log : List (Event κ)} {now : ℤ}
    (h : Legal (later ++ .returned now :: log)) {timer : Timer κ} (ht : .added timer ∈ log)
    (hdel : .deleted timer.number ∉ later ++ .returned now :: log) (hdue : timer.deadline ≤ now) :
    firings timer.number log = 1 ∧ firings timer.number (later ++ .returned now :: log) = 1 := by
  obtain ⟨hlog, hnone⟩ := h.of_append
  have hdel' : .deleted timer.number ∉ log := by
    intro hmem
    exact hdel (List.mem_append_right _ (List.mem_cons_of_mem _ hmem))
  have hcount : (pending log).countP (fun t => t.number = timer.number) = 0 := by
    rw [List.countP_eq_zero]
    intro other ho heq
    have hsame := hlog.eq_of_number (added_of_mem_pending ho) ht (by simpa using heq)
    have hlt := hnone other ho
    rw [hsame] at hlt
    omega
  have honce := hlog.firings_add_pending ht hdel'
  have htotal := h.firings_add_pending
    (List.mem_append_right _ (List.mem_cons_of_mem _ ht)) hdel
  have hle := firings_le_append timer.number (later ++ [.returned now]) log
  rw [List.append_assoc] at hle
  change _ ≤ firings timer.number (later ++ .returned now :: log) at hle
  omega

end TimerHistory
