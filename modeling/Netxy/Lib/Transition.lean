import Mathlib.Data.List.Basic

/-!
# Runs of a partial step function

A system is a state type `σ`, a type `α` of atomic actions and a step function that answers
`none` where an action is not enabled. `exec` runs a list of actions; the rules below carry
a fact from one step to whole runs.
-/

namespace Transition

variable {σ α : Type*} {step : σ → α → Option σ}

/-- Run the actions in order, as long as each is enabled. -/
def exec (step : σ → α → Option σ) : σ → List α → Option σ
  | s, [] => some s
  | s, a :: as => (step s a).bind fun s' => exec step s' as

theorem exec_cons {s u : σ} {a : α} {as : List α} :
    exec step s (a :: as) = some u ↔ ∃ t, step s a = some t ∧ exec step t as = some u := by
  simp only [exec, Option.bind_eq_some_iff]

/-- What every step preserves, every run preserves. -/
theorem exec_invariant {I : σ → Prop}
    (hstep : ∀ s a t, I s → step s a = some t → I t)
    {s t : σ} {as : List α} (hs : I s) (h : exec step s as = some t) : I t := by
  induction as generalizing s with
  | nil =>
    cases h
    exact hs
  | cons a as ih =>
    obtain ⟨u, hu, ht⟩ := exec_cons.mp h
    exact ih (hstep s a u hs hu) ht

theorem exec_append (s : σ) (as bs : List α) :
    exec step s (as ++ bs) = (exec step s as).bind fun t => exec step t bs := by
  induction as generalizing s with
  | nil => rfl
  | cons a as ih =>
    simp only [List.cons_append, exec, Option.bind_assoc]
    exact Option.bind_congr fun t _ => ih t

/-- Where no run has more than `N` steps, any sequence of actions ends at one that is not
enabled. -/
theorem exists_stop {s : σ} {N : ℕ} (hN : ∀ as t, exec step s as = some t → as.length ≤ N)
    (a : ℕ → α) :
    ∃ k t, exec step s ((List.range k).map a) = some t ∧ step t (a k) = none := by
  by_contra hnot
  -- otherwise there are runs of any length
  have hrun : ∀ k, ∃ t, exec step s ((List.range k).map a) = some t := by
    intro k
    induction k with
    | zero => exact ⟨s, rfl⟩
    | succ k ih =>
      obtain ⟨t, ht⟩ := ih
      obtain ⟨u, hu⟩ := Option.ne_none_iff_exists'.mp fun h => hnot ⟨k, t, ht, h⟩
      refine ⟨u, ?_⟩
      rw [List.range_succ, List.map_append, exec_append, ht]
      exact exec_cons.mpr ⟨u, hu, rfl⟩
  obtain ⟨t, ht⟩ := hrun (N + 1)
  have hlen := hN _ t ht
  rw [List.length_map, List.length_range] at hlen
  exact absurd hlen (Nat.not_succ_le_self N)

/-- Where every step of one system is matched by a step of another one that keeps the states
related, so is every run. -/
theorem exec_simulation {τ : Type*} {step' : τ → α → Option τ} {R : σ → τ → Prop}
    (hstep : ∀ s s' a t, R s s' → step s a = some t → ∃ t', step' s' a = some t' ∧ R t t')
    {s t : σ} {s' : τ} {as : List α} (hs : R s s') (ht : exec step s as = some t) :
    ∃ t', exec step' s' as = some t' ∧ R t t' := by
  induction as generalizing s s' with
  | nil =>
    cases ht
    exact ⟨s', rfl, hs⟩
  | cons a as ih =>
    obtain ⟨u, hu, ht⟩ := exec_cons.mp ht
    obtain ⟨u', hu', hrel⟩ := hstep s s' a u hs hu
    obtain ⟨t', ht', hlast⟩ := ih hrel ht
    exact ⟨t', exec_cons.mpr ⟨u', hu', ht'⟩, hlast⟩

/-! ## Facts about every state of a run -/

/-- `P` holds in every state the run passes through, the first one included; the run ends
where an action is not enabled. -/
def Always (step : σ → α → Option σ) (P : σ → Prop) : σ → List α → Prop
  | s, [] => P s
  | s, a :: as => P s ∧ ∀ t, step s a = some t → Always step P t as

theorem Always.head {P : σ → Prop} {s : σ} {as : List α} (h : Always step P s as) : P s := by
  cases as with
  | nil => exact h
  | cons a as => exact h.1

theorem Always.imp {P Q : σ → Prop} (hPQ : ∀ s, P s → Q s) {s : σ} {as : List α}
    (h : Always step P s as) : Always step Q s as := by
  induction as generalizing s with
  | nil => exact hPQ s h
  | cons a as ih => exact ⟨hPQ s h.1, fun t ht => ih (h.2 t ht)⟩

/-- What holds at the start and is kept by every step holds in every state. -/
theorem always_of_invariant {I : σ → Prop}
    (hstep : ∀ s a t, I s → step s a = some t → I t) {s : σ} (hs : I s) (as : List α) :
    Always step I s as := by
  induction as generalizing s with
  | nil => exact hs
  | cons a as ih => exact ⟨hs, fun t ht => ih (hstep s a t hs ht)⟩

theorem Always.last {P : σ → Prop} {s t : σ} {as : List α} (h : Always step P s as)
    (ht : exec step s as = some t) : P t := by
  induction as generalizing s with
  | nil =>
    cases ht
    exact h
  | cons a as ih =>
    obtain ⟨u, hu, ht⟩ := exec_cons.mp ht
    exact ih (h.2 u hu) ht

/-- What every step into a state with `P` preserves, a run through such states preserves. -/
theorem Always.invariant {P I : σ → Prop}
    (hstep : ∀ s a t, I s → step s a = some t → P t → I t) {s t : σ} {as : List α}
    (h : Always step P s as) (hs : I s) (ht : exec step s as = some t) : I t := by
  induction as generalizing s with
  | nil =>
    cases ht
    exact hs
  | cons a as ih =>
    obtain ⟨u, hu, ht⟩ := exec_cons.mp ht
    exact ih (h.2 u hu) (hstep s a u hs hu (h.2 u hu).head) ht

/-- The first part of a run, and the rest of it from where the first part ends. -/
theorem always_append {P : σ → Prop} {s t : σ} {as bs : List α}
    (h : Always step P s (as ++ bs)) (ht : exec step s as = some t) :
    Always step P s as ∧ Always step P t bs := by
  induction as generalizing s with
  | nil =>
    cases ht
    exact ⟨h.head, h⟩
  | cons a as ih =>
    obtain ⟨u, hu, ht⟩ := exec_cons.mp ht
    refine ⟨⟨h.head, fun v hv => ?_⟩, (ih (h.2 u hu) ht).2⟩
    rw [hu, Option.some.injEq] at hv
    subst hv
    exact (ih (h.2 u hu) ht).1

/-! ## Facts about every step of a run -/

/-- `P` holds of every step the run takes, and of the one it tries where it ends. -/
def Throughout (step : σ → α → Option σ) (P : σ → α → Prop) : σ → List α → Prop
  | _, [] => True
  | s, a :: as => P s a ∧ ∀ t, step s a = some t → Throughout step P t as

instance Throughout.decidable {P : σ → α → Prop} [∀ s a, Decidable (P s a)] :
    ∀ (s : σ) (as : List α), Decidable (Throughout step P s as)
  | _, [] => isTrue trivial
  | s, a :: as =>
    match h : step s a with
    | none =>
      decidable_of_iff (P s a)
        ⟨fun hP => ⟨hP, fun _ ht => nomatch h.symm.trans ht⟩, And.left⟩
    | some t =>
      have := Throughout.decidable (P := P) t as
      decidable_of_iff (P s a ∧ Throughout step P t as)
        ⟨fun hP => ⟨hP.1, fun _ hu => Option.some.inj (h.symm.trans hu) ▸ hP.2⟩,
          fun hP => ⟨hP.1, hP.2 t h⟩⟩

/-- What every step with `P` preserves, a run of such steps preserves. -/
theorem Throughout.invariant {P : σ → α → Prop} {I : σ → Prop}
    (hstep : ∀ s a t, I s → P s a → step s a = some t → I t) {s t : σ} {as : List α}
    (h : Throughout step P s as) (hs : I s) (ht : exec step s as = some t) : I t := by
  induction as generalizing s with
  | nil =>
    cases ht
    exact hs
  | cons a as ih =>
    obtain ⟨u, hu, ht⟩ := exec_cons.mp ht
    exact ih (h.2 u hu) (hstep s a u hs h.1 hu) ht

theorem throughout_of_forall {P : σ → α → Prop} (h : ∀ s a, P s a) (s : σ) (as : List α) :
    Throughout step P s as := by
  induction as generalizing s with
  | nil => trivial
  | cons a as ih => exact ⟨h s a, fun t _ => ih t⟩

theorem Throughout.imp {P Q : σ → α → Prop} (hPQ : ∀ s a, P s a → Q s a) {s : σ} {as : List α}
    (h : Throughout step P s as) : Throughout step Q s as := by
  induction as generalizing s with
  | nil => trivial
  | cons a as ih => exact ⟨hPQ s a h.1, fun t ht => ih (h.2 t ht)⟩

theorem Always.throughout {P : σ → Prop} {Q : σ → α → Prop} (hPQ : ∀ s a, P s → Q s a) {s : σ}
    {as : List α} (h : Always step P s as) : Throughout step Q s as := by
  induction as generalizing s with
  | nil => trivial
  | cons a as ih => exact ⟨hPQ s a h.1, fun t ht => ih (h.2 t ht)⟩

/-- The states of a run satisfy `P` exactly if its steps satisfy `C`: steps with `C` keep an
invariant that gives `P`, and any other step leads to a state without `P`. The steps may be
known to satisfy `W`. -/
theorem always_iff_throughout {W C : σ → α → Prop} {P I : σ → Prop}
    (hP : ∀ s, I s → P s)
    (hgood : ∀ s a t, I s → W s a → C s a → step s a = some t → I t)
    (hbad : ∀ s a, I s → W s a → ¬ C s a → ∃ t, step s a = some t ∧ ¬ P t)
    {s : σ} {as : List α} (hs : I s) (hW : Throughout step W s as) :
    Always step P s as ↔ Throughout step C s as := by
  induction as generalizing s with
  | nil => exact iff_of_true (hP s hs) trivial
  | cons a as ih =>
    obtain ⟨hWa, hWnext⟩ := hW
    by_cases hC : C s a
    · have hnext : ∀ t, step s a = some t → (Always step P t as ↔ Throughout step C t as) :=
        fun t ht => ih (hgood s a t hs hWa hC ht) (hWnext t ht)
      exact ⟨fun h => ⟨hC, fun t ht => (hnext t ht).mp (h.2 t ht)⟩,
        fun h => ⟨hP s hs, fun t ht => (hnext t ht).mpr (h.2 t ht)⟩⟩
    · obtain ⟨t, ht, hPt⟩ := hbad s a hs hWa hC
      exact iff_of_false (fun h => hPt (h.2 t ht).head) fun h => hC h.1

/-- Two facts about steps that are the same in every state with an invariant, which steps with
the second fact keep, are the same about whole runs. -/
theorem throughout_iff {P C : σ → α → Prop} {I : σ → Prop}
    (hiff : ∀ s a, I s → (P s a ↔ C s a))
    (hstep : ∀ s a t, I s → C s a → step s a = some t → I t) {s : σ} {as : List α} (hs : I s) :
    Throughout step P s as ↔ Throughout step C s as := by
  induction as generalizing s with
  | nil => exact Iff.rfl
  | cons a as ih =>
    rw [Throughout, Throughout, hiff s a hs]
    exact and_congr_right fun hC =>
      forall₂_congr fun t ht => ih (hstep s a t hs hC ht)

/-- How many steps of the run satisfy `p`. -/
def count (step : σ → α → Option σ) (p : σ → α → Bool) : σ → List α → ℕ
  | _, [] => 0
  | s, a :: as => (p s a).toNat + ((step s a).map fun t => count step p t as).getD 0

theorem count_cons {p : σ → α → Bool} {s t : σ} {a : α} {as : List α} (h : step s a = some t) :
    count step p s (a :: as) = (p s a).toNat + count step p t as := by
  simp only [count, h, Option.map_some, Option.getD_some]

theorem count_eq_zero_iff {p : σ → α → Bool} {s : σ} {as : List α} :
    count step p s as = 0 ↔ Throughout step (fun s a => p s a = false) s as := by
  induction as generalizing s with
  | nil => simp only [count, Throughout]
  | cons a as ih =>
    rw [count, Throughout, Nat.add_eq_zero_iff, Bool.toNat_eq_zero]
    refine and_congr_right fun _ => ?_
    rcases hs : step s a with _ | t
    · simp
    · simp only [Option.map_some, Option.getD_some, ih, Option.some.injEq, forall_eq']

/-! ## Systems without a choice -/

/-- From the first state the system comes to the second one, and ends there. -/
inductive Ends (next : σ → Option σ) : σ → σ → Prop
  | here {s : σ} (h : next s = none) : Ends next s s
  | step {s t u : σ} (h : next s = some t) (ht : Ends next t u) : Ends next s u

theorem Ends.unique {next : σ → Option σ} {s t u : σ} (ht : Ends next s t) (hu : Ends next s u) :
    t = u := by
  induction ht with
  | here h =>
    cases hu with
    | here => rfl
    | step h' => exact nomatch h.symm.trans h'
  | step h _ ih =>
    cases hu with
    | here h' => exact nomatch h.symm.trans h'
    | step h' hu =>
      cases h.symm.trans h'
      exact ih hu

end Transition
