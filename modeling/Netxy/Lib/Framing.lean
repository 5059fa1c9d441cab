import Mathlib.Data.List.Basic
import Mathlib.Tactic.Linarith

/-!
# Greedy frame extraction from a byte stream

A receiver keeps a buffer of unconsumed bytes. Whenever more bytes arrive it takes frames
off the front as long as its extractor finds one, hands each to a handler and keeps the
rest. This file is about any such receiver: `β` are the bytes, `φ` the frames, `σ` the
state the handler works on.

The one thing asked of the extractor is `Stable`: a frame it finds is not empty, lies
inside the buffer, and stays found when more bytes follow. From it, `feed_flatten` shows
that the way a stream is cut into deliveries does not show in the result.
-/

namespace Framing

variable {β φ σ : Type*}

/-- A frame, once found at the front of a buffer, is a nonempty part of it and does not
depend on what follows. -/
structure Stable (extract : List β → Option (φ × ℕ)) : Prop where
  pos : ∀ {b : List β} {f : φ} {n : ℕ}, extract b = some (f, n) → 0 < n
  le_length : ∀ {b : List β} {f : φ} {n : ℕ}, extract b = some (f, n) → n ≤ b.length
  append : ∀ {b : List β} {f : φ} {n : ℕ} (s : List β),
    extract b = some (f, n) → extract (b ++ s) = some (f, n)

/-- Take frames off the front of a buffer until the extractor finds none. -/
def drain (extract : List β → Option (φ × ℕ)) (handle : σ → φ → σ) :
    ℕ → σ → List β → σ × List β
  | 0, st, b => (st, b)
  | fuel + 1, st, b =>
    match extract b with
    | none => (st, b)
    | some (f, n) => drain extract handle fuel (handle st f) (b.drop n)

/-- `drain` with as much fuel as there are bytes. -/
def drainAll (extract : List β → Option (φ × ℕ)) (handle : σ → φ → σ)
    (st : σ) (b : List β) : σ × List β :=
  drain extract handle b.length st b

/-- The frames `drainAll` takes off the front of a buffer, in order. -/
def frames (extract : List β → Option (φ × ℕ)) (b : List β) : List φ :=
  (drainAll extract (fun fs f => fs ++ [f]) [] b).1

/-- One delivery: the unconsumed bytes followed by the new ones. -/
def deliver (extract : List β → Option (φ × ℕ)) (handle : σ → φ → σ)
    (r : σ × List β) (chunk : List β) : σ × List β :=
  drainAll extract handle r.1 (r.2 ++ chunk)

/-- Any number of deliveries, in order. -/
def feed (extract : List β → Option (φ × ℕ)) (handle : σ → φ → σ)
    (r : σ × List β) (chunks : List (List β)) : σ × List β :=
  chunks.foldl (deliver extract handle) r

section
variable {extract : List β → Option (φ × ℕ)} {handle : σ → φ → σ}

theorem Stable.extract_nil (h : Stable extract) : extract [] = none := by
  rcases hx : extract [] with _ | ⟨f, n⟩
  · rfl
  · have hpos := h.pos hx
    have hle := h.le_length hx
    simp only [List.length_nil] at hle
    omega

theorem drain_none {b : List β} (hb : extract b = none) (fuel : ℕ) (st : σ) :
    drain extract handle fuel st b = (st, b) := by
  cases fuel with
  | zero => rfl
  | succ fuel => simp only [drain, hb]

/-- Fuel beyond the length of the buffer makes no difference. -/
theorem drain_fuel (h : Stable extract) {m n : ℕ} (st : σ) (b : List β)
    (hm : b.length ≤ m) (hn : b.length ≤ n) :
    drain extract handle m st b = drain extract handle n st b := by
  induction m generalizing n st b with
  | zero =>
    have hnil : b = [] := List.eq_nil_of_length_eq_zero (by omega)
    subst hnil
    rw [drain_none h.extract_nil, drain_none h.extract_nil]
  | succ m ih =>
    rcases hx : extract b with _ | ⟨f, k⟩
    · rw [drain_none hx, drain_none hx]
    · -- a frame has at least one byte, so the rest needs less fuel
      have hpos := h.pos hx
      have hle := h.le_length hx
      obtain ⟨n, rfl⟩ : ∃ n', n = n' + 1 := ⟨n - 1, by omega⟩
      simp only [drain, hx]
      exact ih _ _ (by simp only [List.length_drop]; omega) (by simp only [List.length_drop]; omega)

theorem drainAll_none {b : List β} (hb : extract b = none) (st : σ) :
    drainAll extract handle st b = (st, b) := drain_none hb _ st

/-- Taking one frame off the front is the first thing `drainAll` does. -/
theorem drainAll_some (h : Stable extract) {b : List β} {f : φ} {n : ℕ}
    (hb : extract b = some (f, n)) (st : σ) :
    drainAll extract handle st b = drainAll extract handle (handle st f) (b.drop n) := by
  have hpos := h.pos hb
  have hle := h.le_length hb
  unfold drainAll
  obtain ⟨k, hk⟩ : ∃ k, b.length = k + 1 := ⟨b.length - 1, by omega⟩
  rw [hk, drain, hb]
  exact drain_fuel h _ _ (by simp only [List.length_drop]; omega) le_rfl

theorem drain_frames (fuel : ℕ) (st : σ) (fs : List φ) (b : List β) :
    (drain extract handle fuel (fs.foldl handle st) b).1 =
      (drain extract (fun fs f => fs ++ [f]) fuel fs b).1.foldl handle st := by
  induction fuel generalizing fs b with
  | zero => rfl
  | succ fuel ih =>
    rcases hx : extract b with _ | ⟨f, n⟩
    · rw [drain_none hx, drain_none hx]
    · simp only [drain, hx]
      rw [← ih (fs ++ [f]), List.foldl_append]
      rfl

/-- The state after draining is the handler run over the frames. -/
theorem drainAll_eq_foldl (st : σ) (b : List β) :
    (drainAll extract handle st b).1 = (frames extract b).foldl handle st :=
  drain_frames b.length st [] b

/-- What is left over holds no further frame. -/
theorem extract_drainAll_snd (h : Stable extract) (st : σ) (b : List β) :
    extract (drainAll extract handle st b).2 = none := by
  induction hlen : b.length using Nat.strong_induction_on generalizing st b with
  | _ len ih =>
    rcases hx : extract b with _ | ⟨f, n⟩
    · rw [drainAll_none hx]
      exact hx
    · have hpos := h.pos hx
      have hle := h.le_length hx
      rw [drainAll_some h hx]
      exact ih (b.drop n).length (by simp only [List.length_drop]; omega) _ _ rfl

/-- Draining a buffer and then the leftover with more bytes behind it is draining all the
bytes at once. -/
theorem drainAll_append (h : Stable extract) (st : σ) (b c : List β) :
    drainAll extract handle st (b ++ c) =
      drainAll extract handle (drainAll extract handle st b).1
        ((drainAll extract handle st b).2 ++ c) := by
  induction hlen : b.length using Nat.strong_induction_on generalizing st b with
  | _ len ih =>
    rcases hx : extract b with _ | ⟨f, n⟩
    · rw [drainAll_none hx]
    · have hpos := h.pos hx
      have hle := h.le_length hx
      rw [drainAll_some h (h.append c hx), drainAll_some h hx, List.drop_append_of_le_length hle]
      exact ih (b.drop n).length (by simp only [List.length_drop]; omega) _ _ rfl

/-- However a stream is cut, the deliveries end where one delivery of the whole stream
does. The leftover the first delivery starts from must hold no frame. -/
theorem feed_flatten (h : Stable extract) (r : σ × List β) (hr : extract r.2 = none)
    (chunks : List (List β)) :
    feed extract handle r chunks = deliver extract handle r chunks.flatten := by
  induction chunks generalizing r with
  | nil =>
    simp only [feed, deliver, List.foldl_nil, List.flatten_nil, List.append_nil]
    rw [drainAll_none hr]
  | cons c cs ih =>
    have hfirst : extract (deliver extract handle r c).2 = none := extract_drainAll_snd h _ _
    calc feed extract handle r (c :: cs)
        = feed extract handle (deliver extract handle r c) cs := rfl
      _ = deliver extract handle (deliver extract handle r c) cs.flatten := ih _ hfirst
      _ = deliver extract handle r (c :: cs).flatten := by
          simp only [deliver, List.flatten_cons]
          rw [← List.append_assoc, drainAll_append h r.1 (r.2 ++ c)]

/-- Two ways of cutting one stream give one result. -/
theorem feed_eq_of_flatten_eq (h : Stable extract) (r : σ × List β) (hr : extract r.2 = none)
    {cs ds : List (List β)} (hcut : cs.flatten = ds.flatten) :
    feed extract handle r cs = feed extract handle r ds := by
  rw [feed_flatten h r hr, feed_flatten h r hr, hcut]

/-- A buffer that starts with the encoding of a frame gives that frame first. -/
theorem drainAll_encoded (h : Stable extract) {f : φ} {e : List β}
    (he : ∀ s, extract (e ++ s) = some (f, e.length)) (st : σ) (s : List β) :
    drainAll extract handle st (e ++ s) = drainAll extract handle (handle st f) s := by
  rw [drainAll_some h (he s), List.drop_left]

end

end Framing
