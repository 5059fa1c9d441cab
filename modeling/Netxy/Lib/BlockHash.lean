import Mathlib.Data.List.Basic
import Mathlib.Algebra.Order.Group.Nat

/-!
# Hashing block by block

An iterated hash compresses a message in blocks of `n` elements. `chain` is its definition
over the whole message, `Absorbed` is what a hash keeps that is given the message piece by
piece: the chaining value and the part of a block that is not full yet. `absorb_start` says
that the two agree, and `absorb_append` that the way the message is cut does not show.
-/

namespace BlockHash

variable {α σ : Type*} {n : ℕ}

/-- The chaining value after the first `k` blocks of a message. -/
def chain (compress : σ → List α → σ) (n : ℕ) (h : σ) (m : List α) : ℕ → σ
  | 0 => h
  | k + 1 => compress (chain compress n h m k) ((m.drop (k * n)).take n)

/-- The chaining value and the elements of the block that is not full. -/
@[ext]
structure Absorbed (σ α : Type*) (n : ℕ) where
  state : σ
  pending : List α
  pending_lt : pending.length < n

/-- One more element; a block that gets full is compressed. -/
def push (compress : σ → List α → σ) (s : Absorbed σ α n) (b : α) : Absorbed σ α n :=
  if h : s.pending.length + 1 = n then
    { state := compress s.state (s.pending ++ [b])
      pending := []
      pending_lt := by
        rw [List.length_nil]
        omega }
  else
    { state := s.state
      pending := s.pending ++ [b]
      pending_lt := by
        have hlt := s.pending_lt
        rw [List.length_append, List.length_singleton]
        omega }

/-- A piece of the message, element by element. -/
def absorb (compress : σ → List α → σ) (s : Absorbed σ α n) (m : List α) : Absorbed σ α n :=
  m.foldl (push compress) s

/-- Nothing absorbed yet. -/
def start (n : ℕ) (hn : 0 < n) (h : σ) : Absorbed σ α n :=
  { state := h, pending := [], pending_lt := hn }

section
variable {f : σ → List α → σ}

/-- Two pieces are absorbed like their concatenation. -/
theorem absorb_append (s : Absorbed σ α n) (m m' : List α) :
    absorb f s (m ++ m') = absorb f (absorb f s m) m' := by
  unfold absorb
  rw [List.foldl_append]

/-- A piece that does not fill the block is kept. -/
theorem absorb_of_lt (s : Absorbed σ α n) {m : List α} (h : s.pending.length + m.length < n) :
    absorb f s m = ⟨s.state, s.pending ++ m, by rwa [List.length_append]⟩ := by
  induction m generalizing s with
  | nil =>
    apply Absorbed.ext
    · rfl
    · show s.pending = s.pending ++ []
      rw [List.append_nil]
  | cons b m ih =>
    rw [List.length_cons] at h
    have hpush : push f s b = ⟨s.state, s.pending ++ [b], by
        rw [List.length_append, List.length_singleton]
        omega⟩ := by
      unfold push
      rw [dif_neg (by omega)]
    show absorb f (push f s b) m = _
    rw [hpush, ih _ (by
      show (s.pending ++ [b]).length + m.length < n
      rw [List.length_append, List.length_singleton]
      omega)]
    apply Absorbed.ext
    · rfl
    · show s.pending ++ [b] ++ m = s.pending ++ b :: m
      rw [List.append_assoc, List.singleton_append]

/-- A piece that just fills the block has it compressed. -/
theorem absorb_of_eq (s : Absorbed σ α n) {m : List α} (h : s.pending.length + m.length = n) :
    absorb f s m =
      start n (Nat.zero_lt_of_lt s.pending_lt) (f s.state (s.pending ++ m)) := by
  have hlt := s.pending_lt
  have hm : m ≠ [] := by
    intro hm
    rw [hm, List.length_nil] at h
    omega
  -- all but the last element are kept, the last one fills the block
  obtain ⟨init, b, rfl⟩ := (List.eq_nil_or_concat' m).resolve_left hm
  rw [List.length_append, List.length_singleton] at h
  rw [absorb_append, absorb_of_lt s (by omega)]
  show push f _ b = _
  unfold push
  rw [dif_pos (by
    show (s.pending ++ init).length + 1 = n
    rw [List.length_append]
    omega)]
  apply Absorbed.ext
  · show f s.state (s.pending ++ init ++ [b]) = f s.state (s.pending ++ (init ++ [b]))
    rw [List.append_assoc]
  · rfl

/-- A block in front of a message is compressed before it. -/
theorem absorb_start_block (hn : 0 < n) (st : σ) {block : List α} (h : block.length = n)
    (m : List α) :
    absorb f (start n hn st) (block ++ m) =
      absorb f (start n hn (f st block)) m := by
  have hfull := absorb_of_eq (f := f) (start n hn st) (m := block) (by
    show 0 + block.length = n
    omega)
  rw [absorb_append, hfull]
  rfl

/-- A block in front of a message comes first in the chain. -/
theorem chain_block_append {block : List α} (h : block.length = n) (st : σ) (m : List α) (k : ℕ) :
    chain f n st (block ++ m) (k + 1) = chain f n (f st block) m k := by
  induction k with
  | zero =>
    have hblock : (block ++ m).take n = block := List.take_left' h
    show f st (((block ++ m).drop (0 * n)).take n) = f st block
    rw [Nat.zero_mul, List.drop_zero, hblock]
  | succ k ih =>
    have hdrop : (block ++ m).drop ((k + 1) * n) = m.drop (k * n) := by
      rw [Nat.succ_mul, Nat.add_comm, ← List.drop_drop, List.drop_left' h]
    show f (chain f n st (block ++ m) (k + 1)) _ = _
    rw [ih, hdrop]
    rfl

/-- **A message absorbed from the start** leaves the chain over its whole blocks and keeps the
rest. -/
theorem absorb_start (hn : 0 < n) (st : σ) (m : List α) :
    (absorb f (start n hn st) m).state = chain f n st m (m.length / n) ∧
    (absorb f (start n hn st) m).pending = m.drop (m.length / n * n) := by
  induction hl : m.length using Nat.strong_induction_on generalizing st m with
  | _ len ih =>
    by_cases hlt : len < n
    · have hkept := absorb_of_lt (f := f) (start n hn st) (m := m) (by
        show 0 + m.length < n
        omega)
      rw [hkept, Nat.div_eq_of_lt hlt, Nat.zero_mul]
      exact ⟨rfl, rfl⟩
    · -- the first block is compressed, the rest is shorter
      have hblock : (m.take n).length = n := by
        rw [List.length_take]
        omega
      have hrest : (m.drop n).length = len - n := by
        rw [List.length_drop, hl]
      have hdiv : len / n = (len - n) / n + 1 := by
        rw [Nat.div_eq_sub_div hn (by omega)]
      have hsplit := absorb_start_block (f := f) hn st hblock (m.drop n)
      have hchain := chain_block_append (f := f) hblock st (m.drop n) ((len - n) / n)
      rw [List.take_append_drop] at hchain hsplit
      obtain ⟨hstate, hpending⟩ := ih (len - n) (by omega) (f st (m.take n)) (m.drop n) hrest
      rw [hsplit, hdiv, hchain]
      refine ⟨hstate, ?_⟩
      rw [hpending, List.drop_drop, Nat.succ_mul, Nat.add_comm]

end

end BlockHash
