import Mathlib.Data.List.TakeWhile
import Netxy.Lib.Transition
import Netxy.Net.OutputStream

/-!
# `quickFlush` against `normalFlush`

The two flush loops, each run to its end on the same `mSendList` and against the same kernel:
one that takes a number of bytes more, and of each write as many as are left. Completion
callbacks are recorded, what they do is not part of a flush.
-/

namespace Netxy
open Transition

/-- A flush with the kernel it writes to, which takes `remaining` bytes more; the bytes it
wrote and the callbacks it invoked. -/
structure Flushing (κ : Type*) where
  ds : DataSocket κ
  pc : Option DataSocket.FlushPc
  remaining : ℕ
  errno : DataSocket.Errno
  written : List UInt8
  fired : List κ
deriving DecidableEq, Repr

namespace Flushing
open DataSocket
open OutputStream (unsent unsent_cons length_remainder coalesce_initial gather_initial)

variable {κ : Type*}

/-- What the kernel answers to the next write. An empty offer returns 0 without a new `errno`. -/
def answer (kind : FlushKind) (f : Flushing κ) : SysRet :=
  match offer kind f.ds.mSendList with
  | some o => if o.len ≠ 0 ∧ f.remaining = 0 then ⟨0, .wouldBlock⟩ else ⟨f.remaining, f.errno⟩
  | none => ⟨f.remaining, f.errno⟩

/-- The state after a step of the flush that was answered with `r`. -/
def after (f : Flushing κ) (r : SysRet) (out : FlushStep κ) : Flushing κ where
  ds := out.ds
  pc := out.pc
  remaining := f.remaining - out.accepted.length
  errno := if f.pc = some .sendProc then r.errno else f.errno
  written := f.written ++ out.accepted
  fired := f.fired ++ out.fired.toList

/-- One step of a flush that has not returned. -/
def next (kind : FlushKind) (f : Flushing κ) : Option (Flushing κ) :=
  f.pc.map fun pc => f.after (f.answer kind) (flushStep kind f.ds pc (f.answer kind))

/-- `flush` on a socket. -/
def start (ds : DataSocket κ) (remaining : ℕ) (errno : Errno) : Flushing κ :=
  ⟨ds, ds.flush, remaining, errno, [], []⟩

/-- What a flush leaves behind: the bytes written, `mSendList`, the callbacks invoked,
`mCanWrite`, and whether it closed the connection. -/
structure Outcome (κ : Type*) where
  written : List UInt8
  mSendList : List (PendingPacket κ)
  fired : List κ
  mCanWrite : Bool
  closed : Bool
deriving DecidableEq, Repr

def outcome (f : Flushing κ) : Outcome κ :=
  ⟨f.written, f.ds.mSendList, f.fired, f.ds.mCanWrite, !f.ds.isOpen⟩

/-- Both kinds of flush return, and leave the same behind. -/
def Agree (ds : DataSocket κ) (remaining : ℕ) (errno : Errno) : Prop :=
  ∃ q n, Ends (next .quickFlush) (start ds remaining errno) q ∧
    Ends (next .normalFlush) (start ds remaining errno) n ∧ q.outcome = n.outcome

/-! ## Counting written bytes off a list of packets -/

/-- The bytes of the packets that are left. -/
def total (sendList : List (PendingPacket κ)) : ℕ := (sendList.map PendingPacket.left).sum

/-- The list once `n` bytes of it are written. -/
def settle : ℕ → List (PendingPacket κ) → List (PendingPacket κ)
  | _, [] => []
  | n, b :: rest =>
    if b.left ≤ n then settle (n - b.left) rest else { b with left := b.left - n } :: rest

/-- The callbacks of the packets that `n` bytes complete. -/
def completed : ℕ → List (PendingPacket κ) → List κ
  | _, [] => []
  | n, b :: rest =>
    if b.left ≤ n then b.mCompleteCallback.toList ++ completed (n - b.left) rest else []

/-- No packet has more left than it holds. -/
def Valid (sendList : List (PendingPacket κ)) : Prop := ∀ b ∈ sendList, b.left ≤ b.data.length

theorem total_cons (b : PendingPacket κ) (rest : List (PendingPacket κ)) :
    total (b :: rest) = b.left + total rest := List.sum_cons

theorem total_append (front rest : List (PendingPacket κ)) :
    total (front ++ rest) = total front + total rest := by
  rw [total, List.map_append, List.sum_append]
  rfl

theorem length_unsent {sendList : List (PendingPacket κ)} (hvalid : Valid sendList) :
    (unsent sendList).length = total sendList := by
  induction sendList with
  | nil => rfl
  | cons b rest ih =>
    rw [unsent_cons, List.length_append, total_cons, length_remainder (hvalid b List.mem_cons_self),
      ih fun c hc => hvalid c (List.mem_cons_of_mem _ hc)]

theorem settle_settle (n m : ℕ) (sendList : List (PendingPacket κ)) :
    settle m (settle n sendList) = settle (n + m) sendList := by
  induction sendList generalizing n with
  | nil => rfl
  | cons b rest ih =>
    by_cases hn : b.left ≤ n
    · rw [settle, settle, if_pos hn, if_pos (hn.trans (Nat.le_add_right n m)), ih,
        Nat.sub_add_comm hn]
    · rw [settle, if_neg hn, settle, settle]
      by_cases hm : b.left ≤ n + m
      · rw [if_pos (show b.left - n ≤ m by omega), if_pos hm,
          show m - (b.left - n) = n + m - b.left by omega]
      · rw [if_neg (show ¬ b.left - n ≤ m by omega), if_neg hm, Nat.sub_sub]

theorem completed_settle (n m : ℕ) (sendList : List (PendingPacket κ)) :
    completed n sendList ++ completed m (settle n sendList) = completed (n + m) sendList := by
  induction sendList generalizing n with
  | nil => rfl
  | cons b rest ih =>
    by_cases hn : b.left ≤ n
    · rw [completed, settle, if_pos hn, if_pos hn, completed,
        if_pos (hn.trans (Nat.le_add_right n m)), List.append_assoc, ih, Nat.sub_add_comm hn]
    · rw [completed, if_neg hn, settle, if_neg hn, List.nil_append, completed, completed]
      by_cases hm : b.left ≤ n + m
      · rw [if_pos (show b.left - n ≤ m by omega), if_pos hm,
          show m - (b.left - n) = n + m - b.left by omega]
      · rw [if_neg (show ¬ b.left - n ≤ m by omega), if_neg hm]

theorem total_settle (n : ℕ) (sendList : List (PendingPacket κ)) :
    total (settle n sendList) = total sendList - n := by
  induction sendList generalizing n with
  | nil => exact (Nat.zero_sub n).symm
  | cons b rest ih =>
    by_cases hn : b.left ≤ n
    · rw [settle, if_pos hn, ih, total_cons]
      omega
    · rw [settle, if_neg hn, total_cons, total_cons]
      show b.left - n + total rest = b.left + total rest - n
      omega

/-- What is left are the packets from some point on, the first of them in part. -/
theorem settle_cases (n : ℕ) (sendList : List (PendingPacket κ)) :
    settle n sendList = [] ∨ ∃ i b rest k, sendList.drop i = b :: rest ∧ 0 < k ∧ k ≤ b.left ∧
      settle n sendList = { b with left := k } :: rest := by
  induction sendList generalizing n with
  | nil => exact .inl rfl
  | cons b rest ih =>
    by_cases hn : b.left ≤ n
    · rw [settle, if_pos hn]
      rcases ih (n - b.left) with h | ⟨i, c, cs, k, hdrop, hk⟩
      · exact .inl h
      · exact .inr ⟨i + 1, c, cs, k, hdrop, hk⟩
    · rw [settle, if_neg hn]
      exact .inr ⟨0, b, rest, b.left - n, rfl, by omega, Nat.sub_le _ _, rfl⟩

theorem mem_of_drop_eq {sendList rest : List (PendingPacket κ)} {i : ℕ} {b : PendingPacket κ}
    (h : sendList.drop i = b :: rest) : ∀ c ∈ b :: rest, c ∈ sendList :=
  fun _ hc => List.mem_of_mem_drop (h ▸ hc)

theorem valid_settle {sendList : List (PendingPacket κ)} (hvalid : Valid sendList) (n : ℕ) :
    Valid (settle n sendList) := by
  rcases settle_cases n sendList with h | ⟨i, b, rest, k, hdrop, -, hk, h⟩
  · rw [h]
    exact fun _ hc => absurd hc List.not_mem_nil
  · have hmem := mem_of_drop_eq hdrop
    rw [h]
    intro c hc
    rcases List.mem_cons.mp hc with rfl | hc
    · exact hk.trans (hvalid b (hmem b List.mem_cons_self))
    · exact hvalid c (hmem c (List.mem_cons_of_mem _ hc))

theorem unsent_settle {sendList : List (PendingPacket κ)} (hvalid : Valid sendList) (n : ℕ) :
    unsent (settle n sendList) = (unsent sendList).drop n := by
  induction sendList generalizing n with
  | nil => exact List.drop_nil.symm
  | cons b rest ih =>
    have hb : b.left ≤ b.data.length := hvalid b List.mem_cons_self
    rw [unsent_cons, settle]
    by_cases hn : b.left ≤ n
    · rw [if_pos hn, ih (fun c hc => hvalid c (List.mem_cons_of_mem _ hc)), List.drop_append,
        length_remainder hb, List.drop_eq_nil_of_le ((length_remainder hb).trans_le hn),
        List.nil_append]
    · rw [if_neg hn, unsent_cons, List.drop_append_of_le_length (by rw [length_remainder hb]; omega),
        PendingPacket.remainder, PendingPacket.remainder, List.drop_drop,
        show b.data.length - (b.left - n) = b.data.length - b.left + n by omega]

/-! ## What a flush offers -/

/-- Lengths that leave the code no `int` and the kernel no choice, at every packet the flush comes
to: it has less than 2^32 bytes, and the kernel takes no more than Linux transfers in one call, or
the batch that begins there holds no more than that. -/
def InRange (sendList : List (PendingPacket κ)) (remaining : ℕ) : Prop :=
  ∀ i, total (sendList.take i) ≤ remaining →
    (∀ b ∈ sendList[i]?, b.left < 2 ^ 32) ∧
      (remaining - total (sendList.take i) ≤ maxRwCount ∨
        total ((sendList.drop i).take maxIovec) ≤ maxRwCount)

theorem inRange_of_forall {sendList : List (PendingPacket κ)} {remaining : ℕ}
    (hshort : ∀ b ∈ sendList, b.left < 2 ^ 32) (hremaining : remaining ≤ maxRwCount) :
    InRange sendList remaining := fun _ _ =>
  ⟨fun b hb => hshort b (List.mem_of_getElem? hb), .inl ((Nat.sub_le _ _).trans hremaining)⟩

theorem InRange.settle {sendList : List (PendingPacket κ)} {remaining : ℕ}
    (hrange : InRange sendList remaining) {n : ℕ} (hn : n ≤ remaining) :
    InRange (settle n sendList) (remaining - n) := by
  rcases settle_cases n sendList with h | ⟨i, b, rest, k, hdrop, hpos, hk, h⟩
  · rw [h]
    refine fun j _ => ⟨nofun, .inr ?_⟩
    rw [List.drop_nil, List.take_nil]
    exact Nat.zero_le _
  · -- `n` bytes are the packets before `b`, and what is gone of `b`
    have hlist : sendList = sendList.take i ++ b :: rest := by
      rw [← hdrop, List.take_append_drop]
    have htotal : total (sendList.take i) + b.left = n + k := by
      have hsettled := total_settle n sendList
      have hall := congrArg total hlist
      rw [h, total_cons] at hsettled
      rw [total_append, total_cons] at hall
      dsimp only at hsettled
      omega
    rw [h]
    intro j hj
    cases j with
    | zero =>
      obtain ⟨hshort, hbatch⟩ := hrange i (by omega)
      rw [← List.head?_drop, hdrop] at hshort
      rw [hdrop] at hbatch
      refine ⟨fun c hc => ?_, hbatch.imp (fun hle => ?_) fun hle => ?_⟩
      · cases hc
        exact hk.trans_lt (hshort b rfl)
      · rw [List.take_zero]
        exact (Nat.sub_le _ _).trans ((Nat.sub_le_sub_left (by omega) _).trans hle)
      · rw [maxIovec, List.take_succ_cons, total_cons] at hle
        rw [List.drop_zero, maxIovec, List.take_succ_cons, total_cons]
        exact (Nat.add_le_add_right hk _).trans hle
    | succ j =>
      have htake : total (sendList.take (i + (j + 1))) =
          total (sendList.take i) + (b.left + total (rest.take j)) := by
        rw [List.take_add, hdrop, total_append, List.take_succ_cons, total_cons]
      rw [List.take_succ_cons, total_cons] at hj ⊢
      dsimp only at hj ⊢
      obtain ⟨hshort, hbatch⟩ := hrange (i + (j + 1)) (by omega)
      rw [← List.getElem?_drop, hdrop] at hshort
      rw [← List.drop_drop, hdrop, htake] at hbatch
      exact ⟨hshort, hbatch.imp_left fun hle => le_trans (by omega) hle⟩

/-- The offer is of the packets `front`, with their number as what a full write returns where
an `int` holds it. -/
structure Covers (o : Offer) (front : List (PendingPacket κ)) : Prop where
  bytes : o.bytes = unsent front
  len : total front ≤ o.len
  want : total front ≤ maxRwCount → o.want = total front

theorem bmod_total {n : ℕ} (hn : n ≤ maxRwCount) : Int.bmod n (2 ^ 32) = n := by
  unfold maxRwCount at hn
  exact Int.bmod_eq_of_le (by omega) (by omega)

theorem readySendLen_eq (batch : List (PendingPacket κ)) :
    readySendLen batch = Int.bmod (total batch) (2 ^ 32) := by
  have hfold : ∀ (n : ℤ), batch.foldl
      (fun readySendLen b => Int.bmod (readySendLen + b.left) (2 ^ 32)) (Int.bmod n (2 ^ 32)) =
        Int.bmod (n + total batch) (2 ^ 32) := by
    induction batch with
    | nil =>
      intro n
      exact congrArg (Int.bmod · (2 ^ 32)) (Int.add_zero n).symm
    | cons b rest ih =>
      intro n
      rw [List.foldl_cons, Int.bmod_add_bmod, ih, total_cons, Int.natCast_add, Int.add_assoc]
  have hzero := hfold 0
  rwa [Int.zero_add, Int.zero_bmod] at hzero

theorem covers_quickOffer {sendList : List (PendingPacket κ)} (hvalid : Valid sendList) {o : Offer}
    (h : quickOffer sendList = some o) : Covers o (sendList.take maxIovec) := by
  have hlen : (unsent (sendList.take maxIovec)).length = total (sendList.take maxIovec) :=
    length_unsent fun b hb => hvalid b (List.mem_of_mem_take hb)
  simp only [quickOffer] at h
  split at h
  · cases h
  · cases h
    exact ⟨rfl, hlen.ge, fun hle => (readySendLen_eq _).trans (bmod_total hle)⟩

/-- What is copied together are the first packets, as many as fit. -/
theorem exists_coalesce_eq (waitSendSize : ℕ) (sendList : List (PendingPacket κ)) :
    ∃ front, front <+: sendList ∧ coalesce waitSendSize sendList = unsent front ∧
      (front = [] ∨ waitSendSize + total front ≤ sendbufSize) := by
  induction sendList generalizing waitSendSize with
  | nil => exact ⟨[], List.prefix_rfl, rfl, .inl rfl⟩
  | cons b rest ih =>
    rw [coalesce]
    split
    case isTrue hfits =>
      obtain ⟨front, hfront, hbytes, hsize⟩ := ih (waitSendSize + b.left)
      refine ⟨b :: front, List.cons_prefix_cons.mpr ⟨rfl, hfront⟩, ?_, .inr ?_⟩
      · rw [hbytes, unsent_cons]
      · rw [total_cons]
        rcases hsize with rfl | hsize
        · exact hfits
        · rwa [← Nat.add_assoc]
    case isFalse => exact ⟨[], List.nil_prefix, rfl, .inl rfl⟩

/-- `normalFlush` offers some packets that fit its buffer, or one that does not. -/
theorem exists_gather_eq (sendList : List (PendingPacket κ)) :
    ∃ front, front <+: sendList ∧ gather sendList = unsent front ∧
      (total front ≤ sendbufSize ∨ ∃ b, front = [b]) := by
  cases sendList with
  | nil => exact ⟨[], List.prefix_rfl, rfl, .inl (Nat.zero_le _)⟩
  | cons b rest =>
    rw [gather]
    split
    · obtain ⟨front, hfront, hbytes, hsize⟩ := exists_coalesce_eq 0 (b :: rest)
      refine ⟨front, hfront, hbytes, .inl ?_⟩
      rcases hsize with rfl | hsize
      · exact Nat.zero_le _
      · rwa [Nat.zero_add] at hsize
    · refine ⟨[b], ⟨rest, rfl⟩, ?_, .inr ⟨b, rfl⟩⟩
      exact (List.append_nil _).symm

/-- Either kind offers packets from the front, and the kernel takes no more than Linux does. -/
theorem exists_covers {kind : FlushKind} {sendList : List (PendingPacket κ)} {remaining : ℕ}
    (hvalid : Valid sendList) (hrange : InRange sendList remaining) {o : Offer}
    (ho : offer kind sendList = some o) :
    ∃ front, front <+: sendList ∧ Covers o front ∧
      (remaining ≤ maxRwCount ∨ total front ≤ maxRwCount) := by
  obtain ⟨hshort, hbatch⟩ := hrange 0 (Nat.zero_le _)
  rw [List.take_zero] at hbatch
  cases kind with
  | quickFlush =>
    exact ⟨sendList.take maxIovec, List.take_prefix _ _, covers_quickOffer hvalid ho,
      hbatch⟩
  | normalFlush =>
    obtain ⟨front, hfront, hbytes, hsize⟩ := exists_gather_eq sendList
    have hlen : (unsent front).length = total front :=
      length_unsent fun b hb => hvalid b (hfront.subset hb)
    obtain ⟨hlt, hle⟩ : total front < 2 ^ 32 ∧ (remaining ≤ maxRwCount ∨ total front ≤ maxRwCount) := by
      rcases hsize with hsize | ⟨b, rfl⟩
      · unfold sendbufSize at hsize
        exact ⟨by omega, .inr (by unfold maxRwCount; omega)⟩
      · obtain ⟨rest, rfl⟩ := hfront
        refine ⟨hshort b rfl, hbatch.imp_right fun h => le_trans ?_ h⟩
        rw [List.drop_zero, maxIovec, List.singleton_append, List.take_succ_cons, total_cons,
          total_cons]
        exact Nat.add_le_add_left (Nat.zero_le _) _
    refine ⟨front, hfront, ?_, hle⟩
    simp only [offer, normalOffer, hbytes] at ho
    split at ho
    · cases ho
    · cases ho
      refine ⟨rfl, ?_, fun _ => ?_⟩
      · -- the `int` that is passed on as a length stands for no less
        simp only [hlen, Int.bmod_eq_emod]
        split <;> omega
      · rw [hlen]

theorem unsent_eq_nil {sendList : List (PendingPacket κ)} (h : ∀ b ∈ sendList, b.left = 0) :
    unsent sendList = [] := by
  refine List.flatMap_eq_nil_iff.mpr fun b hb => ?_
  rw [PendingPacket.remainder, h b hb, Nat.sub_zero, List.drop_length]

theorem unsent_eq_nil_iff {sendList : List (PendingPacket κ)} (hvalid : Valid sendList) :
    unsent sendList = [] ↔ ∀ b ∈ sendList, b.left = 0 := by
  refine ⟨fun h b hb => ?_, unsent_eq_nil⟩
  have := List.flatMap_eq_nil_iff.mp h b hb
  rw [← length_remainder (hvalid b hb), this]
  rfl

theorem coalesce_empties {empties : List (PendingPacket κ)} (hempty : ∀ e ∈ empties, e.left = 0)
    {waitSendSize : ℕ} (hsize : waitSendSize ≤ sendbufSize) (sendList : List (PendingPacket κ)) :
    coalesce waitSendSize (empties ++ sendList) = coalesce waitSendSize sendList := by
  induction empties with
  | nil => rfl
  | cons e es ih =>
    have he : e.left = 0 := hempty e List.mem_cons_self
    rw [List.cons_append, coalesce, he, Nat.add_zero, if_pos hsize, PendingPacket.remainder, he,
      Nat.sub_zero, List.drop_length, List.nil_append,
      ih fun c hc => hempty c (List.mem_cons_of_mem _ hc)]

/-- Behind empty packets `normalFlush` sees a packet only if it fits the buffer. -/
theorem gather_ne_nil_iff {empties rest : List (PendingPacket κ)} {b : PendingPacket κ}
    (hvalid : Valid (empties ++ b :: rest)) (hempty : ∀ e ∈ empties, e.left = 0)
    (hb : 0 < b.left) :
    gather (empties ++ b :: rest) ≠ [] ↔ empties = [] ∨ b.left ≤ sendbufSize := by
  have hremainder : b.remainder ≠ [] := List.length_pos_iff.mp
    ((length_remainder (hvalid b (List.mem_append_right _ List.mem_cons_self))).symm ▸ hb)
  have hcoalesce : coalesce 0 (b :: rest) ≠ [] ↔ b.left ≤ sendbufSize := by
    rw [coalesce, Nat.zero_add]
    split
    case isTrue hle =>
      exact iff_of_true (List.append_ne_nil_of_left_ne_nil hremainder _) hle
    case isFalse hlt => exact iff_of_false (fun h => h rfl) hlt
  cases empties with
  | nil =>
    refine iff_of_true ?_ (.inl rfl)
    rw [List.nil_append, gather]
    split
    case isTrue hle => exact hcoalesce.mpr hle
    case isFalse => exact hremainder
  | cons e es =>
    have he : e.left ≤ sendbufSize := (hempty e List.mem_cons_self).trans_le (Nat.zero_le _)
    have hgather : gather (e :: es ++ b :: rest) = coalesce 0 (b :: rest) :=
      (if_pos he).trans (coalesce_empties hempty (Nat.zero_le _) (b :: rest))
    rw [hgather, hcoalesce]
    exact (or_iff_right (List.cons_ne_nil e es)).symm

/-- `quickFlush` sees a packet with bytes left if it comes within the first batch. -/
theorem batch_ne_nil_iff {empties rest : List (PendingPacket κ)} {b : PendingPacket κ}
    (hvalid : Valid (empties ++ b :: rest)) (hempty : ∀ e ∈ empties, e.left = 0)
    (hb : 0 < b.left) :
    unsent ((empties ++ b :: rest).take maxIovec) ≠ [] ↔ empties.length < maxIovec := by
  have hbatch : Valid ((empties ++ b :: rest).take maxIovec) :=
    fun c hc => hvalid c (List.mem_of_mem_take hc)
  rw [Ne, unsent_eq_nil_iff hbatch]
  by_cases hlt : empties.length < maxIovec
  · refine iff_of_true (fun h => ?_) hlt
    have hmem : b ∈ (empties ++ b :: rest).take maxIovec := by
      obtain ⟨k, hk⟩ := Nat.exists_eq_add_of_lt hlt
      rw [List.take_append, hk, Nat.add_assoc, Nat.add_sub_cancel_left, List.take_succ_cons]
      exact List.mem_append_right _ List.mem_cons_self
    exact hb.ne' (h b hmem)
  · refine iff_of_false (fun h => h fun c hc => ?_) hlt
    rw [List.take_append_of_le_length (not_lt.mp hlt)] at hc
    exact hempty c (List.mem_of_mem_take hc)

theorem offer_quickFlush {sendList : List (PendingPacket κ)} (hne : sendList ≠ []) :
    ∃ o, offer .quickFlush sendList = some o ∧ o.bytes = unsent (sendList.take maxIovec) ∧
      o.len = o.bytes.length := by
  have hbatch : sendList.take maxIovec ≠ [] := by
    obtain ⟨b, rest, rfl⟩ := List.exists_cons_of_ne_nil hne
    rw [maxIovec, List.take_succ_cons]
    exact List.cons_ne_nil _ _
  exact ⟨⟨unsent (sendList.take maxIovec), _, _⟩, (if_neg hbatch : ite _ none _ = _), rfl, rfl⟩

theorem offer_normalFlush {sendList : List (PendingPacket κ)} (hne : gather sendList ≠ []) :
    ∃ o, offer .normalFlush sendList = some o ∧ o.bytes = gather sendList :=
  ⟨_, if_neg hne, rfl⟩

/-- A list whose first packet has bytes left makes either kind offer some. -/
theorem exists_offer_of_head (kind : FlushKind) {b : PendingPacket κ} {rest : List (PendingPacket κ)}
    (hvalid : Valid (b :: rest)) (hb : 0 < b.left) :
    ∃ o, offer kind (b :: rest) = some o ∧ o.bytes ≠ [] := by
  have hvalid' : Valid ([] ++ b :: rest) := hvalid
  have hnone : ∀ e ∈ ([] : List (PendingPacket κ)), e.left = 0 :=
    fun _ he => absurd he List.not_mem_nil
  cases kind with
  | quickFlush =>
    obtain ⟨o, ho, hbytes, -⟩ := offer_quickFlush (List.cons_ne_nil b rest)
    have hbatch := (batch_ne_nil_iff hvalid' hnone hb).mpr (Nat.zero_lt_succ _)
    exact ⟨o, ho, hbytes ▸ hbatch⟩
  | normalFlush =>
    have hgather := (gather_ne_nil_iff hvalid' hnone hb).mpr (.inl rfl)
    obtain ⟨o, ho, hbytes⟩ := offer_normalFlush hgather
    exact ⟨o, ho, hbytes ▸ hgather⟩

/-! ## A flush that has bytes to write -/

theorem next_eq (kind : FlushKind) {f : Flushing κ} {pc : FlushPc} (hpc : f.pc = some pc) :
    next kind f = some (f.after (f.answer kind) (flushStep kind f.ds pc (f.answer kind))) := by
  rw [next, hpc]
  rfl

/-- A step that makes no system call. -/
theorem after_of_accepted_nil {f : Flushing κ} (hpc : f.pc ≠ some .sendProc) (r : SysRet)
    {out : FlushStep κ} (hout : out.accepted = []) :
    f.after r out =
      { f with ds := out.ds, pc := out.pc, fired := f.fired ++ out.fired.toList } := by
  simp only [after, hout, List.length_nil, Nat.sub_zero, List.append_nil, if_neg hpc]

/-- The flush behind the `for`, which counted `tmpLen` bytes off. -/
def counted (f : Flushing κ) (sendLen : ℕ) (want : ℤ) (tmpLen : ℕ) : Flushing κ :=
  let out := flushTail { f.ds with mSendList := settle tmpLen f.ds.mSendList } sendLen want
  { f with ds := out.ds, pc := out.pc, fired := f.fired ++ completed tmpLen f.ds.mSendList }

theorem after_flushTail {f : Flushing κ} (hpc : f.pc ≠ some .sendProc) (r : SysRet)
    (ds : DataSocket κ) (sendLen : ℕ) (want : ℤ) :
    f.after r (flushTail ds sendLen want) =
      { f with ds := (flushTail ds sendLen want).ds, pc := (flushTail ds sendLen want).pc } := by
  have hquiet : (flushTail ds sendLen want).accepted = [] ∧
      (flushTail ds sendLen want).fired = none := by
    rcases flushTail_cases ds sendLen want with h | h | h <;> rw [h] <;> exact ⟨rfl, rfl⟩
  rw [after_of_accepted_nil hpc r hquiet.1, hquiet.2, Option.toList_none, List.append_nil]

/-- The `for` over the written packets, one round for each that is complete. -/
theorem ends_of_counted {kind : FlushKind} {f g : Flushing κ} {sendLen : ℕ} {want : ℤ}
    {tmpLen : ℕ} (hpc : f.pc = some (.written sendLen want tmpLen))
    (h : Ends (next kind) (f.counted sendLen want tmpLen) g) : Ends (next kind) f g := by
  induction hlist : f.ds.mSendList generalizing f tmpLen with
  | nil =>
    have hnot : f.pc ≠ some .sendProc := by
      rw [hpc]
      intro hpc'
      cases hpc'
    refine .step ((next_eq kind hpc).trans (congrArg some ?_)) h
    rw [flushStep, flushWritten, hlist]
    rw [after_flushTail hnot, counted, hlist, settle, completed, List.append_nil, ← hlist]
  | cons b rest ih =>
    have hnot : f.pc ≠ some .sendProc := by
      rw [hpc]
      intro hpc'
      cases hpc'
    by_cases hle : b.left ≤ tmpLen
    · -- the callback is invoked, then the packet is erased
      let f₁ : Flushing κ := { f with
        pc := some (.completed sendLen want (tmpLen - b.left))
        fired := f.fired ++ b.mCompleteCallback.toList }
      let f₂ : Flushing κ := { f₁ with
        ds := { f.ds with mSendList := rest }
        pc := some (.written sendLen want (tmpLen - b.left)) }
      have hfirst : next kind f = some f₁ := by
        rw [next_eq kind hpc, flushStep, flushWritten, hlist]
        simp only [if_pos hle]
        rw [after_of_accepted_nil hnot _ rfl]
      have hsecond : next kind f₁ = some f₂ := by
        have hnot₁ : some (FlushPc.completed sendLen want (tmpLen - b.left)) ≠
            some .sendProc := by
          intro hpc'
          cases hpc'
        rw [next_eq kind rfl, flushStep, after_of_accepted_nil hnot₁ _ rfl]
        simp only [f₁, f₂, hlist, List.tail_cons, Option.toList_none, List.append_nil]
      refine .step hfirst (.step hsecond (ih rfl ?_ rfl))
      have hcounted : f₂.counted sendLen want (tmpLen - b.left) = f.counted sendLen want tmpLen := by
        simp only [counted, f₁, f₂, hlist, settle, completed, if_pos hle, List.append_assoc]
      rwa [hcounted]
    · refine .step ((next_eq kind hpc).trans (congrArg some ?_)) h
      rw [flushStep, flushWritten, hlist]
      simp only [if_neg hle]
      rw [after_flushTail hnot, counted, hlist, settle, completed, if_neg hle, if_neg hle,
        List.append_nil]

/-- At `SEND_PROC`, on a socket that is open and can be written. -/
structure Sending (f : Flushing κ) : Prop where
  pc : f.pc = some .sendProc
  isOpen : f.ds.isOpen = true
  mCanWrite : f.ds.mCanWrite = true

/-- What a flush with bytes to write leaves behind: nothing is written to a full kernel, else
packets are, until there are no more or the kernel is full. -/
def poured (f : Flushing κ) : Outcome κ :=
  if f.remaining = 0 then ⟨f.written, f.ds.mSendList, f.fired, false, false⟩
  else
    ⟨f.written ++ (unsent f.ds.mSendList).take f.remaining, settle f.remaining f.ds.mSendList,
      f.fired ++ completed f.remaining f.ds.mSendList,
      (settle f.remaining f.ds.mSendList).isEmpty, false⟩

/-- The kernel is full. -/
theorem Sending.blocks {kind : FlushKind} {f : Flushing κ} (hs : f.Sending) {o : Offer}
    (ho : offer kind f.ds.mSendList = some o) (hlen : o.len ≠ 0) (hzero : f.remaining = 0) :
    ∃ g, Ends (next kind) f g ∧ g.outcome = ⟨f.written, f.ds.mSendList, f.fired, false, false⟩ := by
  have hanswer : f.answer kind = ⟨0, .wouldBlock⟩ := by
    rw [answer, ho]
    exact if_pos ⟨hlen, hzero⟩
  have htaken : f.ds.taken o ⟨0, .wouldBlock⟩ = [] := by
    rw [taken, if_pos hs.isOpen, Nat.zero_min, List.take_zero]
  let g : Flushing κ := { f with
    ds := checkWrite { f.ds with mCanWrite := false }
    pc := none
    errno := .wouldBlock }
  have hnext : next kind f = some g := by
    rw [next_eq kind hs.pc, hanswer, flushStep, flushSend, ho]
    simp only [htaken, ne_eq, not_true_eq_false, if_false, hs.isOpen, and_self, if_true, after,
      hs.pc, List.length_nil, Nat.sub_zero, List.append_nil, Option.toList_none, g]
  refine ⟨g, .step hnext (.here rfl), ?_⟩
  simp only [outcome, checkWrite, hs.isOpen, if_true, Bool.not_true, g]

/-- The kernel takes of the packets offered what it has room for. -/
theorem Sending.taken_eq {f : Flushing κ} (hs : f.Sending) (hvalid : Valid f.ds.mSendList)
    {o : Offer} {front : List (PendingPacket κ)} (hfront : front <+: f.ds.mSendList)
    (hcovers : Covers o front) (hle : f.remaining ≤ maxRwCount ∨ total front ≤ maxRwCount)
    (errno : Errno) :
    f.ds.taken o ⟨f.remaining, errno⟩ =
      (unsent f.ds.mSendList).take (min f.remaining (total front)) := by
  obtain ⟨rest, hlist⟩ := hfront
  have hlen : (unsent front).length = total front :=
    length_unsent fun b hb => hvalid b (hlist ▸ List.mem_append_left rest hb)
  have hunsent : unsent f.ds.mSendList = unsent front ++ unsent rest := by
    rw [← hlist]
    exact List.flatMap_append
  have hcount : (unsent front).take (min f.remaining (min o.len maxRwCount)) =
      (unsent front).take (min f.remaining (total front)) := by
    have := hcovers.len
    rw [List.take_eq_take_iff, hlen]
    omega
  rw [taken, if_pos hs.isOpen, hcovers.bytes, hcount, hunsent, List.take_append_of_le_length]
  rw [hlen]
  exact Nat.min_le_right _ _

/-- A write that the kernel takes bytes of. -/
theorem Sending.writes {kind : FlushKind} {f : Flushing κ} (hs : f.Sending)
    (hvalid : Valid f.ds.mSendList) {o : Offer} (ho : offer kind f.ds.mSendList = some o)
    {front : List (PendingPacket κ)} (hfront : front <+: f.ds.mSendList)
    (hcovers : Covers o front) (hle : f.remaining ≤ maxRwCount ∨ total front ≤ maxRwCount) {n : ℕ}
    (hn : n = min f.remaining (total front)) (hpos : 0 < n) :
    next kind f = some { f with
      pc := some (.written n o.want n)
      remaining := f.remaining - n
      written := f.written ++ (unsent f.ds.mSendList).take n } := by
  have hanswer : f.answer kind = ⟨f.remaining, f.errno⟩ := by
    rw [answer, ho]
    exact if_neg fun h => by omega
  have htaken : f.ds.taken o ⟨f.remaining, f.errno⟩ = (unsent f.ds.mSendList).take n := by
    rw [hs.taken_eq hvalid hfront hcovers hle, hn]
  have hlength : ((unsent f.ds.mSendList).take n).length = n := by
    obtain ⟨rest, hlist⟩ := hfront
    rw [List.length_take, length_unsent hvalid, ← hlist, total_append]
    omega
  have hne : (unsent f.ds.mSendList).take n ≠ [] :=
    List.length_pos_iff.mp (hpos.trans_eq hlength.symm)
  rw [next_eq kind hs.pc, hanswer, flushStep, flushSend, ho]
  simp only [htaken, if_pos hne, hlength, after, hs.pc, Option.toList_none, List.append_nil,
    if_true]

theorem settle_head {n : ℕ} {sendList : List (PendingPacket κ)} (h : settle n sendList ≠ []) :
    ∃ b rest, settle n sendList = b :: rest ∧ 0 < b.left := by
  rcases settle_cases n sendList with hnil | ⟨i, b, rest, k, -, hk, -, hcons⟩
  · exact absurd hnil h
  · exact ⟨_, rest, hcons, hk⟩

/-- The flush at `SEND_PROC` again, `n` bytes later. -/
def resumed (f : Flushing κ) (n : ℕ) : Flushing κ :=
  { f with
    ds := { f.ds with mSendList := settle n f.ds.mSendList }
    pc := some .sendProc
    remaining := f.remaining - n
    written := f.written ++ (unsent f.ds.mSendList).take n
    fired := f.fired ++ completed n f.ds.mSendList }

/-- Pouring the list is to pour `n` bytes of it, and the rest. -/
theorem poured_resumed {f : Flushing κ} (hvalid : Valid f.ds.mSendList) {n : ℕ} (hpos : 0 < n)
    (hn : n ≤ f.remaining) (hne : settle n f.ds.mSendList ≠ []) :
    (f.resumed n).poured = f.poured := by
  obtain ⟨m, hm⟩ := Nat.exists_eq_add_of_le hn
  have hrest : (f.resumed n).remaining = m := Nat.sub_eq_of_eq_add' hm
  have hremaining : f.remaining ≠ 0 := by omega
  rw [poured, poured, hrest, if_neg hremaining, hm]
  by_cases hzero : m = 0
  · subst hzero
    rw [if_pos rfl, Nat.add_zero, List.isEmpty_eq_false_iff.mpr hne]
    rfl
  · rw [if_neg hzero]
    simp only [resumed, unsent_settle hvalid, settle_settle, List.append_assoc, completed_settle,
      List.take_add]

/-- Where `n` bytes are all that was left, or all that the kernel takes, nothing is left to
be poured. -/
theorem poured_of_last {f : Flushing κ} (hvalid : Valid f.ds.mSendList) {n : ℕ} (hpos : 0 < n)
    (hn : n ≤ f.remaining) (hlast : settle n f.ds.mSendList = [] ∨ n = f.remaining) :
    f.poured = ⟨f.written ++ (unsent f.ds.mSendList).take n, settle n f.ds.mSendList,
      f.fired ++ completed n f.ds.mSendList, (settle n f.ds.mSendList).isEmpty, false⟩ := by
  have hremaining : f.remaining ≠ 0 := by omega
  rw [poured, if_neg hremaining]
  rcases hlast with hnil | rfl
  · obtain ⟨m, hm⟩ := Nat.exists_eq_add_of_le hn
    have hall : (unsent f.ds.mSendList).drop n = [] := by
      rw [← unsent_settle hvalid, hnil]
      rfl
    rw [hm, ← settle_settle, ← completed_settle, hnil, List.take_add, hall, List.take_nil,
      List.append_nil, settle, completed, List.append_nil]
  · rfl

/-- Either kind of flush that has bytes to write pours the list into the kernel. -/
theorem Sending.exists_ends_poured {kind : FlushKind} {f : Flushing κ} (hs : f.Sending)
    (hvalid : Valid f.ds.mSendList) (hrange : InRange f.ds.mSendList f.remaining) {o : Offer}
    (ho : offer kind f.ds.mSendList = some o) (hne : o.bytes ≠ []) :
    ∃ g, Ends (next kind) f g ∧ g.outcome = f.poured := by
  induction hremaining : f.remaining using Nat.strong_induction_on generalizing f o with
  | _ remaining ih =>
    subst hremaining
    obtain ⟨front, hfront, hcovers, hle⟩ := exists_covers hvalid hrange ho
    have hpos : 0 < total front := by
      rw [hcovers.bytes] at hne
      rw [← length_unsent fun b hb => hvalid b (hfront.subset hb)]
      exact List.length_pos_iff.mpr hne
    by_cases hzero : f.remaining = 0
    · rw [poured, if_pos hzero]
      exact hs.blocks ho (by have := hcovers.len; omega) hzero
    · obtain ⟨n, hn⟩ : ∃ n, n = min f.remaining (total front) := ⟨_, rfl⟩
      have hnpos : 0 < n := by omega
      have hnle : n ≤ f.remaining := hn.trans_le (Nat.min_le_left _ _)
      have hnext := hs.writes hvalid ho hfront hcovers hle hn hnpos
      suffices hcounted : ∃ g, Ends (next kind) (({ f with
          pc := some (.written n o.want n)
          remaining := f.remaining - n
          written := f.written ++ (unsent f.ds.mSendList).take n } : Flushing κ).counted
            n o.want n) g ∧ g.outcome = f.poured by
        obtain ⟨g, hg, houtcome⟩ := hcounted
        exact ⟨g, .step hnext (ends_of_counted rfl hg), houtcome⟩
      by_cases hwant : (n : ℤ) = o.want
      · by_cases hnil : settle n f.ds.mSendList = []
        · -- everything is written
          rw [poured_of_last hvalid hnpos hnle (.inl hnil)]
          simp only [counted, flushTail, if_pos hwant, if_pos hnil]
          refine ⟨_, .here rfl, ?_⟩
          simp only [outcome, hnil, hs.mCanWrite, hs.isOpen, List.isEmpty_nil, Bool.not_true]
        · -- the rest starts with a packet that has bytes left
          obtain ⟨b, rest, hrest, hb⟩ := settle_head hnil
          have hvalid' := valid_settle hvalid n
          obtain ⟨o', ho', hne'⟩ := exists_offer_of_head kind (hrest ▸ hvalid') hb
          have hresumed : (f.resumed n).Sending := ⟨rfl, hs.isOpen, hs.mCanWrite⟩
          have := ih (f.remaining - n) (by omega) hresumed hvalid' (hrange.settle hnle)
            (show offer kind (settle n f.ds.mSendList) = some o' from hrest ▸ ho') hne' rfl
          rw [poured_resumed hvalid hnpos hnle hnil] at this
          simp only [counted, flushTail, if_pos hwant, if_neg hnil]
          exact this
      · -- a short write
        have hlt : n < total front := by
          by_contra hnot
          have htotal : n = total front := by omega
          exact hwant (htotal ▸ (hcovers.want (by omega)).symm)
        have hlast : n = f.remaining := by omega
        have hshort : settle n f.ds.mSendList ≠ [] := by
          intro hnil
          have htotal := total_settle n f.ds.mSendList
          obtain ⟨rest, hlist⟩ := hfront
          rw [hnil, ← hlist, total_append] at htotal
          have hzero : total ([] : List (PendingPacket κ)) = 0 := rfl
          omega
        rw [poured_of_last hvalid hnpos hnle (.inr hlast), List.isEmpty_eq_false_iff.mpr hshort]
        simp only [counted, flushTail, if_neg hwant]
        refine ⟨_, .here rfl, ?_⟩
        simp only [outcome, checkWrite, hs.isOpen, if_true, Bool.not_true]

/-! ## A flush without bytes to write -/

theorem ends_of_offer_none {kind : FlushKind} {f : Flushing κ} (hs : f.Sending)
    (hoffer : offer kind f.ds.mSendList = none) :
    ∃ g, Ends (next kind) f g ∧ g.outcome = ⟨f.written, f.ds.mSendList, f.fired, true, false⟩ := by
  have hnext : next kind f = some (f.after (f.answer kind) ⟨f.ds, none, [], [], none⟩) := by
    rw [next_eq _ hs.pc, flushStep, flushSend, hoffer]
  refine ⟨_, .step hnext (.here rfl), ?_⟩
  simp only [outcome, after, List.append_nil, Option.toList_none, hs.mCanWrite, hs.isOpen,
    Bool.not_true]

theorem offer_nil (kind : FlushKind) : offer kind ([] : List (PendingPacket κ)) = none := by
  cases kind with
  | quickFlush => simp only [offer, quickOffer, List.take_nil, if_true]
  | normalFlush => rfl

/-- `writev` of nothing but empty packets returns 0, which `quickFlush` takes for a failure. -/
theorem ends_quickFlush_of_batch_empty {f : Flushing κ} (hs : f.Sending)
    (hfinal : f.ds.mIsPostFinalClose = false) (hne : f.ds.mSendList ≠ [])
    (hbatch : unsent (f.ds.mSendList.take maxIovec) = []) :
    ∃ g, Ends (next .quickFlush) f g ∧ g.outcome =
      ⟨f.written, f.ds.mSendList, f.fired, false, decide (f.errno ≠ .wouldBlock)⟩ := by
  obtain ⟨o, ho, hbytes, hlen⟩ := offer_quickFlush hne
  rw [hbatch] at hbytes
  rw [hbytes, List.length_nil] at hlen
  have hanswer : f.answer .quickFlush = ⟨f.remaining, f.errno⟩ := by
    rw [answer, ho]
    exact if_neg fun h => h.1 hlen
  have htaken : f.ds.taken o ⟨f.remaining, f.errno⟩ = [] := by
    rw [taken, if_pos hs.isOpen, hbytes, List.take_nil]
  have hsend : flushStep .quickFlush f.ds .sendProc (f.answer .quickFlush) =
      if f.errno = .wouldBlock then
        ⟨checkWrite { f.ds with mCanWrite := false }, none, [], [], none⟩
      else ⟨f.ds.procCloseInLoop.1, none, f.ds.procCloseInLoop.2, [], none⟩ := by
    rw [flushStep, flushSend, ho]
    simp only [hanswer, htaken, ne_eq, not_true_eq_false, if_false, hs.isOpen, true_and]
  have hnext := next_eq .quickFlush hs.pc
  rw [hsend] at hnext
  by_cases hblock : f.errno = .wouldBlock
  · rw [if_pos hblock] at hnext
    refine ⟨_, .step hnext (.here rfl), ?_⟩
    simp only [outcome, after, checkWrite, hs.isOpen, if_true, List.append_nil, Option.toList_none,
      Bool.not_true, hblock, ne_eq, not_true_eq_false, decide_false]
  · rw [if_neg hblock] at hnext
    refine ⟨_, .step hnext (.here rfl), ?_⟩
    simp only [outcome, after, procCloseInLoop, onClose, closeSocket, hs.isOpen, hfinal, if_true,
      Bool.false_eq_true, if_false, List.append_nil, Option.toList_none, Bool.not_false, hblock,
      ne_eq, not_false_eq_true, decide_true]

/-! ## When the two agree -/

/-- Packets that both kinds of flush treat alike: there are none, or the first that has bytes
left is the first of all, or it is copied and comes within the first batch. A batch of empty
packets does no harm if the kernel is full and `errno` says so already. -/
def Harmless (sendList : List (PendingPacket κ)) (remaining : ℕ) (errno : Errno) : Prop :=
  let empties := sendList.takeWhile fun b => b.left = 0
  match sendList.dropWhile fun b => b.left = 0 with
  | [] => sendList = []
  | b :: _ => empties = [] ∨ b.left ≤ sendbufSize ∧
      (empties.length < maxIovec ∨ remaining = 0 ∧ errno = .wouldBlock)

theorem agree_iff_of_ends {ds : DataSocket κ} {remaining : ℕ} {errno : Errno} {a b : Outcome κ}
    (ha : ∃ q, Ends (next .quickFlush) (start ds remaining errno) q ∧ q.outcome = a)
    (hb : ∃ n, Ends (next .normalFlush) (start ds remaining errno) n ∧ n.outcome = b) :
    Agree ds remaining errno ↔ a = b := by
  obtain ⟨q, hq, rfl⟩ := ha
  obtain ⟨n, hn, rfl⟩ := hb
  constructor
  · rintro ⟨q', n', hq', hn', h⟩
    rwa [hq.unique hq', hn.unique hn']
  · exact fun h => ⟨q, n, hq, hn, h⟩

theorem poured_of_full {f : Flushing κ} (hremaining : f.remaining = 0) :
    f.poured = ⟨f.written, f.ds.mSendList, f.fired, false, false⟩ := if_pos hremaining

theorem poured_written_ne_nil {f : Flushing κ} (hremaining : f.remaining ≠ 0)
    (hne : unsent f.ds.mSendList ≠ []) : f.poured.written ≠ [] := by
  rw [poured, if_neg hremaining]
  refine List.append_ne_nil_of_right_ne_nil _ fun h => ?_
  exact (List.take_eq_nil_iff.mp h).elim hremaining hne

/-- To pour the packets is not to leave the socket alone. -/
theorem poured_ne_idle {f : Flushing κ} (hwritten : f.written = [])
    (hne : unsent f.ds.mSendList ≠ []) :
    f.poured ≠ ⟨f.written, f.ds.mSendList, f.fired, true, false⟩ := by
  intro h
  by_cases hzero : f.remaining = 0
  · rw [poured_of_full hzero] at h
    exact Bool.false_ne_true (congrArg Outcome.mCanWrite h)
  · exact poured_written_ne_nil hzero hne ((congrArg Outcome.written h).trans hwritten)

/-- To take a batch for failed is to pour the packets only where a full kernel was to be met,
and seems to have been. -/
theorem failed_eq_poured_iff {f : Flushing κ} (hwritten : f.written = [])
    (hne : unsent f.ds.mSendList ≠ []) :
    ⟨f.written, f.ds.mSendList, f.fired, false, decide (f.errno ≠ .wouldBlock)⟩ = f.poured ↔
      f.remaining = 0 ∧ f.errno = .wouldBlock := by
  constructor
  · intro h
    have hzero : f.remaining = 0 := by
      by_contra hnot
      exact poured_written_ne_nil hnot hne ((congrArg Outcome.written h).symm.trans hwritten)
    have hclosed := congrArg Outcome.closed h
    rw [poured_of_full hzero] at hclosed
    exact ⟨hzero, not_not.mp (of_decide_eq_false hclosed)⟩
  · rintro ⟨hzero, herrno⟩
    rw [poured_of_full hzero, herrno]
    rfl

/-- The two kinds agree on no packets, and where `normalFlush` has something to offer and the
first batch of `quickFlush` does not come to nothing, or comes to what a full kernel does. -/
theorem agree_iff {ds : DataSocket κ} {remaining : ℕ} {errno : Errno}
    (hs : (start ds remaining errno).Sending) (hclose : ds.mIsPostFinalClose = false)
    (hvalid : Valid ds.mSendList) (hrange : InRange ds.mSendList remaining) :
    Agree ds remaining errno ↔ ds.mSendList = [] ∨ gather ds.mSendList ≠ [] ∧
      (unsent (ds.mSendList.take maxIovec) ≠ [] ∨ remaining = 0 ∧ errno = .wouldBlock) := by
  by_cases hnil : ds.mSendList = []
  · have hnone : ∀ kind, offer kind ds.mSendList = none := by
      rw [hnil]
      exact offer_nil
    rw [agree_iff_of_ends (ends_of_offer_none hs (hnone _)) (ends_of_offer_none hs (hnone _))]
    exact iff_of_true rfl (.inl hnil)
  · rw [or_iff_right hnil]
    obtain ⟨o, ho, hbytes, -⟩ := offer_quickFlush hnil
    have hunsent : unsent (ds.mSendList.take maxIovec) ≠ [] → unsent ds.mSendList ≠ [] := by
      intro hne h
      rw [unsent_eq_nil_iff hvalid] at h
      exact hne (unsent_eq_nil fun b hb => h b (List.mem_of_mem_take hb))
    by_cases hq : unsent (ds.mSendList.take maxIovec) = []
    · -- `quickFlush` takes its empty batch for a failure
      have hquick := ends_quickFlush_of_batch_empty hs hclose hnil hq
      by_cases hn : gather ds.mSendList = []
      · rw [agree_iff_of_ends hquick (ends_of_offer_none hs (if_pos hn))]
        exact iff_of_false (fun h => absurd (congrArg Outcome.mCanWrite h) Bool.false_ne_true)
          fun h => h.1 hn
      · obtain ⟨o', ho', hbytes'⟩ := offer_normalFlush hn
        have hgather : unsent ds.mSendList ≠ [] :=
          fun h => hn (List.prefix_nil.mp (h ▸ gather_initial ds.mSendList))
        rw [agree_iff_of_ends hquick (hs.exists_ends_poured hvalid hrange ho' (hbytes' ▸ hn)),
          failed_eq_poured_iff rfl hgather, and_iff_right hn]
        exact (or_iff_right (fun h => h hq)).symm
    · have hquick := hs.exists_ends_poured hvalid hrange ho (hbytes ▸ hq)
      by_cases hn : gather ds.mSendList = []
      · rw [agree_iff_of_ends hquick (ends_of_offer_none hs (if_pos hn))]
        exact iff_of_false (poured_ne_idle rfl (hunsent hq)) fun h => h.1 hn
      · obtain ⟨o', ho', hbytes'⟩ := offer_normalFlush hn
        rw [agree_iff_of_ends hquick (hs.exists_ends_poured hvalid hrange ho' (hbytes' ▸ hn))]
        exact iff_of_true rfl ⟨hn, .inl hq⟩

/-- What that means for the lengths of the packets. -/
theorem harmless_iff {sendList : List (PendingPacket κ)} (hvalid : Valid sendList) (remaining : ℕ)
    (errno : Errno) :
    Harmless sendList remaining errno ↔ sendList = [] ∨ gather sendList ≠ [] ∧
      (unsent (sendList.take maxIovec) ≠ [] ∨ remaining = 0 ∧ errno = .wouldBlock) := by
  cases hdrop : sendList.dropWhile fun b => b.left = 0 with
  | nil =>
    have hall : ∀ b ∈ sendList, b.left = 0 :=
      fun b hb => of_decide_eq_true (List.dropWhile_eq_nil_iff.mp hdrop b hb)
    have hgather : gather sendList = [] :=
      List.prefix_nil.mp (unsent_eq_nil hall ▸ gather_initial sendList)
    simp only [Harmless, hdrop, hgather, ne_eq, not_true_eq_false, false_and, or_false]
  | cons b rest =>
    obtain ⟨empties, hempties⟩ :
        ∃ empties, sendList.takeWhile (fun b => b.left = 0) = empties := ⟨_, rfl⟩
    have hlist : sendList = empties ++ b :: rest := by
      rw [← hempties, ← hdrop, List.takeWhile_append_dropWhile]
    have hempty : ∀ e ∈ empties, e.left = 0 := by
      intro e he
      rw [← hempties] at he
      have hleft := List.mem_takeWhile_imp he
      exact of_decide_eq_true hleft
    have hb : 0 < b.left := by
      have hhead := List.head?_dropWhile_not (fun b : PendingPacket κ => b.left = 0) sendList
      rw [hdrop] at hhead
      exact Nat.pos_of_ne_zero (of_decide_eq_false hhead)
    have hne : sendList ≠ [] := by
      rw [hlist]
      exact List.append_ne_nil_of_right_ne_nil _ (List.cons_ne_nil b rest)
    have hvalid' : Valid (empties ++ b :: rest) := hlist ▸ hvalid
    have hgather := gather_ne_nil_iff hvalid' hempty hb
    have hbatch := batch_ne_nil_iff hvalid' hempty hb
    rw [← hlist] at hgather hbatch
    rw [or_iff_right hne, hgather, hbatch]
    simp only [Harmless, hdrop, hempties]
    by_cases hnone : empties = []
    · subst hnone
      exact iff_of_true (.inl rfl) ⟨.inl rfl, .inl (Nat.zero_lt_succ _)⟩
    · simp only [hnone, false_or]

/-- On a socket that can be written, the two kinds of flush leave the same behind exactly if
its packets are harmless. -/
theorem agree_iff_harmless (ds : DataSocket κ) (remaining : ℕ) (errno : Errno)
    (hopen : ds.isOpen = true) (hwrite : ds.mCanWrite = true)
    (hfinal : ds.mIsPostFinalClose = true → ds.isOpen = false)
    (hvalid : ∀ b ∈ ds.mSendList, b.left ≤ b.data.length)
    (hrange : InRange ds.mSendList remaining) :
    Agree ds remaining errno ↔ Harmless ds.mSendList remaining errno := by
  have hs : (start ds remaining errno).Sending := ⟨if_pos ⟨hwrite, hopen⟩, hopen, hwrite⟩
  have hclose : ds.mIsPostFinalClose = false := by
    by_contra h
    rw [hfinal (Bool.eq_true_of_not_eq_false h)] at hopen
    cases hopen
  exact (agree_iff hs hclose hvalid hrange).trans (harmless_iff hvalid remaining errno).symm

/-- Two packets with an empty one between them, and a kernel that takes the first only. -/
theorem agree_two_packets :
    Agree { (new : DataSocket ℕ) with
      mSendList := [⟨[1, 2], 2, some 5⟩, ⟨[], 0, none⟩, ⟨[3], 1, some 6⟩] } 2 .other := by
  refine (agree_iff_harmless _ 2 .other rfl rfl ?_ ?_ ?_).mpr (.inl rfl : _ ∨ _)
  · decide
  · decide
  · exact inRange_of_forall (by decide) (by decide)

/-- On one empty packet `quickFlush` closes the connection, and `normalFlush` does nothing. -/
theorem not_agree :
    ¬ ∀ (ds : DataSocket ℕ) (remaining : ℕ) (errno : Errno), ds.isOpen = true →
        ds.mCanWrite = true → (ds.mIsPostFinalClose = true → ds.isOpen = false) →
        (∀ b ∈ ds.mSendList, b.left ≤ b.data.length) → InRange ds.mSendList remaining →
          Agree ds remaining errno := by
  intro h
  let ds : DataSocket ℕ := { (new : DataSocket ℕ) with mSendList := [⟨[], 0, none⟩] }
  have hs : (start ds 1 .other).Sending := ⟨rfl, rfl, rfl⟩
  have hagree : Agree ds 1 .other :=
    h ds 1 .other rfl rfl (fun h => nomatch h) (by decide) (inRange_of_forall (by decide) (by decide))
  rw [agree_iff_of_ends (ends_quickFlush_of_batch_empty hs rfl (List.cons_ne_nil _ _) rfl)
    (ends_of_offer_none hs rfl)] at hagree
  exact Bool.false_ne_true (congrArg Outcome.mCanWrite hagree)

end Flushing

end Netxy
