import Mathlib.Data.List.Basic
import Netxy.Net.DataSocket

/-!
# The output stream of a `DataSocket`

Everything a `DataSocket` is asked to send goes through `mSendList` to the kernel. Here a
socket runs on its own: packets are enqueued, flushes start, the kernel answers each write
as it likes, the socket becomes writable, is shut down or closed, in any order. Between two
steps of a flush other calls may come, as from the completion callbacks.
-/

namespace Netxy

/-- A socket with the flush it may be in, and a record of its stream: the bytes the kernel
took, the packets enqueued with their callbacks, and the callbacks fired. -/
structure OutputStream (κ : Type*) where
  ds : DataSocket κ
  pc : Option DataSocket.FlushPc
  accepted : List UInt8
  enqueued : List (List UInt8 × Option κ)
  fired : List κ
  /-- `push_back` has made the iterator invalid that the running flush holds -/
  stale : Bool
  /-- an invalid iterator was used: nothing is known of the process any more -/
  undefined : Bool

namespace OutputStream
open DataSocket

variable {κ : Type*}

/-- The stream of a new socket. -/
def init : OutputStream κ := ⟨.new, none, [], [], [], false, false⟩

/-- What can happen to a socket's output. -/
inductive Action (κ : Type*)
  | sendPacketInLoop (packet : List UInt8) (callback : Option κ)
  /-- the functor of `runAfterFlush` -/
  | flush
  /-- the next step of the running flush; `r` is the kernel's answer if it makes a call -/
  | resume (r : SysRet)
  | canSend
  | procCloseInLoop
  | procShutdownInLoop
deriving DecidableEq, Repr

/-- The state after a step of the running flush. -/
def after (s : OutputStream κ) (out : FlushStep κ) : OutputStream κ :=
  { s with
    ds := out.ds
    pc := out.pc
    accepted := s.accepted ++ out.accepted
    fired := s.fired ++ out.fired.toList }

/-- What an action does. The functors posted are left out; when a flush starts is free here. -/
def act (kind : FlushKind) (s : OutputStream κ) : Action κ → Option (OutputStream κ)
  | .sendPacketInLoop packet callback =>
    some { s with
      ds := (s.ds.sendPacketInLoop packet callback).1
      enqueued := s.enqueued ++ [(packet, callback)]
      stale := s.stale || s.pc.any FlushPc.holdsIterator }
  | .flush =>
    match s.pc with
    | none => some { s with ds := { s.ds with mIsPostFlush := false }, pc := s.ds.flush }
    | some _ => none
  | .resume r =>
    s.pc.map fun pc =>
      -- the flush goes on with `*it` or `erase(it)`
      if s.stale then { s with undefined := true } else s.after (flushStep kind s.ds pc r)
  | .canSend => some { s with ds := s.ds.canSend.1 }
  | .procCloseInLoop => some { s with ds := s.ds.procCloseInLoop.1 }
  | .procShutdownInLoop => some { s with ds := s.ds.procShutdownInLoop }

/-- Undefined behaviour is the end of a run. -/
def step (kind : FlushKind) (s : OutputStream κ) (a : Action κ) : Option (OutputStream κ) :=
  if s.undefined then none else s.act kind a

/-! ## The stream is intact -/

/-- The unsent remainders, in order. -/
def unsent (sendList : List (PendingPacket κ)) : List UInt8 :=
  sendList.flatMap PendingPacket.remainder

/-- The packets whose callback was not invoked yet: `mSendList`, less its first packet
between the invocation of its callback and its erasure. -/
def waiting (s : OutputStream κ) : List (PendingPacket κ) :=
  match s.pc with
  | some (.completed _ _ _) => s.ds.mSendList.tail
  | _ => s.ds.mSendList

/-- The bytes of the last write that the `for` over the written packets has not come to. -/
def uncounted (s : OutputStream κ) : ℕ :=
  match s.pc with
  | some (.written _ _ tmpLen) | some (.completed _ _ tmpLen) => tmpLen
  | _ => 0

/-- The packet and the callback an entry was enqueued with. -/
def entry (b : PendingPacket κ) : List UInt8 × Option κ := (b.data, b.mCompleteCallback)

/-- Every byte enqueued was taken by the kernel or is unsent, in order; every packet is
waiting or had its callback fired, in order. -/
structure Intact (s : OutputStream κ) : Prop where
  left_le : ∀ b ∈ s.ds.mSendList, b.left ≤ b.data.length
  bytes : s.accepted ++ (unsent s.waiting).drop s.uncounted = s.enqueued.flatMap Prod.fst
  packets : ∃ gone, s.enqueued = gone ++ s.waiting.map entry ∧ s.fired = gone.filterMap Prod.snd
  uncounted_le : s.uncounted ≤ (unsent s.waiting).length
  /-- the packet of the running callback -/
  first : ∀ sendLen want tmpLen, s.pc = some (.completed sendLen want tmpLen) →
    s.ds.mSendList ≠ []

/-- Nothing was sent and nothing was lost. -/
theorem intact_init : Intact (init : OutputStream κ) where
  left_le _ h := absurd h List.not_mem_nil
  bytes := rfl
  packets := ⟨[], rfl, rfl⟩
  uncounted_le := Nat.zero_le _
  first _ _ _ h := by cases h

/-- As many bytes are left as the counter says. -/
theorem length_remainder {b : PendingPacket κ} (h : b.left ≤ b.data.length) :
    b.remainder.length = b.left := by
  rw [PendingPacket.remainder, List.length_drop]
  omega

theorem unsent_cons (b : PendingPacket κ) (rest : List (PendingPacket κ)) :
    unsent (b :: rest) = b.remainder ++ unsent rest := List.flatMap_cons

/-! ### What is offered to the kernel -/

/-- What is copied into one buffer is the front of what is unsent. -/
theorem coalesce_initial (waitSendSize : ℕ) (sendList : List (PendingPacket κ)) :
    coalesce waitSendSize sendList <+: unsent sendList := by
  induction sendList generalizing waitSendSize with
  | nil => exact List.prefix_refl _
  | cons b rest ih =>
    rw [coalesce, unsent_cons]
    split
    · exact (List.prefix_append_right_inj _).mpr (ih _)
    · exact List.nil_prefix

/-- And so is what `writev` is given. -/
theorem gather_initial (sendList : List (PendingPacket κ)) : gather sendList <+: unsent sendList := by
  cases sendList with
  | nil => exact List.prefix_refl _
  | cons b rest =>
    rw [gather]
    split
    · exact coalesce_initial 0 _
    · exact List.prefix_append _ _

/-- Both kinds of flush offer bytes from the front of the unsent ones. -/
theorem offer_initial {kind : FlushKind} {sendList : List (PendingPacket κ)} {o : Offer}
    (h : offer kind sendList = some o) : o.bytes <+: unsent sendList := by
  cases kind with
  | quickFlush =>
    simp only [offer, quickOffer] at h
    split at h
    · cases h
    · cases h
      refine ⟨unsent (sendList.drop maxIovec), ?_⟩
      rw [unsent, unsent, ← List.flatMap_append, List.take_append_drop]
  | normalFlush =>
    simp only [offer, normalOffer] at h
    split at h
    · cases h
    · cases h
      exact gather_initial sendList

/-! ### What leaves `mSendList` alone -/

/-- Only `flush`, `onClose` and the sends change the list. -/
@[simp] theorem closeSocket_mSendList (ds : DataSocket κ) :
    ds.closeSocket.mSendList = ds.mSendList := by
  unfold closeSocket
  split <;> rfl

@[simp] theorem procCloseInLoop_mSendList (ds : DataSocket κ) :
    ds.procCloseInLoop.1.mSendList = ds.mSendList := by
  unfold procCloseInLoop onClose
  split
  · split
    · rfl
    · exact closeSocket_mSendList ds
  · rfl

@[simp] theorem procShutdownInLoop_mSendList (ds : DataSocket κ) :
    ds.procShutdownInLoop.mSendList = ds.mSendList := by
  unfold procShutdownInLoop
  split <;> rfl

@[simp] theorem checkWrite_mSendList (ds : DataSocket κ) :
    ds.checkWrite.mSendList = ds.mSendList := by
  unfold checkWrite
  split <;> rfl

@[simp] theorem removeCheckWrite_mSendList (ds : DataSocket κ) :
    ds.removeCheckWrite.mSendList = ds.mSendList := by
  unfold removeCheckWrite
  split <;> rfl

@[simp] theorem runAfterFlush_mSendList (ds : DataSocket κ) :
    ds.runAfterFlush.1.mSendList = ds.mSendList := by
  unfold runAfterFlush
  split <;> rfl

@[simp] theorem canSend_mSendList (ds : DataSocket κ) :
    ds.canSend.1.mSendList = ds.mSendList := by
  rw [canSend, runAfterFlush_mSendList]
  exact removeCheckWrite_mSendList ds

@[simp] theorem sendPacketInLoop_mSendList (ds : DataSocket κ) (packet : List UInt8)
    (callback : Option κ) :
    (ds.sendPacketInLoop packet callback).1.mSendList =
      ds.mSendList ++ [⟨packet, packet.length, callback⟩] :=
  runAfterFlush_mSendList _

/-! ### The steps -/

/-- A call that leaves `mSendList` alone. -/
theorem Intact.setDs {s : OutputStream κ} (hs : Intact s) {ds : DataSocket κ}
    (h : ds.mSendList = s.ds.mSendList) : Intact { s with ds := ds } := by
  have hwaiting : waiting { s with ds := ds } = s.waiting := by
    unfold waiting
    rw [h]
  constructor
  case left_le =>
    rw [h]
    exact hs.left_le
  case bytes =>
    rw [hwaiting]
    exact hs.bytes
  case packets =>
    rw [hwaiting]
    exact hs.packets
  case uncounted_le =>
    rw [hwaiting]
    exact hs.uncounted_le
  case first =>
    rw [h]
    exact hs.first

/-- A flush that is not in its `for` over the written packets may start, start over or
return. -/
theorem Intact.setPc {s : OutputStream κ} (hs : Intact s) {pc : Option FlushPc}
    (hold : s.pc = none ∨ s.pc = some .sendProc) (hnew : pc = none ∨ pc = some .sendProc) :
    Intact { s with pc := pc } := by
  obtain ⟨ds, oldPc, accepted, enqueued, fired, stale, undefined⟩ := s
  obtain ⟨left_le, bytes, packets, uncounted_le, -⟩ := hs
  rcases hold with rfl | rfl <;> rcases hnew with rfl | rfl <;>
    exact ⟨left_le, bytes, packets, uncounted_le, fun _ _ _ h => by cases h⟩

/-- A packet joins at the end, also while a callback runs. -/
theorem Intact.enqueue {s : OutputStream κ} (hs : Intact s) (packet : List UInt8)
    (callback : Option κ) {ds : DataSocket κ}
    (hds : ds.mSendList = s.ds.mSendList ++ [⟨packet, packet.length, callback⟩]) :
    Intact { s with ds := ds, enqueued := s.enqueued ++ [(packet, callback)] } := by
  have hwaiting : waiting { s with ds := ds, enqueued := s.enqueued ++ [(packet, callback)] } =
      s.waiting ++ [⟨packet, packet.length, callback⟩] := by
    unfold waiting
    -- while a callback runs, the front packet is through, and appending does not reach it
    rcases hpc : s.pc with _ | _ | _ | ⟨sendLen, want, tmpLen⟩ <;> simp only [hds]
    exact List.tail_append_of_ne_nil (hs.first sendLen want tmpLen hpc)
  have hunsent : unsent (s.waiting ++ [⟨packet, packet.length, callback⟩]) =
      unsent s.waiting ++ packet := by
    simp only [unsent, List.flatMap_append, List.flatMap_singleton, PendingPacket.remainder,
      Nat.sub_self, List.drop_zero]
  constructor
  case left_le =>
    intro b hb
    rw [hds, List.mem_append, List.mem_singleton] at hb
    rcases hb with hb | rfl
    · exact hs.left_le b hb
    · exact le_refl _
  case bytes =>
    rw [hwaiting, hunsent]
    show s.accepted ++ (unsent s.waiting ++ packet).drop s.uncounted = _
    rw [List.drop_append_of_le_length hs.uncounted_le, ← List.append_assoc, hs.bytes,
      List.flatMap_append, List.flatMap_singleton]
  case packets =>
    obtain ⟨gone, henqueued, hfired⟩ := hs.packets
    refine ⟨gone, ?_, hfired⟩
    rw [hwaiting, List.map_append, ← List.append_assoc, ← henqueued]
    rfl
  case uncounted_le =>
    rw [hwaiting, hunsent, List.length_append]
    exact Nat.le_add_right_of_le hs.uncounted_le
  case first =>
    intro _ _ _ _
    rw [hds]
    exact List.append_ne_nil_of_right_ne_nil _ (List.cons_ne_nil _ _)

/-- A step that writes nothing and calls nothing. -/
theorem after_eq (s : OutputStream κ) (ds : DataSocket κ) (pc : Option FlushPc)
    (posted : List AfterLoopProc) :
    s.after ⟨ds, pc, posted, [], none⟩ = { s with ds := ds, pc := pc } := by
  simp only [after, List.append_nil, Option.toList_none]

/-- `SEND_PROC`: the kernel takes bytes from the front of the unsent ones. -/
theorem Intact.flushSend {s : OutputStream κ} (hs : Intact s) (hpc : s.pc = some .sendProc)
    (kind : FlushKind) (r : SysRet) : Intact (s.after (s.ds.flushSend kind r)) := by
  have hreturn : Intact { s with pc := none } := hs.setPc (.inr hpc) (.inl rfl)
  rcases flushSend_cases kind s.ds r with h | ⟨o, hoffer, h⟩ | h | h <;> rw [h]
  · rw [after_eq]
    exact hreturn
  · -- what was offered starts at the front of the unsent bytes, and so does what was taken
    have hprefix : s.ds.taken o r <+: unsent s.ds.mSendList := by
      unfold taken
      split
      · exact ( List.take_prefix _ _).trans (offer_initial hoffer)
      · exact List.nil_prefix
    obtain ⟨left_le, bytes, packets, uncounted_le, -⟩ := hs
    simp only [waiting, uncounted, hpc, List.drop_zero] at bytes packets uncounted_le
    refine ⟨left_le, ?_, ?_, hprefix.length_le, fun _ _ _ h => by cases h⟩
    · show (s.accepted ++ s.ds.taken o r) ++
        (unsent s.ds.mSendList).drop (s.ds.taken o r).length = s.enqueued.flatMap Prod.fst
      rw [List.append_assoc, List.prefix_iff_eq_append.mp hprefix, bytes]
    · simpa only [after, waiting, Option.toList_none, List.append_nil] using packets
  · rw [after_eq]
    exact hreturn.setDs (checkWrite_mSendList _)
  · rw [after_eq]
    exact hreturn.setDs (procCloseInLoop_mSendList _)

/-- Behind the `for` over the written packets, of which nothing is left to count. -/
theorem Intact.flushTail {s : OutputStream κ} (hs : Intact { s with pc := none }) (sendLen : ℕ)
    (want : ℤ) : Intact (s.after (s.ds.flushTail sendLen want)) := by
  rcases flushTail_cases s.ds sendLen want with h | h | h <;> rw [h, after_eq]
  · exact hs
  · exact hs.setPc (.inl rfl) (.inr rfl)
  · exact hs.setDs (checkWrite_mSendList _)

/-- A packet written to its end: its callback is invoked. -/
theorem Intact.complete {s : OutputStream κ} (hs : Intact s) {sendLen : ℕ} {want : ℤ}
    {tmpLen : ℕ} (hpc : s.pc = some (.written sendLen want tmpLen)) {b : PendingPacket κ}
    {rest : List (PendingPacket κ)} (hlist : s.ds.mSendList = b :: rest) (hle : b.left ≤ tmpLen) :
    Intact { s with
      pc := some (.completed sendLen want (tmpLen - b.left))
      fired := s.fired ++ b.mCompleteCallback.toList } := by
  obtain ⟨left_le, bytes, ⟨gone, henqueued, hfired⟩, uncounted_le, -⟩ := hs
  simp only [waiting, uncounted, hpc, hlist, unsent_cons] at bytes henqueued uncounted_le
  have hlength : b.remainder.length = b.left :=
    length_remainder (left_le b (hlist ▸ List.mem_cons_self))
  rw [List.length_append, hlength] at uncounted_le
  constructor
  case left_le =>
    exact left_le
  case bytes =>
    -- the bytes still to be counted cover the whole packet
    simp only [waiting, uncounted, hlist, List.tail_cons]
    rw [← bytes, List.drop_append, hlength, List.drop_eq_nil_of_le (hlength.trans_le hle),
      List.nil_append]
  case packets =>
    -- the packet goes from those waiting to those gone, and its callback with it
    refine ⟨gone ++ [entry b], ?_, ?_⟩
    · simp only [waiting, hlist, List.tail_cons, henqueued, List.map_cons, List.append_assoc,
        List.singleton_append]
    · rw [List.filterMap_append, hfired]
      cases hcallback : b.mCompleteCallback <;> simp [entry, hcallback]
  case uncounted_le =>
    simp only [waiting, uncounted, hlist, List.tail_cons]
    omega
  case first =>
    intro _ _ _ _
    rw [hlist]
    exact List.cons_ne_nil _ _

/-- A packet written in part: what was written of it is taken off. -/
theorem Intact.shorten {s : OutputStream κ} (hs : Intact s) {sendLen : ℕ} {want : ℤ}
    {tmpLen : ℕ} (hpc : s.pc = some (.written sendLen want tmpLen)) {b : PendingPacket κ}
    {rest : List (PendingPacket κ)} (hlist : s.ds.mSendList = b :: rest) (hlt : tmpLen < b.left) :
    Intact { s with
      ds := { s.ds with mSendList := { b with left := b.left - tmpLen } :: rest }
      pc := none } := by
  obtain ⟨left_le, bytes, ⟨gone, henqueued, hfired⟩, uncounted_le, -⟩ := hs
  simp only [waiting, uncounted, hpc, hlist, unsent_cons] at bytes henqueued uncounted_le
  have hleft : b.left ≤ b.data.length := left_le b (hlist ▸ List.mem_cons_self)
  have hremainder : ({ b with left := b.left - tmpLen } : PendingPacket κ).remainder =
      b.remainder.drop tmpLen := by
    rw [PendingPacket.remainder, PendingPacket.remainder, List.drop_drop,
      show b.data.length - (b.left - tmpLen) = b.data.length - b.left + tmpLen by omega]
  constructor
  case left_le =>
    intro c hc
    rcases List.mem_cons.mp hc with rfl | hc
    · exact (Nat.sub_le _ _).trans hleft
    · exact left_le c (hlist ▸ List.mem_cons_of_mem _ hc)
  case bytes =>
    -- all the bytes to be counted fell into this packet
    simp only [waiting, uncounted, unsent_cons, List.drop_zero]
    rw [← bytes, hremainder, List.drop_append_of_le_length]
    rw [length_remainder hleft]
    exact hlt.le
  case packets =>
    exact ⟨gone, henqueued, hfired⟩
  case uncounted_le =>
    exact Nat.zero_le _
  case first =>
    intro _ _ _ h
    cases h

/-- The `for` has come to the end of `mSendList`. -/
theorem Intact.drained {s : OutputStream κ} (hs : Intact s) {sendLen : ℕ} {want : ℤ}
    {tmpLen : ℕ} (hpc : s.pc = some (.written sendLen want tmpLen))
    (hlist : s.ds.mSendList = []) : Intact { s with pc := none } := by
  obtain ⟨left_le, bytes, packets, -, -⟩ := hs
  simp only [waiting, uncounted, hpc, hlist, unsent, List.flatMap_nil, List.drop_nil] at bytes packets
  constructor
  case left_le =>
    exact left_le
  case bytes =>
    simpa only [waiting, uncounted, hlist, unsent, List.flatMap_nil, List.drop_nil] using bytes
  case packets =>
    simpa only [waiting, hlist] using packets
  case uncounted_le =>
    exact Nat.zero_le _
  case first =>
    intro _ _ _ h
    cases h

/-- What the kernel took is off the list, or noted in its first packet. -/
theorem Intact.flushWritten {s : OutputStream κ} (hs : Intact s) {sendLen : ℕ} {want : ℤ}
    {tmpLen : ℕ} (hpc : s.pc = some (.written sendLen want tmpLen)) :
    Intact (s.after (s.ds.flushWritten sendLen want tmpLen)) := by
  unfold DataSocket.flushWritten
  split
  · rename_i hlist
    exact (hs.drained hpc hlist).flushTail sendLen want
  · rename_i b rest hlist
    split
    · rename_i hle
      simpa only [after, List.append_nil] using hs.complete hpc hlist hle
    · rename_i hlt
      exact Intact.flushTail
        (s := { s with
          ds := { s.ds with mSendList := { b with left := b.left - tmpLen } :: rest } })
        (hs.shorten hpc hlist (not_le.mp hlt)) sendLen want

/-- The packet whose callback was invoked is erased. -/
theorem Intact.erase {s : OutputStream κ} (hs : Intact s) {sendLen : ℕ} {want : ℤ}
    {tmpLen : ℕ} (hpc : s.pc = some (.completed sendLen want tmpLen)) :
    Intact { s with
      ds := { s.ds with mSendList := s.ds.mSendList.tail }
      pc := some (.written sendLen want tmpLen) } := by
  obtain ⟨left_le, bytes, packets, uncounted_le, -⟩ := hs
  simp only [waiting, uncounted, hpc] at bytes packets uncounted_le
  refine ⟨fun b hb => left_le b (List.mem_of_mem_tail hb), bytes, packets, uncounted_le, ?_⟩
  intro _ _ _ h
  cases h

/-- What the flags say makes no difference to the stream. -/
theorem Intact.setFlags {s : OutputStream κ} (hs : Intact s) (stale undefined : Bool) :
    Intact { s with stale := stale, undefined := undefined } :=
  ⟨hs.left_le, hs.bytes, hs.packets, hs.uncounted_le, hs.first⟩

/-- Every action keeps the bytes in order. -/
theorem intact_act {kind : FlushKind} {s t : OutputStream κ} {a : Action κ} (hs : Intact s)
    (h : s.act kind a = some t) : Intact t := by
  cases a with
  | sendPacketInLoop packet callback =>
    cases h
    exact (hs.enqueue packet callback (sendPacketInLoop_mSendList _ _ _)).setFlags _ _
  | flush =>
    simp only [act] at h
    split at h <;> cases h
    rename_i hpc
    have hflush : Intact { s with pc := s.ds.flush } := by
      refine hs.setPc (.inl hpc) ?_
      unfold DataSocket.flush
      split
      · exact .inr rfl
      · exact .inl rfl
    exact hflush.setDs rfl
  | resume r =>
    simp only [act, Option.map_eq_some_iff] at h
    obtain ⟨pc, hpc, rfl⟩ := h
    split
    · exact hs.setFlags _ _
    · cases pc with
      | sendProc => exact hs.flushSend hpc kind r
      | written sendLen want tmpLen => exact hs.flushWritten hpc
      | completed sendLen want tmpLen =>
        rw [flushStep, after_eq]
        exact hs.erase hpc
  | canSend =>
    cases h
    exact hs.setDs (canSend_mSendList _)
  | procCloseInLoop =>
    cases h
    exact hs.setDs (procCloseInLoop_mSendList _)
  | procShutdownInLoop =>
    cases h
    exact hs.setDs (procShutdownInLoop_mSendList _)

/-! ## The iterator of a flush -/

/-- Before the action, `push_back` has not made the iterator invalid that it will use. -/
def IteratorValid (s : OutputStream κ) : Action κ → Prop
  | .resume _ => s.stale = false
  | _ => True

/-- Only the iterator of a running flush can be stale. -/
def StaleHeld (s : OutputStream κ) : Prop :=
  s.stale = true → s.pc.any FlushPc.holdsIterator = true

/-- A stale iterator stays stale until it is used. -/
theorem staleHeld_act {kind : FlushKind} {s t : OutputStream κ} {a : Action κ} (hs : StaleHeld s)
    (h : s.act kind a = some t) : StaleHeld t := by
  cases a with
  | sendPacketInLoop packet callback =>
    cases h
    intro hstale
    rcases Bool.or_eq_true_iff.mp hstale with hold | hnew
    · exact hs hold
    · exact hnew
  | flush =>
    simp only [act] at h
    split at h <;> cases h
    rename_i hpc
    intro hstale
    have hheld := hs hstale
    rw [hpc] at hheld
    cases hheld
  | resume r =>
    simp only [act, Option.map_eq_some_iff] at h
    obtain ⟨pc, hpc, rfl⟩ := h
    split
    · exact hs
    · rename_i hvalid
      exact fun hstale => absurd hstale hvalid
  | canSend | procCloseInLoop | procShutdownInLoop =>
    cases h
    exact hs

/-- An action that does not use an invalid iterator leads to no undefined behaviour, and one
that does leads there. -/
theorem undefined_act {kind : FlushKind} {s t : OutputStream κ} {a : Action κ}
    (hs : s.undefined = false) (h : s.act kind a = some t) :
    t.undefined = false ↔ s.IteratorValid a := by
  cases a with
  | sendPacketInLoop packet callback | canSend | procCloseInLoop | procShutdownInLoop =>
    cases h
    exact iff_of_true hs trivial
  | flush =>
    simp only [act] at h
    split at h <;> cases h
    exact iff_of_true hs trivial
  | resume r =>
    simp only [act, Option.map_eq_some_iff] at h
    obtain ⟨pc, hpc, rfl⟩ := h
    show _ ↔ s.stale = false
    cases hstale : s.stale with
    | true => exact iff_of_false (by simp) (by decide)
    | false => exact iff_of_true hs rfl

/-- A flush whose iterator is stale cannot go on. -/
theorem StaleHeld.act_resume {s : OutputStream κ} (hs : StaleHeld s) (hstale : s.stale = true)
    (kind : FlushKind) (r : SysRet) :
    s.act kind (.resume r) = some { s with undefined := true } := by
  have hheld := hs hstale
  cases hpc : s.pc with
  | none =>
    rw [hpc] at hheld
    cases hheld
  | some pc => simp only [act, hpc, Option.map_some, hstale, if_true]

/-- A step is an action of a stream that is still defined. -/
theorem step_eq_some {kind : FlushKind} {s t : OutputStream κ} {a : Action κ} :
    s.step kind a = some t ↔ s.undefined = false ∧ s.act kind a = some t := by
  unfold step
  cases s.undefined <;> simp

/-! ## The stream in every state of a run -/

/-- The bytes the kernel took and the unsent remainders make up the packets enqueued, no
packet has more left than it holds, and the callbacks fired are those of the packets that are
through, once each and in order. Inside the `for` over the written packets, the packets it has
not come to are read as cut by the last write, and the one whose callback runs as through;
anywhere else this is `mSendList` as it stands. -/
structure Integrity (s : OutputStream κ) : Prop where
  defined : s.undefined = false
  left_le : ∀ b ∈ s.ds.mSendList, b.left ≤ b.data.length
  bytes : s.accepted ++ (unsent s.waiting).drop s.uncounted = s.enqueued.flatMap Prod.fst
  packets : ∃ gone, s.enqueued = gone ++ s.waiting.map entry ∧ s.fired = gone.filterMap Prod.snd
  /-- outside of the `for` -/
  settled : s.pc = none ∨ s.pc = some .sendProc →
    s.accepted ++ unsent s.ds.mSendList = s.enqueued.flatMap Prod.fst ∧
      ∃ gone, s.enqueued = gone ++ s.ds.mSendList.map entry ∧ s.fired = gone.filterMap Prod.snd

/-- In a stream that is defined, nothing is lost. -/
theorem Intact.integrity {s : OutputStream κ} (hs : Intact s) (hdefined : s.undefined = false) :
    Integrity s := by
  refine ⟨hdefined, hs.left_le, hs.bytes, hs.packets, fun hpc => ?_⟩
  have hbytes := hs.bytes
  have hpackets := hs.packets
  rcases hpc with hpc | hpc <;>
    simp only [waiting, uncounted, hpc, List.drop_zero] at hbytes hpackets <;>
    exact ⟨hbytes, hpackets⟩

/-- What carries the stream through a run. -/
structure Inv (s : OutputStream κ) : Prop where
  intact : Intact s
  staleHeld : StaleHeld s
  defined : s.undefined = false

/-- A new socket holds no iterator. -/
theorem inv_init : Inv (init : OutputStream κ) := ⟨intact_init, nofun, rfl⟩

/-- **The output stream is intact in every state of a run**, under either kind of flush,
exactly if no flush goes on after a packet was enqueued while it held its iterator: a
completion callback that sends on its own socket breaks the stream. -/
theorem output_stream_intact_iff (kind : FlushKind) (acts : List (Action κ)) :
    Transition.Always (step kind) Integrity init acts ↔
      Transition.Throughout (step kind) IteratorValid init acts := by
  refine Transition.always_iff_throughout (I := Inv) (W := fun _ _ => True)
    (fun s hs => hs.intact.integrity hs.defined) ?_ ?_ inv_init
    (Transition.throughout_of_forall (fun _ _ => trivial) _ _)
  · intro s a t hs _ hvalid ht
    obtain ⟨hdefined, hact⟩ := step_eq_some.mp ht
    exact ⟨intact_act hs.intact hact, staleHeld_act hs.staleHeld hact,
      (undefined_act hdefined hact).mpr hvalid⟩
  · intro s a hs _ hinvalid
    cases a with
    | resume r =>
      have hstale : s.stale = true := Bool.eq_true_of_not_eq_false hinvalid
      refine ⟨{ s with undefined := true },
        step_eq_some.mpr ⟨hs.defined, hs.staleHeld.act_resume hstale kind r⟩, ?_⟩
      intro h
      cases h.defined
    | sendPacketInLoop | flush | canSend | procCloseInLoop | procShutdownInLoop =>
      exact absurd trivial hinvalid

/-- The callback of a packet of one byte sends another one; then the first packet is erased. -/
def sendInCallback : List (Action ℕ) :=
  [.sendPacketInLoop [1] (some 0), .flush, .resume ⟨1, .other⟩, .resume ⟨0, .other⟩,
    .sendPacketInLoop [2] none, .resume ⟨0, .other⟩]

/-- The erasure goes through an iterator that is no longer valid. -/
theorem not_output_stream_intact :
    ¬ ∀ (kind : FlushKind) (acts : List (Action ℕ)) (s : OutputStream ℕ),
      Transition.exec (step kind) init acts = some s → Integrity s := by
  intro h
  have hsound := h .quickFlush sendInCallback _ rfl
  exact absurd hsound.defined (by decide)

end OutputStream

end Netxy
