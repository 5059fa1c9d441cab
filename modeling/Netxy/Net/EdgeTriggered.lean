import Netxy.Net.ReceiveStream

/-!
# Edge-triggered draining

A socket is registered with `EPOLLET`: the kernel tells of new data once, and `recv` has to
read until `EWOULDBLOCK`. Here `recv` runs against the kernel's receive queue and its
notifications.
-/

namespace Netxy

/-- A socket and what the kernel holds for it. -/
structure PolledSocket (κ : Type*) where
  stream : ReceiveStream κ
  /-- the bytes in the kernel's receive queue -/
  unread : List UInt8
  /-- an `EPOLLIN` that `canRecv` was not called for yet -/
  pending : Bool
  /-- the last answer of `::recv` in the present or last call of `recv` -/
  lastRecv : Option RecvResult

namespace PolledSocket
open ReceiveStream

variable {κ : Type*}

/-- `EventLoop::linkChannel`; data that is there already is told of. -/
def init (mMaxRecvBufferSize : ℕ) (unread : List UInt8) : PolledSocket κ :=
  ⟨.init mMaxRecvBufferSize, unread, unread ≠ [], none⟩

inductive Action
  /-- data arrives from the peer -/
  | arrive (bytes : List UInt8)
  /-- `EPOLL_CTL_MOD` of `checkWrite` and `removeCheckWrite`, which looks at the queue anew -/
  | epollCtlMod
  | stream (a : ReceiveStream.Action)
deriving DecidableEq, Repr

/-- The bytes left in the queue when `::recv` answers `r`; `none` where it does not. -/
def sysRecv (unread : List UInt8) : RecvResult → Option (List UInt8)
  | .data bytes => if bytes <+: unread then some (unread.drop bytes.length) else none
  | .wouldBlock => if unread = [] then some [] else none
  | .zero | .failed => some unread

def step (s : PolledSocket κ) : Action → Option (PolledSocket κ)
  | .arrive bytes => some { s with unread := s.unread ++ bytes, pending := true }
  | .epollCtlMod => some { s with pending := s.pending || decide (s.unread ≠ []) }
  | .stream a =>
    (s.stream.step a).bind fun stream =>
      match a with
      | .canRecv => some { s with stream := stream, pending := false, lastRecv := none }
      | .sysRecv r =>
        (sysRecv s.unread r).map fun unread =>
          { s with stream := stream, unread := unread, lastRecv := some r }
      | .setDataCallback _ | .callbackReturns _ | .procCloseInLoop =>
        some { s with stream := stream }

/-- An open socket that `recv` has returned from was read until `EWOULDBLOCK`, and what is
unread outside `recv` will be told of. -/
def Drained (s : PolledSocket κ) : Prop :=
  s.stream.ds.isOpen = true →
    (s.stream.pc = .returned → s.lastRecv = some .wouldBlock) ∧
      (s.stream.pc = .idle ∨ s.stream.pc = .returned → s.unread ≠ [] → s.pending = true)

/-! ## The largest buffer -/

/-- The size of the first buffer. -/
def initialSize : ℕ := 16 * 1024 + growBufferSize

/-- The size the buffer of a socket can grow to. -/
def capacity (mMaxRecvBufferSize : ℕ) : ℕ :=
  initialSize + (mMaxRecvBufferSize - initialSize) / growBufferSize * growBufferSize

/-- The buffer has grown from the first one. -/
def Sized (s : ReceiveStream κ) : Prop :=
  ∃ n, s.mRecvBuffer.getsize = initialSize + n * growBufferSize ∧
    (n = 0 ∨ s.mRecvBuffer.getsize ≤ s.mMaxRecvBufferSize)

theorem Sized.pos {s : ReceiveStream κ} (h : Sized s) : 0 < s.mRecvBuffer.getsize := by
  obtain ⟨n, hn, -⟩ := h
  simp only [initialSize, growBufferSize] at hn
  omega

theorem Sized.le_capacity {s : ReceiveStream κ} (h : Sized s) :
    s.mRecvBuffer.getsize ≤ capacity s.mMaxRecvBufferSize := by
  obtain ⟨n, hn, hmax⟩ := h
  simp only [capacity, initialSize, growBufferSize] at hn ⊢
  omega

/-- A buffer that may not grow is as large as it gets. -/
theorem Sized.eq_capacity_iff {s : ReceiveStream κ} (h : Sized s) :
    s.mRecvBuffer.getsize = capacity s.mMaxRecvBufferSize ↔
      s.mMaxRecvBufferSize < s.mRecvBuffer.getsize + growBufferSize := by
  obtain ⟨n, hn, hmax⟩ := h
  simp only [capacity, initialSize, growBufferSize] at hn ⊢
  omega

/-- What keeps the size keeps `Sized`. -/
theorem Sized.of_eq {s t : ReceiveStream κ} (h : Sized s)
    (hsize : t.mRecvBuffer.getsize = s.mRecvBuffer.getsize)
    (hmax : t.mMaxRecvBufferSize = s.mMaxRecvBufferSize) : Sized t := by
  unfold Sized
  rwa [hsize, hmax]

theorem Sized.growIfFull {s : ReceiveStream κ} (h : Sized s) (hs : s.Intact) :
    Sized s.growIfFull := by
  unfold ReceiveStream.growIfFull
  split
  · have hsize := (growRecvBuffer_some hs.valid s.mMaxRecvBufferSize).2.2
    obtain ⟨n, hn, hmax⟩ := h
    split at hsize
    · rename_i hle
      refine ⟨n + 1, hsize.trans ?_, .inr (hsize.trans_le hle)⟩
      rw [hn, Nat.add_mul, Nat.one_mul, Nat.add_assoc]
    · refine ⟨n, hsize.trans hn, hmax.imp_right fun hle => ?_⟩
      exact hsize.trans_le hle
  · exact h

theorem Sized.compact {s : ReceiveStream κ} (h : Sized s) (hs : s.Intact) : Sized s.compact := by
  unfold ReceiveStream.compact
  split
  · exact h.of_eq hs.valid.getsize_adjusttoHead rfl
  · exact h

/-! ## Room for the next bytes -/

/-- After the last `if` of the `while`, only a buffer full of unconsumed bytes has no room. -/
theorem compact_full_iff {s : ReceiveStream κ} (hs : s.Intact) :
    s.compact.mRecvBuffer.getwritevalidcount = 0 ↔
      s.mRecvBuffer.getreadvalidcount = s.mRecvBuffer.getsize := by
  have hread := hs.valid.readPos_le
  have hwrite := hs.valid.writePos_le
  by_cases hcond : s.mRecvBuffer.getwritevalidcount = 0 ∨ s.mRecvBuffer.getreadvalidcount = 0
  · rw [ReceiveStream.compact, if_pos hcond]
    have hroom : (s.update .adjusttoHead).mRecvBuffer.getwritevalidcount =
        s.mRecvBuffer.getsize - s.mRecvBuffer.getreadvalidcount :=
      hs.valid.getwritevalidcount_adjusttoHead
    rw [hroom, Buffer.getreadvalidcount]
    omega
  · rw [ReceiveStream.compact, if_neg hcond]
    simp only [Buffer.getwritevalidcount, Buffer.getreadvalidcount] at hcond ⊢
    omega

theorem loopEnd_ds (s : ReceiveStream κ) : s.loopEnd.ds = s.ds := by
  unfold ReceiveStream.loopEnd ReceiveStream.loopHead ReceiveStream.compact
  split <;> rfl

theorem pc_loopEnd (s : ReceiveStream κ) :
    s.loopEnd.pc = if s.ds.isOpen ∧ s.compact.mRecvBuffer.getwritevalidcount ≠ 0 then .sysRecv
      else .returned := by
  unfold ReceiveStream.loopEnd ReceiveStream.loopHead ReceiveStream.compact
  split <;> rfl

/-- A buffer that is full behind `growIfFull` is as large as it gets. -/
theorem growIfFull_full {s : ReceiveStream κ} (hs : s.Intact) (hsize : Sized s)
    (hfull : s.growIfFull.mRecvBuffer.getreadvalidcount = s.growIfFull.mRecvBuffer.getsize) :
    s.growIfFull.mRecvBuffer.getreadvalidcount = capacity s.mMaxRecvBufferSize := by
  have hcount : s.growIfFull.mRecvBuffer.getreadvalidcount = s.mRecvBuffer.getreadvalidcount := by
    rw [← hs.growIfFull.1.valid.length_readable, hs.growIfFull.2, hs.valid.length_readable]
  by_cases hbefore : s.mRecvBuffer.getreadvalidcount = s.mRecvBuffer.getsize
  · have hgrown := (growRecvBuffer_some hs.valid s.mMaxRecvBufferSize).2.2
    have hafter : s.growIfFull.mRecvBuffer =
        growRecvBuffer s.mMaxRecvBufferSize (some s.mRecvBuffer) := by
      rw [ReceiveStream.growIfFull, if_pos hbefore]
      rfl
    rw [hcount, hafter, hgrown, hbefore] at hfull
    rw [hcount, hbefore, hsize.eq_capacity_iff]
    -- a full buffer that may grow gets room, and is not full any more
    by_contra hmay
    have hpos : 0 < growBufferSize := by decide
    rw [if_pos (Nat.le_of_not_lt hmay)] at hfull
    omega
  · rw [ReceiveStream.growIfFull, if_neg hbefore] at hfull
    exact absurd hfull hbefore

/-- Wherever `::recv` comes next, there is room for what it receives. -/
structure Ready (s : ReceiveStream κ) : Prop where
  intact : s.Intact
  sized : Sized s
  final : s.ds.mIsPostFinalClose = true → s.ds.isOpen = false
  opened : s.pc = .sysRecv → s.ds.isOpen = true
  room : s.pc ≠ .callback → s.ds.isOpen = true → s.mRecvBuffer.getwritevalidcount ≠ 0
  full : s.pc = .callback → s.mRecvBuffer.getreadvalidcount = s.mRecvBuffer.getsize →
    s.mRecvBuffer.getreadvalidcount = capacity s.mMaxRecvBufferSize

theorem ready_init (mMaxRecvBufferSize : ℕ) :
    Ready (ReceiveStream.init mMaxRecvBufferSize : ReceiveStream κ) where
  intact := intact_init mMaxRecvBufferSize
  sized := ⟨0, Buffer.getsize_new _, .inl rfl⟩
  final h := by cases h
  opened h := by cases h
  room _ _ := by
    rw [ReceiveStream.init, growRecvBuffer, Buffer.getwritevalidcount_new]
    decide
  full h := by cases h

/-- A `while` that goes on with a buffer that is not full is ready. -/
theorem ready_loopEnd {s : ReceiveStream κ} (hs : s.Intact) (hsize : Sized s)
    (hfinal : s.ds.mIsPostFinalClose = true → s.ds.isOpen = false)
    (hroom : s.ds.isOpen = true → s.mRecvBuffer.getreadvalidcount ≠ s.mRecvBuffer.getsize) :
    Ready s.loopEnd := by
  have hds := loopEnd_ds s
  refine ⟨hs.loopEnd, (hsize.compact hs).of_eq rfl rfl, ?_, fun hpc => ?_, fun _ hopen => ?_,
    fun hpc => absurd hpc (pc_loopHead_ne _)⟩
  · rw [hds]
    exact hfinal
  · rw [pc_loopEnd] at hpc
    rw [hds]
    split at hpc
    · rename_i hopen
      exact hopen.1
    · cases hpc
  · rw [hds] at hopen
    exact fun hzero => hroom hopen ((compact_full_iff hs).mp hzero)

theorem Ready.closed {s : ReceiveStream κ} (h : Ready s) (pc : RecvPc)
    (hpc : pc = .returned ∨ pc = s.pc ∧ s.pc ≠ .sysRecv) :
    Ready { s with ds := s.ds.procCloseInLoop.1, pc := pc } := by
  have hclosed := DataSocket.isOpen_procCloseInLoop h.final
  refine ⟨{ h.intact with }, h.sized, fun _ => hclosed, fun hc => ?_, fun _ hopen => ?_, fun hc => ?_⟩
  · rcases hpc with rfl | ⟨rfl, hne⟩
    · cases hc
    · exact absurd hc hne
  · rw [hclosed] at hopen
    cases hopen
  · rcases hpc with rfl | ⟨rfl, -⟩
    · cases hc
    · exact h.full hc

/-! ## The buffer that chokes -/

/-- The bytes that are given to the data callback fill a buffer that cannot grow any further,
and the callback, or the lack of one, consumes none of them. -/
def Chokes (s : PolledSocket κ) : Action → Prop
  | .stream (.callbackReturns proclen) =>
    s.stream.pc = .callback ∧ s.stream.ds.isOpen = true ∧
      s.stream.mRecvBuffer.getreadvalidcount = capacity s.stream.mMaxRecvBufferSize ∧ proclen = 0
  | .stream (.sysRecv (.data bytes)) =>
    (s.step (.stream (.sysRecv (.data bytes)))).isSome = true ∧ s.stream.hasDataCallback = false ∧
      s.stream.mRecvBuffer.getreadvalidcount + bytes.length =
        capacity s.stream.mMaxRecvBufferSize
  | _ => False

/-- The data callback consumes at most what it was given. -/
def CallbackInBounds (s : PolledSocket κ) (a : Action) : Prop :=
  ∀ proclen, a = .stream (.callbackReturns proclen) →
    proclen ≤ s.stream.mRecvBuffer.getreadvalidcount

structure Draining (s : PolledSocket κ) : Prop where
  ready : Ready s.stream
  drained : s.Drained
  /-- a data callback was called for what `::recv` answered last -/
  answered : s.stream.pc = .callback → s.lastRecv ≠ some .wouldBlock

/-- Where `recv` has not returned, it drains the socket yet. -/
theorem drained_of_pc {s : PolledSocket κ}
    (h : s.stream.ds.isOpen = true → s.stream.pc = .sysRecv ∨ s.stream.pc = .callback) :
    s.Drained := by
  intro hopen
  rcases h hopen with hpc | hpc <;> rw [hpc]
  · exact ⟨nofun, nofun⟩
  · exact ⟨nofun, nofun⟩

theorem drained_loopHead {s : PolledSocket κ} {r : ReceiveStream κ}
    (hroom : r.ds.isOpen = true → r.mRecvBuffer.getwritevalidcount ≠ 0)
    (hs : s.stream = r.loopHead) : s.Drained := by
  refine drained_of_pc fun hopen => .inl ?_
  rw [hs] at hopen ⊢
  exact if_pos ⟨hopen, hroom hopen⟩

theorem drained_loopEnd {s : PolledSocket κ} {r : ReceiveStream κ} (h : Ready r.loopEnd)
    (hs : s.stream = r.loopEnd) : s.Drained :=
  drained_loopHead (r := r.compact) (h.room (pc_loopHead_ne _)) hs

theorem Ready.loopHead {s : ReceiveStream κ} (h : Ready s) (hpc : s.pc ≠ .callback) :
    Ready s.loopHead := by
  refine ⟨h.intact.loopHead, h.sized.of_eq rfl rfl, h.final, fun hc => ?_, fun _ => h.room hpc,
    fun hc => absurd hc (pc_loopHead_ne _)⟩
  simp only [ReceiveStream.loopHead] at hc
  split at hc
  · rename_i hopen
    exact hopen.1
  · cases hc

/-- What is stored before the callback, or the end of the loop. -/
theorem Ready.growIfFull_append {s : ReceiveStream κ} (h : Ready s) {bytes : List UInt8}
    (hlen : bytes.length ≤ s.mRecvBuffer.getwritevalidcount) :
    (s.append bytes).growIfFull.Intact ∧ Sized (s.append bytes).growIfFull ∧
      (s.append bytes).growIfFull.mRecvBuffer.getreadvalidcount =
        s.mRecvBuffer.getreadvalidcount + bytes.length ∧
      ((s.append bytes).growIfFull.mRecvBuffer.getreadvalidcount =
          (s.append bytes).growIfFull.mRecvBuffer.getsize →
        (s.append bytes).growIfFull.mRecvBuffer.getreadvalidcount =
          capacity s.mMaxRecvBufferSize) := by
  have happend := h.intact.append hlen
  have hsized : Sized (s.append bytes) := h.sized.of_eq (h.intact.valid.getsize_append hlen) rfl
  refine ⟨happend.growIfFull.1, hsized.growIfFull happend, ?_, growIfFull_full happend hsized⟩
  rw [← happend.growIfFull.1.valid.length_readable, happend.growIfFull.2]
  have hcount := h.intact.valid.getreadvalidcount_append hlen
  rwa [← (h.intact.valid.append hlen).length_readable] at hcount

theorem growIfFull_same (s : ReceiveStream κ) :
    s.growIfFull.ds = s.ds ∧ s.growIfFull.mMaxRecvBufferSize = s.mMaxRecvBufferSize ∧
      s.growIfFull.hasDataCallback = s.hasDataCallback := by
  unfold growIfFull
  split <;> exact ⟨rfl, rfl, rfl⟩

/-- What follows the bytes stored is ready, unless no callback takes them out of a buffer that
they fill for good. -/
theorem Ready.callBack {s : ReceiveStream κ} (h : Ready s) {bytes : List UInt8}
    (hlen : bytes.length ≤ s.mRecvBuffer.getwritevalidcount)
    (hmissing : s.hasDataCallback = false →
      s.mRecvBuffer.getreadvalidcount + bytes.length ≠ capacity s.mMaxRecvBufferSize) :
    Ready (s.append bytes).growIfFull.callBack := by
  obtain ⟨hintact, hsized, hcount, hfull⟩ := h.growIfFull_append hlen
  obtain ⟨hds, hmax, hset⟩ := growIfFull_same (s.append bytes)
  have hfinal : (s.append bytes).growIfFull.ds.mIsPostFinalClose = true →
      (s.append bytes).growIfFull.ds.isOpen = false := by
    rw [hds]
    exact h.final
  unfold ReceiveStream.callBack
  split
  · refine ⟨{ hintact with }, hsized, hfinal, nofun, fun hne => absurd rfl hne, fun _ hc => ?_⟩
    exact (hfull hc).trans (congrArg capacity hmax.symm)
  · rename_i hnone
    rw [hset] at hnone
    refine ready_loopEnd hintact hsized hfinal fun _ hc => ?_
    exact hmissing (Bool.eq_false_iff.mpr hnone) (hcount.symm.trans (hfull hc))

/-- What follows the data callback is ready, unless it consumes nothing of a buffer that is
full for good. -/
theorem Ready.consume {s : ReceiveStream κ} (h : Ready s) (hpc : s.pc = .callback) {proclen : ℕ}
    (hlen : proclen ≤ s.mRecvBuffer.getreadvalidcount)
    (hsome : s.ds.isOpen = true →
      s.mRecvBuffer.getreadvalidcount = capacity s.mMaxRecvBufferSize → proclen ≠ 0) :
    Ready (s.advance proclen).loopEnd := by
  have hsize : (s.advance proclen).mRecvBuffer.getsize = s.mRecvBuffer.getsize :=
    h.intact.valid.getsize_addreadpos hlen
  have hcount : (s.advance proclen).mRecvBuffer.getreadvalidcount =
      s.mRecvBuffer.getreadvalidcount - proclen :=
    h.intact.valid.getreadvalidcount_addreadpos hlen
  refine ready_loopEnd (h.intact.advance hlen) (h.sized.of_eq hsize rfl) h.final
    fun hopen hc => ?_
  rw [hsize, hcount] at hc
  have hle := h.intact.valid.writePos_le
  have hpos := h.sized.pos
  have hfull : s.mRecvBuffer.getreadvalidcount = s.mRecvBuffer.getsize := by
    rw [Buffer.getreadvalidcount] at hc ⊢
    omega
  have hne := hsome hopen (h.full hpc hfull)
  omega

theorem drained_callBack {s : PolledSocket κ} {r : ReceiveStream κ} (h : Ready r.callBack)
    (hs : s.stream = r.callBack) : s.Drained := by
  unfold ReceiveStream.callBack at h hs
  split at hs
  · exact drained_of_pc fun _ => .inr (by rw [hs])
  · rename_i hnone
    rw [if_neg hnone] at h
    exact drained_loopEnd h hs

/-- A `recv` that chokes no buffer. -/
theorem Draining.sysRecv {s t : PolledSocket κ} {r : RecvResult} (h : Draining s)
    (hchokes : ¬ s.Chokes (.stream (.sysRecv r))) (ht : s.step (.stream (.sysRecv r)) = some t) :
    Draining t := by
  have hstep := ht
  obtain ⟨u, hr, ht⟩ := Option.bind_eq_some_iff.mp ht
  obtain ⟨hpc, hr⟩ := Option.ite_none_right_eq_some.mp hr
  obtain ⟨unread, hunread, ht⟩ := Option.map_eq_some_iff.mp ht
  cases r with
  | data bytes =>
    obtain ⟨⟨-, hlen⟩, hr⟩ := Option.ite_none_right_eq_some.mp hr
    cases hr
    cases ht
    -- behind the callback, or without one, the loop goes on to the next `recv`
    have hready := h.ready.callBack hlen fun hnone hfills =>
      hchokes ⟨by rw [hstep]; rfl, hnone, hfills⟩
    exact ⟨hready, drained_callBack hready rfl, nofun⟩
  | wouldBlock =>
    obtain ⟨-, hleft⟩ := Option.ite_none_right_eq_some.mp hunread
    cases hr
    cases ht
    -- the kernel answers so only if nothing is left to read
    refine ⟨⟨{ h.ready.intact with }, h.ready.sized, h.ready.final, nofun, fun _ => ?_, nofun⟩,
      fun _ => ⟨fun _ => rfl, fun _ hne => ?_⟩, nofun⟩
    · exact h.ready.room (by rw [hpc]; decide)
    · exact absurd (Option.some.inj hleft).symm hne
  | zero | failed =>
    cases hr
    cases ht
    refine ⟨h.ready.closed .returned (.inl rfl), fun hopen => ?_, nofun⟩
    rw [DataSocket.isOpen_procCloseInLoop h.ready.final] at hopen
    cases hopen

/-- A callback that takes something out of a buffer that is full for good. -/
theorem Draining.callbackReturns {s t : PolledSocket κ} {proclen : ℕ} (h : Draining s)
    (hcallback : s.CallbackInBounds (.stream (.callbackReturns proclen)))
    (hchokes : ¬ s.Chokes (.stream (.callbackReturns proclen)))
    (ht : s.step (.stream (.callbackReturns proclen)) = some t) : Draining t := by
  obtain ⟨u, hr, ht⟩ := Option.bind_eq_some_iff.mp ht
  obtain ⟨hpc, hr⟩ := Option.ite_none_right_eq_some.mp hr
  cases hr
  cases ht
  have hlen := hcallback proclen rfl
  have hconsume : s.stream.consume proclen = (s.stream.advance proclen).loopEnd := if_pos hlen
  have hready := h.ready.consume hpc hlen fun hopen hfull hzero =>
    hchokes ⟨hpc, hopen, hfull, hzero⟩
  refine ⟨hconsume ▸ hready, drained_loopEnd hready hconsume, fun hc => ?_⟩
  rw [hconsume] at hc
  exact absurd hc (pc_loopHead_ne _)

/-- A step that chokes no buffer keeps the socket draining. -/
theorem draining_step {s t : PolledSocket κ} {a : Action} (h : Draining s)
    (hcallback : s.CallbackInBounds a) (hchokes : ¬ s.Chokes a) (ht : s.step a = some t) :
    Draining t := by
  cases a with
  | arrive bytes =>
    cases ht
    exact ⟨h.ready, fun hopen => ⟨(h.drained hopen).1, fun _ _ => rfl⟩, h.answered⟩
  | epollCtlMod =>
    cases ht
    refine ⟨h.ready, fun hopen => ⟨(h.drained hopen).1, fun _ hunread => ?_⟩, h.answered⟩
    simp only [decide_eq_true hunread, Bool.or_true]
  | stream a =>
    have hstep := ht
    obtain ⟨r, hr, ht⟩ := Option.bind_eq_some_iff.mp ht
    cases a with
    | setDataCallback isSet =>
      cases hr
      cases ht
      exact ⟨{ h.ready with intact := { h.ready.intact with } }, h.drained, h.answered⟩
    | canRecv =>
      obtain ⟨hpc, hr⟩ := Option.ite_none_right_eq_some.mp hr
      cases hr
      cases ht
      have hne : s.stream.pc ≠ .callback := by
        intro hc
        rw [hc] at hpc
        rcases hpc with hpc | hpc <;> cases hpc
      exact ⟨h.ready.loopHead hne, drained_loopHead (h.ready.room hne) rfl,
        fun hc => absurd hc (pc_loopHead_ne _)⟩
    | sysRecv r => exact h.sysRecv hchokes hstep
    | callbackReturns proclen => exact h.callbackReturns hcallback hchokes hstep
    | procCloseInLoop =>
      obtain ⟨hpc, hr⟩ := Option.ite_none_right_eq_some.mp hr
      cases hr
      cases ht
      refine ⟨h.ready.closed s.stream.pc (.inr ⟨rfl, hpc⟩), fun hopen => ?_, h.answered⟩
      rw [DataSocket.isOpen_procCloseInLoop h.ready.final] at hopen
      cases hopen

/-- A loop that ends on a buffer full for good returns. -/
theorem not_drained_loopEnd {s : PolledSocket κ} {r : ReceiveStream κ} (hr : r.Intact)
    (hopen : r.ds.isOpen = true) (hfull : r.mRecvBuffer.getreadvalidcount = r.mRecvBuffer.getsize)
    (hs : s.stream = r.loopEnd) (hlast : s.lastRecv ≠ some .wouldBlock) : ¬ s.Drained := by
  have hds := loopEnd_ds r
  have hpc : r.loopEnd.pc = .returned := by
    rw [pc_loopEnd, if_neg fun hroom => hroom.2 ((compact_full_iff hr).mpr hfull)]
  intro hdrained
  refine hlast ((hdrained ?_).1 ?_)
  · rw [hs, hds, hopen]
  · rw [hs, hpc]

/-- A buffer at its capacity is full if it holds as much. -/
theorem full_of_capacity {s : ReceiveStream κ} (hs : s.Intact) (hsized : Sized s)
    (hcount : s.mRecvBuffer.getreadvalidcount = capacity s.mMaxRecvBufferSize) :
    s.mRecvBuffer.getreadvalidcount = s.mRecvBuffer.getsize := by
  have hle := hsized.le_capacity
  have hwrite := hs.valid.writePos_le
  rw [Buffer.getreadvalidcount] at hcount ⊢
  omega

/-- A step that chokes the buffer has `recv` return before the socket is drained. -/
theorem not_drained_of_chokes {s : PolledSocket κ} {a : Action} (h : Draining s)
    (hchokes : s.Chokes a) : ∃ t, s.step a = some t ∧ ¬ t.Drained := by
  cases a with
  | arrive bytes | epollCtlMod => cases hchokes
  | stream a =>
    cases a with
    | setDataCallback isSet | canRecv | procCloseInLoop => cases hchokes
    | sysRecv r =>
      cases r with
      | zero | wouldBlock | failed => cases hchokes
      | data bytes =>
        obtain ⟨hsome, hnone, hfills⟩ := hchokes
        obtain ⟨t, ht⟩ := Option.isSome_iff_exists.mp hsome
        refine ⟨t, ht, ?_⟩
        obtain ⟨r, hr, ht⟩ := Option.bind_eq_some_iff.mp ht
        obtain ⟨hpc, hr⟩ := Option.ite_none_right_eq_some.mp hr
        obtain ⟨unread, -, ht⟩ := Option.map_eq_some_iff.mp ht
        obtain ⟨⟨-, hlen⟩, hr⟩ := Option.ite_none_right_eq_some.mp hr
        cases hr
        cases ht
        -- the buffer is full for good, and the last `recv` returned bytes
        obtain ⟨hintact, hsized, hcount, -⟩ := h.ready.growIfFull_append hlen
        obtain ⟨hds, hmax, hset⟩ := growIfFull_same (s.stream.append bytes)
        refine not_drained_loopEnd hintact ?_ (full_of_capacity hintact hsized ?_) ?_ nofun
        · rw [hds]
          exact h.ready.opened hpc
        · rw [hcount, hfills, hmax]
          rfl
        · refine if_neg ?_
          rw [hset]
          exact Bool.eq_false_iff.mp hnone
    | callbackReturns proclen =>
      obtain ⟨hpc, hopen, hfills, rfl⟩ := hchokes
      refine ⟨_, by simp only [step, ReceiveStream.step, if_pos hpc]; rfl, ?_⟩
      have hconsume : s.stream.consume 0 = (s.stream.advance 0).loopEnd := if_pos (Nat.zero_le _)
      have hlen := Nat.zero_le s.stream.mRecvBuffer.getreadvalidcount
      refine not_drained_loopEnd (h.ready.intact.advance hlen) hopen ?_ hconsume (h.answered hpc)
      exact ((h.ready.intact.valid.getreadvalidcount_addreadpos hlen).trans
        (full_of_capacity h.ready.intact h.ready.sized hfills)).trans
        (h.ready.intact.valid.getsize_addreadpos hlen).symm

theorem draining_init (mMaxRecvBufferSize : ℕ) (unread : List UInt8) :
    Draining (init mMaxRecvBufferSize unread : PolledSocket κ) where
  ready := ready_init mMaxRecvBufferSize
  drained _ := ⟨nofun, fun _ hunread => decide_eq_true hunread⟩
  answered := nofun

theorem always_drained_iff_of_draining {s : PolledSocket κ} (hs : Draining s)
    {actions : List Action} (hcallback : Transition.Throughout step CallbackInBounds s actions) :
    Transition.Always step Drained s actions ↔
      Transition.Throughout step (fun s a => ¬ s.Chokes a) s actions := by
  refine Transition.always_iff_throughout (fun s h => h.drained)
    (fun s a t hs hW hC ht => draining_step hs hW hC ht) (fun s a hs _ hC => ?_) hs hcallback
  exact not_drained_of_chokes hs (not_not.mp hC)

/-- **In every run, an open socket that `recv` has returned from is drained**, exactly if the
data callback is never given a buffer that is full for good without consuming any of it. -/
theorem always_drained_iff (mMaxRecvBufferSize : ℕ) (unread : List UInt8) (actions : List Action)
    (hcallback : Transition.Throughout step CallbackInBounds
      (init mMaxRecvBufferSize unread : PolledSocket κ) actions) :
    Transition.Always step Drained (init mMaxRecvBufferSize unread : PolledSocket κ) actions ↔
      Transition.Throughout step (fun s a => ¬ s.Chokes a)
        (init mMaxRecvBufferSize unread : PolledSocket κ) actions :=
  always_drained_iff_of_draining (draining_init mMaxRecvBufferSize unread) hcallback

/-- The callback is given one byte, and waits for more. -/
def waitingRun : List Action :=
  [.stream (.setDataCallback true), .stream .canRecv, .stream (.sysRecv (.data [1])),
    .stream (.callbackReturns 0), .stream (.sysRecv .wouldBlock)]

/-- A callback that waits for more does not choke the buffer. -/
theorem always_drained_iff_waitingRun :
    Transition.Always step Drained (init 0 [1] : PolledSocket Empty) waitingRun ↔
      Transition.Throughout step (fun s a => ¬ s.Chokes a) (init 0 [1] : PolledSocket Empty)
        waitingRun := by
  refine always_drained_iff 0 [1] waitingRun ?_
  refine ⟨nofun, fun s _ => ⟨nofun, fun s _ => ⟨nofun, fun s _ => ⟨?_, fun s _ => ⟨nofun, ?_⟩⟩⟩⟩⟩
  · rintro proclen ⟨⟩
    exact Nat.zero_le _
  · exact fun _ _ => trivial

theorem step_data {s : PolledSocket κ} {bytes : List UInt8} (hpc : s.stream.pc = .sysRecv)
    (hne : bytes ≠ []) (hlen : bytes.length ≤ s.stream.mRecvBuffer.getwritevalidcount)
    (hunread : bytes <+: s.unread) :
    s.step (.stream (.sysRecv (.data bytes))) = some
      { s with
        stream := (s.stream.append bytes).growIfFull.callBack
        unread := s.unread.drop bytes.length
        lastRecv := some (.data bytes) } := by
  have hstream : s.stream.step (.sysRecv (.data bytes)) =
      some (s.stream.append bytes).growIfFull.callBack :=
    (if_pos hpc).trans (if_pos ⟨hne, hlen⟩)
  have hqueue : sysRecv s.unread (.data bytes) = some (s.unread.drop bytes.length) :=
    if_pos hunread
  rw [step, hstream, Option.bind_some]
  simp only [hqueue, Option.map_some]

theorem step_canRecv {s : PolledSocket κ} (hpc : s.stream.pc = .idle) :
    s.step (.stream .canRecv) = some
      { s with stream := s.stream.loopHead, pending := false, lastRecv := none } := by
  have hstream : s.stream.step .canRecv = some s.stream.loopHead := if_pos (.inl hpc)
  rw [step, hstream, Option.bind_some]

/-- A callback that is given as much as the buffer can hold and consumes nothing. -/
theorem not_throughout_of_filled {s : PolledSocket κ} (hs : Draining s)
    (hpc : s.stream.pc = .idle) (hopen : s.stream.ds.isOpen = true)
    (hset : s.stream.hasDataCallback = true) {bytes : List UInt8} (hne : bytes ≠ [])
    (hempty : s.stream.mRecvBuffer.getreadvalidcount = 0)
    (hroom : s.stream.mRecvBuffer.getwritevalidcount = bytes.length)
    (hlen : bytes.length = capacity s.stream.mMaxRecvBufferSize) (hunread : bytes <+: s.unread) :
    ¬ Transition.Throughout step (fun s a => ¬ s.Chokes a) s
      [.stream .canRecv, .stream (.sysRecv (.data bytes)), .stream (.callbackReturns 0)] := by
  rintro ⟨-, hsteps⟩
  have hready := hs.ready.loopHead (by rw [hpc]; decide)
  have hpos : s.stream.mRecvBuffer.getwritevalidcount ≠ 0 :=
    hs.ready.room (by rw [hpc]; decide) hopen
  have hrecv : s.stream.loopHead.pc = .sysRecv := if_pos ⟨hopen, hpos⟩
  have hfits : bytes.length ≤ s.stream.loopHead.mRecvBuffer.getwritevalidcount :=
    Nat.le_of_eq hroom.symm
  obtain ⟨-, -, hcount, -⟩ := hready.growIfFull_append hfits
  obtain ⟨hds, hmax, hcalled⟩ := growIfFull_same (s.stream.loopHead.append bytes)
  have hback : (s.stream.loopHead.append bytes).growIfFull.callBack = _ :=
    if_pos (hcalled.trans hset)
  obtain ⟨-, hsteps⟩ := hsteps _ (step_canRecv hpc)
  obtain ⟨hchokes, -⟩ := hsteps _ (step_data hrecv hne hfits hunread)
  -- the callback holds all that fits into the buffer, and consumes none of it
  refine hchokes ⟨?_, ?_, ?_, rfl⟩
  · rw [hback]
  · rw [hback]
    exact (congrArg DataSocket.isOpen hds).trans hopen
  · rw [hback]
    refine hcount.trans ?_
    calc s.stream.mRecvBuffer.getreadvalidcount + bytes.length
      _ = capacity s.stream.mMaxRecvBufferSize := by rw [hempty, Nat.zero_add, hlen]
      _ = capacity (s.stream.loopHead.append bytes).growIfFull.mMaxRecvBufferSize := by
        rw [hmax]
        rfl

/-- As many bytes as the first buffer holds, of which the callback consumes none. -/
def chokingRun : List Action :=
  [.stream (.setDataCallback true), .stream .canRecv,
    .stream (.sysRecv (.data (List.replicate initialSize 0))), .stream (.callbackReturns 0)]

/-- A buffer that may not grow is filled by a message that is not complete: `recv` returns
with a byte unread that nothing will tell of. -/
theorem chokingRun_leaves_unread :
    Transition.Throughout step CallbackInBounds
        (init 0 (List.replicate (initialSize + 1) 0) : PolledSocket Empty) chokingRun ∧
      ¬ Transition.Always step Drained
        (init 0 (List.replicate (initialSize + 1) 0) : PolledSocket Empty) chokingRun := by
  have hcallback : Transition.Throughout step CallbackInBounds
      (init 0 (List.replicate (initialSize + 1) 0) : PolledSocket Empty) chokingRun := by
    refine ⟨nofun, fun s _ => ⟨nofun, fun s _ => ⟨nofun, fun s _ => ⟨?_, fun _ _ => trivial⟩⟩⟩⟩
    rintro proclen ⟨⟩
    exact Nat.zero_le _
  refine ⟨hcallback, fun halways => ?_⟩
  have hstart := draining_init (κ := Empty) 0 (List.replicate (initialSize + 1) 0)
  obtain ⟨-, hsteps⟩ := (always_drained_iff_of_draining hstart hcallback).mp halways
  have hset := draining_step hstart (a := .stream (.setDataCallback true)) nofun nofun rfl
  have hlen : (List.replicate initialSize (0 : UInt8)).length = initialSize :=
    List.length_replicate
  have hne : List.replicate initialSize (0 : UInt8) ≠ [] :=
    List.ne_nil_of_length_pos (by rw [hlen]; decide)
  have hroom : (Buffer.new initialSize).getwritevalidcount =
      (List.replicate initialSize (0 : UInt8)).length :=
    (Buffer.getwritevalidcount_new _).trans hlen.symm
  have hcapacity : initialSize = capacity 0 := by decide
  exact not_throughout_of_filled hset rfl rfl rfl hne rfl hroom (hlen.trans hcapacity)
    ⟨[0], List.replicate_succ'.symm⟩ (hsteps _ rfl)

end PolledSocket

end Netxy
