import Netxy.Lib.Transition
import Netxy.Net.DataSocket
import Netxy.Utils.Buffer

/-!
# The receive stream of a `DataSocket`

`DataSocket::recv`, cut at the system call and around the data callback, for any answers of
the kernel and any data callback. Between two steps the socket may be closed, as by the
callback.
-/

namespace Netxy

/-- What `::recv` answers: some bytes, 0 or -1 with `errno`. -/
inductive RecvResult
  | data (bytes : List UInt8)
  | zero
  | wouldBlock
  | failed
deriving DecidableEq, Repr

/-- Where `recv` stands. -/
inductive RecvPc
  /-- it was not called yet -/
  | idle
  /-- at the system call -/
  | sysRecv
  /-- `mDataCallback` runs -/
  | callback
  | returned
deriving DecidableEq, Repr

/-- `GROW_BUFFER_SIZE` -/
def growBufferSize : ℕ := 1024

def growRecvBuffer (mMaxRecvBufferSize : ℕ) : Option Buffer → Buffer
  | none => .new (16 * 1024 + growBufferSize)
  | some b =>
    if b.getsize + growBufferSize ≤ mMaxRecvBufferSize then
      ((Buffer.new (b.getsize + growBufferSize)).write b.readable).1
    else b

/-- A socket with its receive buffer and the `recv` it may be in. The last three fields are a
record: the bytes received, how many of them the callback consumed, and the buffer behind
every call that changed it. -/
structure ReceiveStream (κ : Type*) where
  ds : DataSocket κ
  mRecvBuffer : Buffer
  mMaxRecvBufferSize : ℕ
  /-- `mDataCallback != nullptr` -/
  hasDataCallback : Bool
  pc : RecvPc
  received : List UInt8
  consumed : ℕ
  trail : List Buffer

namespace ReceiveStream

variable {κ : Type*}

/-- The constructor of `DataSocket`. -/
def init (mMaxRecvBufferSize : ℕ) : ReceiveStream κ where
  ds := .new
  mRecvBuffer := growRecvBuffer mMaxRecvBufferSize none
  mMaxRecvBufferSize := mMaxRecvBufferSize
  hasDataCallback := false
  pc := .idle
  received := []
  consumed := 0
  trail := [growRecvBuffer mMaxRecvBufferSize none]

inductive Action
  | setDataCallback (isSet : Bool)
  | canRecv
  | sysRecv (r : RecvResult)
  | callbackReturns (proclen : ℕ)
  | procCloseInLoop
deriving DecidableEq, Repr

/-- A call that changes `mRecvBuffer`. -/
def update (s : ReceiveStream κ) (f : Buffer → Buffer) : ReceiveStream κ :=
  { s with mRecvBuffer := f s.mRecvBuffer, trail := s.trail ++ [f s.mRecvBuffer] }

/-- The head of the `while`. -/
def loopHead (s : ReceiveStream κ) : ReceiveStream κ :=
  { s with
    pc := if s.ds.isOpen ∧ s.mRecvBuffer.getwritevalidcount ≠ 0 then .sysRecv else .returned }

/-- The last `if` of the `while`. -/
def compact (s : ReceiveStream κ) : ReceiveStream κ :=
  if s.mRecvBuffer.getwritevalidcount = 0 ∨ s.mRecvBuffer.getreadvalidcount = 0 then
    s.update .adjusttoHead
  else s

/-- The end of the `while`, and its head again. -/
def loopEnd (s : ReceiveStream κ) : ReceiveStream κ := s.compact.loopHead

/-- `::recv` stored the bytes behind those held. -/
def append (s : ReceiveStream κ) (bytes : List UInt8) : ReceiveStream κ :=
  { s.update (·.append bytes) with received := s.received ++ bytes }

def growIfFull (s : ReceiveStream κ) : ReceiveStream κ :=
  if s.mRecvBuffer.getreadvalidcount = s.mRecvBuffer.getsize then
    s.update fun b => growRecvBuffer s.mMaxRecvBufferSize (some b)
  else s

def callBack (s : ReceiveStream κ) : ReceiveStream κ :=
  if s.hasDataCallback then { s with ds := { s.ds with mRecvData := true }, pc := .callback }
  else s.loopEnd

/-- The callback consumed bytes. -/
def advance (s : ReceiveStream κ) (proclen : ℕ) : ReceiveStream κ :=
  { s.update (·.addreadpos proclen) with consumed := s.consumed + proclen }

/-- Behind the data callback; more than it was given is asserted against, and here passed. -/
def consume (s : ReceiveStream κ) (proclen : ℕ) : ReceiveStream κ :=
  if proclen ≤ s.mRecvBuffer.getreadvalidcount then (s.advance proclen).loopEnd
  else { s with pc := .returned }

/-- The bytes `::recv` answers with fit into the space offered. -/
def step (s : ReceiveStream κ) : Action → Option (ReceiveStream κ)
  | .setDataCallback isSet => some { s with hasDataCallback := isSet }
  | .canRecv => if s.pc = .idle ∨ s.pc = .returned then some s.loopHead else none
  | .sysRecv r =>
    if s.pc = .sysRecv then
      match r with
      | .data bytes =>
        if bytes ≠ [] ∧ bytes.length ≤ s.mRecvBuffer.getwritevalidcount then
          some (s.append bytes).growIfFull.callBack
        else none
      | .wouldBlock => some { s with pc := .returned }
      | .zero | .failed => some { s with ds := s.ds.procCloseInLoop.1, pc := .returned }
    else none
  | .callbackReturns proclen => if s.pc = .callback then some (s.consume proclen) else none
  | .procCloseInLoop =>
    if s.pc ≠ .sysRecv then some { s with ds := s.ds.procCloseInLoop.1 } else none

/-- The buffer holds the bytes received and not consumed, in order. -/
structure Intact (s : ReceiveStream κ) : Prop where
  valid : s.mRecvBuffer.Valid
  readable_eq : s.mRecvBuffer.readable = s.received.drop s.consumed
  consumed_le : s.consumed ≤ s.received.length
  trail_valid : ∀ b ∈ s.trail, b.Valid

theorem valid_growRecvBuffer_none (mMaxRecvBufferSize : ℕ) :
    (growRecvBuffer mMaxRecvBufferSize none).Valid := Buffer.valid_new _

/-- Growing keeps the bytes held. -/
theorem growRecvBuffer_some {b : Buffer} (h : b.Valid) (mMaxRecvBufferSize : ℕ) :
    (growRecvBuffer mMaxRecvBufferSize (some b)).Valid ∧
      (growRecvBuffer mMaxRecvBufferSize (some b)).readable = b.readable ∧
      (growRecvBuffer mMaxRecvBufferSize (some b)).getsize =
        if b.getsize + growBufferSize ≤ mMaxRecvBufferSize then b.getsize + growBufferSize
        else b.getsize := by
  simp only [growRecvBuffer]
  split
  · -- the larger buffer is new, and is written all the bytes held
    have hread := h.length_readable
    have hwrite := h.writePos_le
    have hfits : b.readable.length ≤ (Buffer.new (b.getsize + growBufferSize)).getsize -
        (Buffer.new (b.getsize + growBufferSize)).getreadvalidcount := by
      rw [hread, Buffer.getsize_new, Buffer.getreadvalidcount, Buffer.getreadvalidcount]
      simp only [Buffer.new]
      omega
    obtain ⟨hvalid, hbytes, hsize, -⟩ := (Buffer.valid_new _).write hfits
    refine ⟨hvalid, ?_, ?_⟩
    · rw [hbytes, Buffer.readable_new, List.nil_append]
    · rw [hsize, Buffer.getsize_new]
  · exact ⟨h, rfl, rfl⟩

theorem intact_init (mMaxRecvBufferSize : ℕ) :
    (init mMaxRecvBufferSize : ReceiveStream κ).Intact where
  valid := valid_growRecvBuffer_none mMaxRecvBufferSize
  readable_eq := Buffer.readable_new _
  consumed_le := Nat.le_refl _
  trail_valid := by
    intro b hb
    rw [List.mem_singleton.mp hb]
    exact valid_growRecvBuffer_none mMaxRecvBufferSize

theorem trail_valid_update {s : ReceiveStream κ} (h : ∀ b ∈ s.trail, b.Valid)
    {f : Buffer → Buffer} (hvalid : (f s.mRecvBuffer).Valid) :
    ∀ b ∈ (s.update f).trail, b.Valid := by
  intro b hb
  rcases List.mem_append.mp hb with hb | hb
  · exact h b hb
  · rw [List.mem_singleton.mp hb]
    exact hvalid

/-- A change of the buffer that keeps what it holds. -/
theorem Intact.update {s : ReceiveStream κ} (h : s.Intact) {f : Buffer → Buffer}
    (hvalid : (f s.mRecvBuffer).Valid)
    (hbytes : (f s.mRecvBuffer).readable = s.mRecvBuffer.readable) : (s.update f).Intact :=
  ⟨hvalid, hbytes.trans h.readable_eq, h.consumed_le, trail_valid_update h.trail_valid hvalid⟩

theorem Intact.loopHead {s : ReceiveStream κ} (h : s.Intact) : s.loopHead.Intact :=
  ⟨h.valid, h.readable_eq, h.consumed_le, h.trail_valid⟩

theorem Intact.compact {s : ReceiveStream κ} (h : s.Intact) : s.compact.Intact := by
  unfold ReceiveStream.compact
  split
  · exact h.update h.valid.adjusttoHead h.valid.readable_adjusttoHead
  · exact h

theorem Intact.loopEnd {s : ReceiveStream κ} (h : s.Intact) : s.loopEnd.Intact :=
  h.compact.loopHead

theorem Intact.append {s : ReceiveStream κ} (h : s.Intact) {bytes : List UInt8}
    (hlen : bytes.length ≤ s.mRecvBuffer.getwritevalidcount) : (s.append bytes).Intact where
  valid := h.valid.append hlen
  readable_eq := by
    calc (s.mRecvBuffer.append bytes).readable
      _ = s.mRecvBuffer.readable ++ bytes := h.valid.readable_append hlen
      _ = s.received.drop s.consumed ++ bytes := by rw [h.readable_eq]
      _ = (s.received ++ bytes).drop s.consumed :=
        (List.drop_append_of_le_length h.consumed_le).symm
  consumed_le := by
    simp only [ReceiveStream.append, ReceiveStream.update, List.length_append]
    exact Nat.le_add_right_of_le h.consumed_le
  trail_valid := trail_valid_update (f := (·.append bytes)) h.trail_valid (h.valid.append hlen)

theorem Intact.growIfFull {s : ReceiveStream κ} (h : s.Intact) :
    s.growIfFull.Intact ∧ s.growIfFull.mRecvBuffer.readable = s.mRecvBuffer.readable := by
  unfold ReceiveStream.growIfFull
  split
  · obtain ⟨hvalid, hbytes, -⟩ := growRecvBuffer_some h.valid s.mMaxRecvBufferSize
    exact ⟨h.update hvalid hbytes, hbytes⟩
  · exact ⟨h, rfl⟩

theorem Intact.advance {s : ReceiveStream κ} (h : s.Intact) {proclen : ℕ}
    (hlen : proclen ≤ s.mRecvBuffer.getreadvalidcount) : (s.advance proclen).Intact where
  valid := h.valid.addreadpos hlen
  readable_eq := by
    calc (s.mRecvBuffer.addreadpos proclen).readable
      _ = s.mRecvBuffer.readable.drop proclen := h.valid.readable_addreadpos hlen
      _ = s.received.drop (s.consumed + proclen) := by rw [h.readable_eq, List.drop_drop]
  consumed_le := by
    have hcount : s.mRecvBuffer.getreadvalidcount = s.received.length - s.consumed := by
      rw [← h.valid.length_readable, h.readable_eq, List.length_drop]
    have hle := h.consumed_le
    simp only [ReceiveStream.advance, ReceiveStream.update]
    omega
  trail_valid :=
    trail_valid_update (f := (·.addreadpos proclen)) h.trail_valid (h.valid.addreadpos hlen)

theorem Intact.consume {s : ReceiveStream κ} (h : s.Intact) (proclen : ℕ) :
    (s.consume proclen).Intact := by
  unfold ReceiveStream.consume
  split
  · rename_i hlen
    exact (h.advance hlen).loopEnd
  · exact ⟨h.valid, h.readable_eq, h.consumed_le, h.trail_valid⟩

theorem Intact.callBack {s : ReceiveStream κ} (h : s.Intact) : s.callBack.Intact := by
  unfold ReceiveStream.callBack
  split
  · exact ⟨h.valid, h.readable_eq, h.consumed_le, h.trail_valid⟩
  · exact h.loopEnd

theorem Intact.step {s t : ReceiveStream κ} {a : Action} (h : s.Intact)
    (ht : s.step a = some t) : t.Intact := by
  have hsame : ∀ ds hasDataCallback pc, ({ s with
      ds := ds, hasDataCallback := hasDataCallback, pc := pc } : ReceiveStream κ).Intact :=
    fun _ _ _ => ⟨h.valid, h.readable_eq, h.consumed_le, h.trail_valid⟩
  cases a with
  | setDataCallback isSet =>
    cases ht
    exact hsame _ _ _
  | canRecv =>
    obtain ⟨-, ht⟩ := Option.ite_none_right_eq_some.mp ht
    cases ht
    exact h.loopHead
  | sysRecv r =>
    obtain ⟨-, ht⟩ := Option.ite_none_right_eq_some.mp ht
    cases r with
    | data bytes =>
      obtain ⟨⟨-, hlen⟩, ht⟩ := Option.ite_none_right_eq_some.mp ht
      cases ht
      exact (h.append hlen).growIfFull.1.callBack
    | zero | wouldBlock | failed =>
      cases ht
      exact hsame _ _ _
  | callbackReturns proclen =>
    obtain ⟨-, ht⟩ := Option.ite_none_right_eq_some.mp ht
    cases ht
    exact h.consume proclen
  | procCloseInLoop =>
    obtain ⟨-, ht⟩ := Option.ite_none_right_eq_some.mp ht
    cases ht
    exact hsame _ _ _

theorem pc_loopHead_ne (s : ReceiveStream κ) : s.loopHead.pc ≠ .callback := by
  unfold loopHead
  dsimp only
  split <;> decide

end ReceiveStream

end Netxy
