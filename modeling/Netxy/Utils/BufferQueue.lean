import Mathlib.Algebra.Group.Nat.Defs
import Netxy.Lib.BoundedQueue
import Netxy.Lib.Transition
import Netxy.Utils.Buffer

/-!
# `buffer_s` as a queue

The functions of `buffer.c` with counts of 64 bits, which wrap, and the call of `ox_buffer_write`
in itself. Whatever the order of calls, they do what `Buffer` does with natural numbers, and that
is a queue of bytes with a bounded length.
-/

namespace Netxy
open Transition

/-- Bytes whose number is a `size_t`. -/
structure Span where
  bytes : List UInt8
  length_lt : bytes.length < 2 ^ 64

/-- The length as the C code has it. -/
def Span.len (s : Span) : UInt64 := UInt64.ofNat s.bytes.length

/-- A span is never longer than a `size_t` can say. -/
theorem Span.toNat_len (s : Span) : s.len.toNat = s.bytes.length := by
  rw [len, UInt64.toNat_ofNat', Nat.mod_eq_of_lt s.length_lt]

/-- `buffer_s`. -/
structure MachineBuffer where
  data : List UInt8
  data_len : UInt64
  write_pos : UInt64
  read_pos : UInt64

namespace MachineBuffer

/-- `ox_buffer_new`, with the block that `malloc` returned. -/
def new (block : Span) : MachineBuffer := ⟨block.bytes, block.len, 0, 0⟩

/-- `ox_buffer_init`. -/
def init (b : MachineBuffer) : MachineBuffer := { b with read_pos := 0, write_pos := 0 }

/-- `ox_buffer_getreadvalidcount`; the difference wraps. -/
def getreadvalidcount (b : MachineBuffer) : UInt64 := b.write_pos - b.read_pos

/-- `ox_buffer_getwritevalidcount`; the difference wraps. -/
def getwritevalidcount (b : MachineBuffer) : UInt64 := b.data_len - b.write_pos

/-- The offset of the pointer into the block; `none` is `NULL`. -/
def getwriteptr (b : MachineBuffer) : Option UInt64 :=
  if b.write_pos < b.data_len then some b.write_pos else none

/-- `ox_buffer_addwritepos`. -/
def addwritepos (b : MachineBuffer) (value : UInt64) : MachineBuffer :=
  let temp := b.write_pos + value
  if temp ≤ b.data_len then { b with write_pos := temp } else b

/-- `ox_buffer_addreadpos`. -/
def addreadpos (b : MachineBuffer) (value : UInt64) : MachineBuffer :=
  let temp := b.read_pos + value
  if temp ≤ b.data_len then { b with read_pos := temp } else b

/-- The bytes from the read position on, as many as `getreadvalidcount`. -/
def readable (b : MachineBuffer) : List UInt8 :=
  (b.data.drop b.read_pos.toNat).take b.getreadvalidcount.toNat

/-- `ox_buffer_adjustto_head`. -/
def adjusttoHead (b : MachineBuffer) : MachineBuffer :=
  if 0 < b.read_pos then
    let len := b.getreadvalidcount
    { b with
      -- `memmove`
      data := if 0 < len then Buffer.copyTo b.data 0 b.readable else b.data
      read_pos := 0
      write_pos := len }
  else b

/-- `memcpy` to `getwriteptr`; nothing is copied to `NULL`. -/
def store (b : MachineBuffer) (bytes : List UInt8) : MachineBuffer :=
  match b.getwriteptr with
  | some pos => { b with data := Buffer.copyTo b.data pos.toNat bytes }
  | none => b

/-- `ox_buffer_write` with room for so many calls of it on the stack. What the inner call returns
is not looked at. -/
def write : ℕ → MachineBuffer → Span → Option (MachineBuffer × Bool)
  | 0, _, _ => none
  | frames + 1, b, data =>
    if data.len ≤ b.getwritevalidcount then
      some ((b.store data.bytes).addwritepos data.len, true)
    else if data.len ≤ b.data_len - b.getreadvalidcount then
      (write frames b.adjusttoHead data).map fun x => (x.1, true)
    else some (b, false)

/-- A call. A direct fill puts bytes at `getwriteptr` and counts some of them with
`addwritepos`. -/
inductive Call
  | write (data : Span)
  | fill (data : Span) (value : UInt64)
  | addreadpos (value : UInt64)
  | adjusttoHead
  | init

/-- A buffer, and what its writes returned. -/
structure Run where
  buffer : MachineBuffer
  results : List Bool

/-- One call, with the counts the caller may use. -/
def step (s : Run) : Call → Option Run
  | .write data => (s.buffer.write 2 data).map fun x => ⟨x.1, s.results ++ [x.2]⟩
  | .fill data value =>
    if data.len ≤ s.buffer.getwritevalidcount ∧ value ≤ data.len then
      some { s with buffer := (s.buffer.store data.bytes).addwritepos value }
    else none
  | .addreadpos value =>
    if value ≤ s.buffer.getreadvalidcount then
      some { s with buffer := s.buffer.addreadpos value }
    else none
  | .adjusttoHead => some { s with buffer := s.buffer.adjusttoHead }
  | .init => some { s with buffer := s.buffer.init }

/-! ## The counts as natural numbers -/

/-- The buffer without machine arithmetic. -/
def toBuffer (b : MachineBuffer) : Buffer := ⟨b.data, b.write_pos.toNat, b.read_pos.toNat⟩

/-- The positions are in order and in the block. -/
structure Ok (b : MachineBuffer) : Prop where
  length : b.data.length = b.data_len.toNat
  read_le : b.read_pos ≤ b.write_pos
  write_le : b.write_pos ≤ b.data_len

variable {b : MachineBuffer}

/-- The positions are in order as numbers too. -/
theorem Ok.valid (h : b.Ok) : b.toBuffer.Valid :=
  ⟨UInt64.le_iff_toNat_le.mp h.read_le, by
    show b.write_pos.toNat ≤ b.data.length
    rw [h.length]
    exact UInt64.le_iff_toNat_le.mp h.write_le⟩

/-- With the positions in order the difference does not wrap. -/
theorem Ok.toNat_getreadvalidcount (h : b.Ok) :
    b.getreadvalidcount.toNat = b.toBuffer.getreadvalidcount :=
  UInt64.toNat_sub_of_le _ _ h.read_le

/-- Neither does the room behind the write position. -/
theorem Ok.toNat_getwritevalidcount (h : b.Ok) :
    b.getwritevalidcount.toNat = b.toBuffer.getwritevalidcount := by
  rw [getwritevalidcount, UInt64.toNat_sub_of_le _ _ h.write_le, ← h.length]
  rfl

theorem Ok.readable_toBuffer (h : b.Ok) : b.toBuffer.readable = b.readable := by
  rw [readable, h.toNat_getreadvalidcount]
  rfl

theorem ok_new (block : Span) : (new block).Ok :=
  ⟨block.toNat_len.symm, UInt64.le_refl _, UInt64.le_iff_toNat_le.mpr (Nat.zero_le _)⟩

theorem Ok.init (h : b.Ok) : b.init.Ok :=
  ⟨h.length, UInt64.le_refl _, UInt64.le_iff_toNat_le.mpr (Nat.zero_le _)⟩

/-- A sum that stays in the block did not wrap. -/
theorem Ok.toNat_add (h : b.Ok) (pos value : UInt64)
    (hle : pos.toNat + value.toNat ≤ b.data.length) :
    (pos + value).toNat = pos.toNat + value.toNat := by
  have hlt := b.data_len.toNat_lt
  have hlength := h.length
  rw [UInt64.toNat_add, Nat.mod_eq_of_lt (by omega)]

/-- Reading what is there to be read wraps nowhere. -/
theorem Ok.addreadpos (h : b.Ok) {value : UInt64} (hvalue : value ≤ b.getreadvalidcount) :
    (b.addreadpos value).Ok ∧
      (b.addreadpos value).toBuffer = b.toBuffer.addreadpos value.toNat ∧
      (b.addreadpos value).data_len = b.data_len := by
  have hcount := UInt64.le_iff_toNat_le.mp hvalue
  rw [h.toNat_getreadvalidcount, Buffer.getreadvalidcount] at hcount
  have hread := UInt64.le_iff_toNat_le.mp h.read_le
  have hwrite := UInt64.le_iff_toNat_le.mp h.write_le
  have hlength := h.length
  have hsub : b.toBuffer.writePos - b.toBuffer.readPos = b.write_pos.toNat - b.read_pos.toNat := rfl
  rw [hsub] at hcount
  have hsum := h.toNat_add b.read_pos value (by omega)
  have hroom : b.read_pos + value ≤ b.data_len := by
    rw [UInt64.le_iff_toNat_le, hsum]
    omega
  have hnext : b.addreadpos value = { b with read_pos := b.read_pos + value } := if_pos hroom
  have hbuffer : b.toBuffer.addreadpos value.toNat =
      { b.toBuffer with readPos := b.toBuffer.readPos + value.toNat } := by
    refine if_pos ?_
    show b.read_pos.toNat + value.toNat ≤ b.data.length
    omega
  rw [hnext, hbuffer]
  refine ⟨⟨h.length, ?_, h.write_le⟩, ?_, rfl⟩
  · show b.read_pos + value ≤ b.write_pos
    rw [UInt64.le_iff_toNat_le, hsum]
    omega
  · rw [toBuffer, hsum]
    rfl

/-- Nor does moving the bytes to the front. -/
theorem Ok.adjusttoHead (h : b.Ok) :
    b.adjusttoHead.Ok ∧ b.adjusttoHead.toBuffer = b.toBuffer.adjusttoHead ∧
      b.adjusttoHead.data_len = b.data_len := by
  have hiff : 0 < b.read_pos ↔ 0 < b.toBuffer.readPos := UInt64.lt_iff_toNat_lt
  by_cases hpos : 0 < b.read_pos
  · -- with nothing to move, nothing is moved
    have hdata : (if 0 < b.getreadvalidcount then Buffer.copyTo b.data 0 b.readable else b.data) =
        Buffer.copyTo b.data 0 b.readable := by
      by_cases hlen : 0 < b.getreadvalidcount
      · exact if_pos hlen
      · have hzero : b.getreadvalidcount.toNat = 0 :=
          Nat.eq_zero_of_not_pos fun hlt => hlen (UInt64.lt_iff_toNat_lt.mpr hlt)
        rw [if_neg hlen, readable, hzero, List.take_zero, Buffer.copyTo_nil]
    have hnext : b.adjusttoHead = ⟨Buffer.copyTo b.data 0 b.readable, b.data_len,
        b.getreadvalidcount, 0⟩ := by
      rw [MachineBuffer.adjusttoHead, if_pos hpos]
      simp only [hdata]
    have hbuffer : (⟨Buffer.copyTo b.data 0 b.readable, b.data_len,
        b.getreadvalidcount, 0⟩ : MachineBuffer).toBuffer = b.toBuffer.adjusttoHead := by
      rw [Buffer.adjusttoHead, if_pos (hiff.mp hpos), h.readable_toBuffer,
        ← h.toNat_getreadvalidcount]
      rfl
    have hvalid := h.valid.adjusttoHead
    have hsize := h.valid.getsize_adjusttoHead
    rw [← hbuffer] at hvalid hsize
    rw [hnext]
    refine ⟨⟨hsize.trans h.length, UInt64.le_iff_toNat_le.mpr (Nat.zero_le _), ?_⟩, hbuffer, rfl⟩
    have hwrite : b.getreadvalidcount.toNat ≤ b.toBuffer.getsize := hsize ▸ hvalid.writePos_le
    rw [UInt64.le_iff_toNat_le, ← h.length]
    exact hwrite
  · have hsame : b.adjusttoHead = b := if_neg hpos
    have hbuffer : b.toBuffer.adjusttoHead = b.toBuffer := if_neg fun hlt => hpos (hiff.mpr hlt)
    rw [hsame, hbuffer]
    exact ⟨h, rfl, rfl⟩

/-- Where there is no room, `NULL` is given nothing to store. -/
theorem Ok.store_eq (h : b.Ok) {bytes : List UInt8}
    (hlen : bytes.length ≤ b.toBuffer.getwritevalidcount) :
    b.store bytes = { b with data := Buffer.copyTo b.data b.write_pos.toNat bytes } := by
  rw [store, getwriteptr]
  by_cases hroom : b.write_pos < b.data_len
  · rw [if_pos hroom]
  · have hfull : bytes = [] := by
      have hle : b.data_len.toNat ≤ b.write_pos.toNat :=
        Nat.le_of_not_lt fun hlt => hroom (UInt64.lt_iff_toNat_lt.mpr hlt)
      have hcount : b.toBuffer.getwritevalidcount = b.data.length - b.write_pos.toNat := rfl
      have hlength := h.length
      exact List.eq_nil_of_length_eq_zero (by omega)
    rw [if_neg hroom, hfull, Buffer.copyTo_nil]

/-- Bytes stored behind those held, and some of them counted. -/
theorem Ok.fill (h : b.Ok) {bytes : List UInt8} {value : UInt64}
    (hlen : bytes.length ≤ b.toBuffer.getwritevalidcount) (hvalue : value.toNat ≤ bytes.length) :
    ((b.store bytes).addwritepos value).Ok ∧
      ((b.store bytes).addwritepos value).toBuffer =
        { b.toBuffer with
          data := Buffer.copyTo b.data b.write_pos.toNat bytes
          writePos := b.toBuffer.writePos + value.toNat } ∧
      ((b.store bytes).addwritepos value).data_len = b.data_len := by
  have hcount : b.toBuffer.getwritevalidcount = b.data.length - b.write_pos.toNat := rfl
  have hwrite := h.valid.writePos_le
  have hsize : b.toBuffer.getsize = b.data.length := rfl
  have hpos : b.toBuffer.writePos = b.write_pos.toNat := rfl
  have hsum := h.toNat_add b.write_pos value (by omega)
  have hlength := h.length
  have hroom : b.write_pos + value ≤ b.data_len := by
    rw [UInt64.le_iff_toNat_le, hsum]
    omega
  have hnext : (b.store bytes).addwritepos value =
      { b with
        data := Buffer.copyTo b.data b.write_pos.toNat bytes
        write_pos := b.write_pos + value } := by
    rw [h.store_eq hlen]
    exact if_pos hroom
  have hcopied : (Buffer.copyTo b.data b.write_pos.toNat bytes).length = b.data.length :=
    Buffer.length_copyTo (by omega)
  have hread := UInt64.le_iff_toNat_le.mp h.read_le
  rw [hnext]
  refine ⟨⟨hcopied.trans h.length, ?_, hroom⟩, ?_, rfl⟩
  · show b.read_pos ≤ b.write_pos + value
    rw [UInt64.le_iff_toNat_le, hsum]
    omega
  · rw [toBuffer, hsum]
    rfl

/-- The writes that go through at once. -/
theorem Ok.append (h : b.Ok) (data : Span)
    (hlen : data.bytes.length ≤ b.toBuffer.getwritevalidcount) :
    ((b.store data.bytes).addwritepos data.len).Ok ∧
      ((b.store data.bytes).addwritepos data.len).toBuffer = b.toBuffer.append data.bytes ∧
      ((b.store data.bytes).addwritepos data.len).data_len = b.data_len := by
  have hfill := h.fill hlen (Nat.le_of_eq data.toNat_len)
  rw [data.toNat_len] at hfill
  rw [h.valid.append_eq hlen]
  exact hfill

/-- The comparison of machine integers is that of the lengths. -/
theorem Ok.len_le_iff (h : b.Ok) (data : Span) :
    data.len ≤ b.getwritevalidcount ↔
      data.bytes.length ≤ b.toBuffer.getwritevalidcount := by
  rw [UInt64.le_iff_toNat_le, data.toNat_len, h.toNat_getwritevalidcount]

/-- The comparison that decides whether moving the bytes makes enough room. -/
theorem Ok.len_le_left_iff (h : b.Ok) (data : Span) :
    data.len ≤ b.data_len - b.getreadvalidcount ↔
      data.bytes.length ≤ b.toBuffer.getsize - b.toBuffer.getreadvalidcount := by
  have hheld : b.getreadvalidcount ≤ b.data_len := by
    rw [UInt64.le_iff_toNat_le, h.toNat_getreadvalidcount, ← h.length]
    exact Nat.le_trans (Nat.sub_le _ _) h.valid.writePos_le
  rw [UInt64.le_iff_toNat_le, data.toNat_len, UInt64.toNat_sub_of_le _ _ hheld, ← h.length,
    h.toNat_getreadvalidcount]
  rfl

/-- With room for one inner call `ox_buffer_write` comes to its end, and does what `write` does
without one. -/
theorem Ok.write (h : b.Ok) (data : Span) :
    ∃ c, b.write 2 data = some (c, (b.toBuffer.write data.bytes).2) ∧ c.Ok ∧
      c.toBuffer = (b.toBuffer.write data.bytes).1 ∧ c.data_len = b.data_len := by
  by_cases hdirect : data.bytes.length ≤ b.toBuffer.getwritevalidcount
  · obtain ⟨hok, hbuffer, hsize⟩ := h.append data hdirect
    rw [Buffer.write, if_pos hdirect]
    exact ⟨_, if_pos ((h.len_le_iff data).mpr hdirect), hok, hbuffer, hsize⟩
  · by_cases hleft : data.bytes.length ≤ b.toBuffer.getsize - b.toBuffer.getreadvalidcount
    · -- the inner call finds room in the compacted buffer
      obtain ⟨hok, hbuffer, hsize⟩ := h.adjusttoHead
      have hroom : data.bytes.length ≤ b.adjusttoHead.toBuffer.getwritevalidcount := by
        rw [hbuffer, h.valid.getwritevalidcount_adjusttoHead]
        exact hleft
      obtain ⟨hok', hbuffer', hsize'⟩ := hok.append data hroom
      have hinner : b.adjusttoHead.write 1 data =
          some ((b.adjusttoHead.store data.bytes).addwritepos data.len, true) :=
        if_pos ((hok.len_le_iff data).mpr hroom)
      rw [Buffer.write, if_neg hdirect, if_pos hleft, ← hbuffer]
      refine ⟨_, ?_, hok', hbuffer', hsize'.trans hsize⟩
      rw [MachineBuffer.write, if_neg fun hle => hdirect ((h.len_le_iff data).mp hle),
        if_pos ((h.len_le_left_iff data).mpr hleft), hinner]
      rfl
    · rw [Buffer.write, if_neg hdirect, if_neg hleft]
      refine ⟨b, ?_, h, rfl, rfl⟩
      rw [MachineBuffer.write, if_neg fun hle => hdirect ((h.len_le_iff data).mp hle),
        if_neg fun hle => hleft ((h.len_le_left_iff data).mp hle)]

/-! ## The queue -/

/-- A queue, and what its pushes returned. -/
structure QueueRun where
  queue : BoundedQueue UInt8
  results : List Bool

/-- What a call does to the queue. -/
def queueStep (s : QueueRun) : Call → Option QueueRun
  | .write data =>
    some ⟨(s.queue.push data.bytes).1, s.results ++ [(s.queue.push data.bytes).2]⟩
  | .fill data value =>
    (s.queue.push? (data.bytes.take value.toNat)).map fun q => { s with queue := q }
  | .addreadpos value =>
    if value.toNat ≤ s.queue.items.length then
      some { s with queue := s.queue.drop value.toNat }
    else none
  | .adjusttoHead => some s
  | .init => some { s with queue := s.queue.clear }

/-- A buffer of `n` bytes holds what a queue holds. -/
structure Holds (n : ℕ) (s : Run) (t : QueueRun) : Prop where
  ok : s.buffer.Ok
  size : s.buffer.data_len.toNat = n
  capacity : t.queue.capacity = n
  items : s.buffer.readable = t.queue.items
  results : s.results = t.results

/-- Nothing is unread where the positions meet. -/
theorem readable_of_eq {b : MachineBuffer} (h : b.write_pos = b.read_pos) : b.readable = [] := by
  rw [readable, getreadvalidcount, h, UInt64.sub_self]
  exact List.take_zero

variable {n : ℕ}

/-- The queue has as much room as the buffer has bytes that are read or free. -/
theorem Holds.room {s : Run} {t : QueueRun} (h : Holds n s t) :
    t.queue.room = s.buffer.toBuffer.getsize - s.buffer.toBuffer.getreadvalidcount := by
  rw [BoundedQueue.room, h.capacity, ← h.items, ← h.ok.readable_toBuffer,
    h.ok.valid.length_readable, ← h.size, ← h.ok.length]
  rfl

/-- A write of the buffer is a push. -/
theorem Holds.write {s : Run} {t : QueueRun} (h : Holds n s t) (data : Span) :
    ∃ c, s.buffer.write 2 data = some (c, (t.queue.push data.bytes).2) ∧
      Holds n ⟨c, s.results ++ [(t.queue.push data.bytes).2]⟩
        ⟨(t.queue.push data.bytes).1, t.results ++ [(t.queue.push data.bytes).2]⟩ := by
  obtain ⟨c, hwrite, hok, hbuffer, hsize⟩ := h.ok.write data
  have hresults := congrArg (· ++ [(t.queue.push data.bytes).2]) h.results
  by_cases hfits : data.bytes.length ≤ t.queue.room
  · obtain ⟨hret, hcapacity, hitems⟩ := BoundedQueue.push_of_le hfits
    rw [h.room] at hfits
    obtain ⟨-, hreadable, -, htrue⟩ := h.ok.valid.write hfits
    rw [htrue, ← hret] at hwrite
    refine ⟨c, hwrite, hok, ?_, hcapacity.trans h.capacity, ?_, hresults⟩
    · rw [hsize]
      exact h.size
    · rw [← hok.readable_toBuffer, hbuffer, hreadable, h.ok.readable_toBuffer, h.items, hitems]
  · have hpush := BoundedQueue.push_of_lt (Nat.lt_of_not_le hfits)
    rw [h.room] at hfits
    have hdirect : ¬data.bytes.length ≤ s.buffer.toBuffer.getwritevalidcount := by
      intro hle
      have hread := h.ok.valid.readPos_le
      rw [Buffer.getwritevalidcount] at hle
      rw [Buffer.getreadvalidcount] at hfits
      omega
    have hsame : s.buffer.toBuffer.write data.bytes = (s.buffer.toBuffer, false) := by
      rw [Buffer.write, if_neg hdirect, if_neg hfits]
    rw [hsame] at hwrite hbuffer
    rw [hpush] at hresults ⊢
    refine ⟨c, hwrite, hok, ?_, h.capacity, ?_, hresults⟩
    · rw [hsize]
      exact h.size
    · rw [← hok.readable_toBuffer, hbuffer, h.ok.readable_toBuffer]
      exact h.items

/-- Bytes stored through the write pointer are queued when the position is moved over them. -/
theorem Holds.fill {s : Run} {t : QueueRun} (h : Holds n s t) {data : Span} {value : UInt64}
    (hlen : data.len ≤ s.buffer.getwritevalidcount) (hvalue : value ≤ data.len) :
    ∃ q, t.queue.push? (data.bytes.take value.toNat) = some q ∧
      Holds n { s with buffer := (s.buffer.store data.bytes).addwritepos value }
        { t with queue := q } := by
  have hroom := (h.ok.len_le_iff data).mp hlen
  have hcount : value.toNat ≤ data.bytes.length := by
    rw [← data.toNat_len]
    exact UInt64.le_iff_toNat_le.mp hvalue
  obtain ⟨hok, hbuffer, hsize⟩ := h.ok.fill hroom hcount
  have htaken : (data.bytes.take value.toNat).length ≤ t.queue.room := by
    have hread := h.ok.valid.readPos_le
    rw [h.room, List.length_take, Buffer.getreadvalidcount]
    rw [Buffer.getwritevalidcount] at hroom
    omega
  obtain ⟨q, hq, hcapacity, hitems⟩ := BoundedQueue.push?_eq_some htaken
  refine ⟨q, hq, hok, ?_, hcapacity.trans h.capacity, ?_, h.results⟩
  · show ((s.buffer.store data.bytes).addwritepos value).data_len.toNat = n
    rw [hsize]
    exact h.size
  · show ((s.buffer.store data.bytes).addwritepos value).readable = q.items
    rw [← hok.readable_toBuffer, hbuffer, hitems, ← h.items, ← h.ok.readable_toBuffer]
    exact h.ok.valid.readable_fill hcount

/-- One call is matched by the queue. -/
theorem Holds.step {s u : Run} {t : QueueRun} {c : Call} (h : Holds n s t)
    (hstep : MachineBuffer.step s c = some u) : ∃ v, queueStep t c = some v ∧ Holds n u v := by
  cases c with
  | write data =>
    obtain ⟨b, hwrite, hholds⟩ := h.write data
    rw [MachineBuffer.step, hwrite] at hstep
    rw [← Option.some.inj hstep]
    exact ⟨_, rfl, hholds⟩
  | fill data value =>
    obtain ⟨⟨hlen, hvalue⟩, hu⟩ := Option.ite_none_right_eq_some.mp hstep
    obtain ⟨q, hq, hholds⟩ := h.fill hlen hvalue
    rw [← Option.some.inj hu]
    refine ⟨{ t with queue := q }, ?_, hholds⟩
    rw [queueStep, hq]
    rfl
  | addreadpos value =>
    obtain ⟨hvalue, hu⟩ := Option.ite_none_right_eq_some.mp hstep
    obtain ⟨hok, hbuffer, hsize⟩ := h.ok.addreadpos hvalue
    have hcount : value.toNat ≤ s.buffer.toBuffer.getreadvalidcount := by
      rw [← h.ok.toNat_getreadvalidcount]
      exact UInt64.le_iff_toNat_le.mp hvalue
    have hitems : value.toNat ≤ t.queue.items.length := by
      rw [← h.items, ← h.ok.readable_toBuffer, h.ok.valid.length_readable]
      exact hcount
    rw [← Option.some.inj hu]
    refine ⟨_, if_pos hitems, hok, ?_, h.capacity, ?_, h.results⟩
    · show (s.buffer.addreadpos value).data_len.toNat = n
      rw [hsize]
      exact h.size
    · show (s.buffer.addreadpos value).readable = t.queue.items.drop value.toNat
      rw [← hok.readable_toBuffer, hbuffer, h.ok.valid.readable_addreadpos hcount,
        h.ok.readable_toBuffer, h.items]
  | adjusttoHead =>
    obtain ⟨hok, hbuffer, hsize⟩ := h.ok.adjusttoHead
    rw [← Option.some.inj hstep]
    refine ⟨t, rfl, hok, ?_, h.capacity, ?_, h.results⟩
    · show s.buffer.adjusttoHead.data_len.toNat = n
      rw [hsize]
      exact h.size
    · show s.buffer.adjusttoHead.readable = t.queue.items
      rw [← hok.readable_toBuffer, hbuffer, h.ok.valid.readable_adjusttoHead,
        h.ok.readable_toBuffer, h.items]
  | init =>
    rw [← Option.some.inj hstep]
    exact ⟨_, rfl, h.ok.init, h.size, h.capacity, readable_of_eq rfl, h.results⟩

/-- In every run of calls on a buffer of any capacity, the bytes that can be read are those of a
queue of this capacity after the same calls, and the writes return what its pushes return. A
further write needs no more than one call of itself, returns `true` exactly if there is room
besides the bytes that can be read, and changes none of them otherwise. -/
theorem readable_eq_items (block : Span) (calls : List Call) (s : Run)
    (h : exec step ⟨new block, []⟩ calls = some s) :
    (∃ t, exec queueStep ⟨.empty block.bytes.length, []⟩ calls = some t ∧
      s.buffer.readable = t.queue.items ∧ s.results = t.results) ∧
    ∀ data : Span, ∃ c,
      s.buffer.write 2 data =
          some (c, decide (data.bytes.length ≤ block.bytes.length - s.buffer.readable.length)) ∧
        (block.bytes.length - s.buffer.readable.length < data.bytes.length →
          c.readable = s.buffer.readable) := by
  have hnew : Holds block.bytes.length ⟨new block, []⟩ ⟨.empty block.bytes.length, []⟩ :=
    ⟨ok_new block, block.toNat_len, rfl, readable_of_eq rfl, rfl⟩
  obtain ⟨t, ht, hholds⟩ := exec_simulation (fun _ _ _ _ hr hs => hr.step hs) hnew h
  have hroom : t.queue.room = block.bytes.length - s.buffer.readable.length := by
    rw [BoundedQueue.room, hholds.capacity, hholds.items]
  refine ⟨⟨t, ht, hholds.items, hholds.results⟩, fun data => ?_⟩
  obtain ⟨c, hwrite, hnext⟩ := hholds.write data
  rw [← hroom]
  by_cases hfits : data.bytes.length ≤ t.queue.room
  · rw [(BoundedQueue.push_of_le hfits).1, ← decide_eq_true hfits] at hwrite
    exact ⟨c, hwrite, fun hlong => absurd hfits (Nat.not_le_of_lt hlong)⟩
  · rw [BoundedQueue.push_of_lt (Nat.lt_of_not_le hfits)] at hwrite hnext
    rw [← decide_eq_false hfits] at hwrite
    exact ⟨c, hwrite, fun _ => hnext.items.trans hholds.items.symm⟩

/-- Four bytes: a write of three, two of them read, and one that needs compaction. -/
theorem readable_eq_items_compacted :
    ∃ s, exec step ⟨new ⟨[0, 0, 0, 0], by decide⟩, []⟩
        [.write ⟨[1, 2, 3], by decide⟩, .addreadpos 2, .write ⟨[4, 5], by decide⟩] = some s ∧
      (∃ t, exec queueStep ⟨.empty 4, []⟩
          [.write ⟨[1, 2, 3], by decide⟩, .addreadpos 2, .write ⟨[4, 5], by decide⟩] = some t ∧
        s.buffer.readable = t.queue.items ∧ s.results = t.results) ∧
      ∀ data : Span, ∃ c,
        s.buffer.write 2 data =
            some (c, decide (data.bytes.length ≤ 4 - s.buffer.readable.length)) ∧
          (4 - s.buffer.readable.length < data.bytes.length →
            c.readable = s.buffer.readable) :=
  ⟨_, rfl, readable_eq_items ⟨[0, 0, 0, 0], by decide⟩ _ _ rfl⟩

end MachineBuffer

end Netxy
