import Mathlib.Data.List.Basic

/-!
# The byte buffer `buffer_s`

A block of memory with a read and a write position. The bytes between the two are what the
buffer holds; each function is followed by what it does to them.
-/

namespace Netxy

/-- `buffer_s`. The counts are natural numbers: where `Valid` holds no difference of two
positions wraps around. -/
structure Buffer where
  /-- the block, `data_len` bytes long -/
  data : List UInt8
  writePos : ℕ
  readPos : ℕ
deriving DecidableEq, Repr

namespace Buffer

/-- `ox_buffer_new`. What `malloc` leaves in the block is never read before it is written. -/
def new (bufferSize : ℕ) : Buffer := ⟨List.replicate bufferSize 0, 0, 0⟩

/-- `ox_buffer_getsize`. -/
def getsize (b : Buffer) : ℕ := b.data.length

/-- `ox_buffer_getreadvalidcount`. -/
def getreadvalidcount (b : Buffer) : ℕ := b.writePos - b.readPos

/-- `ox_buffer_getwritevalidcount`. -/
def getwritevalidcount (b : Buffer) : ℕ := b.getsize - b.writePos

/-- `memcpy` or `memmove` to `pos`. -/
def copyTo (block : List UInt8) (pos : ℕ) (bytes : List UInt8) : List UInt8 :=
  block.take pos ++ bytes ++ block.drop (pos + bytes.length)

/-- The bytes from `ox_buffer_getreadptr` on, as many as `ox_buffer_getreadvalidcount`. -/
def readable (b : Buffer) : List UInt8 := (b.data.drop b.readPos).take b.getreadvalidcount

/-- `ox_buffer_adjustto_head`. -/
def adjusttoHead (b : Buffer) : Buffer :=
  if 0 < b.readPos then
    { data := copyTo b.data 0 b.readable, writePos := b.getreadvalidcount, readPos := 0 }
  else b

/-- `ox_buffer_addwritepos`. -/
def addwritepos (b : Buffer) (value : ℕ) : Buffer :=
  if b.writePos + value ≤ b.getsize then { b with writePos := b.writePos + value } else b

/-- `ox_buffer_addreadpos`. -/
def addreadpos (b : Buffer) (value : ℕ) : Buffer :=
  if b.readPos + value ≤ b.getsize then { b with readPos := b.readPos + value } else b

/-- Bytes stored from `ox_buffer_getwriteptr` on, and `ox_buffer_addwritepos` behind them. -/
def append (b : Buffer) (bytes : List UInt8) : Buffer :=
  addwritepos { b with data := copyTo b.data b.writePos bytes } bytes.length

/-- `ox_buffer_write`. The call of itself behind `ox_buffer_adjustto_head` finds room for the
bytes (`getwritevalidcount_adjusttoHead`). -/
def write (b : Buffer) (bytes : List UInt8) : Buffer × Bool :=
  if bytes.length ≤ b.getwritevalidcount then (b.append bytes, true)
  else if bytes.length ≤ b.getsize - b.getreadvalidcount then
    (b.adjusttoHead.append bytes, true)
  else (b, false)

/-- The positions are in order and in the block. -/
structure Valid (b : Buffer) : Prop where
  readPos_le : b.readPos ≤ b.writePos
  writePos_le : b.writePos ≤ b.getsize

/-- A copy that fits leaves the block as long as it was. -/
theorem length_copyTo {block bytes : List UInt8} {pos : ℕ}
    (h : pos + bytes.length ≤ block.length) : (copyTo block pos bytes).length = block.length := by
  simp only [copyTo, List.length_append, List.length_take, List.length_drop]
  omega

@[simp] theorem copyTo_nil (block : List UInt8) (pos : ℕ) : copyTo block pos [] = block := by
  rw [copyTo, List.append_nil, List.length_nil, Nat.add_zero, List.take_append_drop]

/-- There are as many unread bytes as the count says. -/
theorem Valid.length_readable {b : Buffer} (h : b.Valid) :
    b.readable.length = b.getreadvalidcount := by
  have hread := h.readPos_le
  have hwrite := h.writePos_le
  simp only [getsize] at hwrite
  simp only [readable, getreadvalidcount, List.length_take, List.length_drop]
  omega

theorem valid_new (n : ℕ) : (new n).Valid := ⟨Nat.le_refl _, Nat.zero_le _⟩

@[simp] theorem getsize_new (n : ℕ) : (new n).getsize = n := List.length_replicate

@[simp] theorem getwritevalidcount_new (n : ℕ) : (new n).getwritevalidcount = n :=
  List.length_replicate

@[simp] theorem readable_new (n : ℕ) : (new n).readable = [] := List.take_zero

/-! ## Compaction -/

/-- The block stays the same one. -/
theorem Valid.getsize_adjusttoHead {b : Buffer} (h : b.Valid) :
    b.adjusttoHead.getsize = b.getsize := by
  unfold adjusttoHead
  split
  · refine length_copyTo ?_
    have hwrite := h.writePos_le
    rw [h.length_readable, getreadvalidcount]
    simp only [getsize] at hwrite
    omega
  · rfl

/-- Moving the bytes to the front keeps the positions in order. -/
theorem Valid.adjusttoHead {b : Buffer} (h : b.Valid) : b.adjusttoHead.Valid := by
  refine ⟨?_, ?_⟩
  · unfold Buffer.adjusttoHead
    split
    · exact Nat.zero_le _
    · exact h.readPos_le
  · rw [h.getsize_adjusttoHead]
    have hwrite := h.writePos_le
    unfold Buffer.adjusttoHead getreadvalidcount
    split
    · exact Nat.le_trans (Nat.sub_le _ _) hwrite
    · exact hwrite

/-- No unread byte is lost when the bytes are moved to the front. -/
theorem Valid.readable_adjusttoHead {b : Buffer} (h : b.Valid) :
    b.adjusttoHead.readable = b.readable := by
  by_cases hpos : 0 < b.readPos
  · rw [Buffer.adjusttoHead, if_pos hpos]
    simp only [readable, getreadvalidcount, copyTo, List.take_zero, List.nil_append,
      List.drop_zero, Nat.sub_zero]
    exact List.take_left' h.length_readable
  · rw [Buffer.adjusttoHead, if_neg hpos]

/-- Compaction leaves the bytes held, and all other room behind them. -/
theorem Valid.getwritevalidcount_adjusttoHead {b : Buffer} (h : b.Valid) :
    b.adjusttoHead.getwritevalidcount = b.getsize - b.getreadvalidcount := by
  rw [getwritevalidcount, h.getsize_adjusttoHead]
  by_cases hpos : 0 < b.readPos
  · rw [Buffer.adjusttoHead, if_pos hpos]
  · rw [Buffer.adjusttoHead, if_neg hpos, getreadvalidcount]
    omega

/-! ## Positions -/

/-- A count that is not too large is not refused. -/
theorem Valid.addreadpos_eq {b : Buffer} (h : b.Valid) {n : ℕ} (hn : n ≤ b.getreadvalidcount) :
    b.addreadpos n = { b with readPos := b.readPos + n } := by
  have hwrite := h.writePos_le
  rw [getreadvalidcount] at hn
  have hread := h.readPos_le
  exact if_pos (by omega)

/-- Reading keeps the positions in order. -/
theorem Valid.addreadpos {b : Buffer} (h : b.Valid) {n : ℕ} (hn : n ≤ b.getreadvalidcount) :
    (b.addreadpos n).Valid := by
  rw [h.addreadpos_eq hn]
  have hread := h.readPos_le
  rw [getreadvalidcount] at hn
  refine ⟨?_, h.writePos_le⟩
  dsimp only
  omega

/-- What is consumed goes from the front. -/
theorem Valid.readable_addreadpos {b : Buffer} (h : b.Valid) {n : ℕ}
    (hn : n ≤ b.getreadvalidcount) : (b.addreadpos n).readable = b.readable.drop n := by
  rw [h.addreadpos_eq hn]
  simp only [readable, getreadvalidcount]
  rw [List.drop_take, List.drop_drop, Nat.sub_sub]

theorem Valid.getsize_addreadpos {b : Buffer} (h : b.Valid) {n : ℕ}
    (hn : n ≤ b.getreadvalidcount) : (b.addreadpos n).getsize = b.getsize := by
  rw [h.addreadpos_eq hn]
  rfl

/-- What was read is not counted any more. -/
theorem Valid.getreadvalidcount_addreadpos {b : Buffer} (h : b.Valid) {n : ℕ}
    (hn : n ≤ b.getreadvalidcount) :
    (b.addreadpos n).getreadvalidcount = b.getreadvalidcount - n := by
  rw [h.addreadpos_eq hn]
  exact Nat.sub_add_eq _ _ _

/-- Bytes that fit are written, and the write position moves behind them. -/
theorem Valid.append_eq {b : Buffer} (h : b.Valid) {bytes : List UInt8}
    (hlen : bytes.length ≤ b.getwritevalidcount) :
    b.append bytes =
      { b with data := copyTo b.data b.writePos bytes, writePos := b.writePos + bytes.length } := by
  have hwrite := h.writePos_le
  rw [getwritevalidcount] at hlen
  simp only [getsize] at hwrite hlen
  refine if_pos ?_
  simp only [getsize]
  rw [length_copyTo (by omega)]
  omega

theorem Valid.getsize_append {b : Buffer} (h : b.Valid) {bytes : List UInt8}
    (hlen : bytes.length ≤ b.getwritevalidcount) : (b.append bytes).getsize = b.getsize := by
  rw [h.append_eq hlen]
  refine length_copyTo ?_
  have hwrite := h.writePos_le
  rw [getwritevalidcount] at hlen
  simp only [getsize] at hwrite hlen
  omega

/-- Writing keeps the positions in order. -/
theorem Valid.append {b : Buffer} (h : b.Valid) {bytes : List UInt8}
    (hlen : bytes.length ≤ b.getwritevalidcount) : (b.append bytes).Valid := by
  have hread := h.readPos_le
  have hwrite := h.writePos_le
  refine ⟨?_, ?_⟩
  · rw [h.append_eq hlen]
    exact Nat.le_add_right_of_le hread
  · rw [h.getsize_append hlen, h.append_eq hlen]
    rw [getwritevalidcount] at hlen
    dsimp only
    omega

/-- Of bytes stored behind those held, as many are held as are counted. -/
theorem Valid.readable_fill {b : Buffer} (h : b.Valid) {bytes : List UInt8} {n : ℕ}
    (hn : n ≤ bytes.length) :
    Buffer.readable
        { b with data := copyTo b.data b.writePos bytes, writePos := b.writePos + n } =
      b.readable ++ bytes.take n := by
  have hread := h.readPos_le
  have hwrite := h.writePos_le
  simp only [getsize] at hwrite
  simp only [readable, getreadvalidcount, copyTo, List.append_assoc]
  -- the bytes held end at `writePos`, where the new ones are put
  have hheld : ((b.data.take b.writePos).drop b.readPos).length = b.writePos - b.readPos := by
    rw [List.length_drop, List.length_take]
    omega
  have hcount : b.writePos + n - b.readPos =
      ((b.data.take b.writePos).drop b.readPos).length + n := by omega
  rw [List.drop_append_of_le_length (by rw [List.length_take]; omega), hcount,
    List.take_length_add_append, List.take_append_of_le_length hn, List.drop_take]

/-- What is appended follows the bytes held. -/
theorem Valid.readable_append {b : Buffer} (h : b.Valid) {bytes : List UInt8}
    (hlen : bytes.length ≤ b.getwritevalidcount) :
    (b.append bytes).readable = b.readable ++ bytes := by
  rw [h.append_eq hlen, h.readable_fill (Nat.le_refl _), List.take_length]

/-- What was written is there to be read. -/
theorem Valid.getreadvalidcount_append {b : Buffer} (h : b.Valid) {bytes : List UInt8}
    (hlen : bytes.length ≤ b.getwritevalidcount) :
    (b.append bytes).getreadvalidcount = b.getreadvalidcount + bytes.length := by
  rw [← (h.append hlen).length_readable, h.readable_append hlen, List.length_append,
    h.length_readable]

/-- A write succeeds where the bytes fit behind those held, be it after compaction. -/
theorem Valid.write {b : Buffer} (h : b.Valid) {bytes : List UInt8}
    (hlen : bytes.length ≤ b.getsize - b.getreadvalidcount) :
    (b.write bytes).1.Valid ∧ (b.write bytes).1.readable = b.readable ++ bytes ∧
      (b.write bytes).1.getsize = b.getsize ∧ (b.write bytes).2 = true := by
  by_cases hdirect : bytes.length ≤ b.getwritevalidcount
  · rw [Buffer.write, if_pos hdirect]
    exact ⟨h.append hdirect, h.readable_append hdirect, h.getsize_append hdirect, rfl⟩
  · rw [Buffer.write, if_neg hdirect, if_pos hlen]
    have hroom : bytes.length ≤ b.adjusttoHead.getwritevalidcount := by
      rwa [h.getwritevalidcount_adjusttoHead]
    refine ⟨h.adjusttoHead.append hroom, ?_, ?_, rfl⟩
    · rw [h.adjusttoHead.readable_append hroom, h.readable_adjusttoHead]
    · rw [h.adjusttoHead.getsize_append hroom, h.getsize_adjusttoHead]

end Buffer

end Netxy
