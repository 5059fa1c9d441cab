import Mathlib.Data.List.GetD
import Mathlib.Data.UInt

/-!
# `WebSocketFormat`: building and extracting frames

`wsFrameBuild` and `wsFrameExtractBuffer` of `WebSocketFormat.h`, byte for byte. Buffers
are lists of bytes; `uint32_t` arithmetic is on naturals with its `% 2 ^ 32` written out.
-/

namespace Netxy

/-! ## Frame types -/

/-- `enum class WebSocketFrameType`. The receiver casts a nibble of the wire to it, so a
value need not be one of the enumerators. -/
structure WebSocketFrameType where
  code : UInt8
deriving DecidableEq, Repr

namespace WebSocketFrameType

def errorFrame : WebSocketFrameType := ⟨0xff⟩
def continuationFrame : WebSocketFrameType := ⟨0x00⟩
def textFrame : WebSocketFrameType := ⟨0x01⟩
def binaryFrame : WebSocketFrameType := ⟨0x02⟩
def closeFrame : WebSocketFrameType := ⟨0x08⟩
def pingFrame : WebSocketFrameType := ⟨0x09⟩
def pongFrame : WebSocketFrameType := ⟨0x0A⟩

/-- The enumerators, in the order of the declaration. -/
def enumerators : List WebSocketFrameType :=
  [errorFrame, continuationFrame, textFrame, binaryFrame, closeFrame, pingFrame, pongFrame]

/-- Every enumerator but `ERROR_FRAME` fits the opcode nibble. -/
theorem code_lt_of_mem {t : WebSocketFrameType} (ht : t ∈ enumerators) (hne : t ≠ errorFrame) :
    t.code < 0x10 := by
  simp only [enumerators, List.mem_cons, List.not_mem_nil, or_false] at ht
  rcases ht with rfl | rfl | rfl | rfl | rfl | rfl | rfl
  · exact absurd rfl hne
  all_goals decide

end WebSocketFrameType

namespace WebSocketFormat

/-! ## `wsFrameBuild` -/

/-- The length bytes `wsFrameBuild` pushes: 7, 7 + 16 or 7 + 64 bit. The 64-bit form
writes four zero bytes and the low 32 bits. -/
def lengthBytes (payloadLen : ℕ) : List UInt8 :=
  if payloadLen ≤ 125 then [UInt8.ofNat payloadLen]
  else if payloadLen ≤ 0xFFFF then
    [126, UInt8.ofNat ((payloadLen &&& 0xFF00) >>> 8), UInt8.ofNat (payloadLen &&& 0x00FF)]
  else
    [127, 0x00, 0x00, 0x00, 0x00,
      UInt8.ofNat ((payloadLen &&& 0xFF000000) >>> 24),
      UInt8.ofNat ((payloadLen &&& 0x00FF0000) >>> 16),
      UInt8.ofNat ((payloadLen &&& 0x0000FF00) >>> 8),
      UInt8.ofNat (payloadLen &&& 0x000000FF)]

/-- Byte `i` of the payload xored with `mask[i % 4]`. -/
def applyMask (mask : ℕ → UInt8) (payload : List UInt8) : List UInt8 :=
  payload.mapIdx fun i b => b ^^^ mask (i % 4)

/-- `wsFrameBuild`. `mask i` for `i < 4` is the low byte of the `i`-th `rand()`. -/
def wsFrameBuild (payload : List UInt8) (frameType : WebSocketFrameType) (isFin masking : Bool)
    (mask : ℕ → UInt8) : List UInt8 :=
  let head := frameType.code ||| (if isFin then 0x80 else 0x00)
  let frame := head :: lengthBytes payload.length
  if masking then
    frame.modify 1 (· ||| 0x80) ++ [mask 0, mask 1, mask 2, mask 3] ++ applyMask mask payload
  else
    frame ++ payload

/-! ## `wsFrameExtractBuffer` -/

/-- The out parameters of `wsFrameExtractBuffer`. -/
structure FrameOut where
  payload : List UInt8
  outopcode : WebSocketFrameType
  frameSize : ℕ
  outfin : Bool
deriving DecidableEq, Repr

/-- `buffer[i]`, for an index inside the buffer. -/
def byteAt (buffer : List UInt8) (i : ℕ) : UInt8 := buffer.getD i 0

/-- The payload length and the position behind it, `none` where the function returns
false: the header is incomplete, or the length has one of its upper 33 bits set. -/
def payloadLength (buffer : List UInt8) : Option (ℕ × ℕ) :=
  let payloadlen := (byteAt buffer 1 &&& 0x7F).toNat
  if payloadlen = 126 then
    if buffer.length < 4 then none
    else some (((byteAt buffer 2).toNat <<< 8) + (byteAt buffer 3).toNat, 4)
  else if payloadlen = 127 then
    if buffer.length < 10 then none
    else if byteAt buffer 2 ≠ 0 ∨ byteAt buffer 3 ≠ 0 ∨ byteAt buffer 4 ≠ 0 ∨
        byteAt buffer 5 ≠ 0 then none
    else if byteAt buffer 6 &&& 0x80 ≠ 0 then none
    else
      some (((byteAt buffer 6).toNat <<< 24) + ((byteAt buffer 7).toNat <<< 16) +
        ((byteAt buffer 8).toNat <<< 8) + (byteAt buffer 9).toNat, 10)
  else some (payloadlen, 2)

/-- The position behind the four mask bytes, when there are any. -/
def maskEnd (isMasking : Bool) (pos : ℕ) : ℕ := if isMasking then pos + 4 else pos

/-- The payload bytes: unmasked with `mask[j] = buffer[pos++]`, or taken as they are. -/
def payloadData (buffer : List UInt8) (isMasking : Bool) (pos payloadlen : ℕ) : List UInt8 :=
  if isMasking then
    (List.range payloadlen).map fun j =>
      byteAt buffer (pos + 4 + j) ^^^ byteAt buffer (pos + j % 4)
  else (buffer.drop pos).take payloadlen

/-- `wsFrameExtractBuffer`: the returned flag and the out parameters after the call. -/
def wsFrameExtractBuffer (buffer : List UInt8) (out : FrameOut) : Bool × FrameOut :=
  if buffer.length < 2 then (false, out)
  else
    let out := { out with
      outfin := byteAt buffer 0 &&& 0x80 != 0
      outopcode := ⟨byteAt buffer 0 &&& 0x0F⟩ }
    let isMasking := byteAt buffer 1 &&& 0x80 != 0
    match payloadLength buffer with
    | none => (false, out)
    | some (payloadlen, pos) =>
      if isMasking ∧ buffer.length < pos + 4 then (false, out)
      else if buffer.length < (maskEnd isMasking pos + payloadlen) % 2 ^ 32 then (false, out)
      else
        (true, { out with
          payload := out.payload ++ payloadData buffer isMasking pos payloadlen
          frameSize := (payloadlen + maskEnd isMasking pos) % 2 ^ 32 })

/-! ## Byte arithmetic -/

theorem ofNat_and_shift (n k m : ℕ) (hm : m >>> k = 0xFF) :
    UInt8.ofNat ((n &&& m) >>> k) = UInt8.ofNat (n / 2 ^ k) := by
  rw [Nat.shiftRight_and_distrib, hm, Nat.shiftRight_eq_div_pow,
    show (0xFF : ℕ) = 2 ^ 8 - 1 from rfl, Nat.and_two_pow_sub_one_eq_mod]
  exact UInt8.ofNat_mod_size

/-- `lengthBytes` with its masks and shifts read as division. -/
theorem lengthBytes_eq (n : ℕ) :
    lengthBytes n =
      if n ≤ 125 then [UInt8.ofNat n]
      else if n ≤ 0xFFFF then [126, UInt8.ofNat (n / 2 ^ 8), UInt8.ofNat n]
      else [127, 0, 0, 0, 0, UInt8.ofNat (n / 2 ^ 24), UInt8.ofNat (n / 2 ^ 16),
        UInt8.ofNat (n / 2 ^ 8), UInt8.ofNat n] := by
  have h0 : UInt8.ofNat (n &&& 0xFF) = UInt8.ofNat n := by
    simpa using ofNat_and_shift n 0 0xFF rfl
  simp only [lengthBytes, ofNat_and_shift n 8 0xFF00 rfl, ofNat_and_shift n 16 0x00FF0000 rfl,
    ofNat_and_shift n 24 0xFF000000 rfl, h0]

@[simp] theorem length_applyMask (mask : ℕ → UInt8) (payload : List UInt8) :
    (applyMask mask payload).length = payload.length := by
  simp [applyMask]

/-- Masking twice with the same bytes gives the payload back. -/
theorem applyMask_applyMask (mask : ℕ → UInt8) (payload : List UInt8) :
    applyMask mask (applyMask mask payload) = payload := by
  apply List.ext_getElem
  · simp
  · intro i h₁ h₂
    simp only [applyMask, List.getElem_mapIdx]
    rw [UInt8.xor_assoc, UInt8.xor_self, UInt8.xor_zero]

/-! ## Reading bytes -/

@[simp] theorem byteAt_cons_zero (x : UInt8) (b : List UInt8) : byteAt (x :: b) 0 = x := by
  simp only [byteAt, List.getD_cons_zero]

@[simp] theorem byteAt_cons_succ (x : UInt8) (b : List UInt8) (i : ℕ) :
    byteAt (x :: b) (i + 1) = byteAt b i := by
  simp only [byteAt, List.getD_cons_succ]

theorem byteAt_append_left {b : List UInt8} {i : ℕ} (s : List UInt8) (hi : i < b.length) :
    byteAt (b ++ s) i = byteAt b i := by
  simp only [byteAt, List.getD_append _ _ _ _ hi]

/-- A read behind a prefix. -/
theorem byteAt_append_length_add (b s : List UInt8) (i : ℕ) :
    byteAt (b ++ s) (b.length + i) = byteAt s i := by
  simp only [byteAt, List.getD_append_right _ _ _ _ (Nat.le_add_right _ _), Nat.add_sub_cancel_left]

theorem payloadData_append {b : List UInt8} {isMasking : Bool} {pos n : ℕ}
    (h : maskEnd isMasking pos + n ≤ b.length) (s : List UInt8) :
    payloadData (b ++ s) isMasking pos n = payloadData b isMasking pos n := by
  cases isMasking with
  | true =>
    simp only [maskEnd, if_true] at h
    simp only [payloadData, if_true]
    refine List.map_congr_left fun j hj => ?_
    rw [List.mem_range] at hj
    rw [byteAt_append_left s (by omega), byteAt_append_left s (by omega)]
  | false =>
    simp only [maskEnd, Bool.false_eq_true, if_false] at h
    simp only [payloadData, Bool.false_eq_true, if_false]
    rw [List.drop_append_of_le_length (by omega),
      List.take_append_of_le_length (by simp only [List.length_drop]; omega)]

/-- The loop that unmasks the payload, as a function of the bytes it reads. -/
theorem map_range_byteAt (mask : ℕ → UInt8) (payload s : List UInt8) :
    (List.range payload.length).map (fun j => byteAt (payload ++ s) j ^^^ mask (j % 4)) =
      applyMask mask payload := by
  apply List.ext_getElem
  · simp
  · intro i h₁ h₂
    have hi : i < payload.length := by simpa using h₂
    simp only [List.getElem_map, List.getElem_range, applyMask, List.getElem_mapIdx]
    rw [byteAt_append_left s hi, byteAt, List.getD_eq_getElem _ _ hi]

end WebSocketFormat

end Netxy
