import Netxy.WebSocket.WebSocketFormat
import Mathlib.Data.Fintype.Basic
import Mathlib.Tactic.NormNum

/-!
# The wire format, and the two functions against it

`Frame.encode` is the frame layout of RFC 6455, section 5.2, for any payload the 63-bit
length can express. `wsFrameBuild` writes that layout (`wsFrameBuild_eq_encode`) and
`wsFrameExtractBuffer` reads it back (`extract_encode`), as long as the length fits the 31
bits the receiver accepts; a longer frame is never extracted (`extract_encode_long`).
-/

namespace Netxy
namespace WebSocketFormat

/-! ## The layout -/

/-- A frame as a peer sends it; `mask` is `none` for an unmasked frame. -/
structure Frame where
  opcode : WebSocketFrameType
  fin : Bool
  mask : Option (ℕ → UInt8)
  payload : List UInt8

/-- The 7-bit length and the extended length behind it, big-endian. -/
def lengthField (n : ℕ) : UInt8 × List UInt8 :=
  if n ≤ 125 then (UInt8.ofNat n, [])
  else if n ≤ 0xFFFF then (126, [UInt8.ofNat (n / 2 ^ 8), UInt8.ofNat n])
  else (127, [UInt8.ofNat (n / 2 ^ 56), UInt8.ofNat (n / 2 ^ 48), UInt8.ofNat (n / 2 ^ 40),
    UInt8.ofNat (n / 2 ^ 32), UInt8.ofNat (n / 2 ^ 24), UInt8.ofNat (n / 2 ^ 16),
    UInt8.ofNat (n / 2 ^ 8), UInt8.ofNat n])

/-- The masking key and the masked payload, or the plain payload. -/
def Frame.body (f : Frame) : List UInt8 :=
  match f.mask with
  | some mask => [mask 0, mask 1, mask 2, mask 3] ++ applyMask mask f.payload
  | none => f.payload

def Frame.encode (f : Frame) : List UInt8 :=
  (f.opcode.code ||| (if f.fin then 0x80 else 0x00)) ::
    ((lengthField f.payload.length).1 ||| (if f.mask.isSome then 0x80 else 0x00)) ::
      ((lengthField f.payload.length).2 ++ f.body)

/-- What a sender may put on the wire: a 4-bit opcode and a 63-bit length. -/
structure Frame.WellFormed (f : Frame) : Prop where
  opcode_lt : f.opcode.code < 0x10
  length_lt : f.payload.length < 2 ^ 63

/-! ## Bits of the two header bytes -/

theorem opcode_bits (c : UInt8) (fin : Bool) (hc : c < 0x10) :
    (c ||| (if fin then 0x80 else 0x00)) &&& 0x0F = c ∧
      ((c ||| (if fin then 0x80 else 0x00)) &&& 0x80 != 0) = fin := by
  have key : ∀ v : BitVec 8, v < 0x10 →
      ((v ||| 0x80) &&& 0x0F = v ∧ (v ||| 0x80) &&& 0x80 ≠ 0) ∧
        ((v ||| 0x00) &&& 0x0F = v ∧ (v ||| 0x00) &&& 0x80 = 0) := by decide +kernel
  obtain ⟨⟨h₁, h₂⟩, h₃, h₄⟩ := key c.toBitVec hc
  cases fin with
  | true =>
    exact ⟨UInt8.eq_of_toBitVec_eq h₁, bne_iff_ne.mpr fun h => h₂ (congrArg UInt8.toBitVec h)⟩
  | false =>
    refine ⟨UInt8.eq_of_toBitVec_eq h₃, ?_⟩
    rw [Bool.eq_false_iff]
    exact fun h => bne_iff_ne.mp h (UInt8.eq_of_toBitVec_eq h₄)

theorem length_bits (c : UInt8) (masking : Bool) (hc : c < 0x80) :
    (c ||| (if masking then 0x80 else 0x00)) &&& 0x7F = c ∧
      ((c ||| (if masking then 0x80 else 0x00)) &&& 0x80 != 0) = masking := by
  have key : ∀ v : BitVec 8, v < 0x80 →
      ((v ||| 0x80) &&& 0x7F = v ∧ (v ||| 0x80) &&& 0x80 ≠ 0) ∧
        ((v ||| 0x00) &&& 0x7F = v ∧ (v ||| 0x00) &&& 0x80 = 0) := by decide +kernel
  obtain ⟨⟨h₁, h₂⟩, h₃, h₄⟩ := key c.toBitVec hc
  cases masking with
  | true =>
    exact ⟨UInt8.eq_of_toBitVec_eq h₁, bne_iff_ne.mpr fun h => h₂ (congrArg UInt8.toBitVec h)⟩
  | false =>
    refine ⟨UInt8.eq_of_toBitVec_eq h₃, ?_⟩
    rw [Bool.eq_false_iff]
    exact fun h => bne_iff_ne.mp h (UInt8.eq_of_toBitVec_eq h₄)

/-- The sign test on the seventh length byte. -/
theorem and_0x80_eq_zero_iff (c : UInt8) : c &&& 0x80 = 0 ↔ c.toNat < 128 := by
  have key : ∀ v : BitVec 8, v &&& 0x80 = 0 ↔ v.toNat < 128 := by decide +kernel
  constructor
  · exact fun h => (key c.toBitVec).mp (congrArg UInt8.toBitVec h)
  · exact fun h => UInt8.eq_of_toBitVec_eq ((key c.toBitVec).mpr h)

/-! ## The three forms of the length field -/

theorem lengthField_short {n : ℕ} (h : n ≤ 125) : lengthField n = (UInt8.ofNat n, []) := by
  rw [lengthField, if_pos h]

theorem lengthField_medium {n : ℕ} (h : 125 < n) (h' : n ≤ 0xFFFF) :
    lengthField n = (126, [UInt8.ofNat (n / 2 ^ 8), UInt8.ofNat n]) := by
  rw [lengthField, if_neg (by omega), if_pos h']

theorem lengthField_long {n : ℕ} (h : 0xFFFF < n) :
    lengthField n = (127, [UInt8.ofNat (n / 2 ^ 56), UInt8.ofNat (n / 2 ^ 48),
      UInt8.ofNat (n / 2 ^ 40), UInt8.ofNat (n / 2 ^ 32), UInt8.ofNat (n / 2 ^ 24),
      UInt8.ofNat (n / 2 ^ 16), UInt8.ofNat (n / 2 ^ 8), UInt8.ofNat n]) := by
  rw [lengthField, if_neg (by omega), if_neg (by omega)]

/-- Below `2 ^ 32` the upper half of the 64-bit length is zero. -/
theorem ofNat_div_eq_zero {n k : ℕ} (hn : n < 2 ^ 32) (hk : 32 ≤ k) :
    UInt8.ofNat (n / 2 ^ k) = 0 := by
  have hle : 2 ^ 32 ≤ 2 ^ k := Nat.pow_le_pow_right (by norm_num) hk
  rw [Nat.div_eq_of_lt (by omega)]
  rfl

theorem lengthField_fst_lt (n : ℕ) : (lengthField n).1 < 0x80 := by
  rcases Nat.lt_or_ge 125 n with h | h
  · rcases Nat.lt_or_ge 0xFFFF n with h' | h'
    · rw [lengthField_long h']
      exact (by decide : (127 : UInt8) < 0x80)
    · rw [lengthField_medium h h']
      exact (by decide : (126 : UInt8) < 0x80)
  · rw [lengthField_short h, UInt8.lt_iff_toNat_lt, UInt8.toNat_ofNat']
    simp only [UInt8.reduceToNat]
    omega

theorem lengthField_snd_length_le (n : ℕ) : (lengthField n).2.length ≤ 8 := by
  unfold lengthField
  split
  · simp
  · split <;> simp

/-! ## Reading the length field -/

/-- `payloadLength` looks at the 7 length bits of the second byte and what is behind it. -/
theorem payloadLength_cons {b₀ b₁ l : UInt8} (hl : b₁ &&& 0x7F = l) (t : List UInt8) :
    payloadLength (b₀ :: b₁ :: t) =
      if l.toNat = 126 then
        if t.length < 2 then none
        else some (((byteAt t 0).toNat <<< 8) + (byteAt t 1).toNat, 4)
      else if l.toNat = 127 then
        if t.length < 8 then none
        else if byteAt t 0 ≠ 0 ∨ byteAt t 1 ≠ 0 ∨ byteAt t 2 ≠ 0 ∨ byteAt t 3 ≠ 0 then none
        else if byteAt t 4 &&& 0x80 ≠ 0 then none
        else
          some (((byteAt t 4).toNat <<< 24) + ((byteAt t 5).toNat <<< 16) +
            ((byteAt t 6).toNat <<< 8) + (byteAt t 7).toNat, 10)
      else some (l.toNat, 2) := by
  have hlt4 : ∀ m, m + 1 + 1 < 4 ↔ m < 2 := fun m => by omega
  have hlt10 : ∀ m, m + 1 + 1 < 10 ↔ m < 8 := fun m => by omega
  simp only [payloadLength, byteAt_cons_succ, byteAt_cons_zero, hl, List.length_cons, hlt4, hlt10]

/-- The length field of a payload below `2 ^ 31` bytes reads back as its length. -/
theorem payloadLength_lengthField {n : ℕ} (hn : n < 2 ^ 31) (b₀ : UInt8) (masking : Bool)
    (t : List UInt8) :
    payloadLength (b₀ :: ((lengthField n).1 ||| (if masking then 0x80 else 0x00)) ::
      ((lengthField n).2 ++ t)) = some (n, 2 + (lengthField n).2.length) := by
  rw [payloadLength_cons (length_bits _ masking (lengthField_fst_lt n)).1]
  rcases Nat.lt_or_ge 125 n with h | h
  · rcases Nat.lt_or_ge 0xFFFF n with h' | h'
    · -- 7 + 64 bit: the upper half is zero and the sign bit of the lower half is clear
      have hz : ∀ k, 32 ≤ k → UInt8.ofNat (n / 2 ^ k) = 0 :=
        fun k hk => ofNat_div_eq_zero (by omega) hk
      have hsign : UInt8.ofNat (n / 2 ^ 24) &&& 0x80 = 0 := by
        rw [and_0x80_eq_zero_iff, UInt8.toNat_ofNat']
        omega
      rw [lengthField_long h', hz 56 (by norm_num), hz 48 (by norm_num), hz 40 (by norm_num),
        hz 32 (by norm_num)]
      simp only [List.cons_append, List.nil_append, byteAt_cons_succ, byteAt_cons_zero, hsign,
        ne_eq, not_true_eq_false, or_false, if_false, UInt8.reduceToNat, Nat.reduceEqDiff, if_true, UInt8.toNat_ofNat', Nat.shiftLeft_eq]
      rw [if_neg (by simp)]
      simp only [Option.some.injEq, Prod.mk.injEq, List.length_cons, List.length_nil, and_true]
      omega
    · -- 7 + 16 bit
      rw [lengthField_medium h h']
      simp only [List.cons_append, List.nil_append, byteAt_cons_succ, byteAt_cons_zero,
        UInt8.reduceToNat, if_true, UInt8.toNat_ofNat', Nat.shiftLeft_eq]
      rw [if_neg (by simp)]
      simp only [Option.some.injEq, Prod.mk.injEq, List.length_cons, List.length_nil, and_true]
      omega
  · -- 7 bit
    have hval : (UInt8.ofNat n).toNat = n := by
      rw [UInt8.toNat_ofNat']; omega
    rw [lengthField_short h]
    simp only [hval]
    rw [if_neg (by omega), if_neg (by omega)]
    rfl

/-- A length of `2 ^ 31` or more is refused, whatever follows. -/
theorem payloadLength_lengthField_none {n : ℕ} (hlo : 2 ^ 31 ≤ n) (hn : n < 2 ^ 63) (b₀ : UInt8)
    (masking : Bool) (t : List UInt8) :
    payloadLength (b₀ :: ((lengthField n).1 ||| (if masking then 0x80 else 0x00)) ::
      ((lengthField n).2 ++ t)) = none := by
  rw [payloadLength_cons (length_bits _ masking (lengthField_fst_lt n)).1,
    lengthField_long (by omega)]
  simp only [List.cons_append, List.nil_append, byteAt_cons_succ, byteAt_cons_zero,
    UInt8.reduceToNat, Nat.reduceEqDiff, if_false, if_true]
  rw [if_neg (by simp)]
  by_cases hhi : 2 ^ 32 ≤ n
  · -- one of the four upper bytes is not zero
    rw [if_pos]
    simp only [ne_eq, ← UInt8.toNat_inj, UInt8.toNat_ofNat', UInt8.toNat_zero]
    omega
  · -- the upper bytes may pass, and then the sign bit of the lower half is set
    split
    · rfl
    · rw [if_pos]
      rw [Ne, and_0x80_eq_zero_iff, UInt8.toNat_ofNat']
      omega

/-! ## `wsFrameBuild` writes the layout -/

theorem lengthBytes_eq_lengthField {n : ℕ} (hn : n < 2 ^ 32) :
    lengthBytes n = (lengthField n).1 :: (lengthField n).2 := by
  rw [lengthBytes_eq]
  rcases Nat.lt_or_ge 125 n with h | h
  · rcases Nat.lt_or_ge 0xFFFF n with h' | h'
    · rw [lengthField_long h', if_neg (by omega), if_neg (by omega)]
      simp only [ofNat_div_eq_zero hn (by norm_num : 32 ≤ 56),
        ofNat_div_eq_zero hn (by norm_num : 32 ≤ 48),
        ofNat_div_eq_zero hn (by norm_num : 32 ≤ 40), ofNat_div_eq_zero hn le_rfl]
    · rw [lengthField_medium h h', if_neg (by omega), if_pos h']
  · rw [lengthField_short h, if_pos h]

/-- Below `2 ^ 32` bytes the sender writes the frame of RFC 6455. -/
theorem wsFrameBuild_eq_encode {payload : List UInt8} (hlen : payload.length < 2 ^ 32)
    (t : WebSocketFrameType) (isFin masking : Bool) (mask : ℕ → UInt8) :
    wsFrameBuild payload t isFin masking mask =
      Frame.encode ⟨t, isFin, if masking then some mask else none, payload⟩ := by
  simp only [wsFrameBuild, lengthBytes_eq_lengthField hlen, Frame.encode, Frame.body]
  cases masking with
  | true => simp [List.modify]
  | false => simp

/-! ## `wsFrameExtractBuffer` reads it back -/

/-- The masking key is read back from the four bytes it was written to. -/
theorem byteAt_mask (mask : ℕ → UInt8) (t : List UInt8) {j : ℕ} (hj : j < 4) :
    byteAt (mask 0 :: mask 1 :: mask 2 :: mask 3 :: t) j = mask j := by
  match j, hj with
  | 0, _ => rfl
  | 1, _ => rfl
  | 2, _ => rfl
  | 3, _ => rfl

/-- Behind a header of two bytes and an extended length, reads are reads of the body. -/
theorem byteAt_header (b₀ b₁ : UInt8) (ext t : List UInt8) (i : ℕ) :
    byteAt (b₀ :: b₁ :: (ext ++ t)) (2 + ext.length + i) = byteAt t i := by
  rw [show 2 + ext.length + i = ext.length + i + 1 + 1 by omega, byteAt_cons_succ,
    byteAt_cons_succ, byteAt_append_length_add]

/-- A frame at the front of the buffer is extracted, with its payload appended to the
payload string, whatever follows it. -/
theorem extract_encode {f : Frame} (hop : f.opcode.code < 0x10) (hlen : f.payload.length < 2 ^ 31)
    (s : List UInt8) (out : FrameOut) :
    wsFrameExtractBuffer (f.encode ++ s) out =
      (true, { payload := out.payload ++ f.payload, outopcode := f.opcode,
               frameSize := f.encode.length, outfin := f.fin }) := by
  obtain ⟨opcode, fin, mask, payload⟩ := f
  simp only at hop hlen
  have hext := lengthField_snd_length_le payload.length
  have hpl := payloadLength_lengthField hlen (opcode.code ||| (if fin then 0x80 else 0x00))
    mask.isSome (Frame.body ⟨opcode, fin, mask, payload⟩ ++ s)
  obtain ⟨hop', hfin⟩ := opcode_bits opcode.code fin hop
  have hmask := (length_bits _ mask.isSome (lengthField_fst_lt payload.length)).2
  simp only [Frame.encode, List.cons_append, List.append_assoc]
  -- from here on only the length of the extended length field matters
  generalize (lengthField payload.length).1 = l₀ at *
  generalize (lengthField payload.length).2 = ext at *
  unfold wsFrameExtractBuffer
  rw [if_neg (by simp)]
  simp only [hpl, byteAt_cons_zero, byteAt_cons_succ, hop', hfin, hmask]
  cases mask with
  | none =>
    have hdata : payloadData ((opcode.code ||| (if fin then 0x80 else 0x00)) :: (l₀ ||| 0x00) ::
        (ext ++ (payload ++ s))) false (2 + ext.length) payload.length = payload := by
      -- a plain `substr` behind the header
      rw [payloadData, if_neg (by simp), Nat.add_comm, List.drop_succ_cons, List.drop_succ_cons,
        List.drop_left, List.take_left]
    simp only [Option.isSome_none, Bool.false_eq_true, false_and, if_false, Frame.body,
      List.length_cons, List.length_append, maskEnd]
    rw [Nat.mod_eq_of_lt (by omega), Nat.mod_eq_of_lt (by omega), if_neg (by omega), hdata,
      show payload.length + (2 + ext.length) = ext.length + payload.length + 1 + 1 by omega]
  | some mask =>
    have hdata : payloadData ((opcode.code ||| (if fin then 0x80 else 0x00)) :: (l₀ ||| 0x80) ::
        (ext ++ ([mask 0, mask 1, mask 2, mask 3] ++ applyMask mask payload ++ s))) true
        (2 + ext.length) payload.length = payload := by
      -- unmasking is masking again with the key that was read
      calc _ = (List.range (applyMask mask payload).length).map (fun j =>
              byteAt (applyMask mask payload ++ s) j ^^^ mask (j % 4)) := by
            rw [payloadData, if_pos rfl, length_applyMask]
            refine List.map_congr_left fun j _ => ?_
            rw [Nat.add_assoc (2 + ext.length) 4 j, byteAt_header, byteAt_header]
            simp only [List.cons_append, List.nil_append]
            rw [byteAt_mask mask _ (Nat.mod_lt j (by norm_num)), Nat.add_comm 4 j]
            rfl
        _ = applyMask mask (applyMask mask payload) := map_range_byteAt mask _ s
        _ = payload := applyMask_applyMask mask payload
    simp only [Option.isSome_some, true_and, if_true, Frame.body, List.length_cons,
      List.length_append, List.length_nil, length_applyMask, maskEnd]
    rw [Nat.mod_eq_of_lt (by omega), Nat.mod_eq_of_lt (by omega), if_neg (by omega),
      if_neg (by omega), hdata, show payload.length + (2 + ext.length + 4)
        = ext.length + (0 + 1 + 1 + 1 + 1 + payload.length) + 1 + 1 by omega]

/-- A frame whose length does not fit 31 bits is never extracted. -/
theorem extract_encode_long {f : Frame} (hf : f.WellFormed) (hlen : 2 ^ 31 ≤ f.payload.length)
    (s : List UInt8) (out : FrameOut) :
    (wsFrameExtractBuffer (f.encode ++ s) out).1 = false := by
  have hpl := payloadLength_lengthField_none hlen hf.length_lt
    (f.opcode.code ||| (if f.fin then 0x80 else 0x00)) f.mask.isSome (f.body ++ s)
  simp only [Frame.encode, List.cons_append, List.append_assoc]
  unfold wsFrameExtractBuffer
  rw [if_neg (by simp)]
  simp only [hpl]

/-- **Round trip.** What `wsFrameBuild` writes, `wsFrameExtractBuffer` reads back, with any
bytes behind it. -/
theorem wsFrameExtractBuffer_wsFrameBuild (payload : List UInt8) (hlen : payload.length < 2 ^ 31)
    (t : WebSocketFrameType) (ht : t ∈ WebSocketFrameType.enumerators)
    (hne : t ≠ WebSocketFrameType.errorFrame) (isFin masking : Bool) (mask : ℕ → UInt8)
    (s : List UInt8) (out : FrameOut) (hout : out.payload = []) :
    wsFrameExtractBuffer (wsFrameBuild payload t isFin masking mask ++ s) out =
      (true, { payload := payload, outopcode := t,
               frameSize := (wsFrameBuild payload t isFin masking mask).length,
               outfin := isFin }) := by
  rw [wsFrameBuild_eq_encode (by omega)]
  rw [extract_encode (WebSocketFrameType.code_lt_of_mem ht hne) hlen s out, hout, List.nil_append]

/-- A masked text frame of three bytes with two bytes behind it. -/
theorem wsFrameExtractBuffer_wsFrameBuild_abc :
    wsFrameExtractBuffer
        (wsFrameBuild [97, 98, 99] .textFrame true true (fun i => UInt8.ofNat (17 * i)) ++ [1, 2])
        ⟨[], .errorFrame, 0, false⟩ =
      (true, { payload := [97, 98, 99], outopcode := .textFrame, frameSize := 9,
               outfin := true }) :=
  wsFrameExtractBuffer_wsFrameBuild [97, 98, 99] (by decide) .textFrame (by decide) (by decide)
    true true _ [1, 2] _ rfl

/-! ## The extractor is stable -/

theorem payloadLength_append {b : List UInt8} {r : ℕ × ℕ} (hb : 2 ≤ b.length) (s : List UInt8)
    (h : payloadLength b = some r) : payloadLength (b ++ s) = some r := by
  have hbyte : ∀ i, i < b.length → byteAt (b ++ s) i = byteAt b i :=
    fun i hi => byteAt_append_left s hi
  unfold payloadLength at h ⊢
  simp only [hbyte 1 (by omega), List.length_append] at h ⊢
  by_cases h126 : (byteAt b 1 &&& 0x7F).toNat = 126
  · simp only [h126, if_true] at h ⊢
    by_cases hlen : b.length < 4
    · simp [hlen] at h
    · rw [if_neg hlen] at h
      rw [if_neg (by omega), hbyte 2 (by omega), hbyte 3 (by omega)]
      exact h
  · by_cases h127 : (byteAt b 1 &&& 0x7F).toNat = 127
    · simp only [h127, Nat.reduceEqDiff, if_false, if_true] at h ⊢
      by_cases hlen : b.length < 10
      · simp [hlen] at h
      · rw [if_neg hlen] at h
        rw [if_neg (by omega), hbyte 2 (by omega), hbyte 3 (by omega), hbyte 4 (by omega),
          hbyte 5 (by omega), hbyte 6 (by omega), hbyte 7 (by omega), hbyte 8 (by omega),
          hbyte 9 (by omega)]
        exact h
    · simp only [h126, h127, if_false] at h ⊢
      exact h

/-- The length is a 31-bit number and the position one of the three header lengths. -/
theorem payloadLength_bounds {b : List UInt8} {n pos : ℕ} (hb : 2 ≤ b.length)
    (h : payloadLength b = some (n, pos)) : n < 2 ^ 31 ∧ 2 ≤ pos ∧ pos ≤ 10 ∧ pos ≤ b.length := by
  have hbyte : ∀ i, (byteAt b i).toNat < 256 := fun i => (byteAt b i).toNat_lt
  unfold payloadLength at h
  simp only at h
  split at h
  · split at h
    · cases h
    · simp only [Option.some.injEq, Prod.mk.injEq, Nat.shiftLeft_eq] at h
      have := hbyte 2
      have := hbyte 3
      omega
  · split at h
    · split at h
      · cases h
      · split at h
        · cases h
        · split at h
          · cases h
          · rename_i hsign
            rw [ne_eq, not_not, and_0x80_eq_zero_iff] at hsign
            simp only [Option.some.injEq, Prod.mk.injEq, Nat.shiftLeft_eq] at h
            have := hbyte 7
            have := hbyte 8
            have := hbyte 9
            omega
    · simp only [Option.some.injEq, Prod.mk.injEq] at h
      have := hbyte 1
      have hle : (byteAt b 1 &&& 0x7F).toNat ≤ 127 := by
        rw [UInt8.toNat_and]
        exact Nat.and_le_right
      omega

theorem maskEnd_le (isMasking : Bool) (pos : ℕ) : pos ≤ maskEnd isMasking pos ∧
    maskEnd isMasking pos ≤ pos + 4 := by
  cases isMasking <;> simp [maskEnd]

/-- The frame at the front of a buffer does not depend on what follows, and lies inside the
buffer. -/
theorem extract_true_append {b : List UInt8} {out o : FrameOut}
    (h : wsFrameExtractBuffer b out = (true, o)) :
    2 ≤ o.frameSize ∧ o.frameSize ≤ b.length ∧
      ∀ s, wsFrameExtractBuffer (b ++ s) out = (true, o) := by
  unfold wsFrameExtractBuffer at h
  split at h
  · cases h
  rename_i hlen
  rcases hp : payloadLength b with _ | ⟨n, pos⟩
  · simp only [hp] at h
    cases h
  have hbounds := payloadLength_bounds (by omega) hp
  simp only [hp] at h
  generalize hm : (byteAt b 1 &&& 0x80 != 0) = isMasking at h
  have hend := maskEnd_le isMasking pos
  -- no sum of header and payload comes near the 64 bits of a `size_t`
  rw [Nat.mod_eq_of_lt (by omega), Nat.mod_eq_of_lt (by omega)] at h
  split at h
  · cases h
  rename_i hmask
  split at h
  · cases h
  rename_i hsize
  have ho := (Prod.mk.inj h).2
  refine ⟨by rw [← ho]; simp only; omega, by rw [← ho]; simp only; omega, fun s => ?_⟩
  unfold wsFrameExtractBuffer
  simp only [payloadLength_append (by omega) s hp, byteAt_append_left s (show 0 < b.length by omega),
    byteAt_append_left s (show 1 < b.length by omega), hm,
    payloadData_append (show maskEnd isMasking pos + n ≤ b.length by omega) s]
  have hmask' : ¬ (isMasking = true ∧ (b ++ s).length < pos + 4) := fun hc =>
    hmask ⟨hc.1, lt_of_le_of_lt (by simp) hc.2⟩
  rw [Nat.mod_eq_of_lt (by omega), Nat.mod_eq_of_lt (by omega),
    if_neg (by simp only [List.length_append]; omega), if_neg hmask',
    if_neg (by simp only [List.length_append]; omega), ho]

end WebSocketFormat

end Netxy
