import Netxy.Utils.Sha1

/-!
# `CSHA1::Update` and `CSHA1::Final`

The message given to a `CSHA1` in pieces of any sizes. `Holds` relates the object to the
message so far; `update_holds` and `final_digest` say that no copy leaves its buffer and that
the digest is the hash of the pieces put together.
-/

namespace Netxy.Sha1

open SecureHash BlockHash

/-- The members `m_state`, `m_count`, `m_buffer` and `m_digest`. -/
structure CSHA1 where
  state : Hash
  count0 : Word
  count1 : Word
  buffer : Vector UInt8 64
  digest : Vector UInt8 20

/-- `len` bytes at `off` of an array; `none` outside of it. -/
def read? (data : List UInt8) (off len : ℕ) : Option (List UInt8) :=
  if off + len ≤ data.length then some ((data.drop off).take len) else none

/-- A `memcpy` into `m_buffer`; `none` outside of it. -/
def memcpy? (buffer : Vector UInt8 64) (off : ℕ) (bytes : List UInt8) :
    Option (Vector UInt8 64) :=
  if h : off + bytes.length ≤ 64 then
    some ⟨(buffer.toList.take off ++ bytes ++ buffer.toList.drop (off + bytes.length)).toArray, by
      simp only [List.size_toArray, List.length_append, List.length_take, List.length_drop,
        Vector.length_toList]
      omega⟩
  else none

namespace CSHA1

/-- `Reset`. It leaves the buffer and the digest as they are. -/
def reset (s : CSHA1) : CSHA1 := { s with state := initial, count0 := 0, count1 := 0 }

/-- The constructor, over whatever the memory of the object holds. -/
def new (memory : CSHA1) : CSHA1 := memory.reset

/-- `for(; i + 63 < len; i += 64) Transform(m_state, &data[i]);` -/
def transformBlocks (data : List UInt8) (len : Word) : ℕ → Hash → Word → Option (Hash × Word)
  | 0, _, _ => none
  | fuel + 1, state, i =>
    if i + 63 < len then do
      let block ← read? data i.toNat 64
      transformBlocks data len fuel (transform state block) (i + 64)
    else some (state, i)

/-- `Update`; `none` where it reads or writes outside an array. -/
def update (s : CSHA1) (data : List UInt8) (len : Word) : Option CSHA1 :=
  let j := (s.count0 >>> 3) &&& 63
  let count0 := s.count0 + (len <<< 3)
  let carry := if count0 < len <<< 3 then s.count1 + 1 else s.count1
  let count1 := carry + (len >>> 29)
  if 63 < j + len then do
    let i := 64 - j
    let head ← read? data 0 i.toNat
    let buffer ← memcpy? s.buffer j.toNat head
    let (state, i) ← transformBlocks data len (len.toNat + 1) (transform s.state buffer.toList) i
    let rest ← read? data i.toNat (len - i).toNat
    let buffer ← memcpy? buffer 0 rest
    some { s with state := state, count0 := count0, count1 := count1, buffer := buffer }
  else do
    let rest ← read? data 0 len.toNat
    let buffer ← memcpy? s.buffer j.toNat rest
    some { s with count0 := count0, count1 := count1, buffer := buffer }

/-- `while ((m_count[0] & 504) != 448) Update((UINT_8 *)"\0", 1);` -/
def fill : ℕ → CSHA1 → Option CSHA1
  | 0, _ => none
  | fuel + 1, s =>
    if s.count0 &&& 504 ≠ 448 then do
      let s ← s.update [0] 1
      fill fuel s
    else some s

/-- The bit count, highest byte first. -/
def finalcount (s : CSHA1) : List UInt8 :=
  (List.range 8).map fun i =>
    ⟨(((if 4 ≤ i then s.count0 else s.count1) >>> ((3 - i % 4) * 8)) &&& 255).setWidth 8⟩

/-- The digest, highest byte of each word first. -/
def digestOf (state : Hash) : Vector UInt8 20 :=
  Vector.ofFn fun i =>
    ⟨((state.words.getD (i / 4) 0 >>> ((3 - i.val % 4) * 8)) &&& 255).setWidth 8⟩

/-- `Final`, with the wiping of the variables behind it. -/
def final (s : CSHA1) : Option CSHA1 := do
  let count := s.finalcount
  let s ← s.update [128] 1
  let s ← fill 65 s
  let s ← s.update count 8
  let buffer := Vector.replicate 64 0
  some
    { state := transform ⟨0, 0, 0, 0, 0⟩ buffer.toList
      count0 := 0
      count1 := 0
      buffer := buffer
      digest := digestOf s.state }

/-- `GetHash`. -/
def getHash (s : CSHA1) : List UInt8 := s.digest.toList

/-- An object that is constructed, given its data piece by piece and finished. -/
def hashPieces (memory : CSHA1) (pieces : List (List UInt8)) : Option (List UInt8) := do
  let s ← pieces.foldlM (fun s piece => s.update piece (BitVec.ofNat 32 piece.length)) (new memory)
  let s ← s.final
  return s.getHash

/-! ## The object and the message so far -/

/-- The state of the hash of a message. -/
def absorbed (m : List UInt8) : Absorbed Hash UInt8 64 :=
  absorb compress (start 64 (by decide) initial) m

/-- The object after a message: the chaining value, the bytes of the last block and the
number of bits. -/
structure Holds (s : CSHA1) (m : List UInt8) : Prop where
  state : s.state = (absorbed m).state
  buffer : s.buffer.toList.take (absorbed m).pending.length = (absorbed m).pending
  count0 : s.count0.toNat = 8 * m.length % 2 ^ 32
  count1 : s.count1.toNat = 8 * m.length / 2 ^ 32 % 2 ^ 32

/-- A message may come in parts. -/
theorem absorbed_append (m m' : List UInt8) :
    absorbed (m ++ m') = absorb compress (absorbed m) m' := absorb_append _ m m'

/-- What waits is what is over whole blocks. -/
theorem length_pending_absorbed (m : List UInt8) :
    (absorbed m).pending.length = m.length % 64 := by
  have h := (absorb_start (f := compress) (by decide : 0 < 64) initial m).2
  rw [absorbed, h, List.length_drop]
  omega

/-- A new object has seen nothing. -/
theorem new_holds (memory : CSHA1) : Holds (new memory) [] where
  state := rfl
  buffer := List.take_zero
  count0 := rfl
  count1 := rfl

/-- The bit count says where in the buffer the next byte goes. -/
theorem Holds.index {s : CSHA1} {m : List UInt8} (h : Holds s m) :
    ((s.count0 >>> 3) &&& 63).toNat = m.length % 64 := by
  have hand : ((s.count0 >>> 3) &&& 63).toNat = s.count0.toNat / 8 % 64 := by
    rw [BitVec.toNat_and, BitVec.toNat_ushiftRight, Nat.shiftRight_eq_div_pow]
    exact Nat.and_two_pow_sub_one_eq_mod _ 6
  rw [hand, h.count0]
  omega

/-- The two words of the count after a piece. -/
theorem Holds.count {s : CSHA1} {m data : List UInt8} {len : Word} (h : Holds s m)
    (hlen : len.toNat = data.length) :
    (s.count0 + (len <<< 3)).toNat = 8 * (m ++ data).length % 2 ^ 32 ∧
    ((if s.count0 + (len <<< 3) < len <<< 3 then s.count1 + 1 else s.count1) +
      (len >>> 29)).toNat = 8 * (m ++ data).length / 2 ^ 32 % 2 ^ 32 := by
  have hbits : (len <<< 3).toNat = 8 * data.length % 2 ^ 32 := by
    rw [BitVec.toNat_shiftLeft, Nat.shiftLeft_eq, hlen]
    omega
  have hhigh : (len >>> 29).toNat = data.length / 2 ^ 29 := by
    rw [BitVec.toNat_ushiftRight, Nat.shiftRight_eq_div_pow, hlen]
  have h0 := h.count0
  have h1 := h.count1
  have hsum : (s.count0 + (len <<< 3)).toNat = 8 * (m ++ data).length % 2 ^ 32 := by
    rw [BitVec.toNat_add, h0, hbits, List.length_append]
    omega
  refine ⟨hsum, ?_⟩
  -- the low word wraps around just when the sum is below what was added
  rw [List.length_append] at hsum ⊢
  by_cases hcarry : s.count0 + (len <<< 3) < len <<< 3
  · rw [if_pos hcarry, BitVec.toNat_add, BitVec.toNat_add, h1, hhigh]
    rw [BitVec.lt_def, hsum, hbits] at hcarry
    show (_ % 2 ^ 32 + _) % 2 ^ 32 = _
    have hone : (1 : Word).toNat = 1 := rfl
    rw [hone]
    omega
  · rw [if_neg hcarry, BitVec.toNat_add, h1, hhigh]
    rw [BitVec.lt_def, hsum, hbits] at hcarry
    omega

/-- A read within the data. -/
theorem read?_eq {data : List UInt8} {off len : ℕ} (h : off + len ≤ data.length) :
    read? data off len = some ((data.drop off).take len) := if_pos h

/-- A copy within the buffer. -/
theorem memcpy?_eq (buffer : Vector UInt8 64) {off : ℕ} {bytes : List UInt8}
    (h : off + bytes.length ≤ 64) :
    ∃ buffer', memcpy? buffer off bytes = some buffer' ∧
      buffer'.toList.take (off + bytes.length) = buffer.toList.take off ++ bytes := by
  refine ⟨_, dif_pos h, ?_⟩
  have hlen : (buffer.toList.take off ++ bytes).length = off + bytes.length := by
    rw [List.length_append, List.length_take, Vector.length_toList]
    omega
  exact List.take_left' hlen

/-- The whole blocks of a piece go into the state, and less than a block is left. -/
theorem transformBlocks_eq (data : List UInt8) (len : Word) (hlen : len.toNat = data.length)
    (hmax : data.length + 63 < 2 ^ 32) (fuel : ℕ) (state : Hash) (i : Word)
    (hi : i.toNat ≤ data.length) (hfuel : data.length - i.toNat < fuel) :
    ∃ state' i', transformBlocks data len fuel state i = some (state', i') ∧
      i'.toNat ≤ data.length ∧ data.length < i'.toNat + 64 ∧
      absorb compress (start 64 (by decide) state) (data.drop i.toNat) =
        absorb compress (start 64 (by decide) state') (data.drop i'.toNat) := by
  induction fuel generalizing state i with
  | zero => omega
  | succ fuel ih =>
    have hnext : (i + 63 < len) ↔ i.toNat + 63 < data.length := by
      rw [BitVec.lt_def, BitVec.toNat_add, hlen]
      show (i.toNat + 63) % 2 ^ 32 < _ ↔ _
      rw [Nat.mod_eq_of_lt (by omega)]
    unfold transformBlocks
    by_cases h : i.toNat + 63 < data.length
    · have hi' : (i + 64).toNat = i.toNat + 64 := by
        rw [BitVec.toNat_add]
        show (i.toNat + 64) % 2 ^ 32 = _
        rw [Nat.mod_eq_of_lt (by omega)]
      obtain ⟨state', i', hrun, hle, hrest, habsorb⟩ := ih
        (transform state ((data.drop i.toNat).take 64)) (i + 64) (by omega) (by omega)
      have hblock : ((data.drop i.toNat).take 64).length = 64 := by
        rw [List.length_take, List.length_drop]
        omega
      rw [if_pos (hnext.mpr h), read?_eq (by omega)]
      refine ⟨state', i', hrun, hle, hrest, ?_⟩
      rw [← habsorb, hi', transform_eq, ← List.drop_drop]
      conv_lhs => rw [← List.take_append_drop 64 (data.drop i.toNat)]
      rw [absorb_start_block _ _ hblock]
    · rw [if_neg (fun hc => h (hnext.mp hc))]
      exact ⟨state, i, rfl, hi, by omega, rfl⟩

/-- **A piece.** `Update` stays inside its arrays, and the object then holds the message with
the piece behind it. The pieces are shorter than 2^32 - 63 bytes; from there on the sums of the
source wrap around. -/
theorem update_holds {s : CSHA1} {m : List UInt8} (h : Holds s m) {data : List UInt8} {len : Word}
    (hlen : len.toNat = data.length) (hmax : data.length + 63 < 2 ^ 32) :
    ∃ s', s.update data len = some s' ∧ Holds s' (m ++ data) := by
  have hj := h.index
  have hpending := length_pending_absorbed m
  obtain ⟨hcount0, hcount1⟩ := h.count hlen
  have hfull : ((63 : Word) < ((s.count0 >>> 3) &&& 63) + len) ↔ 63 < m.length % 64 + data.length := by
    rw [BitVec.lt_def, BitVec.toNat_add, hj, hlen]
    show 63 < (m.length % 64 + data.length) % 2 ^ 32 ↔ _
    rw [Nat.mod_eq_of_lt (by omega)]
  unfold update
  simp only []
  by_cases hc : 63 < m.length % 64 + data.length
  · -- the piece fills the block
    rw [if_pos (hfull.mpr hc)]
    obtain ⟨i, hi⟩ : ∃ i, i = (64 : Word) - ((s.count0 >>> 3) &&& 63) := ⟨_, rfl⟩
    have hiNat : i.toNat = 64 - m.length % 64 := by
      rw [hi, BitVec.toNat_sub, hj]
      show (2 ^ 32 - m.length % 64 + 64) % 2 ^ 32 = _
      omega
    have hhead : (data.take i.toNat).length = i.toNat := by
      rw [List.length_take]
      omega
    obtain ⟨buffer', hcopy, htake⟩ := memcpy?_eq s.buffer
      (show ((s.count0 >>> 3) &&& 63).toNat + (data.take i.toNat).length ≤ 64 by omega)
    have hbuffer : buffer'.toList = (absorbed m).pending ++ data.take i.toNat := by
      rw [← h.buffer, hpending, ← hj, ← htake, List.take_of_length_le]
      rw [Vector.length_toList]
      omega
    obtain ⟨state', i', hrun, hle, hlast, habsorb⟩ := transformBlocks_eq data len hlen hmax
      (len.toNat + 1) (transform s.state buffer'.toList) i (by omega) (by omega)
    have hrest : (len - i').toNat = data.length - i'.toNat := by
      rw [BitVec.toNat_sub_of_le (by rw [BitVec.le_def]; omega), hlen]
    have hread : read? data 0 i.toNat = some (data.take i.toNat) := by
      rw [read?_eq (by omega), List.drop_zero]
    have hread' : read? data i'.toNat (data.length - i'.toNat) = some (data.drop i'.toNat) := by
      rw [read?_eq (by omega), List.take_of_length_le (by rw [List.length_drop])]
    obtain ⟨buffer'', hcopy', htake'⟩ := memcpy?_eq buffer'
      (show 0 + (data.drop i'.toNat).length ≤ 64 by rw [List.length_drop]; omega)
    have hkept := absorb_of_lt (f := compress) (start 64 (by decide) state')
      (m := data.drop i'.toNat) (by
        show 0 + _ < 64
        rw [List.length_drop]
        omega)
    have hsplit : absorbed (m ++ data) =
        absorb compress (start 64 (by decide) state') (data.drop i'.toNat) := by
      rw [absorbed_append, ← habsorb, transform_eq, hbuffer, h.state]
      conv_lhs => rw [← List.take_append_drop i.toNat data]
      rw [absorb_append, absorb_of_eq (absorbed m) (by omega)]
    simp only [← hi, hread, hcopy, hrun, hrest, hread', hcopy', Option.bind_eq_bind,
      Option.bind_some]
    refine ⟨_, rfl, ?_, ?_, hcount0, hcount1⟩
    · show state' = _
      rw [hsplit, hkept]
      rfl
    · show buffer''.toList.take _ = _
      rw [hsplit, hkept]
      show buffer''.toList.take (data.drop i'.toNat).length = data.drop i'.toNat
      rw [Nat.zero_add, List.take_zero, List.nil_append] at htake'
      exact htake'
  · rw [if_neg (fun hc' => hc (hfull.mp hc'))]
    have hrest : read? data 0 len.toNat = some data := by
      rw [read?_eq (by omega), List.drop_zero, hlen, List.take_length]
    obtain ⟨buffer', hcopy, htake⟩ := memcpy?_eq s.buffer
      (show ((s.count0 >>> 3) &&& 63).toNat + data.length ≤ 64 by omega)
    have hkept := absorb_of_lt (f := compress) (absorbed m) (m := data) (by omega)
    rw [hrest, Option.bind_eq_bind, Option.bind_some, hcopy]
    refine ⟨_, rfl, ?_, ?_, hcount0, hcount1⟩
    · show s.state = _
      rw [absorbed_append, hkept, h.state]
    · show buffer'.toList.take _ = _
      rw [absorbed_append, hkept]
      show buffer'.toList.take ((absorbed m).pending ++ data).length = (absorbed m).pending ++ data
      rw [List.length_append, hpending, ← hj, htake, hj, ← hpending, h.buffer]

/-! ## The digest -/

/-- The mask of `Final` is that of the index, in bits. -/
theorem and_504 (x : Word) : x &&& (504 : Word) = ((x >>> 3) &&& (63 : Word)) <<< 3 := by
  apply BitVec.eq_of_getLsbD_eq
  intro i hi
  simp only [BitVec.getLsbD_and, BitVec.getLsbD_shiftLeft, BitVec.getLsbD_ushiftRight]
  interval_cases i <;> simp

/-- The loop of `Final` ends where eight bytes of the block are left. -/
theorem Holds.filled_iff {s : CSHA1} {m : List UInt8} (h : Holds s m) :
    s.count0 &&& 504 = 448 ↔ m.length % 64 = 56 := by
  rw [and_504, ← h.index, ← BitVec.toNat_inj, BitVec.toNat_shiftLeft, Nat.shiftLeft_eq]
  have hlt : ((s.count0 >>> 3) &&& 63).toNat < 64 := by
    rw [h.index]
    exact Nat.mod_lt _ (by decide)
  show _ = 448 ↔ _
  omega

/-- The zeros `Final` puts behind the mark. -/
theorem fill_holds (k : ℕ) (fuel : ℕ) {s : CSHA1} {m : List UInt8} (h : Holds s m)
    (hk : k < 64) (hend : (m.length + k) % 64 = 56) (hfuel : k < fuel) :
    ∃ s', fill fuel s = some s' ∧ Holds s' (m ++ List.replicate k 0) := by
  induction k generalizing fuel s m with
  | zero =>
    obtain ⟨fuel, rfl⟩ : ∃ f, fuel = f + 1 := ⟨fuel - 1, by omega⟩
    refine ⟨s, ?_, ?_⟩
    · unfold fill
      rw [if_neg (not_not.mpr (h.filled_iff.mpr (by omega)))]
    · rw [List.replicate_zero, List.append_nil]
      exact h
  | succ k ih =>
    obtain ⟨fuel, rfl⟩ : ∃ f, fuel = f + 1 := ⟨fuel - 1, by omega⟩
    have hgo : s.count0 &&& 504 ≠ 448 := by
      intro hc
      have hfull := h.filled_iff.mp hc
      omega
    obtain ⟨s₁, hs₁, h₁⟩ := update_holds h (show (1 : Word).toNat = [0].length from rfl) (by decide)
    obtain ⟨s', hs', h'⟩ := ih fuel h₁ (by omega) (by
      rw [List.length_append, List.length_singleton]
      omega) (by omega)
    refine ⟨s', ?_, ?_⟩
    · unfold fill
      rw [if_pos hgo, hs₁]
      exact hs'
    · rw [List.replicate_succ, ← List.singleton_append, ← List.append_assoc]
      exact h'

/-- The lowest byte of a shifted word. -/
theorem toNat_low (x : Word) (k : ℕ) :
    (((x >>> k) &&& 255).setWidth 8).toNat = x.toNat / 2 ^ k % 256 := by
  rw [BitVec.toNat_setWidth, BitVec.toNat_and, BitVec.toNat_ushiftRight, Nat.shiftRight_eq_div_pow]
  have hand : x.toNat / 2 ^ k &&& (255 : Word).toNat = x.toNat / 2 ^ k % 256 :=
    Nat.and_two_pow_sub_one_eq_mod _ 8
  rw [hand]
  exact Nat.mod_mod _ _

theorem toNat_extract {w : ℕ} (x : BitVec w) (k : ℕ) :
    (x.extractLsb' k 8).toNat = x.toNat / 2 ^ k % 256 := by
  rw [BitVec.extractLsb'_toNat, Nat.shiftRight_eq_div_pow]

/-- A shift and a mask give a byte of the word. -/
theorem low_eq_byteOf (x : Word) (i : ℕ) :
    (⟨((x >>> (i * 8)) &&& 255).setWidth 8⟩ : UInt8) = byteOf x i := by
  apply UInt8.eq_of_toBitVec_eq
  show ((x >>> (i * 8)) &&& 255).setWidth 8 = x.extractLsb' (8 * i) 8
  rw [← BitVec.toNat_inj, toNat_low, toNat_extract, Nat.mul_comm]

/-- The digest is the words with their first bytes first. -/
theorem toList_digestOf (state : Hash) :
    (digestOf state).toList = state.words.flatMap (beBytes 4) := by
  unfold digestOf beBytes
  simp only [low_eq_byteOf, Vector.toList_ofFn]
  generalize (byteOf : Word → ℕ → UInt8) = byte
  rfl

/-- The count that is appended is the length in bits. -/
theorem Holds.finalcount_eq {s : CSHA1} {m : List UInt8} (h : Holds s m) :
    s.finalcount = beBytes 8 (BitVec.ofNat 64 (8 * m.length)) := by
  unfold finalcount beBytes
  apply List.map_congr_left
  intro i hi
  rw [List.mem_range] at hi
  have h0 := h.count0
  have h1 := h.count1
  apply UInt8.eq_of_toBitVec_eq
  show (((if 4 ≤ i then s.count0 else s.count1) >>> ((3 - i % 4) * 8)) &&& 255).setWidth 8 =
    (BitVec.ofNat 64 (8 * m.length)).extractLsb' (8 * (8 - 1 - i)) 8
  rw [← BitVec.toNat_inj, toNat_low, toNat_extract, BitVec.toNat_ofNat]
  -- the high word holds the first four bytes, the low word the others
  interval_cases i <;>
    simp only [h0, h1, Nat.reduceLeDiff, if_true, if_false, Nat.reduceMod, Nat.reduceSub,
      Nat.reduceMul, Nat.reducePow] <;>
    omega

/-- **The digest** of the message the object holds. -/
theorem final_digest {s : CSHA1} {m : List UInt8} (h : Holds s m) :
    ∃ s', s.final = some s' ∧ s'.getHash = sha1 m := by
  obtain ⟨s₁, hs₁, h₁⟩ := update_holds h (show (1 : Word).toNat = [128].length from rfl) (by decide)
  obtain ⟨s₂, hs₂, h₂⟩ := fill_holds (zeros m.length) 65 h₁
    (Nat.mod_lt _ (by decide)) (by
      rw [List.length_append, List.length_singleton]
      unfold zeros
      omega) (by
      have hlt : zeros m.length < 64 := Nat.mod_lt _ (by decide)
      omega)
  obtain ⟨s₃, hs₃, h₃⟩ := update_holds h₂
    (show (8 : Word).toNat = s.finalcount.length by rw [h.finalcount_eq]; rfl) (by
      rw [h.finalcount_eq, beBytes, List.length_map, List.length_range]
      decide)
  have hrun : ∃ s', s.final = some s' ∧ s'.digest = digestOf s₃.state := by
    unfold final
    simp only [hs₁, hs₂, hs₃, Option.bind_eq_bind, Option.bind_some]
    exact ⟨_, rfl, rfl⟩
  obtain ⟨s', hs', hdigest⟩ := hrun
  refine ⟨s', hs', ?_⟩
  -- the pieces `Final` adds are the padding of the standard
  have hpad : m ++ [128] ++ List.replicate (zeros m.length) 0 ++ s.finalcount = pad m := by
    rw [h.finalcount_eq]
    rfl
  have hchain := (absorb_start (f := compress) (by decide : 0 < 64) initial (pad m)).1
  rw [hpad] at h₃
  rw [getHash, hdigest, toList_digestOf, h₃.state, sha1, absorbed, hchain]

/-- **The hash of a message in pieces.** However a message is cut into pieces, `CSHA1` gives
the hash of the whole message, and never reads or writes outside its arrays. -/
theorem hashPieces_eq_sha1 (memory : CSHA1) (pieces : List (List UInt8))
    (h : ∀ piece ∈ pieces, piece.length + 63 < 2 ^ 32) :
    hashPieces memory pieces = some (sha1 pieces.flatten) := by
  have hrun : ∀ (pieces : List (List UInt8)) (s : CSHA1) (m : List UInt8), Holds s m →
      (∀ piece ∈ pieces, piece.length + 63 < 2 ^ 32) →
      ∃ s', pieces.foldlM (fun s piece => s.update piece (BitVec.ofNat 32 piece.length)) s =
        some s' ∧ Holds s' (m ++ pieces.flatten) := by
    intro pieces
    induction pieces with
    | nil =>
      intro s m hs _
      refine ⟨s, rfl, ?_⟩
      rw [List.flatten_nil, List.append_nil]
      exact hs
    | cons piece pieces ih =>
      intro s m hs hlen
      have hpiece := hlen piece List.mem_cons_self
      have hword : (BitVec.ofNat 32 piece.length).toNat = piece.length := by
        rw [BitVec.toNat_ofNat, Nat.mod_eq_of_lt (by omega)]
      obtain ⟨s₁, hs₁, h₁⟩ := update_holds hs hword hpiece
      obtain ⟨s', hs', h'⟩ := ih s₁ (m ++ piece) h₁
        (fun p hp => hlen p (List.mem_cons_of_mem _ hp))
      refine ⟨s', ?_, ?_⟩
      · rw [List.foldlM_cons, hs₁]
        exact hs'
      · rw [List.flatten_cons, ← List.append_assoc]
        exact h'
  obtain ⟨s, hs, hholds⟩ := hrun pieces (new memory) [] (new_holds memory) h
  obtain ⟨s', hs', hdigest⟩ := final_digest hholds
  rw [List.nil_append] at hdigest
  unfold hashPieces
  simp only [hs, hs', hdigest, Option.bind_eq_bind, Option.bind_some]
  rfl

/-- Two pieces, in an object over other memory. -/
theorem hashPieces_two :
    hashPieces ⟨initial, 1, 2, Vector.replicate 64 7, Vector.replicate 20 9⟩ [[97], [98, 99]] =
      some (sha1 [[97], [98, 99]].flatten) :=
  hashPieces_eq_sha1 _ _ (by decide)

end CSHA1

end Netxy.Sha1
