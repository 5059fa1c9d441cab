import Netxy.Lib.ByteOrder

/-!
# `Packet` and `ReadPacket`

The writer and the reader of `packet.h` on a little-endian host. A buffer is the list of its
bytes. A failed assertion ends a write or a read without a result. Lengths are those of objects
in memory, so that sums of two of them stay below 2^64.
-/

namespace Netxy.PacketFormat
open ByteOrder

/-! ## Byte order -/

namespace Socketendian

/-- `htobe16` on a little-endian host, and the other macros of `endian.h`. -/
def htobe16 (x : UInt16) : UInt16 := UInt16.ofNat (byteSwap 2 x.toNat)
def htobe32 (x : UInt32) : UInt32 := UInt32.ofNat (byteSwap 4 x.toNat)
def htobe64 (x : UInt64) : UInt64 := UInt64.ofNat (byteSwap 8 x.toNat)
def be16toh (x : UInt16) : UInt16 := UInt16.ofNat (byteSwap 2 x.toNat)
def be32toh (x : UInt32) : UInt32 := UInt32.ofNat (byteSwap 4 x.toNat)
def be64toh (x : UInt64) : UInt64 := UInt64.ofNat (byteSwap 8 x.toNat)

/-- `socketendian::hostToNetwork16`. -/
def hostToNetwork16 (host16 : UInt16) (convert : Bool) : UInt16 :=
  if convert then htobe16 host16 else host16

/-- `socketendian::hostToNetwork32`. -/
def hostToNetwork32 (host32 : UInt32) (convert : Bool) : UInt32 :=
  if convert then htobe32 host32 else host32

/-- `socketendian::hostToNetwork64`. -/
def hostToNetwork64 (host64 : UInt64) (convert : Bool) : UInt64 :=
  if convert then htobe64 host64 else host64

/-- `socketendian::networkToHost16`. -/
def networkToHost16 (net16 : UInt16) (convert : Bool) : UInt16 :=
  if convert then be16toh net16 else net16

/-- `socketendian::networkToHost32`. -/
def networkToHost32 (net32 : UInt32) (convert : Bool) : UInt32 :=
  if convert then be32toh net32 else net32

/-- `socketendian::networkToHost64`. -/
def networkToHost64 (net64 : UInt64) (convert : Bool) : UInt64 :=
  if convert then be64toh net64 else net64

/-- Both ways convert, or neither does. -/
theorem networkToHost16_hostToNetwork16 (x : UInt16) (convert : Bool) :
    networkToHost16 (hostToNetwork16 x convert) convert = x := by
  cases convert with
  | false => rfl
  | true =>
    apply UInt16.toNat_inj.mp
    simp only [networkToHost16, hostToNetwork16, be16toh, htobe16, if_true, UInt16.toNat_ofNat']
    exact byteSwap_mod_byteSwap_mod (w := 2) x.toNat_lt

theorem networkToHost32_hostToNetwork32 (x : UInt32) (convert : Bool) :
    networkToHost32 (hostToNetwork32 x convert) convert = x := by
  cases convert with
  | false => rfl
  | true =>
    apply UInt32.toNat_inj.mp
    simp only [networkToHost32, hostToNetwork32, be32toh, htobe32, if_true, UInt32.toNat_ofNat']
    exact byteSwap_mod_byteSwap_mod (w := 4) x.toNat_lt

theorem networkToHost64_hostToNetwork64 (x : UInt64) (convert : Bool) :
    networkToHost64 (hostToNetwork64 x convert) convert = x := by
  cases convert with
  | false => rfl
  | true =>
    apply UInt64.toNat_inj.mp
    simp only [networkToHost64, hostToNetwork64, be64toh, htobe64, if_true, UInt64.toNat_ofNat']
    exact byteSwap_mod_byteSwap_mod (w := 8) x.toNat_lt

end Socketendian

open Socketendian

/-- A type of values that are copied to and from memory: how many bytes it has, the unsigned
number they are, and the conversions of its write and its read method. -/
class Scalar (α : Type) where
  width : ℕ
  toNat : α → ℕ
  ofNat : ℕ → α
  hostToNetwork : α → Bool → α
  networkToHost : α → Bool → α
  toNat_lt : ∀ x, toNat x < 256 ^ width
  ofNat_toNat : ∀ x, ofNat (toNat x) = x
  networkToHost_hostToNetwork : ∀ x convert, networkToHost (hostToNetwork x convert) convert = x

/-- One byte, 0 or 1. -/
instance scalarBool : Scalar Bool where
  width := 1
  toNat := Bool.toNat
  ofNat n := n != 0
  hostToNetwork x _ := x
  networkToHost x _ := x
  toNat_lt := by decide
  ofNat_toNat := by decide
  networkToHost_hostToNetwork _ _ := rfl

instance scalarUInt8 : Scalar UInt8 where
  width := 1
  toNat := UInt8.toNat
  ofNat := UInt8.ofNat
  hostToNetwork x _ := x
  networkToHost x _ := x
  toNat_lt := UInt8.toNat_lt
  ofNat_toNat _ := UInt8.ofNat_toNat
  networkToHost_hostToNetwork _ _ := rfl

instance scalarInt8 : Scalar Int8 where
  width := 1
  toNat x := x.toUInt8.toNat
  ofNat n := (UInt8.ofNat n).toInt8
  hostToNetwork x _ := x
  networkToHost x _ := x
  toNat_lt x := x.toUInt8.toNat_lt
  ofNat_toNat x := by rw [UInt8.ofNat_toNat, Int8.toInt8_toUInt8]
  networkToHost_hostToNetwork _ _ := rfl

instance scalarUInt16 : Scalar UInt16 where
  width := 2
  toNat := UInt16.toNat
  ofNat := UInt16.ofNat
  hostToNetwork := hostToNetwork16
  networkToHost := networkToHost16
  toNat_lt := UInt16.toNat_lt
  ofNat_toNat _ := UInt16.ofNat_toNat
  networkToHost_hostToNetwork := networkToHost16_hostToNetwork16

instance scalarInt16 : Scalar Int16 where
  width := 2
  toNat x := x.toUInt16.toNat
  ofNat n := (UInt16.ofNat n).toInt16
  hostToNetwork x convert := (hostToNetwork16 x.toUInt16 convert).toInt16
  networkToHost x convert := (networkToHost16 x.toUInt16 convert).toInt16
  toNat_lt x := x.toUInt16.toNat_lt
  ofNat_toNat x := by rw [UInt16.ofNat_toNat, Int16.toInt16_toUInt16]
  networkToHost_hostToNetwork x convert := by
    rw [UInt16.toUInt16_toInt16, networkToHost16_hostToNetwork16, Int16.toInt16_toUInt16]

instance scalarUInt32 : Scalar UInt32 where
  width := 4
  toNat := UInt32.toNat
  ofNat := UInt32.ofNat
  hostToNetwork := hostToNetwork32
  networkToHost := networkToHost32
  toNat_lt := UInt32.toNat_lt
  ofNat_toNat _ := UInt32.ofNat_toNat
  networkToHost_hostToNetwork := networkToHost32_hostToNetwork32

instance scalarInt32 : Scalar Int32 where
  width := 4
  toNat x := x.toUInt32.toNat
  ofNat n := (UInt32.ofNat n).toInt32
  hostToNetwork x convert := (hostToNetwork32 x.toUInt32 convert).toInt32
  networkToHost x convert := (networkToHost32 x.toUInt32 convert).toInt32
  toNat_lt x := x.toUInt32.toNat_lt
  ofNat_toNat x := by rw [UInt32.ofNat_toNat, Int32.toInt32_toUInt32]
  networkToHost_hostToNetwork x convert := by
    rw [UInt32.toUInt32_toInt32, networkToHost32_hostToNetwork32, Int32.toInt32_toUInt32]

instance scalarUInt64 : Scalar UInt64 where
  width := 8
  toNat := UInt64.toNat
  ofNat := UInt64.ofNat
  hostToNetwork := hostToNetwork64
  networkToHost := networkToHost64
  toNat_lt := UInt64.toNat_lt
  ofNat_toNat _ := UInt64.ofNat_toNat
  networkToHost_hostToNetwork := networkToHost64_hostToNetwork64

instance scalarInt64 : Scalar Int64 where
  width := 8
  toNat x := x.toUInt64.toNat
  ofNat n := (UInt64.ofNat n).toInt64
  hostToNetwork x convert := (hostToNetwork64 x.toUInt64 convert).toInt64
  networkToHost x convert := (networkToHost64 x.toUInt64 convert).toInt64
  toNat_lt x := x.toUInt64.toNat_lt
  ofNat_toNat x := by rw [UInt64.ofNat_toNat, Int64.toInt64_toUInt64]
  networkToHost_hostToNetwork x convert := by
    rw [UInt64.toUInt64_toInt64, networkToHost64_hostToNetwork64, Int64.toInt64_toUInt64]

/-- The bytes at `(char*)&value`. -/
def bytesOf {α : Type} [Scalar α] (value : α) : List UInt8 :=
  leBytes (Scalar.width α) (Scalar.toNat value)

/-- `*(T*)` of these bytes. -/
def valueOf (α : Type) [Scalar α] (bytes : List UInt8) : α := Scalar.ofNat (ofLeBytes bytes)

/-- A value takes as many bytes as its type has. -/
theorem length_bytesOf {α : Type} [Scalar α] (value : α) :
    (bytesOf value).length = Scalar.width α := length_leBytes _ _

/-- The bytes of a value give it back. -/
theorem valueOf_bytesOf {α : Type} [Scalar α] (value : α) : valueOf α (bytesOf value) = value := by
  rw [valueOf, bytesOf, ofLeBytes_leBytes (Scalar.toNat_lt value), Scalar.ofNat_toNat]

/-! ## The writer -/

/-- `malloc`: for the `n`-th call and a size a block of that size, which may hold anything, or
a null pointer. -/
structure Malloc where
  block : ℕ → ℕ → Option (List UInt8)
  length_block : ∀ n size b, block n size = some b → b.length = size

/-- No call returns a null pointer. -/
def Malloc.Succeeds (m : Malloc) : Prop := ∀ n size, (m.block n size).isSome

/-- `Packet`, less `mIsFinish`, which only `getLen` and the destructor look at. `mallocs` counts
the calls of `malloc`; a block that is given up is freed. -/
structure Packet where
  mBigEndian : Bool
  mPos : ℕ
  mMaxLen : ℕ
  mBuffer : List UInt8
  mIsAutoMalloc : Bool
  mallocs : ℕ

namespace Packet

/-- The constructor, with a buffer of `len` bytes. -/
def new (buffer : List UInt8) (useBigEndian isAutoMalloc : Bool) : Packet :=
  ⟨useBigEndian, 0, buffer.length, buffer, isAutoMalloc, 0⟩

/-- `growBuffer`. -/
def growBuffer (m : Malloc) (p : Packet) (len : ℕ) : Packet :=
  if p.mIsAutoMalloc = true ∧ p.mMaxLen < p.mPos + len then
    match m.block p.mallocs (p.mMaxLen + len) with
    | some newBuffer =>
      { p with
        -- `memcpy(newBuffer, mBuffer, mPos)`
        mBuffer := p.mBuffer.take p.mPos ++ newBuffer.drop p.mPos
        mMaxLen := p.mMaxLen + len
        mallocs := p.mallocs + 1 }
    | none => { p with mallocs := p.mallocs + 1 }
  else p

/-- `memcpy` to an offset of the buffer. -/
def copyTo (p : Packet) (offset : ℕ) (bytes : List UInt8) : Packet :=
  { p with
    mBuffer := p.mBuffer.take offset ++ bytes ++ p.mBuffer.drop (offset + bytes.length) }

/-- `writeBuffer`; `none` where its assertion fails. -/
def writeBuffer (m : Malloc) (p : Packet) (buffer : List UInt8) : Option Packet :=
  let p := p.growBuffer m buffer.length
  if p.mPos + buffer.length ≤ p.mMaxLen then
    some { p.copyTo p.mPos buffer with mPos := p.mPos + buffer.length }
  else none

/-- The body of the methods for one value. -/
def writeScalar {α : Type} [Scalar α] (m : Malloc) (p : Packet) (value : α) : Option Packet :=
  p.writeBuffer m (bytesOf (Scalar.hostToNetwork value p.mBigEndian))

def writeBool (m : Malloc) (p : Packet) (value : Bool) : Option Packet := p.writeScalar m value
def writeINT8 (m : Malloc) (p : Packet) (value : Int8) : Option Packet := p.writeScalar m value
def writeUINT8 (m : Malloc) (p : Packet) (value : UInt8) : Option Packet := p.writeScalar m value
def writeINT16 (m : Malloc) (p : Packet) (value : Int16) : Option Packet := p.writeScalar m value
def writeUINT16 (m : Malloc) (p : Packet) (value : UInt16) : Option Packet :=
  p.writeScalar m value
def writeINT32 (m : Malloc) (p : Packet) (value : Int32) : Option Packet := p.writeScalar m value
def writeUINT32 (m : Malloc) (p : Packet) (value : UInt32) : Option Packet :=
  p.writeScalar m value
def writeINT64 (m : Malloc) (p : Packet) (value : Int64) : Option Packet := p.writeScalar m value
def writeUINT64 (m : Malloc) (p : Packet) (value : UInt64) : Option Packet :=
  p.writeScalar m value

/-- `Packet::writeBinary`: the length as an `uint32_t`, and the bytes. -/
def writeBinary (m : Malloc) (p : Packet) (binary : List UInt8) : Option Packet := do
  let p ← p.writeUINT32 m (UInt32.ofNat binary.length)
  p.writeBuffer m binary

/-- `claimBinary`: the packet, and the offset where the caller may write. -/
def claimBinary (m : Malloc) (p : Packet) (binaryLen : ℕ) : Option (Packet × ℕ) := do
  let p := p.growBuffer m (binaryLen + 4)
  if p.mPos + binaryLen + 4 ≤ p.mMaxLen then
    let p ← p.writeUINT32 m (UInt32.ofNat binaryLen)
    return ({ p with mPos := p.mPos + binaryLen }, p.mPos)
  else none

/-- A claim that the caller fills. -/
def claimAndFill (m : Malloc) (p : Packet) (binary : List UInt8) : Option Packet := do
  let (p, offset) ← p.claimBinary m binary.length
  return p.copyTo offset binary

end Packet

/-! ## The reader -/

/-- `ReadPacket`. -/
structure ReadPacket where
  mMaxLen : ℕ
  mBigEndian : Bool
  mPos : ℕ
  mBuffer : List UInt8

namespace ReadPacket

/-- The constructor. -/
def new (buffer : List UInt8) (useBigendian : Bool) : ReadPacket :=
  ⟨buffer.length, useBigendian, 0, buffer⟩

/-- `read<T>`. -/
def read (α : Type) [Scalar α] (r : ReadPacket) : Option (α × ReadPacket) :=
  if r.mPos + Scalar.width α ≤ r.mMaxLen then
    some (valueOf α ((r.mBuffer.drop r.mPos).take (Scalar.width α)),
      { r with mPos := r.mPos + Scalar.width α })
  else none

/-- The body of the methods for one value. -/
def readScalar (α : Type) [Scalar α] (r : ReadPacket) : Option (α × ReadPacket) :=
  (r.read α).map fun x => (Scalar.networkToHost x.1 r.mBigEndian, x.2)

def readBool (r : ReadPacket) : Option (Bool × ReadPacket) := r.readScalar Bool
def readINT8 (r : ReadPacket) : Option (Int8 × ReadPacket) := r.readScalar Int8
def readUINT8 (r : ReadPacket) : Option (UInt8 × ReadPacket) := r.readScalar UInt8
def readINT16 (r : ReadPacket) : Option (Int16 × ReadPacket) := r.readScalar Int16
def readUINT16 (r : ReadPacket) : Option (UInt16 × ReadPacket) := r.readScalar UInt16
def readINT32 (r : ReadPacket) : Option (Int32 × ReadPacket) := r.readScalar Int32
def readUINT32 (r : ReadPacket) : Option (UInt32 × ReadPacket) := r.readScalar UInt32
def readINT64 (r : ReadPacket) : Option (Int64 × ReadPacket) := r.readScalar Int64
def readUINT64 (r : ReadPacket) : Option (UInt64 × ReadPacket) := r.readScalar UInt64

/-- `ReadPacket::readBinary`. -/
def readBinary (r : ReadPacket) : Option (List UInt8 × ReadPacket) := do
  let (len, r) ← r.readUINT32
  if r.mPos + len.toNat ≤ r.mMaxLen then
    return ((r.mBuffer.drop r.mPos).take len.toNat, { r with mPos := r.mPos + len.toNat })
  else return ([], r)

end ReadPacket

/-! ## Sequences of writes and of reads -/

/-- A value with its type. -/
inductive Value
  | bool (value : Bool)
  | int8 (value : Int8)
  | uint8 (value : UInt8)
  | int16 (value : Int16)
  | uint16 (value : UInt16)
  | int32 (value : Int32)
  | uint32 (value : UInt32)
  | int64 (value : Int64)
  | uint64 (value : UInt64)
  | binary (value : List UInt8)

/-- A call of a write method, or a claim that is filled before the next call. -/
inductive Write
  | value (v : Value)
  | claimed (binary : List UInt8)

def Write.toValue : Write → Value
  | .value v => v
  | .claimed binary => .binary binary

/-- The method for a value. -/
def Packet.writeValue (m : Malloc) (p : Packet) : Value → Option Packet
  | .bool value => p.writeBool m value
  | .int8 value => p.writeINT8 m value
  | .uint8 value => p.writeUINT8 m value
  | .int16 value => p.writeINT16 m value
  | .uint16 value => p.writeUINT16 m value
  | .int32 value => p.writeINT32 m value
  | .uint32 value => p.writeUINT32 m value
  | .int64 value => p.writeINT64 m value
  | .uint64 value => p.writeUINT64 m value
  | .binary value => p.writeBinary m value

/-- The call that makes the write. -/
def Packet.write (m : Malloc) (p : Packet) : Write → Option Packet
  | .value v => p.writeValue m v
  | .claimed binary => p.claimAndFill m binary

/-- The method that corresponds to the one a value was written with. -/
def ReadPacket.readLike (r : ReadPacket) : Value → Option (Value × ReadPacket)
  | .bool _ => r.readBool.map (Prod.map .bool id)
  | .int8 _ => r.readINT8.map (Prod.map .int8 id)
  | .uint8 _ => r.readUINT8.map (Prod.map .uint8 id)
  | .int16 _ => r.readINT16.map (Prod.map .int16 id)
  | .uint16 _ => r.readUINT16.map (Prod.map .uint16 id)
  | .int32 _ => r.readINT32.map (Prod.map .int32 id)
  | .uint32 _ => r.readUINT32.map (Prod.map .uint32 id)
  | .int64 _ => r.readINT64.map (Prod.map .int64 id)
  | .uint64 _ => r.readUINT64.map (Prod.map .uint64 id)
  | .binary _ => r.readBinary.map (Prod.map .binary id)

/-- Some writes, one behind the other. -/
def Packet.writeAll (m : Malloc) (p : Packet) (writes : List Write) : Option Packet :=
  writes.foldlM (Packet.write m) p

/-- One read for each of the values. -/
def ReadPacket.readAll : ReadPacket → List Value → Option (List Value × ReadPacket)
  | r, [] => some ([], r)
  | r, v :: vs => do
    let (x, r) ← r.readLike v
    let (xs, r) ← r.readAll vs
    return (x :: xs, r)

/-! ## What a write puts into the buffer -/

/-- The bytes of a value in the buffer. -/
def scalarBytes {α : Type} [Scalar α] (big : Bool) (value : α) : List UInt8 :=
  bytesOf (Scalar.hostToNetwork value big)

/-- The bytes a value takes in the packet. -/
def Value.encode (big : Bool) : Value → List UInt8
  | .bool value => scalarBytes big value
  | .int8 value => scalarBytes big value
  | .uint8 value => scalarBytes big value
  | .int16 value => scalarBytes big value
  | .uint16 value => scalarBytes big value
  | .int32 value => scalarBytes big value
  | .uint32 value => scalarBytes big value
  | .int64 value => scalarBytes big value
  | .uint64 value => scalarBytes big value
  | .binary value => scalarBytes big (UInt32.ofNat value.length) ++ value

namespace Packet

variable {m : Malloc} {p q r : Packet}

/-- The written region. -/
def written (p : Packet) : List UInt8 := p.mBuffer.take p.mPos

/-- `mMaxLen` is the length of the buffer, and `mPos` lies in it. -/
structure Ok (p : Packet) : Prop where
  length : p.mBuffer.length = p.mMaxLen
  pos_le : p.mPos ≤ p.mMaxLen

/-- There is room for `n` more bytes, or it can be made. -/
def Fits (m : Malloc) (p : Packet) (n : ℕ) : Prop :=
  p.mPos + n ≤ p.mMaxLen ∨ (p.mIsAutoMalloc = true ∧ m.Succeeds)

/-- From `p` to `q` the bytes `b` were appended. -/
structure Wrote (b : List UInt8) (p q : Packet) : Prop where
  ok : q.Ok
  written : q.written = p.written ++ b
  bigEndian : q.mBigEndian = p.mBigEndian
  isAutoMalloc : q.mIsAutoMalloc = p.mIsAutoMalloc
  room : ∀ n, p.mPos + b.length + n ≤ p.mMaxLen → q.mPos + n ≤ q.mMaxLen

/-- One write behind the other. -/
theorem Wrote.trans {b c : List UInt8} (h : Wrote b p q) (h' : Wrote c q r) :
    Wrote (b ++ c) p r where
  ok := h'.ok
  written := by rw [h'.written, h.written, List.append_assoc]
  bigEndian := h'.bigEndian.trans h.bigEndian
  isAutoMalloc := h'.isAutoMalloc.trans h.isAutoMalloc
  room n hn := by
    rw [List.length_append] at hn
    have hq := h.room (c.length + n) (by omega)
    exact h'.room n (by omega)

/-- The bytes that were appended need no room any more. -/
theorem Wrote.fits {b : List UInt8} (h : Wrote b p q) {n : ℕ} (hn : p.Fits m (b.length + n)) :
    q.Fits m n := by
  rcases hn with hn | ⟨hauto, hm⟩
  · exact .inl (h.room n (by omega))
  · exact .inr ⟨h.isAutoMalloc.trans hauto, hm⟩

/-- What is written ends at the position. -/
theorem Ok.length_written (hp : p.Ok) : p.written.length = p.mPos := by
  rw [Packet.written, List.length_take, hp.length, min_eq_left hp.pos_le]

/-- Growing keeps what was written. -/
theorem Ok.growBuffer (hp : p.Ok) (m : Malloc) (len : ℕ) : Wrote [] p (p.growBuffer m len) := by
  have hsame : p.written = p.written ++ [] := (List.append_nil _).symm
  unfold Packet.growBuffer
  split_ifs with hfull
  · split
    · rename_i newBuffer hblock
      have hlen : newBuffer.length = p.mMaxLen + len := m.length_block _ _ _ hblock
      have hkept : (p.mBuffer.take p.mPos).length = p.mPos := hp.length_written
      have hpos := hp.pos_le
      refine ⟨⟨?_, ?_⟩, ?_, rfl, rfl, fun n hn => ?_⟩
      · rw [List.length_append, hkept, List.length_drop, hlen]
        change p.mPos + (p.mMaxLen + len - p.mPos) = p.mMaxLen + len
        omega
      · change p.mPos ≤ p.mMaxLen + len
        omega
      · rw [Packet.written, Packet.written, List.append_nil]
        exact List.take_left' hkept
      · change p.mPos + n ≤ p.mMaxLen + len
        rw [List.length_nil] at hn
        omega
    · exact ⟨⟨hp.length, hp.pos_le⟩, hsame, rfl, rfl, fun n hn => hn⟩
  · exact ⟨hp, hsame, rfl, rfl, fun n hn => hn⟩

/-- Growing leaves the position where it is. -/
theorem growBuffer_mPos (m : Malloc) (p : Packet) (len : ℕ) : (p.growBuffer m len).mPos = p.mPos := by
  unfold growBuffer
  split_ifs
  · split <;> rfl
  · rfl

/-- After growing there is room, if there was or can be made. -/
theorem room_of_fits {len : ℕ} (h : p.Fits m len) (hp : p.Ok) :
    p.mPos + len ≤ (p.growBuffer m len).mMaxLen := by
  unfold growBuffer
  by_cases hroom : p.mPos + len ≤ p.mMaxLen
  · rw [if_neg (fun hfull => absurd hfull.2 (not_lt.mpr hroom))]
    exact hroom
  · obtain ⟨hauto, hm⟩ := h.resolve_left hroom
    obtain ⟨b, hb⟩ := Option.isSome_iff_exists.mp (hm p.mallocs (p.mMaxLen + len))
    rw [if_pos ⟨hauto, not_le.mp hroom⟩, hb]
    exact Nat.add_le_add_right hp.pos_le len

/-- Bytes copied behind what was written, and the position behind them. -/
theorem Ok.wrote_copyTo (hp : p.Ok) {b : List UInt8} (hroom : p.mPos + b.length ≤ p.mMaxLen) :
    Wrote b p { p.copyTo p.mPos b with mPos := p.mPos + b.length } := by
  have hkept : (p.mBuffer.take p.mPos).length = p.mPos := hp.length_written
  have hlen := hp.length
  refine ⟨⟨?_, hroom⟩, ?_, rfl, rfl, fun n hn => hn⟩
  · simp only [copyTo, List.length_append, hkept, List.length_drop]
    omega
  · simp only [Packet.written, copyTo]
    exact List.take_left' (by rw [List.length_append, hkept])

/-- The bytes stand behind what was written before. -/
theorem Ok.wrote_writeBuffer (hp : p.Ok) {b : List UInt8} (h : p.writeBuffer m b = some q) :
    Wrote b p q := by
  have hgrow := hp.growBuffer m b.length
  obtain ⟨hroom, hq⟩ := Option.ite_none_right_eq_some.mp h
  cases hq
  exact hgrow.trans (hgrow.ok.wrote_copyTo hroom)

/-- Bytes that fit are written. -/
theorem exists_writeBuffer {b : List UInt8} (hp : p.Ok) (h : p.Fits m b.length) :
    ∃ q, p.writeBuffer m b = some q := by
  have hroom := room_of_fits h hp
  rw [← growBuffer_mPos m p b.length] at hroom
  exact ⟨_, if_pos hroom⟩

/-- A scalar is its bytes, in the order that was asked for. -/
theorem Ok.wrote_writeScalar {α : Type} [Scalar α] (hp : p.Ok) {value : α}
    (h : p.writeScalar m value = some q) : Wrote (scalarBytes p.mBigEndian value) p q :=
  hp.wrote_writeBuffer h

/-- A binary is its length and its bytes. -/
theorem Ok.wrote_writeBinary (hp : p.Ok) {binary : List UInt8}
    (h : p.writeBinary m binary = some q) :
    Wrote ((Value.binary binary).encode p.mBigEndian) p q := by
  obtain ⟨r, hr, hq⟩ := Option.bind_eq_some_iff.mp h
  have hlength := hp.wrote_writeScalar hr
  exact hlength.trans (hlength.ok.wrote_writeBuffer hq)

/-- Behind the length the claimed bytes lie where the caller fills them in. -/
theorem Ok.wrote_claimAndFill (hp : p.Ok) {binary : List UInt8}
    (h : p.claimAndFill m binary = some q) :
    Wrote ((Value.binary binary).encode p.mBigEndian) p q := by
  obtain ⟨⟨claimed, offset⟩, hclaim, hq⟩ := Option.bind_eq_some_iff.mp h
  cases hq
  obtain ⟨hroom, hclaim⟩ := Option.ite_none_right_eq_some.mp hclaim
  obtain ⟨r, hr, hclaim⟩ := Option.bind_eq_some_iff.mp hclaim
  cases hclaim
  have hgrow := hp.growBuffer m (binary.length + 4)
  have hlength := hgrow.ok.wrote_writeScalar hr
  have hwidth := length_bytesOf (Scalar.hostToNetwork (UInt32.ofNat binary.length)
    (p.growBuffer m (binary.length + 4)).mBigEndian)
  have hclaimed : r.mPos + binary.length ≤ r.mMaxLen := by
    refine hlength.room _ ?_
    rw [scalarBytes, hwidth]
    change _ + 4 + _ ≤ _
    omega
  have hall := hgrow.trans (hlength.trans (hlength.ok.wrote_copyTo hclaimed))
  rw [hgrow.bigEndian] at hall
  exact hall

/-- Each write puts the encoding of its value there. -/
theorem Ok.wrote_write (hp : p.Ok) {w : Write} (h : p.write m w = some q) :
    Wrote (w.toValue.encode p.mBigEndian) p q := by
  cases w with
  | claimed binary => exact hp.wrote_claimAndFill h
  | value v =>
    cases v with
    | binary value => exact hp.wrote_writeBinary h
    | bool | int8 | uint8 | int16 | uint16 | int32 | uint32 | int64 | uint64 =>
      exact hp.wrote_writeScalar h

/-- Where more fits, less does. -/
theorem Fits.mono {k n : ℕ} (h : p.Fits m n) (hk : k ≤ n) : p.Fits m k :=
  h.imp_left fun hn => le_trans (Nat.add_le_add_left hk _) hn

/-- There is room for the length and for the bytes. -/
theorem Ok.exists_writeBinary (hp : p.Ok) {binary : List UInt8}
    (h : p.Fits m ((Value.binary binary).encode p.mBigEndian).length) :
    ∃ q, p.writeBinary m binary = some q := by
  rw [Value.encode, List.length_append] at h
  obtain ⟨r, hr⟩ := exists_writeBuffer hp (h.mono (Nat.le_add_right _ _))
  have hlength : Wrote (scalarBytes p.mBigEndian (UInt32.ofNat binary.length)) p r :=
    hp.wrote_writeBuffer hr
  obtain ⟨q, hq⟩ := exists_writeBuffer hlength.ok (hlength.fits h)
  exact ⟨q, Option.bind_eq_some_iff.mpr ⟨r, hr, hq⟩⟩

/-- And so for a claim. -/
theorem Ok.exists_claimAndFill (hp : p.Ok) {binary : List UInt8}
    (h : p.Fits m ((Value.binary binary).encode p.mBigEndian).length) :
    ∃ q, p.claimAndFill m binary = some q := by
  have hwidth : ∀ big, (scalarBytes big (UInt32.ofNat binary.length)).length = 4 :=
    fun big => length_bytesOf _
  rw [Value.encode, List.length_append, hwidth, Nat.add_comm] at h
  have hroom := room_of_fits h hp
  rw [← growBuffer_mPos m p (binary.length + 4)] at hroom
  have hgrow := hp.growBuffer m (binary.length + 4)
  obtain ⟨r, hr⟩ := exists_writeBuffer (m := m) hgrow.ok
    (b := scalarBytes (p.growBuffer m (binary.length + 4)).mBigEndian (UInt32.ofNat binary.length))
    (.inl (by rw [hwidth]; omega))
  have hclaim : p.claimBinary m binary.length =
      some ({ r with mPos := r.mPos + binary.length }, r.mPos) := by
    have hcond : (p.growBuffer m (binary.length + 4)).mPos + binary.length + 4 ≤
        (p.growBuffer m (binary.length + 4)).mMaxLen := by omega
    exact (if_pos hcond).trans (Option.bind_eq_some_iff.mpr ⟨r, hr, rfl⟩)
  exact ⟨_, Option.bind_eq_some_iff.mpr ⟨_, hclaim, rfl⟩⟩

/-- A write that fits comes to its end. -/
theorem Ok.exists_write (hp : p.Ok) {w : Write}
    (h : p.Fits m (w.toValue.encode p.mBigEndian).length) : ∃ q, p.write m w = some q := by
  cases w with
  | claimed binary => exact hp.exists_claimAndFill h
  | value v =>
    cases v with
    | binary value => exact hp.exists_writeBinary h
    | bool | int8 | uint8 | int16 | uint16 | int32 | uint32 | int64 | uint64 =>
      exact exists_writeBuffer hp h

/-- The bytes of a sequence of writes. -/
def encodeAll (big : Bool) (writes : List Write) : List UInt8 :=
  writes.flatMap fun w => w.toValue.encode big

/-- The encodings stand one behind the other. -/
theorem Ok.wrote_writeAll (hp : p.Ok) {writes : List Write} (h : p.writeAll m writes = some q) :
    Wrote (encodeAll p.mBigEndian writes) p q := by
  induction writes generalizing p with
  | nil =>
    cases h
    exact ⟨hp, (List.append_nil _).symm, rfl, rfl, fun n hn => hn⟩
  | cons w ws ih =>
    rw [writeAll, List.foldlM_cons] at h
    obtain ⟨r, hr, hq⟩ := Option.bind_eq_some_iff.mp h
    have hfirst := hp.wrote_write hr
    have hrest := ih hfirst.ok hq
    rw [hfirst.bigEndian] at hrest
    exact hfirst.trans hrest

/-- Writes that fit in all are made. -/
theorem Ok.exists_writeAll (hp : p.Ok) {writes : List Write}
    (h : p.Fits m (encodeAll p.mBigEndian writes).length) : ∃ q, p.writeAll m writes = some q := by
  induction writes generalizing p with
  | nil => exact ⟨p, rfl⟩
  | cons w ws ih =>
    rw [encodeAll, List.flatMap_cons, List.length_append] at h
    obtain ⟨r, hr⟩ := hp.exists_write (h.mono (Nat.le_add_right _ _))
    have hfirst := hp.wrote_write hr
    have hfits := hfirst.fits h
    rw [← hfirst.bigEndian] at hfits
    obtain ⟨q, hq⟩ := ih hfirst.ok hfits
    refine ⟨q, ?_⟩
    rw [writeAll, List.foldlM_cons]
    exact Option.bind_eq_some_iff.mpr ⟨r, hr, hq⟩

end Packet

/-! ## What a read makes of it -/

namespace ReadPacket

/-- A reader of the buffer behind the part `pre` of it. -/
def behind (big : Bool) (pre buffer : List UInt8) : ReadPacket :=
  ⟨buffer.length, big, pre.length, buffer⟩

variable (big : Bool) (pre post : List UInt8)

/-- A scalar that stands at the position is read, and the position moves behind it. -/
theorem readScalar_scalarBytes {α : Type} [Scalar α] (value : α) :
    (behind big pre (pre ++ scalarBytes big value ++ post)).readScalar α =
      some (value, behind big (pre ++ scalarBytes big value)
        (pre ++ scalarBytes big value ++ post)) := by
  have hlen : (scalarBytes big value).length = Scalar.width α := length_bytesOf _
  have hroom : pre.length + Scalar.width α ≤ (pre ++ scalarBytes big value ++ post).length := by
    rw [List.length_append, List.length_append, hlen]
    exact Nat.le_add_right _ _
  have hbytes : ((pre ++ scalarBytes big value ++ post).drop pre.length).take (Scalar.width α) =
      scalarBytes big value := by
    rw [List.append_assoc, List.drop_left, ← hlen, List.take_left]
  have hvalue : valueOf α (((pre ++ scalarBytes big value ++ post).drop pre.length).take
      (Scalar.width α)) = Scalar.hostToNetwork value big := by
    rw [hbytes, scalarBytes, valueOf_bytesOf]
  have hpos : pre.length + Scalar.width α = (pre ++ scalarBytes big value).length := by
    rw [List.length_append, hlen]
  have hread : (behind big pre (pre ++ scalarBytes big value ++ post)).read α =
      some (Scalar.hostToNetwork value big, behind big (pre ++ scalarBytes big value)
        (pre ++ scalarBytes big value ++ post)) := by
    refine (if_pos hroom).trans (congrArg some ?_)
    exact Prod.ext hvalue (congrArg (fun n => ReadPacket.mk _ _ n _) hpos)
  rw [readScalar, hread, Option.map_some]
  exact congrArg (fun x => some (x, _)) (Scalar.networkToHost_hostToNetwork value big)

/-- So is a binary whose length the four bytes can say. -/
theorem readBinary_encode {binary : List UInt8} (hlen : binary.length < 2 ^ 32) :
    (behind big pre (pre ++ (Value.binary binary).encode big ++ post)).readBinary =
      some (binary, behind big (pre ++ (Value.binary binary).encode big)
        (pre ++ (Value.binary binary).encode big ++ post)) := by
  let prefixBytes := scalarBytes big (UInt32.ofNat binary.length)
  have hread := readScalar_scalarBytes big pre (binary ++ post) (UInt32.ofNat binary.length)
  have hnat : (UInt32.ofNat binary.length).toNat = binary.length := by
    rw [UInt32.toNat_ofNat', Nat.mod_eq_of_lt hlen]
  have hbuffer : pre ++ (Value.binary binary).encode big ++ post =
      pre ++ prefixBytes ++ (binary ++ post) := by
    simp only [Value.encode, prefixBytes, List.append_assoc]
  have hroom : (pre ++ prefixBytes).length + binary.length ≤
      (pre ++ prefixBytes ++ (binary ++ post)).length := by
    simp only [List.length_append]
    omega
  have hbytes : ((pre ++ prefixBytes ++ (binary ++ post)).drop (pre ++ prefixBytes).length).take
      binary.length = binary := by
    rw [List.drop_left, List.take_left]
  rw [hbuffer]
  refine Option.bind_eq_some_iff.mpr ⟨_, hread, ?_⟩
  simp only [behind, hnat]
  rw [if_pos hroom, hbytes]
  simp only [Value.encode, List.length_append, prefixBytes, pure, Nat.add_assoc]

/-- The length of a binary fits into its 32 bits. -/
def Short : Value → Prop
  | .binary value => value.length < 2 ^ 32
  | _ => True

/-- So is every value. -/
theorem readLike_encode {v : Value} (hv : Short v) :
    (behind big pre (pre ++ v.encode big ++ post)).readLike v =
      some (v, behind big (pre ++ v.encode big) (pre ++ v.encode big ++ post)) := by
  cases v with
  | binary value =>
    rw [readLike, readBinary_encode big pre post hv]
    rfl
  | bool value | int8 value | uint8 value | int16 value | uint16 value | int32 value
  | uint32 value | int64 value | uint64 value =>
    exact congrArg (Option.map _) (readScalar_scalarBytes big pre post value)

/-- So are some values, one behind the other. -/
theorem readAll_encode {vs : List Value} (hvs : ∀ v ∈ vs, Short v) :
    (behind big pre (pre ++ vs.flatMap (Value.encode big))).readAll vs =
      some (vs, behind big (pre ++ vs.flatMap (Value.encode big))
        (pre ++ vs.flatMap (Value.encode big))) := by
  induction vs generalizing pre with
  | nil =>
    rw [List.flatMap_nil, List.append_nil]
    rfl
  | cons v vs ih =>
    have hfirst := readLike_encode big pre (vs.flatMap (Value.encode big))
      (hvs v List.mem_cons_self)
    have hrest := ih (pre ++ v.encode big) fun x hx => hvs x (List.mem_cons_of_mem v hx)
    rw [List.flatMap_cons, ← List.append_assoc]
    refine Option.bind_eq_some_iff.mpr ⟨_, hfirst, ?_⟩
    exact Option.bind_eq_some_iff.mpr ⟨_, hrest, rfl⟩

end ReadPacket

/-! ## The round trip -/

/-- What is written is read back by the corresponding methods, which end at the writer's
position: any writes whose binaries are shorter than 2^32 bytes, into a buffer that is large
enough or grows, as long as `malloc` succeeds. -/
theorem read_written (m : Malloc) (buffer : List UInt8) (useBigEndian isAutoMalloc : Bool)
    (writes : List Write) (hshort : ∀ w ∈ writes, ReadPacket.Short w.toValue)
    (hfits : (Packet.new buffer useBigEndian isAutoMalloc).Fits m
      (Packet.encodeAll useBigEndian writes).length) :
    ∃ p r, (Packet.new buffer useBigEndian isAutoMalloc).writeAll m writes = some p ∧
      (ReadPacket.new p.written useBigEndian).readAll (writes.map Write.toValue) =
        some (writes.map Write.toValue, r) ∧
      r.mPos = p.mPos := by
  have hnew : (Packet.new buffer useBigEndian isAutoMalloc).Ok := ⟨rfl, Nat.zero_le _⟩
  obtain ⟨p, hp⟩ := hnew.exists_writeAll hfits
  have hwrote := hnew.wrote_writeAll hp
  have hregion : p.written = (writes.map Write.toValue).flatMap (Value.encode useBigEndian) := by
    rw [hwrote.written, List.flatMap_map]
    rfl
  have hvalues : ∀ v ∈ writes.map Write.toValue, ReadPacket.Short v := by
    intro v hv
    obtain ⟨w, hw, rfl⟩ := List.mem_map.mp hv
    exact hshort w hw
  have hread := ReadPacket.readAll_encode useBigEndian [] hvalues
  rw [List.nil_append, ← hregion] at hread
  exact ⟨p, _, hp, hread, hwrote.ok.length_written⟩

/-- A `malloc` whose blocks hold zeros. -/
def zeroMalloc : Malloc where
  block _ size := some (List.replicate size 0)
  length_block _ size b h := by
    cases h
    exact List.length_replicate

/-- A packet that starts with a buffer of one byte and grows. -/
theorem read_written_growing :
    ∃ p r, (Packet.new [7] true true).writeAll zeroMalloc
        [.value (.int16 (-2)), .claimed [1, 2, 3], .value (.bool true)] = some p ∧
      (ReadPacket.new p.written true).readAll
          [.int16 (-2), .binary [1, 2, 3], .bool true] =
        some ([.int16 (-2), .binary [1, 2, 3], .bool true], r) ∧
      r.mPos = p.mPos := by
  refine read_written zeroMalloc [7] true true
    [.value (.int16 (-2)), .claimed [1, 2, 3], .value (.bool true)] ?_ ?_
  · simp only [List.forall_mem_cons, Write.toValue, ReadPacket.Short, List.not_mem_nil,
      false_implies, implies_true, and_true, true_and]
    decide
  · exact .inr ⟨rfl, fun _ _ => rfl⟩

/-- A binary of 2^32 bytes is read back as an empty one. -/
theorem readBinary_of_length_eq {big : Bool} {binary : List UInt8}
    (hlen : binary.length = 2 ^ 32) :
    (ReadPacket.new ((Value.binary binary).encode big) big).readBinary =
      some ([], ReadPacket.behind big (scalarBytes big (UInt32.ofNat 0))
        ((Value.binary binary).encode big)) := by
  have hzero : UInt32.ofNat binary.length = UInt32.ofNat 0 := by
    apply UInt32.toNat_inj.mp
    rw [UInt32.toNat_ofNat', hlen]
    rfl
  have hread := ReadPacket.readScalar_scalarBytes big [] binary (UInt32.ofNat 0)
  rw [List.nil_append] at hread
  have hbuffer : (Value.binary binary).encode big =
      scalarBytes big (UInt32.ofNat 0) ++ binary := by
    rw [Value.encode, hzero]
  have hstart : ReadPacket.new ((Value.binary binary).encode big) big =
      ReadPacket.behind big [] ((Value.binary binary).encode big) := rfl
  rw [hstart, hbuffer, ReadPacket.readBinary, ReadPacket.readUINT32, hread]
  have hroom : (scalarBytes big (UInt32.ofNat 0)).length + 0 ≤
      (scalarBytes big (UInt32.ofNat 0) ++ binary).length := by
    rw [List.length_append]
    exact Nat.le_add_right _ _
  rw [Option.bind_eq_bind, Option.bind_some]
  exact if_pos hroom

/-- The length of a binary of 2^32 bytes is written as zero. -/
theorem not_read_written :
    ¬ ∀ (m : Malloc) (buffer : List UInt8) (useBigEndian isAutoMalloc : Bool)
        (writes : List Write),
      (Packet.new buffer useBigEndian isAutoMalloc).Fits m
          (Packet.encodeAll useBigEndian writes).length →
        ∃ p r, (Packet.new buffer useBigEndian isAutoMalloc).writeAll m writes = some p ∧
          (ReadPacket.new p.written useBigEndian).readAll (writes.map Write.toValue) =
            some (writes.map Write.toValue, r) ∧
          r.mPos = p.mPos := by
  intro h
  obtain ⟨binary, hlen⟩ : ∃ binary : List UInt8, binary.length = 2 ^ 32 :=
    ⟨List.replicate (2 ^ 32) 0, List.length_replicate⟩
  obtain ⟨p, r, hp, hr, -⟩ := h zeroMalloc [] true true [.value (.binary binary)]
    (.inr ⟨rfl, fun _ _ => rfl⟩)
  have hnew : (Packet.new [] true true).Ok := ⟨rfl, le_rfl⟩
  have hwritten : p.written = (Value.binary binary).encode true := by
    rw [(hnew.wrote_writeAll hp).written]
    exact List.append_nil _
  obtain ⟨⟨x, r'⟩, hx, hr⟩ := Option.bind_eq_some_iff.mp hr
  obtain ⟨⟨xs, r''⟩, -, hr⟩ := Option.bind_eq_some_iff.mp hr
  rw [hwritten, Write.toValue, ReadPacket.readLike, readBinary_of_length_eq hlen] at hx
  cases hx
  -- the value that is read has no bytes, the one that was written has 2^32
  have hvalue : Value.binary [] = Value.binary binary :=
    (List.cons.inj (congrArg Prod.fst (Option.some.inj hr))).1
  have hempty : binary = [] := (Value.binary.inj hvalue).symm
  rw [hempty, List.length_nil] at hlen
  exact absurd hlen (by decide)

end Netxy.PacketFormat
