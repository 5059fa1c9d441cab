import Netxy.Lib.Transition
import Netxy.Utils.Packet

/-!
# The reader in machine arithmetic

`BasePacketReader` and `ReadPacket` with positions of 64 bits, which wrap, in both builds: where
assertions are compiled out a read that fails leaves the value as it was. What a method touches
of the buffer is recorded.
-/

namespace Netxy.PacketFormat
open Transition

/-- The largest size of an object, which is the largest difference of two pointers into it. -/
def PTRDIFF_MAX : ℕ := 2 ^ 63 - 1

/-- An array of bytes in memory. -/
structure Memory where
  bytes : List UInt8
  length_le : bytes.length ≤ PTRDIFF_MAX

/-- `BasePacketReader`, with 64-bit positions that wrap. -/
structure Reader where
  mBigEndian : Bool
  mPos : UInt64
  mMaxLen : UInt64
  mBuffer : List UInt8

/-- Bytes of the buffer: an offset and a number. -/
structure Region where
  offset : ℕ
  len : ℕ
deriving DecidableEq

/-- What a method does: the value it returns, the bytes it touches, and the reader behind it. -/
structure Reading (α : Type) where
  value : α
  touched : List Region
  next : Reader

namespace Reader

/-- The constructor. -/
def new (buffer : Memory) (useBigEndian : Bool) : Reader :=
  ⟨useBigEndian, 0, UInt64.ofNat buffer.bytes.length, buffer.bytes⟩

/-- `skipAll`. -/
def skipAll (r : Reader) : Reader := { r with mPos := r.mMaxLen }

/-- The `int` becomes a `size_t` in the sum. -/
def addPos (r : Reader) (value : Int32) : Reader :=
  let tmp := r.mPos + value.toInt64.toUInt64
  if 0 ≤ tmp ∧ tmp ≤ r.mMaxLen then { r with mPos := tmp } else r

/-- `read` of a type of this size: its bytes, or none where the value is left as it was. -/
def read (NDEBUG : Bool) (r : Reader) (size : UInt64) : Option (Reading (Option (List UInt8))) :=
  if r.mPos + size ≤ r.mMaxLen then
    some ⟨some ((r.mBuffer.drop r.mPos.toNat).take size.toNat), [⟨r.mPos.toNat, size.toNat⟩],
      { r with mPos := r.mPos + size }⟩
  else if NDEBUG then some ⟨none, [], r⟩
  else none

/-- The body of the methods for one value, which starts as 0. -/
def readScalar (NDEBUG : Bool) (α : Type) [Scalar α] (r : Reader) : Option (Reading α) :=
  (r.read NDEBUG (UInt64.ofNat (Scalar.width α))).map fun x =>
    { value := Scalar.networkToHost ((x.value.map (valueOf α)).getD (Scalar.ofNat 0)) r.mBigEndian
      touched := x.touched
      next := x.next }

def readBool (NDEBUG : Bool) (r : Reader) := r.readScalar NDEBUG Bool
def readINT8 (NDEBUG : Bool) (r : Reader) := r.readScalar NDEBUG Int8
def readUINT8 (NDEBUG : Bool) (r : Reader) := r.readScalar NDEBUG UInt8
def readINT16 (NDEBUG : Bool) (r : Reader) := r.readScalar NDEBUG Int16
def readUINT16 (NDEBUG : Bool) (r : Reader) := r.readScalar NDEBUG UInt16
def readINT32 (NDEBUG : Bool) (r : Reader) := r.readScalar NDEBUG Int32
def readUINT32 (NDEBUG : Bool) (r : Reader) := r.readScalar NDEBUG UInt32
def readINT64 (NDEBUG : Bool) (r : Reader) := r.readScalar NDEBUG Int64
def readUINT64 (NDEBUG : Bool) (r : Reader) := r.readScalar NDEBUG UInt64
def readPacketLen (NDEBUG : Bool) (r : Reader) := r.readUINT32 NDEBUG
def readOP (NDEBUG : Bool) (r : Reader) := r.readUINT16 NDEBUG

/-- `readBinary` with a string as its result: where it is copied from, if it is. -/
def readBinary (NDEBUG : Bool) (r : Reader) : Option (Reading (Option Region)) := do
  let x ← r.readUINT32 NDEBUG
  let len := x.value.toUInt64
  if x.next.mPos + len ≤ x.next.mMaxLen then
    let region : Region := ⟨x.next.mPos.toNat, len.toNat⟩
    return ⟨some region, x.touched ++ [region], { x.next with mPos := x.next.mPos + len }⟩
  else return ⟨none, x.touched, x.next⟩

/-- `readBinary` with a pointer and a length, if it returns `true`. -/
def readBinaryAt (NDEBUG : Bool) (r : Reader) : Option (Reading (Option Region)) := do
  let x ← r.readUINT32 NDEBUG
  let len := x.value.toUInt64
  if x.next.mPos + len ≤ x.next.mMaxLen ∧ 0 < len then
    return ⟨some ⟨x.next.mPos.toNat, len.toNat⟩, x.touched,
      { x.next with mPos := x.next.mPos + len }⟩
  else return ⟨none, x.touched, x.next⟩

end Reader

/-! ## Sequences of calls -/

/-- A call. The size of a type of the caller's own is that of an object. -/
inductive ReadCall
  | readBool
  | readINT8
  | readUINT8
  | readINT16
  | readUINT16
  | readINT32
  | readUINT32
  | readINT64
  | readUINT64
  | read (size : UInt64) (size_le : size.toNat ≤ PTRDIFF_MAX)
  | readPacketLen
  | readOP
  | readBinary
  | readBinaryAt
  | addPos (value : Int32)
  | skipAll

/-- The bytes that a call touches, and those that it returns. -/
structure Effect where
  touched : List Region
  returned : Option Region

/-- What a call does of which the value is not looked at. -/
def Reading.effect {α : Type} (x : Reading α) : Effect × Reader := (⟨x.touched, none⟩, x.next)

/-- The call, and what it touches and returns. -/
def Reader.call (NDEBUG : Bool) (r : Reader) : ReadCall → Option (Effect × Reader)
  | .readBool => (r.readBool NDEBUG).map Reading.effect
  | .readINT8 => (r.readINT8 NDEBUG).map Reading.effect
  | .readUINT8 => (r.readUINT8 NDEBUG).map Reading.effect
  | .readINT16 => (r.readINT16 NDEBUG).map Reading.effect
  | .readUINT16 => (r.readUINT16 NDEBUG).map Reading.effect
  | .readINT32 => (r.readINT32 NDEBUG).map Reading.effect
  | .readUINT32 => (r.readUINT32 NDEBUG).map Reading.effect
  | .readINT64 => (r.readINT64 NDEBUG).map Reading.effect
  | .readUINT64 => (r.readUINT64 NDEBUG).map Reading.effect
  | .read size _ => (r.read NDEBUG size).map Reading.effect
  | .readPacketLen => (r.readPacketLen NDEBUG).map Reading.effect
  | .readOP => (r.readOP NDEBUG).map Reading.effect
  | .readBinary => (r.readBinary NDEBUG).map fun x => (⟨x.touched, x.value⟩, x.next)
  | .readBinaryAt => (r.readBinaryAt NDEBUG).map fun x => (⟨x.touched, x.value⟩, x.next)
  | .addPos value => some (⟨[], none⟩, r.addPos value)
  | .skipAll => some (⟨[], none⟩, r.skipAll)

/-- A reader, and what the calls did so far. -/
structure ReadRun where
  reader : Reader
  effects : List Effect

/-- One more call. -/
def ReadRun.step (NDEBUG : Bool) (s : ReadRun) (c : ReadCall) : Option ReadRun :=
  (s.reader.call NDEBUG c).map fun x => ⟨x.2, s.effects ++ [x.1]⟩

/-! ## Every step stays inside -/

/-- The bytes lie in a buffer of this length. -/
def Region.Inside (n : ℕ) (g : Region) : Prop := g.offset + g.len ≤ n

/-- What a call touches and what it returns lies in the buffer. -/
structure Effect.Inside (n : ℕ) (e : Effect) : Prop where
  touched : ∀ g ∈ e.touched, g.Inside n
  returned : ∀ g ∈ e.returned, g.Inside n

/-- A reader of these bytes, that stands in them. -/
structure Reader.Safe (bytes : List UInt8) (r : Reader) : Prop where
  buffer : r.mBuffer = bytes
  maxLen : r.mMaxLen.toNat = bytes.length
  length_le : bytes.length ≤ PTRDIFF_MAX
  pos_le : r.mPos.toNat ≤ bytes.length

namespace Reader

variable {NDEBUG : Bool} {bytes : List UInt8} {r : Reader}

/-- A new reader stands at the start of its buffer. -/
theorem safe_new (buffer : Memory) (useBigEndian : Bool) :
    (new buffer useBigEndian).Safe buffer.bytes := by
  have hle := buffer.length_le
  refine ⟨rfl, ?_, hle, Nat.zero_le _⟩
  show (UInt64.ofNat buffer.bytes.length).toNat = buffer.bytes.length
  rw [PTRDIFF_MAX] at hle
  rw [UInt64.toNat_ofNat', Nat.mod_eq_of_lt (by omega)]

/-- Where the sum of the position and the size of an object passes the check, it did not wrap. -/
theorem Safe.toNat_add (h : r.Safe bytes) {size : UInt64} (hsize : size.toNat ≤ PTRDIFF_MAX) :
    (r.mPos + size).toNat = r.mPos.toNat + size.toNat := by
  have hle := h.length_le
  have hpos := h.pos_le
  rw [PTRDIFF_MAX] at hle hsize
  rw [UInt64.toNat_add, Nat.mod_eq_of_lt (by omega)]

/-- The position may be moved to the end of bytes that pass the check. -/
theorem Safe.move (h : r.Safe bytes) {pos : UInt64} (hpos : pos ≤ r.mMaxLen) :
    Reader.Safe bytes { r with mPos := pos } := by
  have hle := UInt64.le_iff_toNat_le.mp hpos
  rw [h.maxLen] at hle
  exact ⟨h.buffer, h.maxLen, h.length_le, hle⟩

/-- Where the comparison holds, the bytes are there: the sum does not wrap. -/
theorem Safe.inside (h : r.Safe bytes) {size : UInt64} (hsize : size.toNat ≤ PTRDIFF_MAX)
    (hroom : r.mPos + size ≤ r.mMaxLen) : Region.Inside bytes.length ⟨r.mPos.toNat, size.toNat⟩ := by
  have hle := UInt64.le_iff_toNat_le.mp hroom
  rw [h.maxLen, h.toNat_add hsize] at hle
  exact hle

/-- A read touches what it was allowed to. -/
theorem Safe.read (h : r.Safe bytes) {size : UInt64} (hsize : size.toNat ≤ PTRDIFF_MAX)
    {x : Reading (Option (List UInt8))} (hread : r.read NDEBUG size = some x) :
    x.next.Safe bytes ∧ ∀ g ∈ x.touched, g.Inside bytes.length := by
  rw [Reader.read] at hread
  split_ifs at hread with hroom
  · rw [← Option.some.inj hread]
    refine ⟨h.move hroom, fun g hg => ?_⟩
    rw [List.mem_singleton.mp hg]
    exact h.inside hsize hroom
  · rw [← Option.some.inj hread]
    exact ⟨h, fun g hg => absurd hg List.not_mem_nil⟩

/-- No scalar is so wide that a position could wrap. -/
theorem toNat_width_le {w : ℕ} (hw : w ≤ 8) : (UInt64.ofNat w).toNat ≤ PTRDIFF_MAX := by
  rw [UInt64.toNat_ofNat', Nat.mod_eq_of_lt (by omega), PTRDIFF_MAX]
  omega

/-- A scalar is read inside of the buffer, or not at all. -/
theorem Safe.readScalar {α : Type} [Scalar α] (h : r.Safe bytes) (hwidth : Scalar.width α ≤ 8)
    {x : Reading α} (hread : r.readScalar NDEBUG α = some x) :
    x.next.Safe bytes ∧ ∀ g ∈ x.touched, g.Inside bytes.length := by
  obtain ⟨y, hy, hxy⟩ := Option.map_eq_some_iff.mp hread
  rw [← hxy]
  exact h.read (toNat_width_le hwidth) hy

/-- Nor can a length of 32 bits make it wrap. -/
theorem toNat_toUInt64_le (len : UInt32) : len.toUInt64.toNat ≤ PTRDIFF_MAX := by
  have hlt := len.toNat_lt
  rw [UInt32.toNat_toUInt64, PTRDIFF_MAX]
  omega

/-- The region of a binary lies in the buffer. -/
theorem Safe.readBinary (h : r.Safe bytes) {x : Reading (Option Region)}
    (hread : r.readBinary NDEBUG = some x) :
    x.next.Safe bytes ∧ (∀ g ∈ x.touched, g.Inside bytes.length) ∧ ∀ g ∈ x.value, g.Inside bytes.length := by
  obtain ⟨y, hy, hx⟩ := Option.bind_eq_some_iff.mp hread
  obtain ⟨hsafe, htouched⟩ := h.readScalar (α := UInt32) (by decide) hy
  have hlen := toNat_toUInt64_le y.value
  simp only at hx
  split_ifs at hx with hroom
  · rw [← Option.some.inj hx]
    have hinside := hsafe.inside hlen hroom
    refine ⟨hsafe.move hroom, fun g hg => ?_, fun g hg => ?_⟩
    · rcases List.mem_append.mp hg with hg | hg
      · exact htouched g hg
      · rw [List.mem_singleton.mp hg]
        exact hinside
    · rw [← Option.some.inj hg]
      exact hinside
  · rw [← Option.some.inj hx]
    exact ⟨hsafe, htouched, fun g hg => absurd hg.symm (Option.some_ne_none g)⟩

/-- Also where it is handed out by reference. -/
theorem Safe.readBinaryAt (h : r.Safe bytes) {x : Reading (Option Region)}
    (hread : r.readBinaryAt NDEBUG = some x) :
    x.next.Safe bytes ∧ (∀ g ∈ x.touched, g.Inside bytes.length) ∧ ∀ g ∈ x.value, g.Inside bytes.length := by
  obtain ⟨y, hy, hx⟩ := Option.bind_eq_some_iff.mp hread
  obtain ⟨hsafe, htouched⟩ := h.readScalar (α := UInt32) (by decide) hy
  have hlen := toNat_toUInt64_le y.value
  simp only at hx
  split_ifs at hx with hroom
  · rw [← Option.some.inj hx]
    refine ⟨hsafe.move hroom.1, htouched, fun g hg => ?_⟩
    rw [← Option.some.inj hg]
    exact hsafe.inside hlen hroom.1
  · rw [← Option.some.inj hx]
    exact ⟨hsafe, htouched, fun g hg => absurd hg.symm (Option.some_ne_none g)⟩

/-- A position that is moved too far, either way, is brought back. -/
theorem Safe.addPos (h : r.Safe bytes) (value : Int32) : (r.addPos value).Safe bytes := by
  rw [Reader.addPos]
  split_ifs with hroom
  · exact h.move hroom.2
  · exact h

/-- One call keeps the reader inside, and touches and returns nothing else. -/
theorem Safe.call (h : r.Safe bytes) {c : ReadCall} {e : Effect} {r' : Reader}
    (hcall : r.call NDEBUG c = some (e, r')) : r'.Safe bytes ∧ e.Inside bytes.length := by
  have hnone : ∀ {touched : List Region}, (∀ g ∈ touched, g.Inside bytes.length) →
      Effect.Inside bytes.length ⟨touched, none⟩ := by
    intro touched htouched
    exact ⟨htouched, fun g hg => absurd hg.symm (Option.some_ne_none g)⟩
  have hscalar : ∀ {α : Type} [Scalar α], Scalar.width α ≤ 8 →
      (r.readScalar NDEBUG α).map Reading.effect = some (e, r') → r'.Safe bytes ∧ e.Inside bytes.length := by
    intro α _ hwidth hread
    obtain ⟨x, hx, hxe⟩ := Option.map_eq_some_iff.mp hread
    obtain ⟨he, hr⟩ := Prod.mk.inj hxe
    obtain ⟨hsafe, htouched⟩ := h.readScalar hwidth hx
    rw [← he, ← hr]
    exact ⟨hsafe, hnone htouched⟩
  cases c with
  | readBool => exact hscalar (α := Bool) (by decide) hcall
  | readINT8 => exact hscalar (α := Int8) (by decide) hcall
  | readUINT8 => exact hscalar (α := UInt8) (by decide) hcall
  | readINT16 => exact hscalar (α := Int16) (by decide) hcall
  | readUINT16 => exact hscalar (α := UInt16) (by decide) hcall
  | readINT32 => exact hscalar (α := Int32) (by decide) hcall
  | readUINT32 => exact hscalar (α := UInt32) (by decide) hcall
  | readINT64 => exact hscalar (α := Int64) (by decide) hcall
  | readUINT64 => exact hscalar (α := UInt64) (by decide) hcall
  | readPacketLen => exact hscalar (α := UInt32) (by decide) hcall
  | readOP => exact hscalar (α := UInt16) (by decide) hcall
  | read size size_le =>
    obtain ⟨x, hx, hxe⟩ := Option.map_eq_some_iff.mp hcall
    obtain ⟨he, hr⟩ := Prod.mk.inj hxe
    obtain ⟨hsafe, htouched⟩ := h.read size_le hx
    rw [← he, ← hr]
    exact ⟨hsafe, hnone htouched⟩
  | readBinary =>
    obtain ⟨x, hx, hxe⟩ := Option.map_eq_some_iff.mp hcall
    obtain ⟨he, hr⟩ := Prod.mk.inj hxe
    obtain ⟨hsafe, htouched, hreturned⟩ := h.readBinary hx
    rw [← he, ← hr]
    exact ⟨hsafe, htouched, hreturned⟩
  | readBinaryAt =>
    obtain ⟨x, hx, hxe⟩ := Option.map_eq_some_iff.mp hcall
    obtain ⟨he, hr⟩ := Prod.mk.inj hxe
    obtain ⟨hsafe, htouched, hreturned⟩ := h.readBinaryAt hx
    rw [← he, ← hr]
    exact ⟨hsafe, htouched, hreturned⟩
  | addPos value =>
    obtain ⟨he, hr⟩ := Prod.mk.inj (Option.some.inj hcall)
    rw [← he, ← hr]
    exact ⟨h.addPos value, hnone fun g hg => absurd hg List.not_mem_nil⟩
  | skipAll =>
    obtain ⟨he, hr⟩ := Prod.mk.inj (Option.some.inj hcall)
    rw [← he, ← hr]
    exact ⟨h.move (UInt64.le_refl _), hnone fun g hg => absurd hg List.not_mem_nil⟩

end Reader

/-- A run inside these bytes. -/
structure ReadRun.Safe (bytes : List UInt8) (s : ReadRun) : Prop where
  reader : s.reader.Safe bytes
  effects : ∀ e ∈ s.effects, e.Inside bytes.length

/-- Every call stays in the buffer. -/
theorem ReadRun.Safe.step {NDEBUG : Bool} {bytes : List UInt8} {s t : ReadRun} {c : ReadCall}
    (h : s.Safe bytes) (hstep : s.step NDEBUG c = some t) : t.Safe bytes := by
  obtain ⟨⟨e, r⟩, hcall, ht⟩ := Option.map_eq_some_iff.mp hstep
  obtain ⟨hreader, hinside⟩ := h.reader.call hcall
  rw [← ht]
  refine ⟨hreader, fun f hf => ?_⟩
  rcases List.mem_append.mp hf with hf | hf
  · exact h.effects f hf
  · rw [List.mem_singleton.mp hf]
    exact hinside

/-- Whatever the bytes are and whatever is called on them, in either build, the position stays
within the buffer, no byte outside is touched, and what is returned lies in it. -/
theorem reader_stays_inside (NDEBUG : Bool) (buffer : Memory) (useBigEndian : Bool)
    (calls : List ReadCall) :
    Always (ReadRun.step NDEBUG)
      (fun s => s.reader.mPos ≤ s.reader.mMaxLen ∧ s.reader.mBuffer = buffer.bytes ∧
        ∀ e ∈ s.effects, e.Inside buffer.bytes.length)
      ⟨Reader.new buffer useBigEndian, []⟩ calls := by
  have hnew : ReadRun.Safe buffer.bytes ⟨Reader.new buffer useBigEndian, []⟩ :=
    ⟨Reader.safe_new buffer useBigEndian, fun e he => absurd he List.not_mem_nil⟩
  have hsafe : Always (ReadRun.step NDEBUG) (ReadRun.Safe buffer.bytes)
      ⟨Reader.new buffer useBigEndian, []⟩ calls :=
    always_of_invariant (fun _ _ _ hs ht => hs.step ht) hnew calls
  refine hsafe.imp fun s hs => ⟨?_, hs.reader.buffer, hs.effects⟩
  rw [UInt64.le_iff_toNat_le, hs.reader.maxLen]
  exact hs.reader.pos_le

/-! ## The reader without machine arithmetic -/

namespace Reader

/-- The positions as numbers. -/
def toReadPacket (r : Reader) : ReadPacket :=
  ⟨r.mMaxLen.toNat, r.mBigEndian, r.mPos.toNat, r.mBuffer⟩

variable {bytes : List UInt8} {r : Reader}

/-- With assertions, the methods for one value are those of `ReadPacket`. -/
theorem Safe.readScalar_toReadPacket {α : Type} [Scalar α] (h : r.Safe bytes)
    (hwidth : Scalar.width α ≤ 8) :
    (r.readScalar false α).map (fun x => (x.value, x.next.toReadPacket)) =
      r.toReadPacket.readScalar α := by
  have hsize := toNat_width_le hwidth
  have hnat : (UInt64.ofNat (Scalar.width α)).toNat = Scalar.width α := by
    rw [UInt64.toNat_ofNat', Nat.mod_eq_of_lt (by omega)]
  have hsum := h.toNat_add hsize
  rw [hnat] at hsum
  have hiff : r.mPos + UInt64.ofNat (Scalar.width α) ≤ r.mMaxLen ↔
      r.toReadPacket.mPos + Scalar.width α ≤ r.toReadPacket.mMaxLen := by
    rw [UInt64.le_iff_toNat_le, hsum]
    rfl
  rw [Reader.readScalar, Reader.read, ReadPacket.readScalar, ReadPacket.read]
  by_cases hroom : r.mPos + UInt64.ofNat (Scalar.width α) ≤ r.mMaxLen
  · rw [if_pos hroom, if_pos (hiff.mp hroom), hnat]
    simp only [Option.map_some, Option.getD_some, toReadPacket, hsum]
  · rw [if_neg hroom, if_neg fun hle => hroom (hiff.mpr hle)]
    rfl

end Reader

end Netxy.PacketFormat
