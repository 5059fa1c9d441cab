import Netxy.Utils.Packet

/-!
# `Packet` with its finish flag, in both builds

`Packet` with `mIsFinish`, its header and `getLen`. Where assertions are compiled in, a failed
one ends the call without a result. Where they are compiled out, a write that does not fit is
dropped and the caller goes on.
-/

namespace Netxy.PacketFormat
open ByteOrder

/-- The length and the opcode. -/
def PACKET_HEAD_LEN : UInt32 := 4 + 2

/-! ## The writer without assertions -/

namespace Packet

/-- The writer with assertions compiled out. -/
def releaseBuffer (m : Malloc) (p : Packet) (buffer : List UInt8) : Packet :=
  let p := p.growBuffer m buffer.length
  if p.mPos + buffer.length ≤ p.mMaxLen then
    { p.copyTo p.mPos buffer with mPos := p.mPos + buffer.length }
  else p

/-- A scalar, without assertions. -/
def releaseScalar {α : Type} [Scalar α] (m : Malloc) (p : Packet) (value : α) : Packet :=
  p.releaseBuffer m (bytesOf (Scalar.hostToNetwork value p.mBigEndian))

/-- A binary, without assertions: its length may be there and its bytes not. -/
def releaseBinary (m : Malloc) (p : Packet) (binary : List UInt8) : Packet :=
  (p.releaseScalar m (UInt32.ofNat binary.length)).releaseBuffer m binary

/-- `claimBinary`, and the offset where the caller may write, or a null pointer. -/
def releaseClaim (m : Malloc) (p : Packet) (binaryLen : ℕ) : Packet × Option ℕ :=
  let p := p.growBuffer m (binaryLen + 4)
  if p.mPos + binaryLen + 4 ≤ p.mMaxLen then
    let p := p.releaseScalar m (UInt32.ofNat binaryLen)
    ({ p with mPos := p.mPos + binaryLen }, some p.mPos)
  else (p.releaseScalar m (0 : UInt32), none)

/-- A claim that the caller fills where it is given a pointer. -/
def releaseClaimAndFill (m : Malloc) (p : Packet) (binary : List UInt8) : Packet :=
  match p.releaseClaim m binary.length with
  | (p, some offset) => p.copyTo offset binary
  | (p, none) => p

/-- The call for a value. -/
def releaseValue (m : Malloc) (p : Packet) : Value → Packet
  | .bool value => p.releaseScalar m value
  | .int8 value => p.releaseScalar m value
  | .uint8 value => p.releaseScalar m value
  | .int16 value => p.releaseScalar m value
  | .uint16 value => p.releaseScalar m value
  | .int32 value => p.releaseScalar m value
  | .uint32 value => p.releaseScalar m value
  | .int64 value => p.releaseScalar m value
  | .uint64 value => p.releaseScalar m value
  | .binary value => p.releaseBinary m value

end Packet

/-! ## Calls -/

/-- A write: of a value, a claim that is filled, or bytes as they are. -/
inductive Put
  | write (w : Write)
  | buffer (bytes : List UInt8)

/-- The bytes of a write. -/
def Put.encode (big : Bool) : Put → List UInt8
  | .write w => w.toValue.encode big
  | .buffer bytes => bytes

/-- The call, with assertions. -/
def Packet.put (m : Malloc) (p : Packet) : Put → Option Packet
  | .write w => p.write m w
  | .buffer bytes => p.writeBuffer m bytes

/-- The call, without assertions. -/
def Packet.releasePut (m : Malloc) (p : Packet) : Put → Packet
  | .write (.value v) => p.releaseValue m v
  | .write (.claimed binary) => p.releaseClaimAndFill m binary
  | .buffer bytes => p.releaseBuffer m bytes

/-- A `Packet` with its `mIsFinish`. -/
structure LenPacket extends Packet where
  mIsFinish : Bool

namespace LenPacket

/-- The constructor. -/
def new (buffer : List UInt8) (useBigEndian isAutoMalloc : Bool) : LenPacket :=
  { Packet.new buffer useBigEndian isAutoMalloc with mIsFinish := false }

/-- `init`. -/
def init (p : LenPacket) : LenPacket := { p with mPos := 0, mIsFinish := false }

/-- What `end` copies to the front of the buffer. -/
def header (p : LenPacket) : List UInt8 :=
  bytesOf (Socketendian.hostToNetwork32 (UInt32.ofNat p.mPos) true)

/-- `getLen`, with the position that it returns. -/
def getLen (p : LenPacket) : Option (LenPacket × ℕ) :=
  if p.mIsFinish then some (p, p.mPos)
  else if 4 ≤ p.mMaxLen then
    some ({ p.copyTo 0 p.header with mIsFinish := true }, p.mPos)
  else none

/-- Two chained `operator<<`. -/
def setOP (m : Malloc) (p : LenPacket) (op : UInt16) : Option LenPacket :=
  if p.mPos = 0 then do
    let q ← p.toPacket.writeUINT32 m PACKET_HEAD_LEN
    let q ← q.writeUINT16 m op
    return { q with mIsFinish := p.mIsFinish }
  else none

/-- `getLen` with assertions compiled out. -/
def releaseGetLen (p : LenPacket) : LenPacket × ℕ :=
  if p.mIsFinish then (p, p.mPos)
  else if 4 ≤ p.mMaxLen then
    ({ p.copyTo 0 p.header with mIsFinish := true }, p.mPos)
  else (p, p.mPos)

/-- `setOP` with assertions compiled out. -/
def releaseSetOP (m : Malloc) (p : LenPacket) (op : UInt16) : LenPacket :=
  if p.mPos = 0 then
    { (p.toPacket.releaseScalar m PACKET_HEAD_LEN).releaseScalar m op with
      mIsFinish := p.mIsFinish }
  else p

/-- A write or a query of the length. -/
inductive Call
  | put (x : Put)
  | getLen

/-- A call; `none` where an assertion fails. -/
def step (m : Malloc) (p : LenPacket) : Call → Option LenPacket
  | .put x => (p.toPacket.put m x).map fun q => { q with mIsFinish := p.mIsFinish }
  | .getLen => p.getLen.map Prod.fst

/-- A call, without assertions. -/
def releaseStep (m : Malloc) (p : LenPacket) : Call → LenPacket
  | .put x => { p.toPacket.releasePut m x with mIsFinish := p.mIsFinish }
  | .getLen => p.releaseGetLen.1

end LenPacket

/-! ## What a write does when it fits -/

namespace Packet

variable {m : Malloc} {p q : Packet} {b : List UInt8}

/-- Bytes that fit are written. -/
theorem wrote_releaseBuffer (hp : p.Ok) (h : p.Fits m b.length) :
    Wrote b p (p.releaseBuffer m b) := by
  have hgrow := hp.growBuffer m b.length
  have hroom := room_of_fits h hp
  rw [← growBuffer_mPos m p b.length] at hroom
  have hq : p.releaseBuffer m b =
      { (p.growBuffer m b.length).copyTo (p.growBuffer m b.length).mPos b with
        mPos := (p.growBuffer m b.length).mPos + b.length } := if_pos hroom
  rw [hq]
  exact hgrow.trans (hgrow.ok.wrote_copyTo hroom)

/-- Both builds do the same where the one with assertions has a result. -/
theorem releaseBuffer_eq (h : p.writeBuffer m b = some q) : p.releaseBuffer m b = q := by
  obtain ⟨hroom, hq⟩ := Option.ite_none_right_eq_some.mp h
  exact (if_pos hroom).trans (Option.some.inj hq)

/-- Where no assertion fails, the build makes no difference. -/
theorem releaseScalar_eq {α : Type} [Scalar α] {value : α} (h : p.writeScalar m value = some q) :
    p.releaseScalar m value = q := releaseBuffer_eq h

/-- Where no assertion fails, the build makes no difference. -/
theorem releaseBinary_eq {binary : List UInt8} (h : p.writeBinary m binary = some q) :
    p.releaseBinary m binary = q := by
  obtain ⟨r, hr, hq⟩ := Option.bind_eq_some_iff.mp h
  rw [releaseBinary, releaseScalar_eq hr]
  exact releaseBuffer_eq hq

/-- Where no assertion fails, the build makes no difference. -/
theorem releaseClaimAndFill_eq {binary : List UInt8} (h : p.claimAndFill m binary = some q) :
    p.releaseClaimAndFill m binary = q := by
  obtain ⟨⟨claimed, offset⟩, hclaim, hq⟩ := Option.bind_eq_some_iff.mp h
  obtain ⟨hroom, hclaim⟩ := Option.ite_none_right_eq_some.mp hclaim
  obtain ⟨r, hr, hclaim⟩ := Option.bind_eq_some_iff.mp hclaim
  have hrelease : p.releaseClaim m binary.length = (claimed, some offset) := by
    rw [releaseClaim]
    simp only
    rw [if_pos hroom, releaseScalar_eq hr]
    have hpair := Option.some.inj hclaim
    rw [Prod.mk.injEq] at hpair
    rw [← hpair.1, ← hpair.2]
  rw [releaseClaimAndFill, hrelease]
  exact Option.some.inj hq

/-- Where no assertion fails, the build makes no difference. -/
theorem releasePut_eq {x : Put} (h : p.put m x = some q) : p.releasePut m x = q := by
  cases x with
  | buffer bytes => exact releaseBuffer_eq h
  | write w =>
    cases w with
    | claimed binary => exact releaseClaimAndFill_eq h
    | value v =>
      cases v with
      | binary value => exact releaseBinary_eq h
      | bool | int8 | uint8 | int16 | uint16 | int32 | uint32 | int64 | uint64 =>
        exact releaseScalar_eq h

/-- The call puts its bytes there. -/
theorem Ok.wrote_put (hp : p.Ok) {x : Put} (h : p.put m x = some q) :
    Wrote (x.encode p.mBigEndian) p q := by
  cases x with
  | write w => exact hp.wrote_write h
  | buffer bytes => exact hp.wrote_writeBuffer h

/-- A call whose bytes fit is made. -/
theorem Ok.exists_put (hp : p.Ok) {x : Put} (h : p.Fits m (x.encode p.mBigEndian).length) :
    ∃ q, p.put m x = some q := by
  cases x with
  | write w => exact hp.exists_write h
  | buffer bytes => exact exists_writeBuffer hp h

end Packet

end Netxy.PacketFormat
