import Netxy.Utils.Packet

/-!
# Protobuf messages in packets

`serializePBMsgToPacket` claims the bytes of a message in a packet and has protobuf write them
there; `deserializePBMsgToPacket` reads a pointer to them. What protobuf does is a parameter.
-/

namespace Netxy.PacketFormat

/-- The methods of a message that are called. `SerializePartialToArray` is given the size of an
array and fills it, or fails; `ParsePartialFromArray` turns the message into the one that it
reads. -/
structure Protobuf (T : Type) where
  ByteSize : T → Int32
  SerializePartialToArray : T → ℕ → Option (List UInt8)
  ParsePartialFromArray : T → List UInt8 → T

/-- A message counts the bytes of its serialized form, and writes them into an array of their
size. -/
structure Protobuf.Consistent {T : Type} (pb : Protobuf T) (serialized : T → List UInt8) :
    Prop where
  byteSize : ∀ t, (pb.ByteSize t).toInt = (serialized t).length
  serialize : ∀ t, pb.SerializePartialToArray t (serialized t).length = some (serialized t)

variable {T : Type}

/-- The writer, and whether `SerializePartialToArray` succeeded. The `int` becomes a `size_t` as
an argument of `claimBinary`. -/
def serializePBMsgToPacket (pb : Protobuf T) (m : Malloc) (pbObj : T) (packet : Packet) :
    Option (Bool × Packet) := do
  let pbByteSize := (pb.ByteSize pbObj).toInt64.toUInt64.toNat
  let (packet, buff) ← packet.claimBinary m pbByteSize
  match pb.SerializePartialToArray pbObj pbByteSize with
  | some bytes => return (true, packet.copyTo buff bytes)
  | none => return (false, packet)

/-- `readBinary` with a pointer and a length: the offset of the pointer, where it is set. -/
def ReadPacket.readBinaryAt (r : ReadPacket) : Option (Option ℕ × ℕ × ReadPacket) := do
  let (len, r) ← r.readUINT32
  if r.mPos + len.toNat ≤ r.mMaxLen ∧ 0 < len.toNat then
    return (some r.mPos, len.toNat, { r with mPos := r.mPos + len.toNat })
  else return (none, len.toNat, r)

/-- The result, the message and the reader. -/
def deserializePBMsgToPacket (pb : Protobuf T) (pbObj : T) (packet : ReadPacket) :
    Option (Bool × T × ReadPacket) := do
  let (data, outLen, packet) ← packet.readBinaryAt
  match data with
  | some offset =>
    return (true, pb.ParsePartialFromArray pbObj ((packet.mBuffer.drop offset).take outLen),
      packet)
  -- `assert(data != nullptr)`
  | none => none

variable {pb : Protobuf T} {serialized : T → List UInt8} {m : Malloc} {p q : Packet}

/-- The size survives the conversions on its way to `claimBinary`. -/
theorem Protobuf.Consistent.toNat_byteSize (h : pb.Consistent serialized) (t : T) :
    (pb.ByteSize t).toInt64.toUInt64.toNat = (serialized t).length := by
  have hsize := h.byteSize t
  have hlt := (pb.ByteSize t).toInt_lt
  have hint : (pb.ByteSize t).toInt64.toInt = (serialized t).length := by
    rw [Int32.toInt_toInt64, hsize]
  have hnat : (pb.ByteSize t).toInt64 = Int64.ofNat (serialized t).length := by
    apply Int64.toInt_inj.mp
    rw [hint, Int64.toInt_ofNat_of_lt (by omega)]
  rw [hnat]
  show (UInt64.ofNat (serialized t).length).toNat = _
  rw [UInt64.toNat_ofNat', Nat.mod_eq_of_lt (by omega)]

/-- No message is too long for its length. -/
theorem Protobuf.Consistent.length_lt (h : pb.Consistent serialized) (t : T) :
    (serialized t).length < 2 ^ 32 := by
  have hsize := h.byteSize t
  have hlt := (pb.ByteSize t).toInt_lt
  omega

/-- Serializing claims the bytes and fills them in. -/
theorem serializePBMsgToPacket_eq (h : pb.Consistent serialized) {t : T}
    (hq : p.claimAndFill m (serialized t) = some q) :
    serializePBMsgToPacket pb m t p = some (true, q) := by
  obtain ⟨⟨claimed, offset⟩, hclaim, hfill⟩ := Option.bind_eq_some_iff.mp hq
  rw [serializePBMsgToPacket]
  simp only [h.toNat_byteSize, h.serialize, hclaim]
  exact congrArg (fun r => some (true, r)) (Option.some.inj hfill)

/-- What a read of a pointer finds behind `pre`. -/
theorem readBinaryAt_encode (big : Bool) (pre post : List UInt8) {binary : List UInt8}
    (hlen : binary.length < 2 ^ 32) :
    ∃ offset len r,
      (ReadPacket.behind big pre (pre ++ (Value.binary binary).encode big ++ post)).readBinaryAt =
        some (if binary = [] then none else some offset, len, r) ∧
      (r.mBuffer.drop offset).take len = binary ∧
      r.mPos = (pre ++ (Value.binary binary).encode big).length := by
  have hread := ReadPacket.readScalar_scalarBytes big pre (binary ++ post)
    (UInt32.ofNat binary.length)
  have hnat : (UInt32.ofNat binary.length).toNat = binary.length := by
    rw [UInt32.toNat_ofNat', Nat.mod_eq_of_lt hlen]
  have hbuffer : pre ++ (Value.binary binary).encode big ++ post =
      pre ++ scalarBytes big (UInt32.ofNat binary.length) ++ (binary ++ post) := by
    rw [Value.encode, List.append_assoc, List.append_assoc, List.append_assoc]
  have hregion : pre ++ (Value.binary binary).encode big =
      pre ++ scalarBytes big (UInt32.ofNat binary.length) ++ binary := by
    rw [Value.encode, List.append_assoc]
  refine ⟨(pre ++ scalarBytes big (UInt32.ofNat binary.length)).length, binary.length,
    ReadPacket.behind big (pre ++ (Value.binary binary).encode big)
      (pre ++ (Value.binary binary).encode big ++ post), ?_, ?_, rfl⟩
  · rw [hbuffer, hregion, ReadPacket.readBinaryAt, ReadPacket.readUINT32, hread,
      Option.bind_eq_bind, Option.bind_some]
    by_cases hnil : binary = []
    · have hzero : ¬0 < (UInt32.ofNat binary.length).toNat := by
        rw [hnat, hnil]
        exact Nat.lt_irrefl 0
      rw [if_pos hnil]
      refine (if_neg fun hboth => hzero hboth.2).trans ?_
      rw [hnat, hnil, List.append_nil]
      rfl
    · have hpos : 0 < (UInt32.ofNat binary.length).toNat := by
        rw [hnat]
        exact List.length_pos_iff.mpr hnil
      have hroom : (pre ++ scalarBytes big (UInt32.ofNat binary.length)).length +
            (UInt32.ofNat binary.length).toNat ≤
          (pre ++ scalarBytes big (UInt32.ofNat binary.length) ++ (binary ++ post)).length := by
        rw [hnat]
        simp only [List.length_append]
        omega
      rw [if_neg hnil]
      refine (if_pos ⟨hroom, hpos⟩).trans ?_
      have hend : (pre ++ scalarBytes big (UInt32.ofNat binary.length) ++ binary).length =
          (pre ++ scalarBytes big (UInt32.ofNat binary.length)).length + binary.length :=
        List.length_append
      rw [hnat, ReadPacket.behind, ReadPacket.behind, hend]
      rfl
  · rw [ReadPacket.behind, hbuffer, List.drop_left, List.take_left]

/-- A message that is put into a packet with room for it is parsed again from its very bytes,
which the reader then stands behind, exactly if its serialized form is not empty. -/
theorem deserialize_serialize_iff (pb : Protobuf T) (serialized : T → List UInt8)
    (hpb : pb.Consistent serialized) (m : Malloc) (p : Packet) (hp : p.Ok) (t pbObj : T)
    (hfits : p.Fits m (4 + (serialized t).length)) (post : List UInt8) :
    (∃ q r, serializePBMsgToPacket pb m t p = some (true, q) ∧
      deserializePBMsgToPacket pb pbObj
          (ReadPacket.behind p.mBigEndian p.written (q.written ++ post)) =
        some (true, pb.ParsePartialFromArray pbObj (serialized t), r) ∧
      r.mPos = q.mPos) ↔
      serialized t ≠ [] := by
  have hwidth : (scalarBytes p.mBigEndian (UInt32.ofNat (serialized t).length)).length = 4 :=
    length_bytesOf _
  have hroom : p.Fits m ((Value.binary (serialized t)).encode p.mBigEndian).length := by
    rw [Value.encode, List.length_append, hwidth]
    exact hfits
  obtain ⟨q, hq⟩ := hp.exists_claimAndFill hroom
  have hwrote := hp.wrote_claimAndFill hq
  have hserialize := serializePBMsgToPacket_eq hpb hq
  obtain ⟨offset, len, r, hread, hbytes, hpos⟩ :=
    readBinaryAt_encode p.mBigEndian p.written post (hpb.length_lt t)
  rw [← hwrote.written] at hread hpos
  rw [hwrote.ok.length_written] at hpos
  constructor
  · intro h hnil
    obtain ⟨q', r', hq', hparse, -⟩ := h
    rw [hserialize] at hq'
    have hqq : q = q' := congrArg Prod.snd (Option.some.inj hq')
    rw [← hqq, deserializePBMsgToPacket, hread, if_pos hnil] at hparse
    cases hparse
  · intro hne
    refine ⟨q, r, hserialize, ?_, hpos⟩
    rw [deserializePBMsgToPacket, hread, if_neg hne]
    show some (true, pb.ParsePartialFromArray pbObj ((r.mBuffer.drop offset).take len), r) = _
    rw [hbytes]

/-- Messages that are a single field of bytes. -/
def bytesProtobuf : Protobuf {l : List UInt8 // l.length < 2 ^ 31} where
  ByteSize t := Int32.ofNat t.1.length
  SerializePartialToArray t size := if t.1.length ≤ size then some t.1 else none
  ParsePartialFromArray t bytes := if h : bytes.length < 2 ^ 31 then ⟨bytes, h⟩ else t

/-- The message class whose messages are byte strings. -/
theorem consistent_bytesProtobuf : bytesProtobuf.Consistent Subtype.val where
  byteSize t := Int32.toInt_ofNat_of_lt t.2
  serialize _ := if_pos le_rfl

/-- Three bytes into a buffer of ten. -/
theorem deserialize_serialize_three :
    (∃ q r, serializePBMsgToPacket bytesProtobuf zeroMalloc ⟨[1, 2, 3], by decide⟩
        (Packet.new (List.replicate 10 0) true false) = some (true, q) ∧
      deserializePBMsgToPacket bytesProtobuf ⟨[], by decide⟩
          (ReadPacket.behind true [] (q.written ++ [])) =
        some (true, ⟨[1, 2, 3], by decide⟩, r) ∧
      r.mPos = q.mPos) ↔
      [(1 : UInt8), 2, 3] ≠ [] :=
  deserialize_serialize_iff bytesProtobuf Subtype.val consistent_bytesProtobuf zeroMalloc
    (Packet.new (List.replicate 10 0) true false) ⟨rfl, Nat.zero_le _⟩ ⟨[1, 2, 3], by decide⟩
    ⟨[], by decide⟩ (.inl (by decide)) []

/-- `readBinary` returns no pointer for an empty message. -/
theorem not_deserialize_serialize :
    ¬ ∀ (T : Type) (pb : Protobuf T) (serialized : T → List UInt8), pb.Consistent serialized →
      ∀ (m : Malloc) (p : Packet), p.Ok → ∀ t pbObj : T,
        p.Fits m (4 + (serialized t).length) →
          ∃ q r, serializePBMsgToPacket pb m t p = some (true, q) ∧
            deserializePBMsgToPacket pb pbObj
                (ReadPacket.behind p.mBigEndian p.written (q.written ++ [])) =
              some (true, pb.ParsePartialFromArray pbObj (serialized t), r) ∧
            r.mPos = q.mPos := by
  intro h
  obtain ⟨q, r, hq, hr, -⟩ := h _ bytesProtobuf Subtype.val consistent_bytesProtobuf zeroMalloc
    (Packet.new (List.replicate 10 0) true false) ⟨rfl, Nat.zero_le _⟩ ⟨[], by decide⟩
    ⟨[], by decide⟩ (.inl (by decide))
  have hwritten : q.written = [0, 0, 0, 0] := by
    have hmap := congrArg (Option.map fun x => x.2.written) hq
    rw [Option.map_some] at hmap
    exact Option.some.inj (hmap.symm.trans (by decide))
  rw [hwritten] at hr
  have hnone : deserializePBMsgToPacket bytesProtobuf ⟨[], by decide⟩
      (ReadPacket.behind true [] [0, 0, 0, 0]) = none := rfl
  cases hnone.symm.trans hr

end Netxy.PacketFormat
