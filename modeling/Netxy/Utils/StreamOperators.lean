import Netxy.Utils.FixedBuffer

/-!
# `operator<<` and `writev`

The stream operators are methods of `BasePacketWriter`. For a number they call the method that
`Packet` inherits. For a string they call `BasePacketWriter::writeBinary`, which `Packet` hides
and which writes no length.
-/

namespace Netxy.PacketFormat

/-- The value is a `std::string`. -/
def Value.isString : Value → Bool
  | .binary _ => true
  | _ => false

namespace Packet

/-- `operator<<`. -/
def shift (m : Malloc) (p : Packet) : Value → Option Packet
  | .bool value => p.writeBool m value
  | .int8 value => p.writeINT8 m value
  | .uint8 value => p.writeUINT8 m value
  | .int16 value => p.writeINT16 m value
  | .uint16 value => p.writeUINT16 m value
  | .int32 value => p.writeINT32 m value
  | .uint32 value => p.writeUINT32 m value
  | .int64 value => p.writeINT64 m value
  | .uint64 value => p.writeUINT64 m value
  -- `BasePacketWriter::writeBinary`
  | .binary value => p.writeBuffer m value

/-- `writev`: the first argument, then the others. -/
def writev (m : Malloc) (p : Packet) : List Value → Option Packet
  | [] => some p
  | arg1 :: args => do
    let p ← p.shift m arg1
    p.writev m args

/-- `packet << arg1 << arg2 << ...`. -/
def chain (m : Malloc) (p : Packet) (args : List Value) : Option Packet :=
  args.foldlM (Packet.shift m) p

/-- The methods of `Packet` for the same values. -/
def writeNamed (m : Malloc) (p : Packet) (args : List Value) : Option Packet :=
  args.foldlM (Packet.writeValue m) p

/-! ## The operators as writes -/

/-- What `<<` writes: the bytes of a string stand there without a length. -/
def shiftPut : Value → Put
  | .binary value => .buffer value
  | v => .write (.value v)

/-- The bytes of the arguments, without the lengths of strings. -/
def shiftBytes (big : Bool) (args : List Value) : List UInt8 := encodePuts big (args.map shiftPut)

variable {m : Malloc} {p q : Packet} {args : List Value}

/-- `<<` is the call for what it writes. -/
theorem shift_eq_put (m : Malloc) (p : Packet) (v : Value) : p.shift m v = p.put m (shiftPut v) := by
  cases v with
  | binary value => rfl
  | bool | int8 | uint8 | int16 | uint16 | int32 | uint32 | int64 | uint64 => rfl

/-- A chain of `<<` is a row of calls. -/
theorem chain_eq_puts (m : Malloc) (p : Packet) (args : List Value) :
    p.chain m args = p.puts m (args.map shiftPut) := by
  rw [puts, List.foldlM_map]
  exact congrArg (fun f => args.foldlM f p) (funext fun p => funext fun v => shift_eq_put m p v)

/-- `writev` is the chain of `<<` over its arguments. -/
theorem writev_eq_chain (m : Malloc) (p : Packet) (args : List Value) :
    p.writev m args = p.chain m args := by
  induction args generalizing p with
  | nil => rfl
  | cons arg1 args ih =>
    rw [chain, List.foldlM_cons, writev]
    exact Option.bind_congr fun q _ => ih q

/-- The named methods are a row of calls as well. -/
theorem writeNamed_eq_puts (m : Malloc) (p : Packet) (args : List Value) :
    p.writeNamed m args = p.puts m (args.map fun v => .write (.value v)) := by
  rw [puts, List.foldlM_map]
  rfl

/-- Only a string makes a difference. -/
theorem shiftPut_of_not_string {v : Value} (h : v.isString = false) :
    shiftPut v = .write (.value v) := by
  cases v with
  | binary value => exact absurd h.symm Bool.false_ne_true
  | bool | int8 | uint8 | int16 | uint16 | int32 | uint32 | int64 | uint64 => rfl

/-- Four bytes less for every string. -/
theorem length_shiftBytes (big : Bool) (args : List Value) :
    (shiftBytes big args).length + 4 * args.countP Value.isString =
      (args.flatMap (Value.encode big)).length := by
  induction args with
  | nil => rfl
  | cons v args ih =>
    have hcons : shiftBytes big (v :: args) = (shiftPut v).encode big ++ shiftBytes big args := rfl
    rw [hcons, List.length_append, List.flatMap_cons, List.length_append, ← ih]
    by_cases hv : v.isString = true
    · cases v with
      | binary value =>
        have hlength : (scalarBytes big (UInt32.ofNat value.length)).length = 4 := length_bytesOf _
        rw [List.countP_cons_of_pos hv]
        show value.length + _ + _ = (scalarBytes big _ ++ value).length + _
        rw [List.length_append, hlength]
        omega
      | bool | int8 | uint8 | int16 | uint16 | int32 | uint32 | int64 | uint64 =>
        exact absurd hv Bool.false_ne_true
    · rw [List.countP_cons_of_neg hv, shiftPut_of_not_string (Bool.eq_false_iff.mpr hv)]
      show (v.encode big).length + _ + _ = _
      omega

/-- Each string is four bytes short. -/
theorem length_shiftBytes_eq_iff (big : Bool) (args : List Value) :
    (shiftBytes big args).length = (args.flatMap (Value.encode big)).length ↔
      ∀ v ∈ args, v.isString = false := by
  have hlength := length_shiftBytes big args
  have hnone : args.countP Value.isString = 0 ↔ ∀ v ∈ args, v.isString = false := by
    rw [List.countP_eq_zero]
    exact forall₂_congr fun v _ => Bool.eq_false_iff.symm
  rw [← hnone]
  omega

theorem encodePuts_write (big : Bool) (args : List Value) :
    encodePuts big (args.map fun v => .write (.value v)) = args.flatMap (Value.encode big) := by
  rw [encodePuts, List.flatMap_map]
  rfl

end Packet

/-! ## What is read has the length of what was written -/

namespace ReadPacket

/-- A reader inside its buffer. -/
structure Ok (r : ReadPacket) : Prop where
  length : r.mBuffer.length = r.mMaxLen
  pos_le : r.mPos ≤ r.mMaxLen

variable {r r' : ReadPacket}

/-- Reading a scalar moves the position by its width. -/
theorem Ok.readScalar {α : Type} [Scalar α] (h : r.Ok) {value : α}
    (hread : r.readScalar α = some (value, r')) :
    r'.Ok ∧ r'.mMaxLen = r.mMaxLen ∧ r'.mPos = r.mPos + Scalar.width α := by
  obtain ⟨⟨x, s⟩, hs, hpair⟩ := Option.map_eq_some_iff.mp hread
  obtain ⟨hroom, hs⟩ := Option.ite_none_right_eq_some.mp hs
  have hr : s = r' := congrArg Prod.snd hpair
  have hnext : { r with mPos := r.mPos + Scalar.width α } = s :=
    congrArg Prod.snd (Option.some.inj hs)
  rw [← hr, ← hnext]
  exact ⟨⟨h.length, hroom⟩, rfl, rfl⟩

/-- Reading a binary moves the position over its length and its bytes. -/
theorem Ok.readBinary (h : r.Ok) {value : List UInt8}
    (hread : r.readBinary = some (value, r')) :
    r'.Ok ∧ r'.mMaxLen = r.mMaxLen ∧ r'.mPos = r.mPos + 4 + value.length := by
  obtain ⟨⟨len, s⟩, hs, hrest⟩ := Option.bind_eq_some_iff.mp hread
  obtain ⟨hok, hmax, hpos⟩ := h.readScalar hs
  have hwidth : Scalar.width UInt32 = 4 := rfl
  rw [hwidth] at hpos
  simp only at hrest
  split_ifs at hrest with hroom
  · have hpair := Option.some.inj hrest
    rw [Prod.mk.injEq] at hpair
    have hlength : value.length = len.toNat := by
      have hbuffer := hok.length
      rw [← hpair.1, List.length_take, List.length_drop]
      omega
    rw [← hpair.2, hlength, ← hpos]
    exact ⟨⟨hok.length, hroom⟩, hmax, rfl⟩
  · have hpair := Option.some.inj hrest
    rw [Prod.mk.injEq] at hpair
    rw [← hpair.2, ← hpair.1]
    exact ⟨hok, hmax, hpos⟩

/-- Reading a value moves the position over its encoding. -/
theorem Ok.readLike (h : r.Ok) (big : Bool) {v w : Value} (hread : r.readLike v = some (w, r')) :
    r'.Ok ∧ r'.mMaxLen = r.mMaxLen ∧ r'.mPos = r.mPos + (w.encode big).length := by
  cases v with
  | binary value =>
    obtain ⟨⟨x, s⟩, hs, hpair⟩ := Option.map_eq_some_iff.mp hread
    have hw : Value.binary x = w := congrArg Prod.fst hpair
    have hr : s = r' := congrArg Prod.snd hpair
    have hlength : (scalarBytes big (UInt32.ofNat x.length)).length = 4 := length_bytesOf _
    rw [← hw, ← hr, Value.encode, List.length_append, hlength, ← Nat.add_assoc]
    exact h.readBinary hs
  | bool | int8 | uint8 | int16 | uint16 | int32 | uint32 | int64 | uint64 =>
    obtain ⟨⟨x, s⟩, hs, hpair⟩ := Option.map_eq_some_iff.mp hread
    obtain ⟨hw, hr⟩ := Prod.mk.inj hpair
    rw [← hw, ← hr]
    have hall := h.readScalar hs
    rw [← length_bytesOf (Scalar.hostToNetwork x big)] at hall
    exact hall

/-- Reading some values moves it over all of their encodings. -/
theorem Ok.readAll (h : r.Ok) (big : Bool) {vs ws : List Value}
    (hread : r.readAll vs = some (ws, r')) :
    r'.Ok ∧ r'.mMaxLen = r.mMaxLen ∧
      r'.mPos = r.mPos + (ws.flatMap (Value.encode big)).length := by
  induction vs generalizing r ws with
  | nil =>
    have hpair := Option.some.inj hread
    rw [Prod.mk.injEq] at hpair
    rw [← hpair.1, ← hpair.2]
    exact ⟨h, rfl, rfl⟩
  | cons v vs ih =>
    obtain ⟨⟨x, s⟩, hs, hread⟩ := Option.bind_eq_some_iff.mp hread
    obtain ⟨⟨xs, t⟩, ht, hread⟩ := Option.bind_eq_some_iff.mp hread
    obtain ⟨hws, hr⟩ := Prod.mk.inj (Option.some.inj hread)
    rw [hr] at ht
    obtain ⟨hok, hmax, hpos⟩ := h.readLike big hs
    obtain ⟨hok', hmax', hpos'⟩ := ih hok ht
    rw [← hws, List.flatMap_cons, List.length_append]
    exact ⟨hok', hmax'.trans hmax, by omega⟩

end ReadPacket

/-! ## Operators and methods -/

namespace Packet

variable {m : Malloc} {p q : Packet} {args : List Value}

theorem Fixed.puts {n : ℕ} (h : p.Fixed n) {l : List Put} (hq : p.puts m l = some q) :
    q.Fixed n := by
  rw [← releasePuts_eq hq]
  exact h.foldl_releasePut m l

/-- In a buffer that does not grow nothing comes of writes that are too long for it. -/
theorem puts_eq_none {l : List Put} (hp : p.Ok) (hauto : p.mIsAutoMalloc = false)
    (hlong : p.mMaxLen < p.mPos + (encodePuts p.mBigEndian l).length) :
    p.puts m l = none := by
  rw [Option.eq_none_iff_forall_ne_some]
  intro q hq
  have hfixed : q.Fixed p.mMaxLen := Fixed.puts ⟨hp, hauto, rfl⟩ hq
  have hwrote := hp.wrote_puts hq
  have hlength := congrArg List.length hwrote.written
  rw [hfixed.ok.length_written, List.length_append, hp.length_written] at hlength
  have hle := hfixed.ok.pos_le
  rw [hfixed.maxLen] at hle
  omega

/-- Typed reads take arguments back from what the operators wrote exactly if none is a string. -/
theorem readAll_shiftBytes_iff (big : Bool) (args : List Value) :
    (∃ r, (ReadPacket.new (shiftBytes big args) big).readAll args = some (args, r)) ↔
      ∀ v ∈ args, v.isString = false := by
  rw [← length_shiftBytes_eq_iff big]
  constructor
  · intro hread
    obtain ⟨r, hr⟩ := hread
    have hnew : (ReadPacket.new (shiftBytes big args) big).Ok := ⟨rfl, Nat.zero_le _⟩
    obtain ⟨hok, hmax, hpos⟩ := hnew.readAll big hr
    have hle := hok.pos_le
    have hstart : (ReadPacket.new (shiftBytes big args) big).mPos = 0 := rfl
    have hend : (ReadPacket.new (shiftBytes big args) big).mMaxLen =
      (shiftBytes big args).length := rfl
    have hlength := length_shiftBytes big args
    omega
  · intro hlength
    have hnone := (length_shiftBytes_eq_iff big args).mp hlength
    have hshort : ∀ v ∈ args, ReadPacket.Short v := by
      intro v hv
      cases v with
      | binary value => exact absurd (hnone _ hv).symm Bool.false_ne_true
      | bool | int8 | uint8 | int16 | uint16 | int32 | uint32 | int64 | uint64 => trivial
    have hbytes : shiftBytes big args = args.flatMap (Value.encode big) := by
      rw [shiftBytes, ← encodePuts_write]
      exact congrArg (encodePuts big) (List.map_congr_left fun v hv =>
        shiftPut_of_not_string (hnone v hv))
    have hread := ReadPacket.readAll_encode big [] hshort
    rw [List.nil_append, ← hbytes] at hread
    exact ⟨_, hread⟩

/-- In the build with assertions, whatever `malloc` does, `writev` and chained operators leave what
the methods leave exactly if no argument is a string, or the buffer does not grow and is too small
for either, so that both stop at an assertion; and reads of the same types give the arguments back
exactly if none is a string. -/
theorem writev_eq_iff (p : Packet) (hp : p.Ok) (args : List Value) :
    ((∀ m, p.writev m args = p.writeNamed m args ∧ p.chain m args = p.writeNamed m args) ↔
      (∀ v ∈ args, v.isString = false) ∨
        (p.mIsAutoMalloc = false ∧
          p.mMaxLen < p.mPos + (shiftBytes p.mBigEndian args).length)) ∧
    ∀ m q, p.writev m args = some q →
      ((∃ r, (ReadPacket.new (q.written.drop p.mPos) p.mBigEndian).readAll args =
          some (args, r)) ↔
        ∀ v ∈ args, v.isString = false) := by
  refine ⟨⟨fun h => ?_, fun h => ?_⟩, fun m q hq => ?_⟩
  · by_contra hnot
    rw [not_or] at hnot
    obtain ⟨hstring, hroom⟩ := hnot
    have hsucceeds : zeroMalloc.Succeeds := fun _ _ => rfl
    have hfits : p.Fits zeroMalloc (shiftBytes p.mBigEndian args).length := by
      by_cases hauto : p.mIsAutoMalloc = true
      · exact .inr ⟨hauto, hsucceeds⟩
      · refine .inl ?_
        by_contra hlong
        exact hroom ⟨Bool.eq_false_iff.mpr hauto, not_le.mp hlong⟩
    obtain ⟨q, hq⟩ := hp.exists_puts hfits
    have hnamed : p.puts zeroMalloc (args.map fun v => .write (.value v)) = some q := by
      rw [← writeNamed_eq_puts, ← (h zeroMalloc).2, chain_eq_puts]
      exact hq
    -- one and the same region, with and without the lengths of strings
    have hshift := (hp.wrote_puts hq).written
    have hsame := (hp.wrote_puts hnamed).written
    rw [hshift, encodePuts_write] at hsame
    have hlength := congrArg List.length (List.append_cancel_left hsame)
    exact hstring ((length_shiftBytes_eq_iff p.mBigEndian args).mp hlength)
  · intro m
    have hchain : p.chain m args = p.writeNamed m args := by
      rw [chain_eq_puts, writeNamed_eq_puts]
      rcases h with hnone | ⟨hauto, hlong⟩
      · exact congrArg (p.puts m) (List.map_congr_left fun v hv =>
          shiftPut_of_not_string (hnone v hv))
      · have hlength := length_shiftBytes p.mBigEndian args
        rw [puts_eq_none hp hauto hlong, puts_eq_none hp hauto]
        rw [encodePuts_write]
        omega
    exact ⟨(writev_eq_chain m p args).trans hchain, hchain⟩
  · rw [writev_eq_chain, chain_eq_puts] at hq
    have happended : q.written.drop p.mPos = shiftBytes p.mBigEndian args := by
      rw [(hp.wrote_puts hq).written, ← hp.length_written, List.drop_left]
      rfl
    rw [happended]
    exact readAll_shiftBytes_iff p.mBigEndian args

/-- A number and a string on an empty packet. -/
theorem writev_eq_five :
    ((∀ m, (new [0, 0, 0, 0] true false).writev m [.uint16 5, .binary [7]] =
          (new [0, 0, 0, 0] true false).writeNamed m [.uint16 5, .binary [7]] ∧
        (new [0, 0, 0, 0] true false).chain m [.uint16 5, .binary [7]] =
          (new [0, 0, 0, 0] true false).writeNamed m [.uint16 5, .binary [7]]) ↔
      (∀ v ∈ [Value.uint16 5, .binary [7]], v.isString = false) ∨
        ((new [0, 0, 0, 0] true false).mIsAutoMalloc = false ∧
          (new [0, 0, 0, 0] true false).mMaxLen < (new [0, 0, 0, 0] true false).mPos +
            (shiftBytes true [.uint16 5, .binary [7]]).length)) ∧
    ∀ m q, (new [0, 0, 0, 0] true false).writev m [.uint16 5, .binary [7]] = some q →
      ((∃ r, (ReadPacket.new (q.written.drop (new [0, 0, 0, 0] true false).mPos) true).readAll
          [.uint16 5, .binary [7]] = some ([.uint16 5, .binary [7]], r)) ↔
        ∀ v ∈ [Value.uint16 5, .binary [7]], v.isString = false) :=
  writev_eq_iff (new [0, 0, 0, 0] true false) ⟨rfl, Nat.zero_le _⟩ [.uint16 5, .binary [7]]

/-- A string of one byte is one byte behind `operator<<`, and five behind `writeBinary`. -/
theorem not_writev_eq :
    ¬ ∀ (m : Malloc) (p : Packet) (args : List Value), p.Ok →
      p.writev m args = p.writeNamed m args := by
  intro h
  have hsame := h zeroMalloc (new (List.replicate 8 0) true false) [.binary [7]]
    ⟨rfl, Nat.zero_le _⟩
  have hpos := congrArg (Option.map Packet.mPos) hsame
  revert hpos
  decide

end Packet

end Netxy.PacketFormat
