import Mathlib.Data.List.TakeWhile
import Mathlib.Tactic.NormNum
import Netxy.Lib.Transition
import Netxy.Utils.ReleasePacket

/-!
# `SendPacket` and its header

A packet starts with its length and its operation: `setOP` writes both, and `getLen` writes the
length again when it is called for the first time. The receiver reads it with `readPacketLen`.
-/

namespace Netxy.PacketFormat
open ByteOrder Socketendian Transition

namespace ReadPacket

/-- `readPacketLen`. -/
def readPacketLen (r : ReadPacket) : Option (UInt32 × ReadPacket) := r.readUINT32

end ReadPacket

/-- A receiver takes the bytes that a header counts off the front of a stream. -/
def cutPacket (big : Bool) (stream : List UInt8) : Option (List UInt8 × List UInt8) := do
  let (len, _) ← (ReadPacket.new stream big).readPacketLen
  if len.toNat ≤ stream.length then
    return (stream.take len.toNat, stream.drop len.toNat)
  else none

namespace SendPacket

/-- The constructor. -/
def new (m : Malloc) (op : UInt16) (buffer : List UInt8) (useBigEndian isAutoMalloc : Bool) :
    Option LenPacket :=
  (LenPacket.new buffer useBigEndian isAutoMalloc).setOP m op

/-- The constructor with assertions compiled out. -/
def releaseNew (m : Malloc) (op : UInt16) (buffer : List UInt8)
    (useBigEndian isAutoMalloc : Bool) : LenPacket :=
  (LenPacket.new buffer useBigEndian isAutoMalloc).releaseSetOP m op

/-- A packet and the calls that are made on it. -/
def run (m : Malloc) (op : UInt16) (buffer : List UInt8) (useBigEndian isAutoMalloc : Bool)
    (calls : List LenPacket.Call) : Option LenPacket :=
  (new m op buffer useBigEndian isAutoMalloc).bind fun p => exec (LenPacket.step m) p calls

end SendPacket

/-- What `setOP` writes. -/
def headBytes (big : Bool) (op : UInt16) : List UInt8 :=
  scalarBytes big PACKET_HEAD_LEN ++ scalarBytes big op

@[simp] theorem length_headBytes (big : Bool) (op : UInt16) : (headBytes big op).length = 6 := by
  rw [headBytes, List.length_append, scalarBytes, scalarBytes, length_bytesOf, length_bytesOf]
  rfl

namespace LenPacket

variable {m : Malloc} {p q : LenPacket}

/-- The header stands in front. -/
theorem wrote_setOP (hp : p.Ok) {op : UInt16} (h : p.setOP m op = some q) :
    Packet.Wrote (headBytes p.mBigEndian op) p.toPacket q.toPacket := by
  obtain ⟨-, h⟩ := Option.ite_none_right_eq_some.mp h
  obtain ⟨r, hr, h⟩ := Option.bind_eq_some_iff.mp h
  obtain ⟨t, ht, h⟩ := Option.bind_eq_some_iff.mp h
  have hq := Option.some.inj h
  subst hq
  have hfirst := hp.wrote_writeScalar hr
  have hsecond := hfirst.ok.wrote_writeScalar ht
  rw [hfirst.bigEndian] at hsecond
  exact hfirst.trans hsecond

/-- The header does not end the packet. -/
theorem mIsFinish_setOP {op : UInt16} (h : p.setOP m op = some q) :
    q.mIsFinish = p.mIsFinish := by
  obtain ⟨-, h⟩ := Option.ite_none_right_eq_some.mp h
  obtain ⟨r, -, h⟩ := Option.bind_eq_some_iff.mp h
  obtain ⟨t, -, h⟩ := Option.bind_eq_some_iff.mp h
  have hq := Option.some.inj h
  rw [← hq]

end LenPacket

/-! ## The length in the header -/

/-- What `end` copies to the front for a position. -/
def endBytes (pos : ℕ) : List UInt8 := bytesOf (hostToNetwork32 (UInt32.ofNat pos) true)

@[simp] theorem length_endBytes (pos : ℕ) : (endBytes pos).length = 4 := length_bytesOf _

/-- What a reader makes of these bytes. -/
def endValue (big : Bool) (pos : ℕ) : UInt32 :=
  if big then UInt32.ofNat pos else htobe32 (UInt32.ofNat pos)

/-- The length is written in the host's order; a reader in the other one sees this number. -/
theorem endBytes_eq (big : Bool) (pos : ℕ) : endBytes pos = scalarBytes big (endValue big pos) := by
  cases big with
  | true => rfl
  | false => rfl

/-- The length that `end` writes is read back exactly if it fits into 32 bits and the reader is a
big-endian one, or the bytes are the same from both ends. -/
theorem toNat_endValue_eq_iff (big : Bool) (pos : ℕ) :
    (endValue big pos).toNat = pos ↔
      pos < 2 ^ 32 ∧ (big = true ∨ byteSwap 4 pos = pos) := by
  have hpow : (256 : ℕ) ^ 4 = 2 ^ 32 := by norm_num
  cases big with
  | true =>
    have hvalue : (endValue true pos).toNat = pos % 2 ^ 32 := UInt32.toNat_ofNat'
    rw [hvalue]
    constructor
    · intro h
      exact ⟨by omega, .inl rfl⟩
    · intro h
      exact Nat.mod_eq_of_lt h.1
  | false =>
    have hswap := byteSwap_lt 4 (pos % 2 ^ 32)
    rw [hpow] at hswap
    have hvalue : (endValue false pos).toNat = byteSwap 4 (pos % 2 ^ 32) := by
      show (UInt32.ofNat (byteSwap 4 (UInt32.ofNat pos).toNat)).toNat = _
      rw [UInt32.toNat_ofNat', UInt32.toNat_ofNat', Nat.mod_eq_of_lt hswap]
    rw [hvalue]
    constructor
    · intro h
      have hlt : pos < 2 ^ 32 := by omega
      rw [Nat.mod_eq_of_lt hlt] at h
      exact ⟨hlt, .inr h⟩
    · intro h
      rw [Nat.mod_eq_of_lt h.1]
      exact h.2.resolve_left Bool.false_ne_true

/-- What a reader takes for the length. -/
theorem readPacketLen_endBytes (big : Bool) (pos : ℕ) (rest : List UInt8) :
    ∃ r, (ReadPacket.new (endBytes pos ++ rest) big).readPacketLen =
      some (endValue big pos, r) := by
  have hread := ReadPacket.readScalar_scalarBytes big [] rest (endValue big pos)
  rw [List.nil_append, ← endBytes_eq] at hread
  exact ⟨_, hread⟩

namespace LenPacket

/-- The first four bytes of the buffer are the position, for a reader of the same byte order, and
a receiver who goes by them finds the end of the packet in any stream that starts with it. -/
structure HeaderMatches (big : Bool) (p : LenPacket) : Prop where
  read : ∃ len r, (ReadPacket.new p.mBuffer big).readPacketLen = some (len, r) ∧
    len.toNat = p.mPos
  cut : ∀ rest, cutPacket big (p.written ++ rest) = some (p.written, rest)

/-- The header is right where the number is the position. -/
theorem headerMatches_iff {big : Bool} {p : LenPacket} {pos : ℕ} {tail : List UInt8}
    (hp : p.Ok) (hpos : 4 ≤ p.mPos) (hbuffer : p.mBuffer = endBytes pos ++ tail) :
    p.HeaderMatches big ↔ (endValue big pos).toNat = p.mPos := by
  have hread : ∃ r, (ReadPacket.new p.mBuffer big).readPacketLen =
      some (endValue big pos, r) := by
    rw [hbuffer]
    exact readPacketLen_endBytes big pos tail
  obtain ⟨r, hr⟩ := hread
  constructor
  · intro h
    obtain ⟨len, r', hlen, hmatch⟩ := h.read
    rw [hr] at hlen
    have hpair := Option.some.inj hlen
    rw [Prod.mk.injEq] at hpair
    rw [hpair.1]
    exact hmatch
  · intro h
    refine ⟨⟨_, r, hr, h⟩, fun rest => ?_⟩
    -- the header is a part of what was written
    have hwritten : p.written = endBytes pos ++ tail.take (p.mPos - 4) := by
      rw [Packet.written, hbuffer, List.take_append, length_endBytes,
        List.take_of_length_le (by rw [length_endBytes]; exact hpos)]
    obtain ⟨r', hr'⟩ := readPacketLen_endBytes big pos (tail.take (p.mPos - 4) ++ rest)
    have hlength := hp.length_written
    rw [cutPacket, hwritten, List.append_assoc, hr', ← List.append_assoc, ← hwritten]
    have hle : (endValue big pos).toNat ≤ (p.written ++ rest).length := by
      rw [List.length_append]
      omega
    show (if (endValue big pos).toNat ≤ (p.written ++ rest).length then
      some ((p.written ++ rest).take (endValue big pos).toNat,
        (p.written ++ rest).drop (endValue big pos).toNat) else none) = some (p.written, rest)
    rw [if_pos hle, h, ← hlength, List.take_left, List.drop_left]

/-! ## Calls of `getLen` between writes -/

def Call.isPut : Call → Bool
  | .put _ => true
  | .getLen => false

/-- The position behind the header and the writes of these calls. -/
def posAfter (big : Bool) (calls : List Call) : ℕ :=
  6 + (calls.map fun
    | .put x => (x.encode big).length
    | .getLen => 0).sum

/-- The position at the first call of `getLen`. -/
def firstPos (big : Bool) (calls : List Call) : ℕ := posAfter big (calls.takeWhile Call.isPut)

/-- A call moves the position by its own bytes. -/
theorem posAfter_concat (big : Bool) (calls : List Call) (c : Call) :
    posAfter big (calls ++ [c]) = posAfter big calls + match c with
      | .put x => (x.encode big).length
      | .getLen => 0 := by
  rw [posAfter, posAfter, List.map_append, List.sum_append, List.map_singleton,
    List.sum_singleton, Nat.add_assoc]

/-- The first `getLen` decides, whatever comes later. -/
theorem firstPos_append_of_mem {big : Bool} {calls : List Call} (h : Call.getLen ∈ calls)
    (more : List Call) : firstPos big (calls ++ more) = firstPos big calls := by
  have hne : (calls.takeWhile Call.isPut).length ≠ calls.length := by
    intro hlen
    have hall := List.takeWhile_eq_self_iff.mp
      ((List.takeWhile_prefix Call.isPut).eq_of_length hlen)
    exact Bool.false_ne_true (hall _ h)
  rw [firstPos, List.takeWhile_append, if_neg hne]
  rfl

/-- The first `getLen` takes the position of its own time. -/
theorem firstPos_concat_getLen {big : Bool} {calls : List Call} (h : Call.getLen ∉ calls) :
    firstPos big (calls ++ [.getLen]) = posAfter big calls := by
  have hall : ∀ c ∈ calls, c.isPut = true := by
    intro c hc
    cases c with
    | put x => rfl
    | getLen => exact absurd hc h
  rw [firstPos, List.takeWhile_append_of_pos hall]
  show posAfter big (calls ++ []) = posAfter big calls
  rw [List.append_nil]

/-- A packet after these calls. -/
structure Sent (big : Bool) (calls : List Call) (p : LenPacket) : Prop where
  ok : p.Ok
  bigEndian : p.mBigEndian = big
  pos : p.mPos = posAfter big calls
  finish : p.mIsFinish = true ↔ Call.getLen ∈ calls
  front : Call.getLen ∈ calls → ∃ tail, p.mBuffer = endBytes (firstPos big calls) ++ tail

/-- The header is always there. -/
theorem Sent.six_le {big : Bool} {calls : List Call} {p : LenPacket} (h : Sent big calls p) :
    6 ≤ p.mPos := by
  rw [h.pos, posAfter]
  omega

/-- What was written is a prefix of the buffer. -/
theorem exists_mBuffer_of_written {p : Packet} {b : List UInt8} {t : List UInt8}
    (h : p.written = b ++ t) : ∃ tail, p.mBuffer = b ++ tail := by
  refine ⟨t ++ p.mBuffer.drop p.mPos, ?_⟩
  rw [← List.append_assoc, ← h, Packet.written, List.take_append_drop]

/-- A write moves on. -/
theorem Sent.put {m : Malloc} {big : Bool} {calls : List Call} {p : LenPacket} {x : Put}
    {q : Packet} (h : Sent big calls p) (hq : p.toPacket.put m x = some q) :
    Sent big (calls ++ [.put x]) { q with mIsFinish := p.mIsFinish } := by
  have hwrote := h.ok.wrote_put hq
  have hmem : Call.getLen ∈ calls ++ [.put x] ↔ Call.getLen ∈ calls := by
    simp only [List.mem_append, List.mem_singleton, reduceCtorEq, or_false]
  refine ⟨hwrote.ok, hwrote.bigEndian.trans h.bigEndian, ?_, h.finish.trans hmem.symm, ?_⟩
  · have hlength := congrArg List.length hwrote.written
    rw [hwrote.ok.length_written, List.length_append, h.ok.length_written, h.pos,
      h.bigEndian] at hlength
    rw [posAfter_concat]
    exact hlength
  · intro hget
    have hold := hmem.mp hget
    obtain ⟨tail, htail⟩ := h.front hold
    have hfour : (endBytes (firstPos big calls)).length ≤ p.mPos := by
      have hsix := h.six_le
      rw [length_endBytes]
      omega
    have hwritten : p.written = endBytes (firstPos big calls) ++
        tail.take (p.mPos - (endBytes (firstPos big calls)).length) := by
      rw [Packet.written, htail, List.take_append, List.take_of_length_le hfour]
    rw [firstPos_append_of_mem hold]
    have hboth := hwrote.written
    rw [hwritten, List.append_assoc] at hboth
    exact exists_mBuffer_of_written hboth

/-- The first `getLen` writes the length, and later ones do not. -/
theorem Sent.getLen {big : Bool} {calls : List Call} {p q : LenPacket} {len : ℕ}
    (h : Sent big calls p) (hq : p.getLen = some (q, len)) :
    Sent big (calls ++ [.getLen]) q := by
  have hmem : Call.getLen ∈ calls ++ [.getLen] := by
    rw [List.mem_append, List.mem_singleton]
    exact .inr rfl
  have hpos : posAfter big (calls ++ [.getLen]) = posAfter big calls := posAfter_concat big calls _
  rw [LenPacket.getLen] at hq
  split_ifs at hq with hfinish hroom
  · -- the header was written before
    have hsame : p = q := congrArg Prod.fst (Option.some.inj hq)
    rw [← hsame]
    have hold := h.finish.mp hfinish
    refine ⟨h.ok, h.bigEndian, h.pos.trans hpos.symm, iff_of_true hfinish hmem, fun _ => ?_⟩
    rw [firstPos_append_of_mem hold]
    exact h.front hold
  · have hcopied : { p.copyTo 0 p.header with mIsFinish := true } = q :=
      congrArg Prod.fst (Option.some.inj hq)
    rw [← hcopied]
    have hnew : Call.getLen ∉ calls := fun hold => hfinish (h.finish.mpr hold)
    have hheader : p.header = endBytes p.mPos := rfl
    refine ⟨⟨?_, h.ok.pos_le⟩, h.bigEndian, h.pos.trans hpos.symm, iff_of_true rfl hmem,
      fun _ => ?_⟩
    · have hlength := h.ok.length
      simp only [Packet.copyTo, hheader, List.take_zero, List.nil_append, List.length_append,
        List.length_drop, length_endBytes]
      omega
    · rw [firstPos_concat_getLen hnew, ← h.pos]
      refine ⟨p.mBuffer.drop (0 + p.header.length), ?_⟩
      simp only [Packet.copyTo, hheader, List.take_zero, List.nil_append]

/-- Each call keeps what was sent in step with the calls. -/
theorem Sent.step {m : Malloc} {big : Bool} {calls : List Call} {p q : LenPacket} {c : Call}
    (h : Sent big calls p) (hq : LenPacket.step m p c = some q) : Sent big (calls ++ [c]) q := by
  cases c with
  | put x =>
    obtain ⟨r, hr, hrq⟩ := Option.map_eq_some_iff.mp hq
    rw [← hrq]
    exact h.put hr
  | getLen =>
    obtain ⟨⟨r, len⟩, hr, hrq⟩ := Option.map_eq_some_iff.mp hq
    rw [← hrq]
    exact h.getLen hr

/-- Every run of calls keeps it. -/
theorem Sent.exec {m : Malloc} {big : Bool} {done calls : List Call} {p q : LenPacket}
    (h : Sent big done p) (hq : Transition.exec (LenPacket.step m) p calls = some q) :
    Sent big (done ++ calls) q := by
  induction calls generalizing done p with
  | nil =>
    rw [List.append_nil, ← Option.some.inj hq]
    exact h
  | cons c calls ih =>
    obtain ⟨r, hr, hrest⟩ := exec_cons.mp hq
    have hall := ih (h.step hr) hrest
    rwa [List.append_assoc] at hall

end LenPacket

namespace SendPacket

open LenPacket

variable {m : Malloc} {op : UInt16} {buffer : List UInt8} {useBigEndian isAutoMalloc : Bool}

theorem ok_new (buffer : List UInt8) (useBigEndian isAutoMalloc : Bool) :
    (LenPacket.new buffer useBigEndian isAutoMalloc).Ok := ⟨rfl, Nat.zero_le _⟩

/-- A new packet has its header and nothing behind it. -/
theorem sent_new {p : LenPacket} (h : new m op buffer useBigEndian isAutoMalloc = some p) :
    Sent useBigEndian [] p := by
  have hwrote := wrote_setOP (ok_new buffer useBigEndian isAutoMalloc) h
  have hfinish := mIsFinish_setOP h
  refine ⟨hwrote.ok, hwrote.bigEndian, ?_, ?_, fun hget => absurd hget List.not_mem_nil⟩
  · have hlength := congrArg List.length hwrote.written
    rw [hwrote.ok.length_written, List.length_append, length_headBytes,
      (ok_new buffer useBigEndian isAutoMalloc).length_written] at hlength
    exact hlength.trans (Nat.zero_add 6)
  · rw [hfinish]
    exact iff_of_false Bool.false_ne_true List.not_mem_nil

/-- After any calls. -/
theorem sent_run {calls : List Call} {q : LenPacket}
    (h : run m op buffer useBigEndian isAutoMalloc calls = some q) :
    Sent useBigEndian calls q := by
  obtain ⟨p, hp, hq⟩ := Option.bind_eq_some_iff.mp h
  exact (sent_new hp).exec hq

/-- A run ends where its first part does, or goes on from there. -/
theorem exists_run_of_append {pre post : List Call} {q : LenPacket}
    (h : run m op buffer useBigEndian isAutoMalloc (pre ++ post) = some q) :
    ∃ p, run m op buffer useBigEndian isAutoMalloc pre = some p := by
  obtain ⟨s, hs, hq⟩ := Option.bind_eq_some_iff.mp h
  rw [exec_append] at hq
  obtain ⟨p, hp, -⟩ := Option.bind_eq_some_iff.mp hq
  exact ⟨p, Option.bind_eq_some_iff.mpr ⟨s, hs, hp⟩⟩

/-- No byte is written between the first call of `getLen` and another one, and the length at the
first one survives the conversion that the reader does not undo. -/
def HeaderHolds (big : Bool) (calls : List Call) : Prop :=
  ∀ pre post, calls = pre ++ .getLen :: post →
    posAfter big pre = firstPos big calls ∧ firstPos big calls < 2 ^ 32 ∧
      (big = true ∨ byteSwap 4 (firstPos big calls) = firstPos big calls)

theorem firstPos_append_getLen (big : Bool) (pre post : List Call) :
    firstPos big (pre ++ .getLen :: post) = firstPos big (pre ++ [.getLen]) := by
  have hmem : Call.getLen ∈ pre ++ [.getLen] := List.mem_append_right _ List.mem_cons_self
  rw [← firstPos_append_of_mem hmem post, List.append_assoc, List.singleton_append]

/-- Directly after every call of `getLen` the header matches exactly if no write stands between
two of them, and the length is below 2^32 and, unless the packet is a big-endian one, the same
when its bytes are swapped. -/
theorem header_matches_iff (calls : List Call) (q : LenPacket)
    (hrun : run m op buffer useBigEndian isAutoMalloc calls = some q) :
    (∀ pre post, calls = pre ++ .getLen :: post →
      ∀ p, run m op buffer useBigEndian isAutoMalloc (pre ++ [.getLen]) = some p →
        p.HeaderMatches useBigEndian) ↔
      HeaderHolds useBigEndian calls := by
  have hmatch : ∀ pre post p, calls = pre ++ .getLen :: post →
      run m op buffer useBigEndian isAutoMalloc (pre ++ [.getLen]) = some p →
      (p.HeaderMatches useBigEndian ↔
        (endValue useBigEndian (firstPos useBigEndian calls)).toNat = posAfter useBigEndian pre) := by
    intro pre post p hcalls hp
    have hsent := sent_run hp
    have hmem : Call.getLen ∈ pre ++ [.getLen] := List.mem_append_right _ List.mem_cons_self
    obtain ⟨tail, htail⟩ := hsent.front hmem
    have hsix := hsent.six_le
    have hpos : p.mPos = posAfter useBigEndian pre :=
      hsent.pos.trans (posAfter_concat useBigEndian pre _)
    rw [hcalls, firstPos_append_getLen, ← hpos]
    exact headerMatches_iff hsent.ok (by omega) htail
  have hprefix : ∀ pre post, calls = pre ++ .getLen :: post →
      ∃ p, run m op buffer useBigEndian isAutoMalloc (pre ++ [.getLen]) = some p := by
    intro pre post hcalls
    rw [hcalls, ← List.singleton_append, ← List.append_assoc] at hrun
    exact exists_run_of_append hrun
  constructor
  · intro h pre post hcalls
    -- at the first of these calls the position is the one that the header has
    have hmem : Call.getLen ∈ calls := by
      rw [hcalls]
      exact List.mem_append_right _ List.mem_cons_self
    obtain ⟨pre₁, post₁, hcalls₁, hnew⟩ := List.eq_append_cons_of_mem hmem
    obtain ⟨p₁, hp₁⟩ := hprefix pre₁ post₁ hcalls₁
    have hvalue := (hmatch pre₁ post₁ p₁ hcalls₁ hp₁).mp (h pre₁ post₁ hcalls₁ p₁ hp₁)
    have hpos₁ : posAfter useBigEndian pre₁ = firstPos useBigEndian calls := by
      rw [hcalls₁, firstPos_append_getLen, firstPos_concat_getLen hnew]
    obtain ⟨p, hp⟩ := hprefix pre post hcalls
    have hsame := (hmatch pre post p hcalls hp).mp (h pre post hcalls p hp)
    rw [hpos₁] at hvalue
    exact ⟨hsame.symm.trans hvalue, (toNat_endValue_eq_iff _ _).mp hvalue⟩
  · intro h pre post hcalls p hp
    obtain ⟨hsame, hvalue⟩ := h pre post hcalls
    rw [hmatch pre post p hcalls hp, hsame]
    exact (toNat_endValue_eq_iff _ _).mpr hvalue

/-- A big-endian packet whose length is asked for twice. -/
theorem header_matches_twice :
    ∃ q, run zeroMalloc 1 (List.replicate 16 0) true false
        [.put (.write (.value (.uint32 5))), .getLen, .getLen] = some q ∧
      ((∀ pre post, [LenPacket.Call.put (.write (.value (.uint32 5))), .getLen, .getLen] =
          pre ++ .getLen :: post →
        ∀ p, run zeroMalloc 1 (List.replicate 16 0) true false (pre ++ [.getLen]) = some p →
          p.HeaderMatches true) ↔
        HeaderHolds true [.put (.write (.value (.uint32 5))), .getLen, .getLen]) :=
  ⟨_, rfl, header_matches_iff _ _ rfl⟩

/-- The header of an empty little-endian packet is read as 6 * 2^24, and that of a big-endian one
stays at 6 when a byte follows. -/
theorem not_header_matches :
    (¬ ∀ (m : Malloc) (op : UInt16) (buffer : List UInt8) (isAutoMalloc : Bool)
        (calls : List LenPacket.Call) (q : LenPacket),
      run m op buffer false isAutoMalloc calls = some q →
        ∀ pre post, calls = pre ++ .getLen :: post →
          ∀ p, run m op buffer false isAutoMalloc (pre ++ [.getLen]) = some p →
            p.HeaderMatches false) ∧
    ¬ ∀ (m : Malloc) (op : UInt16) (buffer : List UInt8) (isAutoMalloc : Bool)
        (calls : List LenPacket.Call) (q : LenPacket),
      run m op buffer true isAutoMalloc calls = some q →
        ∀ pre post, calls = pre ++ .getLen :: post →
          ∀ p, run m op buffer true isAutoMalloc (pre ++ [.getLen]) = some p →
            p.HeaderMatches true := by
  constructor
  · intro h
    obtain ⟨len, r, hread, hlen⟩ :=
      (h zeroMalloc 1 (List.replicate 8 0) false [.getLen] _ rfl [] [] rfl _ rfl).read
    have hvalue := congrArg (Option.map fun x => x.1.toNat) hread
    rw [Option.map_some, hlen] at hvalue
    revert hvalue
    decide
  · intro h
    obtain ⟨len, r, hread, hlen⟩ :=
      (h zeroMalloc 1 (List.replicate 8 0) false
        [.getLen, .put (.write (.value (.uint8 7))), .getLen] _ rfl
        [.getLen, .put (.write (.value (.uint8 7)))] [] rfl _ rfl).read
    have hvalue := congrArg (Option.map fun x => x.1.toNat) hread
    rw [Option.map_some, hlen] at hvalue
    revert hvalue
    decide

end SendPacket

end Netxy.PacketFormat
