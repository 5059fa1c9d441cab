import Netxy.Utils.SendPacket

/-!
# A buffer that does not grow

What is left of a write when the buffer is full: `writeBinary` with assertions compiled out, and
the packets of `AutoMallocPacket`.
-/

namespace Netxy.PacketFormat

namespace Packet

variable {m : Malloc} {n : ℕ} {p : Packet}

/-- The buffer has `n` bytes and keeps them. -/
structure Fixed (n : ℕ) (p : Packet) : Prop where
  ok : p.Ok
  notAuto : p.mIsAutoMalloc = false
  maxLen : p.mMaxLen = n

/-- Such a packet never gets another buffer. -/
theorem Fixed.growBuffer (h : p.Fixed n) (m : Malloc) (len : ℕ) : p.growBuffer m len = p := by
  have hnot : ¬(p.mIsAutoMalloc = true ∧ p.mMaxLen < p.mPos + len) := by
    intro hauto
    exact Bool.false_ne_true (h.notAuto.symm.trans hauto.1)
  exact if_neg hnot

/-- A write into the buffer, wherever the position is moved within it. -/
theorem Fixed.copyTo (h : p.Fixed n) (offset pos : ℕ) (bytes : List UInt8)
    (hroom : offset + bytes.length ≤ n) (hpos : pos ≤ n) :
    Packet.Fixed n { p.copyTo offset bytes with mPos := pos } := by
  have hlength := h.ok.length
  have hmax := h.maxLen
  refine ⟨⟨?_, ?_⟩, h.notAuto, hmax⟩
  · show (p.mBuffer.take offset ++ bytes ++ p.mBuffer.drop (offset + bytes.length)).length =
      p.mMaxLen
    rw [List.length_append, List.length_append, List.length_take, List.length_drop]
    omega
  · show pos ≤ p.mMaxLen
    omega

/-- Bytes that do not fit are dropped. -/
theorem Fixed.releaseBuffer_eq (h : p.Fixed n) (b : List UInt8) :
    p.releaseBuffer m b =
      if p.mPos + b.length ≤ n then
        { p.copyTo p.mPos b with mPos := p.mPos + b.length }
      else p := by
  rw [releaseBuffer]
  simp only [h.growBuffer m, h.maxLen]

/-- Writing leaves the buffer as long as it is. -/
theorem Fixed.releaseBuffer (h : p.Fixed n) (m : Malloc) (b : List UInt8) :
    (p.releaseBuffer m b).Fixed n := by
  rw [h.releaseBuffer_eq]
  split_ifs with hroom
  · exact h.copyTo _ _ _ hroom hroom
  · exact h

/-- A value that fits moves the position by its width. -/
theorem Fixed.mPos_releaseScalar {α : Type} [Scalar α] (h : p.Fixed n) (m : Malloc) (value : α)
    (hroom : p.mPos + Scalar.width α ≤ n) :
    (p.releaseScalar m value).mPos = p.mPos + Scalar.width α := by
  have hwidth := length_bytesOf (Scalar.hostToNetwork value p.mBigEndian)
  rw [← hwidth] at hroom
  rw [releaseScalar, h.releaseBuffer_eq, if_pos hroom, ← hwidth]

theorem Fixed.releaseClaimAndFill (h : p.Fixed n) (m : Malloc) (binary : List UInt8) :
    (p.releaseClaimAndFill m binary).Fixed n := by
  have hscalar : ∀ value : UInt32, (p.releaseScalar m value).Fixed n :=
    fun value => h.releaseBuffer m _
  rw [Packet.releaseClaimAndFill, releaseClaim]
  simp only [h.growBuffer m, h.maxLen]
  split_ifs with hroom
  · have hwidth : Scalar.width UInt32 = 4 := rfl
    have hpos := h.mPos_releaseScalar m (UInt32.ofNat binary.length)
      (by rw [hwidth]; omega)
    rw [hwidth] at hpos
    have hend : (p.releaseScalar m (UInt32.ofNat binary.length)).mPos + binary.length ≤ n := by
      omega
    exact (hscalar _).copyTo _ _ binary hend hend
  · exact hscalar 0

theorem Fixed.releasePut (h : p.Fixed n) (m : Malloc) (x : Put) : (p.releasePut m x).Fixed n := by
  cases x with
  | buffer bytes => exact h.releaseBuffer m bytes
  | write w =>
    cases w with
    | claimed binary => exact h.releaseClaimAndFill m binary
    | value v =>
      cases v with
      | binary value => exact (h.releaseBuffer m _).releaseBuffer m value
      | bool | int8 | uint8 | int16 | uint16 | int32 | uint32 | int64 | uint64 =>
        exact h.releaseBuffer m _

/-- Any sequence of writes. -/
theorem Fixed.foldl_releasePut (h : p.Fixed n) (m : Malloc) (puts : List Put) :
    (puts.foldl (Packet.releasePut m) p).Fixed n := by
  induction puts generalizing p with
  | nil => exact h
  | cons x puts ih => exact ih (h.releasePut m x)

end Packet

/-! ## `writeBinary` on a full buffer -/

namespace LenPacket

/-- A call of any public method that changes the packet. -/
inductive AnyCall
  | call (c : Call)
  | setOP (op : UInt16)
  | init

/-- Any of the calls, in the build without assertions. -/
def releaseAny (m : Malloc) (p : LenPacket) : AnyCall → LenPacket
  | .call c => p.releaseStep m c
  | .setOP op => p.releaseSetOP m op
  | .init => p.init

/-- A packet with a buffer that does not grow, after any calls. -/
def fixedAfter (m : Malloc) (buffer : List UInt8) (useBigEndian : Bool) (calls : List AnyCall) :
    LenPacket :=
  calls.foldl (releaseAny m) (LenPacket.new buffer useBigEndian false)

/-- A packet over an array of the caller. -/
theorem fixed_new (buffer : List UInt8) (useBigEndian : Bool) :
    (LenPacket.new buffer useBigEndian false).Fixed buffer.length :=
  ⟨⟨rfl, Nat.zero_le _⟩, rfl, rfl⟩

variable {m : Malloc} {n : ℕ} {p : LenPacket}

theorem fixed_releaseGetLen (h : p.Fixed n) : p.releaseGetLen.1.Fixed n := by
  rw [releaseGetLen]
  split_ifs with hfinish hroom
  · exact h
  · have hheader : p.header.length = 4 := length_endBytes p.mPos
    have hmax := h.maxLen
    have hpos := h.ok.pos_le
    exact h.copyTo 0 p.mPos p.header (by omega) (by omega)
  · exact h

theorem fixed_releaseSetOP (h : p.Fixed n) (m : Malloc) (op : UInt16) :
    (p.releaseSetOP m op).Fixed n := by
  rw [releaseSetOP]
  split_ifs with hzero
  · exact (h.releaseBuffer m _).releaseBuffer m _
  · exact h

theorem fixed_releaseAny (h : p.Fixed n) (m : Malloc) (c : AnyCall) :
    (p.releaseAny m c).Fixed n := by
  cases c with
  | call c =>
    cases c with
    | put x => exact h.releasePut m x
    | getLen => exact fixed_releaseGetLen h
  | setOP op => exact fixed_releaseSetOP h m op
  | init => exact ⟨⟨h.ok.length, Nat.zero_le _⟩, h.notAuto, h.maxLen⟩

/-- No sequence of calls changes the length of the buffer. -/
theorem fixed_fixedAfter (m : Malloc) (buffer : List UInt8) (useBigEndian : Bool)
    (calls : List AnyCall) : (fixedAfter m buffer useBigEndian calls).Fixed buffer.length := by
  have hall : ∀ p : LenPacket, p.Fixed buffer.length →
      (calls.foldl (releaseAny m) p).Fixed buffer.length := by
    induction calls with
    | nil =>
      intro p hp
      exact hp
    | cons c calls ih =>
      intro p hp
      exact ih _ (fixed_releaseAny hp m c)
  exact hall _ (fixed_new buffer useBigEndian)

/-- The length and all the bytes are behind what was written, or nothing has changed. -/
def Atomic (p q : Packet) (binary : List UInt8) : Prop :=
  (q.mPos = p.mPos + 4 + binary.length ∧
    q.written = p.written ++ scalarBytes p.mBigEndian (UInt32.ofNat binary.length) ++ binary) ∨
  (q.mPos = p.mPos ∧ q.written = p.written)

end LenPacket

namespace Packet

open LenPacket

variable {m : Malloc} {n : ℕ} {p : Packet}

/-- Where the length has room it is written, and the bytes have to follow. -/
theorem Fixed.atomic_iff_of_le (h : p.Fixed n) (binary : List UInt8) (hfour : p.mPos + 4 ≤ n) :
    Atomic p (p.releaseBinary m binary) binary ↔ p.mPos + 4 + binary.length ≤ n := by
  have hscalar : (p.releaseScalar m (UInt32.ofNat binary.length)).Fixed n := h.releaseBuffer m _
  have hpos := h.mPos_releaseScalar m (UInt32.ofNat binary.length) hfour
  have hwidth32 : Scalar.width UInt32 = 4 := rfl
  rw [hwidth32] at hpos
  by_cases hall : p.mPos + 4 + binary.length ≤ n
  · have hwidth : (scalarBytes p.mBigEndian (UInt32.ofNat binary.length)).length = 4 :=
      length_bytesOf _
    have hwrote : Wrote (scalarBytes p.mBigEndian (UInt32.ofNat binary.length)) p
        (p.releaseScalar m (UInt32.ofNat binary.length)) :=
      wrote_releaseBuffer h.ok (.inl (by rw [hwidth, h.maxLen]; exact hfour))
    have hdata : Wrote binary _ (p.releaseBinary m binary) :=
      wrote_releaseBuffer hscalar.ok (.inl (by rw [hscalar.maxLen]; omega))
    refine iff_of_true (.inl ⟨?_, ?_⟩) hall
    · rw [releaseBinary, hscalar.releaseBuffer_eq, if_pos (by omega), hpos]
    · rw [hdata.written, hwrote.written]
  · -- the bytes are dropped
    have hsame : p.releaseBinary m binary = p.releaseScalar m (UInt32.ofNat binary.length) := by
      rw [releaseBinary, hscalar.releaseBuffer_eq, if_neg (by omega)]
    refine iff_of_false ?_ hall
    intro hatomic
    rw [hsame] at hatomic
    rcases hatomic with ⟨hmoved, -⟩ | ⟨hstayed, -⟩
    · omega
    · omega

/-- Where the length is dropped, so must be the bytes. -/
theorem Fixed.atomic_iff_of_lt (h : p.Fixed n) (binary : List UInt8) (hfour : n < p.mPos + 4) :
    Atomic p (p.releaseBinary m binary) binary ↔ binary = [] ∨ n < p.mPos + binary.length := by
  have hsame : p.releaseScalar m (UInt32.ofNat binary.length) = p := by
    have hwidth : (bytesOf
        (Scalar.hostToNetwork (UInt32.ofNat binary.length) p.mBigEndian)).length = 4 :=
      length_bytesOf _
    rw [releaseScalar, h.releaseBuffer_eq, if_neg (by omega)]
  have hbinary : p.releaseBinary m binary = p.releaseBuffer m binary := by
    rw [releaseBinary, hsame]
  by_cases hdata : p.mPos + binary.length ≤ n
  · have hpos : (p.releaseBinary m binary).mPos = p.mPos + binary.length := by
      rw [hbinary, h.releaseBuffer_eq, if_pos hdata]
    have hwrote : Wrote binary p (p.releaseBinary m binary) := by
      rw [hbinary]
      exact wrote_releaseBuffer h.ok (.inl (by rw [h.maxLen]; exact hdata))
    constructor
    · intro hatomic
      rcases hatomic with ⟨hmoved, -⟩ | ⟨hstayed, -⟩
      · omega
      · exact .inl (List.length_eq_zero_iff.mp (by omega))
    · intro hroom
      have hempty : binary = [] := hroom.resolve_right (by omega)
      refine .inr ⟨?_, ?_⟩
      · rw [hpos, hempty, List.length_nil, Nat.add_zero]
      · rw [hwrote.written, hempty, List.append_nil]
  · have hnone : p.releaseBinary m binary = p := by
      rw [hbinary, h.releaseBuffer_eq, if_neg hdata]
    refine iff_of_true ?_ (.inr (by omega))
    rw [hnone]
    exact .inr ⟨rfl, rfl⟩

/-- With room for both parts both are written, with room for none of them none is; and a string
that is empty needs no room behind a length that was dropped. -/
theorem Fixed.atomic_releaseBinary_iff (h : p.Fixed n) (binary : List UInt8) :
    Atomic p (p.releaseBinary m binary) binary ↔
      4 + binary.length ≤ n - p.mPos ∨
        (n - p.mPos < 4 ∧ (binary = [] ∨ n - p.mPos < binary.length)) := by
  have hle : p.mPos ≤ n := h.maxLen ▸ h.ok.pos_le
  have hlong : n < p.mPos + binary.length ↔ n - p.mPos < binary.length := by omega
  by_cases hfour : p.mPos + 4 ≤ n
  · rw [h.atomic_iff_of_le binary hfour]
    omega
  · have hlt : n < p.mPos + 4 := by omega
    have hroom : ¬ 4 + binary.length ≤ n - p.mPos := by omega
    have hless : n - p.mPos < 4 := by omega
    rw [h.atomic_iff_of_lt binary hlt, hlong, or_iff_right hroom, and_iff_right hless]

end Packet

/-- On a packet that does not grow, in any state that calls can bring it to, `writeBinary` with
assertions compiled out is atomic exactly if there is room for the length and the bytes, or for
neither of them. -/
theorem writeBinary_atomic_iff (m : Malloc) (buffer : List UInt8) (useBigEndian : Bool)
    (calls : List LenPacket.AnyCall) (binary : List UInt8) :
    LenPacket.Atomic (LenPacket.fixedAfter m buffer useBigEndian calls).toPacket
        ((LenPacket.fixedAfter m buffer useBigEndian calls).releaseBinary m binary) binary ↔
      4 + binary.length ≤
          buffer.length - (LenPacket.fixedAfter m buffer useBigEndian calls).mPos ∨
        (buffer.length - (LenPacket.fixedAfter m buffer useBigEndian calls).mPos < 4 ∧
          (binary = [] ∨ buffer.length - (LenPacket.fixedAfter m buffer useBigEndian calls).mPos <
            binary.length)) :=
  (LenPacket.fixed_fixedAfter m buffer useBigEndian calls).atomic_releaseBinary_iff binary

/-- Into four bytes `writeBinary` puts the length of a string, and nothing of the string. -/
theorem not_writeBinary_atomic :
    ¬ ∀ (m : Malloc) (buffer : List UInt8) (useBigEndian : Bool)
        (calls : List LenPacket.AnyCall) (binary : List UInt8),
      LenPacket.Atomic (LenPacket.fixedAfter m buffer useBigEndian calls).toPacket
        ((LenPacket.fixedAfter m buffer useBigEndian calls).releaseBinary m binary) binary := by
  intro h
  rcases h zeroMalloc [0, 0, 0, 0] true [] [7] with ⟨hmoved, -⟩ | ⟨hstayed, -⟩
  · revert hmoved
    decide
  · revert hstayed
    decide

/-! ## `AutoMallocPacket` -/

namespace Packet

variable {m : Malloc} {n : ℕ} {p q : Packet}

/-- The bytes of a sequence of writes. -/
def encodePuts (big : Bool) (puts : List Put) : List UInt8 := puts.flatMap (Put.encode big)

/-- Some writes, one behind the other. -/
def puts (m : Malloc) (p : Packet) (l : List Put) : Option Packet := l.foldlM (Packet.put m) p

/-- The writes are there, one behind the other. -/
theorem Ok.wrote_puts (hp : p.Ok) {l : List Put} (h : p.puts m l = some q) :
    Wrote (encodePuts p.mBigEndian l) p q := by
  induction l generalizing p with
  | nil =>
    rw [← Option.some.inj h]
    exact ⟨hp, (List.append_nil _).symm, rfl, rfl, fun n hn => hn⟩
  | cons x l ih =>
    rw [puts, List.foldlM_cons] at h
    obtain ⟨r, hr, hq⟩ := Option.bind_eq_some_iff.mp h
    have hfirst := hp.wrote_put hr
    have hrest := ih hfirst.ok hq
    rw [hfirst.bigEndian] at hrest
    exact hfirst.trans hrest

/-- Writes that fit in all are made. -/
theorem Ok.exists_puts (hp : p.Ok) {l : List Put}
    (h : p.Fits m (encodePuts p.mBigEndian l).length) : ∃ q, p.puts m l = some q := by
  induction l generalizing p with
  | nil => exact ⟨p, rfl⟩
  | cons x l ih =>
    rw [encodePuts, List.flatMap_cons, List.length_append] at h
    obtain ⟨r, hr⟩ := hp.exists_put (h.mono (Nat.le_add_right _ _))
    have hfirst := hp.wrote_put hr
    have hfits := hfirst.fits h
    rw [← hfirst.bigEndian] at hfits
    obtain ⟨q, hq⟩ := ih hfirst.ok hfits
    refine ⟨q, ?_⟩
    rw [puts, List.foldlM_cons]
    exact Option.bind_eq_some_iff.mpr ⟨r, hr, hq⟩

/-- Where no assertion fails, the build makes no difference. -/
theorem releasePuts_eq {l : List Put} (h : p.puts m l = some q) :
    l.foldl (Packet.releasePut m) p = q := by
  induction l generalizing p with
  | nil => exact Option.some.inj h
  | cons x l ih =>
    rw [puts, List.foldlM_cons] at h
    obtain ⟨r, hr, hq⟩ := Option.bind_eq_some_iff.mp h
    rw [List.foldl_cons, releasePut_eq hr]
    exact ih hq

end Packet

/-- The header is written where there is room for it. -/
theorem LenPacket.exists_setOP {m : Malloc} {p : LenPacket} (hp : p.Ok) (hzero : p.mPos = 0)
    (h : p.Fits m 6) (op : UInt16) : ∃ q, p.setOP m op = some q := by
  have hlength : ∀ big, (scalarBytes big PACKET_HEAD_LEN).length = 4 := fun big => length_bytesOf _
  have hop : ∀ big, (scalarBytes big op).length = 2 := fun big => length_bytesOf _
  obtain ⟨r, hr⟩ := Packet.exists_writeBuffer hp (b := scalarBytes p.mBigEndian PACKET_HEAD_LEN)
    (by rw [hlength]; exact h.mono (by omega))
  have hfirst : Packet.Wrote (scalarBytes p.mBigEndian PACKET_HEAD_LEN) p.toPacket r :=
    hp.wrote_writeScalar hr
  obtain ⟨t, ht⟩ := Packet.exists_writeBuffer hfirst.ok (b := scalarBytes r.mBigEndian op)
    (hfirst.fits (by rw [hlength, hop]; exact h))
  refine ⟨{ t with mIsFinish := p.mIsFinish }, (if_pos hzero).trans ?_⟩
  exact Option.bind_eq_some_iff.mpr ⟨r, hr, Option.bind_eq_some_iff.mpr ⟨t, ht, rfl⟩⟩

/-- Where no assertion fails, the build makes no difference. -/
theorem LenPacket.releaseSetOP_eq {m : Malloc} {p q : LenPacket} {op : UInt16}
    (h : p.setOP m op = some q) : p.releaseSetOP m op = q := by
  obtain ⟨hzero, h⟩ := Option.ite_none_right_eq_some.mp h
  obtain ⟨r, hr, h⟩ := Option.bind_eq_some_iff.mp h
  obtain ⟨t, ht, h⟩ := Option.bind_eq_some_iff.mp h
  rw [releaseSetOP, if_pos hzero, Packet.releaseScalar_eq hr, Packet.releaseScalar_eq ht]
  exact Option.some.inj h

namespace AutoMallocPacket

/-- The constructor hands on the array `mData` of `SIZE` bytes, and `true` behind its size, where
`SendPacket` takes `useBigEndian`; `isAutoMalloc` keeps its default. -/
def new (m : Malloc) (op : UInt16) (mData : List UInt8) : Option LenPacket :=
  SendPacket.new m op mData true false

/-- The constructor with assertions compiled out. -/
def releaseNew (m : Malloc) (op : UInt16) (mData : List UInt8) : LenPacket :=
  SendPacket.releaseNew m op mData true false

/-- The packet holds its header and all the writes in order, and nothing else. -/
def Holds (op : UInt16) (puts : List Put) (p : Packet) : Prop :=
  p.mPos = PACKET_HEAD_LEN.toNat + (Packet.encodePuts true puts).length ∧
    p.written = headBytes true op ++ Packet.encodePuts true puts

/-- With assertions the writes all come to an end and are held. -/
def Applies (m : Malloc) (op : UInt16) (mData : List UInt8) (puts : List Put) : Prop :=
  ∃ p q, new m op mData = some p ∧ p.toPacket.puts m puts = some q ∧ Holds op puts q

/-- What becomes of them without. -/
def releaseAll (m : Malloc) (op : UInt16) (mData : List UInt8) (puts : List Put) : Packet :=
  puts.foldl (Packet.releasePut m) (releaseNew m op mData).toPacket

variable {m : Malloc} {op : UInt16} {mData : List UInt8} {puts : List Put}

theorem fixed_releaseAll : (releaseAll m op mData puts).Fixed mData.length :=
  (LenPacket.fixed_releaseSetOP (LenPacket.fixed_new mData true) m op).foldl_releasePut m puts

/-- What fits in all is applied. -/
theorem applies_of_le
    (h : PACKET_HEAD_LEN.toNat + (Packet.encodePuts true puts).length ≤ mData.length) :
    Applies m op mData puts := by
  have hsix : PACKET_HEAD_LEN.toNat = 6 := rfl
  have hok := SendPacket.ok_new mData true false
  have hroom : (LenPacket.new mData true false).Fits m
      ((headBytes true op).length + (Packet.encodePuts true puts).length) := by
    refine .inl ?_
    show 0 + _ ≤ mData.length
    rw [length_headBytes]
    omega
  obtain ⟨p, hp⟩ := LenPacket.exists_setOP hok rfl
    (hroom.mono (by rw [length_headBytes]; omega)) op
  have hhead := LenPacket.wrote_setOP hok hp
  have hbig : p.mBigEndian = true := hhead.bigEndian
  have hfits := hhead.fits hroom
  rw [← hbig] at hfits
  obtain ⟨q, hq⟩ := hhead.ok.exists_puts hfits
  have hputs := hhead.ok.wrote_puts hq
  rw [hbig] at hputs
  have hempty : (LenPacket.new mData true false).written = [] := List.take_zero
  have hnewBig : (LenPacket.new mData true false).mBigEndian = true := rfl
  have hwritten : q.written = headBytes true op ++ Packet.encodePuts true puts := by
    rw [hputs.written, hhead.written, hempty, hnewBig, List.nil_append]
  refine ⟨p, q, hp, hq, ?_, hwritten⟩
  have hlength := hputs.ok.length_written
  rw [hwritten, List.length_append, length_headBytes] at hlength
  omega

/-- Where no assertion fails, the packet is the same without them. -/
theorem releaseAll_eq {p : LenPacket} {q : Packet} (hp : new m op mData = some p)
    (hq : p.toPacket.puts m puts = some q) : releaseAll m op mData puts = q := by
  have hset : (LenPacket.new mData true false).setOP m op = some p := hp
  have hnew : releaseNew m op mData = p := LenPacket.releaseSetOP_eq hset
  rw [releaseAll, hnew]
  exact Packet.releasePuts_eq hq

/-- What was applied had room. -/
theorem le_of_holds (h : Holds op puts (releaseAll m op mData puts)) :
    PACKET_HEAD_LEN.toNat + (Packet.encodePuts true puts).length ≤ mData.length := by
  have hfixed : (releaseAll m op mData puts).Fixed mData.length := fixed_releaseAll
  rw [← h.1, ← hfixed.maxLen]
  exact hfixed.ok.pos_le

/-- Every write is applied, with and without assertions, exactly if the header and the writes fit
into the `SIZE` bytes that the packet starts with. -/
theorem applies_iff (m : Malloc) (op : UInt16) (mData : List UInt8) (puts : List Put) :
    (Applies m op mData puts ↔
      PACKET_HEAD_LEN.toNat + (Packet.encodePuts true puts).length ≤ mData.length) ∧
    (Holds op puts (releaseAll m op mData puts) ↔
      PACKET_HEAD_LEN.toNat + (Packet.encodePuts true puts).length ≤ mData.length) := by
  have happlied : Applies m op mData puts → Holds op puts (releaseAll m op mData puts) := by
    intro happlies
    obtain ⟨p, q, hp, hq, hholds⟩ := happlies
    rw [releaseAll_eq hp hq]
    exact hholds
  constructor
  · exact ⟨fun h => le_of_holds (happlied h), applies_of_le⟩
  · exact ⟨le_of_holds, fun h => happlied (applies_of_le h)⟩

/-- A string of as many bytes as the buffer has is lost, though there is memory to grow. -/
theorem not_applies :
    ¬ ∀ (m : Malloc) (op : UInt16) (mData : List UInt8) (puts : List Put),
      m.Succeeds → PACKET_HEAD_LEN.toNat ≤ mData.length →
        Applies m op mData puts ∧ Holds op puts (releaseAll m op mData puts) := by
  intro h
  have hsucceeds : zeroMalloc.Succeeds := fun _ _ => rfl
  obtain ⟨-, hpos, -⟩ := h zeroMalloc 1 (List.replicate 8 0)
    [.write (.value (.binary (List.replicate 8 7)))] hsucceeds (by decide)
  revert hpos
  decide

end AutoMallocPacket

end Netxy.PacketFormat
