import Mathlib.Data.Nat.Notation
import Netxy.Lib.BlockHash

/-!
# The Secure Hash Algorithm, SHA-1

The algorithm as the standard defines it, over messages of bytes: the padding, the schedule of
eighty words and the compression of a block.
-/

namespace SecureHash

abbrev Word := BitVec 32

/-- The five words of a hash value, and of the working variables. -/
@[ext]
structure Hash where
  a : Word
  b : Word
  c : Word
  d : Word
  e : Word
deriving DecidableEq, Repr

def Hash.words (h : Hash) : List Word := [h.a, h.b, h.c, h.d, h.e]

def initial : Hash :=
  { a := 0x67452301, b := 0xEFCDAB89, c := 0x98BADCFE, d := 0x10325476, e := 0xC3D2E1F0 }

/-! ## The compression -/

def ch (x y z : Word) : Word := (x &&& y) ^^^ (~~~x &&& z)
def parity (x y z : Word) : Word := x ^^^ y ^^^ z
def maj (x y z : Word) : Word := (x &&& y) ^^^ (x &&& z) ^^^ (y &&& z)

/-- The function of round `t`. -/
def f (t : ℕ) : Word → Word → Word → Word :=
  if t < 20 then ch else if t < 40 then parity else if t < 60 then maj else parity

/-- The constant of round `t`. -/
def K (t : ℕ) : Word :=
  if t < 20 then 0x5A827999 else if t < 40 then 0x6ED9EBA1
  else if t < 60 then 0x8F1BBCDC else 0xCA62C1D6

/-- The big-endian word `t` of a block. -/
def blockWord (block : List UInt8) (t : ℕ) : Word :=
  (block.getD (4 * t) 0).toBitVec ++ (block.getD (4 * t + 1) 0).toBitVec ++
    (block.getD (4 * t + 2) 0).toBitVec ++ (block.getD (4 * t + 3) 0).toBitVec

/-- The word of round `t`. -/
def W (M : ℕ → Word) (t : ℕ) : Word :=
  if t < 16 then M t
  else (W M (t - 3) ^^^ W M (t - 8) ^^^ W M (t - 14) ^^^ W M (t - 16)).rotateLeft 1

/-- Round `t` with its word. -/
def round (t : ℕ) (w : Word) (h : Hash) : Hash :=
  { a := h.a.rotateLeft 5 + f t h.b h.c h.d + h.e + K t + w
    b := h.a
    c := h.b.rotateLeft 30
    d := h.c
    e := h.d }

/-- The working variables after `t` rounds. -/
def working (M : ℕ → Word) (h : Hash) : ℕ → Hash
  | 0 => h
  | t + 1 => round t (W M t) (working M h t)

def compress (h : Hash) (block : List UInt8) : Hash :=
  let r := working (blockWord block) h 80
  { a := h.a + r.a, b := h.b + r.b, c := h.c + r.c, d := h.d + r.d, e := h.e + r.e }

/-! ## The message -/

/-- Byte `i` of a number, counted from the lowest. -/
def byteOf {w : ℕ} (x : BitVec w) (i : ℕ) : UInt8 := ⟨x.extractLsb' (8 * i) 8⟩

/-- The bytes of a number of `k` bytes, highest first. -/
def beBytes {w : ℕ} (k : ℕ) (x : BitVec w) : List UInt8 :=
  (List.range k).map fun i => byteOf x (k - 1 - i)

/-- How many zero bytes stand between the mark and the length. -/
def zeros (len : ℕ) : ℕ := (119 - len % 64) % 64

/-- The padded message: a one bit, zeros and the length in bits. -/
def pad (m : List UInt8) : List UInt8 :=
  m ++ [0x80] ++ List.replicate (zeros m.length) 0 ++ beBytes 8 (BitVec.ofNat 64 (8 * m.length))

def sha1 (m : List UInt8) : List UInt8 :=
  (BlockHash.chain compress 64 initial (pad m) ((pad m).length / 64)).words.flatMap (beBytes 4)

theorem length_pad (m : List UInt8) : (pad m).length = m.length + 1 + zeros m.length + 8 := by
  unfold pad beBytes
  simp only [List.length_append, List.length_singleton, List.length_replicate, List.length_map,
    List.length_range]

/-- A padded message is whole blocks. -/
theorem dvd_length_pad (m : List UInt8) : 64 ∣ (pad m).length := by
  rw [length_pad]
  unfold zeros
  omega

theorem length_sha1 (m : List UInt8) : (sha1 m).length = 20 := by
  simp [sha1, Hash.words, beBytes]

theorem W_of_lt (M : ℕ → Word) {t : ℕ} (h : t < 16) : W M t = M t := by
  rw [W, if_pos h]

theorem W_of_le (M : ℕ → Word) {t : ℕ} (h : 16 ≤ t) :
    W M t = (W M (t - 3) ^^^ W M (t - 8) ^^^ W M (t - 14) ^^^ W M (t - 16)).rotateLeft 1 := by
  rw [W, if_neg (by omega)]

end SecureHash
