import Netxy.Lib.BitGroups
import Netxy.Lib.CString
import Mathlib.Tactic.IntervalCases

/-!
# `base64.cpp`

The encoder and the decoder with their two small arrays, which keep the bytes of the group
before. `encode_eq` and `decode_eq` say what they compute in terms of the bits of their input
regrouped, `decode_encode` that the one undoes the other.
-/

namespace Netxy.Base64

open CString BitGroups

/-- `base64_chars`. -/
def base64Chars : List UInt8 :=
  ascii "ABCDEFGHIJKLMNOPQRSTUVWXYZabcdefghijklmnopqrstuvwxyz0123456789+/"

/-- `isalnum` in the C locale. -/
def isalnum (c : UInt8) : Bool :=
  (48 ≤ c && c ≤ 57) || (65 ≤ c && c ≤ 90) || (97 ≤ c && c ≤ 122)

/-- `is_base64`. -/
def isBase64 (c : UInt8) : Bool := isalnum c || c == 43 || c == 47

/-- The padding character `=`. -/
def equals : UInt8 := 61

/-! ## `base64_encode` -/

/-- `char_array_4` from `char_array_3`. -/
def toChars (a : Vector UInt8 3) : Vector UInt8 4 :=
  #v[(a[0] &&& 0xfc) >>> 2,
    ((a[0] &&& 0x03) <<< 4) + ((a[1] &&& 0xf0) >>> 4),
    ((a[1] &&& 0x0f) <<< 2) + ((a[2] &&& 0xc0) >>> 6),
    a[2] &&& 0x3f]

/-- `base64_chars[x]`. -/
def charAt (x : UInt8) : UInt8 := base64Chars.getD x.toNat 0

structure EncodeState where
  i : Fin 3
  charArray3 : Vector UInt8 3
  ret : List UInt8

/-- One turn of the encoder's loop. -/
def encodeByte (s : EncodeState) (byte : UInt8) : EncodeState :=
  let charArray3 := s.charArray3.set s.i byte
  if s.i = 2 then
    { i := 0, charArray3 := charArray3, ret := s.ret ++ (toChars charArray3).toList.map charAt }
  else { i := s.i + 1, charArray3 := charArray3, ret := s.ret }

/-- What follows the loop. -/
def encodeRest (s : EncodeState) : List UInt8 :=
  if s.i ≠ 0 then
    let charArray3 : Vector UInt8 3 := Vector.ofFn fun j => if s.i ≤ j then 0 else s.charArray3[j]
    s.ret ++ ((toChars charArray3).toList.take (s.i + 1)).map charAt ++
      List.replicate (3 - s.i) equals
  else s.ret

/-- `base64_encode`; `memory` is what the local array holds at first. -/
def encode (memory : Vector UInt8 3) (bytes : List UInt8) : List UInt8 :=
  encodeRest (bytes.foldl encodeByte { i := 0, charArray3 := memory, ret := [] })

/-! ## `base64_decode` -/

/-- `base64_chars.find(c)`, as it is stored into an `unsigned char`; `npos` becomes 255. -/
def find (c : UInt8) : UInt8 :=
  match base64Chars.idxOf? c with
  | some k => UInt8.ofNat k
  | none => 255

/-- `char_array_3` from the places in `char_array_4`. -/
def toBytes (a : Vector UInt8 4) : Vector UInt8 3 :=
  #v[(a[0] <<< 2) + ((a[1] &&& 0x30) >>> 4),
    ((a[1] &&& 0xf) <<< 4) + ((a[2] &&& 0x3c) >>> 2),
    ((a[2] &&& 0x3) <<< 6) + a[3]]

structure DecodeState where
  i : Fin 4
  charArray4 : Vector UInt8 4
  ret : List UInt8

/-- One turn of the decoder's loop. -/
def decodeChar (s : DecodeState) (c : UInt8) : DecodeState :=
  let charArray4 := s.charArray4.set s.i c
  if s.i = 3 then
    let places := charArray4.map find
    { i := 0, charArray4 := places, ret := s.ret ++ (toBytes places).toList }
  else { i := s.i + 1, charArray4 := charArray4, ret := s.ret }

/-- The decoder's loop. `inLen` is an `int`; behind the last character of the string stands a
zero, which ends the loop too. -/
def decodeLoop : ℤ → DecodeState → List UInt8 → DecodeState
  | _, s, [] => s
  | inLen, s, c :: cs =>
    if inLen ≠ 0 ∧ c ≠ equals ∧ isBase64 c then decodeLoop (inLen - 1) (decodeChar s c) cs else s

/-- What follows the loop. -/
def decodeRest (s : DecodeState) : List UInt8 :=
  if s.i ≠ 0 then
    let charArray4 : Vector UInt8 4 := Vector.ofFn fun j => if s.i ≤ j then 0 else s.charArray4[j]
    s.ret ++ (toBytes (charArray4.map find)).toList.take (s.i - 1)
  else s.ret

/-- `base64_decode`; `memory` is what the local array holds at first. -/
def decode (memory : Vector UInt8 4) (encoded : List UInt8) : List UInt8 :=
  decodeRest (decodeLoop (Int.bmod encoded.length (2 ^ 32))
    { i := 0, charArray4 := memory, ret := [] } encoded)

/-! ## The bits regrouped -/

/-- The letter for six bits. -/
def letter (x : BitVec 6) : UInt8 := base64Chars.getD x.toNat 0

/-- The six bits a letter stands for. -/
def place (c : UInt8) : BitVec 6 := BitVec.ofNat 6 (base64Chars.idxOf c)

/-- The bits of bytes. -/
def bitsOf (bytes : List UInt8) : List Bool := (bytes.map UInt8.toBitVec).flatMap msbs

/-- The bytes in bits. -/
def octets (bits : List Bool) : List UInt8 := (group 8 bits).map UInt8.ofBitVec

/-- The letters for bytes: groups of six bits, the last one filled up with zero bits. -/
def letters (bytes : List UInt8) : List UInt8 :=
  (group 6 (bitsOf bytes ++ List.replicate ((6 - 8 * bytes.length % 6) % 6) false)).map letter

/-- The encoding of the standard: the letters, and padding up to groups of four. -/
def standard (bytes : List UInt8) : List UInt8 :=
  letters bytes ++ List.replicate ((4 - (letters bytes).length % 4) % 4) equals

/-- Every group of six bits has a letter. -/
theorem isBase64_letter : ∀ x : BitVec 6, isBase64 (letter x) = true := by decide

/-- A letter's place in the alphabet is the group it stands for. -/
theorem place_letter : ∀ x : BitVec 6, place (letter x) = x := by decide

theorem length_bitsOf (bytes : List UInt8) : (bitsOf bytes).length = 8 * bytes.length := by
  rw [bitsOf, length_flatMap_msbs, List.length_map, Nat.mul_comm]

/-- As many letters as groups of six bits, the last one filled up. -/
theorem length_letters (bytes : List UInt8) :
    (letters bytes).length = (8 * bytes.length + 5) / 6 := by
  rw [letters, List.length_map, length_group, List.length_append, length_bitsOf,
    List.length_replicate]
  omega

/-! ## The encoder -/

/-- The four groups of six bits in three bytes. -/
def sextets (a b c : UInt8) : List (BitVec 6) :=
  (toChars #v[a, b, c]).toList.map fun x => x.toBitVec.setWidth 6

theorem msbs_eight (x : BitVec 8) :
    msbs x = [x.getMsbD 0, x.getMsbD 1, x.getMsbD 2, x.getMsbD 3, x.getMsbD 4, x.getMsbD 5,
      x.getMsbD 6, x.getMsbD 7] := rfl

theorem msbs_six (x : BitVec 6) :
    msbs x = [x.getMsbD 0, x.getMsbD 1, x.getMsbD 2, x.getMsbD 3, x.getMsbD 4, x.getMsbD 5] := rfl

/-- The sums in the source are of parts that do not overlap. -/
theorem toBitVec_sextet₁ (x y : UInt8) :
    (((x &&& 0x03) <<< 4) + ((y &&& 0xf0) >>> 4)).toBitVec =
      ((x.toBitVec &&& 0x03) <<< 4) ||| ((y.toBitVec &&& 0xf0) >>> 4) := by
  rw [UInt8.toBitVec_add, BitVec.add_eq_or_of_and_eq_zero]
  · rfl
  · apply BitVec.eq_of_getLsbD_eq
    intro i hi
    simp
    interval_cases i <;> simp

/-- The two parts have no bit in common, so the sum is an or. -/
theorem toBitVec_sextet₂ (x y : UInt8) :
    (((x &&& 0x0f) <<< 2) + ((y &&& 0xc0) >>> 6)).toBitVec =
      ((x.toBitVec &&& 0x0f) <<< 2) ||| ((y.toBitVec &&& 0xc0) >>> 6) := by
  rw [UInt8.toBitVec_add, BitVec.add_eq_or_of_and_eq_zero]
  · rfl
  · apply BitVec.eq_of_getLsbD_eq
    intro i hi
    simp
    interval_cases i <;> simp

/-- Three bytes as four groups. -/
theorem sextets_eq (a b c : UInt8) :
    sextets a b c = [
      ((a.toBitVec &&& 0xfc) >>> 2).setWidth 6,
      (((a.toBitVec &&& 0x03) <<< 4) ||| ((b.toBitVec &&& 0xf0) >>> 4)).setWidth 6,
      (((b.toBitVec &&& 0x0f) <<< 2) ||| ((c.toBitVec &&& 0xc0) >>> 6)).setWidth 6,
      (c.toBitVec &&& 0x3f).setWidth 6] := by
  rw [← toBitVec_sextet₁, ← toBitVec_sextet₂]
  rfl

/-- The four groups have the bits of the three bytes. -/
theorem flatMap_msbs_sextets (a b c : UInt8) :
    (sextets a b c).flatMap msbs = msbs a.toBitVec ++ msbs b.toBitVec ++ msbs c.toBitVec := by
  rw [sextets_eq]
  simp only [List.flatMap_cons, List.flatMap_nil, msbs_six, msbs_eight]
  simp [BitVec.getMsbD_eq_getLsbD]

/-- The entries of `char_array_4` are below 64. -/
theorem toChars_eq (a b c : UInt8) :
    (toChars #v[a, b, c]).toList = (sextets a b c).map fun x => UInt8.ofBitVec (x.setWidth 8) := by
  have h0 : UInt8.ofBitVec ((((a.toBitVec &&& 0xfc) >>> 2).setWidth 6).setWidth 8) =
      (a &&& 0xfc) >>> 2 := by
    apply UInt8.eq_of_toBitVec_eq
    apply BitVec.eq_of_getLsbD_eq
    intro i hi
    simp
    interval_cases i <;> simp
  have h1 : UInt8.ofBitVec (((((a.toBitVec &&& 0x03) <<< 4) |||
      ((b.toBitVec &&& 0xf0) >>> 4)).setWidth 6).setWidth 8) =
      ((a &&& 0x03) <<< 4) + ((b &&& 0xf0) >>> 4) := by
    apply UInt8.eq_of_toBitVec_eq
    rw [toBitVec_sextet₁]
    apply BitVec.eq_of_getLsbD_eq
    intro i hi
    simp
    interval_cases i <;> simp
  have h2 : UInt8.ofBitVec (((((b.toBitVec &&& 0x0f) <<< 2) |||
      ((c.toBitVec &&& 0xc0) >>> 6)).setWidth 6).setWidth 8) =
      ((b &&& 0x0f) <<< 2) + ((c &&& 0xc0) >>> 6) := by
    apply UInt8.eq_of_toBitVec_eq
    rw [toBitVec_sextet₂]
    apply BitVec.eq_of_getLsbD_eq
    intro i hi
    simp
    interval_cases i <;> simp
  have h3 : UInt8.ofBitVec (((c.toBitVec &&& 0x3f).setWidth 6).setWidth 8) = c &&& 0x3f := by
    apply UInt8.eq_of_toBitVec_eq
    apply BitVec.eq_of_getLsbD_eq
    intro i hi
    simp
    interval_cases i <;> simp
  rw [sextets_eq, List.map_cons, List.map_cons, List.map_cons, List.map_cons, List.map_nil, h0, h1,
    h2, h3]
  rfl

/-- The letter of a group. -/
theorem charAt_ofBitVec (x : BitVec 6) : charAt (UInt8.ofBitVec (x.setWidth 8)) = letter x := by
  have hlt := x.isLt
  have hnat : (UInt8.ofBitVec (x.setWidth 8)).toNat = x.toNat := by
    show (x.setWidth 8).toNat = _
    rw [BitVec.toNat_setWidth]
    omega
  rw [charAt, hnat, letter]

/-- The letters of three bytes. -/
theorem map_charAt_toChars (a b c : UInt8) :
    (toChars #v[a, b, c]).toList.map charAt = (sextets a b c).map letter := by
  rw [toChars_eq, List.map_map]
  apply List.map_congr_left
  intro x _
  exact charAt_ofBitVec x

theorem bitsOf_cons (a : UInt8) (bytes : List UInt8) :
    bitsOf (a :: bytes) = msbs a.toBitVec ++ bitsOf bytes := rfl

/-- Three bytes in front are four letters in front. -/
theorem standard_three (a b c : UInt8) (rest : List UInt8) :
    standard (a :: b :: c :: rest) = (sextets a b c).map letter ++ standard rest := by
  have hfiller : 8 * (a :: b :: c :: rest).length % 6 = 8 * rest.length % 6 := by
    simp only [List.length_cons]
    omega
  have hletters : letters (a :: b :: c :: rest) = (sextets a b c).map letter ++ letters rest := by
    have hbits : bitsOf (a :: b :: c :: rest) = (sextets a b c).flatMap msbs ++ bitsOf rest := by
      rw [flatMap_msbs_sextets, bitsOf_cons, bitsOf_cons, bitsOf_cons, List.append_assoc,
        List.append_assoc]
    have hwhole : group 6 ((sextets a b c).flatMap msbs) = sextets a b c := by
      have h := group_flatMap_msbs (by decide : 0 < 6) (sextets a b c) (r := []) (by decide)
      rwa [List.append_nil] at h
    have hdvd : 6 ∣ ((sextets a b c).flatMap msbs).length := by
      rw [length_flatMap_msbs]
      exact Nat.dvd_mul_left 6 _
    rw [letters, hfiller, hbits, List.append_assoc, group_append_of_dvd (by decide) hdvd, hwhole,
      List.map_append, letters]
  have hpad : (letters (a :: b :: c :: rest)).length % 4 = (letters rest).length % 4 := by
    have hfour : ((sextets a b c).map letter).length = 4 := rfl
    rw [hletters, List.length_append, hfour]
    omega
  rw [standard, hpad, hletters, List.append_assoc, standard]

theorem msbs_zero : msbs (0 : UInt8).toBitVec = List.replicate 8 false := by decide

/-- The letters of the last one or two bytes. -/
theorem letters_rest {a b : UInt8} {bytes : List UInt8} {k : ℕ}
    (hbits : bitsOf bytes ++ List.replicate ((6 - 8 * bytes.length % 6) % 6) false =
      (msbs a.toBitVec ++ msbs b.toBitVec ++ msbs (0 : UInt8).toBitVec).take (k * 6)) :
    letters bytes = ((sextets a b 0).take k).map letter := by
  have h := group_flatMap_msbs (by decide : 0 < 6) ((sextets a b 0).take k) (r := [])
    (by decide)
  rw [List.append_nil, flatMap_msbs_take, flatMap_msbs_sextets, ← hbits] at h
  rw [letters, h]

/-- **The encoder follows the standard**, whatever its array holds. -/
theorem encodeRest_foldl : ∀ (bytes : List UInt8) (arr : Vector UInt8 3) (ret : List UInt8),
    encodeRest (bytes.foldl encodeByte { i := 0, charArray3 := arr, ret := ret }) =
      ret ++ standard bytes
  | [], arr, ret => by
    have hnil : standard [] = [] := rfl
    rw [hnil, List.append_nil]
    rfl
  | [a], arr, ret => by
    have hfiller : (6 - 8 * [a].length % 6) % 6 = 4 := by
      rw [List.length_singleton]
    have hletters : letters [a] = ((sextets a 0 0).take 2).map letter := letters_rest (by
      rw [msbs_zero, bitsOf_cons, msbs_eight, hfiller]
      rfl)
    have hstandard : standard [a] = ((sextets a 0 0).take 2).map letter ++ [equals, equals] := by
      rw [standard, hletters]
      rfl
    have harr : (Vector.ofFn fun j : Fin 3 => if (1 : Fin 3) ≤ j then 0 else (arr.set 0 a)[j]) =
        #v[a, 0, 0] := by
      apply Vector.ext
      intro i hi
      interval_cases i <;> simp
    have hrest : encodeRest ([a].foldl encodeByte { i := 0, charArray3 := arr, ret := ret }) =
        ret ++ ((toChars (Vector.ofFn fun j : Fin 3 =>
          if (1 : Fin 3) ≤ j then 0 else (arr.set 0 a)[j])).toList.take 2).map charAt ++
          [equals, equals] := rfl
    rw [hrest, harr, List.map_take, map_charAt_toChars, hstandard, List.map_take,
      List.append_assoc]
  | [a, b], arr, ret => by
    have hfiller : (6 - 8 * [a, b].length % 6) % 6 = 2 := by
      rw [List.length_cons, List.length_singleton]
    have hletters : letters [a, b] = ((sextets a b 0).take 3).map letter := letters_rest (by
      rw [msbs_zero, bitsOf_cons, bitsOf_cons, msbs_eight, msbs_eight, hfiller]
      rfl)
    have hstandard : standard [a, b] = ((sextets a b 0).take 3).map letter ++ [equals] := by
      rw [standard, hletters]
      rfl
    have harr : (Vector.ofFn fun j : Fin 3 =>
        if (2 : Fin 3) ≤ j then 0 else ((arr.set 0 a).set 1 b)[j]) = #v[a, b, 0] := by
      apply Vector.ext
      intro i hi
      interval_cases i <;> simp
    have hrest : encodeRest ([a, b].foldl encodeByte { i := 0, charArray3 := arr, ret := ret }) =
        ret ++ ((toChars (Vector.ofFn fun j : Fin 3 =>
          if (2 : Fin 3) ≤ j then 0 else ((arr.set 0 a).set 1 b)[j])).toList.take 3).map charAt ++
          [equals] := rfl
    rw [hrest, harr, List.map_take, map_charAt_toChars, hstandard, List.map_take,
      List.append_assoc]
  | a :: b :: c :: rest, arr, ret => by
    have harr : ((arr.set 0 a).set 1 b).set 2 c = #v[a, b, c] := by
      apply Vector.ext
      intro i hi
      interval_cases i <;> simp
    have hgroup : (a :: b :: c :: rest).foldl encodeByte
        { i := 0, charArray3 := arr, ret := ret } =
        rest.foldl encodeByte
          { i := 0, charArray3 := ((arr.set 0 a).set 1 b).set 2 c,
            ret := ret ++ (toChars (((arr.set 0 a).set 1 b).set 2 c)).toList.map charAt } := rfl
    rw [hgroup, harr, map_charAt_toChars, encodeRest_foldl rest, standard_three,
      List.append_assoc]

/-- `base64_encode` is the encoding of the standard. -/
theorem encode_eq (memory : Vector UInt8 3) (bytes : List UInt8) :
    encode memory bytes = standard bytes := encodeRest_foldl bytes memory []

/-! ## The decoder -/

/-- `find` gives the place of a letter. -/
theorem find_eq {c : UInt8} (h : isBase64 c = true) :
    find c = UInt8.ofBitVec ((place c).setWidth 8) := by
  have hall : ∀ n < 256, isBase64 (UInt8.ofNat n) = true →
      find (UInt8.ofNat n) = UInt8.ofBitVec ((place (UInt8.ofNat n)).setWidth 8) := by
    decide +kernel
  have hc := hall c.toNat c.toNat_lt
  rw [UInt8.ofNat_toNat] at hc
  exact hc h

/-- The entries of `char_array_4` for four places. -/
def quartet (x₀ x₁ x₂ x₃ : BitVec 6) : Vector UInt8 4 :=
  #v[UInt8.ofBitVec (x₀.setWidth 8), UInt8.ofBitVec (x₁.setWidth 8),
    UInt8.ofBitVec (x₂.setWidth 8), UInt8.ofBitVec (x₃.setWidth 8)]

/-- The two parts have no bit in common, so the sum is an or. -/
theorem toBitVec_byte₀ (x y : BitVec 6) :
    ((UInt8.ofBitVec (x.setWidth 8) <<< 2) +
        ((UInt8.ofBitVec (y.setWidth 8) &&& 0x30) >>> 4)).toBitVec =
      (x.setWidth 8 <<< 2) ||| ((y.setWidth 8 &&& 0x30) >>> 4) := by
  rw [UInt8.toBitVec_add, BitVec.add_eq_or_of_and_eq_zero]
  · rfl
  · apply BitVec.eq_of_getLsbD_eq
    intro i hi
    simp
    interval_cases i <;> simp

/-- The two parts have no bit in common, so the sum is an or. -/
theorem toBitVec_byte₁ (x y : BitVec 6) :
    (((UInt8.ofBitVec (x.setWidth 8) &&& 0xf) <<< 4) +
        ((UInt8.ofBitVec (y.setWidth 8) &&& 0x3c) >>> 2)).toBitVec =
      ((x.setWidth 8 &&& 0xf) <<< 4) ||| ((y.setWidth 8 &&& 0x3c) >>> 2) := by
  rw [UInt8.toBitVec_add, BitVec.add_eq_or_of_and_eq_zero]
  · rfl
  · apply BitVec.eq_of_getLsbD_eq
    intro i hi
    simp
    interval_cases i <;> simp

/-- The two parts have no bit in common, so the sum is an or. -/
theorem toBitVec_byte₂ (x y : BitVec 6) :
    (((UInt8.ofBitVec (x.setWidth 8) &&& 0x3) <<< 6) + UInt8.ofBitVec (y.setWidth 8)).toBitVec =
      ((x.setWidth 8 &&& 0x3) <<< 6) ||| y.setWidth 8 := by
  rw [UInt8.toBitVec_add, BitVec.add_eq_or_of_and_eq_zero]
  · rfl
  · apply BitVec.eq_of_getLsbD_eq
    intro i hi
    simp
    interval_cases i <;> simp

/-- The three bytes have the bits of the four places. -/
theorem bitsOf_toBytes (x₀ x₁ x₂ x₃ : BitVec 6) :
    bitsOf (toBytes (quartet x₀ x₁ x₂ x₃)).toList = msbs x₀ ++ msbs x₁ ++ msbs x₂ ++ msbs x₃ := by
  have hlist : (toBytes (quartet x₀ x₁ x₂ x₃)).toList.map UInt8.toBitVec = [
      (x₀.setWidth 8 <<< 2) ||| ((x₁.setWidth 8 &&& 0x30) >>> 4),
      ((x₁.setWidth 8 &&& 0xf) <<< 4) ||| ((x₂.setWidth 8 &&& 0x3c) >>> 2),
      ((x₂.setWidth 8 &&& 0x3) <<< 6) ||| x₃.setWidth 8] := by
    rw [← toBitVec_byte₀, ← toBitVec_byte₁, ← toBitVec_byte₂]
    rfl
  rw [bitsOf, hlist]
  simp only [List.flatMap_cons, List.flatMap_nil, msbs_six, msbs_eight]
  simp [BitVec.getMsbD_eq_getLsbD]

/-- The bits of letters. -/
def placesOf (cs : List UInt8) : List Bool := (cs.map place).flatMap msbs

theorem placesOf_cons (c : UInt8) (cs : List UInt8) :
    placesOf (c :: cs) = msbs (place c) ++ placesOf cs := rfl

/-- Fewer than eight bits make no byte. -/
theorem octets_of_lt {bits : List Bool} (h : bits.length < 8) : octets bits = [] := by
  rw [octets, group_of_lt h, List.map_nil]

/-- Bytes in front of bits. -/
theorem octets_bitsOf_append (bytes : List UInt8) (bits : List Bool) :
    octets (bitsOf bytes ++ bits) = bytes ++ octets bits := by
  have hdvd : 8 ∣ (bitsOf bytes).length := by
    rw [length_bitsOf]
    exact Nat.dvd_mul_right 8 _
  have hwhole : group 8 (bitsOf bytes) = bytes.map UInt8.toBitVec := by
    have h := group_flatMap_msbs (by decide : 0 < 8) (bytes.map UInt8.toBitVec) (r := [])
      (by decide)
    rwa [List.append_nil] at h
  have hbytes : (bytes.map UInt8.toBitVec).map UInt8.ofBitVec = bytes := by
    rw [List.map_map]
    exact List.map_id bytes
  rw [octets, group_append_of_dvd (by decide) hdvd, List.map_append, hwhole, hbytes, octets]

/-- The first bits of bytes hold the first bytes. -/
theorem octets_take (bytes : List UInt8) (n : ℕ) :
    octets ((bitsOf bytes).take n) = bytes.take (n / 8) := by
  have hbytes : (bitsOf bytes).take (n / 8 * 8) = bitsOf (bytes.take (n / 8)) := by
    rw [bitsOf, bitsOf, ← flatMap_msbs_take, List.map_take]
  have hsplit : (bitsOf bytes).take n =
      bitsOf (bytes.take (n / 8)) ++ ((bitsOf bytes).take n).drop (n / 8 * 8) := by
    conv_lhs => rw [← List.take_append_drop (n / 8 * 8) ((bitsOf bytes).take n)]
    rw [List.take_take, Nat.min_eq_left (by omega), hbytes]
  rw [hsplit, octets_bitsOf_append, octets_of_lt, List.append_nil]
  rw [List.length_drop, List.length_take]
  omega

/-- **The decoder regroups the bits of the letters**, whatever its array holds. -/
theorem decodeRest_foldl : ∀ (cs : List UInt8) (arr : Vector UInt8 4) (ret : List UInt8),
    (∀ c ∈ cs, isBase64 c = true) →
    decodeRest (cs.foldl decodeChar { i := 0, charArray4 := arr, ret := ret }) =
      ret ++ octets (placesOf cs)
  | [], arr, ret, _ => by
    have hnil : octets (placesOf []) = [] := rfl
    rw [hnil, List.append_nil]
    rfl
  | [c], arr, ret, _ => by
    -- six bits are no byte
    have hrest : decodeRest ([c].foldl decodeChar { i := 0, charArray4 := arr, ret := ret }) =
        ret ++ [] := rfl
    rw [hrest, octets_of_lt]
    rw [placesOf_cons, List.length_append, length_msbs]
    decide
  | [c, d], arr, ret, h => by
    have hbits : placesOf [c, d] = (bitsOf (toBytes (quartet (place c) (place d) 0 0)).toList).take
        12 := by
      rw [bitsOf_toBytes, placesOf_cons, placesOf_cons, msbs_six, msbs_six, msbs_six]
      rfl
    have harr : ((Vector.ofFn fun j : Fin 4 =>
        if (2 : Fin 4) ≤ j then 0 else ((arr.set 0 c).set 1 d)[j]).map find) =
        #v[find c, find d, find 0, find 0] := by
      apply Vector.ext
      intro i hi
      interval_cases i <;> simp
    have hrest : decodeRest ([c, d].foldl decodeChar { i := 0, charArray4 := arr, ret := ret }) =
        ret ++ (toBytes ((Vector.ofFn fun j : Fin 4 =>
          if (2 : Fin 4) ≤ j then 0 else ((arr.set 0 c).set 1 d)[j]).map find)).toList.take 1 := rfl
    rw [hrest, harr, hbits, octets_take, find_eq (h c (by simp)), find_eq (h d (by simp))]
    -- the first byte takes nothing from the places that are filled up
    rfl
  | [c, d, e], arr, ret, h => by
    have hbits : placesOf [c, d, e] =
        (bitsOf (toBytes (quartet (place c) (place d) (place e) 0)).toList).take 18 := by
      rw [bitsOf_toBytes, placesOf_cons, placesOf_cons, placesOf_cons, msbs_six, msbs_six, msbs_six,
        msbs_six]
      rfl
    have harr : ((Vector.ofFn fun j : Fin 4 =>
        if (3 : Fin 4) ≤ j then 0 else (((arr.set 0 c).set 1 d).set 2 e)[j]).map find) =
        #v[find c, find d, find e, find 0] := by
      apply Vector.ext
      intro i hi
      interval_cases i <;> simp
    have hrest : decodeRest ([c, d, e].foldl decodeChar { i := 0, charArray4 := arr, ret := ret }) =
        ret ++ (toBytes ((Vector.ofFn fun j : Fin 4 =>
          if (3 : Fin 4) ≤ j then 0 else
            (((arr.set 0 c).set 1 d).set 2 e)[j]).map find)).toList.take 2 := rfl
    rw [hrest, harr, hbits, octets_take, find_eq (h c (by simp)), find_eq (h d (by simp)),
      find_eq (h e (by simp))]
    rfl
  | c :: d :: e :: f :: cs, arr, ret, h => by
    have hplaces : (((((arr.set 0 c).set 1 d).set 2 e).set 3 f).map find) =
        quartet (place c) (place d) (place e) (place f) := by
      apply Vector.ext
      intro i hi
      rw [quartet, ← find_eq (h c (by simp)), ← find_eq (h d (by simp)),
        ← find_eq (h e (by simp)), ← find_eq (h f (by simp))]
      interval_cases i <;> simp
    have hgroup : (c :: d :: e :: f :: cs).foldl decodeChar
        { i := 0, charArray4 := arr, ret := ret } =
        cs.foldl decodeChar
          { i := 0, charArray4 := ((((arr.set 0 c).set 1 d).set 2 e).set 3 f).map find,
            ret := ret ++
              (toBytes (((((arr.set 0 c).set 1 d).set 2 e).set 3 f).map find)).toList } := rfl
    have hoctets : octets (placesOf (c :: d :: e :: f :: cs)) =
        (toBytes (quartet (place c) (place d) (place e) (place f))).toList ++
          octets (placesOf cs) := by
      rw [← octets_bitsOf_append, bitsOf_toBytes, placesOf_cons, placesOf_cons, placesOf_cons,
        placesOf_cons, List.append_assoc, List.append_assoc, List.append_assoc]
    rw [hgroup, hplaces, decodeRest_foldl cs _ _ (fun x hx => h x (by simp [hx])), hoctets,
      List.append_assoc]

/-- The loop takes the letters in front of the string. -/
theorem decodeLoop_eq (cs : List UInt8) (inLen : ℤ) (s : DecodeState)
    (h : (cs.length : ℤ) ≤ inLen) :
    decodeLoop inLen s cs = (cs.takeWhile isBase64).foldl decodeChar s := by
  induction cs generalizing inLen s with
  | nil => rfl
  | cons c cs ih =>
    rw [List.length_cons, Nat.cast_succ] at h
    have hlen : inLen ≠ 0 := by omega
    rw [decodeLoop]
    by_cases hc : isBase64 c = true
    · have heq : c ≠ equals := by
        intro heq
        rw [heq] at hc
        exact absurd hc (by decide)
      rw [if_pos ⟨hlen, heq, hc⟩, ih _ _ (by omega), List.takeWhile_cons_of_pos hc, List.foldl_cons]
    · rw [if_neg (fun hand => hc hand.2.2), List.takeWhile_cons_of_neg hc, List.foldl_nil]

/-- `base64_decode` reads up to the first character that is no letter. -/
theorem decode_eq (memory : Vector UInt8 4) {encoded : List UInt8}
    (h : encoded.length < 2 ^ 31) :
    decode memory encoded = octets (placesOf (encoded.takeWhile isBase64)) := by
  have hlen : (encoded.length : ℤ) ≤ Int.bmod encoded.length (2 ^ 32) := by
    rw [Int.bmod_eq_of_le (by omega) (by omega)]
  rw [decode, decodeLoop_eq _ _ _ hlen, decodeRest_foldl _ _ _ (fun c hc =>
    List.mem_takeWhile_imp hc), List.nil_append]

/-- **What `base64_decode` gives for any string**: the whole bytes in the bits of the letters in
front of it, three for four letters. What follows the letters makes no difference. The length
is kept in an `int`. -/
theorem decode_letters (memory : Vector UInt8 4) (encoded : List UInt8)
    (h : encoded.length < 2 ^ 31) :
    decode memory encoded = octets (placesOf (encoded.takeWhile isBase64)) ∧
    (decode memory encoded).length = 3 * (encoded.takeWhile isBase64).length / 4 := by
  have hdecode := decode_eq memory h
  refine ⟨hdecode, ?_⟩
  rw [hdecode, octets, List.length_map, length_group, placesOf, length_flatMap_msbs,
    List.length_map]
  omega

/-- Three letters are two bytes, with a line end behind them. -/
theorem decode_letters_line :
    decode #v[0, 0, 0, 0] (ascii "SGk\r\nSGk") =
      octets (placesOf ((ascii "SGk\r\nSGk").takeWhile isBase64)) ∧
    (decode #v[0, 0, 0, 0] (ascii "SGk\r\nSGk")).length =
      3 * ((ascii "SGk\r\nSGk").takeWhile isBase64).length / 4 :=
  decode_letters _ _ (by decide)

/-! ## The round trip -/

/-- Four letters for every three bytes that were begun. -/
theorem length_standard (bytes : List UInt8) :
    (standard bytes).length = 4 * ((bytes.length + 2) / 3) := by
  rw [standard, List.length_append, List.length_replicate, length_letters]
  omega

/-- The letters of an encoding end at its padding. -/
theorem takeWhile_standard (bytes : List UInt8) :
    (standard bytes).takeWhile isBase64 = letters bytes := by
  have hletters : ∀ c ∈ letters bytes, isBase64 c = true := by
    intro c hc
    rw [letters, List.mem_map] at hc
    obtain ⟨x, -, rfl⟩ := hc
    exact isBase64_letter x
  rw [standard, List.takeWhile_append_of_pos hletters, List.takeWhile_replicate]
  simp [equals, isBase64, isalnum]

/-- The bits of the letters of an encoding. -/
theorem placesOf_letters (bytes : List UInt8) :
    placesOf (letters bytes) =
      bitsOf bytes ++ List.replicate ((6 - 8 * bytes.length % 6) % 6) false := by
  have hmap : ∀ xs : List (BitVec 6), (xs.map letter).map place = xs := by
    intro xs
    rw [List.map_map]
    conv_rhs => rw [← List.map_id xs]
    apply List.map_congr_left
    intro x _
    exact place_letter x
  rw [placesOf, letters, hmap, flatMap_msbs_group (by decide)]
  rw [List.length_append, length_bitsOf, List.length_replicate]
  omega

/-- Decoding takes the padding for the end. -/
theorem decode_standard (memory : Vector UInt8 4) {bytes : List UInt8}
    (h : bytes.length ≤ 3 * 2 ^ 29 - 3) : decode memory (standard bytes) = bytes := by
  rw [decode_eq _ (by rw [length_standard]; omega), takeWhile_standard, placesOf_letters,
    octets_bitsOf_append, octets_of_lt, List.append_nil]
  rw [List.length_replicate]
  omega

/-- **The round trip.** An encoding is that of the standard, and decoding it gives the bytes
back, for every byte string whose encoding has a length an `int` can hold. -/
theorem decode_encode (memory : Vector UInt8 3) (memory' : Vector UInt8 4) (bytes : List UInt8)
    (h : bytes.length ≤ 3 * 2 ^ 29 - 3) :
    encode memory bytes = standard bytes ∧ decode memory' (encode memory bytes) = bytes := by
  rw [encode_eq]
  exact ⟨rfl, decode_standard memory' h⟩

/-- Two bytes with the arrays filled by something else. -/
theorem decode_encode_hi :
    encode #v[7, 8, 9] (ascii "Hi") = standard (ascii "Hi") ∧
      decode #v[1, 2, 3, 4] (encode #v[7, 8, 9] (ascii "Hi")) = ascii "Hi" :=
  decode_encode _ _ _ (by decide)

example : encode #v[7, 8, 9] (ascii "Hi") = ascii "SGk=" := by decide

end Netxy.Base64
