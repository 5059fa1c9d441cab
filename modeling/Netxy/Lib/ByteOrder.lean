import Mathlib.Data.Nat.Notation
import Mathlib.Data.List.Basic
import Mathlib.Algebra.Ring.Nat

/-!
# Numbers as bytes

The bytes of a number in memory, lowest first, in a given width, and the swap of their order.
-/

namespace ByteOrder

/-- The lowest `w` bytes of a number, lowest first. -/
def leBytes : ℕ → ℕ → List UInt8
  | 0, _ => []
  | w + 1, n => UInt8.ofNat n :: leBytes w (n / 256)

/-- The number with these bytes. -/
def ofLeBytes : List UInt8 → ℕ
  | [] => 0
  | b :: bs => b.toNat + 256 * ofLeBytes bs

@[simp] theorem length_leBytes (w n : ℕ) : (leBytes w n).length = w := by
  induction w generalizing n with
  | zero => rfl
  | succ w ih => rw [leBytes, List.length_cons, ih]

theorem ofLeBytes_lt (bs : List UInt8) : ofLeBytes bs < 256 ^ bs.length := by
  induction bs with
  | nil => exact Nat.one_pos
  | cons b bs ih =>
    have hb := b.toNat_lt
    rw [ofLeBytes, List.length_cons, pow_succ]
    omega

theorem ofLeBytes_leBytes {w n : ℕ} (h : n < 256 ^ w) : ofLeBytes (leBytes w n) = n := by
  induction w generalizing n with
  | zero =>
    rw [pow_zero] at h
    exact (Nat.lt_one_iff.mp h).symm
  | succ w ih =>
    rw [pow_succ] at h
    have hlow : (UInt8.ofNat n).toNat = n % 256 := UInt8.toNat_ofNat'
    rw [leBytes, ofLeBytes, hlow, ih (Nat.div_lt_of_lt_mul (by omega))]
    omega

theorem leBytes_ofLeBytes (bs : List UInt8) : leBytes bs.length (ofLeBytes bs) = bs := by
  induction bs with
  | nil => rfl
  | cons b bs ih =>
    have hb := b.toNat_lt
    have hlow : UInt8.ofNat (b.toNat + 256 * ofLeBytes bs) = b := by
      apply UInt8.toNat_inj.mp
      rw [UInt8.toNat_ofNat']
      omega
    have hhigh : (b.toNat + 256 * ofLeBytes bs) / 256 = ofLeBytes bs := by omega
    rw [List.length_cons, ofLeBytes, leBytes, hlow, hhigh, ih]

/-- The number whose `w` bytes are those of `n` in the other order. -/
def byteSwap (w n : ℕ) : ℕ := ofLeBytes (leBytes w n).reverse

theorem byteSwap_lt (w n : ℕ) : byteSwap w n < 256 ^ w := by
  have h := ofLeBytes_lt (leBytes w n).reverse
  rwa [List.length_reverse, length_leBytes] at h

theorem byteSwap_byteSwap {w n : ℕ} (h : n < 256 ^ w) : byteSwap w (byteSwap w n) = n := by
  have hbytes : leBytes w (byteSwap w n) = (leBytes w n).reverse := by
    have h := leBytes_ofLeBytes (leBytes w n).reverse
    rwa [List.length_reverse, length_leBytes] at h
  rw [byteSwap, hbytes, List.reverse_reverse, ofLeBytes_leBytes h]

/-- Swapping twice in registers of `w` bytes. -/
theorem byteSwap_mod_byteSwap_mod {w n : ℕ} (h : n < 256 ^ w) :
    byteSwap w (byteSwap w n % 256 ^ w) % 256 ^ w = n := by
  rw [Nat.mod_eq_of_lt (byteSwap_lt w n), byteSwap_byteSwap h, Nat.mod_eq_of_lt h]

end ByteOrder
