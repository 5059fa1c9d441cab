import Mathlib.Data.List.Basic
import Mathlib.Algebra.Ring.Int.Defs
import Mathlib.Algebra.Ring.Nat
import Mathlib.Data.List.TakeWhile
import Mathlib.Data.Nat.Digits.Defs

/-!
# C strings in byte buffers

`strstr`, `atoi`, `sscanf("%x")` and `to_string` on a buffer given as the list of bytes from a
pointer on. A C string ends at the first zero byte of the list. The numeric conversions follow
glibc: `strtol` and `strtoul` saturate at 64 bits, and the result is cut to a 32-bit `int`.
-/

namespace CString

/-- The bytes of an ASCII literal. -/
def ascii (s : String) : List UInt8 := s.toList.map fun c => UInt8.ofNat c.toNat

/-! ## `strstr` -/

/-- The offset of the first occurrence of `pat`, which holds no zero byte, in the C string
at the head of the list. -/
def strstr (pat : List UInt8) : List UInt8 → Option ℕ
  | [] => none
  | c :: cs =>
    if pat.isPrefixOf (c :: cs) then some 0
    else if c = 0 then none
    else (strstr pat cs).map (· + 1)

/-- `strstr(buf + start, pat)`, as an offset into `buf`. -/
def strstrFrom (pat buf : List UInt8) (start : ℕ) : Option ℕ :=
  (strstr pat (buf.drop start)).map (start + ·)

/-! ### What `strstr` finds -/

theorem strstr_cons_of_isPrefix {pat cs : List UInt8} {c : UInt8} (h : pat <+: c :: cs) :
    strstr pat (c :: cs) = some 0 := by
  rw [strstr, if_pos (List.isPrefixOf_iff_prefix.mpr h)]

theorem strstr_cons_of_not_isPrefix {pat cs : List UInt8} {c : UInt8} (h : ¬ pat <+: c :: cs)
    (hc : c ≠ 0) : strstr pat (c :: cs) = (strstr pat cs).map (· + 1) := by
  rw [strstr, if_neg (fun hp => h (List.isPrefixOf_iff_prefix.mp hp)), if_neg hc]

theorem strstr_cons_zero {pat cs : List UInt8} (h : ¬ pat <+: 0 :: cs) :
    strstr pat (0 :: cs) = none := by
  rw [strstr, if_neg (fun hp => h (List.isPrefixOf_iff_prefix.mp hp)), if_pos rfl]

/-- The pattern stands where it is found. -/
theorem isPrefix_drop_of_strstr {pat l : List UInt8} {i : ℕ} (h : strstr pat l = some i) :
    pat <+: l.drop i := by
  induction l generalizing i with
  | nil => cases h
  | cons c cs ih =>
    by_cases hp : pat <+: c :: cs
    · rw [strstr_cons_of_isPrefix hp] at h
      cases h
      exact hp
    · by_cases hc : c = 0
      · subst hc
        rw [strstr_cons_zero hp] at h
        cases h
      · rw [strstr_cons_of_not_isPrefix hp hc] at h
        obtain ⟨j, hj, rfl⟩ := Option.map_eq_some_iff.mp h
        exact ih hj

theorem add_length_le_of_strstr {pat l : List UInt8} {i : ℕ} (hpat : pat ≠ [])
    (h : strstr pat l = some i) : i + pat.length ≤ l.length := by
  have hle := (isPrefix_drop_of_strstr h).length_le
  have hpos := List.length_pos_iff.mpr hpat
  rw [List.length_drop] at hle
  omega

/-- A string too short for the pattern. -/
theorem strstr_eq_none_of_length_lt {pat l : List UInt8} (h : l.length < pat.length) :
    strstr pat l = none := by
  have hpat : pat ≠ [] := List.ne_nil_of_length_pos (Nat.zero_lt_of_lt h)
  refine Option.eq_none_iff_forall_ne_some.mpr fun i hi => ?_
  have := add_length_le_of_strstr hpat hi
  omega

/-- In a cut string the occurrence is found if it lies before the cut. -/
theorem strstr_take {pat : List UInt8} (hpat : pat ≠ []) (l : List UInt8) (k : ℕ) :
    strstr pat (l.take k) = (strstr pat l).filter fun i => decide (i + pat.length ≤ k) := by
  have hpos := List.length_pos_iff.mpr hpat
  induction l generalizing k with
  | nil =>
    rw [List.take_nil]
    rfl
  | cons c cs ih =>
    cases k with
    | zero =>
      rw [List.take_zero, strstr_eq_none_of_length_lt (by exact hpos)]
      refine (Option.filter_eq_none_iff.mpr fun i _ => ?_).symm
      rw [decide_eq_true_eq]
      omega
    | succ k =>
      rw [List.take_succ_cons]
      by_cases hp : pat <+: c :: cs
      · rw [strstr_cons_of_isPrefix hp]
        by_cases hlen : pat.length ≤ k + 1
        · -- the occurrence lies before the cut as a whole
          have hcut : pat <+: c :: cs.take k := by
            rw [← List.take_succ_cons]
            exact (List.prefix_take_iff).mpr ⟨hp, hlen⟩
          rw [strstr_cons_of_isPrefix hcut, Option.filter_some, if_pos (by simpa using hlen)]
        · -- the cut goes through the occurrence, and too few bytes are left for another
          have hshort : (c :: cs.take k).length < pat.length := by
            rw [List.length_cons, List.length_take]
            omega
          rw [strstr_eq_none_of_length_lt hshort, Option.filter_some, if_neg (by simpa using hlen)]
      · have hcut : ¬ pat <+: c :: cs.take k := fun h => by
          rw [← List.take_succ_cons] at h
          exact hp (h.trans (List.take_prefix _ _))
        by_cases hc : c = 0
        · subst hc
          rw [strstr_cons_zero hp, strstr_cons_zero hcut]
          rfl
        · rw [strstr_cons_of_not_isPrefix hp hc, strstr_cons_of_not_isPrefix hcut hc, ih]
          rcases strstr pat cs with _ | i
          · rfl
          · simp only [Option.map_some, Option.filter_some]
            have hiff : i + pat.length ≤ k ↔ i + 1 + pat.length ≤ k + 1 := by omega
            by_cases hle : i + pat.length ≤ k
            · rw [if_pos (decide_eq_true hle), if_pos (decide_eq_true (hiff.mp hle))]
              rfl
            · rw [if_neg (by simpa using hle), if_neg (by simpa using fun h => hle (hiff.mpr h))]
              rfl

/-- The terminating zero is no part of the pattern. -/
theorem strstr_concat_zero {pat : List UInt8} (hpat : pat ≠ []) (h0 : 0 ∉ pat) (l : List UInt8) :
    strstr pat (l ++ [0]) = strstr pat l := by
  have hcut := strstr_take hpat (l ++ [0]) l.length
  rw [List.take_left] at hcut
  rcases hi : strstr pat (l ++ [0]) with _ | i
  · rw [hcut, hi]
    rfl
  rw [hcut, hi, Option.filter_some, if_pos]
  rw [decide_eq_true_eq]
  by_contra hlen
  have hpos := List.length_pos_iff.mpr hpat
  have hle := add_length_le_of_strstr hpat hi
  obtain ⟨r, hr⟩ := isPrefix_drop_of_strstr hi
  rw [List.length_append, List.length_singleton] at hle
  -- the occurrence would end with the terminating zero
  have hlast : pat.length = (l.drop i).length + 1 := by
    rw [List.length_drop]
    omega
  rw [List.drop_append_of_le_length (by omega)] at hr
  have hr' : r = [] := by
    have := congrArg List.length hr
    simp only [List.length_append, List.length_singleton] at this
    exact List.eq_nil_of_length_eq_zero (by omega)
  rw [hr', List.append_nil] at hr
  exact h0 (hr ▸ List.mem_append_right _ (List.mem_singleton_self 0))

/-- What follows an occurrence does not matter. -/
theorem strstr_append_of_some {pat l : List UInt8} {i : ℕ} (hpat : pat ≠ [])
    (h : strstr pat l = some i) (r : List UInt8) : strstr pat (l ++ r) = some i := by
  have hcut := strstr_take hpat (l ++ r) l.length
  rw [List.take_left, h] at hcut
  exact (Option.filter_eq_some_iff.mp hcut.symm).1

/-- A string that ends with a byte the pattern does not have is passed over, if the pattern is
not found in it and it has no zero. -/
theorem strstr_append_of_none {pat l : List UInt8} {x : UInt8} (hlast : l.getLast? = some x)
    (hx : x ∉ pat) (h0 : 0 ∉ l) (h : strstr pat l = none) (r : List UInt8) :
    strstr pat (l ++ r) = (strstr pat r).map (l.length + ·) := by
  induction l with
  | nil => cases hlast
  | cons c cs ih =>
    have hp : ¬ pat <+: c :: cs := fun hp => by
      rw [strstr_cons_of_isPrefix hp] at h
      cases h
    -- an occurrence across the end of `l` would contain its last byte
    have hp' : ¬ pat <+: c :: (cs ++ r) := fun hp' => by
      rcases List.prefix_or_prefix_of_prefix hp' (List.prefix_append (c :: cs) r) with hpre | hpre
      · exact hp hpre
      · exact hx (hpre.subset (List.mem_of_getLast? hlast))
    have hc : c ≠ 0 := fun hc => h0 (hc ▸ List.mem_cons_self)
    rw [strstr_cons_of_not_isPrefix hp hc, Option.map_eq_none_iff] at h
    rw [List.cons_append, strstr_cons_of_not_isPrefix hp' hc]
    have hrest : strstr pat (cs ++ r) = (strstr pat r).map (cs.length + ·) := by
      cases cs with
      | nil =>
        rw [List.nil_append, List.length_nil]
        rcases strstr pat r with _ | i
        · rfl
        · rw [Option.map_some, Nat.zero_add]
      | cons d ds =>
        rw [List.getLast?_cons_cons] at hlast
        exact ih hlast (fun hmem => h0 (List.mem_cons_of_mem c hmem)) h
    rw [hrest, Option.map_map]
    congr 1
    funext i
    simp only [Function.comp_apply, List.length_cons]
    omega

/-- Bytes that the pattern does not begin with are passed over. -/
theorem strstr_append_of_forall {p : UInt8} {ps l : List UInt8} (hl : ∀ c ∈ l, c ≠ p ∧ c ≠ 0)
    (r : List UInt8) : strstr (p :: ps) (l ++ r) = (strstr (p :: ps) r).map (l.length + ·) := by
  induction l with
  | nil =>
    rcases h : strstr (p :: ps) r with _ | i
    · rw [List.nil_append, h]
      rfl
    · rw [List.nil_append, h, Option.map_some, List.length_nil, Nat.zero_add]
  | cons c cs ih =>
    obtain ⟨hne, h0⟩ := hl c List.mem_cons_self
    have hp : ¬ p :: ps <+: c :: (cs ++ r) := fun hp => hne (List.cons_prefix_cons.mp hp).1.symm
    rw [List.cons_append, strstr_cons_of_not_isPrefix hp h0,
      ih fun c hc => hl c (List.mem_cons_of_mem _ hc), Option.map_map]
    congr 1
    funext i
    simp only [Function.comp_apply, List.length_cons]
    omega

/-- A pattern with no zero before it is found. -/
theorem strstr_ne_none {pat l : List UInt8} (hpat : pat ≠ []) (h0 : 0 ∉ l) (r : List UInt8) :
    strstr pat (l ++ (pat ++ r)) ≠ none := by
  induction l with
  | nil =>
    cases pat with
    | nil => exact absurd rfl hpat
    | cons p ps =>
      have hp : p :: ps <+: p :: (ps ++ r) := List.prefix_append (p :: ps) r
      rw [List.nil_append, List.cons_append, strstr_cons_of_isPrefix hp]
      exact Option.some_ne_none 0
  | cons c cs ih =>
    rw [List.cons_append]
    by_cases hp : pat <+: c :: (cs ++ (pat ++ r))
    · rw [strstr_cons_of_isPrefix hp]
      exact Option.some_ne_none 0
    · rw [strstr_cons_of_not_isPrefix hp fun hc => h0 (hc ▸ List.mem_cons_self), ne_eq,
        Option.map_eq_none_iff]
      exact ih fun hmem => h0 (List.mem_cons_of_mem c hmem)

/-- A search behind a first part of the buffer. -/
theorem strstrFrom_append (pat a b : List UInt8) (i : ℕ) :
    strstrFrom pat (a ++ b) (a.length + i) = (strstr pat (b.drop i)).map (a.length + i + ·) := by
  rw [strstrFrom, List.drop_length_add_append]

/-! ## `c_str` -/

/-- The C string that `c_str()` points to: the bytes before the first zero. -/
def c_str (s : List UInt8) : List UInt8 := s.takeWhile (· ≠ 0)

theorem zero_not_mem_c_str (s : List UInt8) : 0 ∉ c_str s := by
  intro h
  exact absurd (List.mem_takeWhile_imp h) (by decide)

theorem c_str_eq_self_iff {s : List UInt8} : c_str s = s ↔ 0 ∉ s := by
  rw [c_str, List.takeWhile_eq_self_iff]
  constructor
  · exact fun h h0 => absurd (h 0 h0) (by decide)
  · exact fun h c hc => decide_eq_true fun h0 => h (h0 ▸ hc)

/-! ## Numbers -/

/-- `isspace` in the C locale. -/
def isSpace (c : UInt8) : Bool := c = 32 || (9 ≤ c && c ≤ 13)

/-- The value of a digit, in any base up to 16. -/
def digitVal (c : UInt8) : ℕ :=
  if 48 ≤ c ∧ c ≤ 57 then (c - 48).toNat
  else if 97 ≤ c ∧ c ≤ 102 then (c - 97).toNat + 10
  else if 65 ≤ c ∧ c ≤ 70 then (c - 65).toNat + 10
  else 16

/-- The value of the longest prefix of digits. -/
def digits (base : ℕ) : ℕ → List UInt8 → ℕ
  | acc, [] => acc
  | acc, c :: cs => if digitVal c < base then digits base (acc * base + digitVal c) cs else acc

/-- An optional sign, and what follows it. -/
def sign : List UInt8 → Bool × List UInt8
  | 45 :: cs => (true, cs)
  | 43 :: cs => (false, cs)
  | cs => (false, cs)

/-- The conversion of a wider integer to a 32-bit `int`. -/
def toInt32 (z : ℤ) : ℤ := Int.bmod z (2 ^ 32)

/-- `atoi`: `strtol` in base 10, saturating at 64 bits, cast to `int`. -/
def atoi (s : List UInt8) : ℤ :=
  let (neg, cs) := sign (s.dropWhile isSpace)
  let n : ℤ := digits 10 0 cs
  toInt32 (if neg then max (-n) (-2 ^ 63) else min n (2 ^ 63 - 1))

/-- `sscanf(s, "%x", &v)` with `v = 0` before the call: an optional sign, an optional `0x`
and the hexadecimal digits, by `strtoul`, stored as an `int`. -/
def sscanfHex (s : List UInt8) : ℤ :=
  let (neg, cs) := sign (s.dropWhile isSpace)
  let cs := match cs with
    | 48 :: 120 :: ds => ds
    | 48 :: 88 :: ds => ds
    | ds => ds
  let n : ℤ := digits 16 0 cs
  -- `strtoul` saturates before it negates
  if 2 ^ 64 ≤ n then toInt32 (2 ^ 64 - 1) else toInt32 (if neg then -n else n)

/-! ## Decimal text -/

def decimal (n : ℕ) : List UInt8 :=
  if n = 0 then [48] else (Nat.digits 10 n).reverse.map fun d => UInt8.ofNat (48 + d)

/-- `std::to_string` of an integer. -/
def to_string (z : ℤ) : List UInt8 :=
  if z < 0 then 45 :: decimal z.natAbs else decimal z.natAbs

theorem exists_of_mem_decimal {n : ℕ} {c : UInt8} (h : c ∈ decimal n) :
    ∃ d < 10, c = UInt8.ofNat (48 + d) := by
  unfold decimal at h
  split at h
  · exact ⟨0, by decide, List.mem_singleton.mp h⟩
  · obtain ⟨d, hd, rfl⟩ := List.mem_map.mp h
    exact ⟨d, Nat.digits_lt_base (by decide) (List.mem_reverse.mp hd), rfl⟩

theorem digitVal_ofNat : ∀ d < 10, digitVal (UInt8.ofNat (48 + d)) = d := by decide

/-- A digit is no space, no sign and no zero byte. -/
theorem ofNat_digit : ∀ d < 10, isSpace (UInt8.ofNat (48 + d)) = false ∧
    UInt8.ofNat (48 + d) ≠ 45 ∧ UInt8.ofNat (48 + d) ≠ 43 ∧ UInt8.ofNat (48 + d) ≠ 0 := by decide

theorem digits_map (acc : ℕ) {l : List ℕ} (hl : ∀ d ∈ l, d < 10) :
    digits 10 acc (l.map fun d => UInt8.ofNat (48 + d)) = l.foldl (fun n d => d + 10 * n) acc := by
  induction l generalizing acc with
  | nil => rfl
  | cons d ds ih =>
    have hd : d < 10 := hl d List.mem_cons_self
    rw [List.map_cons, digits, digitVal_ofNat d hd, if_pos hd,
      ih _ fun x hx => hl x (List.mem_cons_of_mem d hx), List.foldl_cons,
      Nat.add_comm, Nat.mul_comm]

theorem digits_decimal (n : ℕ) : digits 10 0 (decimal n) = n := by
  unfold decimal
  split
  · rename_i hzero
    rw [hzero]
    decide
  · have hlt : ∀ d ∈ (Nat.digits 10 n).reverse, d < 10 := fun d hd =>
      Nat.digits_lt_base (by decide) (List.mem_reverse.mp hd)
    calc digits 10 0 ((Nat.digits 10 n).reverse.map fun d => UInt8.ofNat (48 + d))
      _ = (Nat.digits 10 n).reverse.foldl (fun n d => d + 10 * n) 0 := digits_map 0 hlt
      _ = (Nat.digits 10 n).foldr (fun d n => d + 10 * n) 0 := List.foldl_reverse
      _ = Nat.ofDigits 10 (Nat.digits 10 n) := (Nat.ofDigits_eq_foldr 10 _).symm
      _ = n := Nat.ofDigits_digits 10 n

theorem decimal_injective : Function.Injective decimal := by
  intro m n h
  rw [← digits_decimal m, h, digits_decimal n]

theorem decimal_ne_nil (n : ℕ) : decimal n ≠ [] := by
  unfold decimal
  split
  · exact List.cons_ne_nil _ _
  · rename_i hzero
    simpa [Nat.digits_eq_nil_iff_eq_zero] using hzero

theorem zero_not_mem_to_string (z : ℤ) : 0 ∉ to_string z := by
  have hdecimal : 0 ∉ decimal z.natAbs := by
    intro h
    obtain ⟨d, hd, hc⟩ := exists_of_mem_decimal h
    exact (ofNat_digit d hd).2.2.2 hc.symm
  unfold to_string
  split
  · rw [List.mem_cons, not_or]
    exact ⟨by decide, hdecimal⟩
  · exact hdecimal

theorem to_string_natCast_injective : Function.Injective fun n : ℕ => to_string n := by
  intro m n h
  simp only [to_string, Int.natAbs_natCast, if_neg (Int.not_lt.mpr (Int.natCast_nonneg _))] at h
  exact decimal_injective h

/-- An `int` is read back from its text. -/
theorem atoi_to_string {z : ℤ} (hz : -2 ^ 31 ≤ z ∧ z < 2 ^ 31) : atoi (to_string z) = z := by
  have hcut : toInt32 z = z := Int.bmod_eq_of_le (by omega) (by omega)
  unfold to_string
  split
  · have hsign : sign ((45 :: decimal z.natAbs).dropWhile isSpace) = (true, decimal z.natAbs) := rfl
    simp only [atoi, hsign, digits_decimal, if_true]
    rw [show max (-(z.natAbs : ℤ)) (-2 ^ 63) = z by omega, hcut]
  · obtain ⟨c, cs, hc⟩ := List.exists_cons_of_ne_nil (decimal_ne_nil z.natAbs)
    obtain ⟨d, hd, hcd⟩ := exists_of_mem_decimal (hc ▸ List.mem_cons_self : c ∈ decimal z.natAbs)
    obtain ⟨hspace, hminus, hplus, -⟩ := ofNat_digit d hd
    rw [← hcd] at hspace hminus hplus
    have hsign : sign ((c :: cs).dropWhile isSpace) = (false, c :: cs) := by
      rw [List.dropWhile_cons, hspace, if_neg Bool.false_ne_true]
      unfold sign
      split
      · rename_i heq
        exact absurd (List.cons.inj heq).1 hminus
      · rename_i heq
        exact absurd (List.cons.inj heq).1 hplus
      · rfl
    rw [hc]
    simp only [atoi, hsign, if_neg Bool.false_ne_true]
    rw [← hc, digits_decimal, show min (z.natAbs : ℤ) (2 ^ 63 - 1) = z by omega, hcut]

end CString
