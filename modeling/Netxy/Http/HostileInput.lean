import Netxy.Http.Completeness

/-!
# The completeness scan on hostile input

`checkCompleted` copies the text between the first `Content-Length: ` and the end of its
line into `char temp[1024]`, and asserts that the number in it is not negative. Neither the
length of the text nor its sign is checked before. `checkCompletedWith_safe_iff` says for
which buffers both go well, whatever `atoi` makes of a text.
-/

namespace Netxy.Http
open CString

/-! ## The scan, for any `atoi` -/

/-- The value of the decimal prefix: white space, an optional sign and the digits. -/
def decimalPrefix (s : List UInt8) : ℤ :=
  let (neg, cs) := sign (s.dropWhile isSpace)
  let n : ℤ := digits 10 0 cs
  if neg then -n else n

/-- The scan ends without a write outside `temp` and without a failed assertion. -/
def ScansSafely (number : List UInt8 → ℤ) (buffer : List UInt8) : Prop :=
  checkCompletedWith number buffer ≠ .error .outOfBounds ∧
    checkCompletedWith number buffer ≠ .error .assertion

/-! ## The text that is copied -/

/-- From the first `Content-Length: ` to the end of its line; empty where no line ends. -/
def numberText (buffer : List UInt8) : Option (List UInt8) :=
  (strstr CONTENT_LENGTH_FLAG buffer).map fun c =>
    let text := buffer.drop (c + CONTENT_LENGTH_FLAG.length)
    text.take ((strstr RL text).getD 0)

/-- A buffer with an empty line has no text to copy, or one that leaves room for the zero
behind it and, unless it is empty, holds no negative number. -/
def BoundedNumber (number : List UInt8 → ℤ) (buffer : List UInt8) : Prop :=
  strstr DOUBLE_RL buffer ≠ none →
    ∀ t ∈ numberText buffer, t.length < 1024 ∧ (t = [] ∨ 0 ≤ number t)

theorem checkContentLengthWith_eq (number : List UInt8 → ℤ) {buffer : List UInt8} {c : ℕ}
    (hc : strstr CONTENT_LENGTH_FLAG buffer = some c) (len bodystart : ℕ) :
    ∃ t ∈ numberText buffer,
      checkContentLengthWith number (buffer ++ [0]) len bodystart c =
        if 1024 < t.length + 1 then .error .outOfBounds
        else if t.length + 1 = 1 then .ok false
        else if number t < 0 then .error .assertion
        else .ok (decide ((number t).toNat ≤ len - bodystart)) := by
  have hpre : (buffer.take (c + CONTENT_LENGTH_FLAG.length)).length =
      c + CONTENT_LENGTH_FLAG.length :=
    List.length_take_of_le (add_length_le_of_strstr CONTENT_LENGTH_FLAG_ne.1 hc)
  have hcopy := take_drop_lineEnd (buffer.take (c + CONTENT_LENGTH_FLAG.length))
    (buffer.drop (c + CONTENT_LENGTH_FLAG.length))
  rw [List.take_append_drop, hpre] at hcopy
  -- what the loop copies is what `numberText` cuts out of the buffer
  refine ⟨(buffer.drop (c + CONTENT_LENGTH_FLAG.length)).take
    ((strstr RL (buffer.drop (c + CONTENT_LENGTH_FLAG.length))).getD 0), ?_, ?_⟩
  · rw [numberText, hc]
    rfl
  · unfold checkContentLengthWith
    simp only [hcopy]

/-- With an empty line and a flag in the buffer the scan is about the text behind the flag. -/
theorem checkCompletedWith_of_flag (number : List UInt8 → ℤ) {buffer t : List UInt8}
    (hend : strstr DOUBLE_RL buffer ≠ none) (ht : numberText buffer = some t) :
    ∃ received, checkCompletedWith number buffer =
      if 1024 < t.length + 1 then .error .outOfBounds
      else if t.length + 1 = 1 then .ok false
      else if number t < 0 then .error .assertion
      else .ok (decide ((number t).toNat ≤ received)) := by
  obtain ⟨i, hi⟩ := Option.ne_none_iff_exists'.mp hend
  obtain ⟨c, hc, -⟩ := Option.map_eq_some_iff.mp ht
  obtain ⟨t', ht', heq⟩ := checkContentLengthWith_eq number hc buffer.length
    (i + DOUBLE_RL.length)
  have htt : t = t' := Option.some.inj (ht.symm.trans (Option.mem_def.mp ht'))
  refine ⟨buffer.length - (i + DOUBLE_RL.length), ?_⟩
  unfold checkCompletedWith
  simp only [strstr_concat_zero DOUBLE_RL_ne.1 DOUBLE_RL_ne.2, hi,
    strstr_concat_zero CONTENT_LENGTH_FLAG_ne.1 CONTENT_LENGTH_FLAG_ne.2, hc]
  rw [heq, htt]

/-- The chunk loop copies nothing and asserts nothing. -/
theorem exists_checkChunks_eq_ok {buffer : List UInt8} {i : ℕ}
    (hi : strstr DOUBLE_RL buffer = some i) :
    ∃ r, checkChunks (buffer ++ [0]) buffer.length (i + DOUBLE_RL.length) = .ok r := by
  have hlen : (buffer.take (i + DOUBLE_RL.length)).length = i + DOUBLE_RL.length :=
    List.length_take_of_le (add_length_le_of_strstr DOUBLE_RL_ne.1 hi)
  have hbody := checkChunks_body (buffer.take (i + DOUBLE_RL.length))
    (buffer.drop (i + DOUBLE_RL.length))
  rw [← List.length_append, List.take_append_drop, hlen] at hbody
  exact ⟨_, hbody⟩

/-- Without an empty line or without a flag nothing is copied. -/
theorem scansSafely_of_no_text (number : List UInt8 → ℤ) {buffer : List UInt8}
    (h : strstr DOUBLE_RL buffer = none ∨ numberText buffer = none) :
    ScansSafely number buffer := by
  have hok : ∃ r, checkCompletedWith number buffer = .ok r := by
    unfold checkCompletedWith
    simp only [strstr_concat_zero DOUBLE_RL_ne.1 DOUBLE_RL_ne.2,
      strstr_concat_zero CONTENT_LENGTH_FLAG_ne.1 CONTENT_LENGTH_FLAG_ne.2,
      strstr_concat_zero CHUNKED_FLAG_ne.1 CHUNKED_FLAG_ne.2]
    -- the copy loop is behind both searches, first for an empty line, then for the flag
    rcases hend : strstr DOUBLE_RL buffer with _ | i
    · exact ⟨false, rfl⟩
    rcases hflag : strstr CONTENT_LENGTH_FLAG buffer with _ | c
    · rcases strstr CHUNKED_FLAG buffer with _ | d
      · exact ⟨true, rfl⟩
      · exact exists_checkChunks_eq_ok hend
    · rw [hend, numberText, hflag] at h
      rcases h with h | h <;> cases h
  obtain ⟨r, hr⟩ := hok
  unfold ScansSafely
  rw [hr]
  constructor
  · intro h
    cases h
  · intro h
    cases h

/-- **The scan is safe exactly on the buffers whose number is bounded.** -/
theorem checkCompletedWith_safe_iff (number : List UInt8 → ℤ) (buffer : List UInt8) :
    ScansSafely number buffer ↔ BoundedNumber number buffer := by
  by_cases hend : strstr DOUBLE_RL buffer = none
  · exact ⟨fun _ h => absurd hend h, fun _ => scansSafely_of_no_text number (Or.inl hend)⟩
  rcases ht : numberText buffer with _ | t
  · refine ⟨fun _ _ t ht' => ?_, fun _ => scansSafely_of_no_text number (Or.inr ht)⟩
    rw [ht] at ht'
    cases ht'
  obtain ⟨received, heq⟩ := checkCompletedWith_of_flag number hend ht
  have hbounded : BoundedNumber number buffer ↔ t.length < 1024 ∧ (t = [] ∨ 0 ≤ number t) := by
    simp only [BoundedNumber, hend, ht, Option.mem_def, Option.some.injEq, forall_eq', ne_eq,
      not_false_eq_true, forall_const]
  -- the scan tests the text in this order: too long, empty, negative
  rw [hbounded, ScansSafely, heq]
  by_cases hlong : 1024 < t.length + 1
  · rw [if_pos hlong]
    constructor
    · exact fun h => absurd rfl h.1
    · exact fun h => absurd h.1 (by omega)
  rw [if_neg hlong]
  have hshort : t.length < 1024 := by omega
  by_cases hempty : t.length + 1 = 1
  · have hnil : t = [] := List.eq_nil_of_length_eq_zero (by omega)
    rw [if_pos hempty]
    exact ⟨fun _ => ⟨hshort, Or.inl hnil⟩, fun _ => ⟨nofun, nofun⟩⟩
  rw [if_neg hempty]
  have hne : t ≠ [] := by
    rintro rfl
    exact hempty rfl
  by_cases hneg : number t < 0
  · rw [if_pos hneg]
    constructor
    · exact fun h => absurd rfl h.2
    · rintro ⟨-, h | h⟩
      · exact absurd h hne
      · omega
  · rw [if_neg hneg]
    exact ⟨fun _ => ⟨hshort, Or.inr (by omega)⟩, fun _ => ⟨nofun, nofun⟩⟩

/-! ## Two requests -/

/-- A request with the line `Content-Length: -1`. -/
def negativeLength : List UInt8 := ascii "GET / HTTP/1.1\r\nContent-Length: -1\r\n\r\n"

/-- A request with a number of `n` ones. -/
def longLength (n : ℕ) : List UInt8 :=
  ascii "GET / HTTP/1.1\r\nContent-Length: " ++ (List.replicate n 49 ++ DOUBLE_RL)

theorem numberText_longLength (n : ℕ) : numberText (longLength n) = some (List.replicate n 49) := by
  have hflag : strstr CONTENT_LENGTH_FLAG (longLength n) = some 16 :=
    strstr_append_of_some CONTENT_LENGTH_FLAG_ne.1 (by decide) _
  have hdrop : (longLength n).drop (16 + CONTENT_LENGTH_FLAG.length) =
      List.replicate n 49 ++ DOUBLE_RL := List.drop_left' (by decide)
  have hline : strstr RL (List.replicate n 49 ++ DOUBLE_RL) = some n := by
    have hones : ∀ c ∈ List.replicate n (49 : UInt8), c ≠ 13 ∧ c ≠ 0 := by
      intro c hc
      rw [List.eq_of_mem_replicate hc]
      decide
    rw [show RL = 13 :: [10] from rfl, strstr_append_of_forall hones, List.length_replicate]
    rfl
  have htake : (List.replicate n 49 ++ DOUBLE_RL).take n = List.replicate n 49 :=
    List.take_left' List.length_replicate
  simp only [numberText, hflag, Option.map_some, hdrop, hline, Option.getD_some, htake]

/-- From 1024 digits on the copy loop leaves `temp`, whatever the digits mean. -/
theorem checkCompletedWith_longLength (number : List UInt8 → ℤ) {n : ℕ} (hn : 1024 ≤ n) :
    checkCompletedWith number (longLength n) = .error .outOfBounds := by
  have hend : strstr DOUBLE_RL (longLength n) ≠ none := by
    have hzero : 0 ∉ ascii "GET / HTTP/1.1\r\nContent-Length: " ++ List.replicate n 49 := by
      rw [List.mem_append]
      rintro (h | h)
      · exact absurd h (by decide)
      · exact absurd (List.eq_of_mem_replicate h) (by decide)
    have hne := strstr_ne_none DOUBLE_RL_ne.1 hzero []
    rwa [List.append_nil, List.append_assoc] at hne
  obtain ⟨received, heq⟩ := checkCompletedWith_of_flag number hend (numberText_longLength n)
  rw [heq, List.length_replicate, if_pos (by omega)]

/-- The first request fails the assertion, the second is written past the end of `temp`. -/
theorem not_forall_scansSafely :
    checkCompletedWith decimalPrefix negativeLength = .error .assertion ∧
      checkCompletedWith decimalPrefix (longLength 1024) = .error .outOfBounds ∧
      ¬ ∀ buffer, ScansSafely decimalPrefix buffer := by
  have hneg : checkCompletedWith decimalPrefix negativeLength = .error .assertion := by decide
  exact ⟨hneg, checkCompletedWith_longLength decimalPrefix le_rfl,
    fun h => (h negativeLength).2 hneg⟩

end Netxy.Http
