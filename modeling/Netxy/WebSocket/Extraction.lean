import Netxy.WebSocket.RoundTrip

/-!
# `wsFrameExtractBuffer` on arbitrary bytes

What `handleHttp` relies on for a buffer that need not come from a well-behaved peer.

* Every read lies inside the buffer: `wsFrameExtractBufferChecked` is the function once more
  with each `buffer[i]` a read that can fail, and it never fails
  (`wsFrameExtractBufferChecked_eq`).
* The frame at the front is delimited by its own bytes: `extract_true_take`.
* The answer `false` means that bytes are missing, unless the header announces a 64-bit
  length with one of its upper 33 bits set (`exists_extract_true_iff`).
-/

namespace Netxy
namespace WebSocketFormat

/-! ## The function with checked reads -/

/-- The length part of `wsFrameExtractBuffer`, with reads that can fail. The inner `none` is
`return false`, the outer one a read outside the buffer. -/
def payloadLengthChecked (buffer : List UInt8) : Option (Option (ℕ × ℕ)) := do
  let b₁ ← buffer[1]?
  let payloadlen := (b₁ &&& 0x7F).toNat
  if payloadlen = 126 then
    if buffer.length < 4 then pure none
    else do
      let b₂ ← buffer[2]?
      let b₃ ← buffer[3]?
      pure (some ((b₂.toNat <<< 8) + b₃.toNat, 4))
  else if payloadlen = 127 then
    if buffer.length < 10 then pure none
    else do
      let b₂ ← buffer[2]?
      let b₃ ← buffer[3]?
      let b₄ ← buffer[4]?
      let b₅ ← buffer[5]?
      if b₂ ≠ 0 ∨ b₃ ≠ 0 ∨ b₄ ≠ 0 ∨ b₅ ≠ 0 then pure none
      else do
        let b₆ ← buffer[6]?
        if b₆ &&& 0x80 ≠ 0 then pure none
        else do
          let b₇ ← buffer[7]?
          let b₈ ← buffer[8]?
          let b₉ ← buffer[9]?
          pure (some ((b₆.toNat <<< 24) + (b₇.toNat <<< 16) + (b₈.toNat <<< 8) + b₉.toNat, 10))
  else pure (some (payloadlen, 2))

/-- The four reads `mask[k] = buffer[pos++]`, for a masked frame. -/
def maskChecked (buffer : List UInt8) (isMasking : Bool) (pos : ℕ) : Option (List UInt8) :=
  if isMasking then (List.range 4).mapM fun k => buffer[pos + k]? else pure []

/-- The loop that unmasks `payloadlen` bytes from `pos` on, or the `append` of them. -/
def payloadDataChecked (buffer mask : List UInt8) (isMasking : Bool) (pos payloadlen : ℕ) :
    Option (List UInt8) :=
  (List.range payloadlen).mapM fun j => do
    let c ← buffer[pos + j]?
    if isMasking then do
      let m ← mask[j % 4]?
      pure (c ^^^ m)
    else pure c

/-- `wsFrameExtractBuffer` with reads that can fail. -/
def wsFrameExtractBufferChecked (buffer : List UInt8) (out : FrameOut) :
    Option (Bool × FrameOut) :=
  if buffer.length < 2 then pure (false, out)
  else do
    let b₀ ← buffer[0]?
    let b₁ ← buffer[1]?
    let out := { out with outfin := b₀ &&& 0x80 != 0, outopcode := ⟨b₀ &&& 0x0F⟩ }
    let isMasking := b₁ &&& 0x80 != 0
    match ← payloadLengthChecked buffer with
    | none => pure (false, out)
    | some (payloadlen, pos) =>
      if isMasking ∧ buffer.length < pos + 4 then pure (false, out)
      else do
        let mask ← maskChecked buffer isMasking pos
        let pos := maskEnd isMasking pos
        if buffer.length < (pos + payloadlen) % 2 ^ 32 then pure (false, out)
        else do
          let data ← payloadDataChecked buffer mask isMasking pos payloadlen
          pure (true, { out with
            payload := out.payload ++ data
            frameSize := (payloadlen + pos) % 2 ^ 32 })

/-! ## No read fails -/

theorem getElem?_eq_byteAt {b : List UInt8} {i : ℕ} (hi : i < b.length) :
    b[i]? = some (byteAt b i) := by
  rw [byteAt, List.getD_eq_getElem _ _ hi, List.getElem?_eq_getElem hi]

/-- A loop whose every round succeeds. -/
theorem mapM_eq_some_map {α β : Type} {f : α → Option β} {g : α → β} {l : List α}
    (h : ∀ a ∈ l, f a = some (g a)) : l.mapM f = some (l.map g) := by
  induction l with
  | nil => rfl
  | cons a l ih =>
    rw [List.mapM_cons, h a (List.mem_cons_self ..),
      ih fun c hc => h c (List.mem_cons_of_mem a hc)]
    rfl

theorem payloadLengthChecked_eq {b : List UInt8} (hb : 2 ≤ b.length) :
    payloadLengthChecked b = some (payloadLength b) := by
  unfold payloadLengthChecked payloadLength
  rw [getElem?_eq_byteAt (show 1 < b.length by omega)]
  dsimp only [bind, Option.bind, pure]
  split
  · split
    · rfl
    · rw [getElem?_eq_byteAt (show 2 < b.length by omega),
        getElem?_eq_byteAt (show 3 < b.length by omega)]
  · split
    · split
      · rfl
      · rw [getElem?_eq_byteAt (show 2 < b.length by omega),
          getElem?_eq_byteAt (show 3 < b.length by omega),
          getElem?_eq_byteAt (show 4 < b.length by omega),
          getElem?_eq_byteAt (show 5 < b.length by omega),
          getElem?_eq_byteAt (show 6 < b.length by omega),
          getElem?_eq_byteAt (show 7 < b.length by omega),
          getElem?_eq_byteAt (show 8 < b.length by omega),
          getElem?_eq_byteAt (show 9 < b.length by omega)]
        dsimp only
        split
        · rfl
        · split <;> rfl
    · rfl

theorem maskChecked_eq {b : List UInt8} {isMasking : Bool} {pos : ℕ}
    (h : ¬ (isMasking = true ∧ b.length < pos + 4)) :
    ∃ mask, maskChecked b isMasking pos = some mask ∧
      (isMasking = true → mask = (List.range 4).map fun k => byteAt b (pos + k)) := by
  cases isMasking with
  | true =>
    refine ⟨_, ?_, fun _ => rfl⟩
    apply mapM_eq_some_map
    intro k hk
    rw [List.mem_range] at hk
    have hlen : ¬ b.length < pos + 4 := fun hlt => h ⟨rfl, hlt⟩
    exact getElem?_eq_byteAt (by omega)
  | false => exact ⟨[], rfl, fun h => absurd h (by decide)⟩

theorem payloadDataChecked_eq {b mask : List UInt8} {isMasking : Bool} {pos n : ℕ}
    (hmask : isMasking = true → mask = (List.range 4).map fun k => byteAt b (pos + k))
    (h : maskEnd isMasking pos + n ≤ b.length) :
    payloadDataChecked b mask isMasking (maskEnd isMasking pos) n =
      some (payloadData b isMasking pos n) := by
  cases isMasking with
  | true =>
    simp only [maskEnd, if_true] at h ⊢
    simp only [payloadData, if_true]
    apply mapM_eq_some_map
    intro j hj
    rw [List.mem_range] at hj
    have hj4 : j % 4 < 4 := Nat.mod_lt j (by omega)
    rw [getElem?_eq_byteAt (show pos + 4 + j < b.length by omega), hmask rfl]
    simp [hj4]
  | false =>
    simp only [maskEnd, Bool.false_eq_true, if_false] at h ⊢
    -- without a mask the payload is cut out, where the checked reads go byte by byte
    have hdata : payloadData b false pos n = (List.range n).map fun j => byteAt b (pos + j) := by
      simp only [payloadData, Bool.false_eq_true, if_false]
      apply List.ext_getElem
      · simp only [List.length_take, List.length_drop, List.length_map, List.length_range]
        omega
      · intro i h₁ h₂
        simp only [List.length_map, List.length_range] at h₂
        rw [List.getElem_take, List.getElem_drop, List.getElem_map, List.getElem_range, byteAt,
          List.getD_eq_getElem _ _ (by omega)]
    rw [hdata]
    apply mapM_eq_some_map
    intro j hj
    rw [List.mem_range] at hj
    rw [getElem?_eq_byteAt (show pos + j < b.length by omega)]
    rfl

/-- Every `buffer[i]` the function evaluates has `i < bufferSize`. -/
theorem wsFrameExtractBufferChecked_eq (b : List UInt8) (out : FrameOut) :
    wsFrameExtractBufferChecked b out = some (wsFrameExtractBuffer b out) := by
  unfold wsFrameExtractBufferChecked wsFrameExtractBuffer
  split
  · rfl
  rename_i hlen
  rw [getElem?_eq_byteAt (show 0 < b.length by omega),
    getElem?_eq_byteAt (show 1 < b.length by omega), payloadLengthChecked_eq (by omega)]
  simp only [Option.bind_eq_bind, Option.bind_some, Option.pure_def]
  rcases hp : payloadLength b with _ | ⟨n, pos⟩
  · rfl
  have hbounds := payloadLength_bounds (by omega) hp
  simp only
  generalize (byteAt b 1 &&& 0x80 != 0) = isMasking
  have hend := maskEnd_le isMasking pos
  split
  · rfl
  rename_i hmask
  -- the mask bytes are read only behind the test for them
  obtain ⟨mask, hm, hmask'⟩ := maskChecked_eq hmask
  rw [hm]
  simp only [Option.bind_some]
  split
  · rfl
  rename_i hsize
  rw [Nat.mod_eq_of_lt (by omega)] at hsize
  rw [payloadDataChecked_eq hmask' (by omega)]
  rfl

/-! ## The frame at the front delimits itself -/

/-- A length read inside a prefix of the buffer is read from that prefix. -/
theorem payloadLength_of_append {c t : List UInt8} {n pos : ℕ} (hpos : pos ≤ c.length)
    (h : payloadLength (c ++ t) = some (n, pos)) (hc : 2 ≤ c.length) :
    payloadLength c = some (n, pos) := by
  have hbyte : ∀ i, i < c.length → byteAt (c ++ t) i = byteAt c i :=
    fun i hi => byteAt_append_left t hi
  unfold payloadLength at h ⊢
  simp only [hbyte 1 (by omega), List.length_append] at h ⊢
  by_cases h126 : (byteAt c 1 &&& 0x7F).toNat = 126
  · simp only [h126, if_true] at h ⊢
    by_cases hlen : c.length + t.length < 4
    · simp [hlen] at h
    · rw [if_neg hlen] at h
      have hfour : 4 = pos := (Prod.mk.inj (Option.some.inj h)).2
      rw [hbyte 2 (by omega), hbyte 3 (by omega)] at h
      rw [if_neg (by omega)]
      exact h
  · by_cases h127 : (byteAt c 1 &&& 0x7F).toNat = 127
    · simp only [h127, Nat.reduceEqDiff, if_false, if_true] at h ⊢
      by_cases hlen : c.length + t.length < 10
      · simp [hlen] at h
      · rw [if_neg hlen] at h
        -- the length was accepted, so the ten bytes of its header are all in `c`
        have hten : 10 ≤ c.length := by
          split at h
          · cases h
          · split at h
            · cases h
            · have hp : 10 = pos := (Prod.mk.inj (Option.some.inj h)).2
              omega
        rw [if_neg (by omega)]
        rw [hbyte 2 (by omega), hbyte 3 (by omega), hbyte 4 (by omega), hbyte 5 (by omega),
          hbyte 6 (by omega), hbyte 7 (by omega), hbyte 8 (by omega), hbyte 9 (by omega)] at h
        exact h
    · simp only [h126, h127, if_false] at h ⊢
      exact h

/-- The frame is extracted from its own bytes alone. -/
theorem extract_of_append {c t : List UInt8} {out o : FrameOut}
    (h : wsFrameExtractBuffer (c ++ t) out = (true, o)) (hc : o.frameSize ≤ c.length) :
    wsFrameExtractBuffer c out = (true, o) := by
  have hsize := (extract_true_append h).1
  unfold wsFrameExtractBuffer at h
  split at h
  · cases h
  rename_i hlen
  rcases hp : payloadLength (c ++ t) with _ | ⟨n, pos⟩
  · simp only [hp] at h
    cases h
  have hbounds := payloadLength_bounds (by omega) hp
  simp only [hp, byteAt_append_left t (show 0 < c.length by omega),
    byteAt_append_left t (show 1 < c.length by omega)] at h
  generalize hm : (byteAt c 1 &&& 0x80 != 0) = isMasking at h
  have hend := maskEnd_le isMasking pos
  rw [Nat.mod_eq_of_lt (by omega), Nat.mod_eq_of_lt (by omega)] at h
  split at h
  · cases h
  split at h
  · cases h
  have ho := (Prod.mk.inj h).2
  have hframe : n + maskEnd isMasking pos = o.frameSize := congrArg FrameOut.frameSize ho
  rw [payloadData_append (show maskEnd isMasking pos + n ≤ c.length by omega) t] at ho
  -- the mask is part of the frame, and the frame is part of `c`
  have hmask : ¬ (isMasking = true ∧ c.length < pos + 4) := by
    rintro ⟨rfl, hlt⟩
    simp only [maskEnd, if_true] at hframe
    omega
  unfold wsFrameExtractBuffer
  simp only [payloadLength_of_append (show pos ≤ c.length by omega) hp (by omega), hm]
  rw [Nat.mod_eq_of_lt (by omega), Nat.mod_eq_of_lt (by omega), if_neg (by omega), if_neg hmask,
    if_neg (by omega), ho]

/-- The first `frameSize` bytes give the frame, with anything behind them. -/
theorem extract_true_take {b : List UInt8} {out o : FrameOut}
    (h : wsFrameExtractBuffer b out = (true, o)) (s : List UInt8) :
    wsFrameExtractBuffer (b.take o.frameSize ++ s) out = (true, o) := by
  have hle := (extract_true_append h).2.1
  have hb : b = b.take o.frameSize ++ b.drop o.frameSize := (List.take_append_drop _ b).symm
  rw [hb] at h
  have htake := extract_of_append h (by rw [List.length_take]; omega)
  exact (extract_true_append htake).2.2 s

/-- A part of a frame is not a frame. -/
theorem extract_take_false {b : List UInt8} {out o : FrameOut}
    (h : wsFrameExtractBuffer b out = (true, o)) {k : ℕ} (hk : k < o.frameSize) :
    (wsFrameExtractBuffer (b.take k) out).1 = false := by
  rw [Bool.eq_false_iff]
  intro htrue
  have hx : wsFrameExtractBuffer (b.take k) out =
      (true, (wsFrameExtractBuffer (b.take k) out).2) := Prod.ext htrue rfl
  obtain ⟨-, hsize, hstable⟩ := extract_true_append hx
  -- the frame of the shorter prefix is the frame of the buffer
  have hb := hstable (b.drop k)
  rw [List.take_append_drop, h] at hb
  have ho : o = (wsFrameExtractBuffer (b.take k) out).2 := (Prod.mk.inj hb).2
  rw [← ho, List.length_take] at hsize
  omega

/-- Without a frame the payload string is not touched. -/
theorem extract_false_payload {b : List UInt8} {out : FrameOut}
    (h : (wsFrameExtractBuffer b out).1 = false) :
    (wsFrameExtractBuffer b out).2.payload = out.payload := by
  unfold wsFrameExtractBuffer at h ⊢
  split
  · rfl
  rename_i hlen
  rw [if_neg hlen] at h
  simp only at h ⊢
  split
  · rfl
  · rename_i n pos hp
    simp only [hp] at h ⊢
    split
    · rfl
    · rename_i hmask
      rw [if_neg hmask] at h
      split
      · rfl
      · rename_i hsize
        rw [if_neg hsize] at h
        cases h

/-- **Extraction is bounded and self-delimiting**, whatever the buffer holds. -/
theorem wsFrameExtractBuffer_delimited (b : List UInt8) (out : FrameOut) :
    wsFrameExtractBufferChecked b out = some (wsFrameExtractBuffer b out) ∧
      (∀ o, wsFrameExtractBuffer b out = (true, o) →
        2 ≤ o.frameSize ∧ o.frameSize ≤ b.length ∧
          (∀ s, wsFrameExtractBuffer (b.take o.frameSize ++ s) out = (true, o)) ∧
          ∀ k, k < o.frameSize → (wsFrameExtractBuffer (b.take k) out).1 = false) ∧
      ∀ o, wsFrameExtractBuffer b out = (false, o) → o.payload = out.payload := by
  refine ⟨wsFrameExtractBufferChecked_eq b out, fun o h => ?_, fun o h => ?_⟩
  · obtain ⟨hlo, hhi, -⟩ := extract_true_append h
    exact ⟨hlo, hhi, extract_true_take h, fun k hk => extract_take_false h hk⟩
  · have hfalse : (wsFrameExtractBuffer b out).1 = false := congrArg Prod.fst h
    have hpayload := extract_false_payload hfalse
    rw [h] at hpayload
    exact hpayload

/-! ## What `false` means -/

/-- The bytes that are there announce a 64-bit length with one of its upper 33 bits set. A
byte that is not there yet counts as zero. -/
def AnnouncesLong (b : List UInt8) : Prop :=
  (byteAt b 1 &&& 0x7F).toNat = 127 ∧
    ((byteAt b 2 ≠ 0 ∨ byteAt b 3 ≠ 0 ∨ byteAt b 4 ≠ 0 ∨ byteAt b 5 ≠ 0) ∨
      byteAt b 6 &&& 0x80 ≠ 0)

instance (b : List UInt8) : Decidable (AnnouncesLong b) :=
  inferInstanceAs (Decidable (_ ∧ _))

theorem byteAt_append_of_ne_zero {b : List UInt8} {i : ℕ} (s : List UInt8)
    (h : byteAt b i ≠ 0) : byteAt (b ++ s) i = byteAt b i := by
  apply byteAt_append_left
  by_contra hi
  apply h
  rw [byteAt, List.getD_eq_default _ _ (by omega)]

/-- More bytes do not take the announcement back. -/
theorem announcesLong_append {b : List UInt8} (h : AnnouncesLong b) (s : List UInt8) :
    AnnouncesLong (b ++ s) := by
  obtain ⟨h127, hbits⟩ := h
  -- a byte that is not zero is there, and stays where it is
  have hne : byteAt b 1 ≠ 0 := by
    intro h0
    rw [h0] at h127
    exact absurd h127 (by decide)
  have hkeep : ∀ i, byteAt b i ≠ 0 → byteAt (b ++ s) i ≠ 0 := by
    intro i hi
    rw [byteAt_append_of_ne_zero s hi]
    exact hi
  refine ⟨by rw [byteAt_append_of_ne_zero s hne]; exact h127, ?_⟩
  rcases hbits with (h | h | h | h) | h
  · exact Or.inl (Or.inl (hkeep 2 h))
  · exact Or.inl (Or.inr (Or.inl (hkeep 3 h)))
  · exact Or.inl (Or.inr (Or.inr (Or.inl (hkeep 4 h))))
  · exact Or.inl (Or.inr (Or.inr (Or.inr (hkeep 5 h))))
  · right
    have hne6 : byteAt b 6 ≠ 0 := by
      intro h0
      rw [h0] at h
      exact h (by decide)
    rw [byteAt_append_of_ne_zero s hne6]
    exact h

/-- With a whole header in the buffer the length is refused exactly for an announcement. -/
theorem payloadLength_eq_none_iff {b : List UInt8} (hb : 10 ≤ b.length) :
    payloadLength b = none ↔ AnnouncesLong b := by
  unfold payloadLength AnnouncesLong
  simp only
  by_cases h126 : (byteAt b 1 &&& 0x7F).toNat = 126
  · rw [if_pos h126, if_neg (by omega)]
    simp only [h126, Nat.reduceEqDiff, false_and, reduceCtorEq]
  · rw [if_neg h126]
    by_cases h127 : (byteAt b 1 &&& 0x7F).toNat = 127
    · rw [if_pos h127, if_neg (by omega)]
      by_cases hupper : byteAt b 2 ≠ 0 ∨ byteAt b 3 ≠ 0 ∨ byteAt b 4 ≠ 0 ∨ byteAt b 5 ≠ 0
      · rw [if_pos hupper]
        exact ⟨fun _ => ⟨h127, Or.inl hupper⟩, fun _ => rfl⟩
      · rw [if_neg hupper]
        by_cases hsign : byteAt b 6 &&& 0x80 ≠ 0
        · rw [if_pos hsign]
          exact ⟨fun _ => ⟨h127, Or.inr hsign⟩, fun _ => rfl⟩
        · rw [if_neg hsign]
          constructor
          · intro h
            cases h
          · rintro ⟨-, h | h⟩
            · exact absurd h hupper
            · exact absurd h hsign
    · rw [if_neg h127]
      simp only [h127, false_and, reduceCtorEq]

theorem extract_false_of_announcesLong {b : List UInt8} (h : AnnouncesLong b) (out : FrameOut) :
    (wsFrameExtractBuffer b out).1 = false := by
  rw [Bool.eq_false_iff]
  intro htrue
  have hx : wsFrameExtractBuffer b out = (true, (wsFrameExtractBuffer b out).2) :=
    Prod.ext htrue rfl
  -- the bytes missing from a header of ten do not matter to a frame that was found
  have hten := (extract_true_append hx).2.2 (List.replicate 10 0)
  have hnone := (payloadLength_eq_none_iff (b := b ++ List.replicate 10 0) (by simp)).mpr
    (announcesLong_append h _)
  unfold wsFrameExtractBuffer at hten
  rw [if_neg (by simp)] at hten
  simp only [hnone] at hten
  cases hten

/-- A buffer longer than every frame holds one. -/
theorem extract_true_of_length {b : List UInt8} (hb : 2 ^ 31 + 14 ≤ b.length)
    (h : ¬ AnnouncesLong b) (out : FrameOut) : (wsFrameExtractBuffer b out).1 = true := by
  rcases hp : payloadLength b with _ | ⟨n, pos⟩
  · exact absurd ((payloadLength_eq_none_iff (by omega)).mp hp) h
  have hbounds := payloadLength_bounds (by omega) hp
  have hend := maskEnd_le (byteAt b 1 &&& 0x80 != 0) pos
  unfold wsFrameExtractBuffer
  rw [if_neg (by omega)]
  simp only [hp]
  rw [if_neg (by omega), Nat.mod_eq_of_lt (by omega), if_neg (by omega)]

/-- Zero bytes behind the buffer change no byte that is read. -/
theorem byteAt_append_replicate_zero (b : List UInt8) (m i : ℕ) :
    byteAt (b ++ List.replicate m 0) i = byteAt b i := by
  rcases Nat.lt_or_ge i b.length with hi | hi
  · exact byteAt_append_left _ hi
  · rw [byteAt, byteAt, List.getD_append_right _ _ _ _ hi, List.getD_eq_default _ _ hi]
    rw [List.getD_eq_getElem?_getD]
    exact List.getElem?_getD_replicate_default_eq _ m _

/-- **The incomplete buffers** are those whose header does not announce a length the
receiver refuses. -/
theorem exists_extract_true_iff (b : List UInt8) (out : FrameOut) :
    (∃ s, (wsFrameExtractBuffer (b ++ s) out).1 = true) ↔ ¬ AnnouncesLong b := by
  constructor
  · rintro ⟨s, hs⟩ hlong
    rw [extract_false_of_announcesLong (announcesLong_append hlong s)] at hs
    cases hs
  · intro h
    refine ⟨List.replicate (2 ^ 31 + 14) 0, ?_⟩
    apply extract_true_of_length
    · simp only [List.length_append, List.length_replicate]
      omega
    · unfold AnnouncesLong at h ⊢
      simp only [byteAt_append_replicate_zero]
      exact h

/-- The header `82 7F 01`: no suffix completes it. -/
theorem not_exists_extract_true :
    ¬ ∀ (b : List UInt8) (out : FrameOut), (wsFrameExtractBuffer b out).1 = false →
      ∃ s, (wsFrameExtractBuffer (b ++ s) out).1 = true := by
  intro h
  obtain ⟨s, hs⟩ := h [0x82, 0x7F, 0x01] ⟨[], .errorFrame, 0, false⟩ (by decide)
  have hlong : AnnouncesLong [0x82, 0x7F, 0x01] := by decide
  rw [extract_false_of_announcesLong (announcesLong_append hlong s)] at hs
  cases hs

end WebSocketFormat
end Netxy
