import Netxy.Http.HttpServer
import Netxy.WebSocket.Extraction

/-!
# A session in WebSocket mode

The frame loop of `handleHttp` is `Framing.drain` over a stable extractor, so what a
session makes of a byte stream does not depend on how the network cuts it
(`deliverAll_eq_of_flatten_eq`).

Over a stream of well-formed frames the loop handles frame after frame. A message that is
cut into fragments is never passed to the WebSocket callback
(`not_reassemblesOnce`): its first frame reaches `assert(false)`, and its last one is
appended to the cache like the ones in the middle.
-/

namespace Netxy
open WebSocketFormat WebSocketFrameType

/-! ## The loop as an instance of `Framing` -/

/-- The extractor of the frame loop, which starts every round with an empty payload
string. -/
def extractFrame (b : List UInt8) : Option (FrameOut × ℕ) :=
  match wsFrameExtractBuffer b ⟨[], .errorFrame, 0, false⟩ with
  | (true, out) => some (out, out.frameSize)
  | (false, _) => none

theorem extractFrame_eq_some {b : List UInt8} {o : FrameOut} {n : ℕ}
    (h : extractFrame b = some (o, n)) :
    wsFrameExtractBuffer b ⟨[], .errorFrame, 0, false⟩ = (true, o) ∧ n = o.frameSize := by
  unfold extractFrame at h
  split at h
  · rename_i out hx
    simp only [Option.some.injEq, Prod.mk.injEq] at h
    obtain ⟨rfl, rfl⟩ := h
    exact ⟨hx, rfl⟩
  · cases h

theorem extractFrame_of_true {b : List UInt8} {o : FrameOut}
    (h : wsFrameExtractBuffer b ⟨[], .errorFrame, 0, false⟩ = (true, o)) :
    extractFrame b = some (o, o.frameSize) := by
  simp only [extractFrame, h]

theorem stable_extractFrame : Framing.Stable extractFrame where
  pos h := by
    obtain ⟨hx, rfl⟩ := extractFrame_eq_some h
    have := (extract_true_append hx).1
    omega
  le_length h := by
    obtain ⟨hx, rfl⟩ := extractFrame_eq_some h
    exact (extract_true_append hx).2.1
  append s h := by
    obtain ⟨hx, rfl⟩ := extractFrame_eq_some h
    exact extractFrame_of_true ((extract_true_append hx).2.2 s)

namespace HttpSession

/-- The session without its parse string, which no frame reads before it is overwritten. -/
def forget (s : HttpSession) : HttpSession := s.setParseString []

/-- One round of the loop on an extracted frame. -/
def onFrame (s : HttpSession) (o : FrameOut) : HttpSession :=
  ((s.setParseString o.payload).handleFrame o.outopcode o.outfin).forget

theorem onFrame_forget (s : HttpSession) (o : FrameOut) : s.forget.onFrame o = s.onFrame o := rfl

/-- `onFrame` written out: the four branches of the loop body. -/
theorem onFrame_eq (s : HttpSession) (o : FrameOut) :
    s.onFrame o =
      if o.outfin ∧ (o.outopcode = .textFrame ∨ o.outopcode = .binaryFrame) then
        (((s.setCacheFrame []).call s.hasWSCallback
          (.ws o.outopcode (s.parser.wsCacheFrame ++ o.payload)))).forget
      else if o.outopcode = .continuationFrame then
        (s.setCacheFrame (s.parser.wsCacheFrame ++ o.payload)).forget
      else if o.outopcode = .pingFrame ∨ o.outopcode = .pongFrame ∨ o.outopcode = .closeFrame then
        (s.call s.hasWSCallback (.ws o.outopcode o.payload)).forget
      else { s with assertHits := s.assertHits + 1 }.forget := by
  obtain ⟨⟨_, _, _, _, _, _, _, _, cache, _, _⟩, hasWSCallback, _, _, _, _⟩ := s
  simp only [onFrame, handleFrame, setParseString, setCacheFrame, call, forget]
  cases hasWSCallback
  all_goals
    split
    · -- an empty cache is as good as one that is emptied
      cases cache with
      | nil => rfl
      | cons b bs => rfl
    · split
      · rfl
      · split <;> rfl

theorem isWebSocket_handleFrame (s : HttpSession) (opcode : WebSocketFrameType) (isFin : Bool) :
    (s.handleFrame opcode isFin).parser.isWebSocket = s.parser.isWebSocket := by
  unfold handleFrame call
  simp only [setParseString, setCacheFrame]
  repeat' split
  all_goals rfl

/-- The frame loop drains its buffer: what is behind the returned count holds no frame. -/
theorem wsLoop_eq_drain (fuel : ℕ) (s : HttpSession) (b : List UInt8) (retlen : ℕ) :
    ∃ k, (wsLoop fuel s b retlen).1 = retlen + k ∧
      (Framing.drain extractFrame onFrame fuel s.forget b) =
        ((wsLoop fuel s b retlen).2.forget, b.drop k) ∧
      (wsLoop fuel s b retlen).2.parser.isWebSocket = s.parser.isWebSocket := by
  induction fuel generalizing s b retlen with
  | zero => exact ⟨0, rfl, rfl, rfl⟩
  | succ fuel ih =>
    rw [wsLoop]
    split
    · rename_i hb
      have hnil : b = [] := List.eq_nil_of_length_eq_zero hb
      subst hnil
      exact ⟨0, rfl, Framing.drain_none stable_extractFrame.extract_nil _ _, rfl⟩
    · split
      · -- the rest of the buffer is the one `Framing.drain` goes on with
        rename_i out hx
        obtain ⟨k, h₁, h₂, h₃⟩ := ih ((s.setParseString out.payload).handleFrame out.outopcode
          out.outfin) (b.drop out.frameSize) (retlen + out.frameSize)
        refine ⟨out.frameSize + k, by omega, ?_, ?_⟩
        · rw [Framing.drain, extractFrame_of_true hx]
          simp only
          rw [onFrame_forget, ← List.drop_drop]
          exact h₂
        · rw [h₃, isWebSocket_handleFrame]
          rfl
      · rename_i out hx
        have hnone : extractFrame b = none := by simp only [extractFrame, hx]
        exact ⟨0, rfl, Framing.drain_none hnone _ _, rfl⟩

/-- In WebSocket mode a delivery is one of `Framing`. -/
theorem deliver_ws (v : VendoredParser) (r : HttpSession × List UInt8)
    (hws : r.1.parser.isWebSocket = true) (chunk : List UInt8) :
    ∃ r', deliver v r chunk = .ok r' ∧ r'.1.parser.isWebSocket = true ∧
      Framing.deliver extractFrame onFrame (r.1.forget, r.2) chunk = (r'.1.forget, r'.2) := by
  obtain ⟨k, h₁, h₂, h₃⟩ := wsLoop_eq_drain (r.2 ++ chunk).length r.1 (r.2 ++ chunk) 0
  refine ⟨((wsLoop (r.2 ++ chunk).length r.1 (r.2 ++ chunk) 0).2,
    (r.2 ++ chunk).drop (wsLoop (r.2 ++ chunk).length r.1 (r.2 ++ chunk) 0).1), ?_, ?_, ?_⟩
  · simp only [deliver, handleHttp, hws, if_true]
    rfl
  · rw [h₃, hws]
  · rw [h₁, Nat.zero_add]
    exact h₂

theorem deliverAll_ws (v : VendoredParser) (chunks : List (List UInt8))
    (r : HttpSession × List UInt8) (hws : r.1.parser.isWebSocket = true) :
    ∃ r', deliverAll v r chunks = .ok r' ∧ r'.1.parser.isWebSocket = true ∧
      Framing.feed extractFrame onFrame (r.1.forget, r.2) chunks = (r'.1.forget, r'.2) := by
  induction chunks generalizing r with
  | nil => exact ⟨r, rfl, hws, rfl⟩
  | cons c cs ih =>
    obtain ⟨r₁, hd, hws₁, hf⟩ := deliver_ws v r hws c
    obtain ⟨r₂, hd₂, hws₂, hf₂⟩ := ih r₁ hws₁
    refine ⟨r₂, ?_, hws₂, ?_⟩
    · simp only [deliverAll, List.foldlM_cons] at hd₂ ⊢
      rw [hd]
      exact hd₂
    · rw [← hf₂, ← hf]
      rfl

/-- **Chunk invariance.** On a session in WebSocket mode, two ways of cutting one byte
stream into deliveries lead to the same callback invocations, the same cache and the same
unconsumed bytes. -/
theorem deliverAll_eq_of_flatten_eq (v : VendoredParser) (s : HttpSession)
    (hws : s.parser.isWebSocket = true) {cs ds : List (List UInt8)}
    (hcut : cs.flatten = ds.flatten) :
    ∃ r₁ r₂, deliverAll v (s, []) cs = .ok r₁ ∧ deliverAll v (s, []) ds = .ok r₂ ∧
      r₁.1.calls = r₂.1.calls ∧ r₁.1.assertHits = r₂.1.assertHits ∧
      r₁.1.parser.wsCacheFrame = r₂.1.parser.wsCacheFrame ∧ r₁.2 = r₂.2 := by
  obtain ⟨r₁, h₁, -, hf₁⟩ := deliverAll_ws v cs (s, []) hws
  obtain ⟨r₂, h₂, -, hf₂⟩ := deliverAll_ws v ds (s, []) hws
  have heq : (r₁.1.forget, r₁.2) = (r₂.1.forget, r₂.2) := by
    rw [← hf₁, ← hf₂]
    exact Framing.feed_eq_of_flatten_eq stable_extractFrame _ stable_extractFrame.extract_nil hcut
  obtain ⟨hs, hrest⟩ := Prod.mk.inj heq
  exact ⟨r₁, r₂, h₁, h₂, congrArg (·.calls) hs, congrArg (·.assertHits) hs,
    congrArg (·.parser.wsCacheFrame) hs, hrest⟩

/-- A session right after the upgrade, with a WebSocket callback. -/
def upgraded : HttpSession :=
  { parser := { HTTPParser.init with isWebSocket := true, isCompleted := true },
    hasWSCallback := true, hasHttpCallback := false, hasWSConnectedCallback := false,
    calls := [], assertHits := 0 }

/-- A text frame in one piece, and cut behind its header. -/
theorem deliverAll_upgraded_cut :
    ∃ r₁ r₂, deliverAll ⟨fun _ => [], fun _ => none⟩ (upgraded, []) [[0x81, 1], [97]] = .ok r₁ ∧
      deliverAll ⟨fun _ => [], fun _ => none⟩ (upgraded, []) [[0x81, 1, 97]] = .ok r₂ ∧
      r₁.1.calls = r₂.1.calls ∧ r₁.1.assertHits = r₂.1.assertHits ∧
      r₁.1.parser.wsCacheFrame = r₂.1.parser.wsCacheFrame ∧ r₁.2 = r₂.2 :=
  deliverAll_eq_of_flatten_eq _ upgraded rfl rfl

/-! ## The assertion of the loop -/

/-- The frames with a branch of their own in the loop body: control frames, continuation
frames, and data frames with FIN set. -/
def Handled (o : FrameOut) : Prop :=
  (o.outfin ∧ (o.outopcode = .textFrame ∨ o.outopcode = .binaryFrame)) ∨
    o.outopcode = .continuationFrame ∨
    o.outopcode = .pingFrame ∨ o.outopcode = .pongFrame ∨ o.outopcode = .closeFrame

instance : DecidablePred Handled := fun _ => inferInstanceAs (Decidable (_ ∨ _))

theorem assertHits_call (s : HttpSession) (set : Bool) (e : HttpCall) :
    (s.call set e).assertHits = s.assertHits := by
  cases set <;> rfl

theorem assertHits_onFrame (s : HttpSession) (o : FrameOut) :
    (s.onFrame o).assertHits = s.assertHits + if Handled o then 0 else 1 := by
  rw [onFrame_eq]
  by_cases hdata : o.outfin ∧ (o.outopcode = .textFrame ∨ o.outopcode = .binaryFrame)
  · have hh : Handled o := Or.inl hdata
    rw [if_pos hdata, if_pos hh]
    exact assertHits_call _ _ _
  · rw [if_neg hdata]
    by_cases hcont : o.outopcode = .continuationFrame
    · have hh : Handled o := Or.inr (Or.inl hcont)
      rw [if_pos hcont, if_pos hh]
      rfl
    · rw [if_neg hcont]
      by_cases hctl : o.outopcode = .pingFrame ∨ o.outopcode = .pongFrame ∨
          o.outopcode = .closeFrame
      · have hh : Handled o := Or.inr (Or.inr hctl)
        rw [if_pos hctl, if_pos hh]
        exact assertHits_call _ _ _
      · have hh : ¬ Handled o := by
          rintro (h | h | h)
          · exact hdata h
          · exact hcont h
          · exact hctl h
        rw [if_neg hctl, if_neg hh]
        rfl

/-- A list of frames reaches the assertion once for each frame without a branch. -/
theorem assertHits_foldl_onFrame (os : List FrameOut) (s : HttpSession) :
    (os.foldl onFrame s).assertHits = s.assertHits + os.countP (¬ Handled ·) := by
  induction os generalizing s with
  | nil => rfl
  | cons o os ih =>
    rw [List.foldl_cons, ih, assertHits_onFrame, List.countP_cons]
    by_cases h : Handled o
    · simp [h]
    · simp [h]
      omega

/-- **When the assertion is out of reach.** On a session in WebSocket mode the deliveries of
a byte stream reach no `assert(false)` exactly when every frame of the stream is handled. -/
theorem assertHits_deliverAll_iff (v : VendoredParser) (s : HttpSession)
    (hws : s.parser.isWebSocket = true) (chunks : List (List UInt8)) :
    ∃ r, deliverAll v (s, []) chunks = .ok r ∧
      (r.1.assertHits = s.assertHits ↔
        ∀ o ∈ Framing.frames extractFrame chunks.flatten, Handled o) := by
  obtain ⟨r, hr, -, hf⟩ := deliverAll_ws v chunks (s, []) hws
  refine ⟨r, hr, ?_⟩
  rw [Framing.feed_flatten stable_extractFrame _ stable_extractFrame.extract_nil] at hf
  have hfold : r.1.forget =
      (Framing.frames extractFrame chunks.flatten).foldl onFrame s.forget := by
    rw [← Framing.drainAll_eq_foldl]
    exact (congrArg Prod.fst hf).symm
  -- `forget` keeps the count, which grows by one for each frame without a branch
  have hhits : r.1.assertHits = s.assertHits +
      (Framing.frames extractFrame chunks.flatten).countP (¬ Handled ·) := by
    calc r.1.assertHits = r.1.forget.assertHits := rfl
      _ = _ := by rw [hfold, assertHits_foldl_onFrame]; rfl
  rw [hhits, Nat.add_eq_left, List.countP_eq_zero]
  simp

/-- A text message, a ping between its two bytes of header, and a continuation frame. -/
theorem assertHits_upgraded_iff :
    ∃ r, deliverAll ⟨fun _ => [], fun _ => none⟩ (upgraded, [])
        [[0x81, 1, 97, 0x89], [0, 0x00, 1, 98]] = .ok r ∧
      (r.1.assertHits = upgraded.assertHits ↔
        ∀ o ∈ Framing.frames extractFrame [[0x81, 1, 97, 0x89], [0, 0x00, 1, 98]].flatten,
          Handled o) :=
  assertHits_deliverAll_iff _ upgraded rfl _

/-- An empty frame with the reserved opcode 3. -/
theorem not_forall_assertHits_eq :
    ¬ ∀ (v : VendoredParser) (s : HttpSession) (chunks : List (List UInt8)),
      s.parser.isWebSocket = true →
        ∃ r, deliverAll v (s, []) chunks = .ok r ∧ r.1.assertHits = s.assertHits := by
  intro h
  obtain ⟨r, hr, hhits⟩ := h ⟨fun _ => [], fun _ => none⟩ upgraded [[0x83, 0x00]] rfl
  have hone : (deliverAll ⟨fun _ => [], fun _ => none⟩ (upgraded, []) [[0x83, 0x00]]).toOption.map
      (fun r => r.1.assertHits) = some 1 := by decide
  rw [hr] at hone
  have hval : r.1.assertHits = 1 := Option.some.inj hone
  rw [hhits] at hval
  cases hval

/-- A header that announces a length the receiver refuses stops the loop for good: every
later delivery only makes the buffer longer. -/
theorem feed_announcesLong {b : List UInt8} (hb : AnnouncesLong b) (s : HttpSession)
    (chunks : List (List UInt8)) :
    Framing.feed extractFrame onFrame (s, b) chunks = (s, b ++ chunks.flatten) := by
  have hnone : ∀ t, extractFrame (b ++ t) = none := by
    intro t
    -- whatever is delivered, the header stays at the front of the buffer
    have hfalse := extract_false_of_announcesLong (announcesLong_append hb t)
      ⟨[], .errorFrame, 0, false⟩
    unfold extractFrame
    split
    · rename_i out hx
      rw [hx] at hfalse
      cases hfalse
    · rfl
  have hb₀ : extractFrame b = none := by simpa using hnone []
  rw [Framing.feed_flatten stable_extractFrame (s, b) hb₀]
  exact Framing.drainAll_none (hnone chunks.flatten) s

/-! ## A stream of well-formed frames -/

/-- The out parameters `wsFrameExtractBuffer` sets for a frame. -/
def frameOut (f : Frame) : FrameOut :=
  { payload := f.payload, outopcode := f.opcode, frameSize := f.encode.length, outfin := f.fin }

/-- The length the receiver accepts. -/
def IsShort (f : Frame) : Prop := f.payload.length < 2 ^ 31

instance : DecidablePred IsShort := fun _ => inferInstanceAs (Decidable (_ < _))

theorem extractFrame_encode {f : Frame} (hf : f.WellFormed) (hs : IsShort f) (t : List UInt8) :
    extractFrame (f.encode ++ t) = some (frameOut f, f.encode.length) :=
  extractFrame_of_true (extract_encode hf.opcode_lt hs t _)

theorem extractFrame_encode_long {f : Frame} (hf : f.WellFormed) (hs : ¬ IsShort f)
    (t : List UInt8) : extractFrame (f.encode ++ t) = none := by
  have h := extract_encode_long hf (Nat.le_of_not_lt hs) t ⟨[], .errorFrame, 0, false⟩
  unfold extractFrame
  split
  · rename_i out hx
    rw [hx] at h
    cases h
  · rfl

/-- The session after the frames of a list, up to one the receiver never extracts. -/
def afterFrames (s : HttpSession) (fs : List Frame) : HttpSession :=
  (fs.takeWhile (decide <| IsShort ·)).foldl (fun s f => s.onFrame (frameOut f)) s

theorem drainAll_encode (fs : List Frame) (hwf : ∀ f ∈ fs, f.WellFormed) (s : HttpSession) :
    (Framing.drainAll extractFrame onFrame s (fs.flatMap Frame.encode)).1 = s.afterFrames fs := by
  induction fs generalizing s with
  | nil => rw [List.flatMap_nil, Framing.drainAll_none stable_extractFrame.extract_nil]; rfl
  | cons f fs ih =>
    have hf := hwf f (List.mem_cons_self ..)
    rw [List.flatMap_cons, afterFrames, List.takeWhile_cons]
    by_cases hs : IsShort f
    · -- the frame at the front is extracted, whatever is behind it
      rw [Framing.drainAll_encoded stable_extractFrame (extractFrame_encode hf hs),
        if_pos (decide_eq_true hs), List.foldl_cons]
      exact ih (fun g hg => hwf g (List.mem_cons_of_mem f hg)) _
    · -- it is never extracted, and everything behind it stays in the buffer
      rw [Framing.drainAll_none (extractFrame_encode_long hf hs _), if_neg (by simpa using hs)]
      rfl

/-- What deliveries of an encoded stream do to the session. -/
theorem deliverAll_encode (v : VendoredParser) {s : HttpSession}
    (hws : s.parser.isWebSocket = true) {fs : List Frame} (hwf : ∀ f ∈ fs, f.WellFormed)
    {chunks : List (List UInt8)} (hcut : chunks.flatten = fs.flatMap Frame.encode)
    {r : HttpSession × List UInt8} (hr : deliverAll v (s, []) chunks = .ok r) :
    r.1.forget = s.forget.afterFrames fs := by
  obtain ⟨r', h, -, hf⟩ := deliverAll_ws v chunks (s, []) hws
  rw [hr] at h
  cases h
  rw [Framing.feed_flatten stable_extractFrame _ stable_extractFrame.extract_nil, hcut] at hf
  rw [← drainAll_encode fs hwf s.forget]
  exact (congrArg Prod.fst hf).symm

/-! ## Fragmented messages -/

def IsControl (t : WebSocketFrameType) : Prop :=
  t = .closeFrame ∨ t = .pingFrame ∨ t = .pongFrame

/-- The frames behind the first one of a fragmented message, with control frames among
them, and the bytes they add to the payload. -/
inductive Continues : List Frame → List UInt8 → Prop
  | control {f : Frame} {fs : List Frame} {p : List UInt8} :
      IsControl f.opcode → Continues fs p → Continues (f :: fs) p
  | middle {f : Frame} {fs : List Frame} {p : List UInt8} :
      f.opcode = .continuationFrame → f.fin = false → Continues fs p →
        Continues (f :: fs) (f.payload ++ p)
  | last {f : Frame} : f.opcode = .continuationFrame → f.fin = true → Continues [f] f.payload

/-- A message cut into two or more fragments (RFC 6455, section 5.4): its frames, with
control frames among them, its opcode and its payload. -/
inductive Fragmented : List Frame → WebSocketFrameType → List UInt8 → Prop
  | mk {f : Frame} {fs : List Frame} {p : List UInt8} :
      f.opcode = .textFrame ∨ f.opcode = .binaryFrame → f.fin = false → Continues fs p →
        Fragmented (f :: fs) f.opcode (f.payload ++ p)

/-- The messages passed to the WebSocket callback so far. -/
def dataCalls (s : HttpSession) : List (WebSocketFrameType × List UInt8) :=
  s.calls.filterMap fun
    | .ws opcode payload =>
      if opcode = .textFrame ∨ opcode = .binaryFrame then some (opcode, payload) else none
    | _ => none

/-- While the frames of `message` arrive the WebSocket callback gets one message, `opcode`
with `payload`, and the whole session, with the frames before and after, reaches no
assertion. -/
def ReassemblesOnce (v : VendoredParser) (s : HttpSession) (earlier message later : List Frame)
    (opcode : WebSocketFrameType) (payload : List UInt8) : Prop :=
  ∃ ce cm cl : List (List UInt8), ∃ r₁ r₂ r₃ : HttpSession × List UInt8,
    ce.flatten = earlier.flatMap Frame.encode ∧ cm.flatten = message.flatMap Frame.encode ∧
    cl.flatten = later.flatMap Frame.encode ∧
    deliverAll v (s, []) ce = .ok r₁ ∧ deliverAll v r₁ cm = .ok r₂ ∧
    deliverAll v r₂ cl = .ok r₃ ∧
    r₂.1.dataCalls = r₁.1.dataCalls ++ [(opcode, payload)] ∧ r₃.1.assertHits = s.assertHits

/-- Only a data frame with FIN set makes the callback get a message. -/
theorem dataCalls_onFrame {s : HttpSession} {o : FrameOut}
    (h : ¬ (o.outfin ∧ (o.outopcode = .textFrame ∨ o.outopcode = .binaryFrame))) :
    (s.onFrame o).dataCalls = s.dataCalls := by
  rw [onFrame_eq, if_neg h]
  split
  · rfl
  · split
    · rename_i hc
      have hdata : ¬ (o.outopcode = .textFrame ∨ o.outopcode = .binaryFrame) := by
        rcases hc with hc | hc | hc <;> rw [hc] <;> decide
      simp only [call, forget, setParseString, dataCalls]
      split
      · simp [hdata]
      · rfl
    · rfl

theorem not_data_of_continues {fs : List Frame} {p : List UInt8} (h : Continues fs p) :
    ∀ f ∈ fs, ¬ (f.opcode = .textFrame ∨ f.opcode = .binaryFrame) := by
  induction h with
  | control hc _ ih =>
    intro g hg
    rcases List.mem_cons.mp hg with rfl | hg
    · rcases hc with hc | hc | hc <;> rw [hc] <;> decide
    · exact ih g hg
  | middle hop _ _ ih =>
    intro g hg
    rcases List.mem_cons.mp hg with rfl | hg
    · rw [hop]; decide
    · exact ih g hg
  | last hop _ =>
    intro g hg
    rw [List.mem_singleton.mp hg, hop]
    decide

/-- No frame of a fragmented message is a data frame with FIN set. -/
theorem not_fin_data_of_fragmented {fs : List Frame} {t : WebSocketFrameType} {p : List UInt8}
    (h : Fragmented fs t p) :
    ∀ f ∈ fs, ¬ (f.fin ∧ (f.opcode = .textFrame ∨ f.opcode = .binaryFrame)) := by
  obtain ⟨-, hfin, hrest⟩ := h
  intro g hg hdata
  rcases List.mem_cons.mp hg with rfl | hg
  · rw [hfin] at hdata
    exact absurd hdata.1 (by decide)
  · exact not_data_of_continues hrest g hg hdata.2

theorem dataCalls_foldl_onFrame {fs : List Frame}
    (h : ∀ f ∈ fs, ¬ (f.fin ∧ (f.opcode = .textFrame ∨ f.opcode = .binaryFrame)))
    (s : HttpSession) :
    (fs.foldl (fun s f => s.onFrame (frameOut f)) s).dataCalls = s.dataCalls := by
  induction fs generalizing s with
  | nil => rfl
  | cons f fs ih =>
    rw [List.foldl_cons, ih (fun g hg => h g (List.mem_cons_of_mem f hg)),
      dataCalls_onFrame (h f (List.mem_cons_self ..))]

/-- While the frames of a fragmented message arrive, the callback gets no message at all. -/
theorem dataCalls_afterFrames_fragmented {message : List Frame} {t : WebSocketFrameType}
    {p : List UInt8} (h : Fragmented message t p) (s : HttpSession) (earlier : List Frame) :
    (s.afterFrames (earlier ++ message)).dataCalls = (s.afterFrames earlier).dataCalls := by
  unfold afterFrames
  -- a frame that is too long before the message hides the message
  rw [List.takeWhile_append]
  split
  · rename_i hall
    have hpre : earlier.takeWhile (decide <| IsShort ·) = earlier :=
      (List.takeWhile_prefix _).eq_of_length hall
    rw [List.foldl_append, hpre]
    refine dataCalls_foldl_onFrame (fun f hf => ?_) _
    exact not_fin_data_of_fragmented h f ((List.takeWhile_sublist _).mem hf)
  · rfl

/-- The deliveries of a fragmented message add no message to those passed to the callback
before. -/
theorem dataCalls_deliverAll_fragmented (v : VendoredParser) {s : HttpSession}
    (hws : s.parser.isWebSocket = true) {earlier message : List Frame} {t : WebSocketFrameType}
    {p : List UInt8} (hm : Fragmented message t p)
    (hwf : ∀ f ∈ earlier ++ message, f.WellFormed) {ce cm : List (List UInt8)}
    (hce : ce.flatten = earlier.flatMap Frame.encode)
    (hcm : cm.flatten = message.flatMap Frame.encode) {r₁ r₂ : HttpSession × List UInt8}
    (h₁ : deliverAll v (s, []) ce = .ok r₁) (h₂ : deliverAll v r₁ cm = .ok r₂) :
    r₂.1.dataCalls = r₁.1.dataCalls := by
  -- both ends of the message are states after a stream of whole frames
  have hboth : deliverAll v (s, []) (ce ++ cm) = .ok r₂ := by
    simp only [deliverAll, List.foldlM_append] at h₁ h₂ ⊢
    rw [h₁]
    exact h₂
  have hcut : (ce ++ cm).flatten = (earlier ++ message).flatMap Frame.encode := by
    rw [List.flatten_append, List.flatMap_append, hce, hcm]
  have hs₁ := deliverAll_encode v hws
    (fun f hf => hwf f (List.mem_append_left message hf)) hce h₁
  have hs₂ := deliverAll_encode v hws hwf hcut hboth
  -- `forget` drops the parser's scratch fields only
  calc r₂.1.dataCalls = r₂.1.forget.dataCalls := rfl
    _ = r₁.1.forget.dataCalls := by
        rw [hs₂, hs₁, dataCalls_afterFrames_fragmented hm]
    _ = r₁.1.dataCalls := rfl

/-- **No fragmented message is reassembled**, whatever its fragments, the control frames
among them and the rest of the session. -/
theorem not_reassemblesOnce (v : VendoredParser) (s : HttpSession)
    (hws : s.parser.isWebSocket = true) (earlier message later : List Frame)
    (opcode : WebSocketFrameType) (payload : List UInt8) (hm : Fragmented message opcode payload)
    (hwf : ∀ f ∈ earlier ++ message, f.WellFormed) :
    ¬ ReassemblesOnce v s earlier message later opcode payload := by
  rintro ⟨ce, cm, cl, r₁, r₂, r₃, hce, hcm, -, h₁, h₂, -, hcalls, -⟩
  rw [dataCalls_deliverAll_fragmented v hws hm hwf hce hcm h₁ h₂] at hcalls
  simpa using congrArg List.length hcalls

/-! ### The shortest instance: a text message in two fragments -/

/-- The message `ab`, its fragments unmasked. -/
def twoFragments : List Frame :=
  [⟨.textFrame, false, none, [97]⟩, ⟨.continuationFrame, true, none, [98]⟩]

theorem fragmented_twoFragments : Fragmented twoFragments .textFrame [97, 98] :=
  .mk (Or.inl rfl) rfl (.last rfl rfl)

theorem wellFormed_twoFragments : ∀ f ∈ twoFragments, f.WellFormed := by
  intro f hf
  simp only [twoFragments, List.mem_cons, List.not_mem_nil, or_false] at hf
  rcases hf with rfl | rfl <;> exact ⟨by decide, by decide⟩

/-- The message `ab` does not reach the callback. -/
theorem not_reassemblesOnce_twoFragments :
    ¬ ReassemblesOnce ⟨fun _ => [], fun _ => none⟩ upgraded [] twoFragments [] .textFrame
      [97, 98] :=
  not_reassemblesOnce _ upgraded rfl [] twoFragments [] _ _ fragmented_twoFragments
    wellFormed_twoFragments

/-- The first fragment reaches the assertion, and no message reaches the callback. -/
theorem deliverAll_twoFragments :
    upgraded.parser.isWebSocket = true ∧ Fragmented twoFragments .textFrame [97, 98] ∧
      ¬ ReassemblesOnce ⟨fun _ => [], fun _ => none⟩ upgraded [] twoFragments [] .textFrame
        [97, 98] ∧
      (deliverAll ⟨fun _ => [], fun _ => none⟩ (upgraded, [])
        [twoFragments.flatMap Frame.encode]).toOption.map
          (fun r => (r.1.calls, r.1.assertHits, r.1.parser.wsCacheFrame)) = some ([], 1, [98]) := by
  refine ⟨rfl, fragmented_twoFragments, ?_, by decide⟩
  rintro ⟨ce, cm, cl, r₁, r₂, r₃, hce, hcm, -, h₁, h₂, -, hcalls, -⟩
  rw [dataCalls_deliverAll_fragmented _ rfl fragmented_twoFragments wellFormed_twoFragments
    hce hcm h₁ h₂] at hcalls
  simpa using congrArg List.length hcalls

end HttpSession

end Netxy
