import Mathlib.Data.Bool.AllAny
import Netxy.Http.Completeness
import Netxy.Http.Dispatch

/-!
# The body of a parsed message

`http_parser` hands a body over in one or more pieces, and `sBodyHandle` sets `mBody` to the
piece it is given. What `getBody` returns is so the last piece, or what `mBody` was before.
-/

namespace Netxy.HTTPParser
open CString Http

def getBody (p : HTTPParser) : List UInt8 := p.body

/-! ## Pieces -/

/-- The pieces of a body among the callbacks. -/
def bodySpans : List ParserEvent → List (List UInt8)
  | [] => []
  | .onBody bytes :: es => bytes :: bodySpans es
  | _ :: es => bodySpans es

/-- No callback for a URL returns -1. -/
def acceptsUrls (v : VendoredParser) (es : List ParserEvent) : Bool :=
  es.all fun
    | .onUrl url => (sUrlHandle v init url).isSome
    | _ => true

theorem bodySpans_append (es fs : List ParserEvent) :
    bodySpans (es ++ fs) = bodySpans es ++ bodySpans fs := by
  induction es with
  | nil => rfl
  | cons e es ih =>
    cases e with
    | onBody bytes =>
      rw [List.cons_append, bodySpans, bodySpans, ih]
      rfl
    | onUrl | onStatus | onHeaderField | onHeaderValue => exact ih

/-- A parse that is not halted keeps the last piece. -/
theorem reportedBody_of_accepts {v : VendoredParser} {es : List ParserEvent}
    (h : acceptsUrls v es = true) : reportedBody v es = (bodySpans es).getLast? := by
  induction es with
  | nil => rfl
  | cons e es ih =>
    obtain ⟨hfirst, hes⟩ := (Bool.and_eq_true _ _).mp h
    have hrest := ih hes
    cases e with
    | onUrl url =>
      rw [reportedBody, if_pos hfirst]
      exact hrest
    | onBody bytes =>
      rw [reportedBody, hrest, bodySpans, List.getLast?_cons]
      cases (bodySpans es).getLast? <;> rfl
    | onStatus | onHeaderField | onHeaderValue => exact hrest

/-- Where a URL is refused, there is a callback for it. -/
theorem exists_onUrl_of_rejects {v : VendoredParser} {es : List ParserEvent}
    (h : acceptsUrls v es = false) :
    ∃ before url after, es = before ++ .onUrl url :: after ∧ sUrlHandle v init url = none := by
  obtain ⟨e, hmem, he⟩ := List.all_eq_false.mp h
  obtain ⟨before, after, hes⟩ := List.append_of_mem hmem
  cases e with
  | onUrl url => exact ⟨before, url, after, hes, Option.not_isSome_iff_eq_none.mp he⟩
  | onStatus | onHeaderField | onHeaderValue | onBody => exact absurd rfl he

/-- A parse that is halted in front of the body reports none of it. -/
theorem reportedBody_of_rejects {v : VendoredParser} {es fs : List ParserEvent}
    {url : List UInt8} (hes : bodySpans es = []) (hurl : sUrlHandle v init url = none) :
    reportedBody v (es ++ .onUrl url :: fs) = none := by
  induction es with
  | nil =>
    rw [List.nil_append, reportedBody, hurl]
    rfl
  | cons e es ih =>
    rw [List.cons_append]
    cases e with
    | onUrl u =>
      rw [reportedBody]
      split_ifs
      · exact ih hes
      · rfl
    | onBody bytes => cases hes
    | onStatus | onHeaderField | onHeaderValue => exact ih hes

/-- The last piece is the whole exactly if all others are empty. -/
theorem getLast_eq_flatten_iff {spans : List (List UInt8)} (h : spans ≠ []) :
    spans.getLast h = spans.flatten ↔ ∀ b ∈ spans.dropLast, b = [] := by
  have hsplit : spans.flatten = spans.dropLast.flatten ++ spans.getLast h := by
    conv_lhs => rw [← List.dropLast_append_getLast h]
    rw [List.flatten_append, List.flatten_singleton]
  rw [hsplit, eq_comm, List.append_left_eq_self, List.flatten_eq_nil_iff]

/-! ## The body of a message -/

/-- The body a message carries, decoded. -/
inductive Carries (m : Message) : List UInt8 → Prop
  | contentLength (present : ∃ f ∈ m.fields, f.isNamed (ascii "content-length")) :
    Carries m m.body
  | chunked (b : ChunkedBody) (present : ∃ f ∈ m.fields, f.isNamed (ascii "transfer-encoding"))
    (body : m.body = b.bytes) : Carries m (b.chunks.flatMap Chunk.data)

/-- The vendored parser hands over the body `data` of a message in order, in pieces of any
number and size, and the URL before it. -/
structure ReportsBody (v : VendoredParser) (m : Message) (data : List UInt8) : Prop where
  carries : Carries m data
  in_order : (bodySpans (v.execute m.bytes)).flatten = data
  url_first : ∀ es url fs, v.execute m.bytes = es ++ .onUrl url :: fs → bodySpans es = []

/-- The body comes in one piece, if any: all pieces but the last one are empty. Where it does
not come, or a URL is refused before, the parser holds these bytes already. -/
def InOnePiece (v : VendoredParser) (p : HTTPParser) (m : Message) (data : List UInt8) : Prop :=
  let spans := bodySpans (v.execute m.bytes)
  (acceptsUrls v (v.execute m.bytes) = true ∧ spans ≠ [] ∧ ∀ b ∈ spans.dropLast, b = []) ∨
    ((acceptsUrls v (v.execute m.bytes) = false ∨ spans = []) ∧ p.body = data)

/-- A parse that completes runs the callbacks on the parser. -/
theorem body_of_tryParse {v : VendoredParser} {p q : HTTPParser} {buffer : List UInt8} {n : ℕ}
    (hp : p.isCompleted = false) (h : p.tryParse v buffer = .ok (n, q))
    (hq : q.isCompleted = true) :
    q.body = (reportedBody v (v.execute buffer)).getD p.body := by
  rw [HttpSession.tryParse_eq, hp, if_neg Bool.false_ne_true] at h
  split at h
  · cases h
  · cases h
    exact (httpParserExecute_agree v _ ⟨rfl, rfl, rfl, rfl⟩).2
  · cases h
    rw [hp] at hq
    cases hq

/-- `getBody` returns the body of a message exactly if it came in one piece. -/
theorem getBody_eq_iff_inOnePiece (v : VendoredParser) (p q : HTTPParser) (m : Message)
    (data : List UInt8) (n : ℕ) (hv : ReportsBody v m data) (hp : p.isCompleted = false)
    (h : p.tryParse v m.bytes = .ok (n, q)) (hq : q.isCompleted = true) :
    q.getBody = data ↔ InOnePiece v p m data := by
  rw [getBody, body_of_tryParse hp h hq, InOnePiece]
  cases haccept : acceptsUrls v (v.execute m.bytes) with
  | true =>
    rw [reportedBody_of_accepts haccept]
    by_cases hspans : bodySpans (v.execute m.bytes) = []
    · simp [hspans]
    · rw [List.getLast?_eq_some_getLast hspans, Option.getD_some, ← hv.in_order,
        getLast_eq_flatten_iff hspans]
      simp [hspans]
  | false =>
    -- the URL that is refused comes before the body
    obtain ⟨before, url, after, hes, hurl⟩ := exists_onUrl_of_rejects haccept
    have hnone : reportedBody v (before ++ .onUrl url :: after) = none :=
      reportedBody_of_rejects (hv.url_first before url after hes) hurl
    rw [hes, hnone, Option.getD_none]
    simp

/-! ## One chunk and two -/

def chunkedField : Field where
  name := ascii "Transfer-Encoding"
  value := ascii " chunked"
  name_ne := by decide
  name_token := List.all_eq_true.mp (by decide)
  value_text := List.all_eq_true.mp (by decide)

/-- A chunk of one byte. -/
def byteChunk (c : UInt8) : Chunk where
  size := ascii "1"
  extension := []
  data := [c]
  size_digits := List.all_iff_forall_prop.mp (by decide)
  extension_text := by simp
  extension_head := by simp
  data_length := by
    rw [List.length_singleton]
    decide
  data_ne := by simp

/-- Chunks of one byte each. -/
def byteChunks (bytes : List UInt8) : ChunkedBody where
  chunks := bytes.map byteChunk
  zeros := ascii "0"
  extension := []
  trailers := []
  zeros_ne := by decide
  zeros_zero := List.all_iff_forall_prop.mp (by decide)
  extension_text := by simp
  extension_head := by simp

/-- `POST / HTTP/1.1` with these chunks. -/
def byteMessage (bytes : List UInt8) : Message where
  startLine := lowerCaseMessage.startLine
  fields := [chunkedField]
  body := (byteChunks bytes).bytes
  framed := by
    refine .chunked _ ⟨chunkedField, List.mem_singleton_self _, by decide⟩ ?_ ?_
    · intro f hf _
      rw [List.mem_singleton.mp hf]
      decide
    · intro f hf
      rw [List.mem_singleton.mp hf]
      decide

/-- What the vendored parser does with such a message: one callback for each chunk. -/
def byteParser (bytes : List UInt8) : VendoredParser where
  execute _ :=
    [.onUrl (ascii "/"), .onHeaderField (ascii "Transfer-Encoding"),
      .onHeaderValue (ascii "chunked")] ++ bytes.map fun c => .onBody [c]
  parseUrl u := if u = ascii "/" then some ⟨some (ascii "/"), none⟩ else none

theorem bodySpans_map_onBody (bytes : List UInt8) :
    bodySpans (bytes.map fun c => .onBody [c]) = bytes.map ([·]) := by
  induction bytes with
  | nil => rfl
  | cons c cs ih => rw [List.map_cons, bodySpans, ih, List.map_cons]

theorem reportsBody_byteMessage (bytes : List UInt8) :
    ReportsBody (byteParser bytes) (byteMessage bytes) bytes where
  carries := by
    have hdata : (byteChunks bytes).chunks.flatMap Chunk.data = bytes := by
      rw [byteChunks, List.flatMap_map]
      exact List.flatMap_singleton' bytes
    have h := Carries.chunked (m := byteMessage bytes) (byteChunks bytes)
      ⟨chunkedField, List.mem_singleton_self _, by decide⟩ rfl
    rwa [hdata] at h
  in_order := by
    rw [byteParser, bodySpans_append, bodySpans_map_onBody]
    exact List.flatMap_singleton' bytes
  url_first := by
    intro es url fs h
    -- the first callback is the only one for a URL
    cases es with
    | nil => rfl
    | cons e es =>
      have hmem : ParserEvent.onUrl url ∈ [ParserEvent.onHeaderField (ascii "Transfer-Encoding"),
          .onHeaderValue (ascii "chunked")] ++ bytes.map fun c => .onBody [c] := by
        have htail : _ ++ _ = es ++ .onUrl url :: fs := (List.cons.inj h).2
        rw [htail]
        exact List.mem_append_right es List.mem_cons_self
      simp at hmem

/-- A body of one chunk is in one piece. -/
theorem getBody_one_chunk :
    ∃ n q, init.tryParse (byteParser (ascii "a")) (byteMessage (ascii "a")).bytes = .ok (n, q) ∧
      (q.getBody = ascii "a" ↔
        InOnePiece (byteParser (ascii "a")) init (byteMessage (ascii "a")) (ascii "a")) := by
  obtain ⟨q, hq⟩ := tryParse_of_completed (v := byteParser (ascii "a")) (p := init)
    (m := (byteMessage (ascii "a")).bytes) rfl (by decide)
  have hdone : q.isCompleted = true := by
    rw [HttpSession.tryParse_eq] at hq
    cases hq
    rfl
  exact ⟨_, q, hq, getBody_eq_iff_inOnePiece _ init q (byteMessage (ascii "a")) (ascii "a") _
    (reportsBody_byteMessage _) rfl hq hdone⟩

/-- Of two chunks the second is the body. -/
theorem not_getBody_two_chunks :
    ¬ ∀ (v : VendoredParser) (p q : HTTPParser) (m : Message) (data : List UInt8) (n : ℕ),
      ReportsBody v m data → p.isCompleted = false → p.tryParse v m.bytes = .ok (n, q) →
        q.isCompleted = true → q.getBody = data := by
  intro h
  obtain ⟨q, hq⟩ := tryParse_of_completed (v := byteParser (ascii "ab")) (p := init)
    (m := (byteMessage (ascii "ab")).bytes) rfl (by decide)
  have hall := h _ init q (byteMessage (ascii "ab")) (ascii "ab") _ (reportsBody_byteMessage _)
    rfl hq
  rw [HttpSession.tryParse_eq] at hq
  cases hq
  exact absurd (hall rfl) (by decide)

end Netxy.HTTPParser
