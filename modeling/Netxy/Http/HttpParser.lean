import Netxy.Lib.CString

/-!
# `HTTPParser`

The completeness scan and `tryParse` of `HttpParser.cpp`. Pointers into `copyBuffer` are
offsets; the vendored `http_parser` is the parameter `VendoredParser`, a function from the
buffer to the callbacks it makes.
-/

namespace Netxy
open CString

/-! ## What can go wrong -/

/-- The ways `checkCompleted` can end without a result. -/
inductive Fault
  /-- a write outside the local array `temp` -/
  | outOfBounds
  /-- `assert(datalen >= 0)` -/
  | assertion
  /-- the chunk loop goes on -/
  | diverges
deriving DecidableEq, Repr

/-! ## `checkCompleted` -/

def RL : List UInt8 := ascii "\r\n"
def DOUBLE_RL : List UInt8 := ascii "\r\n\r\n"
def CONTENT_LENGTH_FLAG : List UInt8 := ascii "Content-Length: "
def CHUNKED_FLAG : List UInt8 := ascii "Transfer-Encoding: chunked"

/-- The body is framed by the first `Content-Length: ` of the buffer; `number` is what `atoi` makes
of the text behind it. -/
def checkContentLengthWith (number : List UInt8 → ℤ) (copyBuffer : List UInt8)
    (len bodystart contentlenFind : ℕ) : Except Fault Bool :=
  let start := contentlenFind + CONTENT_LENGTH_FLAG.length
  -- without a line end the copy loop runs from a pointer up to `nullptr`, that is not at all
  let stop := (strstrFrom RL copyBuffer start).getD start
  let temp := (copyBuffer.drop start).take (stop - start)
  -- `char temp[1024]` has to hold the bytes and a zero
  if 1024 < temp.length + 1 then .error .outOfBounds
  else if temp.length + 1 = 1 then .ok false
  else
    let datalen := number temp
    if datalen < 0 then .error .assertion
    else .ok (decide (datalen.toNat ≤ len - bodystart))

/-- What `checkCompleted` makes of a `Content-Length: `. -/
def checkContentLength (copyBuffer : List UInt8) (len bodystart contentlenFind : ℕ) :
    Except Fault Bool :=
  checkContentLengthWith atoi copyBuffer len bodystart contentlenFind

/-- The loop over the chunks: the position behind the last chunk's size line when that line
is reached (`checkChunked`), `none` when the loop stops before. `tmp` and `len_flag` are the
source's pointers, `len_flag` being null where it is `none`. -/
def scanChunks (copyBuffer : List UInt8) (len : ℕ) :
    ℕ → ℕ → Option ℕ → Except Fault (Option ℕ)
  | 0, _, _ => .error .diverges
  | _ + 1, _, none => .ok none
  | fuel + 1, tmp, some lenFlag =>
    let numstr := (copyBuffer.drop tmp).take (lenFlag - tmp)
    let nValude := sscanfHex numstr
    let tmp := lenFlag + RL.length
    if len ≤ tmp then .ok none
    else if 0 < nValude then
      let tmp := tmp + nValude.toNat
      if len ≤ tmp then .ok none
      else
        match strstrFrom RL copyBuffer tmp with
        | none => .ok none
        | some lenFlag =>
          let tmp := lenFlag + RL.length
          scanChunks copyBuffer len fuel tmp (strstrFrom RL copyBuffer tmp)
    else if nValude = 0 then .ok (some tmp)
    else scanChunks copyBuffer len fuel tmp (strstrFrom RL copyBuffer tmp)

/-- The body is framed by chunks. -/
def checkChunks (copyBuffer : List UInt8) (len bodystart : ℕ) : Except Fault Bool := do
  match ← scanChunks copyBuffer len (len + 1) bodystart (strstrFrom RL copyBuffer bodystart) with
  | none => return false
  | some tmp =>
    if copyBuffer.getD tmp 0 = 13 then return (strstrFrom RL copyBuffer tmp).isSome
    else return (strstrFrom DOUBLE_RL copyBuffer tmp).isSome

/-- `HTTPParser::checkCompleted`, with `number` for `atoi`. -/
def checkCompletedWith (number : List UInt8 → ℤ) (buffer : List UInt8) : Except Fault Bool :=
  let copyBuffer := buffer ++ [0]
  match strstr DOUBLE_RL copyBuffer with
  | none => .ok false
  | some headlineend =>
    let bodystart := headlineend + DOUBLE_RL.length
    match strstr CONTENT_LENGTH_FLAG copyBuffer with
    | some contentlenFind =>
      checkContentLengthWith number copyBuffer buffer.length bodystart contentlenFind
    | none =>
      match strstr CHUNKED_FLAG copyBuffer with
      | some _ => checkChunks copyBuffer buffer.length bodystart
      | none => .ok true

/-- `HTTPParser::checkCompleted`, with the `atoi` of glibc. -/
def checkCompleted (buffer : List UInt8) : Except Fault Bool := checkCompletedWith atoi buffer

/-! ## The vendored parser -/

/-- A callback `http_parser_execute` makes, with the bytes it passes. The callbacks that
only return 0 are left out. -/
inductive ParserEvent
  | onUrl (url : List UInt8)
  | onStatus (bytes : List UInt8)
  | onHeaderField (bytes : List UInt8)
  | onHeaderValue (bytes : List UInt8)
  | onBody (bytes : List UInt8)
deriving DecidableEq, Repr

/-- The fields of a parsed URL `sUrlHandle` reads. -/
structure HttpParserUrl where
  path : Option (List UInt8)
  query : Option (List UInt8)

/-- The vendored `http_parser`: `execute` gives the callbacks made on a buffer from a
freshly initialised parser as long as they return 0, `parseUrl` is
`http_parser_parse_url`. -/
structure VendoredParser where
  execute : List UInt8 → List ParserEvent
  parseUrl : List UInt8 → Option HttpParserUrl

/-! ## The parser object -/

/-- `class HTTPParser`. `tmpHeadStr` is the header name the pair `mTmpHeadStr`,
`mTmpHeadLen` points to, `headValues` the map, latest binding first. -/
structure HTTPParser where
  isWebSocket : Bool
  isKeepAlive : Bool
  isCompleted : Bool
  path : List UInt8
  query : List UInt8
  headValues : List (List UInt8 × List UInt8)
  status : List UInt8
  body : List UInt8
  wsCacheFrame : List UInt8
  parsePayload : List UInt8
  tmpHeadStr : List UInt8
deriving DecidableEq, Repr

namespace HTTPParser

/-- The constructor. -/
def init : HTTPParser :=
  { isWebSocket := false, isKeepAlive := false, isCompleted := false, path := [], query := [],
    headValues := [], status := [], body := [], wsCacheFrame := [], parsePayload := [],
    tmpHeadStr := [] }

def clearParse (p : HTTPParser) : HTTPParser :=
  { p with isCompleted := false, headValues := [], path := [], query := [] }

def hasKey (p : HTTPParser) (key : List UInt8) : Bool := (p.headValues.lookup key).isSome

def getValue (p : HTTPParser) (key : List UInt8) : List UInt8 :=
  (p.headValues.lookup key).getD []

/-- `sUrlHandle`; `none` where it returns -1. -/
def sUrlHandle (v : VendoredParser) (p : HTTPParser) (url : List UInt8) : Option HTTPParser := do
  let u ← v.parseUrl url
  let path ← u.path
  match u.query with
  | some query => some { p with path := path, query := query }
  | none => some { p with path := path }

/-- The handler of one callback; `none` where it returns nonzero, which halts the parser. -/
def handleEvent (v : VendoredParser) (p : HTTPParser) : ParserEvent → Option HTTPParser
  | .onUrl url => sUrlHandle v p url
  | .onStatus bytes => some { p with status := bytes }
  | .onHeaderField bytes => some { p with tmpHeadStr := bytes }
  | .onHeaderValue bytes => some { p with headValues := (p.tmpHeadStr, bytes) :: p.headValues }
  | .onBody bytes => some { p with body := bytes }

/-- `http_parser_execute`: the callbacks in order, up to one that halts the parser. -/
def httpParserExecute (v : VendoredParser) : HTTPParser → List ParserEvent → HTTPParser
  | p, [] => p
  | p, e :: es =>
    match handleEvent v p e with
    | none => p
    | some p' => httpParserExecute v p' es

/-- `HTTPParser::tryParse`: the returned count and the parser after the call. -/
def tryParse (v : VendoredParser) (p : HTTPParser) (buffer : List UInt8) :
    Except Fault (ℕ × HTTPParser) := do
  if p.isCompleted then return (0, p)
  if ← checkCompleted buffer then
    -- the parser is given all of the buffer, and all of it is reported consumed
    let p := httpParserExecute v { p with isCompleted := true } (v.execute buffer)
    return (buffer.length,
      { p with
        isWebSocket := p.getValue (ascii "Upgrade") = ascii "websocket"
        isKeepAlive := !(p.getValue (ascii "Keep-Alive")).isEmpty
        tmpHeadStr := [] })
  else return (0, p)

/-! ## What `tryParse` returns -/

/-- `tryParse` returns 0 or the length of the whole buffer it was given. -/
theorem tryParse_fst {v : VendoredParser} {p : HTTPParser} {buffer : List UInt8}
    {r : ℕ × HTTPParser} (h : tryParse v p buffer = .ok r) :
    r.1 = if ¬ p.isCompleted ∧ checkCompleted buffer = .ok true then buffer.length else 0 := by
  unfold tryParse at h
  cases hp : p.isCompleted with
  | true =>
    simp only [hp, if_true] at h
    cases h
    simp
  | false =>
    rcases hc : checkCompleted buffer with e | c
    · simp [hp, hc] at h
      cases h
    · cases c
      · simp [hp, hc] at h
        cases h
        simp
      · simp [hp, hc] at h
        cases h
        simp

/-- A buffer that is a complete message and has no proper prefix that is one. -/
structure CompleteMessage (m : List UInt8) : Prop where
  completed : checkCompleted m = .ok true
  minimal : ∀ k < m.length, checkCompleted (m.take k) ≠ .ok true

theorem CompleteMessage.length_pos {m : List UInt8} (hm : CompleteMessage m) : 0 < m.length := by
  rcases m with _ | ⟨c, cs⟩
  · exact absurd hm.completed (by decide)
  · simp

/-- A complete message with nothing behind it is consumed. -/
theorem tryParse_of_completed {v : VendoredParser} {p : HTTPParser} {m : List UInt8}
    (hp : p.isCompleted = false) (hm : checkCompleted m = .ok true) :
    ∃ p', tryParse v p m = .ok (m.length, p') := by
  unfold tryParse
  rw [hp, hm]
  exact ⟨_, rfl⟩

/-- **`tryParse` returns the length of the message exactly when nothing follows it** in the
buffer. With more bytes behind the message it takes the whole buffer for the message, or
returns 0; its declaration promises the length of the message. -/
theorem tryParse_returns_message_length_iff (v : VendoredParser) (p : HTTPParser)
    (hp : p.isCompleted = false) (m s : List UInt8) (hm : CompleteMessage m) :
    (∃ p', tryParse v p (m ++ s) = .ok (m.length, p')) ↔ s = [] := by
  constructor
  · rintro ⟨p', h⟩
    -- neither 0 nor the length of the whole buffer is the length of the message
    have hlen := tryParse_fst h
    have hpos := hm.length_pos
    simp only at hlen
    split at hlen
    · rw [List.length_append] at hlen
      exact List.eq_nil_of_length_eq_zero (by omega)
    · omega
  · rintro rfl
    rw [List.append_nil]
    exact tryParse_of_completed hp hm.completed

/-- A request without header fields and body. -/
def getRequest : List UInt8 := ascii "GET / HTTP/1.1\r\n\r\n"

/-- The request is complete with its empty line, and not before. -/
theorem completeMessage_getRequest : CompleteMessage getRequest where
  completed := by decide
  minimal := by decide

/-- The first byte of the next request behind a request. -/
theorem tryParse_getRequest_iff :
    (∃ p', tryParse ⟨fun _ => [], fun _ => none⟩ init (getRequest ++ ascii "G") =
      .ok (getRequest.length, p')) ↔ ascii "G" = [] :=
  tryParse_returns_message_length_iff _ init rfl getRequest (ascii "G") completeMessage_getRequest

/-- The first byte of a pipelined request is taken with the request before it. -/
theorem tryParse_pipelined_getRequest :
    CompleteMessage getRequest ∧ init.isCompleted = false ∧
      ¬ ∃ p', tryParse ⟨fun _ => [], fun _ => none⟩ init (getRequest ++ ascii "G") =
        .ok (getRequest.length, p') := by
  refine ⟨completeMessage_getRequest, rfl, ?_⟩
  rintro ⟨p', h⟩
  have hboth : checkCompleted (getRequest ++ ascii "G") = .ok true := by decide
  obtain ⟨p'', h'⟩ := tryParse_of_completed (v := ⟨fun _ => [], fun _ => none⟩)
    (p := init) rfl hboth
  rw [h'] at h
  simp [getRequest, ascii] at h

end HTTPParser

end Netxy
