import Netxy.Http.Vendored.Tables
import Netxy.Lib.Spans

/-!
# `http_parser_execute`: the cases of its `switch`

A case of the `switch` is an `Action`: the parser object it leaves, the mark it sets, the
callback it makes and where it goes on. The cases that loop over several bytes themselves are
left to `Execute`; what they do with one byte is `fieldChar` and `valueChar`.
-/

namespace Netxy.Vendored
open CString

/-! ## Callbacks -/

/-- The five marks, and the data callbacks with their names. -/
inductive Mark
  | headerField | headerValue | url | body | status
deriving DecidableEq, Repr

/-- The callbacks without data. -/
inductive Notify
  | messageBegin | headersComplete | messageComplete | chunkHeader | chunkComplete
deriving DecidableEq, Repr

/-- A callback that is made: with a span of the data, or without data. -/
abbrev Callback := Spans.Event Mark Notify UInt8

/-- `HPE_CB_##FOR`. -/
def Callback.errno : Callback → HttpErrno
  | .data .headerField _ => .CB_header_field
  | .data .headerValue _ => .CB_header_value
  | .data .url _ => .CB_url
  | .data .body _ => .CB_body
  | .data .status _ => .CB_status
  | .note .messageBegin => .CB_message_begin
  | .note .headersComplete => .CB_headers_complete
  | .note .messageComplete => .CB_message_complete
  | .note .chunkHeader => .CB_chunk_header
  | .note .chunkComplete => .CB_chunk_complete

/-- The macros that make a callback. `dataThrough` is the use of `CALLBACK_DATA_` for the body
that takes the current byte along. -/
inductive Call
  | data (mark : Mark)
  | dataNoadvance (mark : Mark)
  | dataThrough (mark : Mark)
  | notify (n : Notify)
  | notifyNoadvance (n : Notify)
deriving DecidableEq, Repr

/-- How a case ends: with `break`, `REEXECUTE()`, `goto error`, `RETURN((p - data) + 1)`, or in
an assertion that fails. -/
inductive Next
  | advance | reexecute | error | exit | abort
deriving DecidableEq, Repr

/-- What a case does. -/
structure Action where
  core : Core
  mark : Option Mark
  /-- `parser->nread = 0` -/
  resetNread : Bool
  call : Option Call
  next : Next

namespace Action

/-- `break`: on to the next byte. -/
def advance (c : Core) : Action := ⟨c, none, false, none, .advance⟩

/-- `REEXECUTE()`: the byte once more, in another state. -/
def reexecute (c : Core) : Action := ⟨c, none, false, none, .reexecute⟩

/-- `SET_ERRNO(e); goto error;` -/
def fail (c : Core) (e : HttpErrno) : Action :=
  ⟨{ c with httpErrno := e }, none, false, none, .error⟩

/-- An assertion fails. -/
def abort (c : Core) : Action := ⟨c, none, false, none, .abort⟩

/-- A case behind `STRICT_CHECK(cond)`. -/
def strict (cond : Bool) (c : Core) (a : Action) : Action := if cond then fail c .STRICT else a

/-- A case behind `assert(cond)`. -/
def assert (cond : Bool) (c : Core) (a : Action) : Action := if cond then a else abort c

end Action

open Vendored.Action

/-- `ch - '0'`. -/
def digit (ch : UInt8) : ℕ := ch.toNat - 48

/-! ## The request line and the status line -/

/-- The method the first letter stands for, until a later one changes it. -/
def firstMethod (ch : UInt8) : Option HttpMethod :=
  if ch = 65 then some .ACL
  else if ch = 66 then some .BIND
  else if ch = 67 then some .CONNECT
  else if ch = 68 then some .DELETE
  else if ch = 71 then some .GET
  else if ch = 72 then some .HEAD
  else if ch = 76 then some .LOCK
  else if ch = 77 then some .MKCOL
  else if ch = 78 then some .NOTIFY
  else if ch = 79 then some .OPTIONS
  else if ch = 80 then some .POST
  else if ch = 82 then some .REPORT
  else if ch = 83 then some .SUBSCRIBE
  else if ch = 84 then some .TRACE
  else if ch = 85 then some .UNLOCK
  else none

/-- `case s_start_req`. -/
def startReq (c : Core) (ch : UInt8) : Action :=
  if ch = CR ∨ ch = LF then advance c
  else
    let c := { c with flags := Flags.zero, contentLength := ULLONG_MAX }
    if ¬ isAlpha ch then fail c .INVALID_METHOD
    else
      let c := { c with method := .DELETE, index := 1 }
      match firstMethod ch with
      | none => fail c .INVALID_METHOD
      | some method =>
        ⟨{ c with method := method, state := .reqMethod }, none, false,
          some (.notify .messageBegin), .advance⟩

/-- The method a byte that is not the next one of the current method changes to. -/
def changeMethod (method : HttpMethod) (index : ℕ) (ch : UInt8) : Option HttpMethod :=
  match method with
  | .CONNECT =>
    if index = 1 ∧ ch = 72 then some .CHECKOUT
    else if index = 2 ∧ ch = 80 then some .COPY
    else none
  | .MKCOL =>
    if index = 1 ∧ ch = 79 then some .MOVE
    else if index = 1 ∧ ch = 69 then some .MERGE
    else if index = 1 ∧ ch = 45 then some .MSEARCH
    else if index = 2 ∧ ch = 65 then some .MKACTIVITY
    else if index = 3 ∧ ch = 65 then some .MKCALENDAR
    else none
  | .SUBSCRIBE => if index = 1 ∧ ch = 69 then some .SEARCH else none
  | .REPORT => if index = 2 ∧ ch = 66 then some .REBIND else none
  | .POST =>
    if index = 1 ∧ ch = 82 then some .PROPFIND
    else if index = 1 ∧ ch = 85 then some .PUT
    else if index = 1 ∧ ch = 65 then some .PATCH
    else none
  | .PUT => if index = 2 ∧ ch = 82 then some .PURGE else none
  | .UNLOCK =>
    if index = 2 ∧ ch = 83 then some .UNSUBSCRIBE
    else if index = 2 ∧ ch = 66 then some .UNBIND
    else none
  | .PROPFIND => if index = 4 ∧ ch = 80 then some .PROPPATCH else none
  | _ => none

/-- `case s_req_method`. A string ends in a zero; the parser aborts where it would be read
behind it. -/
def reqMethod (c : Core) (ch : UInt8) : Action :=
  if ch = 0 then fail c .INVALID_METHOD
  else
    let matcher := methodString c.method ++ [0]
    let next := { c with index := (c.index + 1) % 256 }
    match matcher[c.index]? with
    | none => abort c
    | some m =>
      if ch = 32 ∧ m = 0 then advance { next with state := .reqSpacesBeforeUrl }
      else if ch = m then advance next
      else
        match changeMethod c.method c.index ch with
        | some method => advance { next with method := method }
        | none => fail c .INVALID_METHOD

/-- A byte of the URL; `goto error` where the automaton is dead. -/
def urlChar (c : Core) (ch : UInt8) (mark : Option Mark) : Action :=
  let s := parseUrlChar c.state ch
  if s = .dead then
    { fail { c with state := s } .INVALID_URL with mark := mark }
  else ⟨{ c with state := s }, mark, false, none, .advance⟩

/-- `case s_req_spaces_before_url`. -/
def reqSpacesBeforeUrl (c : Core) (ch : UInt8) : Action :=
  if ch = 32 then advance c
  else if c.method = .CONNECT then urlChar { c with state := .reqServerStart } ch (some .url)
  else urlChar c ch (some .url)

/-- The cases of the URL up to the server: no white space is allowed. -/
def urlStart (c : Core) (ch : UInt8) : Action :=
  if ch = 32 ∨ ch = CR ∨ ch = LF then fail c .INVALID_URL else urlChar c ch none

/-- The other cases of the URL. -/
def urlRest (c : Core) (ch : UInt8) : Action :=
  if ch = 32 then
    ⟨{ c with state := .reqHttpStart }, none, false, some (.data .url), .advance⟩
  else if ch = CR ∨ ch = LF then
    ⟨{ c with
        httpMajor := 0
        httpMinor := 9
        state := if ch = CR then .reqLineAlmostDone else .headerFieldStart },
      none, false, some (.data .url), .advance⟩
  else urlChar c ch none

/-- `case s_req_http_start`. -/
def reqHttpStart (c : Core) (ch : UInt8) : Action :=
  if ch = 72 then advance { c with state := .reqHttpH }
  else if ch = 32 then advance c
  else fail c .INVALID_CONSTANT

/-- The cases that wait for one character. -/
def expect (c : Core) (ch want : UInt8) (s : State) : Action :=
  strict (ch != want) c (advance { c with state := s })

/-- A digit that continues the number `n` of a version or a status code. -/
def moreDigits (c : Core) (ch : UInt8) (n : ℕ) (put : Core → ℕ → Core) (e : HttpErrno) : Action :=
  if ¬ isNum ch then fail c e
  else
    let n := n * 10 + digit ch
    if 999 < n then fail (put c n) e else advance (put c n)

/-- `case s_res_first_http_major`. -/
def resFirstHttpMajor (c : Core) (ch : UInt8) : Action :=
  if ch < 48 ∨ 57 < ch then fail c .INVALID_VERSION
  else advance { c with httpMajor := digit ch, state := .resHttpMajor }

/-- `case s_req_first_http_major`. -/
def reqFirstHttpMajor (c : Core) (ch : UInt8) : Action :=
  if ch < 49 ∨ 57 < ch then fail c .INVALID_VERSION
  else advance { c with httpMajor := digit ch, state := .reqHttpMajor }

/-- `case s_res_http_major` and `case s_req_http_major`. -/
def httpMajor (c : Core) (ch : UInt8) (s : State) : Action :=
  if ch = 46 then advance { c with state := s }
  else moreDigits c ch c.httpMajor (fun c n => { c with httpMajor := n }) .INVALID_VERSION

/-- `case s_res_first_http_minor` and `case s_req_first_http_minor`. -/
def firstHttpMinor (c : Core) (ch : UInt8) (s : State) : Action :=
  if ¬ isNum ch then fail c .INVALID_VERSION
  else advance { c with httpMinor := digit ch, state := s }

/-- The further digits of the minor version. -/
def moreHttpMinor (c : Core) (ch : UInt8) : Action :=
  moreDigits c ch c.httpMinor (fun c n => { c with httpMinor := n }) .INVALID_VERSION

/-- `case s_res_http_minor`. -/
def resHttpMinor (c : Core) (ch : UInt8) : Action :=
  if ch = 32 then advance { c with state := .resFirstStatusCode } else moreHttpMinor c ch

/-- `case s_req_http_minor`. -/
def reqHttpMinor (c : Core) (ch : UInt8) : Action :=
  if ch = CR then advance { c with state := .reqLineAlmostDone }
  else if ch = LF then advance { c with state := .headerFieldStart }
  else moreHttpMinor c ch

/-- `case s_start_req_or_res`. -/
def startReqOrRes (c : Core) (ch : UInt8) : Action :=
  if ch = CR ∨ ch = LF then advance c
  else
    let c := { c with flags := Flags.zero, contentLength := ULLONG_MAX }
    if ch = 72 then
      ⟨{ c with state := .resOrRespH }, none, false, some (.notify .messageBegin), .advance⟩
    else reexecute { c with type := .request, state := .startReq }

/-- `case s_res_or_resp_H`. -/
def resOrRespH (c : Core) (ch : UInt8) : Action :=
  if ch = 84 then advance { c with type := .response, state := .resHT }
  else if ch ≠ 69 then fail c .INVALID_CONSTANT
  else advance { c with type := .request, method := .HEAD, index := 2, state := .reqMethod }

/-- `case s_start_res`. -/
def startRes (c : Core) (ch : UInt8) : Action :=
  let c := { c with flags := Flags.zero, contentLength := ULLONG_MAX }
  if ch = 72 then
    ⟨{ c with state := .resH }, none, false, some (.notify .messageBegin), .advance⟩
  else if ch = CR ∨ ch = LF then ⟨c, none, false, some (.notify .messageBegin), .advance⟩
  else fail c .INVALID_CONSTANT

/-- `case s_res_first_status_code`. -/
def resFirstStatusCode (c : Core) (ch : UInt8) : Action :=
  if ¬ isNum ch then
    if ch = 32 then advance c else fail c .INVALID_STATUS
  else advance { c with statusCode := digit ch, state := .resStatusCode }

/-- `case s_res_status_code`. -/
def resStatusCode (c : Core) (ch : UInt8) : Action :=
  if ¬ isNum ch then
    if ch = 32 then advance { c with state := .resStatusStart }
    else if ch = CR then advance { c with state := .resLineAlmostDone }
    else if ch = LF then advance { c with state := .headerFieldStart }
    else fail c .INVALID_STATUS
  else moreDigits c ch c.statusCode (fun c n => { c with statusCode := n }) .INVALID_STATUS

/-- `case s_res_status_start`. -/
def resStatusStart (c : Core) (ch : UInt8) : Action :=
  if ch = CR then advance { c with state := .resLineAlmostDone }
  else if ch = LF then advance { c with state := .headerFieldStart }
  else ⟨{ c with state := .resStatus, index := 0 }, some .status, false, none, .advance⟩

/-- `case s_res_status`. -/
def resStatus (c : Core) (ch : UInt8) : Action :=
  if ch = CR then
    ⟨{ c with state := .resLineAlmostDone }, none, false, some (.data .status), .advance⟩
  else if ch = LF then
    ⟨{ c with state := .headerFieldStart }, none, false, some (.data .status), .advance⟩
  else advance c

/-! ## Header fields -/

/-- The names of header fields that the parser looks for, and the values it knows. -/
def CONNECTION : List UInt8 := ascii "connection"
def PROXY_CONNECTION : List UInt8 := ascii "proxy-connection"
def CONTENT_LENGTH : List UInt8 := ascii "content-length"
def TRANSFER_ENCODING : List UInt8 := ascii "transfer-encoding"
def UPGRADE : List UInt8 := ascii "upgrade"
def CHUNKED : List UInt8 := ascii "chunked"
def KEEP_ALIVE : List UInt8 := ascii "keep-alive"
def CLOSE : List UInt8 := ascii "close"

/-- One character of a word that is matched: what the header state becomes when the word goes
on otherwise, is matched, or has more characters. -/
def matchWord (c : Core) (lowered : UInt8) (word : List UInt8) (other done more : HeaderState) :
    Core :=
  let index := (c.index + 1) % 256
  let c := { c with index := index }
  if word.length < index ∨ lowered ≠ (word ++ [0]).getD index 0 then { c with headerState := other }
  else if index + 1 = word.length then { c with headerState := done }
  else { c with headerState := more }

/-- The header state behind the first character of a name. -/
def firstHeaderState (c : UInt8) : HeaderState :=
  if c = 99 then .C
  else if c = 112 then .matchingProxyConnection
  else if c = 116 then .matchingTransferEncoding
  else if c = 117 then .matchingUpgrade
  else .general

/-- `case s_header_field_start`. -/
def headerFieldStart (c : Core) (ch : UInt8) : Action :=
  if ch = CR then advance { c with state := .headersAlmostDone }
  else if ch = LF then reexecute { c with state := .headersAlmostDone }
  else if token ch = 0 then fail c .INVALID_HEADER_TOKEN
  else
    ⟨{ c with index := 0, state := .headerField, headerState := firstHeaderState (token ch) },
      some .headerField, false, none, .advance⟩

/-- A token character in the loop of `case s_header_field`; `none` where the assertion fails. -/
def fieldChar (c : Core) (ch : UInt8) : Option Core :=
  let next := { c with index := (c.index + 1) % 256 }
  match c.headerState with
  | .general => some c
  | .C => some { next with headerState := if token ch = 111 then .CO else .general }
  | .CO => some { next with headerState := if token ch = 110 then .CON else .general }
  | .CON =>
    some { next with
      headerState :=
        if token ch = 110 then .matchingConnection
        else if token ch = 116 then .matchingContentLength
        else .general }
  | .matchingConnection =>
    some (matchWord c (token ch) CONNECTION .general .connection .matchingConnection)
  | .matchingProxyConnection =>
    some (matchWord c (token ch) PROXY_CONNECTION .general .connection .matchingProxyConnection)
  | .matchingContentLength =>
    some (matchWord c (token ch) CONTENT_LENGTH .general .contentLength .matchingContentLength)
  | .matchingTransferEncoding =>
    some (matchWord c (token ch) TRANSFER_ENCODING .general .transferEncoding
      .matchingTransferEncoding)
  | .matchingUpgrade => some (matchWord c (token ch) UPGRADE .general .upgrade .matchingUpgrade)
  | .connection | .contentLength | .transferEncoding | .upgrade =>
    some (if ch ≠ 32 then { c with headerState := .general } else c)
  | _ => none

/-- `case s_header_value_start`, which `case s_header_value_discard_ws` falls into. -/
def headerValueStart (c : Core) (ch : UInt8) : Action :=
  let c := { c with state := .headerValue, index := 0 }
  match c.headerState with
  | .upgrade =>
    ⟨{ c with flags := { c.flags with upgrade := true }, headerState := .general },
      some .headerValue, false, none, .advance⟩
  | .transferEncoding =>
    ⟨{ c with
        headerState := if lower ch = 99 then .matchingTransferEncodingChunked else .general },
      some .headerValue, false, none, .advance⟩
  | .contentLength =>
    if ¬ isNum ch then { fail c .INVALID_CONTENT_LENGTH with mark := some .headerValue }
    else ⟨{ c with contentLength := digit ch }, some .headerValue, false, none, .advance⟩
  | .connection =>
    ⟨{ c with
        headerState :=
          if lower ch = 107 then .matchingConnectionKeepAlive
          else if lower ch = 99 then .matchingConnectionClose
          else if lower ch = 117 then .matchingConnectionUpgrade
          else .matchingConnectionToken },
      some .headerValue, false, none, .advance⟩
  | .matchingConnectionTokenStart => ⟨c, some .headerValue, false, none, .advance⟩
  | _ => ⟨{ c with headerState := .general }, some .headerValue, false, none, .advance⟩

/-- `case s_header_value_discard_ws`. -/
def headerValueDiscardWs (c : Core) (ch : UInt8) : Action :=
  if ch = 32 ∨ ch = 9 then advance c
  else if ch = CR then advance { c with state := .headerValueDiscardWsAlmostDone }
  else if ch = LF then advance { c with state := .headerValueDiscardLws }
  else headerValueStart c ch

/-- What a byte of a value can lead to. -/
inductive ValueStep
  | ok (c : Core)
  | error (e : HttpErrno)
  | abort

/-- The flag of a connection token that is complete. -/
def connectionFlag (s : HeaderState) (f : Flags) : Flags :=
  match s with
  | .connectionKeepAlive => { f with connectionKeepAlive := true }
  | .connectionClose => { f with connectionClose := true }
  | .connectionUpgrade => { f with connectionUpgrade := true }
  | _ => f

/-- A byte in the loop of `case s_header_value` that is no line end, but for `h_general`, which
skips up to the line end. `h_state` is the header state here. -/
def valueChar (c : Core) (ch : UInt8) : ValueStep :=
  match c.headerState with
  | .connection | .transferEncoding => .abort
  | .contentLength =>
    if ch = 32 then .ok c
    else if ¬ isNum ch then .error .INVALID_CONTENT_LENGTH
    else if (ULLONG_MAX - 10) / 10 < c.contentLength then .error .INVALID_CONTENT_LENGTH
    else .ok { c with contentLength := (c.contentLength * 10 + digit ch) % 2 ^ 64 }
  | .matchingTransferEncodingChunked =>
    .ok (matchWord c (lower ch) CHUNKED .general .transferEncodingChunked
      .matchingTransferEncodingChunked)
  | .matchingConnectionTokenStart =>
    .ok { c with
      headerState :=
        if lower ch = 107 then .matchingConnectionKeepAlive
        else if lower ch = 99 then .matchingConnectionClose
        else if lower ch = 117 then .matchingConnectionUpgrade
        else if token (lower ch) ≠ 0 then .matchingConnectionToken
        else if lower ch = 32 ∨ lower ch = 9 then .matchingConnectionTokenStart
        else .general }
  | .matchingConnectionKeepAlive =>
    .ok (matchWord c (lower ch) KEEP_ALIVE .matchingConnectionToken .connectionKeepAlive
      .matchingConnectionKeepAlive)
  | .matchingConnectionClose =>
    .ok (matchWord c (lower ch) CLOSE .matchingConnectionToken .connectionClose
      .matchingConnectionClose)
  | .matchingConnectionUpgrade =>
    .ok (matchWord c (lower ch) UPGRADE .matchingConnectionToken .connectionUpgrade
      .matchingConnectionUpgrade)
  | .matchingConnectionToken =>
    if ch = 44 then .ok { c with headerState := .matchingConnectionTokenStart, index := 0 }
    else .ok c
  | .transferEncodingChunked => .ok (if ch ≠ 32 then { c with headerState := .general } else c)
  | .connectionKeepAlive | .connectionClose | .connectionUpgrade =>
    if ch = 44 then
      .ok { c with
        flags := connectionFlag c.headerState c.flags
        headerState := .matchingConnectionTokenStart
        index := 0 }
    else if ch ≠ 32 then .ok { c with headerState := .matchingConnectionToken }
    else .ok c
  | .general => .ok c
  | _ => .ok { c with state := .headerValue, headerState := .general }

/-- What a finished header leaves in the flags. -/
def headerDone (c : Core) : Core :=
  match c.headerState with
  | .transferEncodingChunked => { c with flags := { c.flags with chunked := true } }
  | s => { c with flags := connectionFlag s c.flags }

/-- `case s_header_value_lws`. -/
def headerValueLws (c : Core) (ch : UInt8) : Action :=
  if ch = 32 ∨ ch = 9 then reexecute { c with state := .headerValueStart }
  else reexecute { headerDone c with state := .headerFieldStart }

/-- `case s_header_value_discard_lws`. -/
def headerValueDiscardLws (c : Core) (ch : UInt8) : Action :=
  if ch = 32 ∨ ch = 9 then advance { c with state := .headerValueDiscardWs }
  else
    ⟨{ headerDone c with state := .headerFieldStart }, some .headerValue, false,
      some (.dataNoadvance .headerValue), .reexecute⟩

/-- `case s_headers_almost_done`. -/
def headersAlmostDone (c : Core) (ch : UInt8) : Action :=
  strict (ch != LF) c
    (if c.flags.trailing then
      ⟨{ c with state := .messageDone }, none, false, some (.notifyNoadvance .chunkComplete),
        .reexecute⟩
    else
      ⟨{ c with
          state := .headersDone
          upgrade := (c.flags.upgrade && c.flags.connectionUpgrade) || c.method = .CONNECT },
        none, false, some (.notifyNoadvance .headersComplete), .reexecute⟩)

/-- The end of a message: `UPDATE_STATE(NEW_MESSAGE()); CALLBACK_NOTIFY(message_complete);` -/
def complete (c : Core) (resetNread : Bool) (next : Next) : Action :=
  ⟨{ c with state := c.newMessage }, none, resetNread, some (.notify .messageComplete), next⟩

/-- `case s_headers_done`. -/
def headersDone (c : Core) (ch : UInt8) : Action :=
  strict (ch != LF) c
    (let hasBody := c.flags.chunked || (0 < c.contentLength && c.contentLength != ULLONG_MAX)
    if c.upgrade && (c.method = .CONNECT || c.flags.skipbody || !hasBody) then complete c true .exit
    else if c.flags.skipbody then complete c true .advance
    else if c.flags.chunked then ⟨{ c with state := .chunkSizeStart }, none, true, none, .advance⟩
    else if c.contentLength = 0 then complete c true .advance
    else if c.contentLength ≠ ULLONG_MAX then
      ⟨{ c with state := .bodyIdentity }, none, true, none, .advance⟩
    else if ¬ c.messageNeedsEof then complete c true .advance
    else ⟨{ c with state := .bodyIdentityEof }, none, true, none, .advance⟩)

/-! ## The body -/

/-- `case s_message_done`. -/
def messageDone (c : Core) : Action := complete c false (if c.upgrade then .exit else .advance)

/-- `case s_chunk_size_start`. -/
def chunkSizeStart (c : Core) (nread : ℕ) (ch : UInt8) : Action :=
  assert (nread = 1 && c.flags.chunked) c
    (if unhex ch = -1 then fail c .INVALID_CHUNK_SIZE
    else advance { c with contentLength := (unhex ch).toNat, state := .chunkSize })

/-- `case s_chunk_size`. -/
def chunkSize (c : Core) (ch : UInt8) : Action :=
  assert c.flags.chunked c
    (if ch = CR then advance { c with state := .chunkSizeAlmostDone }
    else if unhex ch = -1 then
      if ch = 59 ∨ ch = 32 then advance { c with state := .chunkParameters }
      else fail c .INVALID_CHUNK_SIZE
    else if (ULLONG_MAX - 16) / 16 < c.contentLength then fail c .INVALID_CONTENT_LENGTH
    else advance { c with contentLength := (c.contentLength * 16 + (unhex ch).toNat) % 2 ^ 64 })

/-- `case s_chunk_parameters`. -/
def chunkParameters (c : Core) (ch : UInt8) : Action :=
  assert c.flags.chunked c
    (if ch = CR then advance { c with state := .chunkSizeAlmostDone } else advance c)

/-- `case s_chunk_size_almost_done`. -/
def chunkSizeAlmostDone (c : Core) (ch : UInt8) : Action :=
  assert c.flags.chunked c
    (strict (ch != LF) c
      (let c :=
        if c.contentLength = 0 then
          { c with flags := { c.flags with trailing := true }, state := .headerFieldStart }
        else { c with state := .chunkData }
      ⟨c, none, true, some (.notify .chunkHeader), .advance⟩))

/-- `case s_chunk_data_almost_done`. -/
def chunkDataAlmostDone (c : Core) (ch : UInt8) : Action :=
  assert (c.flags.chunked && c.contentLength = 0) c
    (strict (ch != CR) c
      ⟨{ c with state := .chunkDataDone }, none, false, some (.data .body), .advance⟩)

/-- `case s_chunk_data_done`. -/
def chunkDataDone (c : Core) (ch : UInt8) : Action :=
  assert c.flags.chunked c
    (strict (ch != LF) c
      ⟨{ c with state := .chunkSizeStart }, none, true, some (.notify .chunkComplete), .advance⟩)

/-! ## The `switch` -/

/-- The cases that look at one byte, and the `default`. -/
def dispatch (c : Core) (nread : ℕ) (ch : UInt8) : Action :=
  match c.state with
  | .dead => if ch = CR ∨ ch = LF then advance c else fail c .CLOSED_CONNECTION
  | .startReqOrRes => startReqOrRes c ch
  | .resOrRespH => resOrRespH c ch
  | .startRes => startRes c ch
  | .resH => expect c ch 84 .resHT
  | .resHT => expect c ch 84 .resHTT
  | .resHTT => expect c ch 80 .resHTTP
  | .resHTTP => expect c ch 47 .resFirstHttpMajor
  | .resFirstHttpMajor => resFirstHttpMajor c ch
  | .resHttpMajor => httpMajor c ch .resFirstHttpMinor
  | .resFirstHttpMinor => firstHttpMinor c ch .resHttpMinor
  | .resHttpMinor => resHttpMinor c ch
  | .resFirstStatusCode => resFirstStatusCode c ch
  | .resStatusCode => resStatusCode c ch
  | .resStatusStart => resStatusStart c ch
  | .resStatus => resStatus c ch
  | .resLineAlmostDone => expect c ch LF .headerFieldStart
  | .startReq => startReq c ch
  | .reqMethod => reqMethod c ch
  | .reqSpacesBeforeUrl => reqSpacesBeforeUrl c ch
  | .reqSchema | .reqSchemaSlash | .reqSchemaSlashSlash | .reqServerStart => urlStart c ch
  | .reqServer | .reqServerWithAt | .reqPath | .reqQueryStringStart | .reqQueryString
  | .reqFragmentStart | .reqFragment => urlRest c ch
  | .reqHttpStart => reqHttpStart c ch
  | .reqHttpH => expect c ch 84 .reqHttpHT
  | .reqHttpHT => expect c ch 84 .reqHttpHTT
  | .reqHttpHTT => expect c ch 80 .reqHttpHTTP
  | .reqHttpHTTP => expect c ch 47 .reqFirstHttpMajor
  | .reqFirstHttpMajor => reqFirstHttpMajor c ch
  | .reqHttpMajor => httpMajor c ch .reqFirstHttpMinor
  | .reqFirstHttpMinor => firstHttpMinor c ch .reqHttpMinor
  | .reqHttpMinor => reqHttpMinor c ch
  | .reqLineAlmostDone =>
    if ch ≠ LF then fail c .LF_EXPECTED else advance { c with state := .headerFieldStart }
  | .headerFieldStart => headerFieldStart c ch
  | .headerValueDiscardWs => headerValueDiscardWs c ch
  | .headerValueStart => headerValueStart c ch
  | .headerAlmostDone => expect c ch LF .headerValueLws
  | .headerValueLws => headerValueLws c ch
  | .headerValueDiscardWsAlmostDone => expect c ch LF .headerValueDiscardLws
  | .headerValueDiscardLws => headerValueDiscardLws c ch
  | .headersAlmostDone => headersAlmostDone c ch
  | .headersDone => headersDone c ch
  | .messageDone => messageDone c
  | .chunkSizeStart => chunkSizeStart c nread ch
  | .chunkSize => chunkSize c ch
  | .chunkParameters => chunkParameters c ch
  | .chunkSizeAlmostDone => chunkSizeAlmostDone c ch
  | .chunkDataAlmostDone => chunkDataAlmostDone c ch
  | .chunkDataDone => chunkDataDone c ch
  -- the loops, which `Execute` takes before it comes here
  | .headerField | .headerValue | .bodyIdentity | .bodyIdentityEof | .chunkData => abort c

end Netxy.Vendored
