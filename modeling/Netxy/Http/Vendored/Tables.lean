import Netxy.Lib.CString

/-!
# `http_parser`: tables, states and the parser object

The vendored parser of `http_parser.c`, as it is compiled by default: `HTTP_PARSER_STRICT` is
set and `HTTP_MAX_HEADER_SIZE` is 80 KiB. Characters are bytes; where the source compares a
signed `char` with a range of ASCII characters, a byte from 128 on is outside of it either way.
-/

namespace Netxy.Vendored
open CString

/-! ## Characters -/

def CR : UInt8 := 13
def LF : UInt8 := 10

/-- `tokens`: a token character in lower case, zero for the others. -/
def tokens : List UInt8 := [
  0, 0, 0, 0, 0, 0, 0, 0,
  0, 0, 0, 0, 0, 0, 0, 0,
  0, 0, 0, 0, 0, 0, 0, 0,
  0, 0, 0, 0, 0, 0, 0, 0,
  0, 33, 0, 35, 36, 37, 38, 39,
  0, 0, 42, 43, 0, 45, 46, 0,
  48, 49, 50, 51, 52, 53, 54, 55,
  56, 57, 0, 0, 0, 0, 0, 0,
  0, 97, 98, 99, 100, 101, 102, 103,
  104, 105, 106, 107, 108, 109, 110, 111,
  112, 113, 114, 115, 116, 117, 118, 119,
  120, 121, 122, 0, 0, 0, 94, 95,
  96, 97, 98, 99, 100, 101, 102, 103,
  104, 105, 106, 107, 108, 109, 110, 111,
  112, 113, 114, 115, 116, 117, 118, 119,
  120, 121, 122, 0, 124, 0, 126, 0]

/-- `TOKEN` and `STRICT_TOKEN`. -/
def token (c : UInt8) : UInt8 := tokens.getD c.toNat 0

/-- `unhex`: the array has 256 entries and 128 initialisers, so the other half is zero. -/
def unhexTable : List ℤ := [
  -1, -1, -1, -1, -1, -1, -1, -1, -1, -1, -1, -1, -1, -1, -1, -1,
  -1, -1, -1, -1, -1, -1, -1, -1, -1, -1, -1, -1, -1, -1, -1, -1,
  -1, -1, -1, -1, -1, -1, -1, -1, -1, -1, -1, -1, -1, -1, -1, -1,
  0, 1, 2, 3, 4, 5, 6, 7, 8, 9, -1, -1, -1, -1, -1, -1,
  -1, 10, 11, 12, 13, 14, 15, -1, -1, -1, -1, -1, -1, -1, -1, -1,
  -1, -1, -1, -1, -1, -1, -1, -1, -1, -1, -1, -1, -1, -1, -1, -1,
  -1, 10, 11, 12, 13, 14, 15, -1, -1, -1, -1, -1, -1, -1, -1, -1,
  -1, -1, -1, -1, -1, -1, -1, -1, -1, -1, -1, -1, -1, -1, -1, -1]

/-- `unhex[c]`. -/
def unhex (c : UInt8) : ℤ := unhexTable.getD c.toNat 0

/-- `normal_url_char`, a bit for each character. -/
def normalUrlChar : List ℕ :=
  [0, 0, 0, 0, 246, 255, 255, 127, 255, 255, 255, 255, 255, 255, 255, 127]

/-- `IS_URL_CHAR`. -/
def isUrlChar (c : UInt8) : Bool := (normalUrlChar.getD (c.toNat / 8) 0).testBit (c.toNat % 8)

/-- `LOWER`. -/
def lower (c : UInt8) : UInt8 := c ||| 0x20

/-- `IS_ALPHA`, and the other character classes of the source. -/
def isAlpha (c : UInt8) : Bool := 97 ≤ lower c && lower c ≤ 122
def isNum (c : UInt8) : Bool := 48 ≤ c && c ≤ 57
def isAlphanum (c : UInt8) : Bool := isAlpha c || isNum c
def isHex (c : UInt8) : Bool := isNum c || (97 ≤ lower c && lower c ≤ 102)

/-- `IS_MARK`. -/
def isMark (c : UInt8) : Bool := c ∈ ascii "-_.!~*'()"

/-- `IS_USERINFO_CHAR`. -/
def isUserinfoChar (c : UInt8) : Bool := isAlphanum c || isMark c || c ∈ ascii "%;:&=+$,"

/-- `IS_HOST_CHAR`, which is strict. -/
def isHostChar (c : UInt8) : Bool := isAlphanum c || c ∈ ascii ".-"

/-! ## Methods -/

/-- `enum http_method`. -/
inductive HttpMethod
  | DELETE | GET | HEAD | POST | PUT
  | CONNECT | OPTIONS | TRACE
  | COPY | LOCK | MKCOL | MOVE | PROPFIND | PROPPATCH | SEARCH | UNLOCK | BIND | REBIND | UNBIND
  | ACL
  | REPORT | MKACTIVITY | CHECKOUT | MERGE
  | MSEARCH | NOTIFY | SUBSCRIBE | UNSUBSCRIBE
  | PATCH | PURGE
  | MKCALENDAR
deriving DecidableEq, Repr

/-- `method_strings`. -/
def methodString : HttpMethod → List UInt8
  | .DELETE => ascii "DELETE"
  | .GET => ascii "GET"
  | .HEAD => ascii "HEAD"
  | .POST => ascii "POST"
  | .PUT => ascii "PUT"
  | .CONNECT => ascii "CONNECT"
  | .OPTIONS => ascii "OPTIONS"
  | .TRACE => ascii "TRACE"
  | .COPY => ascii "COPY"
  | .LOCK => ascii "LOCK"
  | .MKCOL => ascii "MKCOL"
  | .MOVE => ascii "MOVE"
  | .PROPFIND => ascii "PROPFIND"
  | .PROPPATCH => ascii "PROPPATCH"
  | .SEARCH => ascii "SEARCH"
  | .UNLOCK => ascii "UNLOCK"
  | .BIND => ascii "BIND"
  | .REBIND => ascii "REBIND"
  | .UNBIND => ascii "UNBIND"
  | .ACL => ascii "ACL"
  | .REPORT => ascii "REPORT"
  | .MKACTIVITY => ascii "MKACTIVITY"
  | .CHECKOUT => ascii "CHECKOUT"
  | .MERGE => ascii "MERGE"
  | .MSEARCH => ascii "M-SEARCH"
  | .NOTIFY => ascii "NOTIFY"
  | .SUBSCRIBE => ascii "SUBSCRIBE"
  | .UNSUBSCRIBE => ascii "UNSUBSCRIBE"
  | .PATCH => ascii "PATCH"
  | .PURGE => ascii "PURGE"
  | .MKCALENDAR => ascii "MKCALENDAR"

/-! ## States -/

/-- `enum http_parser_type`. -/
inductive HttpParserType
  | request | response | both
deriving DecidableEq, Repr

/-- `enum state`. -/
inductive State
  | dead
  | startReqOrRes
  | resOrRespH
  | startRes
  | resH | resHT | resHTT | resHTTP
  | resFirstHttpMajor | resHttpMajor | resFirstHttpMinor | resHttpMinor
  | resFirstStatusCode | resStatusCode | resStatusStart | resStatus | resLineAlmostDone
  | startReq
  | reqMethod
  | reqSpacesBeforeUrl
  | reqSchema | reqSchemaSlash | reqSchemaSlashSlash
  | reqServerStart | reqServer | reqServerWithAt
  | reqPath
  | reqQueryStringStart | reqQueryString
  | reqFragmentStart | reqFragment
  | reqHttpStart | reqHttpH | reqHttpHT | reqHttpHTT | reqHttpHTTP
  | reqFirstHttpMajor | reqHttpMajor | reqFirstHttpMinor | reqHttpMinor
  | reqLineAlmostDone
  | headerFieldStart | headerField
  | headerValueDiscardWs | headerValueDiscardWsAlmostDone | headerValueDiscardLws
  | headerValueStart | headerValue | headerValueLws
  | headerAlmostDone
  | chunkSizeStart | chunkSize | chunkParameters | chunkSizeAlmostDone
  | headersAlmostDone | headersDone
  | chunkData | chunkDataAlmostDone | chunkDataDone
  | bodyIdentity | bodyIdentityEof
  | messageDone
deriving DecidableEq, Repr

/-- `PARSING_HEADER`: the states up to `s_headers_done`. -/
def State.parsingHeader : State → Bool
  | .chunkData | .chunkDataAlmostDone | .chunkDataDone | .bodyIdentity | .bodyIdentityEof
  | .messageDone => false
  | _ => true

/-- `enum header_states`. -/
inductive HeaderState
  | general
  | C | CO | CON
  | matchingConnection | matchingProxyConnection | matchingContentLength
  | matchingTransferEncoding | matchingUpgrade
  | connection | contentLength | transferEncoding | upgrade
  | matchingTransferEncodingChunked
  | matchingConnectionTokenStart | matchingConnectionKeepAlive | matchingConnectionClose
  | matchingConnectionUpgrade | matchingConnectionToken
  | transferEncodingChunked
  | connectionKeepAlive | connectionClose | connectionUpgrade
deriving DecidableEq, Repr

/-- `enum http_errno`. The callback errors name the callback. -/
inductive HttpErrno
  | OK
  | CB_message_begin | CB_url | CB_header_field | CB_header_value | CB_headers_complete
  | CB_body | CB_message_complete | CB_status | CB_chunk_header | CB_chunk_complete
  | INVALID_EOF_STATE | HEADER_OVERFLOW | CLOSED_CONNECTION
  | INVALID_VERSION | INVALID_STATUS | INVALID_METHOD | INVALID_URL
  | LF_EXPECTED | INVALID_HEADER_TOKEN | INVALID_CONTENT_LENGTH | INVALID_CHUNK_SIZE
  | INVALID_CONSTANT | INVALID_INTERNAL_STATE | STRICT
deriving DecidableEq, Repr

/-- The bits of `parser->flags`. -/
@[ext]
structure Flags where
  chunked : Bool
  connectionKeepAlive : Bool
  connectionClose : Bool
  connectionUpgrade : Bool
  trailing : Bool
  upgrade : Bool
  skipbody : Bool
deriving DecidableEq, Repr

/-- No flag is set. -/
def Flags.zero : Flags := ⟨false, false, false, false, false, false, false⟩

def ULLONG_MAX : ℕ := 2 ^ 64 - 1

def HTTP_MAX_HEADER_SIZE : ℕ := 80 * 1024

/-- The fields of `struct http_parser` but `nread`, which the limit on the header alone reads.
`p_state` is the same variable as `state` here: no callback looks at the object. -/
@[ext]
structure Core where
  type : HttpParserType
  flags : Flags
  state : State
  headerState : HeaderState
  index : ℕ
  contentLength : ℕ
  httpMajor : ℕ
  httpMinor : ℕ
  statusCode : ℕ
  method : HttpMethod
  httpErrno : HttpErrno
  upgrade : Bool
deriving DecidableEq, Repr

/-- `http_message_needs_eof`. -/
def Core.messageNeedsEof (c : Core) : Bool :=
  if c.type = .request then false
  else if c.statusCode / 100 = 1 ∨ c.statusCode = 204 ∨ c.statusCode = 304 ∨ c.flags.skipbody then
    false
  else if c.flags.chunked ∨ c.contentLength ≠ ULLONG_MAX then false
  else true

/-- `http_should_keep_alive`. -/
def Core.shouldKeepAlive (c : Core) : Bool :=
  if 0 < c.httpMajor ∧ 0 < c.httpMinor then
    if c.flags.connectionClose then false else !c.messageNeedsEof
  else if !c.flags.connectionKeepAlive then false
  else !c.messageNeedsEof

/-- `start_state`. -/
def Core.startState (c : Core) : State := if c.type = .request then .startReq else .startRes

/-- `NEW_MESSAGE()`. -/
def Core.newMessage (c : Core) : State := if c.shouldKeepAlive then c.startState else .dead

/-- `http_parser_init`. -/
def Core.init (t : HttpParserType) : Core where
  type := t
  flags := Flags.zero
  state := match t with
    | .request => .startReq
    | .response => .startRes
    | .both => .startReqOrRes
  headerState := .general
  index := 0
  contentLength := 0
  httpMajor := 0
  httpMinor := 0
  statusCode := 0
  method := .DELETE
  httpErrno := .OK
  upgrade := false

/-! ## The URL automaton -/

/-- The part of `parse_url_char` for the server. -/
def parseServerChar (ch : UInt8) : State :=
  if ch = 47 then .reqPath
  else if ch = 63 then .reqQueryStringStart
  else if ch = 64 then .reqServerWithAt
  else if isUserinfoChar ch || ch = 91 || ch = 93 then .reqServer
  else .dead

/-- `parse_url_char`. -/
def parseUrlChar (s : State) (ch : UInt8) : State :=
  if ch = 32 ∨ ch = CR ∨ ch = LF then .dead
  else if ch = 9 ∨ ch = 12 then .dead
  else
    match s with
    | .reqSpacesBeforeUrl =>
      if ch = 47 ∨ ch = 42 then .reqPath
      else if isAlpha ch then .reqSchema
      else .dead
    | .reqSchema =>
      if isAlpha ch then .reqSchema
      else if ch = 58 then .reqSchemaSlash
      else .dead
    | .reqSchemaSlash => if ch = 47 then .reqSchemaSlashSlash else .dead
    | .reqSchemaSlashSlash => if ch = 47 then .reqServerStart else .dead
    | .reqServerWithAt => if ch = 64 then .dead else parseServerChar ch
    | .reqServerStart | .reqServer => parseServerChar ch
    | .reqPath =>
      if isUrlChar ch then .reqPath
      else if ch = 63 then .reqQueryStringStart
      else if ch = 35 then .reqFragmentStart
      else .dead
    | .reqQueryStringStart | .reqQueryString =>
      if isUrlChar ch then .reqQueryString
      else if ch = 63 then .reqQueryString
      else if ch = 35 then .reqFragmentStart
      else .dead
    | .reqFragmentStart =>
      if isUrlChar ch then .reqFragment
      else if ch = 63 then .reqFragment
      else if ch = 35 then .reqFragmentStart
      else .dead
    | .reqFragment =>
      if isUrlChar ch then .reqFragment
      else if ch = 63 ∨ ch = 35 then .reqFragment
      else .dead
    | _ => .dead

end Netxy.Vendored
