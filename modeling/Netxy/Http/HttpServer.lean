import Netxy.Lib.Framing
import Netxy.WebSocket.RoundTrip
import Netxy.Http.HttpParser

/-!
# `HttpServer::handleHttp`

The data callback `handleHttp` installs on a session: the WebSocket branch with its frame
loop, the HTTP branch, and the delivery of bytes by `DataSocket::recv`. User callbacks are
recorded in the order they are invoked; `assert(false)` is counted and passed, as in a
build without assertions.

The WebSocket loop is an instance of `Framing.drain`, over an extractor that is `Stable`.
-/

namespace Netxy
open CString WebSocketFormat

/-! ## The session -/

/-- What the data callback does to the outside. -/
inductive HttpCall
  /-- `wsCallback(httpSession, opcode, payload)` -/
  | ws (opcode : WebSocketFrameType) (payload : List UInt8)
  /-- `httpCallback(*httpParser, httpSession)` -/
  | http (parser : HTTPParser)
  /-- `session->send(response)` with the handshake for this key -/
  | handshake (secKey : List UInt8)
  /-- `wsConnectedCallback(httpSession, *httpParser)` -/
  | wsConnected (parser : HTTPParser)
deriving DecidableEq, Repr

/-- The part of `HttpSession` and its parser the data callback works on: which callbacks
are set, and what has been called so far. -/
structure HttpSession where
  parser : HTTPParser
  hasWSCallback : Bool
  hasHttpCallback : Bool
  hasWSConnectedCallback : Bool
  calls : List HttpCall
  assertHits : ℕ
deriving DecidableEq, Repr

namespace HttpSession

/-- Invoke a callback, unless it is `nullptr`. -/
def call (s : HttpSession) (isSet : Bool) (c : HttpCall) : HttpSession :=
  if isSet then { s with calls := s.calls ++ [c] } else s

/-- `parseString`, the string a frame's payload is extracted into. -/
def setParseString (s : HttpSession) (payload : List UInt8) : HttpSession :=
  { s with parser := { s.parser with parsePayload := payload } }

def setCacheFrame (s : HttpSession) (bytes : List UInt8) : HttpSession :=
  { s with parser := { s.parser with wsCacheFrame := bytes } }

/-! ## The WebSocket branch -/

/-- The branches on one extracted frame, whose payload is in `parseString`. -/
def handleFrame (s : HttpSession) (opcode : WebSocketFrameType) (isFin : Bool) : HttpSession :=
  if isFin ∧ (opcode = .textFrame ∨ opcode = .binaryFrame) then
    let s :=
      if s.parser.wsCacheFrame ≠ [] then
        (s.setParseString (s.parser.wsCacheFrame ++ s.parser.parsePayload)).setCacheFrame []
      else s
    s.call s.hasWSCallback (.ws opcode s.parser.parsePayload)
  else if opcode = .continuationFrame then
    (s.setCacheFrame (s.parser.wsCacheFrame ++ s.parser.parsePayload)).setParseString []
  else if opcode = .pingFrame ∨ opcode = .pongFrame ∨ opcode = .closeFrame then
    s.call s.hasWSCallback (.ws opcode s.parser.parsePayload)
  else
    -- `assert(false)`
    { s with assertHits := s.assertHits + 1 }

/-- `while (leftLen > 0)`: `parseStr` are the `leftLen` bytes from `parse_str` on. Every
round consumes a byte, so `leftLen` is fuel enough. -/
def wsLoop : ℕ → HttpSession → List UInt8 → ℕ → ℕ × HttpSession
  | 0, s, _, retlen => (retlen, s)
  | fuel + 1, s, parseStr, retlen =>
    if parseStr.length = 0 then (retlen, s)
    else
      match wsFrameExtractBuffer parseStr ⟨[], .errorFrame, 0, false⟩ with
      | (true, out) =>
        wsLoop fuel ((s.setParseString out.payload).handleFrame out.outopcode out.outfin)
          (parseStr.drop out.frameSize) (retlen + out.frameSize)
      | (false, out) => (retlen, s.setParseString out.payload)

/-! ## The data callback -/

/-- The HTTP branch of the data callback. -/
def handleRequest (v : VendoredParser) (s : HttpSession) (buffer : List UInt8) :
    Except Fault (ℕ × HttpSession) := do
  let (retlen, parser) ← s.parser.tryParse v buffer
  let s := { s with parser := parser }
  if parser.isCompleted then
    if parser.isWebSocket then
      let s := s.call (parser.hasKey (ascii "Sec-WebSocket-Key"))
        (.handshake (parser.getValue (ascii "Sec-WebSocket-Key")))
      return (retlen, s.call s.hasWSConnectedCallback (.wsConnected parser))
    else
      let s := s.call s.hasHttpCallback (.http parser)
      if parser.isKeepAlive then return (retlen, { s with parser := parser.clearParse })
      else return (retlen, s)
  else return (retlen, s)

/-- The data callback of `handleHttp`: the number of bytes consumed and the session. -/
def handleHttp (v : VendoredParser) (s : HttpSession) (buffer : List UInt8) :
    Except Fault (ℕ × HttpSession) :=
  if s.parser.isWebSocket then .ok (wsLoop buffer.length s buffer 0)
  else handleRequest v s buffer

/-- One invocation of the data callback by `DataSocket::recv`: it presents the unconsumed
bytes followed by the new ones, and drops what the callback reports consumed. -/
def deliver (v : VendoredParser) (r : HttpSession × List UInt8) (chunk : List UInt8) :
    Except Fault (HttpSession × List UInt8) := do
  let (retlen, s) ← r.1.handleHttp v (r.2 ++ chunk)
  return (s, (r.2 ++ chunk).drop retlen)

/-- Any number of deliveries, in order. -/
def deliverAll (v : VendoredParser) (r : HttpSession × List UInt8) (chunks : List (List UInt8)) :
    Except Fault (HttpSession × List UInt8) :=
  chunks.foldlM (deliver v) r

end HttpSession

end Netxy
