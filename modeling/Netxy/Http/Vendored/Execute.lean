import Netxy.Http.Vendored.Dispatch

/-!
# `http_parser_execute`

The loop over a buffer, with the marks as offsets into it. Callbacks return what `settings`
says, which may depend on the callbacks made before.
-/

namespace Netxy.Vendored

/-! ## The machine -/

/-- The local variables, the parser object and the callbacks made so far. -/
structure Machine where
  core : Core
  nread : ℕ
  marks : Mark → Option ℕ
  p : ℕ
  log : List Callback

/-- What the callbacks return, after the ones made before. -/
abbrev Settings := List Callback → Callback → ℤ

/-- Where a case leaves the machine. -/
inductive Step
  | next (m : Machine)
  | again (m : Machine)
  | ret (m : Machine) (n : ℕ)
  | abort

namespace Machine

/-- `MARK(FOR)`. -/
def mark (m : Machine) : Option Mark → Machine
  | none => m
  | some k => if (m.marks k).isNone then { m with marks := Function.update m.marks k (some m.p) }
    else m

/-- `SET_ERRNO(e); goto error;` -/
def error (m : Machine) (e : HttpErrno) : Step :=
  .ret { m with core := { m.core with httpErrno := e } } m.p

/-- `COUNT_HEADER_SIZE(n)`, then `k`. -/
def count (m : Machine) (n : ℕ) (k : Machine → Step) : Step :=
  let m := { m with nread := (m.nread + n) % 2 ^ 32 }
  if HTTP_MAX_HEADER_SIZE < m.nread then m.error .HEADER_OVERFLOW else k m

/-- `assert(HTTP_PARSER_ERRNO(parser) == HPE_OK)`, in front of the rest. -/
def assertOk (m : Machine) (rest : Step) : Step :=
  if m.core.httpErrno = .OK then rest else .abort

/-- One callback is called, and its answer looked at: the count the parser returns if it fails is
`er`. One that is refused is made all the same. -/
def answer (settings : Settings) (m : Machine) (cb : Callback) (er : ℕ) (k : Machine → Step) :
    Step :=
  let r := settings m.log cb
  let m := { m with log := m.log ++ [cb] }
  if r = 0 then k m
  else if r = 1 ∧ cb = .note .headersComplete then
    k { m with core := { m.core with flags := { m.core.flags with skipbody := true } } }
  else .ret { m with core := { m.core with httpErrno := cb.errno } } er

/-- `CALLBACK_NOTIFY_(FOR, er)`. The macro is not used for `on_headers_complete`, which is called
without the assertion. -/
def notify (settings : Settings) (m : Machine) (n : Notify) (er : ℕ) (k : Machine → Step) : Step :=
  if n = .headersComplete then m.answer settings (.note n) er k
  else m.assertOk (m.answer settings (.note n) er k)

/-- `CALLBACK_DATA_(FOR, end - FOR##_mark, er)`: no call where there is no mark. -/
def dataCallback (settings : Settings) (data : List UInt8) (m : Machine) (k : Mark) (stop er : ℕ)
    (next : Machine → Step) : Step :=
  m.assertOk <|
    match m.marks k with
    | none => next m
    | some from_ =>
      m.answer settings (.data k ((data.drop from_).take (stop - from_))) er fun m =>
        next { m with marks := Function.update m.marks k none }

/-- The callback of a case. -/
def call (settings : Settings) (data : List UInt8) (m : Machine) (c : Option Call)
    (next : Machine → Step) : Step :=
  match c with
  | none => next m
  | some (.data k) => m.dataCallback settings data k m.p (m.p + 1) next
  | some (.dataNoadvance k) => m.dataCallback settings data k m.p m.p next
  | some (.dataThrough k) => m.dataCallback settings data k (m.p + 1) m.p next
  | some (.notify n) => m.notify settings n (m.p + 1) next
  | some (.notifyNoadvance n) => m.notify settings n m.p next

/-- An action of `dispatch`. -/
def perform (settings : Settings) (data : List UInt8) (m : Machine) (a : Action) : Step :=
  let m := { m with core := a.core, nread := if a.resetNread then 0 else m.nread }
  (m.mark a.mark).call settings data a.call fun m =>
    match a.next with
    | .advance => .next m
    | .reexecute => .again m
    | .error => .ret m m.p
    | .exit => .ret m (m.p + 1)
    | .abort => .abort

/-! ## The loops -/

/-- The loop of `case s_header_field`: the parser and the number of token characters. -/
def fieldLoop : Core → List UInt8 → Option (Core × ℕ)
  | c, [] => some (c, 0)
  | c, ch :: rest =>
    if token ch = 0 then some (c, 0)
    else do
      let c ← fieldChar c ch
      let (c, k) ← fieldLoop c rest
      return (c, k + 1)

/-- `case s_header_field`. -/
def headerField (settings : Settings) (data : List UInt8) (m : Machine) : Step :=
  match fieldLoop m.core (data.drop m.p) with
  | none => .abort
  | some (c, k) =>
    let start := m.p
    ({ m with core := c, p := start + k } : Machine).count k fun m =>
      match data[m.p]? with
      | none => .next { m with p := m.p - 1 }
      | some ch =>
        if ch = 58 then
          ({ m with core := { m.core with state := .headerValueDiscardWs } } : Machine).call
            settings data (some (.data .headerField)) .next
        else m.error .INVALID_HEADER_TOKEN

/-- Where `memchr` finds a character in the first `limit` bytes. -/
def memchr (bytes : List UInt8) (ch : UInt8) (limit : ℕ) : Option ℕ := (bytes.take limit).idxOf? ch

/-- How far `case h_general` of the value loop moves `p`, together with the step of the loop. -/
def skipGeneral (bytes : List UInt8) : ℕ :=
  let limit := min bytes.length HTTP_MAX_HEADER_SIZE
  match memchr bytes CR limit, memchr bytes LF limit with
  | some cr, some lf => if lf ≤ cr then lf else cr
  | some cr, none => cr
  | none, some lf => lf
  | none, none => bytes.length

/-- How the loop of `case s_header_value` ends, with the number of bytes passed. -/
inductive ValueEnd
  | cr (c : Core) (k : ℕ)
  | lf (c : Core) (k : ℕ)
  | stop (c : Core) (k : ℕ)
  | error (c : Core) (k : ℕ) (e : HttpErrno)
  | abort

/-- The same end, some bytes later. -/
def ValueEnd.shift (n : ℕ) : ValueEnd → ValueEnd
  | .cr c k => .cr c (k + n)
  | .lf c k => .lf c (k + n)
  | .stop c k => .stop c (k + n)
  | .error c k e => .error c (k + n) e
  | .abort => .abort

/-- The loop of `case s_header_value`; every turn moves on. -/
def valueLoop : ℕ → Core → List UInt8 → ValueEnd
  | 0, _, _ => .abort
  | _ + 1, c, [] => .stop c 0
  | fuel + 1, c, ch :: rest =>
    if ch = CR then .cr c 0
    else if ch = LF then .lf c 0
    else if c.headerState = .general then
      let k := skipGeneral (ch :: rest)
      (valueLoop fuel c ((ch :: rest).drop k)).shift k
    else
      match valueChar c ch with
      | .ok c => (valueLoop fuel c rest).shift 1
      | .error e => .error c 0 e
      | .abort => .abort

/-- `case s_header_value`. -/
def headerValue (settings : Settings) (data : List UInt8) (m : Machine) : Step :=
  let rest := data.drop m.p
  let start := m.p
  match valueLoop (rest.length + 1) m.core rest with
  | .abort => .abort
  | .error c k e =>
    ({ m with core := c, p := start + k } : Machine).error e
  | .cr c k =>
    ({ m with core := { c with state := .headerAlmostDone }, p := start + k } : Machine).call
      settings data (some (.data .headerValue)) fun m => m.count k .next
  | .lf c k =>
    ({ m with core := { c with state := .headerAlmostDone }, p := start + k } : Machine).count k
      fun m => m.call settings data (some (.dataNoadvance .headerValue)) .again
  | .stop c k =>
    ({ m with core := c, p := start + k } : Machine).count k fun m => .next { m with p := m.p - 1 }

/-- `case s_body_identity`. -/
def bodyIdentity (settings : Settings) (data : List UInt8) (m : Machine) : Step :=
  let toRead := min m.core.contentLength (data.length - m.p)
  if m.core.contentLength = 0 ∨ m.core.contentLength = ULLONG_MAX then .abort
  else
    let m := m.mark (some .body)
    let m := { m with
      core := { m.core with contentLength := m.core.contentLength - toRead }
      p := m.p + toRead - 1 }
    if m.core.contentLength = 0 then
      ({ m with core := { m.core with state := .messageDone } } : Machine).call settings data
        (some (.dataThrough .body)) .again
    else .next m

/-- `case s_chunk_data`. -/
def chunkData (data : List UInt8) (m : Machine) : Step :=
  let toRead := min m.core.contentLength (data.length - m.p)
  if ¬ m.core.flags.chunked ∨ m.core.contentLength = 0 ∨ m.core.contentLength = ULLONG_MAX then
    .abort
  else
    let m := m.mark (some .body)
    let m := { m with
      core := { m.core with contentLength := m.core.contentLength - toRead }
      p := m.p + toRead - 1 }
    if m.core.contentLength = 0 then
      .next { m with core := { m.core with state := .chunkDataAlmostDone } }
    else .next m

/-- The `switch`, at the byte `ch`. -/
def switch (settings : Settings) (data : List UInt8) (m : Machine) (ch : UInt8) : Step :=
  match m.core.state with
  | .headerField => headerField settings data m
  | .headerValue => headerValue settings data m
  | .bodyIdentity => bodyIdentity settings data m
  | .bodyIdentityEof => .next { m.mark (some .body) with p := data.length - 1 }
  | .chunkData => chunkData data m
  | _ => m.perform settings data (dispatch m.core m.nread ch)

/-! ## The loop over the buffer -/

/-- The marks in the order in which the callbacks behind the loop are made. -/
def markOrder : List Mark := [.headerField, .headerValue, .url, .body, .status]

/-- The callbacks for marks that are left. -/
def flush (settings : Settings) (data : List UInt8) : List Mark → Machine → Step
  | [], m => .ret m data.length
  | k :: ks, m => m.dataCallback settings data k m.p m.p (flush settings data ks)

/-- What follows the loop: at most one mark is set. -/
def finish (settings : Settings) (data : List UInt8) (m : Machine) : Step :=
  if 1 < (markOrder.filter fun k => (m.marks k).isSome).length then .abort
  else flush settings data markOrder m

/-- One turn: at a new byte when `fresh`, else after `REEXECUTE()`. -/
def turn (settings : Settings) (data : List UInt8) (fresh : Bool) (m : Machine) : Step :=
  match data[m.p]? with
  | none => finish settings data m
  | some ch =>
    if fresh ∧ m.core.state.parsingHeader then m.count 1 fun m => switch settings data m ch
    else switch settings data m ch

/-- The turns up to a `return`; `none` in an assertion that fails and without fuel. -/
def run (settings : Settings) (data : List UInt8) : ℕ → Bool → Machine → Option (Machine × ℕ)
  | 0, _, _ => none
  | fuel + 1, fresh, m =>
    match turn settings data fresh m with
    | .next m => run settings data fuel true { m with p := m.p + 1 }
    | .again m => run settings data fuel false m
    | .ret m n => some (m, n)
    | .abort => none

/-- The mark a state starts a buffer with. -/
def startMark : State → Option Mark
  | .headerField => some .headerField
  | .headerValue => some .headerValue
  | .reqPath | .reqSchema | .reqSchemaSlash | .reqSchemaSlashSlash | .reqServerStart | .reqServer
  | .reqServerWithAt | .reqQueryStringStart | .reqQueryString | .reqFragmentStart | .reqFragment =>
    some .url
  | .resStatus => some .status
  | _ => none

/-- The machine at the start of a buffer. -/
def start (c : Core) (nread : ℕ) (log : List Callback) : Machine where
  core := c
  nread := nread
  marks := fun k => if startMark c.state = some k then some 0 else none
  p := 0
  log := log

end Machine

/-- The parser object with its callbacks so far. -/
structure HttpParser where
  core : Core
  nread : ℕ
  log : List Callback

/-- `http_parser_init`. -/
def HttpParser.init (t : HttpParserType) : HttpParser := ⟨Core.init t, 0, []⟩

/-- `http_parser_execute`: the parser and the number of bytes it returns; `none` in an assertion
that fails. A byte takes four turns at most. -/
def HttpParser.execute (settings : Settings) (parser : HttpParser) (data : List UInt8) :
    Option (HttpParser × ℕ) :=
  if parser.core.httpErrno ≠ .OK then some (parser, 0)
  else if data = [] then
    match parser.core.state with
    | .bodyIdentityEof =>
      let r := settings parser.log (.note .messageComplete)
      let parser := { parser with log := parser.log ++ [.note .messageComplete] }
      if r = 0 then some (parser, 0)
      else some ({ parser with core := { parser.core with httpErrno := .CB_message_complete } }, 0)
    | .dead | .startReqOrRes | .startRes | .startReq => some (parser, 0)
    | _ => some ({ parser with core := { parser.core with httpErrno := .INVALID_EOF_STATE } }, 1)
  else do
    let (m, n) ← Machine.run settings data (8 * data.length + 8) true
      (Machine.start parser.core parser.nread parser.log)
    return (⟨m.core, m.nread, m.log⟩, n)

end Netxy.Vendored
