import Netxy.Lib.Transition
import Netxy.Http.HttpServer

/-!
# Runs of the data callback on an HTTP session

What a sequence of data-callback invocations dispatches to the HTTP callback, and what of a
parser that was cleared shows through in the next request.
-/

namespace Netxy
open CString

namespace HttpSession

/-- One invocation of the data callback; `none` where `checkCompleted` ends without a
result. -/
def invoke (v : VendoredParser) (s : HttpSession) (buffer : List UInt8) : Option HttpSession :=
  (s.handleHttp v buffer).toOption.map Prod.snd

/-- How often the HTTP callback was invoked. -/
def httpCalls (s : HttpSession) : ℕ :=
  s.calls.countP fun
    | .http _ => true
    | _ => false

/-- The `tryParse` of this invocation completes a message. -/
def newlyCompletes (s : HttpSession) (buffer : List UInt8) : Bool :=
  !s.parser.isCompleted && decide (checkCompleted buffer = .ok true)

/-! ## One invocation -/

/-- The parser after `tryParse` has completed `buffer`. -/
def parsed (v : VendoredParser) (p : HTTPParser) (buffer : List UInt8) : HTTPParser :=
  let p := HTTPParser.httpParserExecute v { p with isCompleted := true } (v.execute buffer)
  { p with
    isWebSocket := p.getValue (ascii "Upgrade") = ascii "websocket"
    isKeepAlive := !(p.getValue (ascii "Keep-Alive")).isEmpty
    tmpHeadStr := [] }

/-- What the HTTP branch does with a completed parser. -/
def dispatch (s : HttpSession) (p : HTTPParser) : HttpSession :=
  let s := { s with parser := p }
  if p.isWebSocket then
    let s := s.call (p.hasKey (ascii "Sec-WebSocket-Key"))
      (.handshake (p.getValue (ascii "Sec-WebSocket-Key")))
    s.call s.hasWSConnectedCallback (.wsConnected p)
  else
    let s := s.call s.hasHttpCallback (.http p)
    if p.isKeepAlive then { s with parser := p.clearParse } else s

theorem httpParserExecute_isCompleted (v : VendoredParser) (p : HTTPParser)
    (es : List ParserEvent) :
    (HTTPParser.httpParserExecute v p es).isCompleted = p.isCompleted := by
  induction es generalizing p with
  | nil => rfl
  | cons e es ih =>
    rw [HTTPParser.httpParserExecute]
    rcases he : HTTPParser.handleEvent v p e with _ | p'
    · rfl
    · rw [ih]
      cases e with
      | onUrl url =>
        simp only [HTTPParser.handleEvent, HTTPParser.sUrlHandle, Option.bind_eq_bind,
          Option.bind_eq_some_iff] at he
        obtain ⟨u, -, path, -, he⟩ := he
        split at he <;> cases he <;> rfl
      | onStatus bytes | onHeaderField bytes | onHeaderValue bytes | onBody bytes =>
        cases he
        rfl

theorem parsed_isCompleted (v : VendoredParser) (p : HTTPParser) (buffer : List UInt8) :
    (parsed v p buffer).isCompleted = true :=
  httpParserExecute_isCompleted v _ _

theorem tryParse_eq (v : VendoredParser) (p : HTTPParser) (buffer : List UInt8) :
    p.tryParse v buffer =
      if p.isCompleted then .ok (0, p)
      else
        match checkCompleted buffer with
        | .error e => .error e
        | .ok true => .ok (buffer.length, parsed v p buffer)
        | .ok false => .ok (0, p) := by
  unfold HTTPParser.tryParse
  cases hp : p.isCompleted with
  | true => rfl
  | false =>
    rcases checkCompleted buffer with e | c
    · rfl
    · cases c <;> rfl

theorem handleRequest_of_tryParse {v : VendoredParser} {s : HttpSession} {buffer : List UInt8}
    {n : ℕ} {p : HTTPParser} (h : s.parser.tryParse v buffer = .ok (n, p)) :
    s.handleRequest v buffer =
      .ok (n, if p.isCompleted then s.dispatch p else { s with parser := p }) := by
  unfold handleRequest dispatch
  rw [h]
  simp only [bind, Except.bind]
  split
  · split
    · rfl
    · split <;> rfl
  · rfl

/-- The HTTP branch by what `tryParse` meets. -/
theorem handleRequest_eq (v : VendoredParser) (s : HttpSession) (buffer : List UInt8) :
    s.handleRequest v buffer =
      if s.parser.isCompleted then .ok (0, s.dispatch s.parser)
      else
        match checkCompleted buffer with
        | .error e => .error e
        | .ok true => .ok (buffer.length, s.dispatch (parsed v s.parser buffer))
        | .ok false => .ok (0, s) := by
  have htry := tryParse_eq v s.parser buffer
  cases hp : s.parser.isCompleted with
  | true =>
    rw [hp, if_pos rfl] at htry
    rw [handleRequest_of_tryParse htry, if_pos hp]
    rfl
  | false =>
    rw [hp, if_neg (by decide)] at htry
    rcases hc : checkCompleted buffer with e | c <;> rw [hc] at htry
    · unfold handleRequest
      rw [htry]
      rfl
    · cases c with
      | false =>
        rw [handleRequest_of_tryParse htry, if_neg (by simp [hp])]
        rfl
      | true =>
        rw [handleRequest_of_tryParse htry, if_pos (parsed_isCompleted v s.parser buffer)]
        rfl

/-! ## One dispatch for each request -/

@[simp] theorem parser_call (s : HttpSession) (isSet : Bool) (c : HttpCall) :
    (s.call isSet c).parser = s.parser := by
  unfold call
  split <;> rfl

@[simp] theorem call_hasHttpCallback (s : HttpSession) (isSet : Bool) (c : HttpCall) :
    (s.call isSet c).hasHttpCallback = s.hasHttpCallback := by
  unfold call
  split <;> rfl

/-- A parser that does not upgrade is dispatched to the HTTP callback. -/
theorem httpCalls_dispatch {s : HttpSession} (hcallback : s.hasHttpCallback = true)
    {p : HTTPParser} (hws : p.isWebSocket = false) :
    (s.dispatch p).httpCalls = s.httpCalls + 1 := by
  have hcalls : (s.dispatch p).calls = s.calls ++ [.http p] := by
    simp only [dispatch, hws, call, hcallback, if_true, Bool.false_eq_true, if_false]
    split <;> rfl
  rw [httpCalls, hcalls, List.countP_append]
  rfl

theorem isWebSocket_dispatch (s : HttpSession) (p : HTTPParser) :
    (s.dispatch p).parser.isWebSocket = p.isWebSocket := by
  simp only [dispatch]
  split
  · simp only [parser_call]
  · split
    · rfl
    · simp only [parser_call]

theorem hasHttpCallback_dispatch (s : HttpSession) (p : HTTPParser) :
    (s.dispatch p).hasHttpCallback = s.hasHttpCallback := by
  simp only [dispatch]
  split
  · simp only [call_hasHttpCallback]
  · split <;> simp only [call_hasHttpCallback]

/-- An invocation dispatches a request that it completes, and one that was completed before. -/
theorem httpCalls_invoke {v : VendoredParser} {s t : HttpSession} {buffer : List UInt8}
    (hcallback : s.hasHttpCallback = true) (hs : s.parser.isWebSocket = false)
    (h : s.invoke v buffer = some t) (ht : t.parser.isWebSocket = false) :
    t.httpCalls = s.httpCalls + (s.newlyCompletes buffer).toNat + s.parser.isCompleted.toNat ∧
      t.hasHttpCallback = true := by
  simp only [invoke, handleHttp, hs, Bool.false_eq_true, if_false, handleRequest_eq] at h
  unfold newlyCompletes
  cases hp : s.parser.isCompleted with
  | true =>
    rw [hp] at h
    cases h
    rw [isWebSocket_dispatch] at ht
    rw [httpCalls_dispatch hcallback ht, hasHttpCallback_dispatch]
    exact ⟨rfl, hcallback⟩
  | false =>
    rcases hc : checkCompleted buffer with e | c <;> rw [hp, hc] at h
    · cases h
    · cases c <;> cases h
      · exact ⟨rfl, hcallback⟩
      · rw [isWebSocket_dispatch] at ht
        rw [httpCalls_dispatch hcallback ht, hasHttpCallback_dispatch]
        exact ⟨rfl, hcallback⟩

/-- Over a run in HTTP mode, the dispatches are the requests completed, and one more for
each invocation that finds the parser still completed. -/
theorem httpCalls_run {v : VendoredParser} {s t : HttpSession} {buffers : List (List UInt8)}
    (hcallback : s.hasHttpCallback = true)
    (hhttp : Transition.Always (invoke v) (·.parser.isWebSocket = false) s buffers)
    (h : Transition.exec (invoke v) s buffers = some t) :
    t.httpCalls = s.httpCalls + Transition.count (invoke v) newlyCompletes s buffers +
      Transition.count (invoke v) (fun s _ => s.parser.isCompleted) s buffers := by
  -- each invocation adds the request it completes and the one it finds completed
  induction buffers generalizing s with
  | nil =>
    cases h
    rfl
  | cons b bs ih =>
    obtain ⟨u, hu, hrun⟩ := Transition.exec_cons.mp h
    have hnext := hhttp.2 u hu
    obtain ⟨hcalls, hset⟩ := httpCalls_invoke hcallback hhttp.head hu hnext.head
    rw [ih hset hnext hrun, hcalls, Transition.count_cons hu, Transition.count_cons hu]
    omega

/-- On a session in HTTP mode the HTTP callback is invoked once for each request completed,
exactly if no invocation of the data callback finds a request in the parser that was
completed before. -/
theorem httpCalls_eq_completed_iff (v : VendoredParser) (s t : HttpSession)
    (buffers : List (List UInt8)) (hcallback : s.hasHttpCallback = true)
    (hhttp : Transition.Always (invoke v) (·.parser.isWebSocket = false) s buffers)
    (h : Transition.exec (invoke v) s buffers = some t) :
    t.httpCalls = s.httpCalls + Transition.count (invoke v) newlyCompletes s buffers ↔
      Transition.Throughout (invoke v) (fun s _ => s.parser.isCompleted = false) s buffers := by
  rw [httpCalls_run hcallback hhttp h, ← Transition.count_eq_zero_iff]
  omega

/-- A new session with an HTTP callback. -/
def fresh : HttpSession :=
  { parser := HTTPParser.init, hasWSCallback := false, hasHttpCallback := true,
    hasWSConnectedCallback := false, calls := [], assertHits := 0 }

/-- What the vendored parser does with `getRequest`. -/
def getRequestParser : VendoredParser where
  execute b := if b = HTTPParser.getRequest then [.onUrl (ascii "/")] else []
  parseUrl u := if u = ascii "/" then some ⟨some (ascii "/"), none⟩ else none

/-- A keep-alive request with a body of one byte, and one without a body. -/
def postRequest : List UInt8 :=
  ascii "POST / HTTP/1.1\r\nKeep-Alive: 1\r\nContent-Length: 1\r\n\r\na"

def nextRequest : List UInt8 := ascii "GET / HTTP/1.1\r\nKeep-Alive: 1\r\n\r\n"

/-- What the vendored parser does with these two. -/
def keepAliveParser : VendoredParser where
  execute b :=
    if b = postRequest then
      [.onUrl (ascii "/"), .onHeaderField (ascii "Keep-Alive"), .onHeaderValue (ascii "1"),
        .onHeaderField (ascii "Content-Length"), .onHeaderValue (ascii "1"), .onBody (ascii "a")]
    else if b = nextRequest then
      [.onUrl (ascii "/"), .onHeaderField (ascii "Keep-Alive"), .onHeaderValue (ascii "1")]
    else []
  parseUrl u := if u = ascii "/" then some ⟨some (ascii "/"), none⟩ else none

/-- Two keep-alive requests, one after the other. -/
theorem httpCalls_eq_completed_iff_keepAlive :
    ∃ t, Transition.exec (invoke keepAliveParser) fresh [postRequest, nextRequest] =
        some t ∧
      (t.httpCalls = fresh.httpCalls + Transition.count (invoke keepAliveParser) newlyCompletes
          fresh [postRequest, nextRequest] ↔
        Transition.Throughout (invoke keepAliveParser) (fun s _ => s.parser.isCompleted = false)
          fresh [postRequest, nextRequest]) := by
  have hrun : Transition.exec (invoke keepAliveParser) fresh
      [postRequest, nextRequest] = some _ := rfl
  refine ⟨_, hrun, httpCalls_eq_completed_iff _ _ _ _ rfl ⟨rfl, fun t ht => ?_⟩ hrun⟩
  cases ht
  refine ⟨rfl, fun u hu => ?_⟩
  cases hu
  rfl

/-- The request has no `Keep-Alive` header; the first byte that arrives behind it has it
dispatched once more. -/
theorem request_dispatched_twice :
    fresh.hasHttpCallback = true ∧
      Transition.Always (invoke getRequestParser) (·.parser.isWebSocket = false) fresh
        [HTTPParser.getRequest, ascii "G"] ∧
      ∃ t, Transition.exec (invoke getRequestParser) fresh [HTTPParser.getRequest, ascii "G"] =
          some t ∧
        t.httpCalls = 2 ∧
        t.httpCalls ≠ fresh.httpCalls + Transition.count (invoke getRequestParser) newlyCompletes
          fresh [HTTPParser.getRequest, ascii "G"] := by
  refine ⟨rfl, ⟨rfl, fun t ht => ?_⟩, _, rfl, rfl, by decide⟩
  cases ht
  refine ⟨rfl, fun u hu => ?_⟩
  cases hu
  rfl

/-! ## What the next request shows of earlier ones -/

end HttpSession

/-- What the HTTP callback can read of a request. -/
structure RequestView where
  path : List UInt8
  query : List UInt8
  headValues : List (List UInt8 × List UInt8)
  body : List UInt8
deriving DecidableEq, Repr

namespace HTTPParser

def view (p : HTTPParser) : RequestView := ⟨p.path, p.query, p.headValues, p.body⟩

/-- The body span that `http_parser_execute` reports last, before a handler halts it. -/
def reportedBody (v : VendoredParser) : List ParserEvent → Option (List UInt8)
  | [] => none
  | .onUrl url :: es => if (sUrlHandle v init url).isSome then reportedBody v es else none
  | .onBody bytes :: es => (reportedBody v es).or (some bytes)
  | _ :: es => reportedBody v es

/-- The parser has nothing left of the request before, except what `clearParse` forgets. -/
structure Cleared (p : HTTPParser) : Prop where
  path : p.path = []
  query : p.query = []
  headValues : p.headValues = []
  tmpHeadStr : p.tmpHeadStr = []

/-- Two parsers that differ at most in what is not read while a request is parsed. -/
structure Agree (p q : HTTPParser) : Prop where
  path : p.path = q.path
  query : p.query = q.query
  headValues : p.headValues = q.headValues
  tmpHeadStr : p.tmpHeadStr = q.tmpHeadStr

theorem Cleared.agree {p q : HTTPParser} (hp : p.Cleared) (hq : q.Cleared) : Agree p q :=
  ⟨hp.path.trans hq.path.symm, hp.query.trans hq.query.symm,
    hp.headValues.trans hq.headValues.symm, hp.tmpHeadStr.trans hq.tmpHeadStr.symm⟩

/-- The URL handler succeeds or fails whatever the parser holds. -/
theorem sUrlHandle_cases (v : VendoredParser) (url : List UInt8) :
    (∀ p, sUrlHandle v p url = none) ∨
      (∃ path, ∀ p, sUrlHandle v p url = some { p with path := path }) ∨
      ∃ path query, ∀ p, sUrlHandle v p url = some { p with path := path, query := query } := by
  simp only [sUrlHandle]
  rcases v.parseUrl url with _ | ⟨_ | path, query⟩
  · exact .inl fun _ => rfl
  · exact .inl fun _ => rfl
  · rcases query with _ | query
    · exact .inr (.inl ⟨path, fun _ => rfl⟩)
    · exact .inr (.inr ⟨path, query, fun _ => rfl⟩)

/-- The bodies apart, what a parse leaves depends on what the handlers read only; the body is
the one reported, or still the one before. -/
theorem httpParserExecute_agree (v : VendoredParser) (es : List ParserEvent) {p q : HTTPParser}
    (h : Agree p q) :
    Agree (httpParserExecute v p es) (httpParserExecute v q es) ∧
      (httpParserExecute v p es).body = (reportedBody v es).getD p.body := by
  induction es generalizing p q with
  | nil => exact ⟨h, rfl⟩
  | cons e es ih =>
    cases e with
    | onUrl url =>
      simp only [httpParserExecute, handleEvent, reportedBody]
      -- a URL that cannot be read ends both parses, and any other sets the same fields in both
      rcases sUrlHandle_cases v url with hurl | ⟨path, hurl⟩ | ⟨path, query, hurl⟩
      · simp only [hurl, Option.isSome_none, Bool.false_eq_true, if_false, Option.getD_none, and_true]
        exact h
      · simp only [hurl, Option.isSome_some, if_true]
        exact ih ⟨rfl, h.query, h.headValues, h.tmpHeadStr⟩
      · simp only [hurl, Option.isSome_some, if_true]
        exact ih ⟨rfl, rfl, h.headValues, h.tmpHeadStr⟩
    | onStatus bytes => exact ih ⟨h.path, h.query, h.headValues, h.tmpHeadStr⟩
    | onHeaderField bytes => exact ih ⟨h.path, h.query, h.headValues, rfl⟩
    | onHeaderValue bytes =>
      refine ih ⟨h.path, h.query, ?_, h.tmpHeadStr⟩
      rw [h.tmpHeadStr, h.headValues]
    | onBody bytes =>
      have hnext := ih (p := { p with body := bytes }) (q := { q with body := bytes })
        ⟨h.path, h.query, h.headValues, h.tmpHeadStr⟩
      refine ⟨hnext.1, hnext.2.trans ?_⟩
      simp only [reportedBody]
      cases reportedBody v es <;> rfl

end HTTPParser

namespace HttpSession

/-- The parser `q` is `p` but for its two WebSocket strings. -/
def SameRequest (p q : HTTPParser) : Prop :=
  ∃ cache payload, q = { p with wsCacheFrame := cache, parsePayload := payload }

theorem SameRequest.trans {p q r : HTTPParser} (h : SameRequest p q) (h' : SameRequest q r) :
    SameRequest p r := by
  obtain ⟨_, _, rfl⟩ := h
  obtain ⟨cache, payload, rfl⟩ := h'
  exact ⟨cache, payload, rfl⟩

theorem sameRequest_handleFrame (s : HttpSession) (opcode : WebSocketFrameType)
    (isFin : Bool) : SameRequest s.parser (s.handleFrame opcode isFin).parser := by
  unfold handleFrame
  split
  · simp only [parser_call]
    split
    · exact ⟨_, _, rfl⟩
    · exact ⟨_, _, rfl⟩
  · split
    · exact ⟨_, _, rfl⟩
    · split
      · rw [parser_call]
        exact ⟨_, _, rfl⟩
      · exact ⟨_, _, rfl⟩

theorem sameRequest_wsLoop (fuel : ℕ) (s : HttpSession) (b : List UInt8) (retlen : ℕ) :
    SameRequest s.parser (wsLoop fuel s b retlen).2.parser := by
  induction fuel generalizing s b retlen with
  | zero => exact ⟨_, _, rfl⟩
  | succ fuel ih =>
    rw [wsLoop]
    split
    · exact ⟨_, _, rfl⟩
    · split
      · rename_i out _
        have hset : SameRequest s.parser (s.setParseString out.payload).parser := ⟨_, _, rfl⟩
        exact (hset.trans (sameRequest_handleFrame _ _ _)).trans (ih _ _ _)
      · exact ⟨_, _, rfl⟩

/-- Between two invocations: a parser that awaits a message has nothing of an earlier one but
its body. -/
structure Between (s : HttpSession) : Prop where
  tmpHeadStr : s.parser.tmpHeadStr = []
  cleared : s.parser.isCompleted = false → s.parser.Cleared

theorem between_of_sameRequest {s t : HttpSession} (hs : s.Between)
    (h : SameRequest s.parser t.parser) : t.Between := by
  obtain ⟨cache, payload, h⟩ := h
  constructor
  · rw [h]
    exact hs.tmpHeadStr
  · rw [h]
    exact fun hp => ⟨(hs.cleared hp).path, (hs.cleared hp).query, (hs.cleared hp).headValues,
      (hs.cleared hp).tmpHeadStr⟩

/-- After a dispatch the parser is still completed, or was cleared. -/
theorem between_dispatch (s : HttpSession) {p : HTTPParser} (hp : p.isCompleted = true)
    (htmp : p.tmpHeadStr = []) : (s.dispatch p).Between := by
  have hcompleted : ∀ t : HttpSession, t.parser = p → t.Between := fun t ht =>
    ⟨by rw [ht, htmp], fun h => by rw [ht, hp] at h; cases h⟩
  simp only [dispatch]
  split
  · exact hcompleted _ (by simp only [parser_call])
  · split
    · exact ⟨htmp, fun _ => ⟨rfl, rfl, rfl, htmp⟩⟩
    · exact hcompleted _ (by simp only [parser_call])

theorem between_invoke {v : VendoredParser} {s t : HttpSession} {buffer : List UInt8}
    (hs : s.Between) (h : s.invoke v buffer = some t) : t.Between := by
  simp only [invoke, handleHttp] at h
  split at h
  · cases h
    exact between_of_sameRequest hs (sameRequest_wsLoop _ _ _ _)
  · rw [handleRequest_eq] at h
    split at h
    · rename_i hp
      cases h
      exact between_dispatch s hp hs.tmpHeadStr
    · split at h <;> cases h
      · exact between_dispatch s (parsed_isCompleted v s.parser buffer) rfl
      · exact hs

/-- After any requests, a parser that awaits the next one is cleared. -/
theorem cleared_of_exec {v : VendoredParser} {s t : HttpSession} {buffers : List (List UInt8)}
    (hs : s.parser = HTTPParser.init) (h : Transition.exec (invoke v) s buffers = some t)
    (ht : t.parser.isCompleted = false) : t.parser.Cleared := by
  have hinit : s.Between := by
    constructor <;> rw [hs]
    · rfl
    · exact fun _ => ⟨rfl, rfl, rfl, rfl⟩
  exact (Transition.exec_invariant (fun _ _ _ => between_invoke) hinit h).cleared ht

/-- The next request `m` is dispatched to the HTTP callback, which gets the parser `p`. -/
def Dispatches (v : VendoredParser) (s : HttpSession) (m : List UInt8) (p : HTTPParser) : Prop :=
  s.parser.isCompleted = false ∧ s.parser.isWebSocket = false ∧
    ∃ t, s.invoke v m = some t ∧ t.calls = s.calls ++ [.http p]

theorem eq_parsed_of_dispatches {v : VendoredParser} {s : HttpSession} {m : List UInt8}
    {p : HTTPParser} (h : s.Dispatches v m p) : p = parsed v s.parser m := by
  obtain ⟨hp, hws, t, ht, hcalls⟩ := h
  simp only [invoke, handleHttp, hws, Bool.false_eq_true, if_false, handleRequest_eq, hp] at ht
  rcases hc : checkCompleted m with e | c <;> rw [hc] at ht
  · cases ht
  · cases c <;> cases ht
    · exact absurd hcalls (by simp)
    · simp only [dispatch] at hcalls
      split at hcalls
      · -- an upgrade calls other callbacks
        simp only [call] at hcalls
        split at hcalls <;> split at hcalls <;> simp at hcalls
      · have hcall : (({ s with parser := parsed v s.parser m } : HttpSession).call
            s.hasHttpCallback (.http (parsed v s.parser m))).calls = s.calls ++ [.http p] := by
          split at hcalls <;> exact hcalls
        unfold call at hcall
        split at hcall
        · simpa using hcall.symm
        · simp at hcall

theorem view_parsed_eq_iff (v : VendoredParser) {p q : HTTPParser} (hp : p.Cleared)
    (hq : q.Cleared) (m : List UInt8) :
    (parsed v p m).view = (parsed v q m).view ↔
      (HTTPParser.reportedBody v (v.execute m)).isSome ∨ p.body = q.body := by
  have hagree : HTTPParser.Agree { p with isCompleted := true } { q with isCompleted := true } :=
    ⟨(hp.agree hq).path, (hp.agree hq).query, (hp.agree hq).headValues, (hp.agree hq).tmpHeadStr⟩
  obtain ⟨hsame, hbodyp⟩ := HTTPParser.httpParserExecute_agree v (v.execute m) hagree
  have hbodyq := (HTTPParser.httpParserExecute_agree v (v.execute m) ⟨hagree.path.symm,
    hagree.query.symm, hagree.headValues.symm, hagree.tmpHeadStr.symm⟩).2
  simp only [HTTPParser.view, parsed, RequestView.mk.injEq, hsame.path, hsame.query,
    hsame.headValues, true_and]
  rw [hbodyp, hbodyq]
  cases HTTPParser.reportedBody v (v.execute m) <;> simp

/-- **What the callback sees of the next request depends only on that request**, exactly if a
body is reported for it or the earlier requests leave the same body. -/
theorem view_eq_iff (v : VendoredParser) (s₁ s₂ t₁ t₂ : HttpSession)
    (h₁ : s₁.parser = HTTPParser.init) (h₂ : s₂.parser = HTTPParser.init)
    (earlier₁ earlier₂ : List (List UInt8))
    (hrun₁ : Transition.exec (invoke v) s₁ earlier₁ = some t₁)
    (hrun₂ : Transition.exec (invoke v) s₂ earlier₂ = some t₂) (m : List UInt8)
    (p₁ p₂ : HTTPParser) (hm₁ : t₁.Dispatches v m p₁) (hm₂ : t₂.Dispatches v m p₂) :
    p₁.view = p₂.view ↔
      (HTTPParser.reportedBody v (v.execute m)).isSome ∨ t₁.parser.body = t₂.parser.body := by
  rw [eq_parsed_of_dispatches hm₁, eq_parsed_of_dispatches hm₂]
  exact view_parsed_eq_iff v (cleared_of_exec h₁ hrun₁ hm₁.1) (cleared_of_exec h₂ hrun₂ hm₂.1) m

/-- The request without a body, behind the one with a body and on a new session. -/
theorem view_eq_iff_nextRequest :
    ∃ t p₁ p₂, Transition.exec (invoke keepAliveParser) fresh [postRequest] = some t ∧
      t.Dispatches keepAliveParser nextRequest p₁ ∧
      fresh.Dispatches keepAliveParser nextRequest p₂ ∧
      (p₁.view = p₂.view ↔
        (HTTPParser.reportedBody keepAliveParser (keepAliveParser.execute nextRequest)).isSome ∨
          t.parser.body = fresh.parser.body) := by
  refine ⟨_, _, _, rfl, ⟨rfl, rfl, _, rfl, rfl⟩, ⟨rfl, rfl, _, rfl, rfl⟩, ?_⟩
  exact view_eq_iff keepAliveParser fresh fresh _ fresh rfl rfl [postRequest] [] rfl rfl
    nextRequest _ _ ⟨rfl, rfl, _, rfl, rfl⟩ ⟨rfl, rfl, _, rfl, rfl⟩

/-- Behind a request with a body, one without a body shows that body. -/
theorem body_shows_in_next_request :
    ∃ t, Transition.exec (invoke keepAliveParser) fresh [postRequest] = some t ∧
      ∃ p₁ p₂, t.Dispatches keepAliveParser nextRequest p₁ ∧
        fresh.Dispatches keepAliveParser nextRequest p₂ ∧
        p₁.body = ascii "a" ∧ p₂.body = [] ∧ p₁.view ≠ p₂.view := by
  refine ⟨_, rfl, _, _, ⟨rfl, rfl, _, rfl, rfl⟩, ⟨rfl, rfl, _, rfl, rfl⟩, ?_⟩
  decide

end HttpSession

end Netxy
