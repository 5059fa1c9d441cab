import Netxy.Http.BodyReassembly

/-!
# Input that the vendored parser rejects

`tryParse` takes a message for parsed as soon as the scan of `checkCompleted` finds its end.
What `http_parser_execute` returns and `HTTP_PARSER_ERRNO` are not looked at, so that what a
rejected message has left in the parser is dispatched like any other.
-/

namespace Netxy.HttpSession
open CString HTTPParser

/-! ## Outcomes -/

/-- `HTTP_PARSER_ERRNO`, in the order of `HTTP_ERRNO_MAP`. -/
def HPE_OK : ℕ := 0
def HPE_CB_url : ℕ := 2
def HPE_INVALID_METHOD : ℕ := 16

/-- How a call of `http_parser_execute` ends; `messageLength` is the length of the message
that the buffer begins with. -/
structure ParseEnd where
  nparsed : ℕ
  http_errno : ℕ
  messageLength : ℕ
deriving DecidableEq, Repr

/-- An invocation of the data callback, and what `http_parser_execute` makes of the buffer:
its callbacks as long as they return 0, and how it ends if all of them do. -/
structure Delivery where
  buffer : List UInt8
  events : List ParserEvent
  parseEnd : ParseEnd
deriving DecidableEq, Repr

variable (parseUrl : List UInt8 → Option HttpParserUrl)

def Delivery.vendored (d : Delivery) : VendoredParser := ⟨fun _ => d.events, parseUrl⟩

/-- How the parse does end: with an error where `sUrlHandle` returns -1. -/
def Delivery.outcome (d : Delivery) : ParseEnd :=
  if acceptsUrls (d.vendored parseUrl) d.events then d.parseEnd
  else { d.parseEnd with http_errno := HPE_CB_url }

/-- The parse ends without an error and behind the whole message. -/
def Delivery.accepted (d : Delivery) : Bool :=
  decide ((d.outcome parseUrl).http_errno = HPE_OK) &&
    decide ((d.outcome parseUrl).messageLength ≤ (d.outcome parseUrl).nparsed)

/-- A header field `Upgrade: websocket` was reported, before a callback halted the parse. -/
def Delivery.reportsUpgrade (d : Delivery) : Bool :=
  decide ((httpParserExecute (d.vendored parseUrl) init d.events).getValue (ascii "Upgrade") =
    ascii "websocket")

/-! ## Sessions -/

/-- A session, and whether the parse that last completed its parser was accepted. -/
structure Watched where
  session : HttpSession
  accepted : Bool

/-- A new session with these callbacks. -/
def opened (hasWSCallback hasHttpCallback hasWSConnectedCallback : Bool) : Watched where
  session :=
    { parser := HTTPParser.init, hasWSCallback, hasHttpCallback, hasWSConnectedCallback
      calls := [], assertHits := 0 }
  accepted := false

namespace Watched

/-- This invocation parses a message. -/
def parses (w : Watched) (d : Delivery) : Bool :=
  !w.session.parser.isWebSocket && w.session.newlyCompletes d.buffer

def step (w : Watched) (d : Delivery) : Option Watched :=
  (w.session.invoke (d.vendored parseUrl) d.buffer).map fun s =>
    ⟨s, if w.parses d then d.accepted parseUrl else w.accepted⟩

/-- From `s` to `t` a request was dispatched: the HTTP callback was invoked, or WebSocket mode
was entered. -/
def Dispatched (s t : HttpSession) : Prop :=
  s.httpCalls < t.httpCalls ∨ (s.parser.isWebSocket = false ∧ t.parser.isWebSocket = true)

/-- What is dispatched comes from a parse that was accepted. -/
def DispatchesAccepted (w : Watched) (d : Delivery) : Prop :=
  ∀ t, w.step parseUrl d = some t → Dispatched w.session t.session → t.accepted = true

/-- A parse that is not accepted meets a session without an HTTP callback, and reports no
upgrade. -/
def Harmless (w : Watched) (d : Delivery) : Prop :=
  w.parses d = true → d.accepted parseUrl = true ∨
    (w.session.hasHttpCallback = false ∧ d.reportsUpgrade parseUrl = false)

/-! ## What is dispatched -/

theorem httpCalls_call_ws (s : HttpSession) (isSet : Bool) (opcode : WebSocketFrameType)
    (payload : List UInt8) : (s.call isSet (.ws opcode payload)).httpCalls = s.httpCalls := by
  unfold HttpSession.call
  split
  · simp [httpCalls]
  · rfl

theorem httpCalls_handleFrame (s : HttpSession) (opcode : WebSocketFrameType) (isFin : Bool) :
    (s.handleFrame opcode isFin).httpCalls = s.httpCalls := by
  unfold handleFrame
  split
  · rw [httpCalls_call_ws]
    split <;> rfl
  · split
    · rfl
    · split
      · exact httpCalls_call_ws s _ _ _
      · rfl

/-- The frame loop invokes no HTTP callback. -/
theorem httpCalls_wsLoop (fuel : ℕ) (s : HttpSession) (b : List UInt8) (retlen : ℕ) :
    (wsLoop fuel s b retlen).2.httpCalls = s.httpCalls := by
  induction fuel generalizing s b retlen with
  | zero => rfl
  | succ fuel ih =>
    rw [wsLoop]
    split
    · rfl
    · split
      · rw [ih, httpCalls_handleFrame]
        rfl
      · rfl

/-- A session in HTTP mode dispatches a completed parser if it has a callback for it or the
parser upgrades. -/
theorem dispatched_dispatch_iff {s : HttpSession} (hs : s.parser.isWebSocket = false)
    (p : HTTPParser) :
    Dispatched s (s.dispatch p) ↔ s.hasHttpCallback = true ∨ p.isWebSocket = true := by
  rw [Dispatched, isWebSocket_dispatch]
  cases hws : p.isWebSocket with
  | true => simp [hs]
  | false =>
    cases hcallback : s.hasHttpCallback with
    | true => simp [httpCalls_dispatch hcallback hws]
    | false =>
      have hcalls : (s.dispatch p).httpCalls = s.httpCalls := by
        simp only [dispatch, hws, HttpSession.call, hcallback, Bool.false_eq_true, if_false]
        split <;> rfl
      simp [hcalls]

/-- Between messages the parser knows of no header but those just reported. -/
theorem isWebSocket_parsed {p : HTTPParser} (hp : p.Cleared) (d : Delivery) :
    (parsed (d.vendored parseUrl) p d.buffer).isWebSocket = d.reportsUpgrade parseUrl := by
  have hagree : Agree { p with isCompleted := true } init :=
    ⟨hp.path, hp.query, hp.headValues, hp.tmpHeadStr⟩
  have hsame := (httpParserExecute_agree (d.vendored parseUrl) d.events hagree).1.headValues
  have hvalue : (httpParserExecute (d.vendored parseUrl) { p with isCompleted := true }
        d.events).getValue (ascii "Upgrade") =
      (httpParserExecute (d.vendored parseUrl) init d.events).getValue (ascii "Upgrade") := by
    unfold getValue
    rw [hsame]
  exact decide_eq_decide.mpr (iff_of_eq (congrArg (· = ascii "websocket") hvalue))

/-! ## Runs -/

/-- A parser that awaits a message is cleared, and one that is completed and can be dispatched
once more holds an accepted message. -/
structure Inv (w : Watched) : Prop where
  between : w.session.Between
  accepted : w.session.parser.isWebSocket = false → w.session.parser.isCompleted = true →
    w.accepted = true ∨ w.session.hasHttpCallback = false

theorem inv_opened (hasWSCallback hasHttpCallback hasWSConnectedCallback : Bool) :
    (opened hasWSCallback hasHttpCallback hasWSConnectedCallback).Inv where
  between := ⟨rfl, fun _ => ⟨rfl, rfl, rfl, rfl⟩⟩
  accepted := fun _ h => by cases h

/-- The invocations by what they meet: a session in WebSocket mode, a completed parser, or a
buffer that the scan completes, or does not. -/
theorem step_cases {w t : Watched} {d : Delivery} (h : w.step parseUrl d = some t) :
    (w.session.parser.isWebSocket = true ∧ w.parses d = false ∧
      t = ⟨(wsLoop d.buffer.length w.session d.buffer 0).2, w.accepted⟩) ∨
    (w.session.parser.isWebSocket = false ∧ w.session.parser.isCompleted = true ∧
      w.parses d = false ∧ t = ⟨w.session.dispatch w.session.parser, w.accepted⟩) ∨
    (w.session.parser.isWebSocket = false ∧ w.session.parser.isCompleted = false ∧
      w.parses d = true ∧
      t = ⟨w.session.dispatch (parsed (d.vendored parseUrl) w.session.parser d.buffer),
        d.accepted parseUrl⟩) ∨
    (w.session.parser.isWebSocket = false ∧ w.session.parser.isCompleted = false ∧
      w.parses d = false ∧ t = w) := by
  obtain ⟨s, hs, rfl⟩ := Option.map_eq_some_iff.mp h
  unfold invoke handleHttp at hs
  cases hws : w.session.parser.isWebSocket with
  | true =>
    rw [hws] at hs
    cases hs
    have hparses : w.parses d = false := by simp [parses, hws]
    simp [hparses]
  | false =>
    rw [hws, if_neg Bool.false_ne_true, handleRequest_eq] at hs
    cases hp : w.session.parser.isCompleted with
    | true =>
      rw [hp] at hs
      cases hs
      have hparses : w.parses d = false := by simp [parses, newlyCompletes, hp]
      simp [hparses]
    | false =>
      rcases hc : checkCompleted d.buffer with e | c <;> rw [hp, hc] at hs
      · cases hs
      · have hparses : w.parses d = c := by cases c <;> simp [parses, newlyCompletes, hws, hp, hc]
        cases c <;> cases hs <;> simp [hparses]

theorem inv_step {w t : Watched} {d : Delivery} (hw : w.Inv) (hd : w.Harmless parseUrl d)
    (h : w.step parseUrl d = some t) : t.Inv := by
  have hbetween : t.session.Between := by
    obtain ⟨s, hs, rfl⟩ := Option.map_eq_some_iff.mp h
    exact between_invoke hw.between hs
  refine ⟨hbetween, fun hws hp => ?_⟩
  rcases step_cases parseUrl h with
    ⟨hws', -, rfl⟩ | ⟨hws', hp', -, rfl⟩ | ⟨-, -, hparses, rfl⟩ | ⟨-, hp', -, rfl⟩
  · -- WebSocket mode is not left
    obtain ⟨cache, payload, hsame⟩ := sameRequest_wsLoop d.buffer.length w.session d.buffer 0
    rw [hsame] at hws
    exact absurd (hws.symm.trans hws') Bool.false_ne_true
  · rw [hasHttpCallback_dispatch]
    exact hw.accepted hws' hp'
  · rw [hasHttpCallback_dispatch]
    exact (hd hparses).imp_right And.left
  · exact absurd (hp'.symm.trans hp) Bool.false_ne_true

/-- Of all invocations only one that parses can dispatch what was not accepted. -/
theorem dispatchesAccepted_iff {w : Watched} (hw : w.Inv) (d : Delivery) :
    w.DispatchesAccepted parseUrl d ↔ w.Harmless parseUrl d := by
  rcases hstep : w.step parseUrl d with _ | t
  · -- no invocation comes to its end without a verdict of the scan
    have hparses : w.parses d = false := by
      by_contra hparses
      simp only [Bool.not_eq_false, parses, newlyCompletes, Bool.and_eq_true, Bool.not_eq_true',
        decide_eq_true_eq] at hparses
      obtain ⟨hws, hp, hc⟩ := hparses
      rw [step, Option.map_eq_none_iff, invoke, handleHttp, hws, if_neg Bool.false_ne_true,
        handleRequest_eq, hp, hc] at hstep
      cases hstep
    refine iff_of_true (fun t ht => ?_) fun h => absurd (hparses.symm.trans h) Bool.false_ne_true
    cases hstep.symm.trans ht
  have hall : w.DispatchesAccepted parseUrl d ↔
      (Dispatched w.session t.session → t.accepted = true) := by
    simp only [DispatchesAccepted, hstep, Option.some.injEq, forall_eq']
  rw [hall, Harmless]
  rcases step_cases parseUrl hstep with
    ⟨hws, hparses, rfl⟩ | ⟨hws, hp, hparses, rfl⟩ | ⟨hws, hp, hparses, rfl⟩ | ⟨hws, -, hparses, rfl⟩
  · refine iff_of_true (fun hdisp => ?_) fun h => absurd (hparses.symm.trans h) Bool.false_ne_true
    rcases hdisp with hless | ⟨hnot, -⟩
    · rw [httpCalls_wsLoop] at hless
      exact absurd hless (lt_irrefl _)
    · exact absurd (hnot.symm.trans hws) Bool.false_ne_true
  · -- what was completed before is dispatched again, and it was accepted
    rw [dispatched_dispatch_iff hws, hws]
    refine iff_of_true (fun hdisp => ?_) fun h => absurd (hparses.symm.trans h) Bool.false_ne_true
    rcases hw.accepted hws hp with hacc | hnone
    · exact hacc
    · simp [hnone] at hdisp
  · rw [dispatched_dispatch_iff hws, isWebSocket_parsed parseUrl (hw.between.cleared hp), hparses]
    cases d.accepted parseUrl <;> cases w.session.hasHttpCallback <;>
      cases d.reportsUpgrade parseUrl <;> simp
  · refine iff_of_true (fun hdisp => ?_) fun h => absurd (hparses.symm.trans h) Bool.false_ne_true
    rcases hdisp with hless | ⟨-, hnow⟩
    · exact absurd hless (lt_irrefl _)
    · exact absurd (hws.symm.trans hnow) Bool.false_ne_true

/-- In a run of a new session only accepted messages are dispatched, exactly if each parse that
is not accepted meets a session without an HTTP callback and reports no upgrade. -/
theorem dispatches_accepted_iff_harmless
    (hasWSCallback hasHttpCallback hasWSConnectedCallback : Bool) (ds : List Delivery) :
    Transition.Throughout (step parseUrl) (DispatchesAccepted parseUrl)
        (opened hasWSCallback hasHttpCallback hasWSConnectedCallback) ds ↔
      Transition.Throughout (step parseUrl) (Harmless parseUrl)
        (opened hasWSCallback hasHttpCallback hasWSConnectedCallback) ds :=
  Transition.throughout_iff (fun _ d hw => dispatchesAccepted_iff parseUrl hw d)
    (fun _ _ _ hw hd h => inv_step parseUrl hw hd h) (inv_opened _ _ _)

/-- A line that is no request line, and an empty line: nothing of it is parsed, and the HTTP
callback is invoked. -/
def noRequest : Delivery where
  buffer := ascii "nonsense\r\n\r\n"
  events := []
  parseEnd := ⟨0, HPE_INVALID_METHOD, 12⟩

/-- A line that is no request is dispatched to the HTTP callback. -/
theorem not_dispatches_accepted :
    ¬ ∀ (parseUrl : List UInt8 → Option HttpParserUrl)
        (hasWSCallback hasHttpCallback hasWSConnectedCallback : Bool) (ds : List Delivery),
      Transition.Throughout (step parseUrl) (DispatchesAccepted parseUrl)
        (opened hasWSCallback hasHttpCallback hasWSConnectedCallback) ds := by
  intro h
  have hfirst := (h (fun _ => none) false true false [noRequest]).1
  rw [dispatchesAccepted_iff _ (inv_opened _ _ _)] at hfirst
  exact absurd (hfirst (by decide)) (by decide)

end Watched
end Netxy.HttpSession
