import Netxy.Http.Vendored.Refinement

/-!
# `http_parser_execute` with any callbacks

A turn with callbacks that return anything is the turn with callbacks that return zero, unless a
callback is refused, which ends the call with an error, or `on_headers_complete` says that there is
no body. So a call is safe whatever the callbacks return: `execute_safe`.
-/

namespace Netxy.Vendored
open CString

/-- `parser->flags |= F_SKIPBODY`. -/
def Core.skipBody (c : Core) : Core := { c with flags := { c.flags with skipbody := true } }

/-- Nothing that holds between two bytes depends on the flag. -/
theorem Core.Good.skipBody {c : Core} (h : c.Good) : c.skipBody.Good :=
  ⟨h.errno, h.length, h.stateOk⟩

/-- A callback that is refused is an error. -/
theorem Callback.errno_ne (cb : Callback) : cb.errno ≠ .OK := by
  rcases cb with ⟨k, bytes⟩ | n
  · cases k <;> exact nofun
  · cases n <;> exact nofun

namespace Machine

/-- The machine where the message has no body. -/
def skipBody (m : Machine) : Machine := { m with core := m.core.skipBody }

end Machine

/-- The step where the message has no body. -/
def Step.skipBody : Step → Step
  | .next m => .next m.skipBody
  | .again m => .again m.skipBody
  | .ret m n => .ret m.skipBody n
  | .abort => .abort

namespace Machine

variable {data : List UInt8} {N : ℕ} {m : Machine} {s : Stream} {settings : Settings}

/-! ## One turn -/

/-- What a step may be with any callbacks, where it is `step` with callbacks that return zero. -/
def Varies (data : List UInt8) (step step' : Step) : Prop :=
  step' = step ∨ step' = step.skipBody ∨
    ∃ m n, step' = .ret m n ∧ n ≤ data.length ∧ m.core.httpErrno ≠ .OK

theorem Varies.refl (step : Step) : Varies data step step := .inl rfl

/-- One callback is answered: it goes on, there is no body, or the call ends. -/
theorem answer_varies {cb : Callback} {er : ℕ} {k k' : Machine → Step} (her : er ≤ data.length)
    (hk : ∀ m', m'.p = m.p → Varies data (k m') (k' m'))
    (hskip : cb = .note .headersComplete → ∀ m', k' m'.skipBody = (k m').skipBody) :
    Varies data (m.answer allOk cb er k) (m.answer settings cb er k') := by
  have hok : m.answer allOk cb er k = k { m with log := m.log ++ [cb] } := rfl
  rw [hok]
  unfold answer
  dsimp only
  split_ifs with hzero hone
  · exact hk _ rfl
  · exact .inr (.inl (hskip hone.2 { m with log := m.log ++ [cb] }))
  · exact .inr (.inr ⟨_, er, rfl, her, cb.errno_ne⟩)

/-- A data callback may be refused. -/
theorem dataCallback_varies {k : Mark} {stop er : ℕ} {next next' : Machine → Step}
    (her : er ≤ data.length) (hnext : ∀ m', m'.p = m.p → Varies data (next m') (next' m')) :
    Varies data (m.dataCallback allOk data k stop er next)
      (m.dataCallback settings data k stop er next') := by
  unfold dataCallback assertOk
  split_ifs
  · cases m.marks k with
    | none => exact hnext m rfl
    | some from_ => exact answer_varies her (fun m' hm' => hnext _ hm') nofun
  · exact .refl _

/-- So may a notification, and that of the header may also say that there is no body. -/
theorem notify_varies {n : Notify} {er : ℕ} {next : Machine → Step} (her : er ≤ data.length)
    (hskip : ∀ m', next m'.skipBody = (next m').skipBody) :
    Varies data (m.notify allOk n er next) (m.notify settings n er next) := by
  unfold notify assertOk
  split_ifs
  · exact answer_varies her (fun m' _ => .refl _) fun _ => hskip
  · exact answer_varies her (fun m' _ => .refl _) fun _ => hskip
  · exact .refl _

/-- Whichever callback a case makes. -/
theorem call_varies (hp : m.p < data.length) (c : Option Call) {next : Machine → Step}
    (hskip : ∀ m', next m'.skipBody = (next m').skipBody) :
    Varies data (m.call allOk data c next) (m.call settings data c next) := by
  cases c with
  | none => exact .refl _
  | some c =>
    cases c with
    | data k => exact dataCallback_varies hp fun m' _ => .refl _
    | dataNoadvance k => exact dataCallback_varies hp.le fun m' _ => .refl _
    | dataThrough k => exact dataCallback_varies hp.le fun m' _ => .refl _
    | notify n => exact notify_varies hp hskip
    | notifyNoadvance n => exact notify_varies hp.le hskip

/-- Counting calls nobody. -/
theorem count_varies {n : ℕ} {k k' : Machine → Step}
    (hk : ∀ nread, Varies data (k { m with nread := nread }) (k' { m with nread := nread })) :
    Varies data (m.count n k) (m.count n k') := by
  unfold count
  dsimp only
  split_ifs
  · exact .refl _
  · exact hk _

/-- An action of `dispatch` makes one callback at most. -/
theorem perform_varies (hp : m.p < data.length) (a : Action) :
    Varies data (m.perform allOk data a) (m.perform settings data a) := by
  unfold perform
  refine call_varies ?_ a.call fun m' => ?_
  · rw [(mark_same _ a.mark).p]
    exact hp
  · cases a.next <;> rfl

theorem headerField_varies :
    Varies data (headerField allOk data m) (headerField settings data m) := by
  unfold headerField
  split
  · exact .refl _
  · refine count_varies fun nread => ?_
    dsimp only
    split
    · exact .refl _
    · rename_i hch
      split_ifs
      · exact call_varies (List.getElem?_eq_some_iff.mp hch).1 _ fun _ => rfl
      · exact .refl _

/-- The count of the header makes no difference to where the loop over a value ends. -/
theorem headerValue_varies (h : Follows data N m s) (hs : s.Good)
    (hstate : m.core.state = .headerValue) (nread : ℕ) :
    Varies data (headerValue allOk data { m with nread := nread })
      (headerValue settings data { m with nread := nread }) := by
  have hends := valueLoop_ends ((data.drop m.p).length + 1) m s _ rfl (Nat.lt_succ_self _) h hs
    hstate
  unfold headerValue
  dsimp only
  cases hloop : valueLoop ((data.drop m.p).length + 1) m.core (data.drop m.p) with
  | abort | error c k e | stop c k => exact .refl _
  | cr c k =>
    rw [hloop] at hends
    refine call_varies (List.getElem?_eq_some_iff.mp hends.2.2).1 _ fun m' => ?_
    unfold count
    dsimp only [skipBody]
    split_ifs <;> rfl
  | lf c k =>
    rw [hloop] at hends
    exact count_varies fun nread =>
      call_varies (List.getElem?_eq_some_iff.mp hends.2.2).1 _ fun _ => rfl

theorem bodyIdentity_varies (hp : m.p < data.length) :
    Varies data (bodyIdentity allOk data m) (bodyIdentity settings data m) := by
  unfold bodyIdentity
  dsimp only
  split_ifs
  · exact .refl _
  · refine call_varies ?_ _ fun _ => rfl
    show (m.mark (some .body)).p + min m.core.contentLength (data.length - m.p) - 1 < data.length
    rw [(mark_same m _).p]
    omega
  · exact .refl _

/-- Each case of the `switch`. -/
theorem switch_varies {ch : UInt8} (h : Follows data N m s) (hs : s.Good)
    (hp : m.p < data.length) (nread : ℕ) :
    Varies data (switch allOk data { m with nread := nread } ch)
      (switch settings data { m with nread := nread } ch) := by
  unfold switch
  split
  · exact headerField_varies
  · exact headerValue_varies h hs ‹_› nread
  · exact bodyIdentity_varies hp
  · exact .refl _
  · exact .refl _
  · exact perform_varies (m := { m with nread := nread }) hp _

/-- The callbacks behind the loop. -/
theorem flush_varies (ks : List Mark) (hp : m.p ≤ data.length) :
    Varies data (flush allOk data ks m) (flush settings data ks m) := by
  induction ks generalizing m with
  | nil => exact .refl _
  | cons k ks ih => exact dataCallback_varies hp fun m' hm' => ih (hm' ▸ hp)

/-- One turn of the loop. -/
theorem turn_varies {fresh : Bool} (h : Follows data N m s) (hs : s.Good) :
    Varies data (turn allOk data fresh m) (turn settings data fresh m) := by
  unfold turn
  cases hch : data[m.p]? with
  | none =>
    unfold finish
    dsimp only
    split_ifs
    · exact .refl _
    · exact flush_varies _ h.le
  | some ch =>
    have hp : m.p < data.length := (List.getElem?_eq_some_iff.mp hch).1
    dsimp only
    split_ifs
    · exact count_varies (switch_varies h hs hp)
    · exact switch_varies h hs hp m.nread

/-- A turn goes on to a place that has a stream, or ends the call well. -/
def Safe (data : List UInt8) (N : ℕ) (m : Machine) : Step → Prop
  | .next m' =>
    let m' := { m' with p := m'.p + 1 }
    ∃ s', Follows data N m' s' ∧ s'.Good ∧ measure data m' < measure data m ∧
      (m'.core.state = .chunkSizeStart → m'.nread = 0) ∧
      (m'.p < data.length → m'.nread ≤ N + m'.p)
  | .again m' =>
    ∃ s', Follows data N m' s' ∧ s'.Good ∧ measure data m' < measure data m ∧
      m'.core.state ≠ .chunkSizeStart
  | .ret m' n =>
    n ≤ data.length ∧
      (n = data.length ∨ m'.core.httpErrno ≠ .OK ∨ m'.core.upgrade = true) ∧
      (m'.core.httpErrno = .OK → m'.core.Good ∧
        (m'.core.state = .chunkSizeStart → m'.nread = 0) ∧ m'.nread ≤ HTTP_MAX_HEADER_SIZE)
  | .abort => False

/-- What follows the stream is safe. -/
theorem Explains.safe {step : Step} (h : Explains data N m s step) : Safe data N m step := by
  cases step with
  | next m' =>
    obtain ⟨s', -, hrest⟩ := h
    exact ⟨s', hrest⟩
  | again m' =>
    obtain ⟨s', -, hrest⟩ := h
    exact ⟨s', hrest⟩
  | ret m' n =>
    obtain ⟨hn, ⟨hover, -⟩ | ⟨s', -, -, -, hgood⟩⟩ := h
    · have herror : m'.core.httpErrno ≠ .OK := by
        rw [hover]
        decide
      exact ⟨hn, .inr (.inl herror), fun hOK => absurd hOK herror⟩
    · refine ⟨hn, ?_, fun hOK => ?_⟩
      · by_cases hOK : m'.core.httpErrno = .OK
        · exact .inr (.inr (hgood hOK).2.2.2)
        · exact .inr (.inl hOK)
      · obtain ⟨hcore, hne, hnread, -⟩ := hgood hOK
        exact ⟨hcore, fun hstate => absurd hstate hne, hnread⟩
  | abort => exact h

theorem Follows.skipBody (h : Follows data N m s) :
    Follows data N m.skipBody { s with core := s.core.skipBody } :=
  ⟨congrArg Core.skipBody h.core, h.log, h.le, h.nread, h.closed, h.opened⟩

/-- It is as safe to go on without a body. -/
theorem Safe.skipBody {step : Step} (h : Safe data N m step) : Safe data N m step.skipBody := by
  have hstream : ∀ {s : Stream}, s.Good → Stream.Good { s with core := s.core.skipBody } :=
    fun hs => ⟨hs.core.skipBody, hs.opens⟩
  cases step with
  | next m' =>
    obtain ⟨s', hf, hg, hrest⟩ := h
    exact ⟨_, hf.skipBody, hstream hg, hrest⟩
  | again m' =>
    obtain ⟨s', hf, hg, hrest⟩ := h
    exact ⟨_, hf.skipBody, hstream hg, hrest⟩
  | ret m' n =>
    obtain ⟨hn, hread, hgood⟩ := h
    refine ⟨hn, hread, fun hOK => ?_⟩
    obtain ⟨hcore, hrest⟩ := hgood hOK
    exact ⟨hcore.skipBody, hrest⟩
  | abort => exact h

/-- What is safe with callbacks that return zero is so with any. -/
theorem Safe.varies {step step' : Step} (h : Safe data N m step) (hv : Varies data step step') :
    Safe data N m step' := by
  obtain rfl | rfl | ⟨m', n, rfl, hn, herror⟩ := hv
  · exact h
  · exact h.skipBody
  · exact ⟨hn, .inr (.inl herror), fun hOK => absurd hOK herror⟩

/-- One turn is safe with any callbacks. -/
theorem turn_safe (settings : Settings) {fresh : Bool} (h : Follows data N m s) (hs : s.Good)
    (hlen : data.length < 2 ^ 31)
    (hn : m.core.state = .chunkSizeStart → fresh = true ∧ m.nread = 0)
    (hfresh : fresh = true → m.p < data.length → m.nread ≤ N + m.p) :
    Safe data N m (turn settings data fresh m) := by
  refine Safe.varies ?_ (turn_varies h hs)
  cases hch : data[m.p]? with
  | none =>
    obtain ⟨m', hfinish, hcore, hnread, -⟩ := finish_spec h (h.core ▸ hs.core.errno)
    rw [turn, hch]
    dsimp only
    rw [hfinish]
    refine ⟨le_refl _, .inl rfl, fun _ => ?_⟩
    rw [hcore, hnread]
    exact ⟨h.core ▸ hs.core, fun hstate => (hn hstate).2, h.nread.trans (min_le_left _ _)⟩
  | some ch =>
    have hp : m.p < data.length := (List.getElem?_eq_some_iff.mp hch).1
    exact (turn_explains h hs hlen hch hn fun hf => hfresh hf hp).safe

/-! ## A whole call -/

/-- So is every number of turns. -/
theorem run_safe (settings : Settings) (hlen : data.length < 2 ^ 31) (fuel : ℕ) :
    ∀ (m : Machine) (s : Stream) (fresh : Bool), Follows data N m s → s.Good →
      (m.core.state = .chunkSizeStart → fresh = true ∧ m.nread = 0) →
      (fresh = true → m.p < data.length → m.nread ≤ N + m.p) → measure data m < fuel →
      ∃ m' n, run settings data fuel fresh m = some (m', n) ∧ Safe data N m (.ret m' n) := by
  induction fuel with
  | zero => exact fun _ _ _ _ _ _ _ h => absurd h (Nat.not_lt_zero _)
  | succ fuel ih =>
    intro m s fresh h hs hn hfresh hfuel
    have hturn := turn_safe settings h hs hlen hn hfresh
    unfold run
    cases hstep : turn settings data fresh m with
    | next m' =>
      rw [hstep] at hturn
      obtain ⟨s', hf, hg, hlt, hn', hle'⟩ := hturn
      exact ih _ s' true hf hg (fun hc => ⟨rfl, hn' hc⟩) (fun _ => hle') (by omega)
    | again m' =>
      rw [hstep] at hturn
      obtain ⟨s', hf, hg, hlt, hne⟩ := hturn
      exact ih _ s' false hf hg (fun hc => absurd hc hne) (fun h => by cases h) (by omega)
    | ret m' n =>
      rw [hstep] at hturn
      exact ⟨m', n, rfl, hturn⟩
    | abort =>
      rw [hstep] at hturn
      exact hturn.elim

end Machine

namespace HttpParser

variable {parser : HttpParser} {data : List UInt8}

/-- What a call leaves and returns: it reads no more than it is given, but for the one byte it
returns where the input ends in the middle of a message, and leaves bytes for an error or an upgrade
alone. -/
structure Returns (data : List UInt8) (parser' : HttpParser) (n : ℕ) : Prop where
  le : n ≤ data.length ∨ data = [] ∧ n = 1 ∧ parser'.core.httpErrno = .INVALID_EOF_STATE
  reads : n = data.length ∨ parser'.core.httpErrno ≠ .OK ∨ parser'.core.upgrade = true

/-- At the end of the input nothing but the callback for a message that ends there is left. -/
theorem execute_nil (settings : Settings) (h : parser.Good) (hOK : parser.core.httpErrno = .OK) :
    ∃ parser' n, parser.execute settings [] = some (parser', n) ∧ parser'.Good ∧
      Returns [] parser' n := by
  rw [execute, if_neg (not_not.2 hOK), if_pos rfl]
  split
  · dsimp only
    split_ifs
    · exact ⟨_, 0, rfl, h, .inl (le_refl 0), .inl rfl⟩
    · exact ⟨_, 0, rfl, (fun h => by cases h), .inl (le_refl 0), .inl rfl⟩
  · exact ⟨parser, 0, rfl, h, .inl (le_refl 0), .inl rfl⟩
  · exact ⟨parser, 0, rfl, h, .inl (le_refl 0), .inl rfl⟩
  · exact ⟨parser, 0, rfl, h, .inl (le_refl 0), .inl rfl⟩
  · exact ⟨parser, 0, rfl, h, .inl (le_refl 0), .inl rfl⟩
  · refine ⟨_, 1, rfl, (fun h => by cases h), .inr ⟨rfl, rfl, rfl⟩, .inr (.inl ?_)⟩
    exact fun h => by cases h

/-- A call with bytes to read. -/
theorem execute_cons (settings : Settings) (h : parser.Good) (hOK : parser.core.httpErrno = .OK)
    (hne : data ≠ []) (hlen : data.length < 2 ^ 31) :
    ∃ parser' n, parser.execute settings data = some (parser', n) ∧ parser'.Good ∧
      Returns data parser' n := by
  obtain ⟨hcore, hchunk, hnread⟩ := h hOK
  have hmeasure : Machine.measure data (Machine.start parser.core parser.nread parser.log) <
      8 * data.length + 8 := by
    have hrank := Machine.rank_le parser.core.state
    show 4 * (data.length - 0) + parser.core.state.rank < _
    omega
  obtain ⟨m', n, hrun, hle, hread, hgood⟩ := Machine.run_safe settings hlen _ _ parser.stream true
    (Machine.start_follows parser.core hnread parser.log) (stream_good hcore)
    (fun hstate => ⟨rfl, hchunk hstate⟩) (fun _ _ => Nat.le_add_right _ _) hmeasure
  refine ⟨⟨m'.core, m'.nread, m'.log⟩, n, ?_, hgood, .inl hle, hread⟩
  rw [execute, if_neg (not_not.2 hOK), if_neg hne, hrun]
  rfl

/-- Every call ends, and leaves a parser that is good or has an error. -/
theorem execute_total (settings : Settings) (h : parser.Good) (hlen : data.length < 2 ^ 31) :
    ∃ parser' n, parser.execute settings data = some (parser', n) ∧ parser'.Good ∧
      Returns data parser' n := by
  by_cases hOK : parser.core.httpErrno = .OK
  · by_cases hne : data = []
    · subst hne
      exact execute_nil settings h hOK
    · exact execute_cons settings h hOK hne hlen
  · rw [execute, if_pos hOK]
    exact ⟨parser, 0, rfl, h, .inl (Nat.zero_le _), .inr (.inl hOK)⟩

theorem init_good (t : HttpParserType) : (init t).Good := by
  intro _
  refine ⟨.of_plain rfl (Nat.zero_le _) (by cases t <;> rfl), fun _ => rfl, Nat.zero_le _⟩

/-- The parsers that calls lead to, with buffers shorter than 2^31 and callbacks that return
anything and leave the parser object alone. -/
inductive Reachable : HttpParser → Prop
  | init (t : HttpParserType) : Reachable (init t)
  | execute {parser parser' : HttpParser} {settings : Settings} {data : List UInt8} {n : ℕ}
    (h : Reachable parser) (hlen : data.length < 2 ^ 31)
    (hexecute : parser.execute settings data = some (parser', n)) : Reachable parser'

/-- A parser object that a program can have is good, or has an error. -/
theorem Reachable.good (h : Reachable parser) : parser.Good := by
  induction h with
  | init t => exact init_good t
  | execute _ hlen hexecute ih =>
    obtain ⟨parser'', k, hexecute', hgood, -⟩ := execute_total _ ih hlen
    rw [hexecute] at hexecute'
    cases hexecute'
    exact hgood

/-- Whatever bytes come in, in whatever pieces, and whatever the callbacks return: a call fails no
assertion, reads no more than it is given (at the end of the input it may return 1 with an error),
leaves bytes for an error or an upgrade alone, and does nothing behind an error. -/
theorem execute_safe (h : Reachable parser) (settings : Settings) (hlen : data.length < 2 ^ 31) :
    ∃ parser' n, parser.execute settings data = some (parser', n) ∧ Returns data parser' n ∧
      (parser.core.httpErrno ≠ .OK → parser' = parser ∧ n = 0) := by
  obtain ⟨parser', n, hexecute, -, hreturns⟩ := execute_total settings h.good hlen
  refine ⟨parser', n, hexecute, hreturns, fun herror => ?_⟩
  rw [execute, if_pos herror] at hexecute
  cases hexecute
  exact ⟨rfl, rfl⟩

/-- Callbacks that refuse everything. -/
theorem execute_safe_get :
    ∃ parser' n, (init .both).execute (fun _ _ => -1) (ascii "GET") = some (parser', n) ∧
      Returns (ascii "GET") parser' n ∧
      ((init .both).core.httpErrno ≠ .OK → parser' = init .both ∧ n = 0) :=
  execute_safe (.init .both) _ (by decide)

end HttpParser

end Netxy.Vendored
