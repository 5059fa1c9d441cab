import Netxy.Http.HttpParser
import Netxy.Http.Vendored.Callbacks
import Netxy.Http.Vendored.Url

/-!
# The vendored parser behind `HTTPParser`

`HTTPParser` is stated over any parser that makes some callbacks on a buffer. This is the one of
`http_parser.c`: what the object is after `http_parser_execute` with the callbacks of `HTTPParser`,
one of which may be refused in the middle, is what `httpParserExecute` makes of the callbacks that
there are when all of them are accepted.
-/

namespace Netxy.Vendored

/-! ## Callbacks that may be refused -/

/-- Each of the callbacks is answered with zero, after `before` and those in front of it. -/
def Heeds (settings : Settings) : List Callback → List Callback → Prop
  | _, [] => True
  | before, cb :: cbs => settings before cb = 0 ∧ Heeds settings (before ++ [cb]) cbs

/-- `log'` is what `settings` hear where `log` is heard with callbacks that return zero: all of it,
or up to the first callback that is refused. -/
def Cuts (settings : Settings) (before log log' : List Callback) : Prop :=
  (∃ new, log = before ++ new ∧ Heeds settings before new ∧ log' = log) ∨
    ∃ new cb rest, log = before ++ (new ++ cb :: rest) ∧ Heeds settings before new ∧
      settings (before ++ new) cb ≠ 0 ∧ log' = before ++ (new ++ [cb])

section Cuts
variable {settings : Settings} {before new rest log log' : List Callback}

/-- The later ones are answered after the earlier ones. -/
theorem heeds_append :
    Heeds settings before (new ++ rest) ↔
      Heeds settings before new ∧ Heeds settings (before ++ new) rest := by
  induction new generalizing before with
  | nil => simp [Heeds]
  | cons cb new ih =>
    rw [List.cons_append, Heeds, Heeds, ih, and_assoc, List.append_assoc, List.singleton_append]

/-- What is heard comes behind what was heard before. -/
theorem Cuts.grows (h : Cuts settings before log log') : ∃ new, log = before ++ new := by
  obtain ⟨new, hlog, -⟩ | ⟨new, cb, rest, hlog, -⟩ := h
  · exact ⟨_, hlog⟩
  · exact ⟨_, hlog⟩

/-- Nothing new is heard. -/
theorem Cuts.refl (log : List Callback) : Cuts settings log log log :=
  .inl ⟨[], (List.append_nil log).symm, trivial, rfl⟩

/-- What is heard behind callbacks that were answered with zero. -/
theorem Cuts.after (h : Cuts settings (before ++ new) log log')
    (hheeds : Heeds settings before new) : Cuts settings before log log' := by
  obtain ⟨new', rfl, hheeds', rfl⟩ | ⟨new', cb, rest, rfl, hheeds', hne, rfl⟩ := h
  · exact .inl ⟨new ++ new', List.append_assoc _ _ _, heeds_append.mpr ⟨hheeds, hheeds'⟩, rfl⟩
  · refine .inr ⟨new ++ new', cb, rest, ?_, heeds_append.mpr ⟨hheeds, hheeds'⟩, ?_, ?_⟩
    · simp only [List.append_assoc]
    · rwa [← List.append_assoc]
    · simp only [List.append_assoc]

end Cuts

/-- Callbacks that do not say that a message has no body. -/
def Settings.Plain (settings : Settings) : Prop :=
  ∀ before, settings before (.note .headersComplete) ≠ 1

/-- The callbacks so far, unless the step fails. -/
def Step.log? : Step → Option (List Callback)
  | .next m | .again m | .ret m _ => some m.log
  | .abort => none

/-- What a step that begins after the callbacks `before` may be with `settings`, where it is `step`
with callbacks that return zero: the same, or the end of the call where one is refused. -/
def Stops (settings : Settings) (before : List Callback) (step step' : Step) : Prop :=
  ∀ log, step.log? = some log →
    (∃ new, log = before ++ new ∧ Heeds settings before new ∧ step' = step) ∨
      ∃ m n, step' = .ret m n ∧ ∀ more, Cuts settings before (log ++ more) m.log

/-- What comes behind the step is heard if no callback of the step is refused. -/
theorem Stops.cuts {settings : Settings} {before log₁ log log' : List Callback} {step step' : Step}
    (h : Stops settings before step step') (hlog : step.log? = some log₁)
    (hcuts : Cuts settings log₁ log log') :
    (step' = step ∧ Cuts settings before log log') ∨
      ∃ m n, step' = .ret m n ∧ Cuts settings before log m.log := by
  obtain ⟨new, rfl, hheeds, hsame⟩ | ⟨m, n, hret, hrefused⟩ := h log₁ hlog
  · exact .inl ⟨hsame, hcuts.after hheeds⟩
  · obtain ⟨more, rfl⟩ := hcuts.grows
    exact .inr ⟨m, n, hret, hrefused more⟩

namespace Machine

variable {settings : Settings} {data : List UInt8} {m : Machine}

/-- A step that makes no callback. -/
theorem stops_of_log {step : Step} (h : step.log? = some m.log) :
    Stops settings m.log step step := by
  intro log hlog
  rw [h] at hlog
  cases hlog
  exact .inl ⟨[], (List.append_nil _).symm, trivial, rfl⟩

theorem stops_abort {log : List Callback} : Stops settings log .abort .abort :=
  fun _ h => by cases h

/-- One callback is accepted, or refused. -/
theorem answer_stops (hplain : settings.Plain) {cb : Callback} {er : ℕ} {k k' : Machine → Step}
    (hk : ∀ m', Stops settings m'.log (k m') (k' m')) :
    Stops settings m.log (m.answer allOk cb er k) (m.answer settings cb er k') := by
  have hok : m.answer allOk cb er k = k { m with log := m.log ++ [cb] } := rfl
  rw [hok]
  intro log hlog
  have hstops := hk { m with log := m.log ++ [cb] } log hlog
  unfold answer
  dsimp only
  split_ifs with hzero hone
  · have hheeds : Heeds settings m.log [cb] := ⟨hzero, trivial⟩
    obtain ⟨new, rfl, hnew, hsame⟩ | ⟨m', n, hret, hcuts⟩ := hstops
    · exact .inl ⟨[cb] ++ new, List.append_assoc _ _ _, heeds_append.mpr ⟨hheeds, hnew⟩, hsame⟩
    · exact .inr ⟨m', n, hret, fun more => (hcuts more).after hheeds⟩
  · exact absurd hone.1 (hone.2 ▸ hplain m.log)
  · -- the callback is refused, and what would have come behind it is not heard
    obtain ⟨new, rfl⟩ : ∃ new, log = m.log ++ [cb] ++ new := by
      obtain ⟨new, hnew, -⟩ | ⟨_, _, _, hcuts⟩ := hstops
      · exact ⟨new, hnew⟩
      · obtain ⟨new, hnew⟩ := (hcuts []).grows
        exact ⟨new, by rwa [List.append_nil] at hnew⟩
    refine .inr ⟨_, er, rfl, fun more => .inr ⟨[], cb, new ++ more, ?_, trivial, ?_, rfl⟩⟩
    · simp only [List.append_assoc, List.nil_append, List.cons_append]
    · rwa [List.append_nil]

theorem assertOk_stops {rest rest' : Step} (h : Stops settings m.log rest rest') :
    Stops settings m.log (m.assertOk rest) (m.assertOk rest') := by
  unfold assertOk
  split_ifs
  · exact h
  · exact stops_abort

/-- A data callback. -/
theorem dataCallback_stops (hplain : settings.Plain) {k : Mark} {stop er : ℕ}
    {next next' : Machine → Step} (hnext : ∀ m', Stops settings m'.log (next m') (next' m')) :
    Stops settings m.log (m.dataCallback allOk data k stop er next)
      (m.dataCallback settings data k stop er next') := by
  unfold dataCallback
  apply assertOk_stops
  cases m.marks k with
  | none => exact hnext m
  | some from_ => exact answer_stops hplain fun m' => hnext _

/-- A notification. -/
theorem notify_stops (hplain : settings.Plain) {n : Notify} {er : ℕ} {next : Machine → Step}
    (hnext : ∀ m', Stops settings m'.log (next m') (next m')) :
    Stops settings m.log (m.notify allOk n er next) (m.notify settings n er next) := by
  unfold notify
  split_ifs
  · exact answer_stops hplain hnext
  · exact assertOk_stops (answer_stops hplain hnext)

/-- Whichever callback a case makes. -/
theorem call_stops (hplain : settings.Plain) (c : Option Call) {next : Machine → Step}
    (hnext : ∀ m', Stops settings m'.log (next m') (next m')) :
    Stops settings m.log (m.call allOk data c next) (m.call settings data c next) := by
  cases c with
  | none => exact hnext m
  | some c =>
    cases c with
    | data k => exact dataCallback_stops hplain hnext
    | dataNoadvance k => exact dataCallback_stops hplain hnext
    | dataThrough k => exact dataCallback_stops hplain hnext
    | notify n => exact notify_stops hplain hnext
    | notifyNoadvance n => exact notify_stops hplain hnext

/-- Counting calls nobody. -/
theorem count_stops {n : ℕ} {k k' : Machine → Step}
    (hk : ∀ m', Stops settings m'.log (k m') (k' m')) :
    Stops settings m.log (m.count n k) (m.count n k') := by
  unfold count
  dsimp only
  split_ifs
  · exact stops_of_log rfl
  · exact hk { m with nread := (m.nread + n) % 2 ^ 32 }

/-- A mark calls nobody. -/
theorem log_mark (m : Machine) (k : Option Mark) : (m.mark k).log = m.log := by
  cases k with
  | none => rfl
  | some k =>
    unfold mark
    dsimp only
    split_ifs <;> rfl

/-- An action of `dispatch`. -/
theorem perform_stops (hplain : settings.Plain) (a : Action) :
    Stops settings m.log (m.perform allOk data a) (m.perform settings data a) := by
  have hmarked : ∀ log, (Machine.mark { m with
      core := a.core, nread := if a.resetNread then 0 else m.nread } a.mark).log = log →
      Stops settings log (m.perform allOk data a) (m.perform settings data a) := by
    rintro _ rfl
    unfold perform
    refine call_stops hplain a.call fun m' => ?_
    cases a.next with
    | advance | reexecute | error | exit => exact stops_of_log rfl
    | abort => exact stops_abort
  exact hmarked _ (log_mark _ _)

theorem headerField_stops (hplain : settings.Plain) :
    Stops settings m.log (headerField allOk data m) (headerField settings data m) := by
  unfold headerField
  split
  · exact stops_abort
  · refine count_stops (m := { m with core := _, p := m.p + _ }) fun m' => ?_
    dsimp only
    split
    · exact stops_of_log rfl
    · split_ifs
      · exact call_stops (m := { m' with core := _ }) hplain _ fun _ => stops_of_log rfl
      · exact stops_of_log rfl

theorem headerValue_stops (hplain : settings.Plain) :
    Stops settings m.log (headerValue allOk data m) (headerValue settings data m) := by
  unfold headerValue
  dsimp only
  cases valueLoop ((data.drop m.p).length + 1) m.core (data.drop m.p) with
  | abort => exact stops_abort
  | error c k e => exact stops_of_log rfl
  | cr c k =>
    exact call_stops (m := { m with core := _, p := _ }) hplain _ fun m' =>
      count_stops fun _ => stops_of_log rfl
  | lf c k =>
    exact count_stops (m := { m with core := _, p := _ }) fun m' =>
      call_stops hplain _ fun _ => stops_of_log rfl
  | stop c k => exact count_stops (m := { m with core := _, p := _ }) fun _ => stops_of_log rfl

theorem bodyIdentity_stops (hplain : settings.Plain) :
    Stops settings m.log (bodyIdentity allOk data m) (bodyIdentity settings data m) := by
  unfold bodyIdentity
  dsimp only
  rw [← log_mark m (some .body)]
  split_ifs
  · exact stops_abort
  · exact call_stops (m := { m.mark (some .body) with core := _, p := _ }) hplain _ fun _ =>
      stops_of_log rfl
  · exact stops_of_log rfl

theorem chunkData_stops : Stops settings m.log (chunkData data m) (chunkData data m) := by
  unfold chunkData
  dsimp only
  rw [← log_mark m (some .body)]
  split_ifs
  · exact stops_abort
  · exact stops_of_log rfl
  · exact stops_of_log rfl

/-- Each case of the `switch`. -/
theorem switch_stops (hplain : settings.Plain) (ch : UInt8) :
    Stops settings m.log (switch allOk data m ch) (switch settings data m ch) := by
  unfold switch
  split
  · exact headerField_stops hplain
  · exact headerValue_stops hplain
  · exact bodyIdentity_stops hplain
  · rw [← log_mark m (some .body)]
    exact stops_of_log rfl
  · exact chunkData_stops
  · exact perform_stops hplain _

/-- The callbacks behind the loop. -/
theorem flush_stops (hplain : settings.Plain) (ks : List Mark) :
    Stops settings m.log (flush allOk data ks m) (flush settings data ks m) := by
  induction ks generalizing m with
  | nil => exact stops_of_log rfl
  | cons k ks ih => exact dataCallback_stops hplain fun _ => ih

/-- One turn of the loop. -/
theorem turn_stops (hplain : settings.Plain) (fresh : Bool) :
    Stops settings m.log (turn allOk data fresh m) (turn settings data fresh m) := by
  unfold turn
  cases data[m.p]? with
  | none =>
    unfold finish
    dsimp only
    split_ifs
    · exact stops_abort
    · exact flush_stops hplain markOrder
  | some ch =>
    dsimp only
    split_ifs
    · exact count_stops fun _ => switch_stops hplain ch
    · exact switch_stops hplain ch

/-- A run goes on as its rest does, or ends where a callback of the turn is refused. -/
theorem run_of_turn (hplain : settings.Plain) {fuel : ℕ} {fresh : Bool} {log₁ log : List Callback}
    {rest : Option (Machine × ℕ)} (hlog : (turn allOk data fresh m).log? = some log₁)
    (hrest : ∃ m' n, rest = some (m', n) ∧ Cuts settings log₁ log m'.log)
    (hsame : turn settings data fresh m = turn allOk data fresh m →
      run settings data (fuel + 1) fresh m = rest) :
    ∃ m' n, run settings data (fuel + 1) fresh m = some (m', n) ∧
      Cuts settings m.log log m'.log := by
  obtain ⟨m₁, n₁, hrest, hcuts⟩ := hrest
  obtain ⟨hturn, hcuts⟩ | ⟨m₂, n₂, hret, hcuts⟩ := (turn_stops hplain fresh).cuts hlog hcuts
  · exact ⟨m₁, n₁, (hsame hturn).trans hrest, hcuts⟩
  · refine ⟨m₂, n₂, ?_, hcuts⟩
    rw [run, hret]

/-- A whole run is cut off at the first callback that is refused. -/
theorem run_stops (hplain : settings.Plain) {fuel : ℕ} {fresh : Bool} {m' : Machine} {n : ℕ}
    (h : run allOk data fuel fresh m = some (m', n)) :
    ∃ m'' n', run settings data fuel fresh m = some (m'', n') ∧
      Cuts settings m.log m'.log m''.log := by
  induction fuel generalizing m fresh with
  | zero => cases h
  | succ fuel ih =>
    rw [run] at h
    cases hstep : turn allOk data fresh m with
    | next m₁ =>
      rw [hstep] at h
      have hrest := ih (m := { m₁ with p := m₁.p + 1 }) h
      refine run_of_turn hplain (congrArg Step.log? hstep) hrest fun hsame => ?_
      rw [run, hsame, hstep]
    | again m₁ =>
      rw [hstep] at h
      have hrest := ih (m := m₁) h
      refine run_of_turn hplain (congrArg Step.log? hstep) hrest fun hsame => ?_
      rw [run, hsame, hstep]
    | ret m₁ k =>
      rw [hstep] at h
      cases h
      refine run_of_turn hplain (congrArg Step.log? hstep) ⟨m', n, rfl, .refl _⟩ fun hsame => ?_
      rw [run, hsame, hstep]
    | abort =>
      rw [hstep] at h
      cases h

end Machine

namespace HttpParser

variable {settings : Settings} {parser parser' : HttpParser} {data : List UInt8} {n : ℕ}

/-- At the end of the input there is the callback for a message that ends there, or none. -/
theorem execute_nil_cuts (h : parser.execute allOk [] = some (parser', n)) :
    ∃ parser'' n', parser.execute settings [] = some (parser'', n') ∧
      Cuts settings parser.log parser'.log parser''.log := by
  by_cases hOK : parser.core.httpErrno = .OK
  · rw [execute, if_neg (not_not.2 hOK), if_pos rfl] at h ⊢
    split at h <;> cases h
    case h_1 =>
      by_cases hzero : settings parser.log (.note .messageComplete) = 0
      · exact ⟨_, 0, if_pos hzero, .inl ⟨[_], rfl, ⟨hzero, trivial⟩, rfl⟩⟩
      · refine ⟨_, 0, if_neg hzero, .inr ⟨[], _, [], rfl, trivial, ?_, rfl⟩⟩
        rwa [List.append_nil]
    all_goals exact ⟨_, _, rfl, .refl _⟩
  · rw [execute, if_pos hOK] at h ⊢
    cases h
    exact ⟨parser, 0, rfl, .refl _⟩

/-- A call with callbacks that may be refused hears what one with callbacks that return zero hears,
up to the first that is refused. -/
theorem execute_cuts (hplain : settings.Plain)
    (h : parser.execute allOk data = some (parser', n)) :
    ∃ parser'' n', parser.execute settings data = some (parser'', n') ∧
      Cuts settings parser.log parser'.log parser''.log := by
  by_cases hne : data = []
  · subst hne
    exact execute_nil_cuts h
  · by_cases hOK : parser.core.httpErrno = .OK
    · rw [execute, if_neg (not_not.2 hOK), if_neg hne] at h ⊢
      obtain ⟨⟨m', k⟩, hrun, hm'⟩ := Option.bind_eq_some_iff.mp h
      cases hm'
      obtain ⟨m'', k', hrun', hcuts⟩ := Machine.run_stops hplain hrun
      exact ⟨_, k', Option.bind_eq_some_iff.mpr ⟨_, hrun', rfl⟩, hcuts⟩
    · rw [execute, if_pos hOK] at h ⊢
      cases h
      exact ⟨parser, 0, rfl, .refl _⟩

end HttpParser

/-! ## The callbacks of `HTTPParser` -/

/-- The callback as the handler of `HTTPParser` sees it; the others only return 0. -/
def parserEvent : Callback → Option ParserEvent
  | .data .url bytes => some (.onUrl bytes)
  | .data .status bytes => some (.onStatus bytes)
  | .data .headerField bytes => some (.onHeaderField bytes)
  | .data .headerValue bytes => some (.onHeaderValue bytes)
  | .data .body bytes => some (.onBody bytes)
  | .note _ => none

/-- The bytes of a field. -/
def slice (url : List UInt8) (e : Extent) : List UInt8 := (url.drop e.off).take e.len

/-- `http_parser.c` as the parser below `HTTPParser`. `behind` are the bytes that follow a URL in
the memory, which only the `strtoul` of a port that ends the URL gets to. -/
def vendoredParser (t : HttpParserType) (behind : List UInt8 → List UInt8) : VendoredParser where
  execute buffer :=
    match (HttpParser.init t).execute allOk buffer with
    | some (parser, _) => parser.log.filterMap parserEvent
    | none => []
  parseUrl url :=
    match httpParserParseUrl (url ++ behind url) url.length with
    | .ok u => some ⟨(u.fieldData .path).map (slice url), (u.fieldData .query).map (slice url)⟩
    | .error _ => none

open HTTPParser

variable {v : VendoredParser} {p : HTTPParser}

/-- The object after some callbacks; one that is refused leaves it as it is. -/
def heard (v : VendoredParser) (p : HTTPParser) (log : List Callback) : HTTPParser :=
  log.foldl (fun p cb => ((parserEvent cb).bind (handleEvent v p)).getD p) p

/-- `mSettings`, with the object `p` as the user data. -/
def mSettings (v : VendoredParser) (p : HTTPParser) : Settings := fun before cb =>
  match parserEvent cb with
  | some e => if (handleEvent v (heard v p before) e).isSome then 0 else -1
  | none => 0

/-- `sHeadComplete` returns 0. -/
theorem plain_mSettings : (mSettings v p).Plain := by
  intro before h
  cases h

/-- The last callback is handled by the object that the others left. -/
theorem heard_concat (log : List Callback) (cb : Callback) :
    heard v p (log ++ [cb]) =
      ((parserEvent cb).bind (handleEvent v (heard v p log))).getD (heard v p log) := by
  rw [heard, List.foldl_append]
  rfl

/-- Where all of the callbacks are accepted, `httpParserExecute` handles them like the object. -/
theorem httpParserExecute_heeds {before new : List Callback} (rest : List Callback)
    (h : Heeds (mSettings v p) before new) :
    httpParserExecute v (heard v p before) ((new ++ rest).filterMap parserEvent) =
      httpParserExecute v (heard v p (before ++ new)) (rest.filterMap parserEvent) := by
  induction new generalizing before with
  | nil => rw [List.append_nil, List.nil_append]
  | cons cb new ih =>
    obtain ⟨hcb, hnew⟩ := h
    have hstep := ih hnew
    rw [List.append_assoc, List.singleton_append, heard_concat] at hstep
    rw [← hstep, List.cons_append]
    unfold mSettings at hcb
    cases hevent : parserEvent cb with
    | none => rw [List.filterMap_cons_none hevent]; rfl
    | some e =>
      rw [hevent] at hcb
      dsimp only at hcb
      rw [List.filterMap_cons_some hevent, httpParserExecute, Option.bind_some]
      cases hhandle : handleEvent v (heard v p before) e with
      | none =>
        rw [hhandle] at hcb
        cases hcb
      | some p' => rfl

/-- The callback that is refused is the last that is handled. -/
theorem httpParserExecute_refused {before rest : List Callback} {cb : Callback}
    (h : mSettings v p before cb ≠ 0) :
    httpParserExecute v (heard v p before) ((cb :: rest).filterMap parserEvent) =
      heard v p (before ++ [cb]) := by
  rw [heard_concat]
  unfold mSettings at h
  cases hevent : parserEvent cb with
  | none =>
    rw [hevent] at h
    exact absurd rfl h
  | some e =>
    rw [hevent] at h
    dsimp only at h
    rw [List.filterMap_cons_some hevent, httpParserExecute, Option.bind_some]
    cases hhandle : handleEvent v (heard v p before) e with
    | none => rfl
    | some p' =>
      rw [hhandle] at h
      exact absurd rfl h

/-- The object hears what `httpParserExecute` handles. -/
theorem heard_cuts {log log' : List Callback} (h : Cuts (mSettings v p) [] log log') :
    heard v p log' = httpParserExecute v p (log.filterMap parserEvent) := by
  obtain ⟨new, rfl, hheeds, rfl⟩ | ⟨new, cb, rest, rfl, hheeds, hne, rfl⟩ := h
  · have hall := httpParserExecute_heeds [] hheeds
    rw [List.append_nil] at hall
    exact hall.symm
  · have hfront := httpParserExecute_heeds (cb :: rest) hheeds
    rw [httpParserExecute_refused hne] at hfront
    rw [List.nil_append, List.nil_append]
    rw [List.nil_append] at hfront
    exact hfront.symm

/-- **`HTTPParser` over the vendored parser.** With the callbacks of the object, which may refuse a
URL in the middle of the buffer, `http_parser_execute` leaves the object as `httpParserExecute` does
with the callbacks that there are when all are accepted. -/
theorem heard_execute (t : HttpParserType) (behind : List UInt8 → List UInt8) (p : HTTPParser)
    {buffer : List UInt8} (hlen : buffer.length < 2 ^ 31) :
    ∃ parser n, (HttpParser.init t).execute (mSettings (vendoredParser t behind) p) buffer =
        some (parser, n) ∧
      heard (vendoredParser t behind) p parser.log = httpParserExecute (vendoredParser t behind) p
        ((vendoredParser t behind).execute buffer) := by
  obtain ⟨parser, n, hall, -⟩ := HttpParser.execute_total allOk (HttpParser.init_good t) hlen
  obtain ⟨parser', n', hexecute, hcuts⟩ := HttpParser.execute_cuts plain_mSettings hall
  refine ⟨parser', n', hexecute, ?_⟩
  have hevents : (vendoredParser t behind).execute buffer = parser.log.filterMap parserEvent := by
    simp only [vendoredParser, hall]
  rw [hevents]
  exact heard_cuts hcuts

/-- `tryParse` on a complete message, with the parser object and its callbacks. -/
theorem tryParse_vendored (t : HttpParserType) (behind : List UInt8 → List UInt8) {p : HTTPParser}
    {buffer : List UInt8} (hp : p.isCompleted = false)
    (hcompleted : checkCompleted buffer = .ok true) (hlen : buffer.length < 2 ^ 31) :
    ∃ parser n,
      (HttpParser.init t).execute
        (mSettings (vendoredParser t behind) { p with isCompleted := true }) buffer =
          some (parser, n) ∧
      let p' := heard (vendoredParser t behind) { p with isCompleted := true } parser.log
      tryParse (vendoredParser t behind) p buffer = .ok (buffer.length,
        { p' with
          isWebSocket := p'.getValue (CString.ascii "Upgrade") = CString.ascii "websocket"
          isKeepAlive := !(p'.getValue (CString.ascii "Keep-Alive")).isEmpty
          tmpHeadStr := [] }) := by
  obtain ⟨parser, n, hexecute, hheard⟩ :=
    heard_execute t behind { p with isCompleted := true } hlen
  refine ⟨parser, n, hexecute, ?_⟩
  dsimp only
  rw [hheard, tryParse, hp, hcompleted]
  rfl

end Netxy.Vendored
