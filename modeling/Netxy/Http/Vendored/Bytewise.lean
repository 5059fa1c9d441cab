import Netxy.Http.Vendored.Execute

/-!
# The vendored parser byte by byte

What the parser says is a matter of the bytes, not of the buffers they come in. A `Stream` is
the parser object with the data of the callback it is in the middle of, `feed` gives it bytes
one at a time. `bytewise_ok` is all that the proofs need to know of a single case: it fails no
assertion, keeps `Core.Good`, uses the one mark that belongs to its state and goes down in
`rank` when the byte is looked at again.
-/

namespace Netxy.Vendored

/-! ## One byte -/

/-- The action at a byte: `dispatch`, and one turn of the cases with loops. -/
def bytewise (c : Core) (ch : UInt8) : Action :=
  match c.state with
  | .headerField =>
    if token ch ≠ 0 then
      match fieldChar c ch with
      | some c => .advance c
      | none => .abort c
    else if ch = 58 then
      ⟨{ c with state := .headerValueDiscardWs }, none, false, some (.data .headerField), .advance⟩
    else .fail c .INVALID_HEADER_TOKEN
  | .headerValue =>
    if ch = CR then
      ⟨{ c with state := .headerAlmostDone }, none, false, some (.data .headerValue), .advance⟩
    else if ch = LF then
      ⟨{ c with state := .headerAlmostDone }, none, false, some (.dataNoadvance .headerValue),
        .reexecute⟩
    else
      match valueChar c ch with
      | .ok c => .advance c
      | .error e => .fail c e
      | .abort => .abort c
  | .bodyIdentity =>
    if c.contentLength = 0 ∨ c.contentLength = ULLONG_MAX then .abort c
    else if c.contentLength = 1 then
      ⟨{ c with contentLength := 0, state := .messageDone }, some .body, false,
        some (.dataThrough .body), .reexecute⟩
    else ⟨{ c with contentLength := c.contentLength - 1 }, some .body, false, none, .advance⟩
  | .bodyIdentityEof => ⟨c, some .body, false, none, .advance⟩
  | .chunkData =>
    if ¬ c.flags.chunked ∨ c.contentLength = 0 ∨ c.contentLength = ULLONG_MAX then .abort c
    else if c.contentLength = 1 then
      ⟨{ c with contentLength := 0, state := .chunkDataAlmostDone }, some .body, false, none,
        .advance⟩
    else ⟨{ c with contentLength := c.contentLength - 1 }, some .body, false, none, .advance⟩
  | _ => dispatch c 1 ch

/-- The parser object, the span of the callback that is open, and the callbacks so far. -/
structure Stream where
  core : Core
  span : Option (Mark × List UInt8)
  log : List Callback

namespace Stream

/-- A span is opened where none is open. -/
def mark (s : Stream) (k : Option Mark) : Stream :=
  { s with span := s.span.or (k.map fun k => (k, [])) }

/-- The callback of the open span, if it is one of kind `k`. -/
def spanCallback (s : Stream) (k : Mark) (more : List UInt8) : Stream :=
  match s.span with
  | some (k', bytes) =>
    if k' = k then { s with span := none, log := s.log ++ [.data k (bytes ++ more)] } else s
  | none => s

/-- The callback of a case, at the byte `ch`. -/
def call (s : Stream) (ch : UInt8) : Option Call → Stream
  | none => s
  | some (.data k) => s.spanCallback k []
  | some (.dataNoadvance k) => s.spanCallback k []
  | some (.dataThrough k) => s.spanCallback k [ch]
  | some (.notify n) => { s with log := s.log ++ [.note n] }
  | some (.notifyNoadvance n) => { s with log := s.log ++ [.note n] }

/-- The mark and the callback of an action. -/
def perform (s : Stream) (ch : UInt8) (a : Action) : Stream :=
  (({ s with core := a.core } : Stream).mark a.mark).call ch a.call

/-- The byte belongs to the span that is open. -/
def append (s : Stream) (ch : UInt8) : Stream :=
  { s with span := s.span.map fun r => (r.1, r.2 ++ [ch]) }

/-- Where a byte stream stands: in front of the bytes that are left, or stopped by an error or
an upgrade. -/
inductive Config
  | running (s : Stream) (rest : List UInt8)
  | stopped (s : Stream) (rest : List UInt8)

/-- One action; `none` at the end of the bytes, behind a stop and in an assertion that fails. -/
def step : Config → Option Config
  | .stopped _ _ => none
  | .running _ [] => none
  | .running s (ch :: rest) =>
    let a := bytewise s.core ch
    let t := s.perform ch a
    match a.next with
    | .advance => some (.running (t.append ch) rest)
    | .reexecute => some (.running t (ch :: rest))
    | .error => some (.stopped t (ch :: rest))
    | .exit => some (.stopped t rest)
    | .abort => none

end Stream

/-! ## The invariant of the parser object -/

/-- The header states of the loop over a field name. -/
def HeaderState.inField : HeaderState → Bool
  | .general | .C | .CO | .CON | .matchingConnection | .matchingProxyConnection
  | .matchingContentLength | .matchingTransferEncoding | .matchingUpgrade | .connection
  | .contentLength | .transferEncoding | .upgrade => true
  | _ => false

/-- The header states of the loop over a value. -/
def HeaderState.inValue : HeaderState → Bool
  | .connection | .transferEncoding => false
  | _ => true

/-- What a state requires of the other fields. -/
def Core.StateOk (c : Core) : Prop :=
  match c.state with
  | .reqMethod => c.index ≤ (methodString c.method).length
  | .headerField => c.headerState.inField = true
  | .headerValue => c.headerState.inValue = true
  | .bodyIdentity => c.contentLength ≠ 0 ∧ c.contentLength ≠ ULLONG_MAX
  | .chunkSizeStart | .chunkDataDone => c.flags.chunked = true
  | .chunkSize | .chunkParameters | .chunkSizeAlmostDone =>
    c.flags.chunked = true ∧ c.contentLength ≠ ULLONG_MAX
  | .chunkData => c.flags.chunked = true ∧ c.contentLength ≠ 0 ∧ c.contentLength ≠ ULLONG_MAX
  | .chunkDataAlmostDone => c.flags.chunked = true ∧ c.contentLength = 0
  | _ => True

/-- The states that require nothing of the other fields. -/
def State.plain : State → Bool
  | .reqMethod | .headerField | .headerValue | .bodyIdentity | .chunkSizeStart | .chunkDataDone
  | .chunkSize | .chunkParameters | .chunkSizeAlmostDone | .chunkData | .chunkDataAlmostDone =>
    false
  | _ => true

/-- What holds of the parser between two bytes. -/
structure Core.Good (c : Core) : Prop where
  errno : c.httpErrno = .OK
  length : c.contentLength ≤ ULLONG_MAX
  stateOk : c.StateOk

/-- The spans that may be open in a state. -/
def Opens (s : State) (k : Option Mark) : Prop :=
  match s with
  | .bodyIdentity | .bodyIdentityEof | .chunkData | .chunkDataAlmostDone =>
    k = none ∨ k = some .body
  | _ => k = Machine.startMark s

/-- A bound on how often a byte is looked at again. -/
def State.rank : State → ℕ
  | .headerValueLws | .headerValueDiscardLws => 3
  | .headerFieldStart => 2
  | .headersAlmostDone | .headerValue | .bodyIdentity | .startReqOrRes => 1
  | _ => 0

namespace Action

/-- The mark of a data callback. -/
def dataMark (a : Action) : Option Mark :=
  match a.call with
  | some (.data k) | some (.dataNoadvance k) | some (.dataThrough k) => some k
  | _ => none

/-- The span that is open behind the mark. -/
def marked (a : Action) (k : Option Mark) : Option Mark := k.or a.mark

/-- The span that is open behind the callback. -/
def left (a : Action) (k : Option Mark) : Option Mark :=
  if a.dataMark.isSome then none else a.marked k

/-- What an action of the parser in the state `s`, with the span `k` open, can do. -/
structure Ok (s : State) (k : Option Mark) (a : Action) : Prop where
  runs : a.next ≠ .abort
  mark : ∀ m, a.mark = some m → k = none ∨ k = some m
  call : ∀ m, a.dataMark = some m → a.marked k = none ∨ a.marked k = some m
  goes : a.next = .advance ∨ a.next = .reexecute → a.core.Good ∧ Opens a.core.state (a.left k)
  rank : a.next = .reexecute → a.core.state.rank < s.rank ∧ a.core.state ≠ .chunkSizeStart
  nread : a.next = .advance → a.core.state = .chunkSizeStart → a.resetNread = true
  fails : a.next = .error → a.core.httpErrno ≠ .OK ∧ a.call = none
  exits : a.next = .exit →
    a.core.Good ∧ a.core.state.plain = true ∧ a.core.upgrade = true ∧ a.left k = none

variable {s : State} {k : Option Mark} {a : Action} {c : Core}

/-- A callback is only made where no error is set. -/
theorem Ok.errno (h : Ok s k a) (hcall : a.call ≠ none) : a.core.httpErrno = .OK := by
  cases hnext : a.next with
  | advance => exact (h.goes (.inl hnext)).1.errno
  | reexecute => exact (h.goes (.inr hnext)).1.errno
  | error => exact absurd (h.fails hnext).2 hcall
  | exit => exact (h.exits hnext).1.errno
  | abort => exact absurd hnext h.runs

/-- A case that goes on to the next byte. -/
theorem Ok.of_advance (hnext : a.next = .advance)
    (hmark : ∀ m, a.mark = some m → k = none ∨ k = some m)
    (hcall : ∀ m, a.dataMark = some m → a.marked k = none ∨ a.marked k = some m)
    (hgood : a.core.Good) (hopens : Opens a.core.state (a.left k))
    (hnread : a.core.state = .chunkSizeStart → a.resetNread = true) : Ok s k a where
  runs := by rw [hnext]; decide
  mark := hmark
  call := hcall
  goes := fun _ => ⟨hgood, hopens⟩
  rank := by rw [hnext]; intro h; cases h
  nread := fun _ => hnread
  fails := by rw [hnext]; intro h; cases h
  exits := by rw [hnext]; intro h; cases h

/-- A case that looks at the byte again, in a state of lower rank. -/
theorem Ok.of_reexecute (hnext : a.next = .reexecute)
    (hmark : ∀ m, a.mark = some m → k = none ∨ k = some m)
    (hcall : ∀ m, a.dataMark = some m → a.marked k = none ∨ a.marked k = some m)
    (hgood : a.core.Good) (hopens : Opens a.core.state (a.left k))
    (hrank : a.core.state.rank < s.rank ∧ a.core.state ≠ .chunkSizeStart) : Ok s k a where
  runs := by rw [hnext]; decide
  mark := hmark
  call := hcall
  goes := fun _ => ⟨hgood, hopens⟩
  rank := fun _ => hrank
  nread := by rw [hnext]; intro h; cases h
  fails := by rw [hnext]; intro h; cases h
  exits := by rw [hnext]; intro h; cases h

/-- The end of a message behind which nothing is read. -/
theorem Ok.of_exit (hnext : a.next = .exit) (hmark : a.mark = none) (hcall : a.dataMark = none)
    (hgood : a.core.Good) (hplain : a.core.state.plain = true) (hupgrade : a.core.upgrade = true)
    (hk : k = none) : Ok s k a where
  runs := by rw [hnext]; decide
  mark := by rw [hmark]; intro m hm; cases hm
  call := by rw [hcall]; intro m hm; cases hm
  goes := by rw [hnext]; intro h; rcases h with h | h <;> cases h
  rank := by rw [hnext]; intro h; cases h
  nread := by rw [hnext]; intro h; cases h
  fails := by rw [hnext]; intro h; cases h
  exits := fun _ => ⟨hgood, hplain, hupgrade, by rw [left, hcall, marked, hmark, hk]; rfl⟩

/-- An error, whatever was marked for it. -/
theorem Ok.of_error (hnext : a.next = .error)
    (hmark : ∀ m, a.mark = some m → k = none ∨ k = some m) (hcall : a.call = none)
    (herrno : a.core.httpErrno ≠ .OK) : Ok s k a where
  runs := by rw [hnext]; decide
  mark := hmark
  call := by
    intro m hm
    rw [dataMark, hcall] at hm
    cases hm
  goes := by rw [hnext]; intro h; rcases h with h | h <;> cases h
  rank := by rw [hnext]; intro h; cases h
  nread := by rw [hnext]; intro h; cases h
  fails := fun _ => ⟨herrno, hcall⟩
  exits := by rw [hnext]; intro h; cases h

/-- An error asks for nothing. -/
theorem Ok.fail {e : HttpErrno} (he : e ≠ .OK) : Ok s k (fail c e) :=
  Ok.of_error rfl (by intro m hm; cases hm) rfl he

/-- Without a mark or a callback the span stays as it is. -/
theorem left_of_quiet (hmark : a.mark = none) (hcall : a.dataMark = none) : a.left k = k := by
  rw [left, hcall, marked, hmark]
  exact Option.or_none

/-- A case that only changes the state. -/
theorem Ok.advance (hc : c.Good) (hk : Opens c.state k) (hs : c.state ≠ .chunkSizeStart) :
    Ok s k (advance c) :=
  Ok.of_advance rfl (by intro m hm; cases hm) (by intro m hm; cases hm) hc
    (by rwa [left_of_quiet rfl rfl]) fun h => absurd h hs

/-- A case that only hands the byte on. -/
theorem Ok.reexecute (hc : c.Good) (hk : Opens c.state k)
    (hs : c.state.rank < s.rank ∧ c.state ≠ .chunkSizeStart) : Ok s k (reexecute c) :=
  Ok.of_reexecute rfl (by intro m hm; cases hm) (by intro m hm; cases hm) hc
    (by rwa [left_of_quiet rfl rfl]) hs

/-- A check that is only made where `HTTP_PARSER_STRICT` is set. -/
theorem Ok.strict {cond : Bool} (h : Ok s k a) : Ok s k (strict cond c a) := by
  unfold Action.strict
  split_ifs
  · exact Ok.fail (by decide)
  · exact h

/-- An assertion that holds. -/
theorem Ok.assert {cond : Bool} (hcond : cond = true) (h : Ok s k a) :
    Ok s k (assert cond c a) := by
  rw [Action.assert, if_pos hcond]
  exact h

/-- A byte that starts a span. -/
theorem Ok.marks {m : Mark} (hk : k = none ∨ k = some m) (hc : c.Good)
    (hopens : Opens c.state (some m)) (hs : c.state ≠ .chunkSizeStart) :
    Ok s k ⟨c, some m, false, none, .advance⟩ := by
  refine Ok.of_advance rfl (by intro m' hm; cases hm; exact hk) (by intro m' hm; cases hm) hc ?_
    fun h => absurd h hs
  rcases hk with rfl | rfl <;> exact hopens

/-- A byte that ends a span. -/
theorem Ok.calls {m : Mark} (hk : k = none ∨ k = some m) (hc : c.Good)
    (hopens : Opens c.state none) (hs : c.state ≠ .chunkSizeStart) :
    Ok s k ⟨c, none, false, some (.data m), .advance⟩ := by
  refine Ok.of_advance rfl (by intro m' hm; cases hm) ?_ hc hopens fun h => absurd h hs
  intro m' hm
  cases hm
  rcases hk with rfl | rfl
  · exact Or.inl rfl
  · exact Or.inr rfl

/-- A byte with a callback without data. -/
theorem Ok.notifies {n : Notify} {reset : Bool} (hc : c.Good) (hopens : Opens c.state k)
    (hs : c.state = .chunkSizeStart → reset = true) :
    Ok s k ⟨c, none, reset, some (.notify n), .advance⟩ :=
  Ok.of_advance rfl (by intro m hm; cases hm) (by intro m hm; cases hm) hc
    (by rwa [left_of_quiet rfl rfl]) hs

end Action

/-! ## Every case keeps the invariant -/

open Vendored.Action

/-- A state that asks for nothing of its own. -/
theorem Core.Good.of_plain {c : Core} (herrno : c.httpErrno = .OK)
    (hlength : c.contentLength ≤ ULLONG_MAX) (hstate : c.state.plain = true) : c.Good := by
  refine ⟨herrno, hlength, ?_⟩
  unfold Core.StateOk
  split <;> rename_i heq <;> first | trivial | (rw [heq] at hstate; cases hstate)

variable {c : Core} {k : Option Mark} {ch : UInt8}

/-- A case that goes on in a state that requires nothing. -/
theorem advance_ok {s : State} (hc : c.Good) (hplain : c.state.plain = true)
    (hk : Opens c.state k) : Ok s k (advance c) := by
  refine Ok.advance hc hk ?_
  intro h
  rw [h] at hplain
  cases hplain

/-- One character is wanted, and another one is an error. -/
theorem expect_ok {want : UInt8} {s t : State} (hc : c.Good) (ht : t.plain = true)
    (hk : Opens t k) : Ok s k (expect c ch want t) :=
  Ok.strict (advance_ok (.of_plain hc.errno hc.length ht) ht hk)

theorem startReq_ok (hc : c.Good) (hs : c.state = .startReq) :
    Ok .startReq none (startReq c ch) := by
  unfold startReq
  split_ifs
  · exact advance_ok hc (by rw [hs]; rfl) (by rw [hs]; rfl)
  · cases firstMethod ch with
    | none => exact Ok.fail (by decide)
    | some method =>
      refine Ok.notifies ⟨hc.errno, le_refl _, ?_⟩ rfl (by intro h; cases h)
      -- every method has at least one character
      show 1 ≤ (methodString method).length
      cases method <;> decide
  · exact Ok.fail (by decide)

/-- The first byte decides which of the two it is. -/
theorem startReqOrRes_ok (hc : c.Good) (hs : c.state = .startReqOrRes) :
    Ok .startReqOrRes none (startReqOrRes c ch) := by
  unfold startReqOrRes
  split_ifs
  · exact advance_ok hc (by rw [hs]; rfl) (by rw [hs]; rfl)
  · exact Ok.notifies (.of_plain hc.errno (le_refl _) rfl) rfl (by intro h; cases h)
  · exact Ok.reexecute (.of_plain hc.errno (le_refl _) rfl) rfl
      ⟨show 0 < 1 by decide, by intro h; cases h⟩

/-- `H` may still begin either. -/
theorem resOrRespH_ok (hc : c.Good) : Ok .resOrRespH none (resOrRespH c ch) := by
  unfold resOrRespH
  split_ifs
  · exact advance_ok (.of_plain hc.errno hc.length rfl) rfl rfl
  · exact Ok.fail (by decide)
  · exact Ok.advance ⟨hc.errno, hc.length, show 2 ≤ 4 by decide⟩ rfl (by intro h; cases h)

theorem startRes_ok (hc : c.Good) (hs : c.state = .startRes) :
    Ok .startRes none (startRes c ch) := by
  unfold startRes
  dsimp only
  split_ifs
  · exact Ok.notifies (.of_plain hc.errno (le_refl _) rfl) rfl (by intro h; cases h)
  · refine Ok.notifies (.of_plain hc.errno (le_refl _) ?_) ?_ ?_
    all_goals
      show _
      simp only [hs]
    · rfl
    · rfl
    · intro h; cases h
  · exact Ok.fail (by decide)

/-- A method that is changed still has characters to come. -/
theorem changeMethod_lt {method new : HttpMethod} {index : ℕ}
    (h : changeMethod method index ch = some new) : index < (methodString new).length := by
  unfold changeMethod at h
  split at h <;> (try split_ifs at h) <;> cases h <;>
    first
    | exact Nat.lt_of_lt_of_le (show index < 3 by omega) (by decide)
    | exact Nat.lt_of_lt_of_le (show index < 5 by omega) (by decide)

/-- The index of a character in a method fits its type. -/
theorem length_methodString_lt (method : HttpMethod) : (methodString method).length < 255 := by
  cases method <;> decide

/-- The characters of a method. -/
theorem reqMethod_ok (hc : c.Good) (hs : c.state = .reqMethod) :
    Ok .reqMethod none (reqMethod c ch) := by
  have hindex : c.index ≤ (methodString c.method).length := by
    have h := hc.stateOk
    rwa [Core.StateOk, hs] at h
  have hmod : (c.index + 1) % 256 = c.index + 1 := by
    have hlt := length_methodString_lt c.method
    omega
  have hbound : c.index < (methodString c.method ++ [0]).length := by
    rw [List.length_append, List.length_singleton]
    omega
  have hget := List.getElem?_eq_getElem hbound
  by_cases h0 : ch = 0
  · rw [reqMethod, if_pos h0]
    exact Ok.fail (by decide)
  · simp only [reqMethod, if_neg h0, hget, hmod]
    split_ifs with hspace hnext
    · exact advance_ok (.of_plain hc.errno hc.length rfl) rfl rfl
    · -- the character is not the zero at the end of the method
      have hlt : c.index < (methodString c.method).length := by
        by_contra hge
        have heq : c.index = (methodString c.method).length := by omega
        apply h0
        rw [hnext]
        simp only [heq]
        exact List.getElem_concat_length rfl _
      refine Ok.advance ⟨hc.errno, hc.length, ?_⟩ (by show Opens c.state none; rw [hs]; rfl)
        (by show c.state ≠ _; rw [hs]; decide)
      show Core.StateOk _
      unfold Core.StateOk
      simp only [hs]
      omega
    · split
      · rename_i new hnew
        have hlt := changeMethod_lt hnew
        refine Ok.advance ⟨hc.errno, hc.length, ?_⟩ (by show Opens c.state none; rw [hs]; rfl)
          (by show c.state ≠ _; rw [hs]; decide)
        show Core.StateOk _
        unfold Core.StateOk
        simp only [hs]
        omega
      · exact Ok.fail (by decide)

/-! ### The URL -/

/-- The URL automaton stays in states with an open URL, or fails. -/
theorem parseUrlChar_eq (s : State) (ch : UInt8) :
    parseUrlChar s ch = .dead ∨ Machine.startMark (parseUrlChar s ch) = some .url := by
  have hserver : parseServerChar ch = .dead ∨
      Machine.startMark (parseServerChar ch) = some .url := by
    unfold parseServerChar
    split_ifs <;> first | exact Or.inl rfl | exact Or.inr rfl
  unfold parseUrlChar
  by_cases hblank : ch = 32 ∨ ch = CR ∨ ch = LF
  · rw [if_pos hblank]
    exact Or.inl rfl
  · by_cases htab : ch = 9 ∨ ch = 12
    · rw [if_neg hblank, if_pos htab]
      exact Or.inl rfl
    · rw [if_neg hblank, if_neg htab]
      cases s <;> dsimp only <;> (try split_ifs) <;>
        first | exact hserver | exact Or.inl rfl | exact Or.inr rfl

/-- Such a state goes on with the span of the URL. -/
theorem opens_of_startMark_url {s : State} (h : Machine.startMark s = some .url) :
    s.plain = true ∧ Opens s (some .url) := by
  cases s <;> first | exact ⟨rfl, rfl⟩ | cases h

/-- A character of the URL, with the mark that opens it or behind it. -/
theorem urlChar_ok {s : State} {m : Option Mark} (hc : c.Good)
    (hm : m = some .url ∧ k = none ∨ m = none ∧ k = some .url) : Ok s k (urlChar c ch m) := by
  have hmark : ∀ m', m = some m' → k = none ∨ k = some m' := by
    rcases hm with ⟨-, rfl⟩ | ⟨rfl, -⟩
    · exact fun _ _ => Or.inl rfl
    · intro m' h; cases h
  have hk : k.or m = some .url := by rcases hm with ⟨rfl, rfl⟩ | ⟨rfl, rfl⟩ <;> rfl
  unfold urlChar
  rcases parseUrlChar_eq c.state ch with hdead | hurl
  · simp only [hdead, if_true]
    exact Ok.of_error rfl hmark rfl (by intro h; cases h)
  · obtain ⟨hplain, hopens⟩ := opens_of_startMark_url hurl
    have hne : parseUrlChar c.state ch ≠ .dead := by intro h; rw [h] at hurl; cases hurl
    simp only [if_neg hne]
    refine Ok.of_advance rfl hmark (by intro m' h; cases h)
      (.of_plain hc.errno hc.length hplain) ?_ ?_
    · show Opens (parseUrlChar c.state ch) (k.or m)
      rwa [hk]
    · intro h
      rw [show parseUrlChar c.state ch = _ from h] at hplain
      cases hplain

/-- The first character of the URL opens its span. -/
theorem reqSpacesBeforeUrl_ok (hc : c.Good) (hs : c.state = .reqSpacesBeforeUrl) :
    Ok .reqSpacesBeforeUrl none (reqSpacesBeforeUrl c ch) := by
  unfold reqSpacesBeforeUrl
  split_ifs
  · exact advance_ok hc (by rw [hs]; rfl) (by rw [hs]; rfl)
  · exact urlChar_ok (.of_plain hc.errno hc.length rfl) (Or.inl ⟨rfl, rfl⟩)
  · exact urlChar_ok hc (Or.inl ⟨rfl, rfl⟩)

/-- The URL may not end here. -/
theorem urlStart_ok {s : State} (hc : c.Good) : Ok s (some .url) (urlStart c ch) := by
  unfold urlStart
  split_ifs
  · exact Ok.fail (by decide)
  · exact urlChar_ok hc (Or.inr ⟨rfl, rfl⟩)

/-- A blank or the end of the line closes the span. -/
theorem urlRest_ok {s : State} (hc : c.Good) : Ok s (some .url) (urlRest c ch) := by
  unfold urlRest
  split_ifs with _ _ hcr
  · exact Ok.calls (Or.inr rfl) (.of_plain hc.errno hc.length rfl) rfl (by intro h; cases h)
  · exact Ok.calls (Or.inr rfl) (.of_plain hc.errno hc.length rfl) rfl (by intro h; cases h)
  · exact Ok.calls (Or.inr rfl) (.of_plain hc.errno hc.length rfl) rfl (by intro h; cases h)
  · exact urlChar_ok hc (Or.inr ⟨rfl, rfl⟩)

/-! ### Versions and status codes -/

theorem reqHttpStart_ok (hc : c.Good) (hs : c.state = .reqHttpStart) :
    Ok .reqHttpStart none (reqHttpStart c ch) := by
  unfold reqHttpStart
  split_ifs
  · exact advance_ok (.of_plain hc.errno hc.length rfl) rfl rfl
  · exact advance_ok hc (by rw [hs]; rfl) (by rw [hs]; rfl)
  · exact Ok.fail (by decide)

/-- A digit more, unless the number grows too large. -/
theorem moreDigits_ok {s : State} {n : ℕ} {put : Core → ℕ → Core} {e : HttpErrno} (he : e ≠ .OK)
    (hput : ∀ n, (put c n).Good ∧ (put c n).state.plain = true ∧ Opens (put c n).state k) :
    Ok s k (moreDigits c ch n put e) := by
  obtain ⟨hgood, hplain, hopens⟩ := hput (n * 10 + digit ch)
  unfold moreDigits
  split_ifs
  · dsimp only
    split_ifs
    · exact Ok.fail he
    · exact advance_ok hgood hplain hopens
  · exact Ok.fail he

/-- The major version. -/
theorem httpMajor_ok {s t : State} (hc : c.Good) (hplain : c.state.plain = true)
    (hk : Opens c.state none) (ht : t.plain = true) (htk : Opens t none) :
    Ok s none (httpMajor c ch t) := by
  unfold httpMajor
  split_ifs
  · exact advance_ok (.of_plain hc.errno hc.length ht) ht htk
  · exact moreDigits_ok (by decide) fun n => ⟨.of_plain hc.errno hc.length hplain, hplain, hk⟩

theorem firstHttpMinor_ok {s t : State} (hc : c.Good) (ht : t.plain = true)
    (htk : Opens t none) : Ok s none (firstHttpMinor c ch t) := by
  unfold firstHttpMinor
  split_ifs
  · exact advance_ok (.of_plain hc.errno hc.length ht) ht htk
  · exact Ok.fail (by decide)

theorem moreHttpMinor_ok {s : State} (hc : c.Good) (hplain : c.state.plain = true)
    (hk : Opens c.state none) : Ok s none (moreHttpMinor c ch) :=
  moreDigits_ok (by decide) fun _ => ⟨.of_plain hc.errno hc.length hplain, hplain, hk⟩

/-- The first digit of the status. -/
theorem resFirstStatusCode_ok (hc : c.Good) (hs : c.state = .resFirstStatusCode) :
    Ok .resFirstStatusCode none (resFirstStatusCode c ch) := by
  unfold resFirstStatusCode
  split_ifs
  · exact advance_ok (.of_plain hc.errno hc.length rfl) rfl rfl
  · exact advance_ok hc (by rw [hs]; rfl) (by rw [hs]; rfl)
  · exact Ok.fail (by decide)

/-- The other digits, and what may follow them. -/
theorem resStatusCode_ok (hc : c.Good) (hs : c.state = .resStatusCode) :
    Ok .resStatusCode none (resStatusCode c ch) := by
  have hplain : c.state.plain = true := by rw [hs]; rfl
  have hk : Opens c.state none := by rw [hs]; rfl
  unfold resStatusCode
  split_ifs
  · exact moreDigits_ok (by decide) fun _ => ⟨.of_plain hc.errno hc.length hplain, hplain, hk⟩
  · exact advance_ok (.of_plain hc.errno hc.length rfl) rfl rfl
  · exact advance_ok (.of_plain hc.errno hc.length rfl) rfl rfl
  · exact advance_ok (.of_plain hc.errno hc.length rfl) rfl rfl
  · exact Ok.fail (by decide)

/-- The reason, up to the end of the line. -/
theorem resStatus_ok (hc : c.Good) (hs : c.state = .resStatus) :
    Ok .resStatus (some .status) (resStatus c ch) := by
  unfold resStatus
  split_ifs
  · exact Ok.calls (Or.inr rfl) (.of_plain hc.errno hc.length rfl) rfl (by intro h; cases h)
  · exact Ok.calls (Or.inr rfl) (.of_plain hc.errno hc.length rfl) rfl (by intro h; cases h)
  · exact advance_ok hc (by rw [hs]; rfl) (by rw [hs]; rfl)

/-! ### Header fields -/

/-- Matching a word changes the index and the state of the header alone. -/
theorem matchWord_eq (c : Core) (lowered : UInt8) (word : List UInt8)
    (other done more : HeaderState) :
    ∃ s, (s = other ∨ s = done ∨ s = more) ∧ matchWord c lowered word other done more =
      { c with index := (c.index + 1) % 256, headerState := s } := by
  unfold matchWord
  dsimp only
  split_ifs
  · exact ⟨other, Or.inl rfl, rfl⟩
  · exact ⟨done, Or.inr (Or.inl rfl), rfl⟩
  · exact ⟨more, Or.inr (Or.inr rfl), rfl⟩

/-- A token character of a name changes the index and the header state alone. -/
theorem fieldChar_eq (hs : c.headerState.inField = true) (ch : UInt8) :
    ∃ i s, HeaderState.inField s = true ∧
      fieldChar c ch = some { c with index := i, headerState := s } := by
  have hword : ∀ word done more, HeaderState.inField done = true →
      HeaderState.inField more = true → ∃ i s, HeaderState.inField s = true ∧
        some (matchWord c (token ch) word .general done more) =
          some { c with index := i, headerState := s } := by
    intro word done more hdone hmore
    obtain ⟨s, hmem, heq⟩ := matchWord_eq c (token ch) word .general done more
    refine ⟨_, s, ?_, congrArg some heq⟩
    rcases hmem with rfl | rfl | rfl
    · rfl
    · exact hdone
    · exact hmore
  have hblank : ∃ i s, HeaderState.inField s = true ∧
      some (if ch ≠ 32 then { c with headerState := .general } else c) =
        some { c with index := i, headerState := s } := by
    split_ifs
    · exact ⟨c.index, .general, rfl, rfl⟩
    · exact ⟨c.index, c.headerState, hs, rfl⟩
  unfold fieldChar
  split
  · exact ⟨c.index, c.headerState, hs, rfl⟩
  · exact ⟨_, _, by split_ifs <;> rfl, rfl⟩
  · exact ⟨_, _, by split_ifs <;> rfl, rfl⟩
  · exact ⟨_, _, by split_ifs <;> rfl, rfl⟩
  · exact hword _ _ _ rfl rfl
  · exact hword _ _ _ rfl rfl
  · exact hword _ _ _ rfl rfl
  · exact hword _ _ _ rfl rfl
  · exact hword _ _ _ rfl rfl
  · exact hblank
  · exact hblank
  · exact hblank
  · exact hblank
  · -- no other state belongs to the loop
    exfalso
    cases heq : c.headerState <;> first | contradiction | (rw [heq] at hs; cases hs)

theorem inField_firstHeaderState (ch : UInt8) : (firstHeaderState ch).inField = true := by
  unfold firstHeaderState
  split_ifs <;> rfl

/-- A field begins, or the header ends. -/
theorem headerFieldStart_ok (hc : c.Good) :
    Ok .headerFieldStart none (headerFieldStart c ch) := by
  unfold headerFieldStart
  split_ifs
  · exact advance_ok (.of_plain hc.errno hc.length rfl) rfl rfl
  · exact Ok.reexecute (.of_plain hc.errno hc.length rfl) rfl
      ⟨show 1 < 2 by decide, by intro h; cases h⟩
  · exact Ok.fail (by decide)
  · exact Ok.marks (Or.inl rfl) ⟨hc.errno, hc.length, inField_firstHeaderState _⟩ rfl
      (by intro h; cases h)

/-- A value begins, with what is known of its field. -/
theorem Core.Good.value {n i : ℕ} {f : Flags} {s : HeaderState} (hc : c.Good)
    (hs : s.inValue = true) (hn : n ≤ ULLONG_MAX) :
    ({ c with
        state := .headerValue, index := i, contentLength := n, flags := f, headerState := s } :
      Core).Good :=
  ⟨hc.errno, hn, hs⟩

/-- The first character of a value opens its span. -/
theorem headerValueStart_ok {s : State} (hc : c.Good) (ch : UInt8) :
    Ok s none (headerValueStart c ch) := by
  have hmarks : ∀ n f (s' : HeaderState), s'.inValue = true → n ≤ ULLONG_MAX →
      Ok s none ⟨{ c with
        state := .headerValue, index := 0, contentLength := n, flags := f, headerState := s' },
        some .headerValue, false, none, .advance⟩ :=
    fun n f s' hs' hn => Ok.marks (Or.inl rfl) (hc.value hs' hn) rfl (by intro h; cases h)
  have hdigit : digit ch ≤ ULLONG_MAX := by
    have hlt := ch.toNat_lt
    show ch.toNat - 48 ≤ 2 ^ 64 - 1
    omega
  have hgeneral := hmarks c.contentLength c.flags .general rfl hc.length
  cases heq : c.headerState <;> simp only [headerValueStart, heq]
  case connection =>
    refine hmarks c.contentLength c.flags _ ?_ hc.length
    split_ifs <;> rfl
  case contentLength =>
    split_ifs
    · have h := hmarks (digit ch) c.flags c.headerState (by rw [heq]; rfl) hdigit
      rwa [heq] at h
    · exact Ok.of_error rfl (fun _ _ => Or.inl rfl) rfl (by intro h; cases h)
  case transferEncoding =>
    refine hmarks c.contentLength c.flags _ ?_ hc.length
    split_ifs <;> rfl
  case upgrade => exact hmarks c.contentLength _ .general rfl hc.length
  case matchingConnectionTokenStart =>
    exact hmarks c.contentLength c.flags _ rfl hc.length
  all_goals exact hgeneral

/-- Blanks in front of a value. -/
theorem headerValueDiscardWs_ok (hc : c.Good) (hs : c.state = .headerValueDiscardWs) :
    Ok .headerValueDiscardWs none (headerValueDiscardWs c ch) := by
  unfold headerValueDiscardWs
  split_ifs
  · exact advance_ok hc (by rw [hs]; rfl) (by rw [hs]; rfl)
  · exact advance_ok (.of_plain hc.errno hc.length rfl) rfl rfl
  · exact advance_ok (.of_plain hc.errno hc.length rfl) rfl rfl
  · exact headerValueStart_ok hc ch

/-- What a byte of a value can lead to. -/
def ValueStep.Good : ValueStep → Prop
  | .ok c => c.Good ∧ c.state = .headerValue
  | .error e => e ≠ .OK
  | .abort => False

/-- A character of a value. -/
theorem valueChar_good (hc : c.Good) (hs : c.state = .headerValue) (ch : UInt8) :
    (valueChar c ch).Good := by
  have hin : c.headerState.inValue = true := by
    have h := hc.stateOk
    rwa [Core.StateOk, hs] at h
  have hvalue : ∀ i n f (s : HeaderState), s.inValue = true → n ≤ ULLONG_MAX →
      (ValueStep.ok { c with
        index := i, contentLength := n, flags := f, headerState := s }).Good := by
    intro i n f s hs' hn
    refine ⟨?_, hs⟩
    have h := hc.value (i := i) (f := f) hs' hn
    rwa [← hs] at h
  have hword : ∀ lowered word other done more, HeaderState.inValue other = true →
      HeaderState.inValue done = true → HeaderState.inValue more = true →
      (ValueStep.ok (matchWord c lowered word other done more)).Good := by
    intro lowered word other done more hother hdone hmore
    obtain ⟨s, hmem, heq⟩ := matchWord_eq c lowered word other done more
    rw [heq]
    apply hvalue _ c.contentLength c.flags s _ hc.length
    rcases hmem with rfl | rfl | rfl
    · exact hother
    · exact hdone
    · exact hmore
  have hkeep : (ValueStep.ok c).Good := ⟨hc, hs⟩
  have hother : (ValueStep.ok { c with state := .headerValue, headerState := .general }).Good :=
    ⟨hc.value rfl hc.length, rfl⟩
  cases heq : c.headerState <;> simp only [valueChar, heq]
  case connection => rw [heq] at hin; cases hin
  case transferEncoding => rw [heq] at hin; cases hin
  case general => exact hkeep
  case contentLength =>
    split_ifs
    · exact hkeep
    · intro h; cases h
    · refine hvalue c.index _ c.flags _ rfl ?_
      have hlt := Nat.mod_lt (c.contentLength * 10 + digit ch) (show 0 < 2 ^ 64 by decide)
      exact Nat.le_sub_one_of_lt hlt
    · intro h; cases h
  case matchingTransferEncodingChunked => exact hword _ _ _ _ _ rfl rfl rfl
  case matchingConnectionTokenStart =>
    refine hvalue c.index c.contentLength c.flags _ ?_ hc.length
    split_ifs <;> rfl
  case matchingConnectionKeepAlive => exact hword _ _ _ _ _ rfl rfl rfl
  case matchingConnectionClose => exact hword _ _ _ _ _ rfl rfl rfl
  case matchingConnectionUpgrade => exact hword _ _ _ _ _ rfl rfl rfl
  case matchingConnectionToken =>
    split_ifs
    · exact hvalue _ c.contentLength c.flags _ rfl hc.length
    · exact hkeep
  case transferEncodingChunked =>
    split_ifs
    · exact hvalue c.index c.contentLength c.flags _ rfl hc.length
    · exact hkeep
  case connectionKeepAlive | connectionClose | connectionUpgrade =>
    split_ifs
    · exact hvalue _ c.contentLength _ _ rfl hc.length
    · exact hvalue c.index c.contentLength c.flags _ rfl hc.length
    · exact hkeep
  all_goals exact hother

/-- What a whole value decides is in the flags alone. -/
theorem headerDone_keeps (c : Core) :
    (headerDone c).httpErrno = c.httpErrno ∧ (headerDone c).contentLength = c.contentLength := by
  unfold headerDone
  split <;> exact ⟨rfl, rfl⟩

/-- A line that begins with a blank goes on with the value. -/
theorem headerValueLws_ok (hc : c.Good) : Ok .headerValueLws none (headerValueLws c ch) := by
  obtain ⟨herrno, hlength⟩ := headerDone_keeps c
  unfold headerValueLws
  split_ifs
  · exact Ok.reexecute (.of_plain hc.errno hc.length rfl) rfl
      ⟨show 0 < 3 by decide, by intro h; cases h⟩
  · exact Ok.reexecute (.of_plain (herrno.trans hc.errno) (hlength.trans_le hc.length) rfl) rfl
      ⟨show 2 < 3 by decide, by intro h; cases h⟩

/-- A value that is empty, or goes on in the next line. -/
theorem headerValueDiscardLws_ok (hc : c.Good) :
    Ok .headerValueDiscardLws none (headerValueDiscardLws c ch) := by
  obtain ⟨herrno, hlength⟩ := headerDone_keeps c
  unfold headerValueDiscardLws
  split_ifs
  · exact advance_ok (.of_plain hc.errno hc.length rfl) rfl rfl
  · exact Ok.of_reexecute rfl (fun _ _ => Or.inl rfl) (by intro m hm; cases hm; exact Or.inr rfl)
      (.of_plain (herrno.trans hc.errno) (hlength.trans_le hc.length) rfl) rfl
      ⟨show 2 < 3 by decide, by intro h; cases h⟩

/-! ### The end of the header and the body -/

/-- The state a new message begins in. -/
theorem newMessage_plain (c : Core) : c.newMessage.plain = true ∧ Opens c.newMessage none := by
  unfold Core.newMessage Core.startState
  split_ifs <;> exact ⟨rfl, rfl⟩

/-- The end of a message. -/
theorem complete_ok {s : State} {reset : Bool} {next : Next} (herrno : c.httpErrno = .OK)
    (hlength : c.contentLength ≤ ULLONG_MAX)
    (hnext : next = .advance ∨ next = .exit ∧ c.upgrade = true) :
    Ok s none (complete c reset next) := by
  obtain ⟨hplain, hopens⟩ := newMessage_plain c
  rcases hnext with rfl | ⟨rfl, hupgrade⟩
  · refine Ok.notifies (.of_plain herrno hlength hplain) hopens ?_
    intro h
    rw [show c.newMessage = _ from h] at hplain
    cases hplain
  · exact Ok.of_exit rfl rfl rfl (.of_plain herrno hlength hplain) hplain hupgrade rfl

/-- The header ends, or the trailer does. -/
theorem headersAlmostDone_ok (hc : c.Good) :
    Ok .headersAlmostDone none (headersAlmostDone c ch) := by
  apply Ok.strict
  split_ifs
  · exact Ok.of_reexecute rfl (by intro m hm; cases hm) (by intro m hm; cases hm)
      (.of_plain hc.errno hc.length rfl) rfl ⟨show 0 < 1 by decide, by intro h; cases h⟩
  · exact Ok.of_reexecute rfl (by intro m hm; cases hm) (by intro m hm; cases hm)
      (.of_plain hc.errno hc.length rfl) rfl ⟨show 0 < 1 by decide, by intro h; cases h⟩

/-- What comes behind the header: an upgrade, a body, or the next message. -/
theorem headersDone_ok (hc : c.Good) : Ok .headersDone none (headersDone c ch) := by
  have hbody : ∀ s, Opens s none → ({ c with state := s } : Core).Good →
      Ok .headersDone none ⟨{ c with state := s }, none, true, none, .advance⟩ := by
    intro s hopens hgood
    exact Ok.of_advance rfl (by intro m hm; cases hm) (by intro m hm; cases hm) hgood hopens
      fun _ => rfl
  apply Ok.strict
  dsimp only
  split_ifs with hexit _ hchunked hzero heof
  · exact complete_ok hc.errno hc.length (Or.inr ⟨rfl, (Bool.and_eq_true_iff.1 hexit).1⟩)
  · exact complete_ok hc.errno hc.length (Or.inl rfl)
  · exact hbody _ rfl ⟨hc.errno, hc.length, hchunked⟩
  · exact complete_ok hc.errno hc.length (Or.inl rfl)
  · exact hbody _ (Or.inl rfl) ⟨hc.errno, hc.length, hzero, heof⟩
  · exact hbody _ (Or.inl rfl) (.of_plain hc.errno hc.length rfl)
  · exact complete_ok hc.errno hc.length (Or.inl rfl)

/-- The end of a body. -/
theorem messageDone_ok (hc : c.Good) : Ok .messageDone none (messageDone c) := by
  apply complete_ok hc.errno hc.length
  split_ifs with hupgrade
  · exact Or.inr ⟨rfl, hupgrade⟩
  · exact Or.inl rfl

/-- A digit has at most the value 15. -/
theorem unhex_le (ch : UInt8) : unhex ch ≤ 15 := by
  have htable : unhexTable.all (· ≤ 15) = true := rfl
  rw [unhex, List.getD_eq_getElem?_getD]
  cases h : unhexTable[ch.toNat]? with
  | none => decide
  | some n => exact of_decide_eq_true (List.all_eq_true.1 htable n (List.mem_of_getElem? h))

/-- The first digit of a chunk's size. -/
theorem chunkSizeStart_ok (hc : c.Good) (hs : c.state = .chunkSizeStart) :
    Ok .chunkSizeStart none (chunkSizeStart c 1 ch) := by
  have hchunked : c.flags.chunked = true := by
    have h := hc.stateOk
    rwa [Core.StateOk, hs] at h
  have hlt : (unhex ch).toNat < ULLONG_MAX := by
    have hle := unhex_le ch
    show (unhex ch).toNat < 2 ^ 64 - 1
    omega
  apply Ok.assert (by rw [hchunked]; rfl)
  split_ifs
  · exact Ok.fail (by decide)
  · exact Ok.advance ⟨hc.errno, hlt.le, hchunked, hlt.ne⟩ rfl (by intro h; cases h)

/-- The further digits, as long as the size does not overflow. -/
theorem chunkSize_ok (hc : c.Good) (hs : c.state = .chunkSize) :
    Ok .chunkSize none (chunkSize c ch) := by
  obtain ⟨hchunked, hne⟩ : c.flags.chunked = true ∧ c.contentLength ≠ ULLONG_MAX := by
    have h := hc.stateOk
    rwa [Core.StateOk, hs] at h
  apply Ok.assert hchunked
  split_ifs with _ _ _ hbig
  · exact Ok.advance ⟨hc.errno, hc.length, hchunked, hne⟩ rfl (by intro h; cases h)
  · exact Ok.advance ⟨hc.errno, hc.length, hchunked, hne⟩ rfl (by intro h; cases h)
  · exact Ok.fail (by decide)
  · exact Ok.fail (by decide)
  · -- the check before leaves room for another digit
    have hle := unhex_le ch
    have hlt : (c.contentLength * 16 + (unhex ch).toNat) % 2 ^ 64 < ULLONG_MAX := by
      unfold ULLONG_MAX at hbig ⊢
      omega
    refine Ok.advance ⟨hc.errno, hlt.le, ?_⟩ (by show Opens c.state none; rw [hs]; rfl)
      (by show c.state ≠ _; rw [hs]; decide)
    show Core.StateOk _
    unfold Core.StateOk
    simp only [hs]
    exact ⟨hchunked, hlt.ne⟩

theorem chunkParameters_ok (hc : c.Good) (hs : c.state = .chunkParameters) :
    Ok .chunkParameters none (chunkParameters c ch) := by
  obtain ⟨hchunked, hne⟩ : c.flags.chunked = true ∧ c.contentLength ≠ ULLONG_MAX := by
    have h := hc.stateOk
    rwa [Core.StateOk, hs] at h
  apply Ok.assert hchunked
  split_ifs
  · exact Ok.advance ⟨hc.errno, hc.length, hchunked, hne⟩ rfl (by intro h; cases h)
  · exact Ok.advance hc (by rw [hs]; rfl) (by rw [hs]; decide)

/-- A chunk of size zero is the last one, and the trailer follows. -/
theorem chunkSizeAlmostDone_ok (hc : c.Good) (hs : c.state = .chunkSizeAlmostDone) :
    Ok .chunkSizeAlmostDone none (chunkSizeAlmostDone c ch) := by
  obtain ⟨hchunked, hne⟩ : c.flags.chunked = true ∧ c.contentLength ≠ ULLONG_MAX := by
    have h := hc.stateOk
    rwa [Core.StateOk, hs] at h
  apply Ok.assert hchunked
  apply Ok.strict
  dsimp only
  split_ifs with hzero
  · exact Ok.notifies (.of_plain hc.errno hc.length rfl) rfl fun _ => rfl
  · exact Ok.notifies ⟨hc.errno, hc.length, hchunked, hzero, hne⟩ (Or.inl rfl) fun _ => rfl

/-- The end of a chunk closes the span of its body. -/
theorem chunkDataAlmostDone_ok (hc : c.Good) (hs : c.state = .chunkDataAlmostDone)
    (hk : k = none ∨ k = some .body) :
    Ok .chunkDataAlmostDone k (chunkDataAlmostDone c ch) := by
  obtain ⟨hchunked, hzero⟩ : c.flags.chunked = true ∧ c.contentLength = 0 := by
    have h := hc.stateOk
    rwa [Core.StateOk, hs] at h
  apply Ok.assert (by rw [hchunked, hzero]; rfl)
  apply Ok.strict
  exact Ok.calls hk ⟨hc.errno, hc.length, hchunked⟩ rfl (by intro h; cases h)

theorem chunkDataDone_ok (hc : c.Good) (hs : c.state = .chunkDataDone) :
    Ok .chunkDataDone none (chunkDataDone c ch) := by
  have hchunked : c.flags.chunked = true := by
    have h := hc.stateOk
    rwa [Core.StateOk, hs] at h
  apply Ok.assert hchunked
  apply Ok.strict
  exact Ok.notifies ⟨hc.errno, hc.length, hchunked⟩ rfl fun _ => rfl

/-! ### The cases with loops -/

/-- A character of a name, or the colon, which closes its span. -/
theorem headerField_ok (hc : c.Good) (hs : c.state = .headerField) :
    Ok .headerField (some .headerField) (bytewise c ch) := by
  have hin : c.headerState.inField = true := by
    have h := hc.stateOk
    rwa [Core.StateOk, hs] at h
  simp only [bytewise, hs]
  split_ifs
  · obtain ⟨i, s, hs', heq⟩ := fieldChar_eq hin ch
    rw [heq]
    refine Ok.advance ⟨hc.errno, hc.length, ?_⟩ (by show Opens c.state _; rw [hs]; rfl)
      (by show c.state ≠ _; rw [hs]; decide)
    show Core.StateOk _
    unfold Core.StateOk
    simp only [hs]
    exact hs'
  · exact Ok.calls (Or.inr rfl) (.of_plain hc.errno hc.length rfl) rfl (by intro h; cases h)
  · exact Ok.fail (by decide)

/-- A character of a value, or the end of its line, which closes its span. -/
theorem headerValue_ok (hc : c.Good) (hs : c.state = .headerValue) :
    Ok .headerValue (some .headerValue) (bytewise c ch) := by
  simp only [bytewise, hs]
  split_ifs
  · exact Ok.calls (Or.inr rfl) (.of_plain hc.errno hc.length rfl) rfl (by intro h; cases h)
  · exact Ok.of_reexecute rfl (by intro m hm; cases hm) (by intro m hm; cases hm; exact Or.inr rfl)
      (.of_plain hc.errno hc.length rfl) rfl ⟨show 0 < 1 by decide, by intro h; cases h⟩
  · have hgood := valueChar_good hc hs ch
    cases h : valueChar c ch with
    | ok c' =>
      rw [h] at hgood
      obtain ⟨hc', hs'⟩ := hgood
      exact Ok.advance hc' (by rw [hs']; rfl) (by rw [hs']; decide)
    | error e =>
      rw [h] at hgood
      exact Ok.fail hgood
    | abort =>
      rw [h] at hgood
      exact hgood.elim

/-- A byte of a body whose length is known. -/
theorem bodyIdentity_ok (hc : c.Good) (hs : c.state = .bodyIdentity)
    (hk : k = none ∨ k = some .body) : Ok .bodyIdentity k (bytewise c ch) := by
  obtain ⟨hne, hne'⟩ : c.contentLength ≠ 0 ∧ c.contentLength ≠ ULLONG_MAX := by
    have h := hc.stateOk
    rwa [Core.StateOk, hs] at h
  have hlength := hc.length
  have hmark : ∀ m, some Mark.body = some m → k = none ∨ k = some m := by
    intro m hm
    cases hm
    exact hk
  have hmarked : k.or (some .body) = some .body := by rcases hk with rfl | rfl <;> rfl
  simp only [bytewise, hs]
  rw [if_neg (by omega)]
  split_ifs with hone
  · refine Ok.of_reexecute rfl hmark ?_ (.of_plain hc.errno (Nat.zero_le _) rfl) rfl
      ⟨show 0 < 1 by decide, by intro h; cases h⟩
    intro m hm
    cases hm
    exact Or.inr hmarked
  · have hlt : c.contentLength - 1 < ULLONG_MAX := by omega
    have hpos : c.contentLength - 1 ≠ 0 := by omega
    exact Ok.marks hk ⟨hc.errno, hlt.le, hpos, hlt.ne⟩ (Or.inr rfl) (by intro h; cases h)

/-- A byte of a chunk. -/
theorem chunkData_ok (hc : c.Good) (hs : c.state = .chunkData)
    (hk : k = none ∨ k = some .body) : Ok .chunkData k (bytewise c ch) := by
  obtain ⟨hchunked, hne, hne'⟩ :
      c.flags.chunked = true ∧ c.contentLength ≠ 0 ∧ c.contentLength ≠ ULLONG_MAX := by
    have h := hc.stateOk
    rwa [Core.StateOk, hs] at h
  have hlength := hc.length
  simp only [bytewise, hs]
  rw [if_neg (by rintro (h | h | h); exacts [h hchunked, hne h, hne' h])]
  split_ifs with hone
  · exact Ok.marks hk ⟨hc.errno, Nat.zero_le _, hchunked, rfl⟩ (Or.inr rfl)
      (by intro h; cases h)
  · have hlt : c.contentLength - 1 < ULLONG_MAX := by omega
    have hpos : c.contentLength - 1 ≠ 0 := by omega
    exact Ok.marks hk ⟨hc.errno, hlt.le, hchunked, hpos, hlt.ne⟩ (Or.inr rfl)
      (by intro h; cases h)

/-! ### All of them -/

/-- Every case keeps the parser good, and says what becomes of the span. -/
theorem bytewise_ok (hc : c.Good) (hk : Opens c.state k) (ch : UInt8) :
    Ok c.state k (bytewise c ch) := by
  cases hs : c.state
  case headerField => rw [hs] at hk; cases hk; exact headerField_ok hc hs
  case headerValue => rw [hs] at hk; cases hk; exact headerValue_ok hc hs
  case bodyIdentity => rw [hs] at hk; exact bodyIdentity_ok hc hs hk
  case chunkData => rw [hs] at hk; exact chunkData_ok hc hs hk
  case chunkDataAlmostDone =>
    rw [hs] at hk
    simp only [bytewise, dispatch, hs]
    exact chunkDataAlmostDone_ok hc hs hk
  case bodyIdentityEof =>
    rw [hs] at hk
    simp only [bytewise, hs]
    exact Ok.marks hk hc (by rw [hs]; exact Or.inr rfl) (by rw [hs]; decide)
  all_goals
    rw [hs] at hk
    simp only [bytewise, dispatch, hs]
    cases hk
  case reqSchema | reqSchemaSlash | reqSchemaSlashSlash | reqServerStart => exact urlStart_ok hc
  case reqServer | reqServerWithAt | reqPath | reqQueryStringStart | reqQueryString
      | reqFragmentStart | reqFragment =>
    exact urlRest_ok hc
  case resH | resHT | resHTT | resHTTP | resLineAlmostDone | reqHttpH | reqHttpHT | reqHttpHTT
      | reqHttpHTTP | headerAlmostDone | headerValueDiscardWsAlmostDone =>
    exact expect_ok hc rfl rfl
  case dead =>
    split_ifs
    · exact advance_ok hc (by rw [hs]; rfl) (by rw [hs]; rfl)
    · exact Ok.fail (by decide)
  case startReqOrRes => exact startReqOrRes_ok hc hs
  case resOrRespH => exact resOrRespH_ok hc
  case startRes => exact startRes_ok hc hs
  case startReq => exact startReq_ok hc hs
  case reqMethod => exact reqMethod_ok hc hs
  case reqSpacesBeforeUrl => exact reqSpacesBeforeUrl_ok hc hs
  case reqHttpStart => exact reqHttpStart_ok hc hs
  case resFirstHttpMajor | reqFirstHttpMajor =>
    first | unfold resFirstHttpMajor | unfold reqFirstHttpMajor
    split_ifs
    · exact Ok.fail (by decide)
    · exact advance_ok (.of_plain hc.errno hc.length rfl) rfl rfl
  case resHttpMajor | reqHttpMajor =>
    exact httpMajor_ok hc (by rw [hs]; rfl) (by rw [hs]; rfl) rfl rfl
  case resFirstHttpMinor | reqFirstHttpMinor => exact firstHttpMinor_ok hc rfl rfl
  case resHttpMinor =>
    unfold resHttpMinor
    split_ifs
    · exact advance_ok (.of_plain hc.errno hc.length rfl) rfl rfl
    · exact moreHttpMinor_ok hc (by rw [hs]; rfl) (by rw [hs]; rfl)
  case reqHttpMinor =>
    unfold reqHttpMinor
    split_ifs
    · exact advance_ok (.of_plain hc.errno hc.length rfl) rfl rfl
    · exact advance_ok (.of_plain hc.errno hc.length rfl) rfl rfl
    · exact moreHttpMinor_ok hc (by rw [hs]; rfl) (by rw [hs]; rfl)
  case reqLineAlmostDone =>
    split_ifs
    · exact Ok.fail (by decide)
    · exact advance_ok (.of_plain hc.errno hc.length rfl) rfl rfl
  case resFirstStatusCode => exact resFirstStatusCode_ok hc hs
  case resStatusCode => exact resStatusCode_ok hc hs
  case resStatusStart =>
    unfold resStatusStart
    split_ifs
    · exact advance_ok (.of_plain hc.errno hc.length rfl) rfl rfl
    · exact advance_ok (.of_plain hc.errno hc.length rfl) rfl rfl
    · exact Ok.marks (Or.inl rfl) (.of_plain hc.errno hc.length rfl) rfl (by intro h; cases h)
  case resStatus => exact resStatus_ok hc hs
  case headerFieldStart => exact headerFieldStart_ok hc
  case headerValueDiscardWs => exact headerValueDiscardWs_ok hc hs
  case headerValueStart => exact headerValueStart_ok hc ch
  case headerValueLws => exact headerValueLws_ok hc
  case headerValueDiscardLws => exact headerValueDiscardLws_ok hc
  case headersAlmostDone => exact headersAlmostDone_ok hc
  case headersDone => exact headersDone_ok hc
  case messageDone => exact messageDone_ok hc
  case chunkSizeStart => exact chunkSizeStart_ok hc hs
  case chunkSize => exact chunkSize_ok hc hs
  case chunkParameters => exact chunkParameters_ok hc hs
  case chunkSizeAlmostDone => exact chunkSizeAlmostDone_ok hc hs
  case chunkDataDone => exact chunkDataDone_ok hc hs

end Netxy.Vendored
