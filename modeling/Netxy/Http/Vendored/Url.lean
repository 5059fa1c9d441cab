import Netxy.Http.Vendored.Bytewise

/-!
# `http_parser_parse_url`

The second pass over a URL, which says where its parts are: as `sUrlHandle` calls it, with
`is_connect` being 0. Offsets and lengths are `uint16_t`. `buf` are the bytes of the memory from the
URL on, as `strtoul` knows nothing of `buflen`.
-/

namespace Netxy.Vendored
open CString

/-! ## What the pass returns -/

/-- `enum http_parser_url_fields`. -/
inductive UrlField
  | schema | host | port | path | query | fragment | userinfo
deriving DecidableEq, Repr

/-- An entry of `field_data`. -/
structure Extent where
  off : ℕ
  len : ℕ

/-- `struct http_parser_url`, with the entries of `field_data` whose bit in `field_set` is set. -/
structure HttpParserUrl where
  port : ℕ
  fieldData : UrlField → Option Extent

/-- What the pass ends with otherwise: 1 is returned, or an assertion fails. -/
inductive UrlFault
  | invalid
  | assertion
deriving DecidableEq, Repr

namespace HttpParserUrl

/-- An entry and its bit. -/
def set (u : HttpParserUrl) (uf : UrlField) (e : Extent) : HttpParserUrl :=
  { u with fieldData := Function.update u.fieldData uf (some e) }

/-- `u->field_data[uf].len++`. -/
def grow (u : HttpParserUrl) (uf : UrlField) : HttpParserUrl :=
  match u.fieldData uf with
  | none => u
  | some e => u.set uf { e with len := (e.len + 1) % 2 ^ 16 }

/-- `u->field_data[uf].off = p - buf`. -/
def move (u : HttpParserUrl) (uf : UrlField) (i : ℕ) : HttpParserUrl :=
  match u.fieldData uf with
  | none => u
  | some e => u.set uf { e with off := i % 2 ^ 16 }

end HttpParserUrl

/-! ## The fields -/

/-- What the `switch` of `http_parser_parse_url` makes of a state. -/
inductive UrlPlace
  | dead
  | delimiter
  | field (uf : UrlField)
  | unexpected

/-- The `switch` over the state. -/
def urlPlace : State → UrlPlace
  | .dead => .dead
  | .reqSchemaSlash | .reqSchemaSlashSlash | .reqServerStart | .reqQueryStringStart
  | .reqFragmentStart => .delimiter
  | .reqSchema => .field .schema
  | .reqServerWithAt | .reqServer => .field .host
  | .reqPath => .field .path
  | .reqQueryString => .field .query
  | .reqFragment => .field .fragment
  | _ => .unexpected

/-- The variables of `http_parser_parse_url`; `old_uf` is `UF_MAX` at first. -/
structure UrlScan where
  s : State
  oldUf : Option UrlField
  foundAt : Bool
  u : HttpParserUrl

namespace UrlScan

/-- The variables before the loop. -/
def start : UrlScan := ⟨.reqSpacesBeforeUrl, none, false, ⟨0, fun _ => none⟩⟩

/-- One turn of the loop, at the byte at offset `i`. -/
def step (scan : UrlScan) (i : ℕ) (ch : UInt8) : Except UrlFault UrlScan :=
  let s := parseUrlChar scan.s ch
  let scan := { scan with s := s, foundAt := scan.foundAt || s = .reqServerWithAt }
  match urlPlace s with
  | .dead => .error .invalid
  | .delimiter => .ok scan
  | .unexpected => .error .assertion
  | .field uf =>
    if scan.oldUf = some uf then .ok { scan with u := scan.u.grow uf }
    else .ok { scan with oldUf := some uf, u := scan.u.set uf ⟨i % 2 ^ 16, 1⟩ }

/-- The loop. -/
def run : UrlScan → ℕ → List UInt8 → Except UrlFault UrlScan
  | scan, _, [] => .ok scan
  | scan, i, ch :: rest =>
    match scan.step i ch with
    | .error e => .error e
    | .ok scan => scan.run (i + 1) rest

end UrlScan

/-! ## The host -/

/-- `enum http_host_state`. -/
inductive HostState
  | dead
  | userinfoStart | userinfo
  | hostStart | v6Start
  | host
  | v6 | v6End | v6ZoneStart | v6Zone
  | portStart | port
deriving DecidableEq, Repr

/-- A character of a zone: `IS_ALPHANUM(ch)` or one of those named. -/
def isZoneChar (ch : UInt8) : Bool := isAlphanum ch || ch ∈ ascii "%.-_~"

/-- `http_parse_host_char`. -/
def httpParseHostChar (s : HostState) (ch : UInt8) : HostState :=
  match s with
  | .userinfo | .userinfoStart =>
    if ch = 64 then .hostStart else if isUserinfoChar ch then .userinfo else .dead
  | .hostStart => if ch = 91 then .v6Start else if isHostChar ch then .host else .dead
  | .host => if isHostChar ch then .host else if ch = 58 then .portStart else .dead
  | .v6End => if ch = 58 then .portStart else .dead
  | .v6 =>
    if ch = 93 then .v6End
    else if isHex ch || ch = 58 || ch = 46 then .v6
    else if ch = 37 then .v6ZoneStart
    else .dead
  | .v6Start => if isHex ch || ch = 58 || ch = 46 then .v6 else .dead
  | .v6Zone => if ch = 93 then .v6End else if isZoneChar ch then .v6Zone else .dead
  | .v6ZoneStart => if isZoneChar ch then .v6Zone else .dead
  | .port | .portStart => if isNum ch then .port else .dead
  | .dead => .dead

/-- The states in which a host must not end. -/
def HostState.isUnfinished : HostState → Bool
  | .hostStart | .v6Start | .v6 | .v6ZoneStart | .v6Zone | .portStart | .userinfo
  | .userinfoStart => true
  | _ => false

/-- What `http_parse_host` notes where the state `s` becomes `new` at offset `i`. -/
def HttpParserUrl.hostStep (u : HttpParserUrl) (s new : HostState) (i : ℕ) : HttpParserUrl :=
  match new with
  | .host => (if s ≠ .host then u.move .host i else u).grow .host
  | .v6 => (if s ≠ .v6 then u.move .host i else u).grow .host
  | .v6ZoneStart | .v6Zone => u.grow .host
  | .port => (if s ≠ .port then u.set .port ⟨i % 2 ^ 16, 0⟩ else u).grow .port
  | .userinfo => (if s ≠ .userinfo then u.set .userinfo ⟨i % 2 ^ 16, 0⟩ else u).grow .userinfo
  | _ => u

/-- The loop of `http_parse_host`. -/
def hostLoop : HttpParserUrl → HostState → ℕ → List UInt8 →
    Except UrlFault (HttpParserUrl × HostState)
  | u, s, _, [] => .ok (u, s)
  | u, s, i, ch :: rest =>
    let new := httpParseHostChar s ch
    if new = .dead then .error .invalid else hostLoop (u.hostStep s new i) new (i + 1) rest

/-- `http_parse_host`. -/
def httpParseHost (buf : List UInt8) (u : HttpParserUrl) (foundAt : Bool) :
    Except UrlFault HttpParserUrl :=
  match u.fieldData .host with
  | none => .error .assertion
  | some e =>
    let u := u.set .host { e with len := 0 }
    let s := if foundAt then .userinfoStart else .hostStart
    match hostLoop u s e.off ((buf.drop e.off).take e.len) with
    | .error e => .error e
    | .ok (u, s) => if s.isUnfinished then .error .invalid else .ok u

/-! ## The pass -/

/-- `strtoul(buf, NULL, 10)`. -/
def strtoul (buf : List UInt8) : ℕ :=
  let (neg, cs) := sign (buf.dropWhile isSpace)
  let n := digits 10 0 cs
  if 2 ^ 64 ≤ n then 2 ^ 64 - 1 else if neg then (2 ^ 64 - n) % 2 ^ 64 else n

/-- What follows the fields: the port becomes a number. -/
def convertPort (buf : List UInt8) (u : HttpParserUrl) : Except UrlFault HttpParserUrl :=
  match u.fieldData .port with
  | none => .ok u
  | some e =>
    let v := strtoul (buf.drop e.off)
    if 0xffff < v then .error .invalid else .ok { u with port := v }

/-- `http_parser_parse_url(buf, buflen, 0, u)`. -/
def httpParserParseUrl (buf : List UInt8) (buflen : ℕ) : Except UrlFault HttpParserUrl :=
  match UrlScan.start.run 0 (buf.take buflen) with
  | .error e => .error e
  | .ok scan =>
    match scan.u.fieldData .schema, scan.u.fieldData .host with
    | some _, none => .error .invalid
    | none, none => convertPort buf scan.u
    | _, some _ =>
      match httpParseHost buf scan.u scan.foundAt with
      | .error e => .error e
      | .ok u => convertPort buf u

/-! ## Where the fields lie -/

/-- No assertion fails, and what is returned is as `P` says. -/
def EndsWell {α : Type*} (P : α → Prop) : Except UrlFault α → Prop
  | .ok a => P a
  | .error e => e = .invalid

namespace HttpParserUrl

variable {u v : HttpParserUrl} {uf uf' : UrlField} {e : Extent} {i n : ℕ}

/-- The field ends at `n` at the latest. -/
def Ends (u : HttpParserUrl) (uf : UrlField) (n : ℕ) : Prop :=
  ∀ e, u.fieldData uf = some e → e.off + e.len ≤ n

theorem Ends.mono (h : u.Ends uf i) (hle : i ≤ n) : u.Ends uf n := fun e he => (h e he).trans hle

theorem Ends.congr (h : u.Ends uf n) (hsame : v.fieldData uf = u.fieldData uf) : v.Ends uf n :=
  fun e he => h e (hsame ▸ he)

theorem fieldData_set_of_ne (h : uf' ≠ uf) : (u.set uf e).fieldData uf' = u.fieldData uf' :=
  Function.update_of_ne h _ _

theorem fieldData_set_self : (u.set uf e).fieldData uf = some e := Function.update_self uf _ _

/-- An entry that is set ends where it says. -/
theorem ends_set (h : e.off + e.len ≤ n) : (u.set uf e).Ends uf n := by
  intro e' he'
  rw [fieldData_set_self] at he'
  cases he'
  exact h

/-- The other fields stay as they are. -/
theorem fieldData_grow_of_ne (h : uf' ≠ uf) : (u.grow uf).fieldData uf' = u.fieldData uf' := by
  unfold grow
  split
  · rfl
  · exact fieldData_set_of_ne h

/-- The other fields stay as they are. -/
theorem fieldData_move_of_ne (h : uf' ≠ uf) : (u.move uf i).fieldData uf' = u.fieldData uf' := by
  unfold move
  split
  · rfl
  · exact fieldData_set_of_ne h

/-- A field that grows ends one byte later; where its length wraps, it ends before. -/
theorem Ends.grow (h : u.Ends uf i) : (u.grow uf).Ends uf (i + 1) := by
  unfold HttpParserUrl.grow
  split
  · exact h.mono (Nat.le_succ i)
  · rename_i e he
    have hle := h e he
    have hmod := Nat.mod_le (e.len + 1) (2 ^ 16)
    exact ends_set (by dsimp only; omega)

/-- An empty field may be moved to where the pass stands. -/
theorem ends_move (h : ∀ e, u.fieldData uf = some e → e.len = 0) : (u.move uf i).Ends uf i := by
  unfold move
  split
  · rename_i hnone
    exact fun e he => by cases hnone.symm.trans he
  · rename_i e he
    have hlen := h e he
    have hmod := Nat.mod_le i (2 ^ 16)
    exact ends_set (by dsimp only; omega)

end HttpParserUrl

open HttpParserUrl

/-- The states inside of a URL are expected. -/
theorem urlPlace_of_startMark {s : State} (h : Machine.startMark s = some .url) :
    urlPlace s ≠ .unexpected := by
  cases s <;> exact fun hplace => by cases hplace <;> cases h

/-- `assert(!"Unexpected state")` holds. -/
theorem urlPlace_parseUrlChar (s : State) (ch : UInt8) :
    urlPlace (parseUrlChar s ch) ≠ .unexpected := by
  rcases parseUrlChar_eq s ch with h | h
  · rw [h]
    exact fun hplace => by cases hplace
  · exact urlPlace_of_startMark h

/-- No field reaches beyond the byte that was read. -/
theorem UrlScan.step_ends {scan : UrlScan} {i : ℕ} (h : ∀ uf, scan.u.Ends uf i) (ch : UInt8) :
    EndsWell (fun scan' => ∀ uf, scan'.u.Ends uf (i + 1)) (scan.step i ch) := by
  have hmono : ∀ uf, scan.u.Ends uf (i + 1) := fun uf => (h uf).mono (Nat.le_succ i)
  unfold UrlScan.step
  dsimp only
  cases hplace : urlPlace (parseUrlChar scan.s ch) with
  | dead => exact rfl
  | delimiter => exact hmono
  | unexpected => exact absurd hplace (urlPlace_parseUrlChar _ _)
  | field uf =>
    dsimp only
    split_ifs
    · intro uf'
      by_cases huf : uf' = uf
      · rw [huf]
        exact (h uf).grow
      · exact (hmono uf').congr (fieldData_grow_of_ne huf)
    · intro uf'
      by_cases huf : uf' = uf
      · rw [huf]
        exact ends_set (Nat.add_le_add_right (Nat.mod_le i _) 1)
      · exact (hmono uf').congr (fieldData_set_of_ne huf)

/-- No field reaches beyond the end of the URL. -/
theorem UrlScan.run_ends {scan : UrlScan} {i : ℕ} (h : ∀ uf, scan.u.Ends uf i)
    (bytes : List UInt8) :
    EndsWell (fun scan' => ∀ uf, scan'.u.Ends uf (i + bytes.length)) (scan.run i bytes) := by
  induction bytes generalizing scan i with
  | nil => exact h
  | cons ch rest ih =>
    have hstep := step_ends h ch
    rw [UrlScan.run]
    cases hscan : scan.step i ch with
    | error e =>
      rw [hscan] at hstep
      exact hstep
    | ok scan' =>
      rw [hscan] at hstep
      rw [List.length_cons, Nat.add_comm rest.length 1, ← Nat.add_assoc]
      exact ih hstep

namespace HostState

/-- The states in front of the host itself. -/
def isBefore : HostState → Bool
  | .userinfoStart | .userinfo | .hostStart | .v6Start => true
  | _ => false

/-- The field whose length grows where a state is entered. -/
def field : HostState → Option UrlField
  | .host | .v6 | .v6ZoneStart | .v6Zone => some .host
  | .port => some .port
  | .userinfo => some .userinfo
  | _ => none

variable {s : HostState} {ch : UInt8}

/-- There is no way back to the states in front of the host. -/
theorem isBefore_of_char (h : (httpParseHostChar s ch).isBefore = true) : s.isBefore = true := by
  revert h
  cases s <;> unfold httpParseHostChar <;> dsimp only <;> (try split_ifs) <;>
    first | exact fun _ => rfl | exact fun h => by cases h

/-- The host begins behind `s_http_host_start` alone. -/
theorem eq_of_char_host (h : httpParseHostChar s ch = .host) : s = .host ∨ s = .hostStart := by
  revert h
  cases s <;> unfold httpParseHostChar <;> dsimp only <;> (try split_ifs) <;>
    first | exact fun _ => .inl rfl | exact fun _ => .inr rfl | exact fun h => by cases h

/-- An address begins behind its bracket alone. -/
theorem eq_of_char_v6 (h : httpParseHostChar s ch = .v6) : s = .v6 ∨ s = .v6Start := by
  revert h
  cases s <;> unfold httpParseHostChar <;> dsimp only <;> (try split_ifs) <;>
    first | exact fun _ => .inl rfl | exact fun _ => .inr rfl | exact fun h => by cases h

end HostState

/-- What holds in the loop of `http_parse_host` at offset `i` of a URL of `n` bytes. -/
structure HostOk (u : HttpParserUrl) (s : HostState) (i n : ℕ) : Prop where
  inside : ∀ uf, u.Ends uf n
  host : u.Ends .host i
  empty : s.isBefore = true → ∀ e, u.fieldData .host = some e → e.len = 0
  here : ∀ uf, s.field = some uf → u.Ends uf i

section HostOk
variable {u v : HttpParserUrl} {s new : HostState} {uf : UrlField} {i n : ℕ}

/-- A field that ends here grows by the byte that is read. -/
theorem HostOk.grown (h : HostOk u s i n) (hn : i < n) (hv : v.Ends uf i)
    (hother : ∀ uf', uf' ≠ uf → v.fieldData uf' = u.fieldData uf') (hfield : new.field = some uf)
    (hbefore : new.isBefore = true → uf ≠ .host ∧ s.isBefore = true) :
    HostOk (v.grow uf) new (i + 1) n := by
  have hsame : ∀ uf', uf' ≠ uf → (v.grow uf).fieldData uf' = u.fieldData uf' := fun uf' huf =>
    (fieldData_grow_of_ne huf).trans (hother uf' huf)
  constructor
  case inside =>
    intro uf'
    by_cases huf : uf' = uf
    · rw [huf]
      exact hv.grow.mono hn
    · exact (h.inside uf').congr (hsame uf' huf)
  case host =>
    by_cases huf : UrlField.host = uf
    · rw [huf]
      exact hv.grow
    · exact (h.host.mono (Nat.le_succ i)).congr (hsame _ huf)
  case empty =>
    intro hnew e he
    obtain ⟨hne, hs⟩ := hbefore hnew
    rw [hsame _ hne.symm] at he
    exact h.empty hs e he
  case here =>
    intro uf' huf
    rw [hfield] at huf
    cases huf
    exact hv.grow

/-- A byte that belongs to no field. -/
theorem HostOk.kept (h : HostOk u s i n) (hfield : new.field = none)
    (hbefore : new.isBefore = true → s.isBefore = true) : HostOk u new (i + 1) n where
  inside := h.inside
  host := h.host.mono (Nat.le_succ i)
  empty hnew := h.empty (hbefore hnew)
  here uf huf := by rw [hfield] at huf; cases huf

/-- A field that begins at the byte that is read. -/
theorem HostOk.begun (h : HostOk u s i n) (hn : i < n) (huf : uf ≠ .host)
    (hfield : new.field = some uf)
    (hbefore : new.isBefore = true → s.isBefore = true) :
    HostOk ((if s ≠ new then u.set uf ⟨i % 2 ^ 16, 0⟩ else u).grow uf) new (i + 1) n := by
  split_ifs with hsame
  · refine h.grown hn (ends_set (Nat.mod_le i _)) (fun uf' => fieldData_set_of_ne) hfield
      fun hb => ⟨huf, hbefore hb⟩
  · rw [not_not] at hsame
    exact h.grown hn (h.here uf (hsame ▸ hfield)) (fun _ _ => rfl) hfield
      fun hb => ⟨huf, hbefore hb⟩

/-- The host begins at the byte that is read, or goes on. -/
theorem HostOk.moved (h : HostOk u s i n) (hn : i < n) (hfield : new.field = some .host)
    (hnew : new.isBefore = false) (hs : s = new ∨ s.isBefore = true) :
    HostOk ((if s ≠ new then u.move .host i else u).grow .host) new (i + 1) n := by
  have hbefore : new.isBefore = true → UrlField.host ≠ .host ∧ s.isBefore = true := by
    rw [hnew]
    exact fun hb => by cases hb
  split_ifs with hsame
  · exact h.grown hn (ends_move (h.empty (hs.resolve_left hsame)))
      (fun uf' => fieldData_move_of_ne) hfield hbefore
  · exact h.grown hn h.host (fun _ _ => rfl) hfield hbefore

/-- One turn of the loop. -/
theorem HostOk.step (h : HostOk u s i n) (hn : i < n) {ch : UInt8}
    (hnew : httpParseHostChar s ch = new) (hdead : new ≠ .dead) :
    HostOk (u.hostStep s new i) new (i + 1) n := by
  have hbefore : new.isBefore = true → s.isBefore = true := by
    rw [← hnew]
    exact HostState.isBefore_of_char
  cases new with
  | dead => exact absurd rfl hdead
  | userinfoStart | hostStart | v6Start | v6End | portStart => exact h.kept rfl hbefore
  | userinfo => exact h.begun hn (by decide) rfl hbefore
  | port => exact h.begun hn (by decide) rfl hbefore
  | host =>
    refine h.moved hn rfl rfl ?_
    rcases HostState.eq_of_char_host hnew with hs | hs
    · exact .inl hs
    · exact .inr (hs ▸ rfl)
  | v6 =>
    refine h.moved hn rfl rfl ?_
    rcases HostState.eq_of_char_v6 hnew with hs | hs
    · exact .inl hs
    · exact .inr (hs ▸ rfl)
  | v6ZoneStart => exact h.grown hn h.host (fun _ _ => rfl) rfl fun hb => by cases hb
  | v6Zone => exact h.grown hn h.host (fun _ _ => rfl) rfl fun hb => by cases hb

/-- The loop stays inside of the URL. -/
theorem HostOk.loop (h : HostOk u s i n) {bytes : List UInt8} (hn : i + bytes.length ≤ n) :
    EndsWell (fun r => ∀ uf, r.1.Ends uf n) (hostLoop u s i bytes) := by
  induction bytes generalizing u s i with
  | nil => exact h.inside
  | cons ch rest ih =>
    rw [List.length_cons] at hn
    rw [hostLoop]
    split_ifs with hdead
    · exact rfl
    · exact ih (h.step (by omega) rfl hdead) (by omega)

end HostOk

/-- The host, the port and the user are parts of what the host was before. -/
theorem httpParseHost_ends (buf : List UInt8) {u : HttpParserUrl} {n : ℕ}
    (h : ∀ uf, u.Ends uf n) (hhost : (u.fieldData .host).isSome = true) (foundAt : Bool) :
    EndsWell (fun u' => ∀ uf, u'.Ends uf n) (httpParseHost buf u foundAt) := by
  obtain ⟨e, he⟩ := Option.isSome_iff_exists.mp hhost
  have hle := h .host e he
  -- the host is taken for empty before the loop
  have hstart : ∀ s : HostState, s.field = none →
      HostOk (u.set .host { e with len := 0 }) s e.off n := by
    intro s hs
    constructor
    case inside =>
      intro uf
      by_cases huf : uf = .host
      · rw [huf]
        exact ends_set (by dsimp only; omega)
      · exact (h uf).congr (fieldData_set_of_ne huf)
    case host => exact ends_set (le_refl _)
    case empty =>
      intro _ e' he'
      rw [fieldData_set_self] at he'
      cases he'
      rfl
    case here => exact fun uf huf => by rw [hs] at huf; cases huf
  have hlength : e.off + ((buf.drop e.off).take e.len).length ≤ n := by
    have htake := List.length_take_le e.len (buf.drop e.off)
    omega
  have hloop := (hstart (if foundAt then .userinfoStart else .hostStart)
    (by cases foundAt <;> rfl)).loop hlength
  rw [httpParseHost, he]
  dsimp only
  generalize hostLoop _ _ _ _ = r at hloop ⊢
  rcases r with e | ⟨u', s'⟩
  · exact hloop
  · dsimp only
    split_ifs
    · exact rfl
    · exact hloop

/-- The port is a number, and no field changes. -/
theorem convertPort_ends (buf : List UInt8) {u : HttpParserUrl} {n : ℕ} (h : ∀ uf, u.Ends uf n) :
    EndsWell (fun u' => ∀ uf, u'.Ends uf n) (convertPort buf u) := by
  unfold convertPort
  split
  · exact h
  · dsimp only
    split_ifs
    · exact rfl
    · exact h

/-- The second pass fails no assertion, and the fields it finds lie inside of the URL, also where
the URL is longer than the offsets can say. -/
theorem httpParserParseUrl_ends (buf : List UInt8) (buflen : ℕ) :
    EndsWell (fun u => ∀ uf, u.Ends uf buflen) (httpParserParseUrl buf buflen) := by
  have hstart : ∀ uf, UrlScan.start.u.Ends uf 0 := fun _ _ h => by cases h
  have hscan := UrlScan.run_ends hstart (buf.take buflen)
  have hlength : 0 + (buf.take buflen).length ≤ buflen := by
    rw [Nat.zero_add]
    exact List.length_take_le buflen buf
  unfold httpParserParseUrl
  generalize UrlScan.start.run 0 (buf.take buflen) = r at hscan ⊢
  rcases r with e | scan
  · exact hscan
  · have hu : ∀ uf, scan.u.Ends uf buflen := fun uf => (hscan uf).mono hlength
    dsimp only
    split
    · exact rfl
    · exact convertPort_ends buf hu
    · rename_i hhost
      have hparsed := httpParseHost_ends buf hu (Option.isSome_of_eq_some hhost) scan.foundAt
      generalize httpParseHost buf scan.u scan.foundAt = r at hparsed ⊢
      rcases r with e | u
      · exact hparsed
      · exact convertPort_ends buf hparsed

end Netxy.Vendored
