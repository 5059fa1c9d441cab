import Netxy.Http.Vendored.Callbacks

/-!
# A message in pieces

A connection hands its bytes to the parser as they come in. `Cut` relates the stream of all
the bytes to the stream of a parser that has been called for each piece: it may have reported
the beginning of a span already that the other one still has open. Every step keeps it, so the
callbacks say the same, however the bytes are cut.
-/

namespace Netxy.Vendored
open StateTransition (Reaches)
open Spans (Same)
open CString

/-! ## Two streams -/

/-- The pieces have reported the bytes `a` of a span that is open in the whole; a body need not
be open in both. -/
structure Ahead (w p : Stream) (k : Mark) (a b : List UInt8) : Prop where
  whole : w.span = some (k, a ++ b)
  log : Same (w.log ++ [.data k a]) p.log
  piece : p.span = some (k, b) ∨ p.span = none ∧ b = [] ∧ k = .body

/-- The stream of the whole and the stream of the pieces. -/
structure Cut (w p : Stream) : Prop where
  core : w.core = p.core
  spans : Same w.log p.log ∧ w.span = p.span ∨ ∃ k a b, Ahead w p k a b

namespace Cut

variable {w p : Stream} {c : Core} {ch : UInt8}

/-- What a cut does to the spans does not depend on the parser. -/
theorem withCore (h : Cut w p) (c : Core) : Cut { w with core := c } { p with core := c } := by
  refine ⟨rfl, h.spans.imp_right ?_⟩
  rintro ⟨k, a, b, h⟩
  exact ⟨k, a, b, h.whole, h.log, h.piece⟩

/-- A mark, where the whole can have no other span open. -/
theorem mark (h : Cut w p) {k : Option Mark}
    (hk : ∀ j, k = some j → w.kind = none ∨ w.kind = some j) : Cut (w.mark k) (p.mark k) := by
  refine ⟨h.core, ?_⟩
  rcases h.spans with ⟨hlog, hspan⟩ | ⟨j, a, b, hahead⟩
  · refine Or.inl ⟨hlog, ?_⟩
    show w.span.or _ = p.span.or _
    rw [hspan]
  · refine Or.inr ⟨j, a, b, ?_, hahead.log, ?_⟩
    · show w.span.or _ = _
      rw [hahead.whole]
      rfl
    · show p.span.or _ = _ ∨ p.span.or _ = _ ∧ _
      rcases hahead.piece with hspan | ⟨hspan, hb, hj⟩
      · rw [hspan]
        exact Or.inl rfl
      · rw [hspan, hb]
        cases k with
        | none => exact Or.inr ⟨rfl, rfl, hj⟩
        | some k =>
          have hkind : w.kind = some j := by rw [Stream.kind, hahead.whole]; rfl
          rcases hk k rfl with hnone | hsome
          · rw [hkind] at hnone
            cases hnone
          · rw [hkind] at hsome
            cases hsome
            exact Or.inl rfl

/-- The open span is handed over, with what was not yet in it. -/
theorem spanCallback_self {s : Stream} {k : Mark} {bytes : List UInt8}
    (h : s.span = some (k, bytes)) (more : List UInt8) :
    s.spanCallback k more = { s with span := none, log := s.log ++ [.data k (bytes ++ more)] } := by
  rw [Stream.spanCallback, h]
  exact if_pos rfl

/-- Where another span is open, or none, there is no callback. -/
theorem spanCallback_other {s : Stream} {k : Mark}
    (h : s.span = none ∨ ∃ j bytes, s.span = some (j, bytes) ∧ j ≠ k) (more : List UInt8) :
    s.spanCallback k more = s := by
  rw [Stream.spanCallback]
  rcases h with h | ⟨j, bytes, h, hne⟩
  · rw [h]
  · rw [h]
    exact if_neg hne

/-- A callback of the span that is open closes it in both. -/
theorem spanCallback (h : Cut w p) (k : Mark) (more : List UInt8)
    (hmore : p.span = none → w.span = none ∨ more = []) :
    Cut (w.spanCallback k more) (p.spanCallback k more) := by
  rcases h.spans with ⟨hlog, hspan⟩ | ⟨j, a, b, hahead⟩
  · cases hw : w.span with
    | none =>
      rw [spanCallback_other (Or.inl hw), spanCallback_other (Or.inl (hspan ▸ hw))]
      exact h
    | some r =>
      obtain ⟨j, bytes⟩ := r
      have hp : p.span = some (j, bytes) := hspan ▸ hw
      by_cases hj : j = k
      · subst hj
        rw [spanCallback_self hw, spanCallback_self hp]
        exact ⟨h.core, Or.inl ⟨hlog.append_right _, rfl⟩⟩
      · rw [spanCallback_other (Or.inr ⟨j, bytes, hw, hj⟩),
          spanCallback_other (Or.inr ⟨j, bytes, hp, hj⟩)]
        exact h
  · have hw := hahead.whole
    by_cases hj : j = k
    · subst hj
      rw [spanCallback_self hw]
      refine ⟨by rw [Stream.core_spanCallback]; exact h.core, Or.inl ?_⟩
      rcases hahead.piece with hp | ⟨hp, hb, -⟩
      · rw [spanCallback_self hp]
        refine ⟨?_, rfl⟩
        rw [List.append_assoc a]
        exact ((Spans.same_cut _ _ _ _).symm).trans (hahead.log.append_right _)
      · have hnil : more = [] := by
          rcases hmore hp with hnone | hnil
          · rw [hw] at hnone
            cases hnone
          · exact hnil
        rw [spanCallback_other (Or.inl hp), hb, hnil, List.append_nil, List.append_nil]
        exact ⟨hahead.log, hp.symm⟩
    · rw [spanCallback_other (Or.inr ⟨j, _, hw, hj⟩)]
      have hp : p.span = none ∨ ∃ j bytes, p.span = some (j, bytes) ∧ j ≠ k :=
        hahead.piece.elim (fun hp => Or.inr ⟨j, b, hp, hj⟩) fun hp => Or.inl hp.1
      rw [spanCallback_other hp]
      exact h

end Cut

/-- A callback without data. -/
def Call.isNote : Call → Bool
  | .notify _ | .notifyNoadvance _ => true
  | _ => false

/-- What an action does in the middle of a span of kind `k`: no callback without data, and each
byte of a body is marked. -/
structure Action.Within (k : Mark) (a : Action) : Prop where
  quiet : ∀ call, a.call = some call → call.isNote = false
  body : k = .body → a.next = .advance → a.mark = some .body ∨ a.call = some (.data .body)
  through : ∀ j, a.call = some (.dataThrough j) → a.mark = some j

namespace Action.Within

variable {k : Mark} {c : Core} {a : Action}

/-- A case without a callback. -/
theorem of_quiet (hcall : a.call = none) (hk : k ≠ .body) : a.Within k where
  quiet := by rw [hcall]; intro call h; cases h
  body := fun h => absurd h hk
  through := by rw [hcall]; intro j h; cases h

/-- A case that hands over the open span. -/
theorem of_data {j : Mark} (hcall : a.call = some (.data j) ∨ a.call = some (.dataNoadvance j))
    (hk : k ≠ .body) : a.Within k where
  quiet := by
    rcases hcall with h | h <;> rw [h] <;> (intro call h; cases h; rfl)
  body := fun h => absurd h hk
  through := by
    rcases hcall with h | h <;> rw [h] <;> (intro j h; cases h)

theorem fail (e : HttpErrno) : (fail c e).Within k where
  quiet := by intro call h; cases h
  body := by intro _ h; cases h
  through := by intro j h; cases h

theorem abort : (abort c).Within k where
  quiet := by intro call h; cases h
  body := by intro _ h; cases h
  through := by intro j h; cases h

theorem marked {next : Next} (hmark : a = ⟨c, some .body, false, none, next⟩) : a.Within k := by
  subst hmark
  exact ⟨(by intro call h; cases h), fun _ _ => Or.inl rfl, (by intro j h; cases h)⟩

end Action.Within

open Vendored.Action in
/-- Inside of a span every case leaves it open or hands it over. -/
theorem bytewise_within {c : Core} {k : Mark} (hk : Opens c.state (some k)) (ch : UInt8) :
    (bytewise c ch).Within k := by
  have hurl : ∀ c, (urlChar c ch none).Within .url := by
    intro c
    apply Within.of_quiet _ (by decide)
    unfold urlChar
    dsimp only
    split_ifs <;> rfl
  cases hs : c.state <;> rw [hs] at hk <;> simp only [bytewise, dispatch, hs]
  case headerField =>
    cases hk
    split_ifs
    · cases fieldChar c ch with
      | none => exact Within.abort
      | some c => exact Within.of_quiet rfl (by decide)
    · exact Within.of_data (Or.inl rfl) (by decide)
    · exact Within.fail _
  case headerValue =>
    cases hk
    split_ifs
    · exact Within.of_data (Or.inl rfl) (by decide)
    · exact Within.of_data (Or.inr rfl) (by decide)
    · cases valueChar c ch with
      | ok c => exact Within.of_quiet rfl (by decide)
      | error e => exact Within.fail _
      | abort => exact Within.abort
  case resStatus =>
    cases hk
    unfold resStatus
    split_ifs
    · exact Within.of_data (Or.inl rfl) (by decide)
    · exact Within.of_data (Or.inl rfl) (by decide)
    · exact Within.of_quiet rfl (by decide)
  case reqSchema | reqSchemaSlash | reqSchemaSlashSlash | reqServerStart =>
    cases hk
    unfold urlStart
    split_ifs
    · exact Within.fail _
    · exact hurl c
  case reqServer | reqServerWithAt | reqPath | reqQueryStringStart | reqQueryString
      | reqFragmentStart | reqFragment =>
    cases hk
    unfold urlRest
    split_ifs
    · exact Within.of_data (Or.inl rfl) (by decide)
    · exact Within.of_data (Or.inl rfl) (by decide)
    · exact Within.of_data (Or.inl rfl) (by decide)
    · exact hurl c
  case bodyIdentity =>
    split_ifs
    · exact Within.abort
    · exact ⟨(by intro call h; cases h; rfl), fun _ _ => Or.inl rfl,
        (by intro j h; cases h; rfl)⟩
    · exact Within.marked rfl
  case bodyIdentityEof => exact Within.marked rfl
  case chunkData =>
    split_ifs
    · exact Within.abort
    · exact Within.marked rfl
    · exact Within.marked rfl
  case chunkDataAlmostDone =>
    unfold chunkDataAlmostDone assert strict
    split_ifs
    · exact Within.fail _
    · exact ⟨(by intro call h; cases h; rfl), fun _ _ => Or.inr rfl, (by intro j h; cases h)⟩
    · exact Within.abort
  all_goals cases hk

/-! ## Steps and runs -/

namespace Cut

variable {w p : Stream} {ch : UInt8}

theorem kind_of_span {s : Stream} {k : Mark} {bytes : List UInt8} (h : s.span = some (k, bytes)) :
    s.kind = some k := by
  rw [Stream.kind, h]
  rfl

/-- The same action on both sides keeps them together. -/
theorem perform (h : Cut w p) (hw : w.Good) {a : Action}
    (ha : a = bytewise w.core ch) : Cut (w.perform ch a) (p.perform ch a) := by
  have hok : a.Ok w.core.state w.kind := ha ▸ bytewise_ok hw.core hw.opens ch
  have hwithin : ∀ k, w.kind = some k → a.Within k := by
    intro k hk
    rw [ha]
    exact bytewise_within (hk ▸ hw.opens) ch
  have hmark := (h.withCore a.core).mark hok.mark
  unfold Stream.perform Stream.call
  cases hcall : a.call with
  | none => exact hmark
  | some call =>
    have hnote : ∀ n, call.isNote = true →
        Cut { ({ w with core := a.core } : Stream).mark a.mark with
            log := (({ w with core := a.core } : Stream).mark a.mark).log ++ [.note n] }
          { ({ p with core := a.core } : Stream).mark a.mark with
            log := (({ p with core := a.core } : Stream).mark a.mark).log ++ [.note n] } := by
      intro n hn
      rcases h.spans with ⟨hlog, hspan⟩ | ⟨k, _, _, hahead⟩
      · refine ⟨rfl, Or.inl ⟨hlog.append_right _, ?_⟩⟩
        show w.span.or _ = p.span.or _
        rw [hspan]
      · have hquiet := (hwithin k (kind_of_span hahead.whole)).quiet call hcall
        rw [hn] at hquiet
        cases hquiet
    cases call with
    | data k => exact hmark.spanCallback k [] fun _ => Or.inr rfl
    | dataNoadvance k => exact hmark.spanCallback k [] fun _ => Or.inr rfl
    | dataThrough k =>
      apply hmark.spanCallback k [ch]
      intro hnone
      refine Or.inl ?_
      rcases h.spans with ⟨-, hspan⟩ | ⟨j, _, _, hahead⟩
      · rw [← hnone]
        show w.span.or _ = p.span.or _
        rw [hspan]
      · -- the byte is marked, so the span is open in both
        have hthrough := (hwithin j (kind_of_span hahead.whole)).through k hcall
        rw [hthrough] at hnone
        change p.span.or (some (k, [])) = none at hnone
        rw [Option.or_eq_none_iff] at hnone
        cases hnone.2
    | notify n => exact hnote n rfl
    | notifyNoadvance n => exact hnote n rfl

/-- The byte is added to the span on both sides. -/
theorem append (h : Cut w p) (hpiece : p.span = none → w.span = none) :
    Cut (w.append ch) (p.append ch) := by
  refine ⟨h.core, ?_⟩
  rcases h.spans with ⟨hlog, hspan⟩ | ⟨k, a, b, hahead⟩
  · refine Or.inl ⟨hlog, ?_⟩
    show w.span.map _ = p.span.map _
    rw [hspan]
  · refine Or.inr ⟨k, a, b ++ [ch], ?_, hahead.log, Or.inl ?_⟩
    · show w.span.map _ = _
      rw [hahead.whole, ← List.append_assoc]
      rfl
    · rcases hahead.piece with hspan | ⟨hspan, -, -⟩
      · show p.span.map _ = _
        rw [hspan]
        rfl
      · have hnone := hpiece hspan
        rw [hahead.whole] at hnone
        cases hnone

/-- The kinds of the open spans differ in the middle of a body alone. -/
theorem kind_eq (h : Cut w p) : w.kind = p.kind ∨ w.kind = some .body ∧ p.kind = none := by
  rcases h.spans with ⟨-, hspan⟩ | ⟨k, a, b, hahead⟩
  · exact Or.inl (congrArg (Option.map Prod.fst) hspan)
  · rw [kind_of_span hahead.whole]
    rcases hahead.piece with hspan | ⟨hspan, -, rfl⟩
    · exact Or.inl (kind_of_span hspan).symm
    · exact Or.inr ⟨rfl, by rw [Stream.kind, hspan]; rfl⟩

/-- One byte on both sides. -/
theorem advance (h : Cut w p) (hw : w.Good) (hp : p.Good) {a : Action}
    (ha : a = bytewise w.core ch) (hnext : a.next = .advance) :
    Cut ((w.perform ch a).append ch) ((p.perform ch a).append ch) := by
  have hokw : a.Ok w.core.state w.kind := ha ▸ bytewise_ok hw.core hw.opens ch
  have hokp : a.Ok p.core.state p.kind := by
    rw [ha, h.core]
    exact bytewise_ok hp.core hp.opens ch
  apply (h.perform hw ha).append
  intro hnone
  have hleft : a.left p.kind = none := by
    rw [← Stream.kind_perform hokp ch, Stream.kind, hnone]
    rfl
  apply Option.map_eq_none_iff.1
  show (w.perform ch a).kind = none
  rw [Stream.kind_perform hokw ch]
  rcases h.kind_eq with hkind | ⟨hkw, hkp⟩
  · rwa [hkind]
  · have hwithin : a.Within .body := by
      rw [ha]
      exact bytewise_within (hkw ▸ hw.opens) ch
    rcases hwithin.body rfl hnext with hmark | hcall
    · unfold Action.left Action.marked at hleft ⊢
      rw [hkp, hmark] at hleft
      split_ifs at hleft ⊢ with hdata
      · rfl
      · cases hleft
    · rw [Action.left, Action.dataMark, hcall]
      rfl

/-- An open span is what is handed over at the end. -/
theorem flushed_of_span {s : Stream} {k : Mark} {bytes : List UInt8}
    (h : s.span = some (k, bytes)) : s.flushed = s.log ++ [.data k bytes] := by
  rw [Stream.flushed, h]

theorem flushed_of_none {s : Stream} (h : s.span = none) : s.flushed = s.log := by
  rw [Stream.flushed, h]

/-- At the end both have said the same. -/
theorem flushed (h : Cut w p) : Same w.flushed p.flushed := by
  rcases h.spans with ⟨hlog, hspan⟩ | ⟨k, a, b, hahead⟩
  · cases hw : w.span with
    | none =>
      rw [flushed_of_none hw, flushed_of_none (hspan ▸ hw)]
      exact hlog
    | some r =>
      rw [flushed_of_span (show w.span = some (r.1, r.2) from hw),
        flushed_of_span (show p.span = some (r.1, r.2) from hspan ▸ hw)]
      exact hlog.append_right _
  · rw [flushed_of_span hahead.whole]
    rcases hahead.piece with hp | ⟨hp, rfl, -⟩
    · rw [flushed_of_span hp]
      exact ((Spans.same_cut _ _ _ _).symm).trans (hahead.log.append_right _)
    · rw [flushed_of_none hp, List.append_nil]
      exact hahead.log

end Cut

/-- The stream of the next call. -/
def Stream.reopen (s : Stream) : Stream :=
  ⟨s.core, (Machine.startMark s.core.state).map fun k => (k, []), s.flushed⟩

/-- A span goes on behind a cut, but for that of a body, which is opened anew. -/
theorem startMark_of_opens {st : State} {k : Option Mark} (h : Opens st k) :
    Machine.startMark st = k ∨ Machine.startMark st = none ∧ k = some .body := by
  cases st <;> first
    | exact Or.inl h.symm
    | exact h.elim (fun h => Or.inl h.symm) fun h => Or.inr ⟨rfl, h⟩

/-- A cut between two pieces: the span that is open is reported, and goes on in the next. -/
theorem Cut.reopen {w p : Stream} (h : Cut w p) (hw : w.Good) : Cut w p.reopen := by
  refine ⟨h.core, ?_⟩
  have hflushed := h.flushed
  cases hspan : w.span with
  | none =>
    have hopens : Opens w.core.state none := by
      have hopens := hw.opens
      rwa [Stream.kind, hspan] at hopens
    rw [flushed_of_none hspan] at hflushed
    refine Or.inl ⟨hflushed, ?_⟩
    show none = (Machine.startMark p.core.state).map _
    rw [← h.core]
    rcases startMark_of_opens hopens with hmark | ⟨-, hmark⟩
    · rw [hmark]
      rfl
    · cases hmark
  | some r =>
    obtain ⟨k, bytes⟩ := r
    have hopens : Opens w.core.state (some k) := kind_of_span hspan ▸ hw.opens
    rw [flushed_of_span hspan] at hflushed
    refine Or.inr ⟨k, bytes, [], by rw [List.append_nil]; exact hspan, hflushed, ?_⟩
    show (Machine.startMark p.core.state).map _ = _ ∨ (Machine.startMark p.core.state).map _ = _ ∧ _
    rw [← h.core]
    rcases startMark_of_opens hopens with hmark | ⟨hmark, hk⟩
    · rw [hmark]
      exact Or.inl rfl
    · rw [hmark]
      exact Or.inr ⟨rfl, rfl, Option.some.inj hk⟩

/-! ## Runs over a piece -/

/-- The whole, with `tail` behind the piece, and the piece. -/
inductive CutAt (tail : List UInt8) : Stream.Config → Stream.Config → Prop
  | running {w p : Stream} (rest : List UInt8) (h : Cut w p) (hw : w.Good) (hp : p.Good) :
    CutAt tail (.running w (rest ++ tail)) (.running p rest)
  | stopped {w p : Stream} (rest : List UInt8) (h : Cut w p)
    (hkind : w.core.httpErrno = .OK → w.kind = none) :
    CutAt tail (.stopped w (rest ++ tail)) (.stopped p rest)

/-- A step of the piece is one of the whole. -/
theorem CutAt.step {tail : List UInt8} {cw cp cp' : Stream.Config} (h : CutAt tail cw cp)
    (hstep : Stream.step cp = some cp') :
    ∃ cw', Stream.step cw = some cw' ∧ CutAt tail cw' cp' := by
  cases h with
  | stopped rest h hkind => cases hstep
  | running rest h hw hp =>
    rename_i w p
    cases rest with
    | nil => cases hstep
    | cons ch rest =>
      obtain ⟨hruns, hwadvance, hwagain, hwerror, hwexit⟩ := hw.perform ch rfl
      have hbyte : bytewise w.core ch = bytewise p.core ch := by rw [h.core]
      obtain ⟨-, hpadvance, hpagain, -, -⟩ := hp.perform ch hbyte
      have hcut : Cut (w.perform ch (bytewise w.core ch)) (p.perform ch (bytewise w.core ch)) :=
        h.perform hw rfl
      have hcore := Stream.core_perform w ch (bytewise w.core ch)
      rw [Stream.step_eq rest hbyte] at hstep
      rw [List.cons_append, Stream.step_eq (rest ++ tail) rfl]
      cases hnext : (bytewise w.core ch).next with
      | advance =>
        rw [hnext] at hstep
        cases hstep
        exact ⟨_, rfl, .running rest (h.advance hw hp rfl hnext) (hwadvance hnext)
          (hpadvance hnext)⟩
      | reexecute =>
        rw [hnext] at hstep
        cases hstep
        exact ⟨_, rfl, .running (ch :: rest) hcut (hwagain hnext).1 (hpagain hnext).1⟩
      | error =>
        rw [hnext] at hstep
        cases hstep
        refine ⟨_, rfl, .stopped (ch :: rest) hcut ?_⟩
        rw [hcore]
        exact fun hOK => absurd hOK (hwerror hnext)
      | exit =>
        rw [hnext] at hstep
        cases hstep
        exact ⟨_, rfl, .stopped rest hcut fun _ => (hwexit hnext).2.2.2⟩
      | abort => exact absurd hnext hruns

/-- So is a run. -/
theorem CutAt.reaches {tail : List UInt8} {cw cp cp' : Stream.Config} (h : CutAt tail cw cp)
    (hreach : Reaches Stream.step cp cp') :
    ∃ cw', Reaches Stream.step cw cw' ∧ CutAt tail cw' cp' := by
  induction hreach with
  | refl => exact ⟨cw, Relation.ReflTransGen.refl, h⟩
  | tail _ hstep ih =>
    obtain ⟨cw₁, hreach, hcut⟩ := ih
    obtain ⟨cw', hstep', hcut'⟩ := hcut.step hstep
    exact ⟨cw', hreach.tail hstep', hcut'⟩

/-- Where the piece comes to its end, so does the whole. -/
theorem CutAt.stops {tail : List UInt8} {cw cp : Stream.Config} (h : CutAt tail cw cp)
    (hcp : Stream.step cp = none) :
    (∃ w p, cw = .running w tail ∧ cp = .running p [] ∧ Cut w p ∧ w.Good ∧ p.Good) ∨
    ∃ w p rest, cw = .stopped w (rest ++ tail) ∧ cp = .stopped p rest ∧ Cut w p ∧
      (w.core.httpErrno = .OK → w.kind = none) := by
  cases h with
  | stopped rest h hkind => exact Or.inr ⟨_, _, rest, rfl, rfl, h, hkind⟩
  | running rest h hw hp =>
    rename_i w p
    cases rest with
    | nil => exact Or.inl ⟨w, p, rfl, rfl, h, hw, hp⟩
    | cons ch rest =>
      -- a good stream goes on in front of a byte
      obtain ⟨hruns, -⟩ := hp.perform ch rfl
      rw [Stream.step_eq rest rfl] at hcp
      cases hnext : (bytewise p.core ch).next <;> rw [hnext] at hcp <;>
        first | exact absurd hnext hruns | cases hcp

/-! ## Calls -/

namespace HttpParser

variable {parser : HttpParser}

/-- Calls for one piece after the other, up to one that is not read to its end: the parser and
the number of bytes read. -/
def executeAll (settings : Settings) : HttpParser → List (List UInt8) → Option (HttpParser × ℕ)
  | parser, [] => some (parser, 0)
  | parser, data :: pieces => do
    let (parser, n) ← parser.execute settings data
    if parser.core.httpErrno ≠ .OK ∨ n < data.length then return (parser, n)
    let (parser, k) ← executeAll settings parser pieces
    return (parser, n + k)

/-- Call after call ends. -/
theorem executeAll_total {pieces : List (List UInt8)} :
    ∀ {parser : HttpParser}, parser.Good → (∀ data ∈ pieces, data.length < 2 ^ 31) →
      ∃ parser' n, parser.executeAll allOk pieces = some (parser', n) := by
  induction pieces with
  | nil => exact fun {parser} _ _ => ⟨parser, 0, rfl⟩
  | cons data pieces ih =>
    intro parser h hlen
    obtain ⟨parser₁, n, hexecute, hgood, -⟩ := execute_total allOk h (hlen data List.mem_cons_self)
    rw [executeAll, hexecute]
    by_cases hstop : parser₁.core.httpErrno ≠ .OK ∨ n < data.length
    · refine ⟨parser₁, n, ?_⟩
      show (if _ then _ else _) = _
      rw [if_pos hstop]
      rfl
    · obtain ⟨parser', k, hrest⟩ := ih hgood fun d hd => hlen d (List.mem_cons_of_mem _ hd)
      refine ⟨parser', n + k, ?_⟩
      show (if _ then _ else _) = _
      rw [if_neg hstop, hrest]
      rfl

/-- What the callbacks of the pieces say: the same as those of the whole. An error drops the
span that is open, of which the pieces may have reported the beginning. -/
def Agree (c : Core) (whole pieces : List Callback) : Prop :=
  ∃ reported : List Callback, Same (whole ++ reported) pieces ∧
    (reported = [] ∨ c.httpErrno ≠ .OK ∧ ∃ k bytes, reported = [.data k bytes])

/-- What the pieces said is what the whole said. -/
theorem agree_of_cut {w p : Stream} (h : Cut w p) (hkind : w.core.httpErrno = .OK → w.kind = none) :
    Agree w.core w.log p.log := by
  rcases h.spans with ⟨hlog, -⟩ | ⟨k, a, b, hahead⟩
  · exact ⟨[], by rw [List.append_nil]; exact hlog, Or.inl rfl⟩
  · refine ⟨[.data k a], hahead.log, Or.inr ⟨?_, k, a, rfl⟩⟩
    intro hOK
    have hnone := hkind hOK
    rw [Cut.kind_of_span hahead.whole] at hnone
    cases hnone

/-- The first piece, and the rest if it was read to its end. -/
theorem executeAll_cons {parser parser₁ split : HttpParser} {data : List UInt8}
    {pieces : List (List UInt8)} {n k : ℕ} (hexecute : parser.execute allOk data = some (parser₁, n))
    (h : parser.executeAll allOk (data :: pieces) = some (split, k)) :
    (parser₁.core.httpErrno ≠ .OK ∨ n < data.length) ∧ split = parser₁ ∧ k = n ∨
    parser₁.core.httpErrno = .OK ∧ data.length ≤ n ∧
      ∃ j, parser₁.executeAll allOk pieces = some (split, j) ∧ k = n + j := by
  rw [executeAll, hexecute] at h
  change (if _ then _ else _) = _ at h
  by_cases hstop : parser₁.core.httpErrno ≠ .OK ∨ n < data.length
  · rw [if_pos hstop] at h
    cases h
    exact Or.inl ⟨hstop, rfl, rfl⟩
  · rw [if_neg hstop] at h
    obtain ⟨hOK, hle⟩ := not_or.1 hstop
    refine Or.inr ⟨not_not.1 hOK, not_lt.1 hle, ?_⟩
    cases hrest : parser₁.executeAll allOk pieces with
    | none =>
      rw [hrest] at h
      cases h
    | some r =>
      rw [hrest] at h
      cases h
      exact ⟨r.2, rfl, rfl⟩

/-- One call follows the stream of the whole, with `tail` behind the piece. -/
theorem execute_follows {parser parser₁ : HttpParser} {w : Stream} {data : List UInt8} {n : ℕ}
    (tail : List UInt8) (hgood : parser.Good) (hOK : parser.core.httpErrno = .OK)
    (hcut : Cut w parser.stream) (hw : w.Good) (hne : data ≠ []) (hlen : data.length < 2 ^ 31)
    (hexecute : parser.execute allOk data = some (parser₁, n))
    (hover : parser₁.core.httpErrno ≠ .HEADER_OVERFLOW) :
    parser₁.Good ∧
    ((∃ w', Reaches Stream.step (.running w (data ++ tail)) (.running w' tail) ∧
        n = data.length ∧ parser₁.core.httpErrno = .OK ∧ w'.Good ∧ Cut w' parser₁.stream ∧
        Same w'.flushed parser₁.log) ∨
      ∃ w' rest, Reaches Stream.step (.running w (data ++ tail)) (.stopped w' (rest ++ tail)) ∧
        w'.core = parser₁.core ∧ n + rest.length = data.length ∧
        Agree w'.core w'.log parser₁.log) := by
  obtain ⟨parser', n', hexecute', hle, -, hgood', hend⟩ := execute_spec hgood hOK hne hlen
  rw [hexecute] at hexecute'
  cases hexecute'
  refine ⟨hgood', ?_⟩
  obtain ⟨cp, hreach, hstop, hcore, hlog, hrest⟩ := hend.resolve_left fun h => hover h.1
  have hstream := stream_good (hgood hOK).1
  have hstart : CutAt tail (.running w (data ++ tail)) (.running parser.stream data) :=
    .running data hcut hw hstream
  obtain ⟨cw, hreach', hat⟩ := hstart.reaches hreach
  rcases hat.stops hstop with ⟨w', p', rfl, rfl, hcut', hw', hp'⟩ |
      ⟨w', p', rest, rfl, rfl, hcut', hkind⟩
  · refine Or.inl ⟨w', hreach', ?_, ?_, hw', ?_, ?_⟩
    · exact Nat.le_antisymm hle (List.drop_eq_nil_iff.1 hrest.symm)
    · rw [← hcore]
      exact hp'.core.errno
    · have hreopen := hcut'.reopen hw'
      have heq : p'.reopen = parser₁.stream := by
        unfold Stream.reopen stream
        rw [← hcore, ← hlog]
        rfl
      rwa [heq] at hreopen
    · rw [← hlog]
      exact hcut'.flushed
  · refine Or.inr ⟨w', rest, hreach', hcut'.core.trans hcore, ?_, ?_⟩
    · rw [show rest = data.drop n from hrest, List.length_drop]
      omega
    · rw [← hlog]
      exact agree_of_cut hcut' hkind

/-- The calls for the pieces follow the stream of the whole, up to an upgrade. -/
theorem executeAll_follows {pieces : List (List UInt8)} :
    ∀ {data : List UInt8} {parser split : HttpParser} {w : Stream} {n : ℕ}, parser.Good →
      parser.core.httpErrno = .OK → Cut w parser.stream → w.Good →
      (∀ d ∈ data :: pieces, d ≠ [] ∧ d.length < 2 ^ 31) →
      parser.executeAll allOk (data :: pieces) = some (split, n) →
      split.core.httpErrno ≠ .HEADER_OVERFLOW →
      ∃ c, Reaches Stream.step (.running w (data :: pieces).flatten) c ∧ Stream.step c = none ∧
        ((c.core.httpErrno = .OK → c.rest = []) →
          c.core = split.core ∧ n + c.rest.length = (data :: pieces).flatten.length ∧
            Agree c.core c.callbacks split.log) := by
  induction pieces with
  | nil =>
    intro data parser split w n hgood hOK hcut hw hpieces hall hover
    obtain ⟨hne, hlen⟩ := hpieces data List.mem_cons_self
    obtain ⟨parser₁, n₁, hexecute, -⟩ := execute_total allOk hgood hlen
    obtain ⟨rfl, rfl⟩ : split = parser₁ ∧ n = n₁ := by
      rcases executeAll_cons hexecute hall with ⟨-, hs, hn⟩ | ⟨-, -, j, hnil, hn⟩
      · exact ⟨hs, hn⟩
      · cases hnil
        exact ⟨rfl, hn⟩
    obtain ⟨-, ⟨w', hreach, hn, hOK', hw', hcut', hlog⟩ | ⟨w', rest, hreach, hcore, hn, hagree⟩⟩ :=
      execute_follows [] hgood hOK hcut hw hne hlen hexecute hover
    · refine ⟨_, hreach, rfl, fun _ => ⟨hcut'.core, ?_, [], ?_, Or.inl rfl⟩⟩
      · show n + 0 = (data ++ []).length
        rw [List.append_nil, hn, Nat.add_zero]
      · show Same (w'.flushed ++ []) split.log
        rwa [List.append_nil]
    · refine ⟨_, hreach, rfl, fun _ => ⟨hcore, ?_, hagree⟩⟩
      show n + (rest ++ []).length = (data ++ []).length
      rw [List.append_nil, List.append_nil]
      exact hn
  | cons d pieces ih =>
    intro data parser split w n hgood hOK hcut hw hpieces hall hover
    obtain ⟨hne, hlen⟩ := hpieces data List.mem_cons_self
    obtain ⟨parser₁, n₁, hexecute, -⟩ := execute_total allOk hgood hlen
    have hover₁ : parser₁.core.httpErrno ≠ .HEADER_OVERFLOW := by
      rcases executeAll_cons hexecute hall with ⟨-, hs, -⟩ | ⟨hOK', -⟩
      · rwa [← hs]
      · rw [hOK']
        decide
    obtain ⟨hgood₁, ⟨w', hreach, hn, hOK', hw', hcut', -⟩ | ⟨w', rest, hreach, hcore, hn, hagree⟩⟩ :=
      execute_follows (d :: pieces).flatten hgood hOK hcut hw hne hlen hexecute hover₁
    · obtain ⟨j, hall', rfl⟩ : ∃ j, parser₁.executeAll allOk (d :: pieces) = some (split, j) ∧
          n = n₁ + j := by
        rcases executeAll_cons hexecute hall with ⟨hstop, -, -⟩ | ⟨-, -, h⟩
        · rcases hstop with h | h
          · exact absurd hOK' h
          · omega
        · exact h
      obtain ⟨c, hreach', hstop, hagree⟩ := ih hgood₁ hOK' hcut' hw'
        (fun e he => hpieces e (List.mem_cons_of_mem _ he)) hall' hover
      refine ⟨c, hreach.trans hreach', hstop, fun hupgrade => ?_⟩
      obtain ⟨hcore, hlength, hlog⟩ := hagree hupgrade
      refine ⟨hcore, ?_, hlog⟩
      rw [List.flatten_cons, List.length_append, ← hlength, ← hn, Nat.add_assoc]
    · refine ⟨_, hreach, rfl, fun hupgrade => ?_⟩
      -- a parser that is stopped here has failed
      have hfails : parser₁.core.httpErrno ≠ .OK := by
        intro hOK'
        have hnil : rest ++ (d :: pieces).flatten = [] :=
          hupgrade (by show w'.core.httpErrno = .OK; rw [hcore]; exact hOK')
        have hd := (List.append_eq_nil_iff.1 (List.append_eq_nil_iff.1 hnil).2).1
        exact (hpieces d (List.mem_cons_of_mem _ List.mem_cons_self)).1 hd
      obtain ⟨rfl, rfl⟩ : split = parser₁ ∧ n = n₁ := by
        rcases executeAll_cons hexecute hall with ⟨-, hs, hn⟩ | ⟨hOK', -⟩
        · exact ⟨hs, hn⟩
        · exact absurd hOK' hfails
      refine ⟨hcore, ?_, hagree⟩
      show n + (rest ++ _).length = (data ++ _).length
      rw [List.length_append, List.length_append, ← hn, Nat.add_assoc]

/-- However the bytes are cut into pieces, with callbacks that return zero the calls for the pieces
leave the parser that one call for all of them leaves, but for its count of the header. They read
as many bytes, and their callbacks say the same. A limit on the header that is hit, and an upgrade,
are left aside: the count of the header takes a cut into account, and behind an upgrade the bytes
are not for the parser. -/
theorem executeAll_eq_execute {parser : HttpParser} (h : Reachable parser)
    (hOK : parser.core.httpErrno = .OK) {pieces : List (List UInt8)} (hne : pieces ≠ [])
    (hpieces : ∀ data ∈ pieces, data ≠ []) (hlen : pieces.flatten.length < 2 ^ 31) :
    ∃ whole n split k, parser.execute allOk pieces.flatten = some (whole, n) ∧
      parser.executeAll allOk pieces = some (split, k) ∧
      (whole.core.httpErrno ≠ .HEADER_OVERFLOW → split.core.httpErrno ≠ .HEADER_OVERFLOW →
        (whole.core.httpErrno = .OK → n = pieces.flatten.length) →
        split.core = whole.core ∧ k = n ∧ Agree whole.core whole.log split.log) := by
  have hgood := h.good
  have hsmall : ∀ data ∈ pieces, data.length < 2 ^ 31 := fun data hdata =>
    (List.sublist_flatten_of_mem hdata).length_le.trans_lt hlen
  obtain ⟨data, rest, rfl⟩ := List.exists_cons_of_ne_nil hne
  have hflat : (data :: rest).flatten ≠ [] := by
    intro hnil
    exact hpieces data List.mem_cons_self (List.append_eq_nil_iff.1 hnil).1
  obtain ⟨whole, n, hwhole, hle, -, -, hend⟩ := execute_spec hgood hOK hflat hlen
  obtain ⟨split, k, hsplit⟩ := executeAll_total hgood hsmall
  refine ⟨whole, n, split, k, hwhole, hsplit, fun hover hover' hread => ?_⟩
  obtain ⟨c, hreach, hstop, hcore, hlog, hrest⟩ := hend.resolve_left fun h => hover h.1
  have hstream := stream_good (hgood hOK).1
  obtain ⟨c', hreach', hstop', hfollows⟩ := executeAll_follows hgood hOK
    ⟨rfl, Or.inl ⟨Same.refl _, rfl⟩⟩ hstream (fun d hd => ⟨hpieces d hd, hsmall d hd⟩) hsplit hover'
  -- both runs end at the same place
  have heq : c' = c := Part.mem_unique (StateTransition.mem_eval.2 ⟨hreach', hstop'⟩)
    (StateTransition.mem_eval.2 ⟨hreach, hstop⟩)
  subst heq
  obtain ⟨hcore', hlength, hagree⟩ := hfollows fun hOK' => by
    rw [hrest, hread (hcore ▸ hOK'), List.drop_length]
  refine ⟨hcore'.symm.trans hcore, ?_, ?_⟩
  · rw [hrest, List.length_drop] at hlength
    omega
  · rwa [← hcore, ← hlog]

/-- The method in two pieces. -/
theorem executeAll_eq_execute_get :
    ∃ whole n split k, (init .request).execute allOk (ascii "GET ") = some (whole, n) ∧
      (init .request).executeAll allOk [ascii "GE", ascii "T "] = some (split, k) ∧
      split.core = whole.core ∧ k = n ∧ Agree whole.core whole.log split.log := by
  obtain ⟨whole, n, split, k, hwhole, hsplit, hagree⟩ := executeAll_eq_execute
    (.init .request) rfl (show [ascii "GE", ascii "T "] ≠ [] by decide) (by decide) (by decide)
  have hw : ((init .request).execute allOk (ascii "GET ")).map
      (fun r => (r.1.core.httpErrno, r.2)) = some (.OK, 4) := by decide
  have hs : ((init .request).executeAll allOk [ascii "GE", ascii "T "]).map
      (fun r => r.1.core.httpErrno) = some .OK := by decide
  change (init .request).execute allOk (ascii "GET ") = _ at hwhole
  rw [hwhole] at hw
  rw [hsplit] at hs
  obtain ⟨hOK, hn⟩ := Prod.mk.inj (Option.some.inj hw)
  refine ⟨whole, n, split, k, hwhole, hsplit, hagree ?_ ?_ fun _ => hn⟩
  · rw [show whole.core.httpErrno = .OK from hOK]
    decide
  · rw [show split.core.httpErrno = .OK from Option.some.inj hs]
    decide

end HttpParser

end Netxy.Vendored
