import Netxy.Http.Vendored.Bytewise
import Mathlib.Computability.StateTransition

/-!
# `http_parser_execute` refines the byte stream

With callbacks that return zero, as those of `HttpParser` do on a URL they can read, a turn of the
loop over a buffer is one or more steps of `Stream.step`: `Follows` relates the marks to the span
that is open, `Explains` is what a turn may do. A whole call with such callbacks ends where the
byte stream ends, unless the header is too long. (Callbacks that return anything are the matter of
`Callbacks`.)
-/

namespace Netxy.Vendored
open StateTransition (Reaches)

/-! ## Streams -/

namespace Stream

/-- The kind of the span that is open. -/
def kind (s : Stream) : Option Mark := s.span.map Prod.fst

/-- The invariant of a byte stream. -/
structure Good (s : Stream) : Prop where
  core : s.core.Good
  opens : Opens s.core.state s.kind

/-- A mark opens the span of its kind, unless one is open. -/
theorem kind_mark (s : Stream) (k : Option Mark) : (s.mark k).kind = s.kind.or k := by
  rcases s with ⟨c, _ | r, log⟩ <;> rcases k with _ | k <;> rfl

/-- A callback closes its span. -/
theorem kind_spanCallback {s : Stream} {k : Mark} (hk : s.kind = none ∨ s.kind = some k)
    (more : List UInt8) : (s.spanCallback k more).kind = none := by
  rcases s with ⟨c, _ | ⟨k', bytes⟩, log⟩
  · rfl
  · rcases hk with hk | hk
    · cases hk
    · cases hk
      show kind (if k' = k' then _ else _) = none
      rw [if_pos rfl]
      rfl

/-- What an action leaves of the span. -/
theorem kind_perform {s : Stream} {st : State} {a : Action} (h : a.Ok st s.kind) (ch : UInt8) :
    (s.perform ch a).kind = a.left s.kind := by
  have hmark : (({ s with core := a.core } : Stream).mark a.mark).kind = a.marked s.kind :=
    kind_mark _ _
  have hcall := h.call
  unfold perform Action.left Action.dataMark
  unfold Action.dataMark at hcall
  cases hc : a.call with
  | none => exact hmark
  | some call =>
    rw [hc] at hcall
    cases call with
    | data k | dataNoadvance k | dataThrough k =>
      exact kind_spanCallback (by rw [hmark]; exact hcall k rfl) _
    | notify n | notifyNoadvance n => exact hmark

theorem core_spanCallback (s : Stream) (k : Mark) (more : List UInt8) :
    (s.spanCallback k more).core = s.core := by
  unfold spanCallback
  split
  · split_ifs <;> rfl
  · rfl

/-- The parser after an action is the one the action says. -/
theorem core_perform (s : Stream) (ch : UInt8) (a : Action) : (s.perform ch a).core = a.core := by
  unfold perform call
  split <;> first | rfl | exact core_spanCallback _ _ _

theorem kind_append (s : Stream) (ch : UInt8) : (s.append ch).kind = s.kind := by
  rcases s with ⟨c, _ | r, log⟩ <;> rfl

/-- The bytewise machine takes its next step from the action. -/
theorem step_eq {s : Stream} {ch : UInt8} {a : Action} (rest : List UInt8)
    (ha : a = bytewise s.core ch) :
    Stream.step (.running s (ch :: rest)) = match a.next with
      | .advance => some (.running ((s.perform ch a).append ch) rest)
      | .reexecute => some (.running (s.perform ch a) (ch :: rest))
      | .error => some (.stopped (s.perform ch a) (ch :: rest))
      | .exit => some (.stopped (s.perform ch a) rest)
      | .abort => none := by
  rw [ha]
  rfl

/-- What the invariant says of the next step. -/
theorem Good.perform {s : Stream} (hs : s.Good) (ch : UInt8) {a : Action}
    (ha : a = bytewise s.core ch) :
    a.next ≠ .abort ∧
    (a.next = .advance → ((s.perform ch a).append ch).Good) ∧
    (a.next = .reexecute → (s.perform ch a).Good ∧
      a.core.state.rank < s.core.state.rank ∧ a.core.state ≠ .chunkSizeStart) ∧
    (a.next = .error → a.core.httpErrno ≠ .OK) ∧
    (a.next = .exit → a.core.Good ∧ a.core.state.plain = true ∧ a.core.upgrade = true ∧
      (s.perform ch a).kind = none) := by
  have hok : a.Ok s.core.state s.kind := ha ▸ bytewise_ok hs.core hs.opens ch
  have hcore := core_perform s ch a
  have hkind := kind_perform hok ch
  refine ⟨hok.runs, ?_, ?_, fun h => (hok.fails h).1, ?_⟩
  · intro h
    obtain ⟨hgood, hopens⟩ := hok.goes (Or.inl h)
    constructor
    · show (s.perform ch a).core.Good
      rwa [hcore]
    · rw [kind_append, hkind]
      show Opens (s.perform ch a).core.state _
      rwa [hcore]
  · intro h
    obtain ⟨hgood, hopens⟩ := hok.goes (Or.inr h)
    exact ⟨⟨by rwa [hcore], by rwa [hcore, hkind]⟩, hok.rank h⟩
  · intro h
    obtain ⟨hgood, hplain, hupgrade, hleft⟩ := hok.exits h
    exact ⟨hgood, hplain, hupgrade, hkind.trans hleft⟩

end Stream

/-! ## The machine and the stream -/

/-- Callbacks that return zero. -/
def allOk : Settings := fun _ _ => 0

namespace Machine

/-- The machine at a place of the buffer and the stream behind the bytes before it. The header
has been counted up to `N` before the buffer. -/
structure Follows (data : List UInt8) (N : ℕ) (m : Machine) (s : Stream) : Prop where
  core : s.core = m.core
  log : s.log = m.log
  le : m.p ≤ data.length
  nread : m.nread ≤ min HTTP_MAX_HEADER_SIZE (N + m.p + 1)
  closed : s.span = none → ∀ k, m.marks k = none
  opened : ∀ k bytes, s.span = some (k, bytes) → ∃ start ≤ m.p,
    bytes = (data.drop start).take (m.p - start) ∧
      ∀ k', m.marks k' = if k' = k then some start else none

variable {data : List UInt8} {N : ℕ} {m : Machine} {s : Stream}

/-- The assertion of the macros holds as long as there is no error. -/
theorem assertOk_eq (h : m.core.httpErrno = .OK) (rest : Step) : m.assertOk rest = rest :=
  if_pos h

/-- A mark at the position is a span that is opened. -/
theorem Follows.mark (h : Follows data N m s) (k : Option Mark)
    (hk : ∀ j, k = some j → s.kind = none ∨ s.kind = some j) :
    Follows data N (m.mark k) (s.mark k) := by
  cases k with
  | none =>
    have hs : s.mark none = s := by rcases s with ⟨c, _ | r, log⟩ <;> rfl
    rw [hs]
    exact h
  | some k =>
    cases hspan : s.span with
    | none =>
      have hm : m.mark (some k) = { m with marks := Function.update m.marks k (some m.p) } := by
        rw [Machine.mark, h.closed hspan k]
        rfl
      have hs : s.mark (some k) = { s with span := some (k, []) } := by
        rw [Stream.mark, hspan]
        rfl
      rw [hm, hs]
      refine ⟨h.core, h.log, h.le, h.nread, (by intro hn; cases hn), ?_⟩
      intro k' bytes heq
      cases heq
      refine ⟨m.p, le_refl _, by rw [Nat.sub_self]; rfl, ?_⟩
      intro k'
      show Function.update m.marks k (some m.p) k' = _
      rw [Function.update_apply, h.closed hspan k']
    | some r =>
      obtain ⟨k', bytes⟩ := r
      have hkind : s.kind = some k' := by rw [Stream.kind, hspan]; rfl
      have heq : k' = k := by
        rcases hk k rfl with hnone | hsome
        · rw [hkind] at hnone; cases hnone
        · rw [hkind] at hsome; cases hsome; rfl
      obtain ⟨start, -, -, hmarks⟩ := h.opened k' bytes hspan
      have hm : m.mark (some k) = m := by
        rw [Machine.mark, hmarks k, if_pos heq.symm]
        rfl
      have hs : s.mark (some k) = s := by
        rcases s with ⟨c, _ | r, log⟩
        · cases hspan
        · rfl
      rw [hm, hs]
      exact h

/-- What a callback leaves of the machine as it is. -/
structure SameButLog (m m' : Machine) : Prop where
  core : m'.core = m.core
  nread : m'.nread = m.nread
  p : m'.p = m.p

/-- A data callback hands over the bytes of the span. -/
theorem Follows.dataCallback (h : Follows data N m s) (hOK : m.core.httpErrno = .OK) (k : Mark)
    {stop : ℕ} (hstop : m.p ≤ stop) (er : ℕ) :
    ∃ m', (∀ next, m.dataCallback allOk data k stop er next = next m') ∧ SameButLog m m' ∧
      Follows data N m' (s.spanCallback k ((data.drop m.p).take (stop - m.p))) := by
  have hmiss : ∀ hm : m.marks k = none, s.spanCallback k ((data.drop m.p).take (stop - m.p)) = s →
      ∃ m', (∀ next, m.dataCallback allOk data k stop er next = next m') ∧ SameButLog m m' ∧
        Follows data N m' (s.spanCallback k ((data.drop m.p).take (stop - m.p))) := by
    intro hm hs
    refine ⟨m, ?_, ⟨rfl, rfl, rfl⟩, by rwa [hs]⟩
    intro next
    rw [Machine.dataCallback, assertOk_eq hOK, hm]
  cases hspan : s.span with
  | none =>
    apply hmiss (h.closed hspan k)
    rw [Stream.spanCallback, hspan]
  | some r =>
    obtain ⟨k', bytes⟩ := r
    obtain ⟨start, hstart, hbytes, hmarks⟩ := h.opened k' bytes hspan
    by_cases hk : k' = k
    · subst hk
      have hcut : bytes ++ (data.drop m.p).take (stop - m.p) =
          (data.drop start).take (stop - start) := by
        rw [hbytes, show stop - start = (m.p - start) + (stop - m.p) by omega, List.take_add,
          List.drop_drop, show start + (m.p - start) = m.p by omega]
      have hm : m.marks k' = some start := by rw [hmarks, if_pos rfl]
      have hs : s.spanCallback k' ((data.drop m.p).take (stop - m.p)) =
          { s with
            span := none
            log := s.log ++ [.data k' ((data.drop start).take (stop - start))] } := by
        rw [Stream.spanCallback, hspan]
        show (if k' = k' then _ else _) = _
        rw [if_pos rfl, hcut]
      refine ⟨{ m with
        marks := Function.update m.marks k' none
        log := m.log ++ [.data k' ((data.drop start).take (stop - start))] },
        ?_, ⟨rfl, rfl, rfl⟩, ?_⟩
      · intro next
        rw [Machine.dataCallback, assertOk_eq hOK, hm]
        rfl
      · rw [hs]
        refine ⟨h.core, by rw [h.log], h.le, h.nread, ?_, fun _ _ heq => by cases heq⟩
        intro _ j
        show Function.update m.marks k' none j = none
        rw [Function.update_apply, hmarks j]
        split_ifs <;> rfl
    · apply hmiss
      · rw [hmarks k, if_neg (Ne.symm hk)]
      · rw [Stream.spanCallback, hspan]
        exact if_neg hk

theorem drop_eq_cons {ch : UInt8} {p : ℕ} (hch : data[p]? = some ch) :
    data.drop p = ch :: data.drop (p + 1) := by
  obtain ⟨hp, rfl⟩ := List.getElem?_eq_some_iff.1 hch
  exact List.drop_eq_getElem_cons hp

/-- A notification that is answered with zero. -/
theorem notify_allOk (hOK : m.core.httpErrno = .OK) (n : Notify) (er : ℕ) (k : Machine → Step) :
    m.notify allOk n er k = k { m with log := m.log ++ [.note n] } := by
  rw [notify, assertOk_eq hOK, ite_self]
  rfl

/-- The callbacks of a case are those of the stream. -/
theorem Follows.call {ch : UInt8} (h : Follows data N m s) (hch : data[m.p]? = some ch)
    {c : Option Call} (hOK : c ≠ none → m.core.httpErrno = .OK) :
    ∃ m', (∀ next, m.call allOk data c next = next m') ∧ SameButLog m m' ∧
      Follows data N m' (s.call ch c) := by
  cases c with
  | none => exact ⟨m, fun _ => rfl, ⟨rfl, rfl, rfl⟩, h⟩
  | some c =>
    have herrno := hOK (Option.some_ne_none c)
    have hnote : ∀ (n : Notify) (er : ℕ), ∃ m',
        (∀ next, m.notify allOk n er next = next m') ∧ SameButLog m m' ∧
          Follows data N m' { s with log := s.log ++ [.note n] } := by
      intro n er
      exact ⟨{ m with log := m.log ++ [.note n] }, notify_allOk herrno n er, ⟨rfl, rfl, rfl⟩,
        h.core, by rw [h.log], h.le, h.nread, h.closed, h.opened⟩
    have hshort : ∀ (k : Mark) (er : ℕ), ∃ m',
        (∀ next, m.dataCallback allOk data k m.p er next = next m') ∧ SameButLog m m' ∧
          Follows data N m' (s.spanCallback k []) := by
      intro k er
      have hcall := h.dataCallback herrno k (le_refl _) er
      rwa [Nat.sub_self, List.take_zero] at hcall
    cases c with
    | data k => exact hshort k _
    | dataNoadvance k => exact hshort k _
    | dataThrough k =>
      have hcall := h.dataCallback herrno k (Nat.le_succ m.p) m.p
      rwa [show m.p.succ - m.p = 1 by omega, drop_eq_cons hch, List.take_succ_cons,
        List.take_zero] at hcall
    | notify n => exact hnote n (m.p + 1)
    | notifyNoadvance n => exact hnote n m.p

/-- The next byte belongs to the span that is open. -/
theorem Follows.append {ch : UInt8} (h : Follows data N m s) (hch : data[m.p]? = some ch) :
    Follows data N { m with p := m.p + 1 } (s.append ch) := by
  obtain ⟨hp, -⟩ := List.getElem?_eq_some_iff.1 hch
  refine ⟨h.core, h.log, hp,
    (by have hn := h.nread; show m.nread ≤ min HTTP_MAX_HEADER_SIZE (N + (m.p + 1) + 1); omega),
    ?_, ?_⟩
  · intro hnone
    apply h.closed
    rcases s with ⟨c, _ | r, log⟩
    · rfl
    · cases hnone
  · intro k bytes hspan
    cases hs : s.span with
    | none =>
      rw [Stream.append, hs] at hspan
      cases hspan
    | some r =>
      rw [Stream.append, hs] at hspan
      cases hspan
      obtain ⟨start, hstart, hbytes, hmarks⟩ := h.opened r.1 r.2 hs
      refine ⟨start, Nat.le_succ_of_le hstart, ?_, hmarks⟩
      show r.2 ++ [ch] = (data.drop start).take (m.p + 1 - start)
      rw [hbytes, show m.p + 1 - start = (m.p - start) + 1 by omega, List.take_add,
        List.drop_drop, show start + (m.p - start) = m.p by omega, drop_eq_cons hch,
        List.take_succ_cons, List.take_zero]

theorem mark_same (m : Machine) (k : Option Mark) : SameButLog m (m.mark k) := by
  cases k with
  | none => exact ⟨rfl, rfl, rfl⟩
  | some k =>
    unfold mark
    dsimp only
    split_ifs <;> exact ⟨rfl, rfl, rfl⟩

/-! ### What a turn does -/

/-- The turns that are left are bounded by this. -/
def measure (data : List UInt8) (m : Machine) : ℕ :=
  4 * (data.length - m.p) + m.core.state.rank

/-- A byte is looked at four times at most. -/
theorem rank_le (st : State) : st.rank ≤ 3 := by
  cases st <;> decide

/-- Where the stream is that the machine follows. -/
def place (data : List UInt8) (m : Machine) (s : Stream) : Stream.Config :=
  .running s (data.drop m.p)

/-- The end of a turn is one that the stream comes to. -/
def Explains (data : List UInt8) (N : ℕ) (m : Machine) (s : Stream) : Step → Prop
  | .next m' =>
    let m' := { m' with p := m'.p + 1 }
    ∃ s', Reaches Stream.step (place data m s) (place data m' s') ∧ Follows data N m' s' ∧ s'.Good ∧
      measure data m' < measure data m ∧ (m'.core.state = .chunkSizeStart → m'.nread = 0) ∧
      (m'.p < data.length → m'.nread ≤ N + m'.p)
  | .again m' =>
    ∃ s', Reaches Stream.step (place data m s) (place data m' s') ∧ Follows data N m' s' ∧ s'.Good ∧
      measure data m' < measure data m ∧ m'.core.state ≠ .chunkSizeStart
  | .ret m' n =>
    n ≤ data.length ∧
      (m'.core.httpErrno = .HEADER_OVERFLOW ∧ HTTP_MAX_HEADER_SIZE ≤ N + data.length ∨
      ∃ s', Reaches Stream.step (place data m s) (.stopped s' (data.drop n)) ∧
        s'.core = m'.core ∧ s'.log = m'.log ∧
        (m'.core.httpErrno = .OK →
          m'.core.Good ∧ m'.core.state ≠ .chunkSizeStart ∧ m'.nread ≤ HTTP_MAX_HEADER_SIZE ∧
            m'.core.upgrade = true))
  | .abort => False

/-- A turn after some steps of the stream. -/
theorem Explains.trans {m₁ : Machine} {s₁ : Stream} {step : Step}
    (hreach : Reaches Stream.step (place data m s) (place data m₁ s₁))
    (hle : measure data m₁ ≤ measure data m) (h : Explains data N m₁ s₁ step) :
    Explains data N m s step := by
  cases step with
  | next m' =>
    obtain ⟨s', hr, hf, hg, hlt, hn⟩ := h
    exact ⟨s', hreach.trans hr, hf, hg, hlt.trans_le hle, hn⟩
  | again m' =>
    obtain ⟨s', hr, hf, hg, hlt, hn⟩ := h
    exact ⟨s', hreach.trans hr, hf, hg, hlt.trans_le hle, hn⟩
  | ret m' n =>
    obtain ⟨hn, hover | ⟨s', hr, hrest⟩⟩ := h
    · exact ⟨hn, Or.inl hover⟩
    · exact ⟨hn, Or.inr ⟨s', hreach.trans hr, hrest⟩⟩
  | abort => exact h

/-- An action of `dispatch` is a step of the stream. -/
theorem perform_explains {a : Action} {ch : UInt8} (h : Follows data N m s) (hs : s.Good)
    (hch : data[m.p]? = some ch) (ha : a = bytewise m.core ch) :
    Explains data N m s (m.perform allOk data a) := by
  have hplace : place data m s = .running s (ch :: data.drop (m.p + 1)) := by
    rw [place, drop_eq_cons hch]
  have hp : m.p < data.length := (List.getElem?_eq_some_iff.1 hch).1
  rw [← h.core] at ha
  obtain ⟨hruns, hadvance, hagain, herror, hexit⟩ := hs.perform ch ha
  have hok : a.Ok s.core.state s.kind := ha ▸ bytewise_ok hs.core hs.opens ch
  have hm₁ : Follows data N
      { m with core := a.core, nread := if a.resetNread then 0 else m.nread }
      { s with core := a.core } := by
    refine ⟨rfl, h.log, h.le, ?_, h.closed, h.opened⟩
    show (if a.resetNread then 0 else m.nread) ≤ min HTTP_MAX_HEADER_SIZE (N + m.p + 1)
    split_ifs
    · exact Nat.zero_le _
    · exact h.nread
  have hmark := hm₁.mark a.mark hok.mark
  have hsame := mark_same
    { m with core := a.core, nread := if a.resetNread then 0 else m.nread } a.mark
  obtain ⟨m', hm', hsame', hcall⟩ := hmark.call (by rw [hsame.p]; exact hch)
    fun hcall => (congrArg Core.httpErrno hsame.core).trans (hok.errno hcall)
  have hcore' : m'.core = a.core := by rw [hsame'.core, hsame.core]
  have hp' : m'.p = m.p := by rw [hsame'.p, hsame.p]
  have hnread' : m'.nread = if a.resetNread then 0 else m.nread := by
    rw [hsame'.nread, hsame.nread]
  have hstep := Stream.step_eq (data.drop (m.p + 1)) ha
  rw [← hplace] at hstep
  change Follows data N m' (s.perform ch a) at hcall
  unfold perform
  dsimp only
  rw [hm']
  cases hnext : a.next with
  | advance =>
    rw [hnext] at hstep
    refine ⟨(s.perform ch a).append ch, Relation.ReflTransGen.single ?_,
      hcall.append (by rw [hp']; exact hch), hadvance hnext, ?_, ?_, ?_⟩
    · rw [Option.mem_def, hstep, place, hp']
    · have hrank := rank_le m'.core.state
      show 4 * (data.length - (m'.p + 1)) + m'.core.state.rank < 4 * (data.length - m.p) + _
      rw [hp']
      omega
    · intro hstate
      show m'.nread = 0
      rw [hnread', if_pos]
      exact hok.nread hnext (by rw [← hcore']; exact hstate)
    · intro _
      have hn := hcall.nread
      show m'.nread ≤ N + (m'.p + 1)
      omega
  | reexecute =>
    rw [hnext] at hstep
    obtain ⟨hgood, hrank, hne⟩ := hagain hnext
    refine ⟨s.perform ch a, Relation.ReflTransGen.single ?_, hcall, hgood, ?_, ?_⟩
    · rw [Option.mem_def, hstep, place, hp', drop_eq_cons hch]
    · unfold measure
      rw [hp', hcore', ← h.core]
      omega
    · rw [hcore']
      exact hne
  | error =>
    rw [hnext] at hstep
    refine ⟨by rw [hp']; exact hp.le, Or.inr ⟨s.perform ch a, Relation.ReflTransGen.single ?_,
      hcall.core, hcall.log, ?_⟩⟩
    · rw [Option.mem_def, hstep, hp', drop_eq_cons hch]
    · intro hOK
      exact absurd (by rw [← hcore']; exact hOK) (herror hnext)
  | exit =>
    rw [hnext] at hstep
    obtain ⟨hgood, hplain, hupgrade, -⟩ := hexit hnext
    refine ⟨by rw [hp']; exact hp, Or.inr ⟨s.perform ch a, Relation.ReflTransGen.single ?_,
      hcall.core, hcall.log, ?_⟩⟩
    · rw [Option.mem_def, hstep, hp']
    · intro _
      rw [hcore']
      refine ⟨hgood, ?_, hcall.nread.trans (min_le_left _ _), hupgrade⟩
      intro hstate
      rw [hstate] at hplain
      cases hplain
  | abort => exact absurd hnext hruns

/-! ### The loop over a field name -/

/-- The machine `k` bytes on, with the parser `c`. -/
def onward (m : Machine) (c : Core) (k : ℕ) : Machine := { m with core := c, p := m.p + k }

/-- On and further on. -/
theorem onward_onward (m : Machine) (c c' : Core) (j k : ℕ) :
    (m.onward c j).onward c' k = m.onward c' (j + k) := by
  unfold onward
  rw [Nat.add_assoc]

/-- The stream comes over the next `k` bytes, with the parser `c` behind them. -/
def Passes (data : List UInt8) (N : ℕ) (m : Machine) (s : Stream) (c : Core) (k : ℕ) : Prop :=
  ∃ s', Reaches Stream.step (place data m s) (place data (m.onward c k) s') ∧
    Follows data N (m.onward c k) s' ∧ s'.Good

theorem Passes.refl (h : Follows data N m s) (hs : s.Good) : Passes data N m s m.core 0 :=
  ⟨s, Relation.ReflTransGen.refl, h, hs⟩

/-- A byte that changes the parser alone. -/
theorem Passes.one {c : Core} {ch : UInt8} (h : Follows data N m s) (hs : s.Good)
    (hch : data[m.p]? = some ch) (hbyte : bytewise m.core ch = .advance c) :
    Passes data N m s c 1 := by
  obtain ⟨s', hr, hf, hg, -⟩ :
      Explains data N m s (.next { m with core := c }) := perform_explains h hs hch hbyte.symm
  exact ⟨s', hr, hf, hg⟩

/-- Bytes that are passed one behind the other. -/
theorem Passes.after {c c' : Core} {j k : ℕ} {s₁ : Stream}
    (hreach : Reaches Stream.step (place data m s) (place data (m.onward c j) s₁))
    (h : Passes data N (m.onward c j) s₁ c' k) : Passes data N m s c' (j + k) := by
  obtain ⟨s', hr, hf, hg⟩ := h
  rw [onward_onward] at hr hf
  exact ⟨s', hreach.trans hr, hf, hg⟩

/-- The loop over a name passes its token characters. -/
theorem fieldLoop_passes (bytes : List UInt8) :
    ∀ (m : Machine) (s : Stream), bytes = data.drop m.p → Follows data N m s → s.Good →
      m.core.state = .headerField →
      ∃ c k, fieldLoop m.core bytes = some (c, k) ∧ Passes data N m s c k ∧
        c.state = .headerField ∧ ∀ ch, data[m.p + k]? = some ch → token ch = 0 := by
  induction bytes with
  | nil =>
    intro m s hbytes h hs hstate
    refine ⟨m.core, 0, rfl, Passes.refl h hs, hstate, ?_⟩
    intro ch hch
    rw [Nat.add_zero, ← List.head?_drop, ← hbytes] at hch
    cases hch
  | cons ch rest ih =>
    intro m s hbytes h hs hstate
    have hch : data[m.p]? = some ch := by rw [← List.head?_drop, ← hbytes]; rfl
    have hrest : rest = data.drop (m.p + 1) := by
      rw [drop_eq_cons hch] at hbytes
      exact (List.cons.inj hbytes).2
    by_cases htoken : token ch = 0
    · refine ⟨m.core, 0, by rw [fieldLoop, if_pos htoken], Passes.refl h hs, hstate, ?_⟩
      intro ch' hch'
      rw [Nat.add_zero, hch] at hch'
      cases hch'
      exact htoken
    · have hin : m.core.headerState.inField = true := by
        have hok := hs.core.stateOk
        rwa [h.core, Core.StateOk, hstate] at hok
      obtain ⟨i, st, -, hchar⟩ := fieldChar_eq hin ch
      have hbyte : bytewise m.core ch =
          .advance { m.core with index := i, headerState := st } := by
        simp only [bytewise, hstate, ne_eq, htoken, not_false_iff, if_true, hchar]
      obtain ⟨s', hr, hf, hg⟩ := Passes.one h hs hch hbyte
      obtain ⟨c, k, hloop, hpass, hc, hend⟩ := ih _ s' hrest hf hg hstate
      refine ⟨c, k + 1, ?_, by rw [Nat.add_comm k 1]; exact Passes.after hr hpass, hc, ?_⟩
      · rw [fieldLoop, if_neg htoken, hchar]
        change (fieldLoop (m.onward _ 1).core rest).bind (fun r => some (r.1, r.2 + 1)) = _
        rw [hloop]
        rfl
      · intro ch' hch'
        exact hend ch' (by rw [← hch']; congr 1; exact Nat.add_right_comm _ _ _)

/-- Passing bytes leaves less to do. -/
theorem measure_over {c : Core} {k : ℕ} (hle : m.p + k ≤ data.length)
    (hc : c.state = m.core.state) : measure data (m.onward c k) ≤ measure data m := by
  show 4 * (data.length - (m.p + k)) + c.state.rank ≤ 4 * (data.length - m.p) + _
  rw [hc]
  omega

/-- A turn behind the bytes that are passed. -/
theorem Passes.explains {c : Core} {k : ℕ} {step : Step} (h : Passes data N m s c k)
    (hc : c.state = m.core.state)
    (hstep : ∀ s', Follows data N (m.onward c k) s' → s'.Good →
      Explains data N (m.onward c k) s' step) : Explains data N m s step := by
  obtain ⟨s', hr, hf, hg⟩ := h
  exact Explains.trans hr (measure_over hf.le hc) (hstep s' hf hg)

/-! ### The size of the header -/

/-- The count of the header is free, as far as it is small enough. -/
theorem Follows.withNread (h : Follows data N m s) {n : ℕ}
    (hn : n ≤ min HTTP_MAX_HEADER_SIZE (N + m.p + 1)) :
    Follows data N { m with nread := n } s :=
  ⟨h.core, h.log, h.le, hn, h.closed, h.opened⟩

/-- Counting ends in an error, or goes on with a count that is small enough. -/
theorem count_explains {m₁ : Machine} {n : ℕ} {k : Machine → Step} (h : m₁.p ≤ data.length)
    (hn : m₁.nread + n ≤ N + m₁.p + 1)
    (hk : ∀ nread ≤ min HTTP_MAX_HEADER_SIZE (N + m₁.p + 1),
      Explains data N m s (k { m₁ with nread := nread })) :
    Explains data N m s (m₁.count n k) := by
  have hmod := Nat.mod_le (m₁.nread + n) (2 ^ 32)
  unfold count
  dsimp only
  split_ifs with hmax
  · exact ⟨h, Or.inl ⟨rfl, by omega⟩⟩
  · exact hk _ (by omega)

/-- A loop that comes to the end of the buffer. -/
theorem next_explains {c : Core} {k n : ℕ} (hp : m.p < data.length)
    (h : Passes data N m s c k) (hk : m.p + k = data.length) (hc : c.state = m.core.state)
    (hne : c.state ≠ .chunkSizeStart) (hn : n ≤ min HTTP_MAX_HEADER_SIZE (N + (m.p + k) + 1)) :
    Explains data N m s
      (.next { m with core := c, nread := n, p := m.p + k - 1 }) := by
  obtain ⟨s', hr, hf, hg⟩ := h
  have hlast : m.p + k - 1 + 1 = m.p + k := by omega
  refine ⟨s', ?_, ?_, hg, ?_, fun hstate => absurd hstate hne, ?_⟩
  · show Reaches _ _ (Stream.Config.running s' (data.drop (m.p + k - 1 + 1)))
    rw [hlast]
    exact hr
  · dsimp only
    rw [hlast]
    exact hf.withNread hn
  · show 4 * (data.length - (m.p + k - 1 + 1)) + c.state.rank < 4 * (data.length - m.p) + _
    rw [hlast, hc]
    omega
  · show m.p + k - 1 + 1 < data.length → _
    omega

/-- `case s_header_field`. -/
theorem headerField_explains (h : Follows data N m s) (hs : s.Good) (hp : m.p < data.length)
    (hstate : m.core.state = .headerField) :
    Explains data N m s (headerField allOk data m) := by
  obtain ⟨c, k, hloop, hpass, hc, hend⟩ := fieldLoop_passes _ m s rfl h hs hstate
  have hle : m.p + k ≤ data.length := by
    obtain ⟨s', -, hf, -⟩ := hpass
    exact hf.le
  unfold headerField
  rw [hloop]
  dsimp only
  apply count_explains hle (by have hn := h.nread; show m.nread + k ≤ N + (m.p + k) + 1; omega)
  intro n hn
  dsimp only
  cases hch : data[m.p + k]? with
  | none =>
    have hge := List.getElem?_eq_none_iff.1 hch
    exact next_explains hp hpass (by omega) (hc.trans hstate.symm) (by rw [hc]; decide) hn
  | some ch =>
    dsimp only
    apply hpass.explains (hc.trans hstate.symm)
    intro s' hf hg
    have htoken := hend ch hch
    split_ifs with hcolon
    · refine perform_explains (a := ⟨{ c with state := .headerValueDiscardWs }, none, false,
        some (.data .headerField), .advance⟩) (hf.withNread hn) hg hch ?_
      show _ = bytewise c ch
      simp only [bytewise, hc, htoken, ne_eq, not_true, if_false, if_pos hcolon]
    · refine perform_explains (a := .fail c .INVALID_HEADER_TOKEN) (hf.withNread hn) hg hch ?_
      show _ = bytewise c ch
      simp only [bytewise, hc, htoken, ne_eq, not_true, if_false, if_neg hcolon]

/-! ### The loop over a value -/

/-- The first place of the character. -/
theorem memchr_some {bytes : List UInt8} {ch : UInt8} {limit i : ℕ}
    (h : memchr bytes ch limit = some i) :
    (i < bytes.length ∧ i < limit) ∧ bytes[i]? = some ch ∧ ∀ x ∈ bytes.take i, x ≠ ch := by
  obtain ⟨hi, hget, hbefore⟩ := List.idxOf?_eq_some_iff.1 h
  rw [List.length_take] at hi
  rw [List.getElem_take] at hget
  refine ⟨by omega, ?_, ?_⟩
  · rw [List.getElem?_eq_getElem (by omega), hget]
  · intro x hx
    obtain ⟨j, hj, rfl⟩ := List.mem_iff_getElem.1 hx
    rw [List.length_take] at hj
    have hne := hbefore j (by omega)
    rwa [List.getElem_take] at hne ⊢

/-- The character is not there. -/
theorem memchr_none {bytes : List UInt8} {ch : UInt8} {limit : ℕ}
    (h : memchr bytes ch limit = none) : ∀ x ∈ bytes.take limit, x ≠ ch := by
  intro x hx heq
  rw [heq] at hx
  exact List.idxOf?_eq_none_iff.1 h hx

theorem take_subset {bytes : List UInt8} {i j : ℕ} (hij : i ≤ j) {p : UInt8 → Prop}
    (h : ∀ x ∈ bytes.take j, p x) : ∀ x ∈ bytes.take i, p x := fun x hx =>
  h x ((List.take_sublist_take_left hij).subset hx)

/-- How far `memchr` moves: to a line end, or over the whole buffer. -/
theorem skipGeneral_spec (bytes : List UInt8) :
    skipGeneral bytes ≤ bytes.length ∧
      ((∀ ch ∈ bytes.take (skipGeneral bytes), ch ≠ CR ∧ ch ≠ LF) ∨
        HTTP_MAX_HEADER_SIZE < skipGeneral bytes ∧ skipGeneral bytes = bytes.length) := by
  unfold skipGeneral
  dsimp only
  cases hcr : memchr bytes CR (min bytes.length HTTP_MAX_HEADER_SIZE) with
  | some cr =>
    obtain ⟨⟨hlt, hlim⟩, -, hcr'⟩ := memchr_some hcr
    cases hlf : memchr bytes LF (min bytes.length HTTP_MAX_HEADER_SIZE) with
    | some lf =>
      obtain ⟨⟨hlt', -⟩, -, hlf'⟩ := memchr_some hlf
      dsimp only
      split_ifs with hle
      · exact ⟨hlt'.le, Or.inl fun ch hch => ⟨take_subset hle hcr' ch hch, hlf' ch hch⟩⟩
      · exact ⟨hlt.le, Or.inl fun ch hch => ⟨hcr' ch hch, take_subset (by omega) hlf' ch hch⟩⟩
    | none =>
      have hlf' := memchr_none hlf
      exact ⟨hlt.le, Or.inl fun ch hch => ⟨hcr' ch hch, take_subset hlim.le hlf' ch hch⟩⟩
  | none =>
    have hcr' := memchr_none hcr
    cases hlf : memchr bytes LF (min bytes.length HTTP_MAX_HEADER_SIZE) with
    | some lf =>
      obtain ⟨⟨hlt', hlim⟩, -, hlf'⟩ := memchr_some hlf
      exact ⟨hlt'.le, Or.inl fun ch hch => ⟨take_subset hlim.le hcr' ch hch, hlf' ch hch⟩⟩
    | none =>
      have hlf' := memchr_none hlf
      refine ⟨le_refl _, ?_⟩
      by_cases hbig : HTTP_MAX_HEADER_SIZE < bytes.length
      · exact Or.inr ⟨hbig, rfl⟩
      · have hle : bytes.length ≤ min bytes.length HTTP_MAX_HEADER_SIZE := by omega
        exact Or.inl fun ch hch => ⟨take_subset hle hcr' ch hch, take_subset hle hlf' ch hch⟩

/-- The skip moves on, so the loop ends. -/
theorem skipGeneral_pos {ch : UInt8} {rest : List UInt8} (hcr : ch ≠ CR) (hlf : ch ≠ LF) :
    0 < skipGeneral (ch :: rest) := by
  have hpos : ∀ {i : ℕ} {c : UInt8} {limit : ℕ}, memchr (ch :: rest) c limit = some i → ch ≠ c →
      0 < i := by
    intro i c limit h hne
    obtain ⟨-, hget, -⟩ := memchr_some h
    rcases i with _ | i
    · exact absurd (Option.some.inj hget) hne
    · exact Nat.succ_pos i
  unfold skipGeneral
  dsimp only
  split
  · rename_i h h'
    split_ifs
    · exact hpos h' hlf
    · exact hpos h hcr
  · rename_i h _
    exact hpos h hcr
  · rename_i h
    exact hpos h hlf
  · exact Nat.succ_pos _

/-- Bytes of a value that the parser has no interest in. -/
theorem general_passes (k : ℕ) : ∀ (m : Machine) (s : Stream), Follows data N m s → s.Good →
    m.core.state = .headerValue → m.core.headerState = .general → m.p + k ≤ data.length →
    (∀ ch ∈ (data.drop m.p).take k, ch ≠ CR ∧ ch ≠ LF) → Passes data N m s m.core k := by
  induction k with
  | zero => exact fun m s h hs _ _ _ _ => Passes.refl h hs
  | succ k ih =>
    intro m s h hs hstate hgeneral hle hfree
    have hch : data[m.p]? = some data[m.p] := List.getElem?_eq_getElem (by omega)
    rw [drop_eq_cons hch] at hfree
    obtain ⟨hcr, hlf⟩ := hfree _ (List.mem_cons_self)
    have hbyte : bytewise m.core data[m.p] = .advance m.core := by
      simp only [bytewise, hstate, if_neg hcr, if_neg hlf, valueChar, hgeneral]
    obtain ⟨s', hr, hf, hg⟩ := Passes.one h hs hch hbyte
    have hrest := ih (m.onward m.core 1) s' hf hg hstate hgeneral
      (by show m.p + 1 + k ≤ _; omega) fun ch hch => hfree ch (List.mem_cons_of_mem _ hch)
    rw [Nat.add_comm k 1]
    exact Passes.after hr hrest

/-- The end of the loop is one the stream comes to, but behind a value that is too long. -/
def EndsLike (data : List UInt8) (N : ℕ) (m : Machine) (s : Stream) : ValueEnd → Prop
  | .cr c k => Passes data N m s c k ∧ c.state = .headerValue ∧ data[m.p + k]? = some CR
  | .lf c k => Passes data N m s c k ∧ c.state = .headerValue ∧ data[m.p + k]? = some LF
  | .stop c k => m.p + k = data.length ∧
      (HTTP_MAX_HEADER_SIZE < k ∨ Passes data N m s c k ∧ c.state = .headerValue)
  | .error c k e => Passes data N m s c k ∧ c.state = .headerValue ∧
      ∃ ch, data[m.p + k]? = some ch ∧ ch ≠ CR ∧ ch ≠ LF ∧ valueChar c ch = .error e
  | .abort => False

/-- The same end, behind bytes that were passed. -/
theorem EndsLike.shift {c : Core} {j : ℕ} {s₁ : Stream} {r : ValueEnd}
    (hreach : Reaches Stream.step (place data m s) (place data (m.onward c j) s₁))
    (h : EndsLike data N (m.onward c j) s₁ r) : EndsLike data N m s (r.shift j) := by
  have hp : ∀ k, m.p + (k + j) = (m.onward c j).p + k := by
    intro k
    show m.p + (k + j) = m.p + j + k
    omega
  cases r with
  | cr c' k =>
    obtain ⟨hpass, hc, hget⟩ := h
    exact ⟨by rw [Nat.add_comm]; exact Passes.after hreach hpass, hc, by rw [hp]; exact hget⟩
  | lf c' k =>
    obtain ⟨hpass, hc, hget⟩ := h
    exact ⟨by rw [Nat.add_comm]; exact Passes.after hreach hpass, hc, by rw [hp]; exact hget⟩
  | stop c' k =>
    obtain ⟨hlen, hbig | ⟨hpass, hc⟩⟩ := h
    · exact ⟨by rw [hp]; exact hlen, Or.inl (by omega)⟩
    · exact ⟨by rw [hp]; exact hlen,
        Or.inr ⟨by rw [Nat.add_comm]; exact Passes.after hreach hpass, hc⟩⟩
  | error c' k e =>
    obtain ⟨hpass, hc, ch, hget, hrest⟩ := h
    exact ⟨by rw [Nat.add_comm]; exact Passes.after hreach hpass, hc, ch,
      by rw [hp]; exact hget, hrest⟩
  | abort => exact h

/-- The loop over a value ends where the value does. -/
theorem valueLoop_ends (fuel : ℕ) : ∀ (m : Machine) (s : Stream) (bytes : List UInt8),
    bytes = data.drop m.p → bytes.length < fuel → Follows data N m s → s.Good →
    m.core.state = .headerValue → EndsLike data N m s (valueLoop fuel m.core bytes) := by
  induction fuel with
  | zero => exact fun _ _ _ _ h => absurd h (Nat.not_lt_zero _)
  | succ fuel ih =>
    intro m s bytes hbytes hfuel h hs hstate
    cases bytes with
    | nil =>
      have hlen := List.drop_eq_nil_iff.1 hbytes.symm
      exact ⟨Nat.le_antisymm h.le hlen, Or.inr ⟨Passes.refl h hs, hstate⟩⟩
    | cons ch rest =>
      have hch : data[m.p]? = some ch := by rw [← List.head?_drop, ← hbytes]; rfl
      have hlength : (ch :: rest).length = data.length - m.p := by
        rw [hbytes, List.length_drop]
      have hp : m.p < data.length := (List.getElem?_eq_some_iff.1 hch).1
      unfold valueLoop
      split_ifs with hcr hlf hgeneral
      · exact ⟨Passes.refl h hs, hstate, hcr ▸ hch⟩
      · exact ⟨Passes.refl h hs, hstate, hlf ▸ hch⟩
      · obtain ⟨hle, hskip⟩ := skipGeneral_spec (ch :: rest)
        have hpos : 0 < skipGeneral (ch :: rest) := skipGeneral_pos hcr hlf
        generalize skipGeneral (ch :: rest) = k at hle hskip hpos
        dsimp only
        rcases hskip with hfree | ⟨hbig, hall⟩
        · have hk : m.p + k ≤ data.length := by omega
          obtain ⟨s', hr, hf, hg⟩ :=
            general_passes k m s h hs hstate hgeneral hk (by rw [← hbytes]; exact hfree)
          apply EndsLike.shift hr
          apply ih (m.onward m.core k) s' _ _ _ hf hg hstate
          · rw [hbytes, List.drop_drop]
            rfl
          · rw [List.length_drop]
            omega
        · -- the loop is at the end of the buffer, the header is too long
          obtain ⟨fuel, rfl⟩ := Nat.exists_eq_add_of_lt (show 0 < fuel by omega)
          rw [hall, List.drop_length, Nat.zero_add]
          refine ⟨?_, Or.inl ?_⟩
          · rw [hlength]
            omega
          · rw [← hall, Nat.zero_add]
            exact hbig
      · have hgood := valueChar_good (h.core ▸ hs.core) hstate ch
        cases hvalue : valueChar m.core ch with
        | ok c =>
          rw [hvalue] at hgood
          have hbyte : bytewise m.core ch = .advance c := by
            simp only [bytewise, hstate, if_neg hcr, if_neg hlf, hvalue]
          obtain ⟨s', hr, hf, hg⟩ := Passes.one h hs hch hbyte
          apply EndsLike.shift hr
          apply ih (m.onward c 1) s' rest _ _ hf hg hgood.2
          · rw [drop_eq_cons hch] at hbytes
            exact (List.cons.inj hbytes).2
          · exact Nat.lt_of_succ_lt_succ hfuel
        | error e => exact ⟨Passes.refl h hs, hstate, ch, hch, hcr, hlf, hvalue⟩
        | abort =>
          rw [hvalue] at hgood
          exact hgood

theorem Explains.withNread {m' : Machine} {n : ℕ} (h : Explains data N m s (.next m'))
    (hne : m'.core.state ≠ .chunkSizeStart) (hn : n ≤ min HTTP_MAX_HEADER_SIZE (N + m'.p + 1)) :
    Explains data N m s (.next { m' with nread := n }) := by
  obtain ⟨s', hr, hf, hg, hlt, -⟩ := h
  refine ⟨s', hr, hf.withNread ?_, hg, hlt, fun hstate => absurd hstate hne, fun _ => ?_⟩
  · show n ≤ min HTTP_MAX_HEADER_SIZE (N + (m'.p + 1) + 1)
    omega
  · show n ≤ N + (m'.p + 1)
    omega

/-- A count that is too large. -/
theorem count_overflow {m₁ : Machine} {n : ℕ} {k : Machine → Step} (h : m₁.p ≤ data.length)
    (hn : HTTP_MAX_HEADER_SIZE < n) (hsmall : m₁.nread + n < 2 ^ 32) (hle : n ≤ data.length) :
    Explains data N m s (m₁.count n k) := by
  unfold count
  dsimp only
  rw [if_pos (by rw [Nat.mod_eq_of_lt hsmall]; omega)]
  exact ⟨h, Or.inl ⟨rfl, by omega⟩⟩

theorem headerValue_explains (h : Follows data N m s) (hs : s.Good) (hp : m.p < data.length)
    (hlen : data.length < 2 ^ 31) (hstate : m.core.state = .headerValue) :
    Explains data N m s (headerValue allOk data m) := by
  have hends := valueLoop_ends ((data.drop m.p).length + 1) m s _ rfl (Nat.lt_succ_self _) h hs
    hstate
  unfold headerValue
  dsimp only
  cases hloop : valueLoop ((data.drop m.p).length + 1) m.core (data.drop m.p) with
  | abort =>
    rw [hloop] at hends
    exact hends
  | error c k e =>
    rw [hloop] at hends
    obtain ⟨hpass, hc, ch, hch, hcr, hlf, hvalue⟩ := hends
    apply hpass.explains (hc.trans hstate.symm)
    intro s' hf hg
    refine perform_explains (a := .fail c e) hf hg hch ?_
    show _ = bytewise c ch
    simp only [bytewise, hc, if_neg hcr, if_neg hlf, hvalue]
  | cr c k =>
    rw [hloop] at hends
    obtain ⟨hpass, hc, hch⟩ := hends
    apply hpass.explains (hc.trans hstate.symm)
    intro s' hf hg
    have hdone : Follows data N
        { m with core := { c with state := .headerAlmostDone }, p := m.p + k }
        { s' with core := { c with state := .headerAlmostDone } } :=
      ⟨rfl, hf.log, hf.le, hf.nread, hf.closed, hf.opened⟩
    obtain ⟨m', hm', hsame, -⟩ := hdone.call (c := some (.data .headerValue)) hch
      fun _ => (congrArg Core.httpErrno hf.core).symm.trans hg.core.errno
    have hnext : Explains data N (m.onward c k) s' (.next m') := by
      rw [← hm' .next]
      refine perform_explains (a := ⟨{ c with state := .headerAlmostDone }, none, false,
        some (.data .headerValue), .advance⟩) hf hg hch ?_
      show _ = bytewise c CR
      simp only [bytewise, hc, if_true]
    dsimp only
    rw [hm']
    apply count_explains
    · rw [hsame.p]
      exact hf.le
    · have hn := h.nread
      rw [hsame.p, hsame.nread]
      show m.nread + k ≤ N + (m.p + k) + 1
      omega
    · intro n hn
      exact hnext.withNread (by rw [hsame.core]; intro hne; cases hne) hn
  | lf c k =>
    rw [hloop] at hends
    obtain ⟨hpass, hc, hch⟩ := hends
    apply hpass.explains (hc.trans hstate.symm)
    intro s' hf hg
    dsimp only
    apply count_explains
    · exact hf.le
    · have hn := h.nread
      show m.nread + k ≤ N + (m.p + k) + 1
      omega
    · intro n hn
      refine perform_explains (a := ⟨{ c with state := .headerAlmostDone }, none, false,
        some (.dataNoadvance .headerValue), .reexecute⟩) (hf.withNread hn) hg hch ?_
      show _ = bytewise c LF
      simp only [bytewise, hc, if_true, if_neg (show LF ≠ CR by decide)]
  | stop c k =>
    rw [hloop] at hends
    obtain ⟨hend, hbig | ⟨hpass, hc⟩⟩ := hends
    · dsimp only
      have hnread := h.nread
      apply count_overflow hend.le hbig _ (by omega)
      unfold HTTP_MAX_HEADER_SIZE at hnread
      show m.nread + k < 2 ^ 32
      omega
    · dsimp only
      apply count_explains hend.le (by
        have hnread := h.nread
        show m.nread + k ≤ N + (m.p + k) + 1
        omega)
      intro n hn
      exact next_explains hp hpass hend (hc.trans hstate.symm) (by rw [hc]; decide) hn

/-! ### The loops over a body -/

theorem onward_mark (m : Machine) (k : Option Mark) (c : Core) :
    ({ m with core := c } : Machine).mark k = (m.mark k).onward c 0 := by
  cases k with
  | none => rfl
  | some k =>
    unfold mark onward
    dsimp only
    split_ifs <;> rfl

theorem mark_onward_mark (m : Machine) (k : Mark) (c : Core) (n : ℕ) :
    ((m.mark (some k)).onward c n).mark (some k) = (m.mark (some k)).onward c n := by
  have hset : ((m.mark (some k)).marks k).isNone = false := by
    unfold mark
    dsimp only
    split_ifs with h
    · show (Function.update m.marks k (some m.p) k).isNone = false
      rw [Function.update_self]
      rfl
    · exact Bool.eq_false_iff.2 h
  show (if ((m.mark (some k)).marks k).isNone then _ else _) = _
  rw [hset]
  rfl

/-- Bytes of a body: the parser is `f j` behind `j` of them. -/
theorem body_passes {f : ℕ → Core} (h : Follows data N m s) (hs : s.Good) (h0 : f 0 = m.core)
    (k : ℕ) (hle : m.p + k ≤ data.length)
    (hbyte : ∀ j < k, ∀ ch, bytewise (f j) ch = ⟨f (j + 1), some .body, false, none, .advance⟩) :
    ∃ M s', Reaches Stream.step (place data m s) (place data M s') ∧ Follows data N M s' ∧
      s'.Good ∧ M.core = f k ∧ M.p = m.p + k ∧
      M.mark (some .body) = (m.mark (some .body)).onward (f k) k ∧
      (0 < k → M = (m.mark (some .body)).onward (f k) k) := by
  induction k with
  | zero =>
    refine ⟨m, s, Relation.ReflTransGen.refl, h, hs, h0.symm, rfl, ?_, fun h => absurd h (by omega)⟩
    rw [h0]
    exact (onward_mark m _ m.core)
  | succ k ih =>
    obtain ⟨M, s', hr, hf, hg, hcore, hp, hmark, -⟩ :=
      ih (by omega) fun j hj => hbyte j (by omega)
    have hlt : m.p + k < data.length := by omega
    have hch : data[M.p]? = some data[m.p + k] := by rw [hp]; exact List.getElem?_eq_getElem hlt
    obtain ⟨s'', hr', hf', hg', -⟩ : Explains data N M s'
        (.next (({ M with core := f (k + 1) } : Machine).mark (some .body))) :=
      perform_explains (a := ⟨f (k + 1), some .body, false, none, .advance⟩) hf hg hch
        (by rw [hcore]; exact (hbyte k (by omega) _).symm)
    have heq : ({ ({ M with core := f (k + 1) } : Machine).mark (some .body) with
        p := (({ M with core := f (k + 1) } : Machine).mark (some .body)).p + 1 } : Machine) =
        (m.mark (some .body)).onward (f (k + 1)) (k + 1) := by
      rw [onward_mark, hmark]
      rfl
    rw [heq] at hr' hf'
    exact ⟨_, s'', hr.trans hr', hf', hg', rfl, by show (m.mark _).p + _ = _; rw [(mark_same m _).p],
      mark_onward_mark m _ _ _, fun _ => rfl⟩

/-- A loop over a body that comes to an end with the byte before `m.p + k`. -/
theorem body_next_explains {f : ℕ → Core} {k : ℕ} (h : Follows data N m s) (hs : s.Good)
    (h0 : f 0 = m.core) (hk : 0 < k) (hle : m.p + k ≤ data.length)
    (hne : (f k).state ≠ .chunkSizeStart)
    (hbyte : ∀ j < k, ∀ ch, bytewise (f j) ch = ⟨f (j + 1), some .body, false, none, .advance⟩) :
    Explains data N m s (.next { m.mark (some .body) with core := f k, p := m.p + k - 1 }) := by
  obtain ⟨M, s', hr, hf, hg, -, -, -, hM⟩ := body_passes h hs h0 k hle hbyte
  have hmp := (mark_same m (some .body)).p
  have heq : ({ m.mark (some .body) with core := f k, p := m.p + k - 1 + 1 } : Machine) = M := by
    rw [hM hk]
    unfold onward
    rw [hmp, show m.p + k - 1 + 1 = m.p + k by omega]
  have hcore : M.core = f k := by rw [← heq]
  have hend : M.p = m.p + k := by
    rw [← heq]
    show m.p + k - 1 + 1 = m.p + k
    omega
  have hrank := rank_le M.core.state
  unfold Explains
  dsimp only
  rw [heq]
  refine ⟨s', hr, hf, hg, ?_, ?_, ?_⟩
  · unfold measure
    rw [hend]
    omega
  · intro hchunk
    exact absurd hchunk hne
  · intro _
    have hn := h.nread
    have hmark := (mark_same m (some .body)).nread
    show (m.mark (some .body)).nread ≤ N + (m.p + k - 1 + 1)
    omega

theorem bodyIdentityEof_explains (h : Follows data N m s) (hs : s.Good) (hp : m.p < data.length)
    (hstate : m.core.state = .bodyIdentityEof) :
    Explains data N m s (.next { m.mark (some .body) with p := data.length - 1 }) := by
  have hnext := body_next_explains (f := fun _ => m.core) (k := data.length - m.p) h hs rfl
    (by omega) (by omega) (by rw [hstate]; decide)
    (by intro j _ ch; simp only [bytewise, hstate])
  rw [show m.p + (data.length - m.p) - 1 = data.length - 1 by omega] at hnext
  rwa [← (mark_same m (some .body)).core] at hnext

theorem bodyIdentity_explains (h : Follows data N m s) (hs : s.Good) (hp : m.p < data.length)
    (hstate : m.core.state = .bodyIdentity) :
    Explains data N m s (bodyIdentity allOk data m) := by
  obtain ⟨hne, hne'⟩ : m.core.contentLength ≠ 0 ∧ m.core.contentLength ≠ ULLONG_MAX := by
    have hok := hs.core.stateOk
    rwa [h.core, Core.StateOk, hstate] at hok
  have hmax := h.core ▸ hs.core.length
  have hbyte : ∀ j, j + 1 < m.core.contentLength → ∀ ch,
      bytewise { m.core with contentLength := m.core.contentLength - j } ch =
        ⟨{ m.core with contentLength := m.core.contentLength - (j + 1) }, some .body, false, none,
          .advance⟩ := by
    intro j hj ch
    simp only [bytewise, hstate]
    rw [if_neg (by omega), if_neg (by omega)]
    rfl
  have hcore := (mark_same m (some .body)).core
  unfold bodyIdentity
  dsimp only
  rw [if_neg (by omega), hcore]
  by_cases hrest : m.core.contentLength ≤ data.length - m.p
  · -- the body ends in this buffer
    rw [min_eq_left hrest, if_pos (Nat.sub_self _)]
    obtain ⟨M, s', hr, hf, hg, hMcore, hMp, hmark, -⟩ := body_passes (f := fun j => { m.core with
      contentLength := m.core.contentLength - j }) h hs rfl (m.core.contentLength - 1) (by omega)
      fun j hj => hbyte j (by omega)
    apply Explains.trans hr
    · show 4 * (data.length - M.p) + M.core.state.rank ≤ 4 * (data.length - m.p) + _
      rw [hMcore, hMp]
      show _ + m.core.state.rank ≤ _
      omega
    · have heq : ({ m.mark (some .body) with
          core := { m.core with
            contentLength := m.core.contentLength - m.core.contentLength, state := .messageDone },
          p := (m.mark (some .body)).p + m.core.contentLength - 1 } : Machine) =
          ({ M with core := { m.core with contentLength := 0, state := .messageDone } } :
            Machine).mark (some .body) := by
        rw [onward_mark M, hmark]
        unfold onward
        dsimp only
        rw [Nat.sub_self, Nat.add_zero, ← Nat.add_sub_assoc (by omega)]
      rw [heq]
      refine perform_explains (a := ⟨{ m.core with contentLength := 0, state := .messageDone },
        some .body, false, some (.dataThrough .body), .reexecute⟩) hf hg
        (List.getElem?_eq_getElem (show M.p < data.length by omega)) ?_
      rw [hMcore]
      simp only [bytewise, hstate]
      rw [if_neg (by omega), if_pos (by omega)]
  · rw [min_eq_right (by omega), if_neg (by omega), (mark_same m (some .body)).p]
    exact body_next_explains (f := fun j => { m.core with
      contentLength := m.core.contentLength - j }) h hs rfl (by omega) (by omega)
      (by show m.core.state ≠ _; rw [hstate]; decide) fun j hj => hbyte j (by omega)

theorem chunkData_explains (h : Follows data N m s) (hs : s.Good) (hp : m.p < data.length)
    (hstate : m.core.state = .chunkData) : Explains data N m s (chunkData data m) := by
  obtain ⟨hchunked, hne, hne'⟩ : m.core.flags.chunked = true ∧ m.core.contentLength ≠ 0 ∧
      m.core.contentLength ≠ ULLONG_MAX := by
    have hok := hs.core.stateOk
    rwa [h.core, Core.StateOk, hstate] at hok
  have hmax := h.core ▸ hs.core.length
  have hcore := (mark_same m (some .body)).core
  have hcond : ¬ (¬ m.core.flags.chunked = true ∨ m.core.contentLength = 0 ∨
      m.core.contentLength = ULLONG_MAX) := by
    rintro (h | h | h)
    exacts [h hchunked, hne h, hne' h]
  unfold chunkData
  dsimp only
  rw [if_neg hcond, hcore, (mark_same m (some .body)).p]
  have hnext := body_next_explains (k := min m.core.contentLength (data.length - m.p))
    (f := fun j =>
      if j < m.core.contentLength then
        { m.core with contentLength := m.core.contentLength - j }
      else { m.core with contentLength := 0, state := .chunkDataAlmostDone }) h hs
    (if_pos (by omega)) (by omega) (by omega) ?_ ?_
  · split_ifs with hdone
    · rw [if_neg (by omega)] at hnext
      rwa [show m.core.contentLength - min m.core.contentLength (data.length - m.p) = 0 by omega]
    · rwa [if_pos (by omega)] at hnext
  · split_ifs
    · show m.core.state ≠ _
      rw [hstate]
      decide
    · intro h; cases h
  · intro j hj ch
    rw [if_pos (show j < m.core.contentLength by omega)]
    simp only [bytewise, hstate]
    rw [if_neg (by rintro (h | h | h); exacts [h hchunked, by omega, by omega])]
    split_ifs
    all_goals first | omega | rfl

/-! ### A turn -/

theorem dispatch_eq {c : Core} {n : ℕ} (hn : c.state = .chunkSizeStart → n = 1) (ch : UInt8) :
    dispatch c n ch = dispatch c 1 ch := by
  by_cases hs : c.state = .chunkSizeStart
  · rw [hn hs]
  · unfold dispatch
    split <;> first | rfl | contradiction

theorem switch_explains {ch : UInt8} (h : Follows data N m s) (hs : s.Good)
    (hlen : data.length < 2 ^ 31) (hch : data[m.p]? = some ch)
    (hn : m.core.state = .chunkSizeStart → m.nread = 1) :
    Explains data N m s (switch allOk data m ch) := by
  have hp : m.p < data.length := (List.getElem?_eq_some_iff.1 hch).1
  unfold switch
  split
  · exact headerField_explains h hs hp ‹_›
  · exact headerValue_explains h hs hp hlen ‹_›
  · exact bodyIdentity_explains h hs hp ‹_›
  · exact bodyIdentityEof_explains h hs hp ‹_›
  · exact chunkData_explains h hs hp ‹_›
  · apply perform_explains h hs hch
    rw [dispatch_eq hn]
    unfold bytewise
    split <;> first | rfl | contradiction

theorem turn_explains {ch : UInt8} {fresh : Bool} (h : Follows data N m s) (hs : s.Good)
    (hlen : data.length < 2 ^ 31) (hch : data[m.p]? = some ch)
    (hn : m.core.state = .chunkSizeStart → fresh = true ∧ m.nread = 0)
    (hfresh : fresh = true → m.nread ≤ N + m.p) :
    Explains data N m s (turn allOk data fresh m) := by
  have hp : m.p < data.length := (List.getElem?_eq_some_iff.1 hch).1
  unfold turn
  rw [hch]
  dsimp only
  split_ifs with hcount
  · have hle := hfresh hcount.1
    have hmod := Nat.mod_le (m.nread + 1) (2 ^ 32)
    unfold count
    dsimp only
    split_ifs with hmax
    · exact ⟨h.le, Or.inl ⟨rfl, by omega⟩⟩
    · exact switch_explains (m := { m with nread := (m.nread + 1) % 2 ^ 32 })
        (h.withNread (by omega)) hs hlen hch fun hstate => by
          show (m.nread + 1) % 2 ^ 32 = 1
          rw [(hn hstate).2]
          rfl
  · apply switch_explains h hs hlen hch
    intro hstate
    exact absurd ⟨(hn hstate).1, by rw [hstate]; rfl⟩ hcount

end Machine

/-! ## A call -/

/-- The callbacks with the one for the span that is open. -/
def Stream.flushed (s : Stream) : List Callback :=
  match s.span with
  | none => s.log
  | some (k, bytes) => s.log ++ [.data k bytes]

namespace Stream.Config

def core : Stream.Config → Core
  | .running s _ | .stopped s _ => s.core

/-- The callbacks of a call that ends here. -/
def callbacks : Stream.Config → List Callback
  | .running s _ => s.flushed
  | .stopped s _ => s.log

def rest : Stream.Config → List UInt8
  | .running _ rest | .stopped _ rest => rest

end Stream.Config

namespace Machine

variable {data : List UInt8} {N : ℕ} {m : Machine} {s : Stream}

/-- Without a mark there is no callback behind the loop. -/
theorem flush_none (hOK : m.core.httpErrno = .OK) (ks : List Mark) (h : ∀ k, m.marks k = none) :
    flush allOk data ks m = .ret m data.length := by
  induction ks with
  | nil => rfl
  | cons k ks ih =>
    rw [flush, dataCallback, assertOk_eq hOK, h k]
    exact ih

/-- With one mark there is one. -/
theorem flush_one (hOK : m.core.httpErrno = .OK) {ks : List Mark} {k : Mark} {start : ℕ} (hk : k ∈ ks)
    (h : ∀ j, m.marks j = if j = k then some start else none) :
    flush allOk data ks m = .ret { m with
      marks := Function.update m.marks k none
      log := m.log ++ [.data k ((data.drop start).take (m.p - start))] } data.length := by
  induction ks with
  | nil => cases hk
  | cons j ks ih =>
    rw [flush, dataCallback, assertOk_eq hOK, h j]
    by_cases hj : j = k
    · subst hj
      rw [if_pos rfl]
      refine flush_none (m := { m with
        marks := Function.update m.marks j none
        log := m.log ++ [.data j ((data.drop start).take (m.p - start))] }) hOK ks fun i => ?_
      show Function.update m.marks j none i = none
      rw [Function.update_apply, h i]
      split_ifs <;> rfl
    · rw [if_neg hj]
      rcases List.mem_cons.1 hk with rfl | hk
      · exact absurd rfl hj
      · exact ih hk

/-- Behind the loop the open span is handed over. -/
theorem finish_spec (h : Follows data N m s) (hOK : m.core.httpErrno = .OK) :
    ∃ m', finish allOk data m = .ret m' data.length ∧ m'.core = m.core ∧ m'.nread = m.nread ∧
      m'.log = s.flushed := by
  cases hspan : s.span with
  | none =>
    have hmarks := h.closed hspan
    have hfilter : markOrder.filter (fun k => (m.marks k).isSome) = [] := by
      rw [List.filter_eq_nil_iff]
      intro k _
      rw [hmarks k]
      decide
    refine ⟨m, ?_, rfl, rfl, ?_⟩
    · rw [finish, hfilter, if_neg (by decide)]
      exact flush_none hOK _ hmarks
    · rw [Stream.flushed, hspan]
      exact h.log.symm
  | some r =>
    obtain ⟨k, bytes⟩ := r
    obtain ⟨start, hstart, hbytes, hmarks⟩ := h.opened k bytes hspan
    have hmem : k ∈ markOrder := by cases k <;> decide
    have hfilter : markOrder.filter (fun j => (m.marks j).isSome) = [k] := by
      have hsome : ∀ j, (m.marks j).isSome = decide (j = k) := by
        intro j
        rw [hmarks j]
        by_cases hj : j = k
        · rw [if_pos hj, decide_eq_true hj]
          rfl
        · rw [if_neg hj, decide_eq_false hj]
          rfl
      simp only [hsome]
      cases k <;> decide
    refine ⟨{ m with
      marks := Function.update m.marks k none
      log := m.log ++ [.data k ((data.drop start).take (m.p - start))] }, ?_, rfl, rfl, ?_⟩
    · rw [finish, hfilter, List.length_singleton,
        if_neg (Nat.lt_irrefl 1)]
      exact flush_one hOK hmem hmarks
    · rw [Stream.flushed, hspan, h.log, hbytes]

/-- How the turns end: in an overflow, or where the stream ends. -/
structure Ends (data : List UInt8) (m' : Machine) (n : ℕ) (c : Stream.Config) : Prop where
  stops : Stream.step c = none
  core : c.core = m'.core
  log : c.callbacks = m'.log
  rest : c.rest = data.drop n
  good : m'.core.httpErrno = .OK → m'.core.Good ∧
    (m'.core.state = .chunkSizeStart → m'.nread = 0) ∧ m'.nread ≤ HTTP_MAX_HEADER_SIZE
  reads : n = data.length ∨ m'.core.httpErrno ≠ .OK ∨ m'.core.upgrade = true

/-- A whole call runs the stream to the end of the buffer, or to an error or an upgrade. -/
theorem run_spec (hlen : data.length < 2 ^ 31) (fuel : ℕ) :
    ∀ (m : Machine) (s : Stream) (fresh : Bool), Follows data N m s → s.Good →
      (m.core.state = .chunkSizeStart → fresh = true ∧ m.nread = 0) →
      (fresh = true → m.p < data.length → m.nread ≤ N + m.p) → measure data m < fuel →
      ∃ m' n, run allOk data fuel fresh m = some (m', n) ∧ n ≤ data.length ∧
        (m'.core.httpErrno = .HEADER_OVERFLOW ∧ HTTP_MAX_HEADER_SIZE ≤ N + data.length ∨
          ∃ c, Reaches Stream.step (place data m s) c ∧ Ends data m' n c) := by
  induction fuel with
  | zero => exact fun _ _ _ _ _ _ _ h => absurd h (Nat.not_lt_zero _)
  | succ fuel ih =>
    intro m s fresh h hs hn hfresh hfuel
    unfold run
    cases hch : data[m.p]? with
    | none =>
      have hp : m.p = data.length := Nat.le_antisymm h.le (List.getElem?_eq_none_iff.1 hch)
      obtain ⟨m', hfinish, hcore, hnread, hlog⟩ := finish_spec h (h.core ▸ hs.core.errno)
      rw [turn, hch]
      dsimp only
      rw [hfinish]
      refine ⟨m', _, rfl, le_refl _, Or.inr ⟨place data m s, Relation.ReflTransGen.refl, ?_⟩⟩
      rw [place, hp, List.drop_length]
      refine ⟨rfl, h.core.trans hcore.symm, hlog.symm, (List.drop_length).symm, ?_, Or.inl rfl⟩
      intro _
      rw [hcore, hnread]
      exact ⟨h.core ▸ hs.core, fun hstate => (hn hstate).2, h.nread.trans (min_le_left _ _)⟩
    | some ch =>
      have hp : m.p < data.length := (List.getElem?_eq_some_iff.1 hch).1
      have hturn := turn_explains h hs hlen hch hn fun hf => hfresh hf hp
      cases hstep : turn allOk data fresh m with
      | next m' =>
        rw [hstep] at hturn
        obtain ⟨s', hr, hf, hg, hlt, hn', hle'⟩ := hturn
        obtain ⟨m'', n, hrun, hle, hend⟩ :=
          ih _ s' true hf hg (fun hc => ⟨rfl, hn' hc⟩) (fun _ => hle') (by omega)
        refine ⟨m'', n, hrun, hle, hend.imp_right ?_⟩
        rintro ⟨c, hc, hends⟩
        exact ⟨c, hr.trans hc, hends⟩
      | again m' =>
        rw [hstep] at hturn
        obtain ⟨s', hr, hf, hg, hlt, hne⟩ := hturn
        obtain ⟨m'', n, hrun, hle, hend⟩ :=
          ih _ s' false hf hg (fun hc => absurd hc hne) (fun hf => by cases hf) (by omega)
        refine ⟨m'', n, hrun, hle, hend.imp_right ?_⟩
        rintro ⟨c, hc, hends⟩
        exact ⟨c, hr.trans hc, hends⟩
      | ret m' n =>
        rw [hstep] at hturn
        obtain ⟨hle, hover | ⟨s', hr, hcore, hlog, hgood⟩⟩ := hturn
        · exact ⟨m', n, rfl, hle, Or.inl hover⟩
        · refine ⟨m', n, rfl, hle, Or.inr ⟨_, hr, rfl, hcore, hlog, rfl, ?_, ?_⟩⟩
          · intro hOK
            obtain ⟨hgood, hne, hnread, -⟩ := hgood hOK
            exact ⟨hgood, fun hstate => absurd hstate hne, hnread⟩
          · by_cases hOK : m'.core.httpErrno = .OK
            · exact Or.inr (Or.inr (hgood hOK).2.2.2)
            · exact Or.inr (Or.inl hOK)
      | abort =>
        rw [hstep] at hturn
        exact hturn.elim

/-- A call starts with the mark of its state at the first byte. -/
theorem start_follows (c : Core) {n : ℕ} (hn : n ≤ HTTP_MAX_HEADER_SIZE) (log : List Callback) :
    Follows data n (start c n log)
      ⟨c, (startMark c.state).map fun k => (k, []), log⟩ := by
  refine ⟨rfl, rfl, Nat.zero_le _, le_min hn (show n ≤ n + 0 + 1 by omega), ?_, ?_⟩
  · intro hnone k
    have hmark := Option.map_eq_none_iff.1 hnone
    show (if startMark c.state = some k then some 0 else none) = none
    rw [hmark, if_neg (by intro h; cases h)]
  · intro k bytes hspan
    obtain ⟨k', hmark, heq⟩ := Option.map_eq_some_iff.1 hspan
    cases heq
    refine ⟨0, le_refl _, rfl, ?_⟩
    intro j
    show (if startMark c.state = some j then some 0 else none) = _
    rw [hmark]
    by_cases hj : j = k
    · rw [if_pos hj, if_pos (by rw [hj])]
    · rw [if_neg hj, if_neg (fun h => hj (Option.some.inj h).symm)]

/-- The state says which span is open at the start of a buffer. -/
theorem opens_startMark (st : State) : Opens st (startMark st) := by
  cases st <;> first | rfl | exact Or.inl rfl

end Machine

namespace HttpParser

/-- The byte stream a call goes on with. -/
def stream (parser : HttpParser) : Stream :=
  ⟨parser.core, (Machine.startMark parser.core.state).map fun k => (k, []), parser.log⟩

/-- The invariant of the parser object between calls. -/
def Good (parser : HttpParser) : Prop :=
  parser.core.httpErrno = .OK → parser.core.Good ∧
    (parser.core.state = .chunkSizeStart → parser.nread = 0) ∧
    parser.nread ≤ HTTP_MAX_HEADER_SIZE

variable {parser : HttpParser} {data : List UInt8}

theorem stream_good (h : parser.core.Good) : parser.stream.Good := by
  refine ⟨h, ?_⟩
  have hkind : parser.stream.kind = Machine.startMark parser.core.state := by
    unfold Stream.kind stream
    dsimp only
    rw [Option.map_map]
    exact congrFun Option.map_id _
  rw [hkind]
  exact Machine.opens_startMark _

/-- A call with bytes fails no assertion, returns no more than there are, and ends where the
byte stream ends, unless the header is too long. -/
theorem execute_spec (hgood : parser.Good) (hOK : parser.core.httpErrno = .OK) (hne : data ≠ [])
    (hlen : data.length < 2 ^ 31) :
    ∃ parser' n, parser.execute allOk data = some (parser', n) ∧ n ≤ data.length ∧
      (n = data.length ∨ parser'.core.httpErrno ≠ .OK ∨ parser'.core.upgrade = true) ∧
      parser'.Good ∧
      (parser'.core.httpErrno = .HEADER_OVERFLOW ∧
          HTTP_MAX_HEADER_SIZE ≤ parser.nread + data.length ∨
        ∃ c, Reaches Stream.step (.running parser.stream data) c ∧ Stream.step c = none ∧
          c.core = parser'.core ∧ c.callbacks = parser'.log ∧ c.rest = data.drop n) := by
  obtain ⟨hcore, hchunk, hnread⟩ := hgood hOK
  have hmeasure : Machine.measure data (Machine.start parser.core parser.nread parser.log) <
      8 * data.length + 8 := by
    have hrank := Machine.rank_le parser.core.state
    show 4 * (data.length - 0) + parser.core.state.rank < _
    omega
  obtain ⟨m', n, hrun, hle, hend⟩ := Machine.run_spec hlen _ _ parser.stream true
    (Machine.start_follows parser.core hnread parser.log) (stream_good hcore)
    (fun hstate => ⟨rfl, hchunk hstate⟩) (fun _ _ => Nat.le_add_right _ _) hmeasure
  have hexecute : parser.execute allOk data = some (⟨m'.core, m'.nread, m'.log⟩, n) := by
    rw [execute, if_neg (not_not.2 hOK), if_neg hne, hrun]
    rfl
  refine ⟨_, n, hexecute, hle, ?_, ?_, ?_⟩
  · rcases hend with ⟨hover, -⟩ | ⟨c, -, hends⟩
    · exact Or.inr (Or.inl (by show m'.core.httpErrno ≠ .OK; rw [hover]; decide))
    · exact hends.reads
  · intro hOK'
    rcases hend with ⟨hover, -⟩ | ⟨c, -, hends⟩
    · rw [show m'.core.httpErrno = .OK from hOK'] at hover
      cases hover
    · exact hends.good hOK'
  · refine hend.imp_right ?_
    rintro ⟨c, hreach, hends⟩
    exact ⟨c, hreach, hends.stops, hends.core, hends.log, hends.rest⟩

end HttpParser

end Netxy.Vendored
