import Netxy.Net.SocketLoop

/-!
# Shutdown behind the last byte

`postShutdown` queues the shutdown behind the flushes that are queued already. What was sent
before goes out ahead of it only if those flushes send all of it.
-/

namespace Netxy

namespace DataSocket

variable {κ : Type*} {ds ds' : DataSocket κ}

/-- A method opens no socket and posts no shutdown. -/
structure Calm (ds : DataSocket κ) (r : DataSocket κ × List AfterLoopProc) : Prop where
  isOpen : r.1.isOpen = true → ds.isOpen = true
  final : (ds.mIsPostFinalClose = true → ds.isOpen = false) →
    r.1.mIsPostFinalClose = true → r.1.isOpen = false
  posted : .shutdown ∉ r.2

theorem Calm.same {posted : List AfterLoopProc} (hopen : ds'.isOpen = ds.isOpen)
    (hfinal : ds'.mIsPostFinalClose = ds.mIsPostFinalClose) (hposted : .shutdown ∉ posted) :
    Calm ds (ds', posted) where
  isOpen h := hopen.symm.trans h
  final h := by
    rw [hopen, hfinal]
    exact h
  posted := hposted

/-- A method may follow a change that opens and closes nothing. -/
theorem Calm.after {r : DataSocket κ × List AfterLoopProc} (h : Calm ds' r)
    (hds : Calm ds (ds', [])) : Calm ds r where
  isOpen hopen := hds.isOpen (h.isOpen hopen)
  final hfinal := h.final (hds.final hfinal)
  posted := h.posted

variable (ds)

theorem calm_runAfterFlush : Calm ds ds.runAfterFlush := by
  unfold runAfterFlush
  split <;> exact .same rfl rfl (by decide)

theorem calm_sendPacketInLoop (packet : List UInt8) (callback : Option κ) :
    Calm ds (ds.sendPacketInLoop packet callback) :=
  (calm_runAfterFlush _).after (.same rfl rfl List.not_mem_nil)

theorem calm_canSend : Calm ds ds.canSend := by
  have hremove : Calm ds (ds.removeCheckWrite, []) := by
    unfold removeCheckWrite
    split <;> exact .same rfl rfl List.not_mem_nil
  have hrun : Calm ds.removeCheckWrite ds.canSend :=
    (calm_runAfterFlush _).after (.same rfl rfl List.not_mem_nil)
  exact hrun.after hremove

theorem calm_checkWrite : Calm ds (ds.checkWrite, []) := by
  unfold checkWrite
  split <;> exact .same rfl rfl List.not_mem_nil

theorem calm_procShutdownInLoop : Calm ds (ds.procShutdownInLoop, []) := by
  unfold procShutdownInLoop
  split <;> exact .same rfl rfl List.not_mem_nil

theorem calm_procCloseInLoop : Calm ds ds.procCloseInLoop := by
  refine ⟨fun hopen => ?_, fun hfinal _ => isOpen_procCloseInLoop hfinal, ?_⟩
  · by_contra hclosed
    rw [procCloseInLoop, if_neg hclosed] at hopen
    exact hclosed hopen
  · unfold procCloseInLoop onClose
    split
    · split <;> simp
    · exact List.not_mem_nil

theorem calm_flushTail (sendLen : ℕ) (want : ℤ) :
    Calm ds ((ds.flushTail sendLen want).ds, (ds.flushTail sendLen want).posted) := by
  rcases flushTail_cases ds sendLen want with h | h | h <;> rw [h]
  · exact .same rfl rfl List.not_mem_nil
  · exact .same rfl rfl List.not_mem_nil
  · exact (calm_checkWrite _).after (.same rfl rfl List.not_mem_nil)

theorem calm_flushStep (kind : FlushKind) (pc : FlushPc) (r : SysRet) :
    Calm ds ((ds.flushStep kind pc r).ds, (ds.flushStep kind pc r).posted) := by
  cases pc with
  | sendProc =>
    rw [flushStep]
    rcases flushSend_cases kind ds r with h | ⟨o, -, h⟩ | h | h <;> rw [h]
    · exact .same rfl rfl List.not_mem_nil
    · exact .same rfl rfl List.not_mem_nil
    · exact (calm_checkWrite _).after (.same rfl rfl List.not_mem_nil)
    · exact calm_procCloseInLoop ds
  | written sendLen want tmpLen =>
    simp only [flushStep, flushWritten]
    split
    · exact calm_flushTail ds sendLen want
    · split
      · exact .same rfl rfl List.not_mem_nil
      · exact (calm_flushTail _ sendLen want).after (.same rfl rfl List.not_mem_nil)
  | completed sendLen want tmpLen => exact .same rfl rfl List.not_mem_nil

variable {ds}

end DataSocket

namespace SocketLoop
open DataSocket

variable {κ : Type*}

/-- A flush is queued that will run before the shutdown. -/
def flushAhead : List AfterLoopProc → Bool
  | [] => false
  | .flush :: _ => true
  | .shutdown :: _ => false
  | .disconnect :: rest => flushAhead rest

theorem flushAhead_append (q rest : List AfterLoopProc) :
    flushAhead (q ++ rest) =
      (flushAhead q || (!q.contains .shutdown && flushAhead rest)) := by
  induction q with
  | nil => rfl
  | cons proc q ih =>
    cases proc with
    | flush | shutdown => rfl
    | disconnect => simpa [flushAhead] using ih

theorem flushAhead_of_mem {q : List AfterLoopProc} (hflush : .flush ∈ q)
    (hshutdown : .shutdown ∉ q) : flushAhead q = true := by
  induction q with
  | nil => cases hflush
  | cons proc q ih =>
    cases proc with
    | flush => rfl
    | shutdown => exact absurd List.mem_cons_self hshutdown
    | disconnect =>
      exact ih (List.mem_of_ne_of_mem (by decide) hflush) fun h =>
        hshutdown (List.mem_cons_of_mem _ h)

/-! ## The condition -/

/-- The running flush will write again: its last write, if any, was not short. -/
def Flushing : Option FlushPc → Prop
  | none => False
  | some .sendProc => True
  | some (.written sendLen want _) | some (.completed sendLen want _) => (sendLen : ℤ) = want

/-- The socket is open and the kernel has not taken all that was sent before `postShutdown`. -/
def Owes (s : SocketLoop κ) : Prop :=
  s.out.ds.isOpen = true ∧ ∃ p, s.promised = some p ∧ s.out.accepted.length < p.length

/-- The kernel takes all of what it is offered, or as much as was sent before
`postShutdown`. -/
def TakesEnough (kind : FlushKind) (s : SocketLoop κ) (r : SysRet) : Prop :=
  ∃ o, offer kind s.out.ds.mSendList = some o ∧ s.out.ds.taken o r ≠ [] ∧
    (((s.out.ds.taken o r).length : ℤ) = o.want ∨
      ∀ p, s.promised = some p →
        p.length ≤ s.out.accepted.length + (s.out.ds.taken o r).length)

/-- The flushes ahead of the shutdown send what was sent before it: when `postShutdown` runs,
the kernel has taken everything or a flush is at it or queued, and the last flush before the
shutdown finds the socket writable and is never cut short. Up to the shutdown, no flush goes on
after a packet was enqueued while it held its iterator. -/
def Keeps (kind : FlushKind) (s : SocketLoop κ) : Action κ → Prop
  | .postShutdown =>
    s.out.ds.isOpen = true → s.promised = none →
      s.out.accepted = s.sent ∨ Flushing s.out.pc ∨ .flush ∈ s.queue
  | .runAfterLoopProc =>
    s.Owes → s.mCopyAfterLoopProcs.head? = some .flush →
      s.out.ds.mCanWrite = true ∨ flushAhead s.queue.tail = true
  | .resume r =>
    (s.shutDown = none → s.out.stale = false) ∧
      (s.Owes → s.out.pc = some .sendProc → TakesEnough kind s r ∨ flushAhead s.queue = true)
  | _ => True

/-- What was sent before `postShutdown` was taken before `shutdown` was called. -/
def Graceful (s : SocketLoop κ) : Prop :=
  ∀ p taken, s.promised = some p → s.shutDown = some taken → p <+: taken

/-- What the record of a run says. -/
structure Tracked (s : SocketLoop κ) : Prop where
  intact : s.out.Intact
  final : s.out.ds.mIsPostFinalClose = true → s.out.ds.isOpen = false
  promised_prefix : ∀ p, s.promised = some p → p <+: s.sent
  queued : s.promised = none → .shutdown ∉ s.queue ∧ s.shutDown = none
  /-- a shutdown that was not called yet is queued -/
  awaited : s.out.ds.isOpen = true → s.promised ≠ none → s.shutDown = none → .shutdown ∈ s.queue
  shutDown_prefix : ∀ taken, s.shutDown = some taken → taken <+: s.out.accepted

/-- The bytes owed are covered by a flush. -/
structure Covered (s : SocketLoop κ) : Prop extends Tracked s where
  covered : s.Owes → Flushing s.out.pc ∨ flushAhead s.queue = true
  graceful : s.Graceful

/-- What a step of the output stream does to the socket, and to the record of its stream. -/
theorem calm_act {kind : FlushKind} {s out : OutputStream κ} {a : OutputStream.Action κ}
    (h : s.act kind a = some out) : Calm s.ds (out.ds, posted kind s a) := by
  cases a with
  | sendPacketInLoop packet callback =>
    cases h
    exact calm_sendPacketInLoop _ _ _
  | flush =>
    simp only [OutputStream.act] at h
    split at h <;> cases h
    exact .same rfl rfl List.not_mem_nil
  | resume r =>
    obtain ⟨pc, hpc, rfl⟩ := Option.map_eq_some_iff.mp h
    simp only [posted, hpc]
    split
    · exact .same rfl rfl List.not_mem_nil
    · exact calm_flushStep _ _ _ _
  | canSend =>
    cases h
    exact calm_canSend _
  | procCloseInLoop =>
    cases h
    exact calm_procCloseInLoop _
  | procShutdownInLoop =>
    cases h
    exact calm_procShutdownInLoop _

theorem record_act {kind : FlushKind} {s out : OutputStream κ} {a : OutputStream.Action κ}
    (h : s.act kind a = some out) :
    s.accepted <+: out.accepted ∧ s.enqueued <+: out.enqueued := by
  cases a with
  | sendPacketInLoop packet callback =>
    cases h
    exact ⟨List.prefix_refl _, List.prefix_append _ _⟩
  | flush =>
    simp only [OutputStream.act] at h
    split at h <;> cases h
    exact ⟨List.prefix_refl _, List.prefix_refl _⟩
  | resume r =>
    obtain ⟨pc, hpc, rfl⟩ := Option.map_eq_some_iff.mp h
    split
    · exact ⟨List.prefix_refl _, List.prefix_refl _⟩
    · exact ⟨List.prefix_append _ _, List.prefix_refl _⟩
  | canSend | procCloseInLoop | procShutdownInLoop =>
    cases h
    exact ⟨List.prefix_refl _, List.prefix_refl _⟩

/-- What is owed was owed before, as long as the promise is the same. -/
theorem Owes.before {s t : SocketLoop κ} (h : t.Owes)
    (hopen : t.out.ds.isOpen = true → s.out.ds.isOpen = true)
    (hpromised : t.promised = s.promised) (haccepted : s.out.accepted <+: t.out.accepted) :
    s.Owes := by
  obtain ⟨ho, p, hp, hlt⟩ := h
  exact ⟨hopen ho, p, hpromised.symm.trans hp, haccepted.length_le.trans_lt hlt⟩

theorem queue_perform {kind : FlushKind} {s t : SocketLoop κ} {a : OutputStream.Action κ}
    (ht : s.perform kind a = some t) : t.queue = s.queue ++ posted kind s.out a := by
  obtain ⟨out, hout, rfl⟩ := Option.map_eq_some_iff.mp ht
  simp only [queue, List.append_assoc]

theorem isOpen_of_perform {kind : FlushKind} {s t : SocketLoop κ} {a : OutputStream.Action κ}
    (ht : s.perform kind a = some t) (hopen : t.out.ds.isOpen = true) :
    s.out.ds.isOpen = true := by
  obtain ⟨out, hout, rfl⟩ := Option.map_eq_some_iff.mp ht
  exact (calm_act hout).isOpen hopen

theorem Tracked.perform {kind : FlushKind} {s t : SocketLoop κ} {a : OutputStream.Action κ}
    (h : Tracked s) (ht : s.perform kind a = some t) : Tracked t := by
  have hqueue := queue_perform ht
  obtain ⟨out, hout, rfl⟩ := Option.map_eq_some_iff.mp ht
  have hcalm := calm_act hout
  obtain ⟨haccepted, henqueued⟩ := record_act hout
  have hsent : s.sent <+: out.enqueued.flatMap Prod.fst := by
    obtain ⟨rest, hrest⟩ := henqueued
    rw [← hrest, List.flatMap_append]
    exact List.prefix_append _ _
  refine ⟨OutputStream.intact_act h.intact hout, hcalm.final h.final,
    fun p hp => (h.promised_prefix p hp).trans hsent, fun hnone => ⟨?_, (h.queued hnone).2⟩,
    fun hopen hsome hnot => ?_,
    fun taken htaken => (h.shutDown_prefix taken htaken).trans haccepted⟩
  · rw [hqueue, List.mem_append, not_or]
    exact ⟨(h.queued hnone).1, hcalm.posted⟩
  · rw [hqueue]
    exact List.mem_append_left _ (h.awaited (hcalm.isOpen hopen) hsome hnot)

/-- A step of the output stream under which what is owed stays covered. -/
theorem Covered.perform {kind : FlushKind} {s t : SocketLoop κ} {a : OutputStream.Action κ}
    (h : Tracked s) (hgraceful : s.Graceful) (ht : s.perform kind a = some t)
    (hcovered : t.Owes → s.Owes → Flushing t.out.pc ∨ flushAhead s.queue = true) :
    Covered t := by
  have hqueue := queue_perform ht
  have htracked := h.perform ht
  obtain ⟨out, hout, rfl⟩ := Option.map_eq_some_iff.mp ht
  refine ⟨htracked, fun howes => ?_, hgraceful⟩
  have hbefore := howes.before (calm_act hout).isOpen rfl (record_act hout).1
  refine (hcovered howes hbefore).imp_right fun hahead => ?_
  rw [hqueue, flushAhead_append, hahead, Bool.true_or]

theorem Covered.quiet {kind : FlushKind} {s t : SocketLoop κ} {a : OutputStream.Action κ}
    (h : Covered s) (ht : s.perform kind a = some t) (hpc : t.out.pc = s.out.pc) : Covered t := by
  refine .perform h.toTracked h.graceful ht fun _ howes => ?_
  rw [hpc]
  exact h.covered howes

/-- A functor other than the shutdown leaves the queue. -/
theorem Tracked.pop {s : SocketLoop κ} (h : Tracked s) {proc : AfterLoopProc}
    {rest : List AfterLoopProc} (hcopy : s.mCopyAfterLoopProcs = proc :: rest)
    (hproc : proc ≠ .shutdown) : Tracked { s with mCopyAfterLoopProcs := rest } := by
  have hmem : .shutdown ∈ s.queue ↔ .shutdown ∈ rest ++ s.mAfterLoopProcs := by
    rw [queue, hcopy, List.cons_append, List.mem_cons]
    exact ⟨fun h => h.resolve_left fun heq => hproc heq.symm, .inr⟩
  exact ⟨h.intact, h.final, h.promised_prefix,
    fun hnone => ⟨fun hin => (h.queued hnone).1 (hmem.mpr hin), (h.queued hnone).2⟩,
    fun hopen hsome hnot => hmem.mp (h.awaited hopen hsome hnot), h.shutDown_prefix⟩

/-- The same functors in another arrangement. -/
theorem Tracked.congr {s t : SocketLoop κ} (h : Tracked s) (hout : t.out = s.out)
    (hqueue : t.queue = s.queue) (hpromised : t.promised = s.promised)
    (hshutDown : t.shutDown = s.shutDown) : Tracked t := by
  obtain ⟨out, after, copy, promised, shutDown⟩ := t
  cases hout
  cases hpromised
  cases hshutDown
  refine ⟨h.intact, h.final, h.promised_prefix, ?_, ?_, h.shutDown_prefix⟩
  · rw [hqueue]
    exact h.queued
  · rw [hqueue]
    exact h.awaited

theorem Tracked.accepted_prefix {s : SocketLoop κ} (h : Tracked s) :
    s.out.accepted <+: s.sent := ⟨_, h.intact.bytes⟩

/-- What `postShutdown` does to an open socket. -/
def promise (s : SocketLoop κ) : SocketLoop κ :=
  { s with
    mAfterLoopProcs := s.mAfterLoopProcs ++ [.shutdown]
    promised := s.promised.or (some s.sent) }

theorem queue_promise (s : SocketLoop κ) : s.promise.queue = s.queue ++ [.shutdown] := by
  simp only [queue, promise, List.append_assoc]

/-- The first `postShutdown` promises what was sent, and later ones change nothing. -/
theorem promised_promise {s : SocketLoop κ} {q : List UInt8} (h : s.promise.promised = some q) :
    s.promised = some q ∨ s.promised = none ∧ q = s.sent := by
  cases hpromised : s.promised with
  | none =>
    simp only [promise, hpromised, Option.none_or, Option.some.injEq] at h
    exact .inr ⟨rfl, h.symm⟩
  | some p =>
    simp only [promise, hpromised, Option.some_or] at h
    exact .inl h

theorem Tracked.promise {s : SocketLoop κ} (h : Tracked s) : Tracked s.promise := by
  refine ⟨h.intact, h.final, fun q hq => ?_, fun hnone => ?_, fun _ _ _ => ?_, h.shutDown_prefix⟩
  · rcases promised_promise hq with hpromised | ⟨-, rfl⟩
    · exact h.promised_prefix q hpromised
    · exact List.prefix_refl _
  · cases hpromised : s.promised <;> simp [SocketLoop.promise, hpromised] at hnone
  · rw [queue_promise]
    exact List.mem_append_right _ (by decide)

theorem Covered.promise {kind : FlushKind} {s : SocketLoop κ} (h : Covered s)
    (hkeeps : s.Keeps kind .postShutdown) (hopen : s.out.ds.isOpen = true) :
    Covered s.promise := by
  refine ⟨h.toTracked.promise, ?_, ?_⟩
  · rintro ⟨-, q, hq, hlt⟩
    rw [queue_promise, flushAhead_append]
    rcases promised_promise hq with hpromised | ⟨hpromised, rfl⟩
    · refine (h.covered ⟨hopen, q, hpromised, hlt⟩).imp_right fun hahead => ?_
      rw [hahead, Bool.true_or]
    · rcases hkeeps hopen hpromised with hall | hflushing | hflush
      · exact absurd (congrArg List.length hall) hlt.ne
      · exact .inl hflushing
      · rw [flushAhead_of_mem hflush (h.queued hpromised).1]
        exact .inr rfl
  · intro q taken hq htaken
    rcases promised_promise hq with hpromised | ⟨hpromised, -⟩
    · exact h.graceful q taken hpromised htaken
    · -- the first `postShutdown` comes before any `shutdown`
      have hnone : s.shutDown = none := (h.queued hpromised).2
      rw [SocketLoop.promise, hnone] at htaken
      cases htaken

/-- `procShutdownInLoop` is the next functor: what it records. -/
def recorded (s : SocketLoop κ) (rest : List AfterLoopProc) : SocketLoop κ :=
  { s with
    mCopyAfterLoopProcs := rest
    shutDown := if s.out.ds.isOpen then s.shutDown.or (some s.out.accepted) else s.shutDown }

/-- `shutdown` was called before, or is now if the socket is open. -/
theorem shutDown_recorded {s : SocketLoop κ} {rest : List AfterLoopProc} {taken : List UInt8}
    (h : (s.recorded rest).shutDown = some taken) :
    s.shutDown = some taken ∨
      s.shutDown = none ∧ s.out.ds.isOpen = true ∧ taken = s.out.accepted := by
  simp only [recorded] at h
  split at h
  · rename_i hopen
    cases hs : s.shutDown with
    | none =>
      rw [hs, Option.none_or, Option.some.injEq] at h
      exact .inr ⟨rfl, hopen, h.symm⟩
    | some a =>
      rw [hs, Option.some_or] at h
      exact .inl h
  · exact .inl h

theorem Tracked.recorded {s : SocketLoop κ} (h : Tracked s) {rest : List AfterLoopProc}
    (hcopy : s.mCopyAfterLoopProcs = .shutdown :: rest) : Tracked (s.recorded rest) := by
  have hpromised : s.promised ≠ none := by
    intro hnone
    exact (h.queued hnone).1 (by rw [queue, hcopy]; exact List.mem_cons_self)
  refine ⟨h.intact, h.final, h.promised_prefix, fun hnone => absurd hnone hpromised,
    fun hopen _ hnone => ?_, fun taken htaken => ?_⟩
  · have hopen : s.out.ds.isOpen = true := hopen
    simp only [SocketLoop.recorded, hopen, if_true] at hnone
    cases hs : s.shutDown <;> rw [hs] at hnone <;> cases hnone
  · rcases shutDown_recorded htaken with hs | ⟨-, -, rfl⟩
    · exact h.shutDown_prefix taken hs
    · exact List.prefix_refl _

/-- The shutdown runs where nothing is owed any more. -/
theorem Covered.recorded {kind : FlushKind} {s t : SocketLoop κ} (h : Covered s)
    (hpc : s.out.pc = none) {rest : List AfterLoopProc}
    (hcopy : s.mCopyAfterLoopProcs = .shutdown :: rest)
    (ht : (s.recorded rest).perform kind .procShutdownInLoop = some t) : Covered t := by
  have hnot : ¬ s.Owes := by
    intro howes
    rcases h.covered howes with hflushing | hahead
    · rw [hpc] at hflushing
      exact hflushing
    · rw [queue, hcopy] at hahead
      cases hahead
  refine .perform (h.toTracked.recorded hcopy) (fun p taken hp htaken => ?_) ht
    fun _ howes => absurd howes hnot
  rcases shutDown_recorded htaken with hs | ⟨-, hopen, rfl⟩
  · exact h.graceful p taken hp hs
  · have hle : p.length ≤ s.out.accepted.length := by
      by_contra hlt
      exact hnot ⟨hopen, p, hp, Nat.lt_of_not_le hlt⟩
    exact List.prefix_of_prefix_length_le (h.promised_prefix p hp) h.toTracked.accepted_prefix hle

/-- No flush ahead of the shutdown will send the bytes owed, if the socket is still open. -/
structure Doomed (s : SocketLoop κ) : Prop extends Tracked s where
  notCalled : s.shutDown = none
  owes : s.out.ds.isOpen = true → s.Owes
  notFlushing : s.out.ds.isOpen = true → ¬ Flushing s.out.pc
  notAhead : s.out.ds.isOpen = true → flushAhead s.queue = false

/-- A step of the output stream that leaves the bytes owed uncovered. -/
theorem Doomed.perform {kind : FlushKind} {s t : SocketLoop κ} {a : OutputStream.Action κ}
    (h : Tracked s) (hnone : s.shutDown = none) (ht : s.perform kind a = some t)
    (howes : t.out.ds.isOpen = true → s.Owes ∧ flushAhead s.queue = false ∧
      ¬ Flushing t.out.pc ∧ t.Owes) : Doomed t := by
  have hqueue := queue_perform ht
  have htracked := h.perform ht
  obtain ⟨out, hout, rfl⟩ := Option.map_eq_some_iff.mp ht
  refine ⟨htracked, hnone, fun hopen => (howes hopen).2.2.2, fun hopen => (howes hopen).2.2.1,
    fun hopen => ?_⟩
  obtain ⟨⟨hsopen, p, hp, -⟩, hahead, -, -⟩ := howes hopen
  have hqueued : s.queue.contains .shutdown = true :=
    List.contains_iff_mem.mpr (h.awaited hsopen (by rw [hp]; nofun) hnone)
  rw [hqueue, flushAhead_append, hahead, hqueued]
  rfl

/-- A step that changes nothing but the queue and the socket. -/
theorem Doomed.quiet {kind : FlushKind} {s t : SocketLoop κ} {a : OutputStream.Action κ}
    (h : Doomed s) (ht : s.perform kind a = some t) (hpc : t.out.pc = s.out.pc)
    (haccepted : t.out.accepted = s.out.accepted) : Doomed t := by
  refine .perform h.toTracked h.notCalled ht fun hopen => ?_
  obtain ⟨out, hout, rfl⟩ := Option.map_eq_some_iff.mp ht
  have hbefore := (calm_act hout).isOpen hopen
  obtain ⟨-, p, hp, hlt⟩ := h.owes hbefore
  refine ⟨h.owes hbefore, h.notAhead hbefore, ?_, hopen, p, hp, ?_⟩
  · rw [hpc]
    exact h.notFlushing hbefore
  · rw [haccepted]
    exact hlt

/-- Behind a short write the flush only counts what was written, and returns. -/
theorem flushWritten_of_short (ds : DataSocket κ) {sendLen : ℕ} {want : ℤ} (tmpLen : ℕ)
    (hshort : ¬ (sendLen : ℤ) = want) :
    (flushWritten ds sendLen want tmpLen).accepted = [] ∧
      ¬ Flushing (flushWritten ds sendLen want tmpLen).pc := by
  have htail : ∀ ds : DataSocket κ, flushTail ds sendLen want =
      ⟨checkWrite { ds with mCanWrite := false }, none, [], [], none⟩ := fun ds => if_neg hshort
  unfold flushWritten
  split
  · rw [htail]
    exact ⟨rfl, id⟩
  · split
    · exact ⟨rfl, hshort⟩
    · rw [htail]
      exact ⟨rfl, id⟩

theorem Doomed.resume {kind : FlushKind} {s t : SocketLoop κ} {r : SysRet} (h : Doomed s)
    (ht : s.act kind (.resume r) = some t) : Doomed t := by
  refine .perform h.toTracked h.notCalled ht fun hopen => ?_
  obtain ⟨out, hout, rfl⟩ := Option.map_eq_some_iff.mp ht
  have hbefore := (calm_act hout).isOpen hopen
  obtain ⟨pc, hpc, rfl⟩ := Option.map_eq_some_iff.mp hout
  by_cases hstale : s.out.stale = true
  · rw [if_pos hstale] at hopen ⊢
    exact ⟨h.owes hbefore, h.notAhead hbefore, h.notFlushing hbefore, h.owes hbefore⟩
  rw [if_neg hstale] at hopen ⊢
  have hnot := h.notFlushing hbefore
  rw [hpc] at hnot
  obtain ⟨-, p, hp, hlt⟩ := h.owes hbefore
  refine ⟨h.owes hbefore, h.notAhead hbefore, ?_⟩
  cases pc with
  | sendProc => exact absurd trivial hnot
  | written sendLen want tmpLen =>
    obtain ⟨haccepted, hnext⟩ := flushWritten_of_short s.out.ds tmpLen hnot
    refine ⟨hnext, hopen, p, hp, ?_⟩
    simpa only [flushStep, OutputStream.after, haccepted, List.append_nil] using hlt
  | completed sendLen want tmpLen =>
    refine ⟨hnot, hopen, p, hp, ?_⟩
    simpa only [flushStep, OutputStream.after, List.append_nil] using hlt

/-- The shutdown itself loses the bytes owed, if it is called on an open socket. -/
theorem Doomed.runShutdown {kind : FlushKind} {s t : SocketLoop κ} {rest : List AfterLoopProc}
    (h : Doomed s) (hcopy : s.mCopyAfterLoopProcs = .shutdown :: rest)
    (ht : { s with
      mCopyAfterLoopProcs := rest
      shutDown := if s.out.ds.isOpen then s.shutDown.or (some s.out.accepted)
        else s.shutDown }.perform kind .procShutdownInLoop = some t) :
    Doomed t ∨ ¬ t.Graceful := by
  cases hopen : s.out.ds.isOpen with
  | true =>
    right
    obtain ⟨-, p, hp, hlt⟩ := h.owes hopen
    obtain ⟨out, -, rfl⟩ := Option.map_eq_some_iff.mp ht
    intro hgraceful
    have hprefix := hgraceful p s.out.accepted hp (by simp only [h.notCalled, hopen]; rfl)
    exact absurd hprefix.length_le (Nat.not_le_of_lt hlt)
  | false =>
    refine .inl (.perform (h.toTracked.recorded hcopy) ?_ ht fun hopen' => ?_)
    · simp only [recorded, hopen, Bool.false_eq_true, if_false]
      exact h.notCalled
    · have hbefore := isOpen_of_perform ht hopen'
      exact absurd (hopen.symm.trans hbefore) (by decide)

/-- What carries a run that meets the condition. -/
structure Kept (s : SocketLoop κ) : Prop where
  covered : Covered s
  defined : s.shutDown = none → s.out.undefined = false

end SocketLoop

end Netxy
