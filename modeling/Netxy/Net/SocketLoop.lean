import Netxy.Lib.Transition
import Netxy.Net.OutputStream

/-!
# A `DataSocket` in its event loop

The output stream of a socket together with the after-loop functors that drive it: flushes
and the shutdown are queued by `pushAfterLoopProc` and run by `processAfterLoopProcs`.
Methods of the socket may be called at any time, as from the callbacks that run in its
flushes; events are handled before the after-loop functors.
-/

namespace Netxy

/-- An output stream with the two lists of after-loop functors, of the second the part still
to be run. The last two fields are a record: the bytes sent before `postShutdown` was first
called, and those the kernel had taken when `procShutdownInLoop` first called `shutdown`. -/
structure SocketLoop (κ : Type*) where
  out : OutputStream κ
  mAfterLoopProcs : List AfterLoopProc
  mCopyAfterLoopProcs : List AfterLoopProc
  promised : Option (List UInt8)
  shutDown : Option (List UInt8)

namespace SocketLoop
open DataSocket

variable {κ : Type*}

/-- A new socket in its loop. -/
def init : SocketLoop κ := ⟨.init, [], [], none, none⟩

/-- What can happen to a socket in its loop. -/
inductive Action (κ : Type*)
  | sendPacketInLoop (packet : List UInt8) (callback : Option κ)
  | canSend
  | procCloseInLoop
  /-- the functor of `postShutdown` -/
  | postShutdown
  /-- `mCopyAfterLoopProcs.swap(mAfterLoopProcs)` -/
  | swapAfterLoopProcs
  /-- `x()` for the next after-loop functor -/
  | runAfterLoopProc
  /-- the next step of the running flush -/
  | resume (r : SysRet)
deriving DecidableEq, Repr

/-- The functors a step of the output stream posts. -/
def posted (kind : FlushKind) (s : OutputStream κ) : OutputStream.Action κ → List AfterLoopProc
  | .sendPacketInLoop packet callback => (s.ds.sendPacketInLoop packet callback).2
  | .flush | .procShutdownInLoop => []
  | .resume r =>
    match s.pc with
    | some pc => if s.stale then [] else (flushStep kind s.ds pc r).posted
    | none => []
  | .canSend => s.ds.canSend.2
  | .procCloseInLoop => s.ds.procCloseInLoop.2

/-- An action of the stream, with the functions it posts. -/
def perform (kind : FlushKind) (s : SocketLoop κ) (a : OutputStream.Action κ) :
    Option (SocketLoop κ) :=
  (s.out.act kind a).map fun out =>
    { s with out := out, mAfterLoopProcs := s.mAfterLoopProcs ++ posted kind s.out a }

/-- All bytes sent so far. -/
def sent (s : SocketLoop κ) : List UInt8 := s.out.enqueued.flatMap Prod.fst

/-- What an action does. -/
def act (kind : FlushKind) (s : SocketLoop κ) : Action κ → Option (SocketLoop κ)
  | .sendPacketInLoop packet callback => s.perform kind (.sendPacketInLoop packet callback)
  | .canSend =>
    if s.mCopyAfterLoopProcs = [] ∧ s.out.pc = none then s.perform kind .canSend else none
  | .procCloseInLoop => s.perform kind .procCloseInLoop
  | .postShutdown =>
    some { s with
      mAfterLoopProcs := s.mAfterLoopProcs ++ s.out.ds.postShutdown.2
      promised := if s.out.ds.isOpen then s.promised.or (some s.sent) else s.promised }
  | .swapAfterLoopProcs =>
    if s.mCopyAfterLoopProcs = [] ∧ s.out.pc = none then
      some { s with mCopyAfterLoopProcs := s.mAfterLoopProcs, mAfterLoopProcs := [] }
    else none
  | .runAfterLoopProc =>
    if s.out.pc = none then
      match s.mCopyAfterLoopProcs with
      | [] => none
      | .flush :: rest => { s with mCopyAfterLoopProcs := rest }.perform kind .flush
      | .shutdown :: rest =>
        { s with
          mCopyAfterLoopProcs := rest
          shutDown := if s.out.ds.isOpen then s.shutDown.or (some s.out.accepted)
            else s.shutDown }.perform kind .procShutdownInLoop
      | .disconnect :: rest => some { s with mCopyAfterLoopProcs := rest }
    else none
  | .resume r => s.perform kind (.resume r)

/-- Undefined behaviour is the end of a run. -/
def step (kind : FlushKind) (s : SocketLoop κ) (a : Action κ) : Option (SocketLoop κ) :=
  if s.out.undefined then none else s.act kind a

/-- A step is an action while everything is defined. -/
theorem step_eq_some {kind : FlushKind} {s t : SocketLoop κ} {a : Action κ} :
    s.step kind a = some t ↔ s.out.undefined = false ∧ s.act kind a = some t := by
  unfold step
  cases s.out.undefined <;> simp

/-- The functors queued, in the order they will run. -/
def queue (s : SocketLoop κ) : List AfterLoopProc := s.mCopyAfterLoopProcs ++ s.mAfterLoopProcs

/-! ## No output is stranded -/

/-- Packets wait for a flush that is queued, for the running flush, or for `EPOLLOUT`. -/
structure Armed (s : SocketLoop κ) : Prop where
  final : s.out.ds.mIsPostFinalClose = true → s.out.ds.isOpen = false
  flush_queued : s.out.ds.mIsPostFlush = true → .flush ∈ s.queue
  epollOut : s.out.ds.isOpen = true → s.shutDown = none → s.out.ds.mCanWrite = false →
    s.out.ds.epollOut = true
  waiting : s.out.ds.isOpen = true → s.shutDown = none → s.out.pc = none →
    s.out.ds.mSendList ≠ [] → s.out.ds.mIsPostFlush = true ∨ s.out.ds.mCanWrite = false

/-- A new socket has nothing to send. -/
theorem armed_init : Armed (init : SocketLoop κ) where
  final h := by cases h
  flush_queued h := by cases h
  epollOut _ _ h := by cases h
  waiting _ _ _ h := absurd rfl h

/-- `runAfterFlush` queues a flush, or needs none. -/
theorem runAfterFlush_cases (ds : DataSocket κ) :
    (ds.runAfterFlush = ({ ds with mIsPostFlush := true }, [.flush])) ∨
      ds.runAfterFlush = (ds, []) ∧
        (ds.mIsPostFlush = true ∨ ds.mSendList = [] ∨ ds.isOpen = false) := by
  unfold runAfterFlush
  split
  · exact .inl rfl
  · rename_i hnot
    refine .inr ⟨rfl, ?_⟩
    by_contra hnone
    simp only [not_or, Bool.not_eq_true, Bool.not_eq_false] at hnone
    exact hnot ⟨by simp [hnone.1], hnone.2.1, hnone.2.2⟩

/-- Behind `runAfterFlush` no packet waits in vain. -/
theorem Armed.runAfterFlush {s t : SocketLoop κ} (ds : DataSocket κ)
    (hds : t.out.ds = ds.runAfterFlush.1)
    (hafter : t.mAfterLoopProcs = s.mAfterLoopProcs ++ ds.runAfterFlush.2)
    (hcopy : t.mCopyAfterLoopProcs = s.mCopyAfterLoopProcs)
    (hfinal : ds.mIsPostFinalClose = true → ds.isOpen = false)
    (hqueued : ds.mIsPostFlush = true → .flush ∈ s.queue)
    (hepoll : ds.isOpen = true → t.shutDown = none → ds.mCanWrite = false → ds.epollOut = true) :
    Armed t := by
  rcases runAfterFlush_cases ds with hrun | ⟨hrun, hneedless⟩ <;> rw [hrun] at hds hafter
  · refine ⟨by rw [hds]; exact hfinal, fun _ => ?_, by rw [hds]; exact hepoll,
      fun _ _ _ _ => .inl (by rw [hds])⟩
    rw [queue, hafter]
    simp
  · -- nothing was posted: a flush is queued already, or there is nothing to send
    refine ⟨by rw [hds]; exact hfinal, fun hpost => ?_, by rw [hds]; exact hepoll,
      fun hopen _ _ hlist => ?_⟩
    · rw [hds] at hpost
      rw [queue, hafter, hcopy, List.append_nil]
      exact hqueued hpost
    · rw [hds] at hopen hlist ⊢
      rcases hneedless with hpost | hnil | hclosed
      · exact .inl hpost
      · exact absurd hnil hlist
      · rw [hclosed] at hopen
        cases hopen

/-- A socket that is closed owes nothing. -/
theorem Armed.of_closed {s : SocketLoop κ} (hopen : s.out.ds.isOpen = false)
    (hqueued : s.out.ds.mIsPostFlush = true → .flush ∈ s.queue) : Armed s where
  final _ := hopen
  flush_queued := hqueued
  epollOut h := by rw [hopen] at h; cases h
  waiting h := by rw [hopen] at h; cases h

/-- There is something to offer unless the list is empty. -/
theorem quickOffer_eq_none {sendList : List (PendingPacket κ)} (h : quickOffer sendList = none) :
    sendList = [] := by
  cases sendList with
  | nil => rfl
  | cons b rest => exact absurd h (by simp [quickOffer, maxIovec])

/-- How a step of `quickFlush` leaves the socket. -/
inductive FlushOutcome (ds : DataSocket κ) : FlushStep κ → Prop
  /-- the flush goes on, or has sent everything -/
  | progress (sendList : List (PendingPacket κ)) (pc : Option FlushPc) (accepted : List UInt8)
    (fired : Option κ) (h : pc ≠ none ∨ sendList = []) :
    FlushOutcome ds ⟨{ ds with mSendList := sendList }, pc, [], accepted, fired⟩
  /-- it waits for `EPOLLOUT` -/
  | blocked (sendList : List (PendingPacket κ)) :
    FlushOutcome ds
      ⟨checkWrite { ds with mSendList := sendList, mCanWrite := false }, none, [], [], none⟩
  | closed : FlushOutcome ds ⟨ds.procCloseInLoop.1, none, ds.procCloseInLoop.2, [], none⟩

/-- Behind the loop the rest is waited for. -/
theorem flushTail_outcome (ds : DataSocket κ) (sendList : List (PendingPacket κ)) (sendLen : ℕ)
    (want : ℤ) : FlushOutcome ds (flushTail { ds with mSendList := sendList } sendLen want) := by
  unfold flushTail
  split
  · refine .progress sendList _ [] none ?_
    by_cases hnil : sendList = []
    · exact .inr hnil
    · exact .inl (by simp [hnil])
  · exact .blocked sendList

/-- Each step of `flush` goes on, or ends with the rest waited for. -/
theorem flushStep_outcome (ds : DataSocket κ) (pc : FlushPc) (r : SysRet) :
    FlushOutcome ds (flushStep .quickFlush ds pc r) := by
  cases pc with
  | sendProc =>
    simp only [flushStep, flushSend, offer]
    rcases hoffer : quickOffer ds.mSendList with _ | o
    · exact .progress ds.mSendList none [] none (.inr (quickOffer_eq_none hoffer))
    · dsimp only
      split
      · exact .progress ds.mSendList _ _ none (.inl (Option.some_ne_none _))
      · split
        · exact .blocked ds.mSendList
        · exact .closed
  | written sendLen want tmpLen =>
    simp only [flushStep, flushWritten]
    split
    · exact flushTail_outcome ds ds.mSendList sendLen want
    · split
      · exact .progress ds.mSendList _ [] _ (.inl (Option.some_ne_none _))
      · exact flushTail_outcome ds _ sendLen want
  | completed sendLen want tmpLen => exact .progress ds.mSendList.tail _ [] none (.inl (Option.some_ne_none _))

/-- What is in the queue stays there when something is posted. -/
theorem mem_queue_append {s : SocketLoop κ} {proc : AfterLoopProc} (h : proc ∈ s.queue)
    (out : OutputStream κ) (posted : List AfterLoopProc) :
    proc ∈ ({ s with out := out, mAfterLoopProcs := s.mAfterLoopProcs ++ posted } :
      SocketLoop κ).queue := by
  simp only [queue, ← List.append_assoc]
  exact List.mem_append_left _ h

/-- Closing the socket. -/
theorem Armed.closed {s : SocketLoop κ} (h : Armed s) {out : OutputStream κ}
    (hds : out.ds = s.out.ds.procCloseInLoop.1) (posted : List AfterLoopProc) :
    Armed { s with out := out, mAfterLoopProcs := s.mAfterLoopProcs ++ posted } := by
  refine .of_closed ?_ fun hpost => mem_queue_append (h.flush_queued ?_) out posted
  · rw [hds]
    exact isOpen_procCloseInLoop h.final
  · rw [hds, procCloseInLoop_mIsPostFlush] at hpost
    exact hpost

/-- A step of `flush`, with what it posts. -/
theorem Armed.resume {s : SocketLoop κ} (h : Armed s) {fs : FlushStep κ} (hfs : FlushOutcome s.out.ds fs) :
    Armed { s with
      out := s.out.after fs
      mAfterLoopProcs := s.mAfterLoopProcs ++ fs.posted } := by
  cases hfs with
  | progress sendList pc accepted fired hgo =>
    refine ⟨h.final, fun hpost => mem_queue_append (h.flush_queued hpost) _ _, h.epollOut,
      fun _ _ hpc hlist => ?_⟩
    rcases hgo with hgo | hnil
    · exact absurd hpc hgo
    · exact absurd hnil hlist
  | blocked sendList =>
    -- a short write on an open socket registers it for `EPOLLOUT`
    by_cases hopen : s.out.ds.isOpen = true
    · have hds : checkWrite { s.out.ds with mSendList := sendList, mCanWrite := false } =
          { s.out.ds with mSendList := sendList, mCanWrite := false, epollOut := true } :=
        if_pos hopen
      rw [hds]
      exact ⟨h.final, fun hpost => mem_queue_append (h.flush_queued hpost) _ _, fun _ _ _ => rfl,
        fun _ _ _ _ => .inr rfl⟩
    · have hds : checkWrite { s.out.ds with mSendList := sendList, mCanWrite := false } =
          { s.out.ds with mSendList := sendList, mCanWrite := false } := if_neg hopen
      rw [hds]
      exact .of_closed (Bool.eq_false_iff.mpr hopen) fun hpost =>
        mem_queue_append (h.flush_queued hpost) _ _
  | closed => exact h.closed rfl _

/-- A functor other than a flush leaves the queue. -/
theorem flush_mem_of_run {s : SocketLoop κ} {proc : AfterLoopProc} {rest : List AfterLoopProc}
    (hcopy : s.mCopyAfterLoopProcs = proc :: rest) (hproc : proc ≠ .flush)
    (h : .flush ∈ s.queue) : .flush ∈ rest ++ s.mAfterLoopProcs := by
  rw [queue, hcopy, List.cons_append, List.mem_cons] at h
  exact h.resolve_left fun heq => hproc heq.symm

/-- Whether a flush is posted does not depend on what `epoll` is asked for. -/
theorem removeCheckWrite_same (ds : DataSocket κ) :
    ds.removeCheckWrite.mIsPostFinalClose = ds.mIsPostFinalClose ∧
      ds.removeCheckWrite.isOpen = ds.isOpen ∧
      ds.removeCheckWrite.mIsPostFlush = ds.mIsPostFlush := by
  unfold removeCheckWrite
  split <;> exact ⟨rfl, rfl, rfl⟩

theorem procShutdownInLoop_same (ds : DataSocket κ) :
    ds.procShutdownInLoop.mIsPostFinalClose = ds.mIsPostFinalClose ∧
      ds.procShutdownInLoop.isOpen = ds.isOpen ∧
      ds.procShutdownInLoop.mIsPostFlush = ds.mIsPostFlush := by
  unfold procShutdownInLoop
  split <;> exact ⟨rfl, rfl, rfl⟩

/-- The socket becomes writable: what was waited for is posted. -/
theorem Armed.canSend {s t : SocketLoop κ} (h : Armed s)
    (ht : s.act .quickFlush .canSend = some t) : Armed t := by
  obtain ⟨-, ht⟩ := Option.ite_none_right_eq_some.mp ht
  cases ht
  obtain ⟨hfinal, hopen, hpost⟩ := removeCheckWrite_same s.out.ds
  refine .runAfterFlush (s := s) { s.out.ds.removeCheckWrite with mCanWrite := true }
    rfl rfl rfl ?_ ?_ ?_
  · rw [hfinal, hopen]
    exact h.final
  · rw [hpost]
    exact h.flush_queued
  · intro _ _ hblocked
    cases hblocked

/-- A flush runs, or the socket is waiting for `EPOLLOUT`. -/
theorem Armed.runFlush {s t : SocketLoop κ} (h : Armed s) {rest : List AfterLoopProc}
    (hpc : s.out.pc = none)
    (ht : { s with mCopyAfterLoopProcs := rest }.perform .quickFlush .flush = some t) :
    Armed t := by
  simp only [perform, OutputStream.act, hpc, Option.map_some, Option.some.injEq] at ht
  cases ht
  refine ⟨h.final, fun hpost => ?_, h.epollOut, fun hopen _ hnone _ => ?_⟩
  · cases hpost
  · simp only [DataSocket.flush] at hnone
    split at hnone
    · cases hnone
    · rename_i hclosed
      exact .inr (Bool.eq_false_iff.mpr fun hwrite => hclosed ⟨hwrite, hopen⟩)

/-- An open socket that is shut down waits for nothing more. -/
theorem Armed.runShutdown {s t : SocketLoop κ} (h : Armed s) {rest : List AfterLoopProc}
    (hcopy : s.mCopyAfterLoopProcs = .shutdown :: rest)
    (ht : { s with
      mCopyAfterLoopProcs := rest
      shutDown := if s.out.ds.isOpen then s.shutDown.or (some s.out.accepted)
        else s.shutDown }.perform .quickFlush .procShutdownInLoop = some t) : Armed t := by
  cases ht
  obtain ⟨hfinal, hopen, hpost⟩ := procShutdownInLoop_same s.out.ds
  have hcalled : s.out.ds.procShutdownInLoop.isOpen = true →
      (if s.out.ds.isOpen then s.shutDown.or (some s.out.accepted) else s.shutDown) ≠ none := by
    intro hisOpen
    rw [if_pos (hopen.symm.trans hisOpen)]
    cases s.shutDown <;> exact Option.some_ne_none _
  refine ⟨?_, fun hflush => ?_, fun hisOpen hnone => absurd hnone (hcalled hisOpen),
    fun hisOpen hnone => absurd hnone (hcalled hisOpen)⟩
  · show s.out.ds.procShutdownInLoop.mIsPostFinalClose = true →
      s.out.ds.procShutdownInLoop.isOpen = false
    rw [hfinal, hopen]
    exact h.final
  · have hqueued := h.flush_queued (hpost.symm.trans hflush)
    simpa only [queue, posted, List.append_nil] using flush_mem_of_run hcopy (by decide) hqueued

/-- Every action leaves the rest waited for. -/
theorem armed_act {s t : SocketLoop κ} {a : Action κ} (h : Armed s)
    (ht : s.act .quickFlush a = some t) : Armed t := by
  cases a with
  | sendPacketInLoop packet callback =>
    cases ht
    exact .runAfterFlush (s := s) _ rfl rfl rfl h.final h.flush_queued h.epollOut
  | canSend => exact h.canSend ht
  | procCloseInLoop =>
    cases ht
    exact h.closed rfl _
  | postShutdown =>
    cases ht
    exact ⟨h.final, fun hpost => mem_queue_append (h.flush_queued hpost) s.out _, h.epollOut,
      h.waiting⟩
  | swapAfterLoopProcs =>
    obtain ⟨⟨hcopy, -⟩, ht⟩ := Option.ite_none_right_eq_some.mp ht
    cases ht
    refine ⟨h.final, fun hpost => ?_, h.epollOut, h.waiting⟩
    have hqueued := h.flush_queued hpost
    rw [queue, hcopy] at hqueued
    simpa only [queue, List.append_nil, List.nil_append] using hqueued
  | runAfterLoopProc =>
    obtain ⟨hpc, ht⟩ := Option.ite_none_right_eq_some.mp ht
    split at ht
    · cases ht
    · exact h.runFlush hpc ht
    · rename_i rest hcopy
      exact h.runShutdown hcopy ht
    · rename_i rest hcopy
      cases ht
      have hqueued : s.out.ds.mIsPostFlush = true → .flush ∈ rest ++ s.mAfterLoopProcs :=
        fun hpost => flush_mem_of_run hcopy (by decide) (h.flush_queued hpost)
      exact ⟨h.final, hqueued, h.epollOut, h.waiting⟩
  | resume r =>
    obtain ⟨out, hout, rfl⟩ := Option.map_eq_some_iff.mp ht
    obtain ⟨pc, hpc, rfl⟩ := Option.map_eq_some_iff.mp hout
    simp only [posted, hpc]
    split
    · simp only [List.append_nil]
      exact ⟨h.final, h.flush_queued, h.epollOut, fun _ _ hnone => by cases hnone⟩
    · exact h.resume (flushStep_outcome s.out.ds pc r)

/-! ## The iterator of a flush -/

/-- Before the action, `push_back` has not made the iterator invalid that it will use. -/
def IteratorValid (s : SocketLoop κ) : Action κ → Prop
  | .resume _ => s.out.stale = false
  | _ => True

/-- The stream stays defined as long as the iterator it uses is valid. -/
theorem perform_undefined {kind : FlushKind} {s t : SocketLoop κ} {a : OutputStream.Action κ}
    (ht : s.perform kind a = some t) (hs : s.out.undefined = false) :
    t.out.undefined = false ↔ s.out.IteratorValid a := by
  obtain ⟨out, hout, rfl⟩ := Option.map_eq_some_iff.mp ht
  exact OutputStream.undefined_act hs hout

/-- The same for the socket in its loop. -/
theorem undefined_act {kind : FlushKind} {s t : SocketLoop κ} {a : Action κ}
    (hs : s.out.undefined = false) (ht : s.act kind a = some t) :
    t.out.undefined = false ↔ s.IteratorValid a := by
  cases a with
  | sendPacketInLoop packet callback | procCloseInLoop | resume r =>
    exact perform_undefined ht hs
  | canSend => exact perform_undefined (Option.ite_none_right_eq_some.mp ht).2 hs
  | postShutdown =>
    cases ht
    exact iff_of_true hs trivial
  | swapAfterLoopProcs =>
    obtain ⟨-, ht⟩ := Option.ite_none_right_eq_some.mp ht
    cases ht
    exact iff_of_true hs trivial
  | runAfterLoopProc =>
    obtain ⟨-, ht⟩ := Option.ite_none_right_eq_some.mp ht
    refine iff_of_true ?_ trivial
    split at ht
    · cases ht
    · exact (perform_undefined ht hs).mpr trivial
    · exact (perform_undefined ht hs).mpr trivial
    · cases ht
      exact hs

/-- A stale iterator stays stale. -/
theorem staleHeld_perform {kind : FlushKind} {s t : SocketLoop κ} {a : OutputStream.Action κ}
    (ht : s.perform kind a = some t) (hs : s.out.StaleHeld) : t.out.StaleHeld := by
  obtain ⟨out, hout, rfl⟩ := Option.map_eq_some_iff.mp ht
  exact OutputStream.staleHeld_act hs hout

theorem staleHeld_act {kind : FlushKind} {s t : SocketLoop κ} {a : Action κ}
    (hs : s.out.StaleHeld) (ht : s.act kind a = some t) : t.out.StaleHeld := by
  cases a with
  | sendPacketInLoop packet callback | procCloseInLoop | resume r =>
    exact staleHeld_perform ht hs
  | canSend => exact staleHeld_perform (Option.ite_none_right_eq_some.mp ht).2 hs
  | postShutdown =>
    cases ht
    exact hs
  | swapAfterLoopProcs =>
    obtain ⟨-, ht⟩ := Option.ite_none_right_eq_some.mp ht
    cases ht
    exact hs
  | runAfterLoopProc =>
    obtain ⟨-, ht⟩ := Option.ite_none_right_eq_some.mp ht
    split at ht
    · cases ht
    · exact staleHeld_perform ht hs
    · exact staleHeld_perform ht hs
    · cases ht
      exact hs

/-- A flush that goes on with an invalid iterator comes to undefined behaviour. -/
theorem exists_undefined {kind : FlushKind} {s : SocketLoop κ} {a : Action κ}
    (hdefined : s.out.undefined = false) (hs : s.out.StaleHeld) (hinvalid : ¬ s.IteratorValid a) :
    ∃ t, s.step kind a = some t ∧ t.out.undefined = true := by
  cases a with
  | resume r =>
    have hstale : s.out.stale = true := Bool.eq_true_of_not_eq_false hinvalid
    refine ⟨{ s with
      out := { s.out with undefined := true }
      mAfterLoopProcs := s.mAfterLoopProcs ++ posted kind s.out (.resume r) },
      step_eq_some.mpr ⟨hdefined, ?_⟩, rfl⟩
    show s.perform kind (.resume r) = _
    rw [perform, hs.act_resume hstale kind r]
    rfl
  | sendPacketInLoop | canSend | procCloseInLoop | postShutdown | swapAfterLoopProcs
  | runAfterLoopProc => exact absurd trivial hinvalid

/-! ## Every state of a run -/

/-- Wherever no functor is being run, an open socket that was not shut down and has something
to send has a flush queued, or waits for `EPOLLOUT`. -/
structure NotStranded (s : SocketLoop κ) : Prop where
  defined : s.out.undefined = false
  awaited : s.out.pc = none → s.out.ds.isOpen = true → s.shutDown = none →
    (∃ b ∈ s.out.ds.mSendList, 0 < b.left) →
      (.flush ∈ s.queue ∧ s.out.ds.mIsPostFlush = true) ∨
        (s.out.ds.mCanWrite = false ∧ s.out.ds.epollOut = true)

/-- Outside of `flush`, what is unsent is waited for. -/
theorem Armed.awaited {s : SocketLoop κ} (h : Armed s) (hpc : s.out.pc = none)
    (hopen : s.out.ds.isOpen = true) (hshutDown : s.shutDown = none)
    (hunsent : ∃ b ∈ s.out.ds.mSendList, 0 < b.left) :
    (.flush ∈ s.queue ∧ s.out.ds.mIsPostFlush = true) ∨
      (s.out.ds.mCanWrite = false ∧ s.out.ds.epollOut = true) := by
  obtain ⟨b, hb, -⟩ := hunsent
  rcases h.waiting hopen hshutDown hpc (List.ne_nil_of_mem hb) with hpost | hblocked
  · exact .inl ⟨h.flush_queued hpost, hpost⟩
  · exact .inr ⟨hblocked, h.epollOut hopen hshutDown hblocked⟩

/-- What carries a socket in its loop through a run. -/
structure Inv (s : SocketLoop κ) : Prop where
  armed : Armed s
  staleHeld : s.out.StaleHeld
  defined : s.out.undefined = false

/-- A new socket in its loop. -/
theorem inv_init : Inv (init : SocketLoop κ) := ⟨armed_init, nofun, rfl⟩

/-- **No output is stranded** in any state of a run, exactly if no flush goes on after a packet
was enqueued while it held its iterator. -/
theorem no_stranded_output_iff (actions : List (Action κ)) :
    Transition.Always (step .quickFlush) NotStranded init actions ↔
      Transition.Throughout (step .quickFlush) IteratorValid init actions := by
  refine Transition.always_iff_throughout (I := Inv) (W := fun _ _ => True)
    (fun s hs => ⟨hs.defined, hs.armed.awaited⟩) ?_ ?_ inv_init
    (Transition.throughout_of_forall (fun _ _ => trivial) _ _)
  · intro s a t hs _ hvalid ht
    obtain ⟨hdefined, hact⟩ := step_eq_some.mp ht
    exact ⟨armed_act hs.armed hact, staleHeld_act hs.staleHeld hact,
      (undefined_act hdefined hact).mpr hvalid⟩
  · intro s a hs _ hinvalid
    obtain ⟨t, ht, hundefined⟩ := exists_undefined hs.defined hs.staleHeld hinvalid
    refine ⟨t, ht, fun h => ?_⟩
    rw [h.defined] at hundefined
    cases hundefined

/-- The callback of a packet of one byte sends another one. -/
def sendInCallback : List (Action ℕ) :=
  [.sendPacketInLoop [1] (some 0), .swapAfterLoopProcs, .runAfterLoopProc, .resume ⟨1, .other⟩,
    .resume ⟨0, .other⟩, .sendPacketInLoop [2] none, .resume ⟨0, .other⟩]

/-- The flush erases the first packet through an iterator that is no longer valid. -/
theorem not_no_stranded_output :
    ¬ ∀ (actions : List (Action ℕ)) (t : SocketLoop ℕ),
      Transition.exec (step .quickFlush) init actions = some t → NotStranded t := by
  intro h
  have hstranded := h sendInCallback _ rfl
  exact absurd hstranded.defined (by decide)

end SocketLoop

end Netxy
