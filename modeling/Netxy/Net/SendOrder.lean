import Netxy.Net.Isolation

/-!
# Packets arrive once and in order

A packet reaches `mSendList` in one of three ways: sent by the loop's own thread, through a
queued functor, or through a list that the logic thread caches and flushes. For each thread
and each id, what the session has received, then what waits in the loop's queues, then what
a flush has still to hand over are together just what the thread has submitted. A step moves
packets from one part to the part before it, or adds what it submits at the end.
-/

namespace Netxy

/-! ## Packets of one thread -/

/-- A packet with its completion callback. -/
abbrev Packet (κ : Type*) := List UInt8 × Option κ

variable {κ : Type*}

/-- The packet that a call gives a session, with the thread that submits it. -/
def Call.sent (c : Call κ) : List (Thread × Packet κ) :=
  match c.op with
  | .send packet callback => [(c.thread, packet, callback)]
  | _ => []

/-- The packets of thread `t` among those received. -/
def ofThread (t : Thread) (received : List (Thread × Packet κ)) : List (Packet κ) :=
  (received.filter (·.1 = t)).map Prod.snd

/-- The packet that a call of thread `t` sends to `X`. -/
def Call.packets (t : Thread) (X : SessionType) (c : Call κ) : List (Packet κ) :=
  if c.id = X then ofThread t c.sent else []

/-- The packets of thread `t` for `X` in a list that thread `thread` flushes. -/
def msgPackets (thread t : Thread) (X : SessionType) (msgList : List (Msg κ)) : List (Packet κ) :=
  msgList.flatMap fun m => Call.packets t X ⟨thread, m.id, .send m.packet m.callback⟩

/-- The packets of thread `t` for `X` that a functor sends. -/
def AsyncProc.packets (t : Thread) (X : SessionType) : AsyncProc κ → List (Packet κ)
  | .enter _ => []
  | .session c => c.packets t X
  | .flushCache thread msgList => msgPackets thread t X msgList

/-- Only a send gives a packet. -/
theorem Call.op_of_sent (c : Call κ) (h : c.sent ≠ []) :
    ∃ packet callback, c.op = .send packet callback := by
  unfold Call.sent at h
  split at h
  · rename_i packet callback hop
    exact ⟨packet, callback, hop⟩
  · exact absurd rfl h

theorem ofThread_append (t : Thread) (xs ys : List (Thread × Packet κ)) :
    ofThread t (xs ++ ys) = ofThread t xs ++ ofThread t ys := by
  simp only [ofThread, List.filter_append, List.map_append]

theorem Call.packets_of_ne {t : Thread} {X : SessionType} {c : Call κ} (h : c.thread ≠ t) :
    c.packets t X = [] := by
  unfold Call.packets Call.sent
  split
  · split
    · rw [ofThread, List.filter_cons_of_neg (by simpa using h)]
      rfl
    · rfl
  · rfl

theorem Call.packets_of_id_ne {t : Thread} {X : SessionType} {c : Call κ} (h : c.id ≠ X) :
    c.packets t X = [] := if_neg h

theorem msgPackets_of_ne {thread t : Thread} {X : SessionType} (h : thread ≠ t)
    (msgList : List (Msg κ)) : msgPackets thread t X msgList = [] := by
  refine List.flatMap_eq_nil_iff.mpr fun m _ => ?_
  exact Call.packets_of_ne h

/-! ## Receiving -/

/-- What the session is given: no packet, or one that comes whole behind the others. -/
inductive Gives (x x' : Session κ) : List (Thread × Packet κ) → Prop
  | none (hreceived : x'.received = x.received)
    (hsend : x'.ds.mSendList.map OutputStream.entry <:+ x.ds.mSendList.map OutputStream.entry) :
    Gives x x' []
  | packet (thread : Thread) (packet : List UInt8) (callback : Option κ)
    (hreceived : x'.received = x.received ++ [(thread, packet, callback)])
    (hsend : x'.ds.mSendList = x.ds.mSendList ++ [⟨packet, packet.length, callback⟩]) :
    Gives x x' [(thread, packet, callback)]

theorem Gives.received {x x' : Session κ} {given : List (Thread × Packet κ)}
    (h : Gives x x' given) : x'.received = x.received ++ given := by
  cases h with
  | none hreceived hsend => rw [hreceived, List.append_nil]
  | packet thread packet callback hreceived hsend => exact hreceived

namespace LoopState
open OutputStream

variable {i : ℕ} {l l' : LoopState κ} {p q : ℕ}

theorem KeepsSends.gives (h : KeepsSends l l') (q : ℕ) :
    Gives (l.sessions q) (l'.sessions q) [] := .none (h.received q) (h.sendList q)

theorem keepsSends_perform (l : LoopState κ) (p : ℕ) {c : Call κ} (h : c.sent = []) :
    KeepsSends l (l.perform p c.thread c.op) := by
  obtain ⟨thread, id, op⟩ := c
  cases op with
  | send packet callback => cases h
  | shutdown =>
    exact (keeps_onSocket (f := DataSocket.postShutdown) (.same rfl rfl)).toKeepsSends
  | disConnect => exact (keeps_onSocket (DataSocket.drops_procCloseInLoop _)).toKeepsSends
  | setPingCheckTime checktime => exact (keeps_setCheckTime l p checktime).toKeepsSends

theorem gives_sendPacketInLoop (l : LoopState κ) (p : ℕ) (thread : Thread) (packet : List UInt8)
    (callback : Option κ) :
    Gives (l.sessions p) ((l.sendPacketInLoop p thread packet callback).sessions p)
      [(thread, packet, callback)] := by
  have hds := sendPacketInLoop_mSendList (l.sessions p).ds packet callback
  refine .packet thread packet callback ?_ ?_
  · simp only [sendPacketInLoop, onSocket, setDs, receive, pushAfterLoopProc_sessions,
      setSession_sessions_self]
  · simp only [sendPacketInLoop, onSocket, setDs, receive, pushAfterLoopProc_sessions,
      setSession_sessions_self]
    exact hds

theorem sendPacketInLoop_of_ne (l : LoopState κ) (hq : q ≠ p) (thread : Thread)
    (packet : List UInt8) (callback : Option κ) :
    (l.sendPacketInLoop p thread packet callback).sessions q = l.sessions q := by
  rw [sendPacketInLoop, onSocket, pushAfterLoopProc_sessions, setDs, setSession_sessions_of_ne hq,
    receive, setSession_sessions_of_ne hq]

/-- A call gives its packet to the socket it finds. -/
theorem gives_execute (l : LoopState κ) (c : Call κ) (q : ℕ) :
    Gives (l.sessions q) ((l.execute c).sessions q)
      (if l.find c.id = some q then c.sent else []) := by
  unfold execute
  cases hfind : l.find c.id with
  | none => exact (Keeps.refl l).toKeepsSends.gives q
  | some p =>
    -- no call but `send` gives the socket a packet
    by_cases hsent : c.sent = []
    · rw [hsent, ite_self]
      exact (keepsSends_perform l p hsent).gives q
    · obtain ⟨packet, callback, hop⟩ := c.op_of_sent hsent
      dsimp only
      rw [hop, perform]
      by_cases hq : q = p
      · rw [hq, if_pos rfl, Call.sent, hop]
        exact gives_sendPacketInLoop l p c.thread packet callback
      · rw [if_neg (by simpa using Ne.symm hq), sendPacketInLoop_of_ne l hq]
        exact (Keeps.refl l).toKeepsSends.gives q

theorem keepsQueues_execute (l : LoopState κ) (c : Call κ) : KeepsQueues l (l.execute c) := by
  unfold execute
  split
  · rename_i p hfind
    by_cases hsent : c.sent = []
    · exact (keepsSends_perform l p hsent).toKeepsQueues
    · obtain ⟨packet, callback, hop⟩ := c.op_of_sent hsent
      rw [hop]
      exact ⟨rfl, rfl, .inl⟩
  · exact (Keeps.refl l).toKeepsQueues

/-! ## The queues of a loop -/

/-- The functor may wait in the queue of loop `i`: its calls name the loop, and the loop's own
thread, which executes calls at once, has not pushed it. -/
def ForLoop (i : ℕ) : AsyncProc κ → Prop
  | .enter _ => True
  | .session c => c.thread ≠ i ∧ c.loopIndex = i
  | .flushCache thread msgList =>
    thread ≠ i ∧ ∀ m ∈ msgList, (SessionId.ofId m.id).loopIndex.toNat = i

/-- What holds of the queues of loop `i`. -/
structure QueueOk (i : ℕ) (l : LoopState κ) : Prop where
  forLoop : ∀ f ∈ l.mCopyAsyncProcs ++ l.mAsyncProcs, ForLoop i f
  copyAsync : l.phase ≠ .asyncProcs → l.mCopyAsyncProcs = []

theorem queueOk_init (i : ℕ) : QueueOk i (init : LoopState κ) where
  forLoop _ h := absurd h List.not_mem_nil
  copyAsync _ := rfl

theorem QueueOk.keeps (h : QueueOk i l) (hkeeps : KeepsQueues l l') : QueueOk i l' where
  forLoop := by
    rw [hkeeps.mAsyncProcs, hkeeps.mCopyAsyncProcs]
    exact h.forLoop
  copyAsync hphase := by
    rw [hkeeps.mCopyAsyncProcs]
    exact (hkeeps.outside hphase).elim h.copyAsync id

theorem QueueOk.push (h : QueueOk i l) {f : AsyncProc κ} (hf : ForLoop i f) :
    QueueOk i (l.push f) where
  forLoop g hg := by
    rw [LoopState.push, ← List.append_assoc, List.mem_append, List.mem_singleton] at hg
    rcases hg with hg | rfl
    · exact h.forLoop g hg
    · exact hf
  copyAsync := h.copyAsync

/-- A functor is done, or has a message less to send. -/
theorem QueueOk.pop (h : QueueOk i l) (hphase : l.phase = .asyncProcs)
    {procs : List (AsyncProc κ)} (hprocs : ∀ f ∈ procs, ForLoop i f) :
    QueueOk i { l with mCopyAsyncProcs := procs } where
  forLoop f hf := (List.mem_append.mp hf).elim (hprocs f) fun hf =>
    h.forLoop f (List.mem_append_right _ hf)
  copyAsync hne := absurd hphase hne

theorem QueueOk.runAsync (h : QueueOk i l) {linkOk : Bool} {call : Option (Call κ)}
    (hrun : l.runAsync i linkOk = some (l', call)) :
    QueueOk i l' ∧ ∀ c, call = some c → c.loopIndex = i := by
  obtain ⟨hphase, hcases⟩ := runAsync_cases hrun
  have hcopy : ∀ f ∈ l.mCopyAsyncProcs, ForLoop i f :=
    fun f hf => h.forLoop f (List.mem_append_left _ hf)
  cases hcases with
  | enter p rest l' heq henter =>
    rw [heq] at hcopy
    have hpop := h.pop hphase fun f hf => hcopy f (List.mem_cons_of_mem _ hf)
    exact ⟨hpop.keeps (keepsSends_enter henter).toKeepsQueues, fun c hc => by cases hc⟩
  | session c rest heq =>
    rw [heq] at hcopy
    refine ⟨h.pop hphase fun f hf => hcopy f (List.mem_cons_of_mem _ hf), fun d hd => ?_⟩
    cases hd
    exact (hcopy _ List.mem_cons_self).2
  | flushed thread rest heq =>
    rw [heq] at hcopy
    exact ⟨h.pop hphase fun f hf => hcopy f (List.mem_cons_of_mem _ hf), fun c hc => by cases hc⟩
  | message thread m msgList rest heq =>
    rw [heq] at hcopy
    obtain ⟨hthread, hmsgs⟩ := hcopy _ List.mem_cons_self
    refine ⟨h.pop hphase fun f hf => ?_, fun d hd => ?_⟩
    · -- what remains of the list still is for this loop
      rcases List.mem_cons.mp hf with rfl | hf
      · exact ⟨hthread, fun m hm => hmsgs m (List.mem_cons_of_mem _ hm)⟩
      · exact hcopy f (List.mem_cons_of_mem _ hf)
    · cases hd
      exact hmsgs m List.mem_cons_self

/-! ## A live session is found by its id -/

/-- The sessions of the loop and its table, on their own. -/
def toLoopSessions (l : LoopState κ) : LoopSessions ℕ :=
  ⟨l.table, fun p => (l.sessions p).ds.mUserData, l.live⟩

/-- The table serves the sessions of the loop, and `live` lists them. -/
structure Served (l : LoopState κ) : Prop where
  inv : l.toLoopSessions.Inv
  mem_live : ∀ p, p ∈ l.live ↔ (l.sessions p).status = .live

theorem served_init : Served (init : LoopState κ) where
  inv := LoopSessions.inv_init
  mem_live p := ⟨fun h => absurd h List.not_mem_nil, fun h => by cases h⟩

theorem Served.find (h : Served l) (hp : (l.sessions p).status = .live) :
    l.find (l.sessions p).ds.mUserData = some p := by
  have hheld : l.table.mDataSockets.get
      (SessionId.ofId (l.sessions p).ds.mUserData).index.toNat = some p :=
    h.inv.serves.held p ((h.mem_live p).mpr hp)
  simp only [LoopState.find, hheld, if_true]

theorem Served.keeps (h : Served l) (hkeeps : KeepsIds l l') : Served l' where
  inv := by
    have hsame : l'.toLoopSessions = l.toLoopSessions := by
      rw [toLoopSessions, toLoopSessions, hkeeps.table, hkeeps.live, funext hkeeps.mUserData]
    rw [hsame]
    exact h.inv
  mem_live q := by
    rw [hkeeps.live, hkeeps.isLive]
    exact h.mem_live q

theorem Served.fresh_not_mem (h : Served l) (hstep : Enters i l l' p) : p ∉ l.live := by
  intro hmem
  have hlive := (h.mem_live p).mp hmem
  rcases hstep.fresh with hp | hp <;> simp [hlive] at hp

/-- An enter of the service is one of `LoopSessions`. -/
theorem Enters.step {i : Fin (2 ^ 16)} (hstep : Enters i l l' p) (hp : p ∉ l.live) :
    LoopSessions.step i l.toLoopSessions (.enter p) = some l'.toLoopSessions := by
  obtain ⟨slot, ids, hclaim, htable, huser⟩ := hstep.claim
  obtain ⟨slot', ids', hclaim', henter⟩ := l.table.enter_eq i p
  rw [hclaim, Option.some.injEq, Prod.mk.injEq] at hclaim'
  obtain ⟨rfl, rfl⟩ := hclaim'
  have huserData : Function.update (fun q => (l.sessions q).ds.mUserData) p
      (SessionId.mk (BitVec.ofNat 16 i) (BitVec.ofNat 16 slot) l.table.mIncId).id =
        fun q => (l'.sessions q).ds.mUserData := by
    funext q
    by_cases hq : q = p
    · rw [hq, Function.update_self, huser]
    · rw [Function.update_of_ne hq, hstep.others q hq]
  simp only [LoopSessions.step, toLoopSessions, if_neg hp, henter, Option.bind_eq_bind,
    Option.bind_some, Option.pure_def, huserData, htable, hstep.live]

/-- A disconnect is a close. -/
theorem Leaves.step {i : Fin (2 ^ 16)} (hstep : Leaves i l l' p) (hp : p ∈ l.live)
    (hloop : (SessionId.ofId (l.sessions p).ds.mUserData).loopIndex.toNat = i) :
    LoopSessions.step i l.toLoopSessions (.close p) = some l'.toLoopSessions := by
  have huserData : (fun q => (l'.sessions q).ds.mUserData) =
      fun q => (l.sessions q).ds.mUserData := by
    funext q
    by_cases hq : q = p
    · rw [hq, hstep.mUserData]
    · rw [hstep.others q hq]
  have htable := hstep.table
  rw [if_pos hloop] at htable
  have hmem : p ∈ l.toLoopSessions.live := hp
  rw [LoopSessions.step, if_pos hmem]
  simp only [toLoopSessions, huserData, htable, hstep.live]

theorem Served.enters {i : Fin (2 ^ 16)} (h : Served l) (hstep : Enters i l l' p)
    (hcap : l'.live.length ≤ 65500) : Served l' where
  inv := by
    refine h.inv.enter (hstep.step (h.fresh_not_mem hstep)) ?_
    rw [hstep.live, List.length_cons] at hcap
    exact hcap
  mem_live q := by
    rw [hstep.live, List.mem_cons]
    by_cases hq : q = p
    · rw [hq, hstep.status]
      exact ⟨fun _ => rfl, fun _ => .inl rfl⟩
    · rw [hstep.others q hq, ← h.mem_live q]
      exact ⟨fun hmem => hmem.resolve_left hq, .inr⟩

theorem Served.leaves {i : Fin (2 ^ 16)} (h : Served l) (hstep : Leaves i l l' p)
    (hloop : (SessionId.ofId (l.sessions p).ds.mUserData).loopIndex.toNat = i) : Served l' where
  inv := h.inv.close (hstep.step ((h.mem_live p).mpr hstep.wasLive) hloop)
  mem_live q := by
    have hnodup : l.live.Nodup := h.inv.nodup
    rw [hstep.live, hnodup.mem_erase_iff]
    by_cases hq : q = p
    · rw [hq, hstep.status]
      exact ⟨fun hmem => absurd rfl hmem.1, fun hlive => by cases hlive⟩
    · rw [hstep.others q hq, ← h.mem_live q]
      exact ⟨And.right, fun hmem => ⟨hq, hmem⟩⟩

/-! ## What a loop owes a session -/

/-- The packets of thread `t` for `X` that wait in the queues. -/
def queued (l : LoopState κ) (t : Thread) (X : SessionType) : List (Packet κ) :=
  (l.mCopyAsyncProcs ++ l.mAsyncProcs).flatMap (·.packets t X)

/-- What socket `p` has received from thread `t`, and behind it what waits for `X`. -/
def owed (l : LoopState κ) (p : ℕ) (t : Thread) (X : SessionType) : List (Packet κ) :=
  ofThread t (l.sessions p).received ++ l.queued t X

section Owed
variable {t : Thread} {X : SessionType}

theorem queued_keeps (h : KeepsQueues l l') : l'.queued t X = l.queued t X := by
  rw [queued, queued, h.mAsyncProcs, h.mCopyAsyncProcs]

theorem owed_keeps (h : KeepsSends l l') : l'.owed p t X = l.owed p t X := by
  rw [owed, owed, queued_keeps h.toKeepsQueues, h.received]

theorem owed_push (f : AsyncProc κ) : (l.push f).owed p t X = l.owed p t X ++ f.packets t X := by
  simp only [owed, queued, LoopState.push, ← List.append_assoc, List.flatMap_append,
    List.flatMap_singleton]

theorem owed_post (l : LoopState κ) (q : ℕ) : (l.post q).owed p t X = l.owed p t X := by
  have hset : KeepsSends l (l.setSession q { l.sessions q with status := .posted }) :=
    keepsSends_setSession (List.suffix_refl _) rfl
  rw [LoopState.post, owed_push, owed_keeps hset]
  exact List.append_nil _

/-- A loop's own thread has nothing waiting in its queues. -/
theorem QueueOk.queued_self (h : QueueOk i l) : l.queued i X = [] := by
  refine List.flatMap_eq_nil_iff.mpr fun f hf => ?_
  have hfor := h.forLoop f hf
  cases f with
  | enter q => rfl
  | session c => exact Call.packets_of_ne hfor.1
  | flushCache thread msgList => exact msgPackets_of_ne hfor.1 msgList

/-- A call gives the session with its id what it sends, and no other session. -/
theorem Served.ofThread_execute (h : Served l) (hp : (l.sessions p).status = .live)
    (hX : (l.sessions p).ds.mUserData = X) (c : Call κ) :
    ofThread t ((l.execute c).sessions p).received =
      ofThread t (l.sessions p).received ++ c.packets t X := by
  rw [(gives_execute l c p).received, ofThread_append, Call.packets]
  by_cases hid : c.id = X
  · rw [hid, ← hX, if_pos (h.find hp), if_pos rfl]
  · rw [if_neg hid, if_neg fun hfind => hid ((find_get hfind).2.symm.trans hX)]
    rfl

/-- A call that the loop's own thread makes. -/
theorem Served.owed_execute (h : Served l) (hqueue : QueueOk i l)
    (hp : (l.sessions p).status = .live) (hX : (l.sessions p).ds.mUserData = X) {c : Call κ}
    (hc : c.thread = i) : (l.execute c).owed p t X = l.owed p t X ++ c.packets t X := by
  rw [owed, queued_keeps (keepsQueues_execute l c), h.ofThread_execute hp hX, owed]
  -- the packet overtakes the queue, which holds nothing of this thread
  by_cases ht : i = t
  · rw [← ht, hqueue.queued_self, List.append_nil, List.append_nil]
  · rw [Call.packets_of_ne (hc.trans_ne ht), List.append_nil, List.append_nil]

/-- What a functor still had to send is what it sends now and what remains. -/
theorem queued_runAsync {linkOk : Bool} {call : Option (Call κ)}
    (h : l.runAsync i linkOk = some (l', call)) :
    l.queued t X = (match call with
      | some c => c.packets t X
      | none => []) ++ l'.queued t X ∧ (∀ q, (l'.sessions q).received = (l.sessions q).received) := by
  cases (runAsync_cases h).2 with
  | enter q rest l' heq henter =>
    have hkeeps := keepsSends_enter henter
    refine ⟨?_, hkeeps.received⟩
    rw [queued_keeps hkeeps.toKeepsQueues, queued, heq]
    rfl
  | session c rest heq =>
    refine ⟨?_, fun _ => rfl⟩
    rw [queued, heq]
    rfl
  | flushed thread rest heq =>
    refine ⟨?_, fun _ => rfl⟩
    rw [queued, heq]
    rfl
  | message thread m msgList rest heq =>
    refine ⟨?_, fun _ => rfl⟩
    simp only [queued, heq, List.cons_append, List.flatMap_cons, AsyncProc.packets, msgPackets,
      List.append_assoc]

/-- A functor runs: what it sends leaves the queue and is received. -/
theorem Served.owed_runAsync (h : Served l) (hp : (l.sessions p).status = .live)
    (hX : (l.sessions p).ds.mUserData = X) {linkOk : Bool} {c : Call κ}
    (hrun : l.runAsync i linkOk = some (l', some c)) :
    (l'.execute c).owed p t X = l.owed p t X := by
  have hqueued := (queued_runAsync (t := t) (X := X) hrun).1
  obtain ⟨procs, rfl⟩ := runAsync_some hrun
  have hpop : Served { l with mCopyAsyncProcs := procs } := h.keeps (keepsIds_popAsync l procs)
  rw [owed, owed, hpop.ofThread_execute hp hX, queued_keeps (keepsQueues_execute _ c), hqueued,
    List.append_assoc]

theorem owed_runAsync_none {linkOk : Bool} (hrun : l.runAsync i linkOk = some (l', none)) :
    l'.owed p t X = l.owed p t X := by
  obtain ⟨hqueued, hreceived⟩ := queued_runAsync (t := t) (X := X) hrun
  rw [owed, owed, hqueued, hreceived, List.nil_append]

/-- Nothing is given before the call is executed. -/
theorem gives_runAsync {linkOk : Bool} {call : Option (Call κ)}
    (h : l.runAsync i linkOk = some (l', call)) (q : ℕ) :
    Gives (l.sessions q) (l'.sessions q) [] := by
  cases (runAsync_cases h).2 with
  | enter p rest l' heq henter => exact (keepsSends_enter henter).gives q
  | session c rest heq => exact (Keeps.refl l).toKeepsSends.gives q
  | flushed thread rest heq => exact (Keeps.refl l).toKeepsSends.gives q
  | message thread m msgList rest heq => exact (Keeps.refl l).toKeepsSends.gives q

theorem QueueOk.owed_work (hqueue : QueueOk i l) (hl : Safe i l) {w : Work}
    (h : l.work w = some l') : l'.owed p t X = l.owed p t X := by
  by_cases hw : w = .eventsDone
  · subst hw
    simp only [LoopState.work] at h
    split at h <;> cases h
    rename_i hguard
    -- the swap: the last batch was run to its end
    have hcopy : l.mCopyAsyncProcs = [] := hqueue.copyAsync (by rw [hguard.1]; decide)
    simp only [owed, queued, hcopy, List.append_nil, List.nil_append]
  · exact owed_keeps (keeps_work hl hw h).toKeepsSends

end Owed

end LoopState

/-! ## The service -/

namespace TcpService
open LoopState

variable {logic : Thread} {s t : TcpService κ} {a : Action κ}

theorem loopIndex_of_live (hs : AllIdsOk s) (hn : s.mLoopNum ≤ 2 ^ 16) {i p : ℕ}
    (hp : ((s.loops i).sessions p).status = .live) :
    i < s.mLoopNum ∧
      (SessionId.ofId ((s.loops i).sessions p).ds.mUserData).loopIndex.toNat = i := by
  have hi : i < s.mLoopNum := by
    by_contra hle
    have hmem := (hs.idsOk i).live p hp
    rw [hs.issued i (Nat.not_lt.mp hle)] at hmem
    exact absurd hmem List.not_mem_nil
  refine ⟨hi, ?_⟩
  rw [(hs.safe i).loopIndex p hp, BitVec.toNat_ofNat]
  exact Nat.mod_eq_of_lt (hi.trans_le hn)

theorem served_sessionsStep (hs : AllIdsOk s) (hn : s.mLoopNum ≤ 2 ^ 16) {j : ℕ}
    {l : LoopState κ} (hj : Served (s.loops j)) (h : SessionsStep s j l)
    (hcap : l.live.length ≤ 65500) : Served l := by
  cases h with
  | keeps h => exact hj.keeps h
  | enters p hlt h => exact hj.enters (i := ⟨j, hlt.trans_le hn⟩) h hcap
  | leaves p h =>
    obtain ⟨hlt, hloop⟩ := loopIndex_of_live hs hn h.wasLive
    exact hj.leaves (i := ⟨j, hlt.trans_le hn⟩) h hloop
  | closeSlot i q hi hij hq hloop h =>
    -- with at most 2^16 loops no loop empties a slot of another one
    exact absurd ((loopIndex_of_live hs hn hq).2.symm.trans hloop) hij

/-! ### The invariant -/

/-- What holds of the service as long as no loop has more than 65500 sessions. -/
structure Orderly (s : TcpService κ) : Prop where
  ids : AllIdsOk s
  loopNum : s.mLoopNum ≤ 2 ^ 16
  served : ∀ i, Served (s.loops i)
  queue : ∀ i, QueueOk i (s.loops i)
  cache : ∀ i, ∀ m ∈ s.mCachePacketList i, (SessionId.ofId m.id).loopIndex.toNat = i
  flushed : ∀ k, s.flushing = some k → ∀ i < k, s.mCachePacketList i = []

theorem orderly_init {mLoopNum : ℕ} (hn : mLoopNum ≤ 2 ^ 16) :
    Orderly (init mLoopNum : TcpService κ) where
  ids := allIdsOk_init mLoopNum
  loopNum := hn
  served _ := served_init
  queue := queueOk_init
  cache _ _ h := absurd h List.not_mem_nil
  flushed _ h := by cases h

theorem queueOk_loopStep (hs : Orderly s) {j : ℕ} {l : LoopState κ} (h : LoopStep s j l) :
    QueueOk j l := by
  have hj := hs.queue j
  cases h with
  | same => exact hj
  | execute c hc => exact hj.keeps (keepsQueues_execute _ c)
  | push c hc hthread => exact hj.push ⟨hthread, hc⟩
  | flushCache thread hthread => exact hj.push ⟨hthread, hs.cache j⟩
  | enter p linkOk _ hlt hp h => exact hj.keeps (keepsSends_enter h).toKeepsQueues
  | post p hlt hp =>
    have hset : QueueOk j ((s.loops j).setSession p
        { (s.loops j).sessions p with status := .posted }) := hj.keeps ⟨rfl, rfl, .inl⟩
    exact hset.push trivial
  | runAsync linkOk _ call hlt h => exact (hj.runAsync h).1
  | runAsyncExecute linkOk l c hlt h hc =>
    exact (hj.runAsync h).1.keeps (keepsQueues_execute l c)
  | runAfterLoop _ h => exact hj.keeps (keeps_runAfterLoop h).toKeepsQueues
  | disconnect l sid h =>
    have hl := hj.keeps (keepsSends_runAfterLoop h).toKeepsQueues
    split
    · exact hl.keeps ⟨rfl, rfl, .inl⟩
    · exact hl
  | closeSlot i hi hij l sid h hsid => exact hj.keeps ⟨rfl, rfl, .inl⟩
  | work w _ h =>
    by_cases hw : w = .eventsDone
    · subst hw
      simp only [work] at h
      split at h <;> cases h
      -- the two lists are swapped, and `mCopyAsyncProcs` was empty
      refine ⟨fun f hf => hj.forLoop f ?_, fun hne => absurd rfl hne⟩
      exact List.mem_append.mpr (List.mem_append.mp hf).symm
    · exact hj.keeps (keeps_work (hs.ids.safe j) hw h).toKeepsQueues

/-- The cached messages name their loop, and a flush leaves the loops behind it without. -/
theorem cacheOk_step (hs : Orderly s) (h : step logic s a = some t) :
    (∀ i, ∀ m ∈ t.mCachePacketList i, (SessionId.ofId m.id).loopIndex.toNat = i) ∧
      ∀ k, t.flushing = some k → ∀ i < k, t.mCachePacketList i = [] := by
  rcases (cache_step h).2 with ⟨hcache, hflushing⟩ | ⟨m, rfl⟩ | rfl | rfl
  · rw [hcache, hflushing]
    exact ⟨hs.cache, hs.flushed⟩
  · obtain ⟨hnone, rfl⟩ := step_cacheSend h
    split
    · refine ⟨fun i m' hm' => ?_, fun k hk => ?_⟩
      · dsimp only at hm'
        by_cases hi : i = (SessionId.ofId m.id).loopIndex.toNat
        · subst hi
          rw [Function.update_self, List.mem_append, List.mem_singleton] at hm'
          rcases hm' with hm' | rfl
          · exact hs.cache _ m' hm'
          · rfl
        · rw [Function.update_of_ne hi] at hm'
          exact hs.cache i m' hm'
      · rw [hnone] at hk
        cases hk
    · exact ⟨hs.cache, hs.flushed⟩
  · obtain ⟨-, rfl⟩ := step_flushCache h
    refine ⟨hs.cache, fun k hk i hi => ?_⟩
    cases hk
    exact absurd hi (Nat.not_lt_zero i)
  · obtain ⟨k, hk, rfl⟩ := step_flushRound h
    unfold flushRound
    split
    · rename_i hnil
      refine ⟨hs.cache, fun k' hk' i hi => ?_⟩
      dsimp only at hk'
      split at hk' <;> cases hk'
      rcases Nat.lt_succ_iff_lt_or_eq.mp hi with hlt | rfl
      · exact hs.flushed k hk i hlt
      · exact hnil
    · rename_i m msgList hcons
      -- a flush only takes messages away, and none but those of loop `k`
      have hupdate : ∀ rest : List (Msg κ), (∀ m' ∈ rest, m' ∈ s.mCachePacketList k) →
          (∀ i, ∀ m' ∈ Function.update s.mCachePacketList k rest i,
            (SessionId.ofId m'.id).loopIndex.toNat = i) ∧
          ∀ k', s.flushing = some k' → ∀ i < k', Function.update s.mCachePacketList k rest i = [] := by
        intro rest hrest
        refine ⟨fun i m' hm' => ?_, fun k' hk' i hi => ?_⟩
        · by_cases hi : i = k
          · subst hi
            rw [Function.update_self] at hm'
            exact hs.cache i m' (hrest m' hm')
          · rw [Function.update_of_ne hi] at hm'
            exact hs.cache i m' hm'
        · rw [hk] at hk'
          cases hk'
          rw [Function.update_of_ne hi.ne]
          exact hs.flushed k hk i hi
      split
      · exact hupdate msgList fun m' hm' => by
          rw [hcons]
          exact List.mem_cons_of_mem _ hm'
      · exact hupdate [] fun m' hm' => absurd hm' List.not_mem_nil

theorem orderly_step (hs : Orderly s) (h : step logic s a = some t)
    (hcap : ∀ i, (t.loops i).live.length ≤ 65500) : Orderly t where
  ids := allIdsOk_step hs.ids h
  loopNum := (cache_step h).1.trans_le hs.loopNum
  served i := served_sessionsStep hs.ids hs.loopNum (hs.served i)
    (sessionsStep_of_loopStep hs.ids.safe (loopStep_of_step h i)) (hcap i)
  queue i := queueOk_loopStep hs (loopStep_of_step h i)
  cache := (cacheOk_step hs h).1
  flushed := (cacheOk_step hs h).2

/-! ### What a step does to the packets of a session -/

/-- The packets of thread `t` for `X` that a running flush has not come to. -/
def handed (logic : Thread) (s : TcpService κ) (i : ℕ) (t : Thread) (X : SessionType) :
    List (Packet κ) :=
  if s.flushing = none then [] else msgPackets logic t X (s.mCachePacketList i)

/-- The packets of thread `t` for `X` that wait for the next flush. -/
def cached (logic : Thread) (s : TcpService κ) (i : ℕ) (t : Thread) (X : SessionType) :
    List (Packet κ) :=
  if s.flushing = none then msgPackets logic t X (s.mCachePacketList i) else []

/-- The packets of thread `t` for `X` that an action submits, and what waits for the next
flush then; `cacheSend` submits nothing before `flushCachePackectList` is called. -/
def submit (logic t : Thread) (X : SessionType) (cached : List (Packet κ)) :
    Action κ → List (Packet κ) × List (Packet κ)
  | .call c => (c.packets t X, cached)
  | .cacheSend m =>
    ([], cached ++ Call.packets t X ⟨logic, m.id, .send m.packet m.callback⟩)
  | .flushCache => (cached, [])
  | _ => ([], cached)

/-- The packets of thread `t` for `X` that the actions submit, in order. -/
def submitted (logic t : Thread) (X : SessionType) :
    List (Packet κ) → List (Action κ) → List (Packet κ)
  | _, [] => []
  | cached, a :: acts =>
    (submit logic t X cached a).1 ++ submitted logic t X (submit logic t X cached a).2 acts

section Account
variable {i p : ℕ} {t : Thread} {X : SessionType} {u : TcpService κ}

/-- A change of one loop that leaves alone what the loop owes. -/
theorem owed_setLoop {j : ℕ} {l : LoopState κ}
    (h : l.owed p t X = (s.loops j).owed p t X) :
    ((s.setLoop j l).loops i).owed p t X = (s.loops i).owed p t X := by
  by_cases hi : i = j
  · subst hi
    rw [setLoop_loops_self, h]
  · rw [setLoop_loops_of_ne _ hi]

/-- A call that names another loop sends nothing to `X`. -/
theorem packets_of_loop_ne (hX : (SessionId.ofId X).loopIndex.toNat = i) {c : Call κ}
    (hc : (SessionId.ofId c.id).loopIndex.toNat ≠ i) : c.packets t X = [] := by
  refine Call.packets_of_id_ne fun hid => hc ?_
  rw [hid, hX]

section Live
variable (hserved : Served (s.loops i)) (hqueue : QueueOk i (s.loops i))
  (hlive : ((s.loops i).sessions p).status = .live)
  (huser : ((s.loops i).sessions p).ds.mUserData = X)
  (hX : (SessionId.ofId X).loopIndex.toNat = i)
include hserved hqueue hlive huser hX

theorem owed_execute {c : Call κ} (hc : c.thread = c.loopIndex) :
    ((s.execute c).loops i).owed p t X = (s.loops i).owed p t X ++ c.packets t X := by
  by_cases hi : c.loopIndex = i
  · rw [execute, hi, setLoop_loops_self]
    exact hserved.owed_execute hqueue hlive huser (hc.trans hi)
  · rw [execute, setLoop_loops_of_ne _ (Ne.symm hi), packets_of_loop_ne hX hi,
      List.append_nil]

theorem owed_pushCall (c : Call κ) :
    ((s.pushCall c).loops i).owed p t X = (s.loops i).owed p t X ++ c.packets t X := by
  unfold pushCall
  split
  · rename_i hc
    exact owed_execute hserved hqueue hlive huser hX hc
  · by_cases hi : c.loopIndex = i
    · rw [hi, setLoop_loops_self, owed_push]
      rfl
    · rw [setLoop_loops_of_ne _ (Ne.symm hi), packets_of_loop_ne hX hi, List.append_nil]

end Live

/-- What a live session of an orderly service is sent. -/
structure LiveAt (s : TcpService κ) (i p : ℕ) (X : SessionType) : Prop where
  status : ((s.loops i).sessions p).status = .live
  mUserData : ((s.loops i).sessions p).ds.mUserData = X

theorem LiveAt.loopIndex (hp : s.LiveAt i p X) (hs : Orderly s) :
    i < s.mLoopNum ∧ (SessionId.ofId X).loopIndex.toNat = i := by
  have hloop := loopIndex_of_live hs.ids hs.loopNum hp.status
  rwa [hp.mUserData] at hloop

/-- The rest of the actions moves no packets but from the queue to `mSendList`. -/
theorem owed_quiet (hs : Orderly s) (hp : s.LiveAt i p X) (h : step logic s a = some u)
    (hcall : ∀ c, a ≠ .call c) (hflush : a ≠ .flushRound) :
    (u.loops i).owed p t X = (s.loops i).owed p t X := by
  obtain ⟨hlt, hX⟩ := hp.loopIndex hs
  cases a with
  | call c => exact absurd rfl (hcall c)
  | flushRound => exact absurd rfl hflush
  | addChannel thread j q linkOk =>
    obtain ⟨-, -, ⟨l, henter, rfl⟩ | rfl⟩ := step_addChannel h
    · exact owed_setLoop (owed_keeps (keepsSends_enter henter))
    · exact owed_setLoop (owed_post _ q)
  | cacheSend m =>
    obtain ⟨-, rfl⟩ := step_cacheSend h
    split <;> rfl
  | flushCache =>
    obtain ⟨-, rfl⟩ := step_flushCache h
    rfl
  | runAsync j linkOk =>
    obtain ⟨-, ⟨l, hrun, rfl⟩ | ⟨l, c, hrun, rfl⟩⟩ := step_runAsync h
    · exact owed_setLoop (owed_runAsync_none hrun)
    · -- a functor runs in the loop that its call names
      have hc : c.loopIndex = j := ((hs.queue j).runAsync hrun).2 c rfl
      rw [execute, hc, setLoop_loops_self]
      by_cases hj : i = j
      · subst hj
        rw [setLoop_loops_self]
        exact (hs.served i).owed_runAsync hp.status hp.mUserData hrun
      · rw [setLoop_loops_of_ne _ hj, setLoop_loops_of_ne _ hj]
  | runAfterLoop j =>
    obtain ⟨-, ⟨l, hrun, rfl⟩ | ⟨l, sid, hrun, rfl⟩⟩ := step_runAfterLoop h
    · exact owed_setLoop (owed_keeps (keeps_runAfterLoop hrun).toKeepsSends)
    · have hclose : ((s.setLoop j l).loops i).owed p t X = (s.loops i).owed p t X :=
        owed_setLoop (owed_keeps (keepsSends_runAfterLoop hrun))
      refine (owed_setLoop ?_).trans hclose
      rfl
  | work j w =>
    obtain ⟨-, l, hwork, rfl⟩ := step_work h
    exact owed_setLoop ((hs.queue j).owed_work (hs.ids.safe j) hwork)

theorem owed_call (hs : Orderly s) (hp : s.LiveAt i p X) {c : Call κ}
    (h : step logic s (.call c) = some u) :
    (u.loops i).owed p t X = (s.loops i).owed p t X ++ c.packets t X := by
  obtain ⟨hlt, hX⟩ := hp.loopIndex hs
  obtain ⟨-, rfl⟩ := step_call h
  split
  · exact owed_pushCall (hs.served i) (hs.queue i) hp.status hp.mUserData hX c
  · rename_i hge
    have hne : c.loopIndex ≠ i := fun heq => hge (heq ▸ hlt)
    rw [packets_of_loop_ne hX hne, List.append_nil]

/-- A round of a flush moves packets from the cached messages on. -/
theorem owed_flushRound (hs : Orderly s) (hp : s.LiveAt i p X)
    (h : step logic s .flushRound = some u) :
    (u.loops i).owed p t X ++ handed logic u i t X =
        (s.loops i).owed p t X ++ handed logic s i t X ∧
      cached logic u i t X = [] := by
  obtain ⟨hlt, hX⟩ := hp.loopIndex hs
  obtain ⟨k, hk, rfl⟩ := step_flushRound h
  unfold flushRound
  split
  · rename_i hnil
    -- loop `k` has no messages left; behind the last loop the flush is over, and by then
    -- every list is empty
    have hdone : ¬ k + 1 < s.mLoopNum → s.mCachePacketList i = [] := fun hlast => by
      rcases Nat.lt_or_ge i k with hik | hik
      · exact hs.flushed k hk i hik
      · rwa [show i = k by omega]
    simp only [handed, cached, hk]
    split
    · simp
    · rename_i hlast
      simp [hdone hlast, msgPackets]
  · rename_i m msgList hcons
    have hmsg : (SessionId.ofId m.id).loopIndex.toNat = k :=
      hs.cache k m (by rw [hcons]; exact List.mem_cons_self)
    split
    · -- the flush runs on the loop's own thread and sends the next message at once
      rename_i hlogic
      have howed := owed_execute (s := { s with
          mCachePacketList := Function.update s.mCachePacketList k msgList })
        (c := ⟨logic, m.id, .send m.packet m.callback⟩) (t := t)
        (hs.served i) (hs.queue i) hp.status hp.mUserData hX (hlogic.trans hmsg.symm)
      refine ⟨?_, by simp only [cached, execute, setLoop, hk, reduceCtorEq, if_false]⟩
      rw [howed, List.append_assoc]
      simp only [handed, execute, setLoop, hk, reduceCtorEq, if_false]
      by_cases hi : i = k
      · subst hi
        rw [Function.update_self, hcons]
        rfl
      · have hne : (SessionId.ofId m.id).loopIndex.toNat ≠ i := hmsg.trans_ne (Ne.symm hi)
        rw [Function.update_of_ne hi, packets_of_loop_ne hX hne, List.nil_append]
    · -- the whole list of the loop goes into one functor
      refine ⟨?_, by simp only [cached, setLoop, hk, reduceCtorEq, if_false]⟩
      simp only [handed, hk, reduceCtorEq, if_false]
      by_cases hi : i = k
      · subst hi
        rw [setLoop_loops_self, owed_push, hcons, setLoop]
        simp only [reduceCtorEq, if_false, Function.update_self]
        exact List.append_nil _
      · rw [setLoop_loops_of_ne _ hi, setLoop]
        simp only [reduceCtorEq, if_false, Function.update_of_ne hi]

/-- A thread that can submit a packet directly has handed over all it has flushed. -/
theorem handed_comm {c : Call κ} (hfree : s.Free logic c.thread) :
    c.packets t X ++ handed logic s i t X = handed logic s i t X ++ c.packets t X := by
  by_cases ht : c.thread = t
  · have hnil : handed logic s i t X = [] := by
      by_cases hlogic : logic = t
      · rw [handed, if_pos (hfree (ht.trans hlogic.symm))]
      · rw [handed, msgPackets_of_ne hlogic, ite_self]
    rw [hnil, List.nil_append, List.append_nil]
  · rw [Call.packets_of_ne ht, List.nil_append, List.append_nil]

/-- A step moves packets on towards the session and adds behind them what it submits. -/
theorem account_step (hs : Orderly s) (hp : s.LiveAt i p X) (h : step logic s a = some u) :
    (u.loops i).owed p t X ++ handed logic u i t X =
        (s.loops i).owed p t X ++ handed logic s i t X ++
          (submit logic t X (cached logic s i t X) a).1 ∧
      cached logic u i t X = (submit logic t X (cached logic s i t X) a).2 := by
  have hquiet := owed_quiet (t := t) hs hp h
  have hcache : u.mCachePacketList = s.mCachePacketList ∧ u.flushing = s.flushing →
      handed logic u i t X = handed logic s i t X ∧
        cached logic u i t X = cached logic s i t X := by
    rintro ⟨hlist, hflushing⟩
    simp only [handed, cached, hlist, hflushing, and_self]
  cases a with
  | call c =>
    have hsame := hcache ((cache_step h).2.resolve_right (by simp))
    -- the packet goes before what a flush has to hand over, which is another thread's
    rw [owed_call hs hp h, hsame.1, List.append_assoc, handed_comm (step_call h).1]
    exact ⟨(List.append_assoc _ _ _).symm, hsame.2⟩
  | flushRound =>
    obtain ⟨howed, hcached⟩ := owed_flushRound (t := t) hs hp h
    have hnil : cached logic s i t X = [] := by
      obtain ⟨k, hk, -⟩ := step_flushRound h
      simp only [cached, hk, reduceCtorEq, if_false]
    rw [howed, hcached]
    exact ⟨(List.append_nil _).symm, hnil.symm⟩
  | cacheSend m =>
    have howed := hquiet (by simp) (by simp)
    obtain ⟨hlt, hX⟩ := hp.loopIndex hs
    obtain ⟨hnone, rfl⟩ := step_cacheSend h
    rw [howed]
    have hpackets : (SessionId.ofId m.id).loopIndex.toNat ≠ i →
        Call.packets t X ⟨logic, m.id, .send m.packet m.callback⟩ = [] :=
      fun hne => packets_of_loop_ne hX hne
    split
    · simp only [handed, cached, submit, hnone, if_true, List.append_nil, true_and]
      by_cases hi : i = (SessionId.ofId m.id).loopIndex.toNat
      · subst hi
        rw [Function.update_self, msgPackets, List.flatMap_append, List.flatMap_singleton]
        rfl
      · rw [Function.update_of_ne hi, hpackets (Ne.symm hi), List.append_nil]
    · rename_i hge
      simp only [submit, hpackets fun heq => hge (heq ▸ hlt), List.append_nil, and_self]
  | flushCache =>
    have howed := hquiet (by simp) (by simp)
    obtain ⟨hnone, rfl⟩ := step_flushCache h
    simp only [handed, cached, submit, hnone, reduceCtorEq, if_true, if_false, List.append_nil,
      and_true]
  | addChannel thread j q linkOk | runAsync j linkOk | runAfterLoop j | work j w =>
    have hsame := hcache ((cache_step h).2.resolve_right (by simp))
    rw [hquiet (by simp) (by simp), hsame.1]
    exact ⟨(List.append_nil _).symm, hsame.2⟩

/-! ### Runs -/

theorem gone_step (hs : AllSafe s) (h : step logic s a = some u)
    (hp : Gone ((s.loops i).sessions p)) : Gone ((u.loops i).sessions p) := by
  cases sessionsStep_of_loopStep hs (loopStep_of_step h i) with
  | keeps h => exact h.gone p hp
  | enters q hlt h =>
    by_cases hq : p = q
    · subst hq
      rcases h.fresh with hfresh | hfresh <;> simp [Gone, hfresh] at hp
    · rw [h.others p hq]
      exact hp
  | leaves q h =>
    by_cases hq : p = q
    · rw [hq]
      exact .inl h.status
    · rw [h.others p hq]
      exact hp
  | closeSlot j q hi hij hq hloop h =>
    rw [h]
    exact hp

theorem gone_of_exec {acts : List (Action κ)} (hs : AllSafe s)
    (h : Transition.exec (step logic) s acts = some u) (hp : Gone ((s.loops i).sessions p)) :
    Gone ((u.loops i).sessions p) := by
  have hstep : ∀ (v : TcpService κ) (a : Action κ) (w : TcpService κ),
      AllSafe v ∧ Gone ((v.loops i).sessions p) → step logic v a = some w →
        AllSafe w ∧ Gone ((w.loops i).sessions p) :=
    fun _ _ _ hv hw => ⟨allSafe_step hv.1 hw, gone_step hv.1 hw hv.2⟩
  exact (Transition.exec_invariant hstep ⟨hs, hp⟩ h).2

/-- A session keeps its id until it leaves. -/
theorem liveAt_step (hs : AllSafe s) (hp : s.LiveAt i p X) (h : step logic s a = some u) :
    u.LiveAt i p X ∨ Gone ((u.loops i).sessions p) := by
  cases sessionsStep_of_loopStep hs (loopStep_of_step h i) with
  | keeps h => exact .inl ⟨(h.isLive p).mpr hp.status, (h.mUserData p).trans hp.mUserData⟩
  | enters q hlt h =>
    -- what enters was no session before
    have hq : p ≠ q := by
      rintro rfl
      rcases h.fresh with hfresh | hfresh <;> simp [hp.status] at hfresh
    exact .inl ⟨by rw [h.others p hq]; exact hp.status, by rw [h.others p hq]; exact hp.mUserData⟩
  | leaves q h =>
    by_cases hq : p = q
    · rw [hq]
      exact .inr (.inl h.status)
    · exact .inl ⟨by rw [h.others p hq]; exact hp.status, by rw [h.others p hq]; exact hp.mUserData⟩
  | closeSlot j q hi hij hq hloop h =>
    exact .inl ⟨by rw [h]; exact hp.status, by rw [h]; exact hp.mUserData⟩

theorem account_of_exec {acts : List (Action κ)} (hs : Orderly s) (hp : s.LiveAt i p X)
    (h : Transition.exec (step logic) s acts = some u)
    (hcap : Transition.Always (step logic) (fun s => ∀ i, (s.loops i).live.length ≤ 65500) s acts)
    (hlive : ((u.loops i).sessions p).status = .live) :
    (u.loops i).owed p t X ++ handed logic u i t X =
      (s.loops i).owed p t X ++ handed logic s i t X ++
        submitted logic t X (cached logic s i t X) acts := by
  -- induction on the run; a session that is live at its end was live all along
  induction acts generalizing s with
  | nil =>
    cases h
    exact (List.append_nil _).symm
  | cons a acts ih =>
    obtain ⟨v, hv, hu⟩ := Transition.exec_cons.mp h
    have hv' := orderly_step hs hv (hcap.2 v hv).head
    obtain ⟨howed, hcached⟩ := account_step (t := t) hs hp hv
    -- a session that left would not be live at the end
    rcases liveAt_step hs.ids.safe hp hv with hpv | hgone
    · rw [ih hv' hpv hu (hcap.2 v hv), howed, hcached, submitted, List.append_assoc]
    · have hdead := gone_of_exec hv'.ids.safe hu hgone
      simp [Gone, hlive] at hdead

end Account

/-- A step gives a session at most one packet, whole and behind the others. -/
theorem gives_step {u : TcpService κ} (hs : AllSafe s) (h : step logic s a = some u) (i p : ℕ) :
    ∃ given, Gives ((s.loops i).sessions p) ((u.loops i).sessions p) given := by
  have hloop := loopStep_of_step h i
  generalize u.loops i = l at hloop
  cases hloop with
  | same => exact ⟨_, (Keeps.refl _).toKeepsSends.gives p⟩
  | execute c hc => exact ⟨_, gives_execute _ c p⟩
  | push c hc hthread => exact ⟨_, (Keeps.refl _).toKeepsSends.gives p⟩
  | flushCache thread hthread => exact ⟨_, (Keeps.refl _).toKeepsSends.gives p⟩
  | enter q linkOk _ hj hq henter => exact ⟨_, (keepsSends_enter henter).gives p⟩
  | post q hj hq =>
    have hset : KeepsSends (s.loops i) ((s.loops i).setSession q
        { (s.loops i).sessions q with status := .posted }) :=
      keepsSends_setSession (List.suffix_refl _) rfl
    exact ⟨_, hset.gives p⟩
  | runAsync linkOk _ call hj hrun => exact ⟨_, gives_runAsync hrun p⟩
  | runAsyncExecute linkOk l c hj hrun hc =>
    obtain ⟨procs, rfl⟩ := runAsync_some hrun
    exact ⟨_, gives_execute { s.loops i with mCopyAsyncProcs := procs } c p⟩
  | runAfterLoop _ hrun => exact ⟨_, (keeps_runAfterLoop hrun).toKeepsSends.gives p⟩
  | disconnect l sid hrun =>
    have hgives := (keepsSends_runAfterLoop hrun).gives p
    refine ⟨[], ?_⟩
    split
    · exact hgives
    · exact hgives
  | closeSlot j hj hij l sid hrun hsid => exact ⟨_, (Keeps.refl _).toKeepsSends.gives p⟩
  | work w _ hwork =>
    by_cases hw : w = .eventsDone
    · subst hw
      simp only [work] at hwork
      split at hwork <;> cases hwork
      exact ⟨_, (Keeps.refl (s.loops i)).toKeepsSends.gives p⟩
    · exact ⟨_, (keeps_work (hs i) hw hwork).toKeepsSends.gives p⟩

/-- The packets of thread `t` for `X` on their way to loop `i`. -/
def onTheWay (logic : Thread) (s : TcpService κ) (i : ℕ) (t : Thread) (X : SessionType) :
    List (Packet κ) :=
  (s.loops i).queued t X ++ handed logic s i t X

/-- On at most 2^16 loops of at most 65500 sessions each, over any part of a run in which a
session is live: what `mSendList` has received from each thread and what is on the way are
together, once each and in order, what was so before followed by what the thread has submitted
since. And each packet received goes into `mSendList` whole and last. -/
theorem packets_arrive_once_in_order (logic : Thread) {mLoopNum : ℕ} (hn : mLoopNum ≤ 2 ^ 16)
    (before acts : List (Action κ)) (s u : TcpService κ)
    (hs : Transition.exec (step logic) (init mLoopNum) before = some s)
    (hu : Transition.exec (step logic) s acts = some u)
    (hcap : Transition.Always (step logic) (fun s => ∀ i, (s.loops i).live.length ≤ 65500)
      (init mLoopNum) (before ++ acts))
    (i p : ℕ) (X : SessionType) (hp : s.LiveAt i p X)
    (hlive : ((u.loops i).sessions p).status = .live) :
    (∀ t, ofThread t ((u.loops i).sessions p).received ++ onTheWay logic u i t X =
      ofThread t ((s.loops i).sessions p).received ++ onTheWay logic s i t X ++
        submitted logic t X (cached logic s i t X) acts) ∧
    ∀ a v, step logic u a = some v →
      ∃ given, Gives ((u.loops i).sessions p) ((v.loops i).sessions p) given := by
  obtain ⟨hbefore, hacts⟩ := Transition.always_append hcap hs
  have horderly : Orderly s :=
    hbefore.invariant (fun _ _ _ => orderly_step) (orderly_init hn) hs
  refine ⟨fun t => ?_, fun a v hv => ?_⟩
  · have haccount := account_of_exec (t := t) horderly hp hu hacts hlive
    simpa only [owed, onTheWay, List.append_assoc] using haccount
  · have hsafe : AllSafe u :=
      Transition.exec_invariant (fun _ _ _ => allSafe_step) horderly.ids.safe hu
    exact gives_step hsafe hv i p

/-- Session 7 of loop 0 enters. -/
def enterSeven : List (Action ℕ) := [.addChannel 0 0 7 true]

/-- Thread 5 caches two packets and flushes around a direct send of its own, thread 0 of the
loop sends directly, and the loop runs its functors. -/
def threePaths : List (Action ℕ) :=
  [.cacheSend ⟨firstId, [1], none⟩, .call ⟨5, firstId, .send [2] none⟩,
    .cacheSend ⟨firstId, [3], none⟩, .call ⟨0, firstId, .send [4] none⟩, .flushCache, .flushRound,
    .flushRound, .call ⟨5, firstId, .send [5] none⟩, .work 0 (.epollWait []), .work 0 .eventsDone,
    .runAsync 0 true, .runAsync 0 true]

set_option maxRecDepth 8000 in
/-- Two packets of the thread have arrived, and two are on the way, in order. -/
theorem packets_arrive_once_in_order_threePaths :
    ∃ s u : TcpService ℕ, Transition.exec (step 5) (init 1) enterSeven = some s ∧
      Transition.exec (step 5) s threePaths = some u ∧
      ofThread 5 ((u.loops 0).sessions 7).received = [([2], none), ([1], none)] ∧
      onTheWay 5 u 0 5 firstId = [([3], none), ([5], none)] ∧
      ofThread 5 ((u.loops 0).sessions 7).received ++ onTheWay 5 u 0 5 firstId =
        ofThread 5 ((s.loops 0).sessions 7).received ++ onTheWay 5 s 0 5 firstId ++
          submitted 5 5 firstId (cached 5 s 0 5 firstId) threePaths := by
  have hs : Transition.exec (step 5) (init 1) enterSeven = some _ := rfl
  have hcap : Transition.Always (step 5)
      (fun s : TcpService ℕ => ∀ i, (s.loops i).live.length ≤ 65500) (init 1)
        (enterSeven ++ threePaths) :=
    (few_sessions (by decide)).imp fun s hfew i => (hfew i).1
  refine ⟨_, _, hs, rfl, rfl, rfl, ?_⟩
  exact (packets_arrive_once_in_order 5 (by decide) enterSeven threePaths _ _ hs rfl hcap 0 7
    firstId ⟨rfl, rfl⟩ rfl).1 5

/-- Session 7 enters the last of 2^16 + 1 loops, and its id names loop 0. -/
def enterLast : List (Action ℕ) := [.addChannel 65536 65536 7 true]

/-- The thread of the last loop sends to its session, and loop 0 runs its functors. -/
def sendFromLast : List (Action ℕ) :=
  [.call ⟨65536, firstId, .send [9] none⟩, .work 0 (.epollWait []), .work 0 .eventsDone,
    .runAsync 0 true, .work 0 .asyncDone]

/-- The session stays live and does not receive the packet, which is not on the way any more. -/
theorem packet_lost_sendFromLast :
    ∃ s u : TcpService ℕ, Transition.exec (step 1) (init 65537) enterLast = some s ∧
      Transition.exec (step 1) s sendFromLast = some u ∧
      Transition.Always (step 1) (fun s => ∀ i, (s.loops i).live.length ≤ 65500) (init 65537)
        (enterLast ++ sendFromLast) ∧
      s.LiveAt 65536 7 firstId ∧ u.LiveAt 65536 7 firstId ∧
      submitted 1 65536 firstId [] sendFromLast = [([9], none)] ∧
      ((u.loops 65536).sessions 7).received = [] ∧
      onTheWay 1 u 65536 65536 firstId = [] ∧ onTheWay 1 u 0 65536 firstId = [] :=
  ⟨_, _, rfl, rfl, (few_sessions (by decide)).imp fun _ hfew i => (hfew i).1, ⟨rfl, rfl⟩, ⟨rfl, rfl⟩,
    rfl, rfl, rfl, rfl⟩

end TcpService

end Netxy
