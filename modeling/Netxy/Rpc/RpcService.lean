import Mathlib
import Netxy.Lib.Transition

/-!
# Calls and replies of two `RpcService` peers

A call with a callback puts the callback into the response table under a fresh id and sends
the id along; the callee answers by calling `rpc_reply` with the id and a packed call whose
function name is the id again. The peers here exchange the packets themselves, so encoding is
faithful. `assert` is passed, as in a build without assertions.
-/

namespace Netxy.Rpc

inductive Peer
  | a
  | b
deriving DecidableEq, Repr

def Peer.other : Peer → Peer
  | .a => .b
  | .b => .a

@[simp] theorem Peer.other_other (p : Peer) : p.other.other = p := by
  cases p <;> rfl

@[simp] theorem Peer.other_ne (p : Peer) : p.other ≠ p := by
  cases p <;> exact nofun

def RPC_REPLY_STR : String := "rpc_reply"

/-- What `Caller::call` packs. -/
structure Packet (β : Type*) where
  /-- the id of the callback, `-1` for a call without one -/
  reqID : ℤ
  funname : String
  args : β
deriving DecidableEq, Repr

/-- A message: a call of one of the peer's own functions, or of its `rpc_reply`. -/
inductive Message (α : Type*)
  | call (packet : Packet α)
  | rpcReply (packet : Packet (ℤ × Packet α))

/-- A callback in the response table, with the id it was put there for. -/
structure Registered (κ : Type*) where
  id : ℤ
  callback : κ
deriving DecidableEq, Repr

/-- What the user's code is, as far as the peers depend on it. -/
structure Functions (α κ : Type*) where
  /-- `mRpcFunctions` of the peer has a function of this name that can read the arguments -/
  defines : Peer → String → α → Bool
  /-- the arguments can be read as the parameters of the callback -/
  reads : κ → α → Bool

/-- One `RpcService`, its inbound messages and the history of its calls. -/
structure Endpoint (α κ : Type*) where
  mNextID : ℤ
  mResponseCallbacks : String → Option (Registered κ)
  /-- messages on their way to this peer -/
  inbox : List (Message α)
  /-- `req_id` of the `rpc_reply` calls that are being run, the innermost first -/
  running : List ℤ
  /-- request ids that a function or a callback was given and has not replied to -/
  received : List ℤ
  issued : List (Registered κ)
  /-- what `reply` was called with -/
  replied : List (ℤ × α)
  invoked : List (Registered κ × α)
  /-- `req_id` of the `rpc_reply` calls that have returned -/
  handled : List ℤ
  /-- the table was changed through an end iterator -/
  fault : Bool

namespace Endpoint

variable {α κ : Type*}

def init : Endpoint α κ where
  mNextID := 0
  mResponseCallbacks := fun _ => none
  inbox := []
  running := []
  received := []
  issued := []
  replied := []
  invoked := []
  handled := []
  fault := false

/-- `BaseCaller::makeNextID`: the id counts up as a 32-bit `int`. -/
def makeNextID (e : Endpoint α κ) : ℤ :=
  (e.mNextID + 1).bmod (2 ^ 32)

def insertFunction (e : Endpoint α κ) (name : String) (r : Registered κ) : Endpoint α κ :=
  { e with mResponseCallbacks := Function.update e.mResponseCallbacks name (some r) }

/-- `SelectWriteArgMsgpack::Write` of the last argument: the id that is sent, and the peer
with the callback in its table. -/
def writeLastArg (e : Endpoint α κ) : Option κ → ℤ × Endpoint α κ
  | some callback =>
    let id := e.makeNextID
    (id, { e.insertFunction (toString id) ⟨id, callback⟩ with
      mNextID := id
      issued := ⟨id, callback⟩ :: e.issued })
  | none => (-1, e)

/-- `Caller::call` -/
def call {β : Type*} (e : Endpoint α κ) (funname : String) (args : β) (callback : Option κ) :
    Packet β × Endpoint α κ :=
  let (id, e') := e.writeLastArg callback
  (⟨id, funname, args⟩, e')

/-- `RpcService::reply`: the reply is packed as a call named by the id, which is the last
argument of the call of `rpc_reply`. -/
def reply (e : Endpoint α κ) (reqid : ℤ) (args : α) (callback : Option κ) :
    Packet (ℤ × Packet α) × Endpoint α κ :=
  let (response, e') := e.call (toString reqid) args callback
  let (packet, e'') := e'.call RPC_REPLY_STR (reqid, response) none
  (packet, { e'' with
    received := e''.received.erase reqid
    replied := (reqid, args) :: e''.replied })

def post (e : Endpoint α κ) (m : Message α) : Endpoint α κ :=
  { e with inbox := e.inbox ++ [m] }

/-- `FunctionMgr::execute` on the response table: a name that is not there is passed over, and
arguments that cannot be read end in the `catch`. -/
def executeResponse (fns : Functions α κ) (e : Endpoint α κ) (response : Packet α) :
    Endpoint α κ :=
  match e.mResponseCallbacks response.funname with
  | some r =>
    if fns.reads r.callback response.args then
      { e with
        invoked := (r, response.args) :: e.invoked
        received := response.reqID :: e.received }
    else e
  | none => e

/-- `handleRpc`. The call of `rpc_reply` is left running: the callback may use the peer before
the `del` that follows it. -/
def handleRpc (fns : Functions α κ) (p : Peer) (e : Endpoint α κ) :
    Message α → Endpoint α κ
  | .call packet =>
    if fns.defines p packet.funname packet.args then
      { e with received := packet.reqID :: e.received }
    else e
  | .rpcReply packet =>
    { e.executeResponse fns packet.args.2 with running := packet.args.1 :: e.running }

/-- `BaseFunctorMgr::del`: an iterator that points nowhere is erased all the same. -/
def del (e : Endpoint α κ) (name : String) : Endpoint α κ :=
  match e.mResponseCallbacks name with
  | some _ => { e with mResponseCallbacks := Function.update e.mResponseCallbacks name none }
  | none => { e with fault := true }

/-- The rest of the `rpc_reply` call that is run innermost. -/
def finishReply (e : Endpoint α κ) (reqid : ℤ) : Endpoint α κ :=
  { e.del (toString reqid) with
    running := e.running.tail
    handled := reqid :: e.handled }

end Endpoint

/-- The two peers. -/
abbrev Peers (α κ : Type*) := Peer → Endpoint α κ

namespace Peers

variable {α κ : Type*}

inductive Action (α κ : Type*)
  | call (p : Peer) (funname : String) (args : α) (callback : Option κ)
  | reply (p : Peer) (reqid : ℤ) (args : α) (callback : Option κ)
  /-- `handleRpc` with a message that may have overtaken others -/
  | handleRpc (p : Peer) (i : ℕ)
  /-- the innermost `rpc_reply` of the peer is back from the callback -/
  | finishReply (p : Peer)

def Action.peer : Action α κ → Peer
  | .call p .. => p
  | .reply p .. => p
  | .handleRpc p _ => p
  | .finishReply p => p

def init : Peers α κ := fun _ => .init

/-- Peer `p` becomes `e`, and `m` is on its way to the other one. -/
def send (s : Peers α κ) (p : Peer) (e : Endpoint α κ) (m : Message α) : Peers α κ :=
  fun x => if x = p then e else (s x).post m

def act (fns : Functions α κ) (s : Peers α κ) : Action α κ → Option (Peers α κ)
  | .call p funname args callback =>
    if funname = RPC_REPLY_STR then none
    else
      let (packet, e) := (s p).call funname args callback
      some (s.send p e (.call packet))
  | .reply p reqid args callback =>
    -- at most once for each request
    if reqid ∈ (s p).received then
      let (packet, e) := (s p).reply reqid args callback
      some (s.send p e (.rpcReply packet))
    else none
  | .handleRpc p i =>
    ((s p).inbox[i]?).map fun m =>
      Function.update s p ({ s p with inbox := (s p).inbox.eraseIdx i }.handleRpc fns p m)
  | .finishReply p =>
    ((s p).running.head?).map fun reqid => Function.update s p ((s p).finishReply reqid)

/-- Nothing more is run at a peer whose table is lost. -/
def step (fns : Functions α κ) (s : Peers α κ) (a : Action α κ) : Option (Peers α κ) :=
  if (s a.peer).fault then none else s.act fns a

end Peers

/-! ## The ids on their way -/

section Ids
variable {α κ : Type*}

/-- The id under which the receiver of the message can be asked for a reply. -/
def Message.requestID : Message α → ℤ
  | .call packet => packet.reqID
  | .rpcReply packet => packet.args.2.reqID

/-- The request the message replies to. -/
def Message.replyID : Message α → Option ℤ
  | .call _ => none
  | .rpcReply packet => some packet.args.1

namespace Endpoint

/-- The requests that were sent to the peer: on their way, with its functions or replied to. -/
def asked (e : Endpoint α κ) : List ℤ :=
  e.inbox.map Message.requestID ++ e.received ++ e.replied.map Prod.fst

/-- The requests of the peer that were replied to: the reply is on its way, being run or
behind. -/
def answered (e : Endpoint α κ) : List ℤ :=
  e.inbox.filterMap Message.replyID ++ e.running ++ e.handled

/-- What is wanted of a peer `e` whose calls go to `f`. -/
structure Correlated (e f : Endpoint α κ) : Prop where
  noFault : e.fault = false
  issuedOnce : (e.issued.map Registered.id).Nodup
  invokedOnce : (e.invoked.map fun x => x.1.id).Nodup
  /-- the arguments are those of the only reply to the callback's own request -/
  ownReply : ∀ r args, (r, args) ∈ e.invoked →
    r ∈ e.issued ∧ (r.id, args) ∈ f.replied ∧ ∀ args', (r.id, args') ∈ f.replied → args' = args
  table : ∀ name r, e.mResponseCallbacks name = some r ↔
    r ∈ e.issued ∧ name = toString r.id ∧ r.id ∉ e.handled

/-- The invariant of a peer `e` whose calls go to `f`. No id is in two places at once, where
`-1` stands for no id. -/
structure Inv (e f : Endpoint α κ) : Prop where
  noFault : e.fault = false
  nextID_nonneg : 0 ≤ e.mNextID
  issued_le : ∀ r ∈ e.issued, 0 < r.id ∧ r.id ≤ e.mNextID
  issued_nodup : (e.issued.map Registered.id).Nodup
  table : ∀ name r, e.mResponseCallbacks name = some r ↔
    r ∈ e.issued ∧ name = toString r.id ∧ r.id ∉ e.handled
  asked_le : ∀ id, id ≠ -1 → f.asked.count id ≤ (e.issued.map Registered.id).count id
  answered_eq : ∀ id, e.answered.count id = (f.replied.map Prod.fst).count id
  inbox_replies : ∀ packet, .rpcReply packet ∈ e.inbox →
    packet.args.2.funname = toString packet.args.1 ∧
      (packet.args.1, packet.args.2.args) ∈ f.replied
  invoked_replies : ∀ x ∈ e.invoked, x.1 ∈ e.issued ∧ (x.1.id, x.2) ∈ f.replied
  invoked_le : ∀ id, (e.invoked.map fun x => x.1.id).count id ≤ (e.running ++ e.handled).count id

theorem toString_int_injective : Function.Injective (toString : ℤ → String) :=
  fun _ _ h => Int.repr_injective h

theorem eq_of_count_fst_le_one {β : Type*} {l : List (ℤ × β)} {id : ℤ} {x y : β}
    (h : (l.map Prod.fst).count id ≤ 1) (hx : (id, x) ∈ l) (hy : (id, y) ∈ l) : x = y := by
  induction l with
  | nil => cases hx
  | cons z l ih =>
    rw [List.map_cons, List.count_cons] at h
    have hmem : ∀ {w : β}, (id, w) ∈ l → 0 < (l.map Prod.fst).count id := fun hw =>
      List.count_pos_iff.mpr (List.mem_map_of_mem (f := Prod.fst) hw)
    rcases List.mem_cons.mp hx with rfl | hx' <;> rcases List.mem_cons.mp hy with hy' | hy'
    · exact (Prod.mk.inj hy').2.symm
    · have := hmem hy'
      simp only [BEq.rfl, if_true] at h
      omega
    · have := hmem hx'
      simp only [← hy', BEq.rfl, if_true] at h
      omega
    · exact ih (by omega) hx' hy'

variable {e f : Endpoint α κ}

theorem Inv.issued_count_le (h : Inv e f) (id : ℤ) : (e.issued.map Registered.id).count id ≤ 1 :=
  List.nodup_iff_count_le_one.mp h.issued_nodup id

theorem Inv.ne_of_issued (h : Inv e f) {r : Registered κ} (hr : r ∈ e.issued) : r.id ≠ -1 := by
  have := (h.issued_le r hr).1
  omega

/-- A request is replied to at most once. -/
theorem Inv.replied_count_le (h : Inv e f) {id : ℤ} (hid : id ≠ -1) :
    (f.replied.map Prod.fst).count id ≤ (e.issued.map Registered.id).count id := by
  refine le_trans ?_ (h.asked_le id hid)
  simp only [asked, List.count_append]
  omega

theorem Inv.correlated (h : Inv e f) : Correlated e f where
  noFault := h.noFault
  issuedOnce := h.issued_nodup
  invokedOnce := by
    refine List.nodup_iff_count_le_one.mpr fun id => ?_
    by_cases hid : id = -1
    · have hnot : id ∉ e.invoked.map fun x => x.1.id := by
        intro hmem
        obtain ⟨x, hx, rfl⟩ := List.mem_map.mp hmem
        exact h.ne_of_issued (h.invoked_replies x hx).1 hid
      rw [List.count_eq_zero_of_not_mem hnot]
      exact Nat.zero_le 1
    · -- callbacks run ≤ replies met ≤ replies sent ≤ requests issued
      have hinvoked := h.invoked_le id
      have hanswered := h.answered_eq id
      have hreplied := h.replied_count_le hid
      have hissued := h.issued_count_le id
      simp only [answered, List.count_append] at hinvoked hanswered
      omega
  ownReply := by
    intro r args hmem
    obtain ⟨hissued, hreplied⟩ := h.invoked_replies _ hmem
    have hcount := (h.replied_count_le (h.ne_of_issued hissued)).trans (h.issued_count_le r.id)
    exact ⟨hissued, hreplied, fun args' h' => eq_of_count_fst_le_one hcount h' hreplied⟩
  table := h.table

/-! ## What the operations keep -/

/-- The callee may lose requests, but it may not reply. -/
theorem Inv.of_callee {f' : Endpoint α κ} (h : Inv e f)
    (hasked : ∀ id, f'.asked.count id ≤ f.asked.count id) (hreplied : f'.replied = f.replied) :
    Inv e f' where
  noFault := h.noFault
  nextID_nonneg := h.nextID_nonneg
  issued_le := h.issued_le
  issued_nodup := h.issued_nodup
  table := h.table
  asked_le := fun id hid => (hasked id).trans (h.asked_le id hid)
  answered_eq := by
    rw [hreplied]
    exact h.answered_eq
  inbox_replies := by
    rw [hreplied]
    exact h.inbox_replies
  invoked_replies := by
    rw [hreplied]
    exact h.invoked_replies
  invoked_le := h.invoked_le

@[simp] theorem asked_post (m : Message α) (id : ℤ) :
    (f.post m).asked.count id = f.asked.count id + [m.requestID].count id := by
  simp only [asked, post, List.map_append, List.map_cons, List.map_nil, List.count_append]
  omega

@[simp] theorem answered_post (m : Message α) (id : ℤ) :
    (e.post m).answered.count id = e.answered.count id + m.replyID.toList.count id := by
  have hreply : [m].filterMap Message.replyID = m.replyID.toList := by
    cases m <;> rfl
  simp only [answered, post, List.filterMap_append, hreply, List.count_append]
  omega

/-- A request on its way to the peer. -/
theorem Inv.post_call (h : Inv e f) (packet : Packet α) : Inv (e.post (.call packet)) f :=
  { h with
    answered_eq := by
      intro id
      rw [answered_post, h.answered_eq]
      rfl
    inbox_replies := by
      intro p hp
      rcases List.mem_append.mp hp with hp | hp
      · exact h.inbox_replies p hp
      · cases List.mem_singleton.mp hp }

theorem makeNextID_eq (h0 : 0 ≤ e.mNextID) (hlt : e.mNextID < 2 ^ 31 - 1) :
    e.makeNextID = e.mNextID + 1 :=
  Int.bmod_eq_of_le (by omega) (by omega)

/-- Only requests that were made are replied to. -/
theorem Inv.exists_issued (h : Inv e f) {id : ℤ} (hid : id ≠ -1) (hmem : id ∈ e.answered) :
    ∃ r ∈ e.issued, r.id = id := by
  have hpos : 0 < (e.issued.map Registered.id).count id :=
    calc 0 < e.answered.count id := List.count_pos_iff.mpr hmem
      _ = (f.replied.map Prod.fst).count id := h.answered_eq id
      _ ≤ (e.issued.map Registered.id).count id := h.replied_count_le hid
  exact List.mem_map.mp (List.count_pos_iff.mp hpos)

/-- The table after a callback with a fresh id is put in. -/
theorem Inv.insert_table (h : Inv e f) {r : Registered κ} (hr : ∀ x ∈ e.issued, x.id ≠ r.id)
    (hhandled : r.id ∉ e.handled) (name : String) (x : Registered κ) :
    Function.update e.mResponseCallbacks (toString r.id) (some r) name = some x ↔
      x ∈ r :: e.issued ∧ name = toString x.id ∧ x.id ∉ e.handled := by
  by_cases hname : name = toString r.id
  · subst hname
    rw [Function.update_self, Option.some.injEq]
    refine ⟨fun hx => hx ▸ ⟨List.mem_cons_self, rfl, hhandled⟩, fun ⟨hmem, heq, _⟩ => ?_⟩
    rcases List.mem_cons.mp hmem with rfl | hmem
    · rfl
    · exact absurd (toString_int_injective heq).symm (hr x hmem)
  · rw [Function.update_of_ne hname, h.table]
    refine and_congr_left fun hx => ⟨List.mem_cons_of_mem r, fun hmem => ?_⟩
    rcases List.mem_cons.mp hmem with rfl | hmem
    · exact absurd hx.1 hname
    · exact hmem

/-- A message with a callback, or without one, on its way to the callee. -/
theorem Inv.writeLastArg (h : Inv e f) (hlt : e.mNextID < 2 ^ 31 - 1) (callback : Option κ)
    {m : Message α} (hm : m.requestID = (e.writeLastArg callback).1) :
    Inv (e.writeLastArg callback).2 (f.post m) := by
  have h0 := h.nextID_nonneg
  cases callback with
  | none =>
    refine { h with asked_le := fun id hne => ?_ }
    -- without a callback the message bears the id -1, which stands for no request
    have hfresh : [m.requestID].count id = 0 :=
      List.count_eq_zero_of_not_mem fun hmem =>
        hne ((List.mem_singleton.mp hmem).trans hm)
    rw [asked_post, hfresh]
    exact h.asked_le id hne
  | some callback =>
    have hid := makeNextID_eq h0 hlt
    -- the ids issued so far are below the new one
    have hnew : ∀ r ∈ e.issued, r.id ≠ e.makeNextID := by
      intro r hr
      have := (h.issued_le r hr).2
      omega
    have hhandled : e.makeNextID ∉ e.handled := by
      intro hmem
      obtain ⟨r, hr, heq⟩ := h.exists_issued (show e.makeNextID ≠ -1 by omega)
        (List.mem_append_right _ hmem)
      exact hnew r hr heq
    exact
      { noFault := h.noFault
        nextID_nonneg := by
          change 0 ≤ e.makeNextID
          omega
        issued_le := by
          change ∀ r ∈ ⟨e.makeNextID, callback⟩ :: e.issued, 0 < r.id ∧ r.id ≤ e.makeNextID
          intro r hr
          rcases List.mem_cons.mp hr with rfl | hr
          · change 0 < e.makeNextID ∧ e.makeNextID ≤ e.makeNextID
            omega
          · have := h.issued_le r hr
            omega
        issued_nodup := by
          refine List.nodup_cons.mpr ⟨fun hmem => ?_, h.issued_nodup⟩
          obtain ⟨r, hr, heq⟩ := List.mem_map.mp hmem
          exact hnew r hr heq
        table := h.insert_table (r := ⟨e.makeNextID, callback⟩) hnew hhandled
        asked_le := by
          intro id hne
          have hle := h.asked_le id hne
          have hm' : m.requestID = e.makeNextID := hm
          calc (f.post m).asked.count id = f.asked.count id + [e.makeNextID].count id := by
                rw [asked_post, hm']
            _ ≤ [e.makeNextID].count id + (e.issued.map Registered.id).count id := by omega
            _ = (e.makeNextID :: e.issued.map Registered.id).count id := by
                rw [← List.count_append, List.singleton_append]
        answered_eq := h.answered_eq
        inbox_replies := h.inbox_replies
        invoked_replies := fun x hx =>
          ⟨List.mem_cons_of_mem _ (h.invoked_replies x hx).1, (h.invoked_replies x hx).2⟩
        invoked_le := h.invoked_le }

/-- The id of a packed call is that of its last argument. -/
theorem call_eq {β : Type*} (funname : String) (args : β) (callback : Option κ) :
    e.call funname args callback =
      (⟨(e.writeLastArg callback).1, funname, args⟩, (e.writeLastArg callback).2) := rfl

/-- The sender of a message has nothing new to reply to. -/
theorem callee_writeLastArg (callback : Option κ) :
    (e.writeLastArg callback).2.inbox = e.inbox ∧
      (e.writeLastArg callback).2.received = e.received ∧
      (e.writeLastArg callback).2.replied = e.replied := by
  cases callback <;> exact ⟨rfl, rfl, rfl⟩

theorem Inv.writeLastArg_callee (h : Inv f e) (callback : Option κ) :
    Inv f (e.writeLastArg callback).2 := by
  obtain ⟨hinbox, hreceived, hreplied⟩ := callee_writeLastArg (e := e) callback
  refine h.of_callee (fun id => le_of_eq ?_) hreplied
  rw [asked, hinbox, hreceived, hreplied, asked]

/-- The callee `e` replies: a request leaves it, and its reply is on the way to `f`. -/
theorem Inv.reply (h : Inv f e) {reqid : ℤ} (hreqid : reqid ∈ e.received) (args : α)
    (id : ℤ) :
    Inv (f.post (.rpcReply ⟨-1, RPC_REPLY_STR, reqid, id, toString reqid, args⟩))
      { e with
        received := e.received.erase reqid
        replied := (reqid, args) :: e.replied } := by
  refine { h with
    asked_le := fun x hx => ?_
    answered_eq := fun x => ?_
    inbox_replies := fun packet hpacket => ?_
    invoked_replies := fun x hx => ?_ }
  · refine le_trans (le_of_eq ?_) (h.asked_le x hx)
    -- the request goes from those received to those replied to
    have herase := (List.perm_cons_erase hreqid).count_eq x
    simp only [asked, List.count_append, List.map_cons, List.count_cons] at herase ⊢
    omega
  · rw [answered_post, h.answered_eq, List.map_cons, ← List.singleton_append,
      List.count_append, Nat.add_comm]
    rfl
  · rcases List.mem_append.mp hpacket with hpacket | hpacket
    · obtain ⟨hname, hmem⟩ := h.inbox_replies packet hpacket
      exact ⟨hname, List.mem_cons_of_mem _ hmem⟩
    · cases List.mem_singleton.mp hpacket
      exact ⟨rfl, List.mem_cons_self⟩
  · obtain ⟨hissued, hmem⟩ := h.invoked_replies x hx
    exact ⟨hissued, List.mem_cons_of_mem _ hmem⟩

/-- The message at place `i` of the inbox is taken out. -/
def take (e : Endpoint α κ) (i : ℕ) : Endpoint α κ := { e with inbox := e.inbox.eraseIdx i }

theorem inbox_take_perm {i : ℕ} {m : Message α} (hm : e.inbox[i]? = some m) :
    (m :: (e.take i).inbox).Perm e.inbox := by
  obtain ⟨hi, rfl⟩ := List.getElem?_eq_some_iff.mp hm
  exact List.getElem_cons_eraseIdx_perm hi

theorem asked_take {i : ℕ} {m : Message α} (hm : e.inbox[i]? = some m) (id : ℤ) :
    e.asked.count id = (e.take i).asked.count id + [m.requestID].count id := by
  have hperm := ((inbox_take_perm hm).map Message.requestID).count_eq id
  rw [List.map_cons, ← List.singleton_append, List.count_append] at hperm
  simp only [asked, take, List.count_append] at hperm ⊢
  omega

theorem answered_take {i : ℕ} {m : Message α} (hm : e.inbox[i]? = some m) (id : ℤ) :
    e.answered.count id = (e.take i).answered.count id + m.replyID.toList.count id := by
  have hperm := ((inbox_take_perm hm).filterMap Message.replyID).count_eq id
  have hcons : (m :: (e.take i).inbox).filterMap Message.replyID =
      m.replyID.toList ++ (e.take i).inbox.filterMap Message.replyID := by
    cases m <;> rfl
  rw [hcons, List.count_append] at hperm
  simp only [answered, take, List.count_append] at hperm ⊢
  omega

variable {fns : Functions α κ} {p : Peer}

/-- What `execute` does with a response: a callback of its name is invoked, or nothing. -/
theorem executeResponse_cases (fns : Functions α κ) (e : Endpoint α κ) (response : Packet α) :
    (∃ r, e.mResponseCallbacks response.funname = some r ∧
      e.executeResponse fns response =
        { e with
          invoked := (r, response.args) :: e.invoked
          received := response.reqID :: e.received }) ∨
      e.executeResponse fns response = e := by
  unfold executeResponse
  split
  · rename_i r hr
    split
    · exact .inl ⟨r, hr, rfl⟩
    · exact .inr rfl
  · exact .inr rfl

theorem handleRpc_call_cases (fns : Functions α κ) (p : Peer) (e : Endpoint α κ)
    (packet : Packet α) :
    e.handleRpc fns p (.call packet) = { e with received := packet.reqID :: e.received } ∨
      e.handleRpc fns p (.call packet) = e := by
  rw [handleRpc]
  split
  · exact .inl rfl
  · exact .inr rfl

theorem handleRpc_rpcReply (packet : Packet (ℤ × Packet α)) :
    e.handleRpc fns p (.rpcReply packet) =
      { e.executeResponse fns packet.args.2 with running := packet.args.1 :: e.running } := rfl

/-- A handled request is with the function that was run, or it is gone. -/
theorem handleRpc_callee (fns : Functions α κ) (p : Peer) (e : Endpoint α κ) (m : Message α) :
    (e.handleRpc fns p m).replied = e.replied ∧
      ∀ id, (e.handleRpc fns p m).asked.count id ≤
        e.asked.count id + [m.requestID].count id := by
  have hreceived (id : ℤ) : ({ e with received := m.requestID :: e.received }).asked.count id =
      e.asked.count id + [m.requestID].count id := by
    simp only [asked, List.count_append, List.count_cons, List.count_nil]
    omega
  cases m with
  | call packet =>
    rcases handleRpc_call_cases fns p e packet with heq | heq
    · rw [heq]
      exact ⟨rfl, fun id => (hreceived id).le⟩
    · rw [heq]
      exact ⟨rfl, fun id => Nat.le_add_right _ _⟩
  | rpcReply packet =>
    rw [handleRpc_rpcReply]
    rcases executeResponse_cases fns e packet.args.2 with ⟨r, -, heq⟩ | heq
    · rw [heq]
      exact ⟨rfl, fun id => (hreceived id).le⟩
    · rw [heq]
      exact ⟨rfl, fun id => Nat.le_add_right _ _⟩

theorem Inv.handleRpc_callee (h : Inv f e) {i : ℕ} {m : Message α}
    (hm : e.inbox[i]? = some m) : Inv f ((e.take i).handleRpc fns p m) := by
  obtain ⟨hreplied, hasked⟩ := Endpoint.handleRpc_callee fns p (e.take i) m
  exact h.of_callee (fun id => (hasked id).trans (asked_take hm id).ge) hreplied

/-- The callback is found under the id of its own request. -/
theorem Inv.invoke (h : Inv e f) {r : Registered κ} {args : α} (hissued : r ∈ e.issued)
    (hreplied : (r.id, args) ∈ f.replied)
    (hlt : (e.invoked.map fun x => x.1.id).count r.id < (e.running ++ e.handled).count r.id) :
    Inv { e with invoked := (r, args) :: e.invoked } f := by
  refine { h with
    invoked_replies := fun x hx => ?_
    invoked_le := fun id => ?_ }
  · rcases List.mem_cons.mp hx with rfl | hx
    · exact ⟨hissued, hreplied⟩
    · exact h.invoked_replies x hx
  · have hle := h.invoked_le id
    rw [List.map_cons, List.count_cons]
    split
    · rename_i heq
      rw [← eq_of_beq heq]
      exact hlt
    · exact hle

theorem Inv.handleRpc (h : Inv e f) {i : ℕ} {m : Message α} (hm : e.inbox[i]? = some m) :
    Inv ((e.take i).handleRpc fns p m) f := by
  have hreplies : ∀ packet, .rpcReply packet ∈ (e.take i).inbox →
      packet.args.2.funname = toString packet.args.1 ∧
        (packet.args.1, packet.args.2.args) ∈ f.replied :=
    fun packet hpacket => h.inbox_replies packet (List.mem_of_mem_eraseIdx hpacket)
  cases m with
  | call packet =>
    have htake : Inv (e.take i) f := { h with
      answered_eq := fun id => (answered_take hm id).symm.trans (h.answered_eq id)
      inbox_replies := hreplies }
    rcases handleRpc_call_cases fns p (e.take i) packet with heq | heq
    · rw [heq]
      exact { htake with }
    · rw [heq]
      exact htake
  | rpcReply packet =>
    have hrunning : Inv { e.take i with running := packet.args.1 :: e.running } f := { h with
      answered_eq := by
        intro id
        rw [← h.answered_eq, answered_take hm]
        simp only [answered, take, List.count_append, Message.replyID, Option.toList_some,
          List.count_cons, List.count_nil]
        omega
      inbox_replies := hreplies
      invoked_le := fun id => (h.invoked_le id).trans List.count_le_count_cons }
    obtain ⟨hname, hreplied⟩ := h.inbox_replies packet (List.mem_of_getElem? hm)
    rw [handleRpc_rpcReply]
    rcases executeResponse_cases fns (e.take i) packet.args.2 with
      ⟨r, hr, heq⟩ | heq
    · -- the name of a response is the text of its request id, and texts tell ids apart
      obtain ⟨hissued, hid, -⟩ := (h.table _ _).mp hr
      have hreqid : packet.args.1 = r.id := toString_int_injective (hname.symm.trans hid)
      rw [hreqid] at hrunning hreplied
      have hinvoke := hrunning.invoke hissued hreplied (by
        have hle := h.invoked_le r.id
        simp only [take, List.cons_append, List.count_cons_self]
        omega)
      rw [heq, hreqid]
      exact { hinvoke with }
    · rw [heq]
      exact hrunning

/-! ## The end of `rpc_reply` -/

/-- A reply that is being run has its callback in the table. -/
theorem Inv.table_of_running (h : Inv e f) {reqid : ℤ} (hreqid : reqid ≠ -1)
    (hmem : reqid ∈ e.running) :
    ∃ r, e.mResponseCallbacks (toString reqid) = some r ∧ r.id = reqid := by
  have hanswered : reqid ∈ e.answered := List.mem_append_left _ (List.mem_append_right _ hmem)
  obtain ⟨r, hr, rfl⟩ := h.exists_issued hreqid hanswered
  refine ⟨r, (h.table _ _).mpr ⟨hr, rfl, fun hhandled => ?_⟩, rfl⟩
  -- handled and still running would make two replies to one request
  have hcount := h.answered_eq r.id
  have hreplied := (h.replied_count_le hreqid).trans (h.issued_count_le r.id)
  have hrunning := List.count_pos_iff.mpr hmem
  have hdone := List.count_pos_iff.mpr hhandled
  simp only [answered, List.count_append] at hcount
  omega

/-- No callback is kept under `-1`. -/
theorem Inv.table_neg_one (h : Inv e f) : e.mResponseCallbacks (toString (-1 : ℤ)) = none := by
  refine Option.eq_none_iff_forall_ne_some.mpr fun r hr => ?_
  obtain ⟨hissued, hid, -⟩ := (h.table _ r).mp hr
  exact h.ne_of_issued hissued (toString_int_injective hid).symm

theorem finishReply_of_some {reqid : ℤ} {r : Registered κ}
    (hr : e.mResponseCallbacks (toString reqid) = some r) :
    e.finishReply reqid =
      { e with
        mResponseCallbacks := Function.update e.mResponseCallbacks (toString reqid) none
        running := e.running.tail
        handled := reqid :: e.handled } := by
  rw [Endpoint.finishReply, del, hr]

theorem finishReply_of_none {reqid : ℤ} (hr : e.mResponseCallbacks (toString reqid) = none) :
    (e.finishReply reqid).fault = true := by
  rw [Endpoint.finishReply, del, hr]

theorem Inv.finishReply (h : Inv e f) {reqid : ℤ} (hreqid : reqid ≠ -1)
    (hhead : e.running.head? = some reqid) : Inv (e.finishReply reqid) f := by
  obtain ⟨rest, hrunning⟩ : ∃ rest, e.running = reqid :: rest := by
    cases hlist : e.running with
    | nil =>
      rw [hlist] at hhead
      cases hhead
    | cons x rest =>
      rw [hlist] at hhead
      cases hhead
      exact ⟨rest, rfl⟩
  obtain ⟨r, hr, hid⟩ := h.table_of_running hreqid (hrunning ▸ List.mem_cons_self)
  have hmoved (id : ℤ) : (rest ++ reqid :: e.handled).count id =
      (e.running ++ e.handled).count id := by
    rw [hrunning]
    exact List.perm_middle.count_eq id
  rw [finishReply_of_some hr, hrunning]
  refine { h with
    table := fun name x => ?_
    answered_eq := fun id => ?_
    invoked_le := fun id => (h.invoked_le id).trans (hmoved id).ge }
  · rw [List.mem_cons, not_or]
    by_cases hname : name = toString reqid
    · subst hname
      simp only [Function.update_self]
      refine iff_of_false nofun fun ⟨_, heq, hne, _⟩ => ?_
      exact hne (toString_int_injective heq).symm
    · simp only [Function.update_of_ne hname]
      rw [h.table]
      refine and_congr_right fun _ => and_congr_right fun heq => ?_
      refine (and_iff_right fun hx => ?_).symm
      exact hname (hx ▸ heq)
  · have hcount := hmoved id
    rw [← h.answered_eq]
    simp only [answered, List.tail_cons, List.count_append] at hcount ⊢
    omega

end Endpoint
end Ids

/-! ## Runs -/

namespace Peers

variable {α κ : Type*} {fns : Functions α κ} {s t : Peers α κ}

def Inv (s : Peers α κ) : Prop := ∀ p, (s p).Inv (s p.other)

theorem inv_init : (init : Peers α κ).Inv := by
  intro p
  exact
    { noFault := rfl
      nextID_nonneg := le_refl 0
      issued_le := nofun
      issued_nodup := List.nodup_nil
      table := fun name r => iff_of_false nofun fun h => List.not_mem_nil h.1
      asked_le := fun id _ => le_refl 0
      answered_eq := fun id => rfl
      inbox_replies := nofun
      invoked_replies := nofun
      invoked_le := fun id => le_refl 0 }

/-- What holds of a peer and the other one, both ways round, holds of the two peers. -/
theorem inv_of_pair (p : Peer) (h : (s p).Inv (s p.other)) (h' : (s p.other).Inv (s p)) :
    s.Inv := by
  intro x
  have hx : x = p ∨ x = p.other := by
    cases x <;> cases p <;> simp [Peer.other]
  rcases hx with rfl | rfl
  · exact h
  · rwa [Peer.other_other]

theorem inv_send {p : Peer} {e : Endpoint α κ} {m : Message α}
    (h : e.Inv ((s p.other).post m)) (h' : ((s p.other).post m).Inv e) : (s.send p e m).Inv := by
  have hp : s.send p e m p = e := if_pos rfl
  have hother : s.send p e m p.other = (s p.other).post m := if_neg p.other_ne
  apply inv_of_pair p
  · rwa [hp, hother]
  · rwa [hp, hother]

theorem inv_update {p : Peer} {e : Endpoint α κ} (h : e.Inv (s p.other))
    (h' : (s p.other).Inv e) : Inv (Function.update s p e) := by
  apply inv_of_pair p
  · rwa [Function.update_self, Function.update_of_ne p.other_ne]
  · rwa [Function.update_self, Function.update_of_ne p.other_ne]

/-- A reply that is brought to its end answers a call with a callback. -/
def AnswersCallback (s : Peers α κ) : Action α κ → Prop
  | .finishReply p => (s p).running.head? ≠ some (-1)
  | _ => True

/-- The callers have ids left. -/
def IdsLeft (s : Peers α κ) : Prop := ∀ p, (s p).mNextID < 2 ^ 31 - 1

theorem inv_act (hs : s.Inv) (hids : s.IdsLeft) {a : Action α κ} (ha : s.AnswersCallback a)
    (h : s.act fns a = some t) : t.Inv := by
  have hinv : ∀ p, (s p.other).Inv (s p) := fun p => by
    have := hs p.other
    rwa [Peer.other_other] at this
  cases a with
  | call p funname args callback =>
    rw [act, Endpoint.call_eq] at h
    split at h
    · cases h
    · cases h
      exact inv_send ((hs p).writeLastArg (hids p) callback rfl)
        (((hinv p).post_call _).writeLastArg_callee callback)
  | reply p reqid args callback =>
    rw [act] at h
    split at h
    · rename_i hmem
      cases h
      have hissuer := (hs p).writeLastArg (hids p) callback
        (m := .rpcReply ((s p).reply reqid args callback).1) rfl
      have hcallee := (hinv p).writeLastArg_callee callback
      obtain ⟨-, hreceived, -⟩ := Endpoint.callee_writeLastArg (e := s p) callback
      refine inv_send { hissuer with } ?_
      exact hcallee.reply (hreceived ▸ hmem) args _
    · cases h
  | handleRpc p i =>
    obtain ⟨m, hm, rfl⟩ := Option.map_eq_some_iff.mp h
    exact inv_update ((hs p).handleRpc hm) ((hinv p).handleRpc_callee hm)
  | finishReply p =>
    obtain ⟨reqid, hhead, rfl⟩ := Option.map_eq_some_iff.mp h
    have hreqid : reqid ≠ -1 := fun heq => ha (heq ▸ hhead)
    obtain ⟨r, hr, -⟩ := (hs p).table_of_running hreqid (List.mem_of_mem_head? hhead)
    refine inv_update ((hs p).finishReply hreqid hhead) ?_
    rw [Endpoint.finishReply_of_some hr]
    exact { hinv p with }

/-- The reply to a call without a callback erases what is not in the table. -/
theorem fault_of_not_answersCallback (fns : Functions α κ) (hs : s.Inv) {a : Action α κ}
    (ha : ¬ s.AnswersCallback a) :
    ∃ t, s.step fns a = some t ∧ (t a.peer).fault = true := by
  cases a with
  | finishReply p =>
    have hhead : (s p).running.head? = some (-1) := not_not.mp ha
    refine ⟨Function.update s p ((s p).finishReply (-1)), ?_, ?_⟩
    · rw [step, if_neg (by simp [Action.peer, (hs p).noFault]), act, hhead, Option.map_some]
    · rw [Action.peer, Function.update_self]
      exact Endpoint.finishReply_of_none (hs p).table_neg_one
  | call => exact absurd trivial ha
  | reply => exact absurd trivial ha
  | handleRpc => exact absurd trivial ha

/-- A run keeps calls and replies correlated exactly if no reply to a call without a callback
is brought to its end in it. -/
theorem always_correlated_iff (fns : Functions α κ) (as : List (Action α κ))
    (hids : Transition.Throughout (step fns) (fun s _ => s.IdsLeft) init as) :
    Transition.Always (step fns) (fun s => ∀ p, (s p).Correlated (s p.other)) init as ↔
      Transition.Throughout (step fns) AnswersCallback init as := by
  refine Transition.always_iff_throughout (I := Inv) ?_ ?_ ?_ inv_init hids
  · exact fun s hs p => (hs p).correlated
  · intro s a t hs hleft ha ht
    rw [step] at ht
    split at ht
    · cases ht
    · exact inv_act hs hleft ha ht
  · intro s a hs _ ha
    obtain ⟨t, ht, hfault⟩ := fault_of_not_answersCallback fns hs ha
    refine ⟨t, ht, fun hcorrelated => ?_⟩
    have := (hcorrelated a.peer).noFault
    rw [hfault] at this
    cases this

/-! ## A call with a callback and one without -/

/-- Every name is defined, and every callback reads its arguments. -/
def anyFunctions : Functions ℕ Unit := ⟨fun _ _ _ => true, fun _ _ => true⟩

/-- `a` calls `add`, whose function replies with the sum under the id it was given. -/
def addRun (callback : Option Unit) (reqid : ℤ) : List (Action ℕ Unit) :=
  [.call .a "add" 3 callback, .handleRpc .b 0, .reply .b reqid 3 none, .handleRpc .a 0,
    .finishReply .a]

instance (P : Peer → Prop) [Decidable (P .a)] [Decidable (P .b)] : Decidable (∀ p, P p) :=
  decidable_of_iff (P .a ∧ P .b) ⟨fun h p => by cases p <;> [exact h.1; exact h.2],
    fun h => ⟨h .a, h .b⟩⟩

instance (s : Peers α κ) : Decidable s.IdsLeft :=
  inferInstanceAs (Decidable (∀ p, (s p).mNextID < 2 ^ 31 - 1))

/-- A call of `add` with a callback. -/
theorem always_correlated_iff_addRun :
    Transition.Always (step anyFunctions) (fun s => ∀ p, (s p).Correlated (s p.other)) init
        (addRun (some ()) 1) ↔
      Transition.Throughout (step anyFunctions) AnswersCallback init (addRun (some ()) 1) :=
  always_correlated_iff anyFunctions (addRun (some ()) 1) (by decide)

/-- The reply to a call of `add` without a callback breaks the table of the caller. -/
theorem reply_without_callback :
    Transition.Throughout (step anyFunctions) (fun s _ => s.IdsLeft) init (addRun none (-1)) ∧
      ¬ Transition.Always (step anyFunctions) (fun s => ∀ p, (s p).Correlated (s p.other)) init
        (addRun none (-1)) := by
  have hfault : (Transition.exec (step anyFunctions) init (addRun none (-1))).map
      (fun s => (s .a).fault) = some true := by decide
  obtain ⟨t, ht, hfault⟩ := Option.map_eq_some_iff.mp hfault
  refine ⟨by decide, fun h => ?_⟩
  have hok := (h.last ht .a).noFault
  rw [hfault] at hok
  cases hok

end Peers
end Netxy.Rpc
