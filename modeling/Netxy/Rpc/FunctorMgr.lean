import Netxy.Rpc.RpcService

/-!
# The function tables of an `RpcService` under messages of any peer

A `BaseFunctorMgr` keeps three maps by name. `execute` looks a name up, and `rpc_reply` looks
one name up and deletes another; both names come from the peer. A failed assertion is counted
in `assertHits` and passed, as in a build without assertions; the erasing of an end iterator
sets `endErased`, and what would follow from it is left out.
-/

namespace Netxy.Rpc

/-- `BaseFunctorMgr`. `τ` is what a parameter list `Args...` can be, and stands for the two
functions made of it, `Decode::Invoke<Args...>::invoke` and `VariadicArgFunctor<Args...>::destroy`;
`φ` are the function objects. A pointer is `none` for null. -/
structure FunctorMgr (τ φ : Type*) where
  mWrapFunctions : String → Option τ
  mRealFunctionPtr : String → Option (Option φ)
  mDestroyFunctions : String → Option τ

namespace FunctorMgr
variable {τ φ : Type*}

def empty : FunctorMgr τ φ where
  mWrapFunctions := fun _ => none
  mRealFunctionPtr := fun _ => none
  mDestroyFunctions := fun _ => none

/-- `_insertFunction`, behind its assertion. -/
def insertFunction (m : FunctorMgr τ φ) (name : String) (Args : τ) (obj : φ) :
    FunctorMgr τ φ where
  mWrapFunctions := Function.update m.mWrapFunctions name (some Args)
  mRealFunctionPtr := Function.update m.mRealFunctionPtr name (some (some obj))
  mDestroyFunctions := Function.update m.mDestroyFunctions name (some Args)

/-- `del`; `none` where an end iterator is erased. -/
def del (m : FunctorMgr τ φ) (name : String) : Option (FunctorMgr τ φ) :=
  match m.mRealFunctionPtr name, m.mDestroyFunctions name with
  | some _, some _ =>
    some
      { mWrapFunctions := Function.update m.mWrapFunctions name none
        mRealFunctionPtr := Function.update m.mRealFunctionPtr name none
        mDestroyFunctions := Function.update m.mDestroyFunctions name none }
  | _, _ => none

/-- `mRealFunctionPtr[name]`, which puts a null pointer where nothing was. -/
def realFunction (m : FunctorMgr τ φ) (name : String) : Option φ × FunctorMgr τ φ :=
  match m.mRealFunctionPtr name with
  | some obj => (obj, m)
  | none =>
    (none, { m with mRealFunctionPtr := Function.update m.mRealFunctionPtr name (some none) })

/-- The three maps have the same keys. -/
structure KeysAgree (m : FunctorMgr τ φ) : Prop where
  real : ∀ name, (m.mRealFunctionPtr name).isSome = (m.mWrapFunctions name).isSome
  destroy : ∀ name, (m.mDestroyFunctions name).isSome = (m.mWrapFunctions name).isSome

theorem keysAgree_empty : (empty : FunctorMgr τ φ).KeysAgree := ⟨fun _ => rfl, fun _ => rfl⟩

theorem isSome_update {β γ : Type*} {f : String → Option β} {g : String → Option γ}
    (h : ∀ name, (f name).isSome = (g name).isSome) {x : Option β} {y : Option γ}
    (hxy : x.isSome = y.isSome) (name name' : String) :
    (Function.update f name x name').isSome = (Function.update g name y name').isSome := by
  by_cases hname : name' = name
  · rw [hname, Function.update_self, Function.update_self, hxy]
  · rw [Function.update_of_ne hname, Function.update_of_ne hname, h]

variable {m : FunctorMgr τ φ}

theorem KeysAgree.insertFunction (h : m.KeysAgree) (name : String) (Args : τ) (obj : φ) :
    (m.insertFunction name Args obj).KeysAgree :=
  ⟨isSome_update h.real rfl name, isSome_update h.destroy rfl name⟩

theorem KeysAgree.of_del (h : m.KeysAgree) {name : String} {m' : FunctorMgr τ φ}
    (hdel : m.del name = some m') : m'.KeysAgree := by
  unfold del at hdel
  split at hdel
  · cases hdel
    exact ⟨isSome_update h.real rfl name, isSome_update h.destroy rfl name⟩
  · cases hdel

/-- No end iterator is erased exactly if the name is there. -/
theorem KeysAgree.del_isSome (h : m.KeysAgree) (name : String) :
    (m.del name).isSome = (m.mWrapFunctions name).isSome := by
  have hreal := h.real name
  have hdestroy := h.destroy name
  unfold del
  split
  · rename_i hr hd
    rw [← hreal, hr]
    rfl
  · rename_i hnone
    rcases hw : m.mWrapFunctions name with _ | Args
    · rfl
    · rw [hw] at hreal hdestroy
      -- the name has a function but not both of the others, which the agreement excludes
      obtain ⟨obj, hr⟩ := Option.isSome_iff_exists.mp hreal
      obtain ⟨Args', hd⟩ := Option.isSome_iff_exists.mp hdestroy
      exact absurd hd (hnone obj Args' hr)

theorem KeysAgree.realFunction (h : m.KeysAgree) {name : String} {Args : τ}
    (hw : m.mWrapFunctions name = some Args) : (m.realFunction name).2 = m := by
  have hreal := h.real name
  unfold FunctorMgr.realFunction
  split
  · rfl
  · rename_i hr
    rw [hr, hw] at hreal
    cases hreal

end FunctorMgr

/-- A function object of `mRpcFunctions`: the one of the constructor, or one of the user. -/
inductive RpcFunction (φ : Type*)
  | rpcReply
  | user (f : φ)

/-- The reading of arguments, which `α` are. -/
structure ArgReader (τ α : Type*) where
  /-- the parameters of `rpc_reply` -/
  rpcReplyArgs : τ
  /-- `Eval::eval` of the arguments throws nothing -/
  reads : τ → α → Bool
  /-- `req_id` and `response` of `rpc_reply`, and of the response the id, the name and the
  arguments, unless they cannot be read -/
  replyOf : α → ℤ × Option (Packet α)

/-- An `RpcService`. -/
structure Service (τ φ κ : Type*) where
  mResponseCallbacks : FunctorMgr τ κ
  mRpcFunctions : FunctorMgr τ (RpcFunction φ)
  mNextID : ℤ
  /-- `req_id` of the `rpc_reply` calls whose callback is being run, the innermost first -/
  running : List ℤ
  assertHits : ℕ
  endErased : Bool

namespace Service
variable {τ φ κ α : Type*}

/-- `def`. -/
def define (s : Service τ φ κ) (funname : String) (Args : τ) (f : RpcFunction φ) :
    Service τ φ κ :=
  { s with
    assertHits := s.assertHits + (s.mRpcFunctions.mWrapFunctions funname).isSome.toNat
    mRpcFunctions := s.mRpcFunctions.insertFunction funname Args f }

/-- The constructor. -/
def init (reader : ArgReader τ α) : Service τ φ κ :=
  { mResponseCallbacks := .empty
    mRpcFunctions := .empty
    mNextID := 0
    running := []
    assertHits := 0
    endErased := false : Service τ φ κ }.define RPC_REPLY_STR reader.rpcReplyArgs .rpcReply

/-- `BaseCaller::makeNextID`: the id counts up as a 32-bit `int`. -/
def makeNextID (s : Service τ φ κ) : ℤ := (s.mNextID + 1).bmod (2 ^ 32)

/-- What `call` and `reply` do to the service: a callback that is the last argument is
registered. -/
def call (s : Service τ φ κ) : Option (τ × κ) → Service τ φ κ
  | none => s
  | some (Args, callback) =>
    let name := toString s.makeNextID
    { s with
      mNextID := s.makeNextID
      assertHits := s.assertHits + (s.mResponseCallbacks.mWrapFunctions name).isSome.toNat
      mResponseCallbacks := s.mResponseCallbacks.insertFunction name Args callback }

/-- `mResponseCallbacks.del(std::to_string(req_id))`. -/
def delResponse (s : Service τ φ κ) (req_id : ℤ) : Service τ φ κ :=
  match s.mResponseCallbacks.del (toString req_id) with
  | some m => { s with mResponseCallbacks := m }
  | none => { s with endErased := true }

/-- `handleResponse`, and whether it runs a callback; a response that cannot be read ends in
the `catch`. -/
def handleResponse (reader : ArgReader τ α) (s : Service τ φ κ) :
    Option (Packet α) → Service τ φ κ × Bool
  | none => (s, false)
  | some response =>
    match s.mResponseCallbacks.mWrapFunctions response.funname with
    | none => ({ s with assertHits := s.assertHits + 1 }, false)
    | some Args =>
      let (callback, m) := s.mResponseCallbacks.realFunction response.funname
      ({ s with mResponseCallbacks := m }, callback.isSome && reader.reads Args response.args)

/-- The function of `rpc_reply`. A callback may use the service before the `del` that follows
it, which is left running then. -/
def rpcReply (reader : ArgReader τ α) (s : Service τ φ κ) (req_id : ℤ)
    (response : Option (Packet α)) : Service τ φ κ :=
  match s.handleResponse reader response with
  | (s, true) => { s with running := req_id :: s.running }
  | (s, false) => s.delResponse req_id

/-- `handleRpc`. What a function of the user does with the service comes as steps of its
own. -/
def handleRpc (reader : ArgReader τ α) (s : Service τ φ κ) (message : Packet α) :
    Service τ φ κ :=
  match s.mRpcFunctions.mWrapFunctions message.funname with
  | none => { s with assertHits := s.assertHits + 1 }
  | some Args =>
    let (f, m) := s.mRpcFunctions.realFunction message.funname
    let s := { s with mRpcFunctions := m }
    match f, reader.reads Args message.args with
    | some .rpcReply, true =>
      s.rpcReply reader (reader.replyOf message.args).1 (reader.replyOf message.args).2
    | _, _ => s

inductive Action (τ φ κ α : Type*)
  | define (funname : String) (Args : τ) (f : φ)
  | call (callback : Option (τ × κ))
  | handleRpc (message : Packet α)
  /-- the innermost callback is back, and the rest of its `rpc_reply` is run -/
  | finishReply

def step (reader : ArgReader τ α) (s : Service τ φ κ) : Action τ φ κ α → Option (Service τ φ κ)
  | .define funname Args f => some (s.define funname Args (.user f))
  | .call callback => some (s.call callback)
  | .handleRpc message => some (s.handleRpc reader message)
  | .finishReply =>
    match s.running with
    | [] => none
    | req_id :: running => some ({ s with running }.delResponse req_id)

/-! ## What is claimed -/

def ResponseRegistered (s : Service τ φ κ) (req_id : ℤ) : Prop :=
  (s.mResponseCallbacks.mWrapFunctions (toString req_id)).isSome

/-- No assertion has failed, no end iterator was erased, and the maps of each manager have the
same keys. -/
structure Robust (s : Service τ φ κ) : Prop where
  noAssert : s.assertHits = 0
  noEndErased : s.endErased = false
  response : s.mResponseCallbacks.KeysAgree
  functions : s.mRpcFunctions.KeysAgree

/-- The message is a readable call of `rpc_reply`, as long as that is the constructor's. -/
def RunsReply (reader : ArgReader τ α) (s : Service τ φ κ) (message : Packet α) : Prop :=
  s.mRpcFunctions.mRealFunctionPtr message.funname = some (some .rpcReply) ∧
    ∃ Args, s.mRpcFunctions.mWrapFunctions message.funname = some Args ∧
      reader.reads Args message.args = true

/-- The message names no function; or it is a reply whose id is not registered, and neither is
the name in its response. -/
def MatchesNothing (reader : ArgReader τ α) (s : Service τ φ κ) (message : Packet α) : Prop :=
  s.mRpcFunctions.mWrapFunctions message.funname = none ∨
    (s.RunsReply reader message ∧ ¬ s.ResponseRegistered (reader.replyOf message.args).1 ∧
      ∀ response ∈ (reader.replyOf message.args).2,
        s.mResponseCallbacks.mWrapFunctions response.funname = none)

/-- A message that matches nothing leaves the tables as they are, and erases nothing. -/
def UnmatchedKeeps (reader : ArgReader τ α) (s : Service τ φ κ) (a : Action τ φ κ α) : Prop :=
  ∀ message, a = .handleRpc message → s.MatchesNothing reader message →
    (s.handleRpc reader message).mResponseCallbacks = s.mResponseCallbacks ∧
      (s.handleRpc reader message).mRpcFunctions = s.mRpcFunctions ∧
      (s.handleRpc reader message).endErased = s.endErased

/-- The response runs a callback, which comes before the `del`. -/
def RunsCallback (reader : ArgReader τ α) (s : Service τ φ κ) (response : Packet α) : Prop :=
  (∃ callback, s.mResponseCallbacks.mRealFunctionPtr response.funname = some (some callback)) ∧
    ∃ Args, s.mResponseCallbacks.mWrapFunctions response.funname = some Args ∧
      reader.reads Args response.args = true

/-- Everything a step looks up or deletes is there, and what it registers is not. -/
def Matched (reader : ArgReader τ α) (s : Service τ φ κ) : Action τ φ κ α → Prop
  | .define funname _ _ => s.mRpcFunctions.mWrapFunctions funname = none
  | .call none => True
  | .call (some _) => s.mResponseCallbacks.mWrapFunctions (toString s.makeNextID) = none
  | .handleRpc message =>
    (s.mRpcFunctions.mWrapFunctions message.funname).isSome ∧
      (s.RunsReply reader message →
        (∀ response ∈ (reader.replyOf message.args).2,
          (s.mResponseCallbacks.mWrapFunctions response.funname).isSome) ∧
        ((∃ response ∈ (reader.replyOf message.args).2, s.RunsCallback reader response) ∨
          s.ResponseRegistered (reader.replyOf message.args).1))
  | .finishReply => ∀ req_id ∈ s.running.head?, s.ResponseRegistered req_id

/-! ## One step -/

section Step
variable {s : Service τ φ κ} {reader : ArgReader τ α}

theorem robust_init : (init reader : Service τ φ κ).Robust :=
  ⟨rfl, rfl, FunctorMgr.keysAgree_empty, FunctorMgr.keysAgree_empty.insertFunction _ _ _⟩

theorem hits_eq_zero_iff {β : Type*} {hits : ℕ} (h : hits = 0) (entry : Option β) :
    hits + entry.isSome.toNat = 0 ↔ entry = none := by
  cases entry <;> simp [h]

theorem Robust.define_iff (hs : s.Robust) {funname : String} {Args : τ} {f : RpcFunction φ} :
    (s.define funname Args f).Robust ↔ s.mRpcFunctions.mWrapFunctions funname = none := by
  rw [← hits_eq_zero_iff hs.noAssert]
  refine ⟨fun h => h.noAssert, fun h => ?_⟩
  exact ⟨h, hs.noEndErased, hs.response, hs.functions.insertFunction _ _ _⟩

theorem Robust.call_iff (hs : s.Robust) {Args : τ} {callback : κ} :
    (s.call (some (Args, callback))).Robust ↔
      s.mResponseCallbacks.mWrapFunctions (toString s.makeNextID) = none := by
  rw [← hits_eq_zero_iff hs.noAssert]
  refine ⟨fun h => h.noAssert, fun h => ?_⟩
  exact ⟨h, hs.noEndErased, hs.response.insertFunction _ _ _, hs.functions⟩

theorem Robust.delResponse_iff (hs : s.Robust) {req_id : ℤ} :
    (s.delResponse req_id).Robust ↔ s.ResponseRegistered req_id := by
  unfold ResponseRegistered
  rw [← hs.response.del_isSome, delResponse]
  constructor
  · intro h
    split at h
    · rename_i m hm
      rw [hm]
      rfl
    · cases h.noEndErased
  · intro h
    obtain ⟨m, hm⟩ := Option.isSome_iff_exists.mp h
    rw [hm]
    exact ⟨hs.noAssert, hs.noEndErased, hs.response.of_del hm, hs.functions⟩

/-- Which replies are being run makes no difference. -/
theorem Robust.setRunning (hs : s.Robust) (running : List ℤ) :
    { s with running }.Robust :=
  ⟨hs.noAssert, hs.noEndErased, hs.response, hs.functions⟩

/-- A response that names no callback runs into the assertion, and nothing else is changed. -/
theorem handleResponse_none {response : Packet α}
    (h : s.mResponseCallbacks.mWrapFunctions response.funname = none) :
    s.handleResponse reader (some response) =
      ({ s with assertHits := s.assertHits + 1 }, false) := by
  simp only [handleResponse, h]

/-- A response that names a callback changes nothing itself. -/
theorem Robust.handleResponse_some (hs : s.Robust) (reader : ArgReader τ α)
    {response : Packet α} {Args : τ}
    (h : s.mResponseCallbacks.mWrapFunctions response.funname = some Args) :
    (s.handleResponse reader (some response)).1 = s ∧
      ((s.handleResponse reader (some response)).2 = true ↔ s.RunsCallback reader response) := by
  have hsame := hs.response.realFunction h
  simp only [handleResponse, h, hsame, true_and, Bool.and_eq_true]
  have hreal := hs.response.real response.funname
  rw [h, Option.isSome_some] at hreal
  obtain ⟨obj, hobj⟩ := Option.isSome_iff_exists.mp hreal
  simp only [RunsCallback, h, hobj, FunctorMgr.realFunction, Option.some.injEq, exists_eq_left',
    Option.isSome_iff_exists]

theorem delResponse_assertHits (s : Service τ φ κ) (req_id : ℤ) :
    (s.delResponse req_id).assertHits = s.assertHits := by
  unfold delResponse
  split <;> rfl

theorem Robust.rpcReply_iff (hs : s.Robust) {req_id : ℤ} {response : Option (Packet α)} :
    (s.rpcReply reader req_id response).Robust ↔
      (∀ r ∈ response, (s.mResponseCallbacks.mWrapFunctions r.funname).isSome) ∧
        ((∃ r ∈ response, s.RunsCallback reader r) ∨ s.ResponseRegistered req_id) := by
  cases response with
  | none =>
    have hdel : s.rpcReply reader req_id none = s.delResponse req_id := rfl
    rw [hdel, hs.delResponse_iff]
    simp
  | some r =>
    simp only [Option.mem_some_iff, forall_eq', exists_eq_left']
    rcases hw : s.mResponseCallbacks.mWrapFunctions r.funname with _ | Args
    · -- `execute` finds no callback: its assertion fails, whatever `del` does
      rw [rpcReply, handleResponse_none hw]
      refine iff_of_false (fun h => ?_) (fun h => by cases h.1)
      have hhits := h.noAssert
      rw [delResponse_assertHits, hs.noAssert] at hhits
      cases hhits
    · obtain ⟨hsame, hruns⟩ := hs.handleResponse_some reader hw
      rw [rpcReply]
      simp only [Option.isSome_some, true_and]
      rcases hres : s.handleResponse reader (some r) with ⟨s', ran⟩
      rw [hres] at hsame hruns
      subst hsame
      cases ran with
      | true =>
        -- the callback is run, and `del` comes later
        exact iff_of_true (hs.setRunning _) (Or.inl (hruns.mp rfl))
      | false =>
        have hnot : ¬ s'.RunsCallback reader r := fun h => Bool.false_ne_true (hruns.mpr h)
        rw [or_iff_right hnot]
        exact hs.delResponse_iff

/-- A message that names a function and is no reply changes nothing itself. -/
theorem Robust.handleRpc_eq (hs : s.Robust) {message : Packet α}
    (h : (s.mRpcFunctions.mWrapFunctions message.funname).isSome)
    (hreply : ¬ s.RunsReply reader message) : s.handleRpc reader message = s := by
  obtain ⟨Args, hw⟩ := Option.isSome_iff_exists.mp h
  have hsame := hs.functions.realFunction hw
  have hreal := hs.functions.real message.funname
  rw [hw, Option.isSome_some] at hreal
  obtain ⟨obj, hobj⟩ := Option.isSome_iff_exists.mp hreal
  simp only [handleRpc, hw, FunctorMgr.realFunction, hobj]
  split
  · rename_i hread
    exact absurd ⟨hobj, Args, hw, hread⟩ hreply
  · rfl

theorem handleRpc_of_runsReply {message : Packet α} (hreply : s.RunsReply reader message) :
    s.handleRpc reader message =
      s.rpcReply reader (reader.replyOf message.args).1 (reader.replyOf message.args).2 := by
  obtain ⟨hobj, Args, hw, hread⟩ := hreply
  simp only [handleRpc, hw, FunctorMgr.realFunction, hobj, hread]

theorem Robust.handleRpc_iff (hs : s.Robust) {message : Packet α} :
    (s.handleRpc reader message).Robust ↔ s.Matched reader (.handleRpc message) := by
  rw [Matched]
  by_cases hsome : (s.mRpcFunctions.mWrapFunctions message.funname).isSome
  · by_cases hreply : s.RunsReply reader message
    · rw [handleRpc_of_runsReply hreply, hs.rpcReply_iff]
      simp only [hsome, hreply, true_and, forall_const]
    · rw [hs.handleRpc_eq hsome hreply]
      exact iff_of_true hs ⟨hsome, fun h => absurd h hreply⟩
  · -- the assertion of `execute` fails for a name that is not registered
    refine iff_of_false (fun h => ?_) fun h => hsome h.1
    have hhits := h.noAssert
    rw [Option.not_isSome_iff_eq_none] at hsome
    simp only [handleRpc, hsome, hs.noAssert] at hhits
    cases hhits

/-- A step stays robust exactly if it is matched. -/
theorem Robust.step_iff (hs : s.Robust) {a : Action τ φ κ α} {t : Service τ φ κ}
    (ht : step reader s a = some t) : t.Robust ↔ s.Matched reader a := by
  cases a with
  | define funname Args f =>
    cases ht
    exact hs.define_iff
  | call callback =>
    cases ht
    cases callback with
    | none => exact iff_of_true hs trivial
    | some callback => exact hs.call_iff
  | handleRpc message =>
    cases ht
    exact hs.handleRpc_iff
  | finishReply =>
    rw [step] at ht
    split at ht
    · cases ht
    · rename_i req_id running hrunning
      cases ht
      -- the callback is back, and only now the handler deletes it
      rw [(hs.setRunning running).delResponse_iff, Matched, hrunning]
      simp only [List.head?_cons, Option.mem_some_iff, forall_eq']
      rfl

/-- Only a matched step is not enabled. -/
theorem matched_of_step_eq_none {a : Action τ φ κ α} (h : step reader s a = none) :
    s.Matched reader a := by
  cases a with
  | define | call | handleRpc => cases h
  | finishReply =>
    rw [step] at h
    split at h
    · rename_i hrunning
      rw [Matched, hrunning]
      exact fun _ h => by cases h
    · cases h

theorem not_matched_of_matchesNothing {message : Packet α}
    (h : s.MatchesNothing reader message) : ¬ s.Matched reader (.handleRpc message) := by
  intro hm
  rcases h with hnone | ⟨hreply, hid, hresponse⟩
  · rw [Matched, hnone] at hm
    cases hm.1
  · obtain ⟨-, hruns | hreg⟩ := hm.2 hreply
    · obtain ⟨r, hr, -, Args, hw, -⟩ := hruns
      rw [hresponse r hr] at hw
      cases hw
    · exact hid hreg

end Step

/-! ## Runs -/

theorem always_robust_iff (reader : ArgReader τ α) (actions : List (Action τ φ κ α)) :
    Transition.Always (step reader) Robust (init reader) actions ↔
      Transition.Throughout (step reader) (Matched reader) (init reader) actions := by
  refine Transition.always_iff_throughout (W := fun _ _ => True) (fun _ hs => hs) ?_ ?_
    robust_init (Transition.throughout_of_forall (fun _ _ => trivial) _ _)
  · exact fun s a t hs _ ha ht => (hs.step_iff ht).mpr ha
  · intro s a hs _ ha
    rcases ht : step reader s a with _ | t
    · exact absurd (matched_of_step_eq_none ht) ha
    · exact ⟨t, rfl, fun h => ha ((hs.step_iff ht).mp h)⟩

/-- **When a service bears its peers.** The tables hold, no assertion fails and messages that
match nothing change nothing in a run exactly if whatever its steps look up or delete is
there, and whatever they register is not. -/
theorem survives_iff_matched (reader : ArgReader τ α) (actions : List (Action τ φ κ α)) :
    (Transition.Always (step reader) Robust (init reader) actions ∧
      Transition.Throughout (step reader) (UnmatchedKeeps reader) (init reader) actions) ↔
    Transition.Throughout (step reader) (Matched reader) (init reader) actions := by
  rw [always_robust_iff]
  refine ⟨And.left, fun h => ⟨h, ?_⟩⟩
  refine h.imp fun s a ha => ?_
  rintro message rfl hnothing
  exact absurd ha (not_matched_of_matchesNothing hnothing)

/-- A reply that nobody waits for, to a service in its first state. -/
theorem not_survives :
    ¬ ∀ (reader : ArgReader Unit Unit) (actions : List (Action Unit Unit Unit Unit)),
      Transition.Always (step reader) Robust (init reader) actions ∧
        Transition.Throughout (step reader) (UnmatchedKeeps reader) (init reader) actions := by
  intro h
  let reader : ArgReader Unit Unit := ⟨(), fun _ _ => true, fun _ => (1, some ⟨-1, "1", ()⟩)⟩
  have hlast := (h reader [.handleRpc ⟨-1, RPC_REPLY_STR, ()⟩]).1.2 _ rfl
  exact absurd hlast.noEndErased (by decide)

end Service
end Netxy.Rpc
