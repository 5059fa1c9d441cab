import Mathlib.Data.Finmap

/-!
# Arguments of a Msgpack request

The arguments of a request are read into the tuple of its handler, which outlives the
request: `eval` clears each element and reads it in place. `std::map` is a finite map, since
`insert` keeps the value of a key that is there.
-/

namespace Netxy.Rpc

/-- The integer types. -/
inductive IntTy
  | char
  | signedChar
  | short
  | int
  | long
  | longLong
  | unsignedChar
  | unsignedShort
  | unsignedInt
  | unsignedLong
  | unsignedLongLong
deriving DecidableEq, Repr

namespace IntTy

def bits : IntTy → ℕ
  | .char | .signedChar | .unsignedChar => 8
  | .short | .unsignedShort => 16
  | .int | .unsignedInt => 32
  | .long | .longLong | .unsignedLong | .unsignedLongLong => 64

def signed : IntTy → Bool
  | .char | .signedChar | .short | .int | .long | .longLong => true
  | .unsignedChar | .unsignedShort | .unsignedInt | .unsignedLong | .unsignedLongLong => false

def min (t : IntTy) : ℤ := if t.signed then -2 ^ (t.bits - 1) else 0

def max (t : IntTy) : ℤ := if t.signed then 2 ^ (t.bits - 1) - 1 else 2 ^ t.bits - 1

/-- The values of the type. -/
def Val (t : IntTy) : Type := { z : ℤ // t.min ≤ z ∧ z ≤ t.max }

instance (t : IntTy) : DecidableEq t.Val :=
  inferInstanceAs (DecidableEq { z : ℤ // t.min ≤ z ∧ z ≤ t.max })

/-- `0` to `127`, which every integer type has. -/
def ofSmall (t : IntTy) (n : ℕ) (hn : n < 128) : t.Val :=
  ⟨n, by cases t <;> simp [min, max, signed, bits] <;> omega⟩

/-- A value for a variable that is not initialised before `read` sets it. -/
def fresh (t : IntTy) : t.Val := t.ofSmall 0 (by decide)

end IntTy

/-- The Msgpack library, and the key and element types other than integers, strings, vectors
and maps. -/
structure Msgpack where
  Object : Type
  /-- the object at an offset and the offset behind it; `none` where `unpack` throws -/
  unpack : List UInt8 → ℕ → Option (Object × ℕ)
  convertInt : (t : IntTy) → Object → Option t.Val
  convertString : Object → Option (List UInt8)
  Other : Type
  OtherVal : Other → Type
  [decEqOther : ∀ c, DecidableEq (OtherVal c)]
  /-- a default-constructed value -/
  freshOther : (c : Other) → OtherVal c
  /-- `read` into a default-constructed value -/
  readOther : (c : Other) → List UInt8 → ℕ → Option (OtherVal c × ℕ)

/-- The types that `ValueRead::read` accepts. -/
inductive Ty (Other : Type)
  | int (t : IntTy)
  | string
  | vector (t : Ty Other)
  | map (key value : Ty Other)
  | other (c : Other)
deriving DecidableEq

namespace Msgpack

variable (mp : Msgpack)

def Val : Ty mp.Other → Type
  | .int t => t.Val
  | .string => List UInt8
  | .vector t => List (Val t)
  | .map key value => Finmap fun _ : Val key => Val value
  | .other c => mp.OtherVal c

def decEqVal : (t : Ty mp.Other) → DecidableEq (mp.Val t)
  | .int t => inferInstanceAs (DecidableEq t.Val)
  | .string => inferInstanceAs (DecidableEq (List UInt8))
  | .vector t =>
    have := decEqVal t
    inferInstanceAs (DecidableEq (List (mp.Val t)))
  | .map key value =>
    have := decEqVal key
    have := decEqVal value
    inferInstanceAs (DecidableEq (Finmap fun _ : mp.Val key => mp.Val value))
  | .other c => mp.decEqOther c

instance (t : Ty mp.Other) : DecidableEq (mp.Val t) := mp.decEqVal t

/-- A default-constructed value. -/
def fresh : (t : Ty mp.Other) → mp.Val t
  | .int t => t.fresh
  | .string => []
  | .vector _ => []
  | .map _ _ => (∅ : Finmap _)
  | .other c => mp.freshOther c

/-- `while (off != size && len > 0)` around `readOne`; what was read before an exception
stays. -/
def readLoop {σ : Type} (size : ℕ) (readOne : ℕ → σ → σ × Option ℕ) :
    ℕ → ℕ → σ → σ × Option ℕ
  | 0, off, value => (value, some off)
  | len + 1, off, value =>
    if off = size then (value, some off)
    else
      match readOne off value with
      | (value', some off') => readLoop size readOne len off' value'
      | (value', none) => (value', none)

/-- `read` of an integer or a string: the value is set, or left alone by an exception. -/
def readScalar {β : Type} (convert : mp.Object → Option β) (buffer : List UInt8) (off : ℕ)
    (value : β) : β × Option ℕ :=
  match mp.unpack buffer off with
  | some (o, off') =>
    match convert o with
    | some v => (v, some off')
    | none => (value, none)
  | none => (value, none)

/-- `int32_t len; read(buffer, size, off, len)` -/
def readLen (buffer : List UInt8) (off : ℕ) : Option (ℕ × ℕ) :=
  match mp.readScalar (mp.convertInt .int) buffer off IntTy.int.fresh with
  | (len, some off') => some (len.val.toNat, off')
  | (_, none) => none

/-- `T t; read(buffer, size, off, t); value.push_back(std::move(t))` -/
def pushElement {β : Type} (readOne : ℕ → β × Option ℕ) (off : ℕ) (value : List β) :
    List β × Option ℕ :=
  match readOne off with
  | (t, some off') => (value ++ [t], some off')
  | (_, none) => (value, none)

/-- `std::map::insert`: a key that is there keeps its value. -/
def mapInsert {κ β : Type} [DecidableEq κ] (value : Finmap fun _ : κ => β) (key : κ) (t : β) :
    Finmap fun _ : κ => β :=
  if key ∈ value then value else value.insert key t

theorem mem_mapInsert {κ β : Type} [DecidableEq κ] (value : Finmap fun _ : κ => β) (key : κ)
    (t : β) : key ∈ mapInsert value key t := by
  unfold mapInsert
  split
  · assumption
  · exact Finmap.mem_insert.mpr (.inl rfl)

/-- The key and the value of an entry are read, and the entry is inserted. -/
def insertEntry {κ β : Type} [DecidableEq κ] (readKey : ℕ → κ × Option ℕ)
    (readValue : ℕ → β × Option ℕ) (off : ℕ) (value : Finmap fun _ : κ => β) :
    Finmap (fun _ : κ => β) × Option ℕ :=
  match readKey off with
  | (key, some off') =>
    match readValue off' with
    | (t, some off'') => (mapInsert value key t, some off'')
    | (_, none) => (value, none)
  | (_, none) => (value, none)

/-- `read` of a vector: the elements are pushed behind what is there. -/
def readVector {β : Type} (buffer : List UInt8) (readOne : ℕ → β × Option ℕ) (off : ℕ)
    (value : List β) : List β × Option ℕ :=
  match mp.readLen buffer off with
  | some (len, off') => readLoop buffer.length (pushElement readOne) len off' value
  | none => (value, none)

/-- `read` of a map: the entries are inserted into what is there. -/
def readMap {κ β : Type} [DecidableEq κ] (buffer : List UInt8) (readKey : ℕ → κ × Option ℕ)
    (readValue : ℕ → β × Option ℕ) (off : ℕ) (value : Finmap fun _ : κ => β) :
    Finmap (fun _ : κ => β) × Option ℕ :=
  match mp.readLen buffer off with
  | some (len, off') => readLoop buffer.length (insertEntry readKey readValue) len off' value
  | none => (value, none)

/-- `ValueRead::read` into `value`, with the offset behind it unless an exception is thrown. -/
def read (buffer : List UInt8) : (t : Ty mp.Other) → ℕ → mp.Val t → mp.Val t × Option ℕ
  | .int t, off, value => mp.readScalar (mp.convertInt t) buffer off value
  | .string, off, value => mp.readScalar mp.convertString buffer off value
  | .vector t, off, value =>
    mp.readVector buffer (fun off => read buffer t off (mp.fresh t)) off value
  | .map key t, off, value =>
    mp.readMap buffer (fun off => read buffer key off (mp.fresh key))
      (fun off => read buffer t off (mp.fresh t)) off value
  | .other c, off, value =>
    match mp.readOther c buffer off with
    | some (v, off') => (v, some off')
    | none => (value, none)

/-- The overloads of `clear`; the last one, for any other type, does nothing. -/
def clear : (t : Ty mp.Other) → mp.Val t → mp.Val t
  | .map (.int .int) _, _ => (∅ : Finmap _)
  | .map .string _, _ => (∅ : Finmap _)
  | .vector _, _ => ([] : List _)
  | _, value => value

end Msgpack

/-- A parameter of a handler; the types that stand for themselves are element and key types
only. -/
inductive Param (Other : Type)
  | value (t : Ty Other) (ht : ∀ c, t ≠ .other c)
  | requestInfo

/-- The parameter is no `std::map` whose key type is neither `int` nor `std::string`. -/
def Param.Cleared {Other : Type} : Param Other → Prop
  | .value (.map key _) _ => key = .int .int ∨ key = .string
  | _ => True

theorem Param.eq_map_of_not_cleared {Other : Type} {p : Param Other} (h : ¬ p.Cleared) :
    ∃ key t ht, p = .value (.map key t) ht ∧ key ≠ .int .int ∧ key ≠ .string := by
  unfold Param.Cleared at h
  split at h
  · rename_i key t ht
    exact ⟨key, t, ht, rfl, not_or.mp h⟩
  · exact absurd trivial h

namespace Msgpack

variable (mp : Msgpack)

/-- `mTuple`, and the arguments of one call. -/
inductive Tuple : List (Param mp.Other) → Type
  | nil : Tuple []
  | value {t : Ty mp.Other} {ht : ∀ c, t ≠ .other c} {ps : List (Param mp.Other)}
    (value : mp.Val t) (rest : Tuple ps) : Tuple (.value t ht :: ps)
  | requestInfo {ps : List (Param mp.Other)} (mRequestID : IntTy.int.Val) (rest : Tuple ps) :
    Tuple (.requestInfo :: ps)

/-- The tuple of a new handler. -/
def freshTuple : (ps : List (Param mp.Other)) → mp.Tuple ps
  | [] => .nil
  | .value t _ :: ps => .value (mp.fresh t) (freshTuple ps)
  | .requestInfo :: ps => .requestInfo ⟨-1, by decide⟩ (freshTuple ps)

/-- `HelpEval::eval` from a parameter on: the tuple it leaves, and the arguments unless an
exception is thrown. An `RpcRequestInfo` is made anew for each request. -/
def eval (buffer : List UInt8) (mRequestID : IntTy.int.Val) :
    {ps : List (Param mp.Other)} → ℕ → mp.Tuple ps → mp.Tuple ps × Option (mp.Tuple ps)
  | _, _, .nil => (.nil, some .nil)
  | .value t _ :: _, off, .value value rest =>
    match mp.read buffer t off (mp.clear t value) with
    | (value', some off') =>
      let (rest', args) := eval buffer mRequestID off' rest
      (.value value' rest', args.map (.value value'))
    | (value', none) => (.value value' rest, none)
  | _, off, .requestInfo info rest =>
    let (rest', args) := eval buffer mRequestID off rest
    (.requestInfo info rest', args.map (.requestInfo mRequestID))

/-- A function that was registered by `def`. -/
structure Handler (ps : List (Param mp.Other)) where
  name : List UInt8
  /-- what the function leaves in the parameters that it takes by reference -/
  leaves : mp.Tuple ps → mp.Tuple ps

variable {mp} {ps : List (Param mp.Other)}

/-- `Decode::Invoke::invoke` -/
def Handler.invoke (h : mp.Handler ps) (id : IntTy.int.Val) (buffer : List UInt8) (off : ℕ)
    (mTuple : mp.Tuple ps) : mp.Tuple ps × Option (mp.Tuple ps) :=
  match mp.eval buffer id off mTuple with
  | (mTuple', some args) => (h.leaves mTuple', some args)
  | (mTuple', none) => (mTuple', none)

/-- `FunctionMgr::execute` of a message, as far as this handler is concerned: what it is left
with, and the arguments it is called with, if it is. -/
def Handler.execute (h : mp.Handler ps) (message : List UInt8) (mTuple : mp.Tuple ps) :
    mp.Tuple ps × Option (mp.Tuple ps) :=
  match mp.readScalar (mp.convertInt .int) message 0 IntTy.int.fresh with
  | (req_id, some off) =>
    match mp.readScalar mp.convertString message off [] with
    | (name, some off') =>
      if name = h.name then h.invoke req_id message off' mTuple else (mTuple, none)
    | (_, none) => (mTuple, none)
  | (_, none) => (mTuple, none)

/-- The tuple after a history of requests. -/
def Handler.after (h : mp.Handler ps) (history : List (List UInt8)) : mp.Tuple ps :=
  history.foldl (fun mTuple message => (h.execute message mTuple).1) (mp.freshTuple ps)

/-- A message is passed on with the same arguments after any two histories. -/
def Handler.Isolated (h : mp.Handler ps) : Prop :=
  ∀ history₁ history₂ message,
    (h.execute message (h.after history₁)).2 = (h.execute message (h.after history₂)).2

/-! ## Cleared parameters -/

/-- An integer or a string is set by `read`, whatever it was. -/
theorem readScalar_congr {β : Type} (convert : mp.Object → Option β) (buffer : List UInt8)
    (off : ℕ) (value₁ value₂ : β) :
    mp.readScalar convert buffer off value₁ = mp.readScalar convert buffer off value₂ ∨
      ((mp.readScalar convert buffer off value₁).2 = none ∧
        (mp.readScalar convert buffer off value₂).2 = none) := by
  unfold readScalar
  split
  · split
    · exact .inl rfl
    · exact .inr ⟨rfl, rfl⟩
  · exact .inr ⟨rfl, rfl⟩

/-- What is read into a cleared value does not depend on what it was, or reading fails. -/
theorem read_clear_congr {t : Ty mp.Other} {ht : ∀ c, t ≠ .other c}
    (h : (Param.value t ht).Cleared) (buffer : List UInt8) (off : ℕ) (value₁ value₂ : mp.Val t) :
    mp.read buffer t off (mp.clear t value₁) = mp.read buffer t off (mp.clear t value₂) ∨
      ((mp.read buffer t off (mp.clear t value₁)).2 = none ∧
        (mp.read buffer t off (mp.clear t value₂)).2 = none) := by
  cases t with
  | int t => exact readScalar_congr _ buffer off value₁ value₂
  | string => exact readScalar_congr _ buffer off value₁ value₂
  | vector t => exact .inl rfl
  | map key t =>
    rcases h with rfl | rfl
    · exact .inl rfl
    · exact .inl rfl
  | other c => exact absurd rfl (ht c)

theorem eval_value {t : Ty mp.Other} {ht : ∀ c, t ≠ .other c} (buffer : List UInt8)
    (mRequestID : IntTy.int.Val) (off : ℕ) (value : mp.Val t) (rest : mp.Tuple ps) :
    mp.eval buffer mRequestID off (.value value rest : mp.Tuple (.value t ht :: ps)) =
      match mp.read buffer t off (mp.clear t value) with
      | (value', some off') =>
        (.value value' (mp.eval buffer mRequestID off' rest).1,
          (mp.eval buffer mRequestID off' rest).2.map (.value value'))
      | (value', none) => (.value value' rest, none) := rfl

/-- The arguments do not depend on the tuple. -/
theorem eval_congr (hps : ∀ p ∈ ps, p.Cleared) (buffer : List UInt8)
    (mRequestID : IntTy.int.Val) (off : ℕ) (mTuple₁ mTuple₂ : mp.Tuple ps) :
    (mp.eval buffer mRequestID off mTuple₁).2 = (mp.eval buffer mRequestID off mTuple₂).2 := by
  induction mTuple₁ generalizing off with
  | nil => cases mTuple₂ with | nil => rfl
  | @value t ht ps value₁ rest₁ ih =>
    cases mTuple₂ with
    | value value₂ rest₂ =>
      have htail := fun off => ih (fun p hp => hps p (List.mem_cons_of_mem _ hp)) off rest₂
      rw [eval_value, eval_value]
      -- a cleared value is read the same into both, or fails in both
      rcases read_clear_congr (hps _ List.mem_cons_self) buffer off value₁ value₂ with
        heq | ⟨hnone₁, hnone₂⟩
      · rw [heq]
        rcases mp.read buffer t off (mp.clear t value₂) with ⟨value', _ | off'⟩
        · rfl
        · simp only [htail off']
      · rcases hread₁ : mp.read buffer t off (mp.clear t value₁) with ⟨value₁', _ | off₁⟩
        · rcases hread₂ : mp.read buffer t off (mp.clear t value₂) with ⟨value₂', _ | off₂⟩
          · rfl
          · simp only [hread₂, reduceCtorEq] at hnone₂
        · simp only [hread₁, reduceCtorEq] at hnone₁
  | requestInfo info₁ rest₁ ih =>
    cases mTuple₂ with
    | requestInfo info₂ rest₂ =>
      have htail := ih (fun p hp => hps p (List.mem_cons_of_mem _ hp)) off rest₂
      exact congrArg (Option.map _) htail

theorem invoke_snd (h : mp.Handler ps) (id : IntTy.int.Val) (buffer : List UInt8) (off : ℕ)
    (mTuple : mp.Tuple ps) :
    (h.invoke id buffer off mTuple).2 = (mp.eval buffer id off mTuple).2 := by
  unfold Handler.invoke
  split
  · rename_i heq
    rw [heq]
  · rename_i heq
    rw [heq]

theorem execute_congr (hps : ∀ p ∈ ps, p.Cleared) (h : mp.Handler ps) (message : List UInt8)
    (mTuple₁ mTuple₂ : mp.Tuple ps) :
    (h.execute message mTuple₁).2 = (h.execute message mTuple₂).2 := by
  unfold Handler.execute
  split
  · rename_i req_id off _
    split
    · rename_i name off' _
      split
      · have hargs := eval_congr hps message req_id off' mTuple₁ mTuple₂
        rwa [invoke_snd, invoke_snd]
      · rfl
    · rfl
  · rfl

/-! ## A parameter that is not cleared -/

/-- What the library does with the shortest Msgpack formats, whatever stands around them, and
that every other type has a value that can be read. -/
structure ReadsFixed (mp : Msgpack) : Prop where
  /-- positive fixint, which every integer type takes -/
  fixint : ∀ n (hn : n < 128) pre post,
    ∃ o, mp.unpack (pre ++ UInt8.ofNat n :: post) pre.length = some (o, pre.length + 1) ∧
      ∀ t, mp.convertInt t o = some (t.ofSmall n hn)
  /-- fixstr -/
  fixstr : ∀ str, str.length < 32 → ∀ pre post,
    ∃ o, mp.unpack (pre ++ UInt8.ofNat (160 + str.length) :: str ++ post) pre.length =
        some (o, pre.length + 1 + str.length) ∧
      mp.convertString o = some str
  other : ∀ c, ∃ bytes v, bytes ≠ [] ∧ ∀ pre post,
    mp.readOther c (pre ++ bytes ++ post) pre.length = some (v, pre.length + bytes.length)

/-- The bytes are read as `after value` into any `value`. -/
def ReadsAs (t : Ty mp.Other) (bytes : List UInt8) (after : mp.Val t → mp.Val t) : Prop :=
  bytes ≠ [] ∧ ∀ pre post value,
    mp.read (pre ++ bytes ++ post) t pre.length value =
      (after value, some (pre.length + bytes.length))

theorem readScalar_of_unpack {β : Type} {convert : mp.Object → Option β} {buffer : List UInt8}
    {off off' : ℕ} {o : mp.Object} {v : β} (value : β)
    (hunpack : mp.unpack buffer off = some (o, off')) (hconvert : convert o = some v) :
    mp.readScalar convert buffer off value = (v, some off') := by
  simp only [readScalar, hunpack, hconvert]

/-- No overload of `clear` but the last one takes the map. -/
theorem clear_map {key t : Ty mp.Other} (hint : key ≠ .int .int) (hstring : key ≠ .string)
    (value : mp.Val (.map key t)) : mp.clear (.map key t) value = value := by
  cases key with
  | int i => cases i <;> first | exact absurd rfl hint | rfl
  | string => exact absurd rfl hstring
  | vector => rfl
  | map => rfl
  | other => rfl

/-- A first parameter that is read, and the others behind it. -/
theorem ReadsAs.eval {t : Ty mp.Other} {ht : ∀ c, t ≠ .other c} {bytes body : List UInt8}
    {after : mp.Val t → mp.Val t} (h : mp.ReadsAs t bytes after) {pre post : List UInt8}
    {id : IntTy.int.Val} {rest rest' args : mp.Tuple ps}
    (hrest : mp.eval (pre ++ bytes ++ body ++ post) id (pre ++ bytes).length rest =
      (rest', some args)) (value : mp.Val t) :
    mp.eval (pre ++ (bytes ++ body) ++ post) id pre.length
        (.value value rest : mp.Tuple (.value t ht :: ps)) =
      (.value (after (mp.clear t value)) rest',
        some (.value (after (mp.clear t value)) args)) := by
  have hread := h.2 pre (body ++ post) (mp.clear t value)
  have hbuffer : pre ++ bytes ++ (body ++ post) = pre ++ (bytes ++ body) ++ post := by
    simp only [List.append_assoc]
  rw [hbuffer] at hread
  rw [List.append_assoc pre bytes body, List.length_append] at hrest
  rw [eval_value, hread]
  simp only [hrest, Option.map_some]

/-- Nothing is read for an `RpcRequestInfo`. -/
theorem eval_requestInfo {buffer : List UInt8} {id : IntTy.int.Val} {off : ℕ}
    {rest rest' args : mp.Tuple ps} (hrest : mp.eval buffer id off rest = (rest', some args))
    (info : IntTy.int.Val) :
    mp.eval buffer id off (.requestInfo info rest : mp.Tuple (.requestInfo :: ps)) =
      (.requestInfo info rest', some (.requestInfo id args)) := by
  rw [Msgpack.eval, hrest]
  rfl

/-- One request leaves a mark in the tuple that another request passes on. -/
def Leaks (ps : List (Param mp.Other)) : Prop :=
  ∃ (marked : mp.Tuple ps → Prop) (marks plain : List UInt8),
    ¬ marked (mp.freshTuple ps) ∧
    (∀ mTuple pre post id, ∃ t args,
      mp.eval (pre ++ marks ++ post) id pre.length mTuple = (t, some args) ∧ marked t) ∧
    ∀ mTuple pre post id, ∃ t args,
      mp.eval (pre ++ plain ++ post) id pre.length mTuple = (t, some args) ∧
        (marked args ↔ marked mTuple)

section Readable
variable (hmp : mp.ReadsFixed)
include hmp

theorem readsAs_int (t : IntTy) {n : ℕ} (hn : n < 128) :
    mp.ReadsAs (.int t) [UInt8.ofNat n] fun _ => t.ofSmall n hn := by
  refine ⟨nofun, fun pre post value => ?_⟩
  obtain ⟨o, hunpack, hconvert⟩ := hmp.fixint n hn pre post
  rw [List.append_assoc, List.singleton_append]
  exact readScalar_of_unpack value hunpack (hconvert t)

theorem readsAs_string {s : List UInt8} (hs : s.length < 32) :
    mp.ReadsAs .string (UInt8.ofNat (160 + s.length) :: s) fun _ => s := by
  refine ⟨nofun, fun pre post value => ?_⟩
  obtain ⟨o, hunpack, hconvert⟩ := hmp.fixstr s hs pre post
  rw [List.length_cons, Nat.add_comm s.length, ← Nat.add_assoc]
  exact readScalar_of_unpack value hunpack hconvert

theorem readLen_small {n : ℕ} (hn : n < 128) (pre post : List UInt8) :
    mp.readLen (pre ++ UInt8.ofNat n :: post) pre.length = some (n, pre.length + 1) := by
  obtain ⟨o, hunpack, hconvert⟩ := hmp.fixint n hn pre post
  have hread := readScalar_of_unpack IntTy.int.fresh hunpack (hconvert .int)
  rw [readLen, hread]
  simp only [IntTy.ofSmall, Int.toNat_natCast]

theorem readVector_nil {β : Type} (readOne : ℕ → β × Option ℕ) (pre post : List UInt8)
    (value : List β) :
    mp.readVector (pre ++ [0] ++ post) readOne pre.length value =
      (value, some (pre.length + 1)) := by
  have hlen : mp.readLen (pre ++ 0 :: post) pre.length = some (0, pre.length + 1) :=
    readLen_small hmp (by decide) pre post
  rw [List.append_assoc, List.singleton_append, readVector, hlen]
  rfl

theorem readMap_nil {κ β : Type} [DecidableEq κ] (readKey : ℕ → κ × Option ℕ)
    (readValue : ℕ → β × Option ℕ) (pre post : List UInt8) (value : Finmap fun _ : κ => β) :
    mp.readMap (pre ++ [0] ++ post) readKey readValue pre.length value =
      (value, some (pre.length + 1)) := by
  have hlen : mp.readLen (pre ++ 0 :: post) pre.length = some (0, pre.length + 1) :=
    readLen_small hmp (by decide) pre post
  rw [List.append_assoc, List.singleton_append, readMap, hlen]
  rfl

theorem readsAs_vector_nil (t : Ty mp.Other) : mp.ReadsAs (.vector t) [0] id :=
  ⟨nofun, fun pre post value => readVector_nil hmp _ pre post value⟩

theorem readsAs_map_nil (key t : Ty mp.Other) : mp.ReadsAs (.map key t) [0] id :=
  ⟨nofun, fun pre post value => readMap_nil hmp _ _ pre post value⟩

/-- Every type has a value that is read. -/
theorem exists_readsAs (t : Ty mp.Other) : ∃ bytes after, mp.ReadsAs t bytes after := by
  cases t with
  | int t => exact ⟨_, _, readsAs_int hmp t (n := 0) (by decide)⟩
  | string => exact ⟨_, _, readsAs_string hmp (s := []) (by decide)⟩
  | vector t => exact ⟨_, _, readsAs_vector_nil hmp t⟩
  | map key t => exact ⟨_, _, readsAs_map_nil hmp key t⟩
  | other c =>
    obtain ⟨bytes, v, hne, hread⟩ := hmp.other c
    refine ⟨bytes, fun _ => v, hne, fun pre post value => ?_⟩
    rw [read, hread]

/-- A map of one entry is inserted into what is there. -/
theorem readMap_singleton {κ β : Type} [DecidableEq κ] (readKey : ℕ → κ × Option ℕ)
    (readValue : ℕ → β × Option ℕ) {keyBytes bytes : List UInt8} (pre post : List UInt8)
    {key : κ} {t : β} (hne : keyBytes ≠ [])
    (hkey : readKey (pre.length + 1) = (key, some (pre.length + 1 + keyBytes.length)))
    (ht : readValue (pre.length + 1 + keyBytes.length) =
      (t, some (pre.length + 1 + keyBytes.length + bytes.length)))
    (value : Finmap fun _ : κ => β) :
    mp.readMap (pre ++ 1 :: (keyBytes ++ bytes) ++ post) readKey readValue pre.length value =
      (mapInsert value key t, some (pre.length + 1 + keyBytes.length + bytes.length)) := by
  have hmore : pre.length + 1 ≠ (pre ++ 1 :: (keyBytes ++ bytes) ++ post).length := by
    have := List.length_pos_iff.mpr hne
    simp only [List.length_append, List.length_cons]
    omega
  have hread : mp.readLen (pre ++ 1 :: (keyBytes ++ bytes) ++ post) pre.length =
      some (1, pre.length + 1) := by
    rw [List.append_assoc]
    exact readLen_small hmp (by decide) pre (keyBytes ++ bytes ++ post)
  rw [readMap, hread]
  simp only [readLoop, if_neg hmore, insertEntry, hkey, ht]

theorem readsAs_map_singleton {key t : Ty mp.Other} {keyBytes bytes : List UInt8}
    {afterKey : mp.Val key → mp.Val key} {after : mp.Val t → mp.Val t}
    (hkey : mp.ReadsAs key keyBytes afterKey) (ht : mp.ReadsAs t bytes after) :
    mp.ReadsAs (.map key t) (1 :: (keyBytes ++ bytes)) fun value =>
      mapInsert value (afterKey (mp.fresh key)) (after (mp.fresh t)) := by
  refine ⟨nofun, fun pre post value => ?_⟩
  have hreadKey := hkey.2 (pre ++ [1]) (bytes ++ post) (mp.fresh key)
  have hread := ht.2 (pre ++ [1] ++ keyBytes) post (mp.fresh t)
  have hbuffer : pre ++ [1] ++ keyBytes ++ bytes ++ post =
      pre ++ 1 :: (keyBytes ++ bytes) ++ post := by
    simp only [List.append_assoc, List.cons_append, List.nil_append]
  rw [← List.append_assoc, hbuffer, List.length_append, List.length_singleton] at hreadKey
  rw [hbuffer, List.length_append, List.length_append, List.length_singleton] at hread
  have hmap := readMap_singleton hmp
    (fun off => mp.read (pre ++ 1 :: (keyBytes ++ bytes) ++ post) key off (mp.fresh key))
    (fun off => mp.read (pre ++ 1 :: (keyBytes ++ bytes) ++ post) t off (mp.fresh t))
    pre post hkey.1 hreadKey hread value
  have hend : pre.length + 1 + keyBytes.length + bytes.length =
      pre.length + (1 :: (keyBytes ++ bytes)).length := by
    rw [List.length_cons, List.length_append]
    omega
  rw [← hend]
  exact hmap

/-- Every list of parameters has arguments that are read. -/
theorem exists_body (ps : List (Param mp.Other)) :
    ∃ body, ∀ (mTuple : mp.Tuple ps) pre post id,
      ∃ t args, mp.eval (pre ++ body ++ post) id pre.length mTuple = (t, some args) := by
  induction ps with
  | nil =>
    refine ⟨[], fun mTuple pre post id => ?_⟩
    cases mTuple with
    | nil => exact ⟨_, _, rfl⟩
  | cons p ps ih =>
    obtain ⟨body, hbody⟩ := ih
    cases p with
    | value t ht =>
      obtain ⟨bytes, after, hbytes⟩ := exists_readsAs hmp t
      refine ⟨bytes ++ body, fun mTuple pre post id => ?_⟩
      cases mTuple with
      | value value rest =>
        obtain ⟨rest', args, hrest⟩ := hbody rest (pre ++ bytes) post id
        exact ⟨_, _, hbytes.eval hrest value⟩
    | requestInfo =>
      refine ⟨body, fun mTuple pre post id => ?_⟩
      cases mTuple with
      | requestInfo info rest =>
        obtain ⟨rest', args, hrest⟩ := hbody rest pre post id
        exact ⟨_, _, eval_requestInfo hrest info⟩

/-- The mark is a key. -/
theorem leaks_map {key t : Ty mp.Other} {ht : ∀ c, Ty.map key t ≠ .other c}
    (hint : key ≠ .int .int) (hstring : key ≠ .string) (ps : List (Param mp.Other)) :
    mp.Leaks (.value (.map key t) ht :: ps) := by
  obtain ⟨keyBytes, afterKey, hkey⟩ := exists_readsAs hmp key
  obtain ⟨bytes, after, hbytes⟩ := exists_readsAs hmp t
  obtain ⟨body, hbody⟩ := exists_body hmp ps
  have hentry := readsAs_map_singleton hmp hkey hbytes
  have hnil := readsAs_map_nil hmp key t
  refine ⟨fun | .value (value : Finmap _) _ => afterKey (mp.fresh key) ∈ value,
    1 :: (keyBytes ++ bytes) ++ body, [0] ++ body, Finmap.notMem_empty, ?_, ?_⟩
  · intro mTuple pre post id
    cases mTuple with
    | value value rest =>
      obtain ⟨rest', args, hrest⟩ := hbody rest (pre ++ 1 :: (keyBytes ++ bytes)) post id
      exact ⟨_, _, hentry.eval hrest value, mem_mapInsert _ _ _⟩
  · intro mTuple pre post id
    cases mTuple with
    | value value rest =>
      obtain ⟨rest', args, hrest⟩ := hbody rest (pre ++ [0]) post id
      refine ⟨_, _, hnil.eval hrest value, ?_⟩
      -- the empty map changes nothing, and neither does `clear`
      rw [clear_map hint hstring]
      rfl

theorem Leaks.cons {ps : List (Param mp.Other)} (h : mp.Leaks ps) (p : Param mp.Other) :
    mp.Leaks (p :: ps) := by
  obtain ⟨marked, marks, plain, hfresh, hmarks, hplain⟩ := h
  cases p with
  | value t ht =>
    obtain ⟨bytes, after, hbytes⟩ := exists_readsAs hmp t
    -- both requests get one more argument in front, which is read either way
    refine ⟨fun | .value _ rest => marked rest, bytes ++ marks, bytes ++ plain, hfresh, ?_, ?_⟩
    · intro mTuple pre post id
      cases mTuple with
      | value value rest =>
        obtain ⟨rest', args, hrest, hmarked⟩ := hmarks rest (pre ++ bytes) post id
        exact ⟨_, _, hbytes.eval hrest value, hmarked⟩
    · intro mTuple pre post id
      cases mTuple with
      | value value rest =>
        obtain ⟨rest', args, hrest, hmarked⟩ := hplain rest (pre ++ bytes) post id
        exact ⟨_, _, hbytes.eval hrest value, hmarked⟩
  | requestInfo =>
    refine ⟨fun | .requestInfo _ rest => marked rest, marks, plain, hfresh, ?_, ?_⟩
    · intro mTuple pre post id
      cases mTuple with
      | requestInfo info rest =>
        obtain ⟨rest', args, hrest, hmarked⟩ := hmarks rest pre post id
        exact ⟨_, _, eval_requestInfo hrest info, hmarked⟩
    · intro mTuple pre post id
      cases mTuple with
      | requestInfo info rest =>
        obtain ⟨rest', args, hrest, hmarked⟩ := hplain rest pre post id
        exact ⟨_, _, eval_requestInfo hrest info, hmarked⟩

theorem leaks_of_not_cleared {ps : List (Param mp.Other)} {p : Param mp.Other} (hp : p ∈ ps)
    (hcleared : ¬ p.Cleared) : mp.Leaks ps := by
  induction ps with
  | nil => cases hp
  | cons q ps ih =>
    rcases List.mem_cons.mp hp with rfl | hp
    · obtain ⟨key, t, ht, rfl, hint, hstring⟩ := Param.eq_map_of_not_cleared hcleared
      exact leaks_map hmp hint hstring ps
    · exact (ih hp).cons hmp q

/-- The header of a request to the handler. -/
theorem execute_header {ps : List (Param mp.Other)} (h : mp.Handler ps)
    (hname : h.name.length < 32) (body : List UInt8) (mTuple : mp.Tuple ps) :
    h.execute (0 :: UInt8.ofNat (160 + h.name.length) :: h.name ++ body) mTuple =
      h.invoke IntTy.int.fresh (0 :: UInt8.ofNat (160 + h.name.length) :: h.name ++ body)
        (h.name.length + 2) mTuple := by
  obtain ⟨o, hid, hconvert⟩ := hmp.fixint 0 (by decide) []
    (UInt8.ofNat (160 + h.name.length) :: h.name ++ body)
  obtain ⟨o', hstr, hconvert'⟩ := hmp.fixstr h.name hname [0] body
  have hread : mp.readScalar (mp.convertInt .int)
      (0 :: UInt8.ofNat (160 + h.name.length) :: h.name ++ body) 0 IntTy.int.fresh =
        (IntTy.int.fresh, some 1) :=
    readScalar_of_unpack _ hid (hconvert .int)
  have hreadName : mp.readScalar mp.convertString
      (0 :: UInt8.ofNat (160 + h.name.length) :: h.name ++ body) 1 [] =
        (h.name, some (1 + 1 + h.name.length)) :=
    readScalar_of_unpack _ hstr hconvert'
  unfold Handler.execute
  simp only [hread, hreadName, if_true]
  rw [Nat.add_comm h.name.length]

/-- A handler that leaves its arguments alone and has a parameter that is not cleared. -/
theorem not_isolated {ps : List (Param mp.Other)} {p : Param mp.Other} (hp : p ∈ ps)
    (hcleared : ¬ p.Cleared) (h : mp.Handler ps) (hname : h.name.length < 32)
    (hleaves : ∀ mTuple, h.leaves mTuple = mTuple) : ¬ h.Isolated := by
  obtain ⟨marked, marks, plain, hfresh, hmarks, hplain⟩ := leaks_of_not_cleared hmp hp hcleared
  let header := 0 :: UInt8.ofNat (160 + h.name.length) :: h.name
  have hexecute (body : List UInt8) (mTuple : mp.Tuple ps) :
      h.execute (header ++ body) mTuple =
        h.invoke IntTy.int.fresh (header ++ body ++ []) header.length mTuple := by
    rw [List.append_nil]
    exact execute_header hmp h hname body mTuple
  -- one history is empty, the other is the request that leaves the mark
  obtain ⟨t, args, heval, hmarked⟩ :=
    hmarks (mp.freshTuple ps) header [] IntTy.int.fresh
  have hafter : h.after [header ++ marks] = t := by
    change (h.execute (header ++ marks) (mp.freshTuple ps)).1 = t
    rw [hexecute, Handler.invoke, heval]
    exact hleaves t
  obtain ⟨t₁, args₁, heval₁, hmarked₁⟩ := hplain t header [] IntTy.int.fresh
  obtain ⟨t₂, args₂, heval₂, hmarked₂⟩ :=
    hplain (mp.freshTuple ps) header [] IntTy.int.fresh
  intro hisolated
  have heq := hisolated [header ++ marks] [] (header ++ plain)
  rw [hafter, hexecute, hexecute, invoke_snd, invoke_snd, heval₁] at heq
  -- the same request would be read with the mark and without it
  have hargs : args₁ = args₂ := Option.some.inj (heq.trans (congrArg Prod.snd heval₂))
  exact hfresh (hmarked₂.mp (hargs ▸ hmarked₁.mpr hmarked))

end Readable

/-- The handlers with these parameters are isolated from their histories exactly if every
`std::map` among the parameters has the key type `int` or `std::string`. -/
theorem isolated_iff (hmp : mp.ReadsFixed) (ps : List (Param mp.Other)) :
    (∀ h : mp.Handler ps, h.Isolated) ↔ ∀ p ∈ ps, p.Cleared := by
  refine ⟨fun h p hp => ?_, fun hps h history₁ history₂ message => ?_⟩
  · by_contra hcleared
    exact not_isolated hmp hp hcleared ⟨[], id⟩ (Nat.zero_lt_succ 31) (fun _ => rfl) (h _)
  · exact execute_congr hps h message _ _

/-! ## A map with keys of type `long` -/

/-- The two formats alone: an object is a positive fixint or a fixstr. -/
def fixedOnly : Msgpack where
  Object := ℕ ⊕ List UInt8
  unpack buffer off :=
    match buffer.drop off with
    | [] => none
    | byte :: rest =>
      if byte.toNat < 128 then some (.inl byte.toNat, off + 1)
      else if 160 ≤ byte.toNat ∧ byte.toNat < 192 ∧ byte.toNat - 160 ≤ rest.length then
        some (.inr (rest.take (byte.toNat - 160)), off + 1 + (byte.toNat - 160))
      else none
  convertInt t
    | .inl n => if hn : n < 128 then some (t.ofSmall n hn) else none
    | .inr _ => none
  convertString
    | .inl _ => none
    | .inr str => some str
  Other := Empty
  OtherVal c := c.elim
  decEqOther c := c.elim
  freshOther c := c.elim
  readOther c := c.elim

theorem fixedOnly_readsFixed : fixedOnly.ReadsFixed where
  fixint n hn pre post := by
    have hbyte : (UInt8.ofNat n).toNat = n :=
      UInt8.toNat_ofNat_of_lt' (lt_trans hn (by decide))
    refine ⟨.inl n, ?_, fun t => dif_pos hn⟩
    simp only [fixedOnly, List.drop_left, hbyte, if_pos hn]
  fixstr str hstr pre post := by
    have hlt : 160 + str.length < 192 := Nat.add_lt_add_left hstr 160
    have hbyte : (UInt8.ofNat (160 + str.length)).toNat = 160 + str.length :=
      UInt8.toNat_ofNat_of_lt' (lt_trans hlt (by decide))
    have hlen : 160 + str.length - 160 = str.length := Nat.add_sub_cancel_left ..
    refine ⟨.inr str, ?_, rfl⟩
    have hpos : 160 ≤ 160 + str.length ∧ 160 + str.length < 192 ∧
        str.length ≤ (str ++ post).length := by
      rw [List.length_append]
      omega
    simp only [fixedOnly, List.append_assoc, List.cons_append, List.drop_left, hbyte, hlen,
      if_neg (show ¬ 160 + str.length < 128 by omega), if_pos hpos, List.take_left]
  other c := c.elim

/-- A handler of one string, which is cleared. -/
theorem isolated_iff_string :
    (∀ h : fixedOnly.Handler [.value .string nofun], h.Isolated) ↔
      ∀ p ∈ [(.value .string nofun : Param fixedOnly.Other)], p.Cleared :=
  isolated_iff fixedOnly_readsFixed [.value .string nofun]

/-- A handler `f` of one `const std::map<long, int>&`. -/
def longMapHandler : fixedOnly.Handler [.value (.map (.int .long) (.int .int)) nofun] :=
  ⟨[102], id⟩

/-- Whether the key `5` is in the map. -/
def hasFive : fixedOnly.Tuple [.value (.map (.int .long) (.int .int)) nofun] → Bool
  | .value (value : Finmap fun _ : IntTy.long.Val => IntTy.int.Val) _ =>
    decide (IntTy.long.ofSmall 5 (by decide) ∈ value)

/-- After a request with the map `5 ↦ 7`, one with an empty map is passed on with the key `5`. -/
theorem longMap_not_isolated : ¬ longMapHandler.Isolated := by
  intro h
  have hargs := congrArg (Option.map hasFive) (h [[1, 161, 102, 1, 5, 7]] [] [1, 161, 102, 0])
  revert hargs
  decide

end Msgpack
end Netxy.Rpc
