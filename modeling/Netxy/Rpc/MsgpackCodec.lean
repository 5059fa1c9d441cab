import Netxy.Lib.OrderedMap
import Netxy.Rpc.MsgpackRpc

/-!
# What `Caller::call` writes and a handler reads

The arguments of a call as `ValueWrite::write` puts them into a buffer, and `ValueRead::read` on
the other side, into default-constructed values. A value of Msgpack's own is packed and unpacked
by the library; a vector and a map stand behind their size, and the elements of a tuple one
behind the other.
-/

namespace Netxy.Rpc

/-- The scalar types, and `std::string`. A floating-point number is its bits. -/
inductive ScalarType : Type → Type 1
  | int (t : IntTy) : ScalarType t.Val
  | bool : ScalarType Bool
  | float : ScalarType (BitVec 32)
  | double : ScalarType (BitVec 64)
  | string : ScalarType (List UInt8)

def ScalarType.fresh : {α : Type} → ScalarType α → α
  | _, .int t => t.fresh
  | _, .bool => false
  | _, .float => 0
  | _, .double => 0
  | _, .string => []

/-- The packing of scalars, and the conversions that `Msgpack` leaves out. -/
structure MsgpackCodec (mp : Msgpack) where
  convertBool : mp.Object → Option Bool
  convertFloat : mp.Object → Option (BitVec 32)
  convertDouble : mp.Object → Option (BitVec 64)
  /-- `msgpack::pack` -/
  pack : {α : Type} → ScalarType α → α → List UInt8

/-- `std::less` of the keys of a map, of which nothing is used but that it is an order. -/
structure KeyOrder (κ : Type) where
  less : κ → κ → Prop
  [decidable : DecidableRel less]
  [strict : IsStrictOrder κ less]

instance {κ : Type} (order : KeyOrder κ) : DecidableRel order.less := order.decidable

instance {κ : Type} (order : KeyOrder κ) : IsStrictOrder κ order.less := order.strict

mutual

/-- The types of arguments and their values. -/
inductive ArgType : Type → Type 1
  | scalar {α : Type} (s : ScalarType α) : ArgType α
  | vector {α : Type} (t : ArgType α) : ArgType (List α)
  | map {κ α : Type} (key : ArgType κ) (t : ArgType α) (order : KeyOrder κ) :
    ArgType (OrderedMap.Map order.less α)
  | tuple {α : Type} (ts : ArgTuple α) : ArgType α

/-- The element types of a tuple, as `TupleRead` and `TupleWrite` take it apart. -/
inductive ArgTuple : Type → Type 1
  | one {α : Type} (t : ArgType α) : ArgTuple α
  | snoc {α β : Type} (ts : ArgTuple α) (t : ArgType β) : ArgTuple (α × β)

end

mutual

/-- A default-constructed value. -/
def ArgType.fresh : {α : Type} → ArgType α → α
  | _, .scalar s => s.fresh
  | _, .vector _ => []
  | _, .map _ _ _ => .empty
  | _, .tuple ts => ts.fresh

def ArgTuple.fresh : {α : Type} → ArgTuple α → α
  | _, .one t => t.fresh
  | _, .snoc ts t => (ts.fresh, t.fresh)

end

mutual

/-- Every vector and every map in the value has fewer than `2 ^ 31` elements. -/
def ArgType.SizesFit : {α : Type} → ArgType α → α → Prop
  | _, .scalar _, _ => True
  | _, .vector t, value => value.length < 2 ^ 31 ∧ ∀ v ∈ value, t.SizesFit v
  | _, .map key t _, value =>
    value.entries.length < 2 ^ 31 ∧ ∀ e ∈ value.entries, key.SizesFit e.1 ∧ t.SizesFit e.2
  | _, .tuple ts, value => ts.SizesFit value

def ArgTuple.SizesFit : {α : Type} → ArgTuple α → α → Prop
  | _, .one t, value => t.SizesFit value
  | _, .snoc ts t, (values, value) => ts.SizesFit values ∧ t.SizesFit value

end

/-- The cast to `int32_t`. -/
def int32 (n : ℕ) : IntTy.int.Val :=
  ⟨(n : ℤ).bmod (2 ^ 32), by
    have hmin := Int.le_bmod (x := n) (m := 2 ^ 32) (by decide)
    have hmax := Int.bmod_lt (x := n) (m := 2 ^ 32) (by decide)
    simp only [IntTy.min, IntTy.max, IntTy.signed, IntTy.bits, if_true]
    omega⟩

namespace MsgpackCodec
variable {mp : Msgpack} (codec : MsgpackCodec mp)

/-- `convert` -/
def convert : {α : Type} → ScalarType α → mp.Object → Option α
  | _, .int t => mp.convertInt t
  | _, .bool => codec.convertBool
  | _, .float => codec.convertFloat
  | _, .double => codec.convertDouble
  | _, .string => mp.convertString

/-! ## Writing -/

/-- `write(sbuf, (int32_t)value.size())` -/
def writeLen (n : ℕ) : List UInt8 := codec.pack (.int .int) (int32 n)

mutual

/-- `ValueWrite::write` -/
def write : {α : Type} → ArgType α → α → List UInt8
  | _, .scalar s, value => codec.pack s value
  | _, .vector t, value => codec.writeLen value.length ++ value.flatMap (write t)
  | _, .map key t _, value =>
    codec.writeLen value.entries.length ++
      value.entries.flatMap fun e => write key e.1 ++ write t e.2
  | _, .tuple ts, value => writeTuple ts value

/-- `TupleWrite::write` -/
def writeTuple : {α : Type} → ArgTuple α → α → List UInt8
  | _, .one t, value => write t value
  | _, .snoc ts t, (values, value) => writeTuple ts values ++ write t value

end

/-! ## Reading -/

/-- The key and the value of an entry are read, and the entry is inserted. -/
def emplaceEntry {κ α : Type} {less : κ → κ → Prop} [DecidableRel less] [IsStrictOrder κ less]
    (readKey : ℕ → κ × Option ℕ) (readValue : ℕ → α × Option ℕ) (off : ℕ)
    (value : OrderedMap.Map less α) : OrderedMap.Map less α × Option ℕ :=
  match readKey off with
  | (key, some off') =>
    match readValue off' with
    | (t, some off'') => (value.emplace key t, some off'')
    | (_, none) => (value, none)
  | (_, none) => (value, none)

/-- `read` of a map: the entries are inserted into what is there. -/
def readMap {κ α : Type} {less : κ → κ → Prop} [DecidableRel less] [IsStrictOrder κ less]
    (mp : Msgpack) (buffer : List UInt8) (readKey : ℕ → κ × Option ℕ)
    (readValue : ℕ → α × Option ℕ) (off : ℕ) (value : OrderedMap.Map less α) :
    OrderedMap.Map less α × Option ℕ :=
  match mp.readLen buffer off with
  | some (len, off') =>
    Msgpack.readLoop buffer.length (emplaceEntry readKey readValue) len off' value
  | none => (value, none)

mutual

/-- `ValueRead::read` into `value`, with the offset behind it unless an exception is thrown. -/
def read (buffer : List UInt8) : {α : Type} → ArgType α → ℕ → α → α × Option ℕ
  | _, .scalar s, off, value => mp.readScalar (codec.convert s) buffer off value
  | _, .vector t, off, value =>
    mp.readVector buffer (fun off => read buffer t off t.fresh) off value
  | _, .map key t _, off, value =>
    readMap mp buffer (fun off => read buffer key off key.fresh)
      (fun off => read buffer t off t.fresh) off value
  | _, .tuple ts, off, value => readTuple buffer ts off value

/-- `TupleRead::read` -/
def readTuple (buffer : List UInt8) : {α : Type} → ArgTuple α → ℕ → α → α × Option ℕ
  | _, .one t, off, value => read buffer t off value
  | _, .snoc ts t, off, (values, value) =>
    match readTuple buffer ts off values with
    | (values', some off') =>
      let (value', end') := read buffer t off' value
      ((values', value'), end')
    | (values', none) => ((values', value), none)

end

/-! ## Calls -/

end MsgpackCodec

/-- The parameters of a handler. -/
inductive ArgList : Type → Type 1
  | nil : ArgList Unit
  | arg {α β : Type} (t : ArgType α) (ps : ArgList β) : ArgList (α × β)
  | requestInfo {β : Type} (ps : ArgList β) : ArgList (IntTy.int.Val × β)

def ArgList.SizesFit : {α : Type} → ArgList α → α → Prop
  | _, .nil, _ => True
  | _, .arg t ps, (value, values) => t.SizesFit value ∧ ps.SizesFit values
  | _, .requestInfo ps, (_, values) => ps.SizesFit values

/-- The arguments with `id` for every `RpcRequestInfo`. -/
def ArgList.withRequestID (id : IntTy.int.Val) : {α : Type} → ArgList α → α → α
  | _, .nil, _ => ()
  | _, .arg _ ps, (value, values) => (value, ps.withRequestID id values)
  | _, .requestInfo ps, (_, values) => (id, ps.withRequestID id values)

namespace MsgpackCodec
variable {mp : Msgpack} (codec : MsgpackCodec mp)

/-- `writeCallArg`; nothing is passed for an `RpcRequestInfo`. -/
def writeCallArg : {α : Type} → ArgList α → α → List UInt8
  | _, .nil, _ => []
  | _, .arg t ps, (value, values) => codec.write t value ++ writeCallArg ps values
  | _, .requestInfo ps, (_, values) => writeCallArg ps values

/-- `Caller::call`; `id` is that of the callback behind the arguments, `-1` without one. -/
def call {α : Type} (id : IntTy.int.Val) (funname : List UInt8) (ps : ArgList α) (args : α) :
    List UInt8 :=
  codec.pack (.int .int) id ++ (codec.pack .string funname ++ codec.writeCallArg ps args)

/-- `HelpEval::eval` from a parameter on. The tuple of a new handler is default-constructed,
which `clear` leaves as it is. -/
def eval (buffer : List UInt8) (mRequestID : IntTy.int.Val) :
    {α : Type} → ArgList α → ℕ → Option α
  | _, .nil, _ => some ()
  | _, .arg t ps, off =>
    match codec.read buffer t off t.fresh with
    | (value, some off') => (eval buffer mRequestID ps off').map fun values => (value, values)
    | (_, none) => none
  | _, .requestInfo ps, off =>
    (eval buffer mRequestID ps off).map fun values => (mRequestID, values)

/-- `FunctionMgr::execute` of a message, as far as a new handler of this name is concerned: the
arguments it is called with, if it is. -/
def execute {α : Type} (name : List UInt8) (ps : ArgList α) (message : List UInt8) : Option α :=
  match mp.readScalar (mp.convertInt .int) message 0 IntTy.int.fresh with
  | (req_id, some off) =>
    match mp.readScalar mp.convertString message off [] with
    | (name', some off') => if name' = name then codec.eval message req_id ps off' else none
    | (_, none) => none
  | (_, none) => none

/-- What is assumed of Msgpack: what it packs is not empty, and is unpacked to the same value
wherever it stands, up to its end. -/
structure Lawful : Prop where
  pack_ne_nil : ∀ {α : Type} (s : ScalarType α) (value : α), codec.pack s value ≠ []
  unpack_pack : ∀ {α : Type} (s : ScalarType α) (value : α) (a r : List UInt8),
    ∃ o, mp.unpack (a ++ codec.pack s value ++ r) a.length =
        some (o, a.length + (codec.pack s value).length) ∧
      codec.convert s o = some value

/-! ## Reading what was written -/

/-- `while (off != size && len > 0)` over the bytes of some elements, none of which is empty. -/
theorem readLoop_of_pieces {σ ε : Type} {buffer : List UInt8}
    (readOne : ℕ → σ → σ × Option ℕ) (bytes : ε → List UInt8) (add : σ → ε → σ) {l : List ε}
    (hne : ∀ e ∈ l, bytes e ≠ [])
    (hread : ∀ e ∈ l, ∀ a r value, buffer = a ++ bytes e ++ r →
      readOne a.length value = (add value e, some (a.length + (bytes e).length)))
    {a r : List UInt8} (hbuffer : buffer = a ++ l.flatMap bytes ++ r) (value : σ) :
    Msgpack.readLoop buffer.length readOne l.length a.length value =
      (l.foldl add value, some (a.length + (l.flatMap bytes).length)) := by
  induction l generalizing a value with
  | nil => rfl
  | cons e es ih =>
    have hsplit : buffer = a ++ bytes e ++ (es.flatMap bytes ++ r) := by
      rw [hbuffer, List.flatMap_cons]
      simp only [List.append_assoc]
    -- an element is still to come, so the offset is not at the end
    have hpos : 0 < (bytes e).length := List.length_pos_iff.mpr (hne e List.mem_cons_self)
    have hoff : a.length ≠ buffer.length := by
      rw [hsplit]
      simp only [List.length_append]
      omega
    have hone := hread e List.mem_cons_self a _ value hsplit
    have hnext := ih (fun x hx => hne x (List.mem_cons_of_mem e hx))
      (fun x hx => hread x (List.mem_cons_of_mem e hx)) (a := a ++ bytes e)
      (by rw [hsplit, List.append_assoc (a ++ bytes e)]) (add value e)
    rw [List.length_cons, Msgpack.readLoop, if_neg hoff]
    simp only [hone]
    rw [← List.length_append, hnext, List.foldl_cons, List.flatMap_cons, List.length_append,
      List.length_append, Nat.add_assoc]

theorem foldl_push {β : Type} (l ret : List β) :
    l.foldl (fun value t => value ++ [t]) ret = ret ++ l := by
  induction l generalizing ret with
  | nil => exact (List.append_nil ret).symm
  | cons t ts ih => rw [List.foldl_cons, ih, List.append_assoc, List.singleton_append]

theorem int32_toNat {n : ℕ} (hn : n < 2 ^ 31) : (int32 n).val.toNat = n := by
  have hcast : (n : ℤ).bmod (2 ^ 32) = n := Int.bmod_eq_of_le (by omega) (by omega)
  simp only [int32, hcast, Int.toNat_natCast]

section Lawful
variable {codec} (h : codec.Lawful) {buffer a r : List UInt8}
include h

theorem Lawful.readScalar {α : Type} (s : ScalarType α) (value init : α)
    (hbuffer : buffer = a ++ codec.pack s value ++ r) :
    mp.readScalar (codec.convert s) buffer a.length init =
      (value, some (a.length + (codec.pack s value).length)) := by
  obtain ⟨o, hunpack, hconvert⟩ := h.unpack_pack s value a r
  rw [Msgpack.readScalar, hbuffer, hunpack]
  simp only [hconvert]

theorem Lawful.readLen {n : ℕ} (hn : n < 2 ^ 31) (hbuffer : buffer = a ++ codec.writeLen n ++ r) :
    mp.readLen buffer a.length = some (n, a.length + (codec.writeLen n).length) := by
  have hread := h.readScalar (.int .int) (int32 n) IntTy.int.fresh hbuffer
  simp only [convert] at hread
  simp only [Msgpack.readLen, hread, int32_toNat hn]
  rfl

theorem Lawful.writeLen_ne_nil (n : ℕ) : codec.writeLen n ≠ [] := h.pack_ne_nil _ _

/-- The size, and the elements behind it. -/
theorem Lawful.readLoop_readLen {σ ε : Type} (readOne : ℕ → σ → σ × Option ℕ)
    (bytes : ε → List UInt8) (add : σ → ε → σ) {l : List ε} (hlen : l.length < 2 ^ 31)
    (hne : ∀ e ∈ l, bytes e ≠ [])
    (hread : ∀ e ∈ l, ∀ a r value, buffer = a ++ bytes e ++ r →
      readOne a.length value = (add value e, some (a.length + (bytes e).length)))
    (hbuffer : buffer = a ++ (codec.writeLen l.length ++ l.flatMap bytes) ++ r) (value : σ) :
    ∃ off, mp.readLen buffer a.length = some (l.length, off) ∧
      Msgpack.readLoop buffer.length readOne l.length off value =
        (l.foldl add value,
          some (a.length + (codec.writeLen l.length ++ l.flatMap bytes).length)) := by
  have hsize : buffer = a ++ codec.writeLen l.length ++ (l.flatMap bytes ++ r) := by
    rw [hbuffer]
    simp only [List.append_assoc]
  have helements : buffer = a ++ codec.writeLen l.length ++ l.flatMap bytes ++ r := by
    rw [hsize, ← List.append_assoc]
  refine ⟨_, h.readLen hlen hsize, ?_⟩
  rw [← List.length_append, readLoop_of_pieces readOne bytes add hne hread helements value,
    List.length_append, List.length_append, Nat.add_assoc]

end Lawful

section Types
variable {codec}

mutual

/-- Every value takes at least one byte. -/
theorem Lawful.write_ne_nil (h : codec.Lawful) : {α : Type} → (t : ArgType α) → (value : α) →
    codec.write t value ≠ []
  | _, .scalar s, value => h.pack_ne_nil s value
  | _, .vector _, _ => List.append_ne_nil_of_left_ne_nil (h.writeLen_ne_nil _) _
  | _, .map _ _ _, _ => List.append_ne_nil_of_left_ne_nil (h.writeLen_ne_nil _) _
  | _, .tuple ts, value => h.writeTuple_ne_nil ts value

theorem Lawful.writeTuple_ne_nil (h : codec.Lawful) : {α : Type} → (ts : ArgTuple α) →
    (value : α) → codec.writeTuple ts value ≠ []
  | _, .one t, value => h.write_ne_nil t value
  | _, .snoc ts _, (values, _) =>
    List.append_ne_nil_of_left_ne_nil (h.writeTuple_ne_nil ts values) _

end

mutual

/-- A value is read from the bytes that were written for it, up to their end. -/
theorem Lawful.read_write (h : codec.Lawful) : {α : Type} → (t : ArgType α) → (value : α) →
    t.SizesFit value → {buffer a r : List UInt8} → buffer = a ++ codec.write t value ++ r →
    codec.read buffer t a.length t.fresh =
      (value, some (a.length + (codec.write t value).length))
  | _, .scalar s, value, _, _, _, _, hbuffer => h.readScalar s value s.fresh hbuffer
  | _, .vector t, value, hfit, buffer, a, r, hbuffer => by
    obtain ⟨hlen, hfit⟩ := hfit
    have hone : ∀ v ∈ value, ∀ a r ret, buffer = a ++ codec.write t v ++ r →
        Msgpack.pushElement (fun off => codec.read buffer t off t.fresh) a.length ret =
          (ret ++ [v], some (a.length + (codec.write t v).length)) := by
      intro v hv a r ret hb
      simp only [Msgpack.pushElement, h.read_write t v (hfit v hv) hb]
    -- the element types are smaller, and a list of them is read by the loop
    obtain ⟨off, hsize, hloop⟩ := h.readLoop_readLen _ _ (fun ret v => ret ++ [v]) hlen
      (fun v _ => h.write_ne_nil t v) hone hbuffer []
    rw [read, Msgpack.readVector, hsize]
    exact hloop.trans (by rw [foldl_push]; rfl)
  | _, .map key t order, value, hfit, buffer, a, r, hbuffer => by
    obtain ⟨hlen, hfit⟩ := hfit
    have hone : ∀ e ∈ value.entries, ∀ a r (ret : OrderedMap.Map order.less _),
        buffer = a ++ (codec.write key e.1 ++ codec.write t e.2) ++ r →
        emplaceEntry (fun off => codec.read buffer key off key.fresh)
            (fun off => codec.read buffer t off t.fresh) a.length ret =
          (ret.emplace e.1 e.2,
            some (a.length + (codec.write key e.1 ++ codec.write t e.2).length)) := by
      intro e he a r ret hb
      -- the value begins where the key ends
      have hkeyAt : buffer = a ++ codec.write key e.1 ++ (codec.write t e.2 ++ r) := by
        rw [hb]
        simp only [List.append_assoc]
      have hvalueAt : buffer = a ++ codec.write key e.1 ++ codec.write t e.2 ++ r := by
        rw [hkeyAt, ← List.append_assoc]
      have hkey := h.read_write key e.1 (hfit e he).1 hkeyAt
      have hvalue := h.read_write t e.2 (hfit e he).2 hvalueAt
      rw [List.length_append] at hvalue
      simp only [emplaceEntry, hkey, hvalue, List.length_append, Nat.add_assoc]
    obtain ⟨off, hsize, hloop⟩ := h.readLoop_readLen _ _
      (fun (ret : OrderedMap.Map order.less _) e => ret.emplace e.1 e.2) hlen
      (fun e _ => List.append_ne_nil_of_left_ne_nil (h.write_ne_nil key e.1) _) hone hbuffer .empty
    rw [read, readMap, hsize]
    exact hloop.trans (by rw [OrderedMap.Map.foldl_emplace]; rfl)
  | _, .tuple ts, value, hfit, _, _, _, hbuffer => h.readTuple_writeTuple ts value hfit hbuffer

theorem Lawful.readTuple_writeTuple (h : codec.Lawful) : {α : Type} → (ts : ArgTuple α) →
    (value : α) → ts.SizesFit value → {buffer a r : List UInt8} →
    buffer = a ++ codec.writeTuple ts value ++ r →
    codec.readTuple buffer ts a.length ts.fresh =
      (value, some (a.length + (codec.writeTuple ts value).length))
  | _, .one t, value, hfit, _, _, _, hbuffer => h.read_write t value hfit hbuffer
  | _, .snoc ts t, (values, value), hfit, buffer, a, r, hbuffer => by
    obtain ⟨htsfit, htfit⟩ := hfit
    -- the last component begins where the others end
    have htsAt : buffer = a ++ codec.writeTuple ts values ++ (codec.write t value ++ r) := by
      rw [hbuffer, writeTuple]
      simp only [List.append_assoc]
    have htAt : buffer = a ++ codec.writeTuple ts values ++ codec.write t value ++ r := by
      rw [htsAt, ← List.append_assoc]
    have hts := h.readTuple_writeTuple ts values htsfit htsAt
    have ht := h.read_write t value htfit htAt
    rw [List.length_append] at ht
    simp only [ArgTuple.fresh, readTuple, hts, ht, writeTuple, List.length_append, Nat.add_assoc]

end

/-- The arguments of a call are read one behind the other. -/
theorem Lawful.eval_writeCallArg (h : codec.Lawful) (id : IntTy.int.Val) : {α : Type} →
    (ps : ArgList α) → (args : α) → ps.SizesFit args → {buffer a r : List UInt8} →
    buffer = a ++ codec.writeCallArg ps args ++ r →
    codec.eval buffer id ps a.length = some (ps.withRequestID id args)
  | _, .nil, _, _, _, _, _, _ => rfl
  | _, .arg t ps, (value, values), hfit, buffer, a, r, hbuffer => by
    have hvalueAt : buffer = a ++ codec.write t value ++ (codec.writeCallArg ps values ++ r) := by
      rw [hbuffer, writeCallArg]
      simp only [List.append_assoc]
    have hvaluesAt : buffer = a ++ codec.write t value ++ codec.writeCallArg ps values ++ r := by
      rw [hvalueAt, ← List.append_assoc]
    have hvalue := h.read_write t value hfit.1 hvalueAt
    have hvalues := h.eval_writeCallArg id ps values hfit.2 hvaluesAt
    rw [List.length_append] at hvalues
    simp only [eval, hvalue, hvalues]
    rfl
  | _, .requestInfo ps, (_, values), hfit, _, _, _, hbuffer => by
    rw [eval, h.eval_writeCallArg id ps values hfit hbuffer]
    rfl

/-- A call is passed on with its arguments. -/
theorem Lawful.execute_call (h : codec.Lawful) {α : Type} (ps : ArgList α) (args : α)
    (hfit : ps.SizesFit args) (id : IntTy.int.Val) (funname : List UInt8) :
    codec.execute funname ps (codec.call id funname ps args) =
      some (ps.withRequestID id args) := by
  have hidAt : codec.call id funname ps args = [] ++ codec.pack (.int .int) id ++
      (codec.pack .string funname ++ codec.writeCallArg ps args) := rfl
  have hnameAt : codec.call id funname ps args = codec.pack (.int .int) id ++
      codec.pack .string funname ++ codec.writeCallArg ps args := by
    rw [call, List.append_assoc]
  have hargsAt : codec.call id funname ps args = codec.pack (.int .int) id ++
      codec.pack .string funname ++ codec.writeCallArg ps args ++ [] := by
    rw [hnameAt, List.append_nil]
  have hid := h.readScalar (.int .int) id IntTy.int.fresh hidAt
  have hname := h.readScalar .string funname [] hnameAt
  have hargs := h.eval_writeCallArg id ps args hfit hargsAt
  rw [List.length_append] at hargs
  simp only [convert, List.length_nil, Nat.zero_add] at hid hname
  simp only [execute, hid, hname, if_true, hargs]

end Types

/-! ## The round trip -/

/-- **Arguments come back.** A value of any type is read from the bytes that were written for
it, wherever they stand, and reading ends where they end; and a handler with the parameters of
a call is called with its arguments. -/
theorem arguments_roundTrip {codec : MsgpackCodec mp} (h : codec.Lawful) :
    (∀ (α : Type) (t : ArgType α) (value : α), t.SizesFit value → ∀ a r : List UInt8,
      codec.read (a ++ codec.write t value ++ r) t a.length t.fresh =
        (value, some (a ++ codec.write t value).length)) ∧
    ∀ (α : Type) (ps : ArgList α) (args : α), ps.SizesFit args →
      ∀ (id : IntTy.int.Val) (funname : List UInt8),
        codec.execute funname ps (codec.call id funname ps args) =
          some (ps.withRequestID id args) := by
  constructor
  · intro α t value hfit a r
    rw [h.read_write t value hfit rfl, List.length_append]
  · exact fun α ps args hfit => h.execute_call ps args hfit

end MsgpackCodec

/-- An object of a Msgpack buffer. -/
inductive PackedObject
  | int (z : ℤ)
  | bool (b : Bool)
  | float (bits : BitVec 32)
  | double (bits : BitVec 64)
  | string (s : List UInt8)

namespace PackedObject

def unary : ℕ → List UInt8
  | 0 => [0]
  | n + 1 => 1 :: unary n

def readUnary : List UInt8 → Option (ℕ × List UInt8)
  | 0 :: r => some (0, r)
  | 1 :: r => (readUnary r).map fun x => (x.1 + 1, x.2)
  | _ => none

theorem readUnary_unary (n : ℕ) (r : List UInt8) : readUnary (unary n ++ r) = some (n, r) := by
  induction n with
  | zero => rfl
  | succ n ih =>
    rw [unary, List.cons_append, readUnary, ih]
    rfl

/-- Msgpack's own bytes for `0` to `127`, booleans and strings of fewer than 32 bytes; a number
in unary stands for the bytes of the rest. -/
def packed : PackedObject → List UInt8
  | int z =>
    if 0 ≤ z ∧ z < 128 then [UInt8.ofNat z.toNat]
    else 0xd3 :: (if z < 0 then 1 else 0) :: unary z.natAbs
  | bool b => [if b then 0xc3 else 0xc2]
  | float bits => 0xca :: unary bits.toNat
  | double bits => 0xcb :: unary bits.toNat
  | string s =>
    if s.length < 32 then UInt8.ofNat (0xa0 + s.length) :: s else 0xdb :: (unary s.length ++ s)

def parse : List UInt8 → Option (PackedObject × List UInt8)
  | [] => none
  | c :: r =>
    if c.toNat < 0x80 then some (int c.toNat, r)
    else if c.toNat < 0xc0 then
      some (string (r.take (c.toNat - 0xa0)), r.drop (c.toNat - 0xa0))
    else if c = 0xc2 then some (bool false, r)
    else if c = 0xc3 then some (bool true, r)
    else if c = 0xd3 then
      (readUnary r.tail).map fun x => (int (if r.head? = some 1 then -x.1 else x.1), x.2)
    else (readUnary r).map fun x =>
      if c = 0xca then (float (BitVec.ofNat 32 x.1), x.2)
      else if c = 0xcb then (double (BitVec.ofNat 64 x.1), x.2)
      else (string (x.2.take x.1), x.2.drop x.1)

theorem parse_packed (o : PackedObject) (r : List UInt8) : parse (o.packed ++ r) = some (o, r) := by
  cases o with
  | int z =>
    rw [packed]
    split
    · rename_i hz
      have hc : (UInt8.ofNat z.toNat).toNat = z.toNat := UInt8.toNat_ofNat_of_lt' (by
        show z.toNat < 2 ^ 8
        omega)
      rw [List.singleton_append, parse, hc, if_pos (by omega), Int.toNat_of_nonneg hz.1]
    · simp only [List.cons_append, parse, List.tail_cons, readUnary_unary, List.head?_cons]
      by_cases hneg : z < 0
      · have habs : -(z.natAbs : ℤ) = z := by omega
        rw [if_pos hneg]
        show some (int (-(z.natAbs : ℤ)), r) = some (int z, r)
        rw [habs]
      · have habs : (z.natAbs : ℤ) = z := by omega
        rw [if_neg hneg]
        show some (int (z.natAbs : ℤ), r) = some (int z, r)
        rw [habs]
  | bool b =>
    cases b <;> rfl
  | float bits =>
    simp [packed, parse, readUnary_unary]
  | double bits =>
    simp [packed, parse, readUnary_unary]
  | string s =>
    rw [packed]
    split
    · rename_i hs
      have hc : (UInt8.ofNat (0xa0 + s.length)).toNat = 0xa0 + s.length :=
        UInt8.toNat_ofNat_of_lt' (by
          show 0xa0 + s.length < 2 ^ 8
          omega)
      rw [List.cons_append, parse, hc, if_neg (by omega), if_pos (by omega),
        Nat.add_sub_cancel_left, List.take_left, List.drop_left]
    · simp [parse, readUnary_unary]

/-- Msgpack with these objects. -/
def msgpack : Msgpack where
  Object := PackedObject
  unpack := fun buffer off =>
    (parse (buffer.drop off)).map fun x => (x.1, buffer.length - x.2.length)
  convertInt := fun t o =>
    match o with
    | int z => if h : t.min ≤ z ∧ z ≤ t.max then some ⟨z, h⟩ else none
    | _ => none
  convertString := fun o =>
    match o with
    | string s => some s
    | _ => none
  Other := Empty
  OtherVal := fun c => c.elim
  decEqOther := fun c => c.elim
  freshOther := fun c => c.elim
  readOther := fun c => c.elim

/-- A scalar as an object. -/
def ofScalar : {α : Type} → ScalarType α → α → PackedObject
  | _, .int _, value => int value.val
  | _, .bool, value => bool value
  | _, .float, value => float value
  | _, .double, value => double value
  | _, .string, value => string value

def codec : MsgpackCodec msgpack where
  convertBool := fun o : PackedObject =>
    match o with
    | bool b => some b
    | _ => none
  convertFloat := fun o : PackedObject =>
    match o with
    | float bits => some bits
    | _ => none
  convertDouble := fun o : PackedObject =>
    match o with
    | double bits => some bits
    | _ => none
  pack := fun s value => (ofScalar s value).packed

theorem codec_lawful : codec.Lawful where
  pack_ne_nil s value := by
    intro hnil
    -- nothing can be parsed of an empty buffer
    have hparse := parse_packed (ofScalar s value) []
    rw [show (ofScalar s value).packed = [] from hnil] at hparse
    cases hparse
  unpack_pack s value a r := by
    refine ⟨ofScalar s value, ?_, ?_⟩
    · have hdrop : (a ++ codec.pack s value ++ r).drop a.length =
          (ofScalar s value).packed ++ r := by
        rw [List.append_assoc, List.drop_left]
        rfl
      simp only [msgpack, hdrop, parse_packed, Option.map_some, List.length_append,
        Nat.add_sub_cancel]
    · cases s with
      | int t => exact dif_pos value.property
      | _ => rfl

end PackedObject

/-- Two numbers for a handler that takes them and an `RpcRequestInfo`. -/
theorem arguments_roundTrip_vector :
    PackedObject.codec.execute [102] (.arg (.vector (.scalar (.int .int))) (.requestInfo .nil))
        (PackedObject.codec.call (int32 7) [102]
          (.arg (.vector (.scalar (.int .int))) (.requestInfo .nil))
          ([int32 1, int32 2], int32 0, ())) =
      some ([int32 1, int32 2], int32 7, ()) :=
  (MsgpackCodec.arguments_roundTrip PackedObject.codec_lawful).2 _
    (.arg (.vector (.scalar (.int .int))) (.requestInfo .nil)) ([int32 1, int32 2], int32 0, ())
    ⟨⟨by decide, fun _ _ => trivial⟩, trivial⟩ (int32 7) [102]

end Netxy.Rpc
