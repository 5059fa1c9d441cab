import Mathlib.Order.Defs.Unbundled
import Netxy.Lib.CString
import Netxy.Lib.OrderedMap

/-!
# Arguments of a JSON request

`JsonProtocol::Utils` writes an argument into a document value of rapidjson and reads it back.
A function of rapidjson answers `none` where one of its assertions fails.
-/

namespace Netxy.Rpc

open CString

/-- The part of rapidjson that `Utils` uses. -/
structure Rapidjson where
  Value : Type
  /-- `Value(int)` and `Value(int64_t)` -/
  ofInt : ℤ → Value
  /-- `Value(const Ch*, allocator)`, of a C string -/
  ofString : List UInt8 → Value
  /-- `Value(kArrayType)` -/
  arrayType : Value
  pushBack : Value → Value → Value
  /-- `Value(kObjectType)` -/
  objectType : Value
  /-- `AddMember`, with a C string for the name -/
  addMember : Value → List UInt8 → Value → Value
  getInt : Value → Option ℤ
  getInt64 : Value → Option ℤ
  /-- the bytes that `GetString()` points to -/
  getString : Value → Option (List UInt8)
  /-- `Size()` and `operator[]` -/
  elements : Value → Option (List Value)
  isObject : Value → Bool
  /-- what is between `MemberBegin()` and `MemberEnd()` -/
  members : Value → Option (List (List UInt8 × Value))
  /-- `FindMember`; `none` for `MemberEnd()` -/
  findMember : Value → List UInt8 → Option Value

/-- What rapidjson documents of these functions. -/
structure Rapidjson.Lawful (rj : Rapidjson) : Prop where
  getInt_ofInt : ∀ z, -2 ^ 31 ≤ z → z < 2 ^ 31 → rj.getInt (rj.ofInt z) = some z
  getInt64_ofInt : ∀ z, -2 ^ 63 ≤ z → z < 2 ^ 63 → rj.getInt64 (rj.ofInt z) = some z
  getString_ofString : ∀ s, 0 ∉ s → rj.getString (rj.ofString s) = some s
  elements_arrayType : rj.elements rj.arrayType = some []
  elements_pushBack : ∀ a l v, rj.elements a = some l →
    rj.elements (rj.pushBack a v) = some (l ++ [v])
  members_objectType : rj.members rj.objectType = some []
  members_addMember : ∀ o l name v, rj.members o = some l → 0 ∉ name →
    rj.members (rj.addMember o name v) = some (l ++ [(name, v)])
  isObject_of_members : ∀ o l, rj.members o = some l → rj.isObject o = true
  findMember_of_members : ∀ o l name, rj.members o = some l →
    rj.findMember o name = (l.find? fun m => m.1 = name).map Prod.snd

instance instIsStrictOrderInt32 : IsStrictOrder Int32 (· < ·) where
  irrefl _ := Int32.lt_irrefl
  trans _ _ _ := Int32.lt_trans

instance instIsStrictOrderBytes : IsStrictOrder (List UInt8) (· < ·) where
  irrefl := List.lt_irrefl
  trans _ _ _ := List.lt_trans

/-- `map<int, T>` -/
abbrev IntMap (α : Type) : Type := OrderedMap.Map (fun a b : Int32 => a < b) α

/-- `map<string, T>` -/
abbrev StringMap (α : Type) : Type := OrderedMap.Map (fun a b : List UInt8 => a < b) α

mutual

/-- The types that `Utils` writes and reads, and their values. -/
inductive JsonType : Type → Type 1
  | int8 : JsonType Int8
  | int16 : JsonType Int16
  | int : JsonType Int32
  | int64 : JsonType Int64
  | string : JsonType (List UInt8)
  | vector {α : Type} (t : JsonType α) : JsonType (List α)
  | intMap {α : Type} (t : JsonType α) : JsonType (IntMap α)
  | stringMap {α : Type} (t : JsonType α) : JsonType (StringMap α)
  | tuple {α : Type} (ts : TupleType α) : JsonType α

/-- The element types of a tuple, as `TupleReader` and `TupleWriter` take it apart. -/
inductive TupleType : Type → Type 1
  | one {α : Type} (t : JsonType α) : TupleType α
  | snoc {α β : Type} (ts : TupleType α) (t : JsonType β) : TupleType (α × β)

end

/-- `sizeof...(Args)` -/
def TupleType.size : {α : Type} → TupleType α → ℕ
  | _, .one _ => 1
  | _, .snoc ts _ => ts.size + 1

mutual

/-- A default-constructed value; a number is set before it is used. -/
def JsonType.fresh : {α : Type} → JsonType α → α
  | _, .int8 => 0
  | _, .int16 => 0
  | _, .int => 0
  | _, .int64 => 0
  | _, .string => []
  | _, .vector _ => []
  | _, .intMap _ => .empty
  | _, .stringMap _ => .empty
  | _, .tuple ts => ts.fresh

def TupleType.fresh : {α : Type} → TupleType α → α
  | _, .one t => t.fresh
  | _, .snoc ts t => (ts.fresh, t.fresh)

end

namespace Rapidjson
variable (rj : Rapidjson)

/-- `readJson` of a vector; the elements are pushed behind what is there. -/
def readVector {α : Type} (readOne : rj.Value → Option α) (msg : rj.Value) (ret : List α) :
    Option (List α) :=
  (rj.elements msg).bind fun l => l.foldlM (fun ret e => (readOne e).map fun v => ret ++ [v]) ret

/-- `readJson` of a map; the members are set in what is there. -/
def readMap {κ α : Type} {lt : κ → κ → Prop} [DecidableRel lt] [IsStrictOrder κ lt]
    (readKey : List UInt8 → κ) (readOne : rj.Value → Option α) (msg : rj.Value)
    (ret : OrderedMap.Map lt α) : Option (OrderedMap.Map lt α) :=
  (rj.members msg).bind fun l =>
    l.foldlM (fun ret m => (readOne m.2).map fun v => ret.set (readKey m.1) v) ret

/-- `ret = msg.GetInt()` -/
def readInt (msg : rj.Value) : Option Int32 := (rj.getInt msg).map Int32.ofInt

/-- `ret = msg.GetString()`, which copies a C string. -/
def readString (msg : rj.Value) : Option (List UInt8) := (rj.getString msg).map c_str

def readVectorInt : rj.Value → List Int32 → Option (List Int32) := rj.readVector rj.readInt

def readVectorString : rj.Value → List (List UInt8) → Option (List (List UInt8)) :=
  rj.readVector rj.readString

/-- The key of a `map<int, T>`. -/
def readIntKey (name : List UInt8) : Int32 := Int32.ofInt (atoi name)

def readMapStringString : rj.Value → StringMap (List UInt8) → Option (StringMap (List UInt8)) :=
  rj.readMap c_str rj.readString

def readMapIntInt : rj.Value → IntMap Int32 → Option (IntMap Int32) :=
  rj.readMap readIntKey rj.readInt

def readMapStringInt : rj.Value → StringMap Int32 → Option (StringMap Int32) :=
  rj.readMap c_str rj.readInt

/-- The overloads for vectors; `readOne` is the one for an element. -/
def readVectorOf {α : Type} (t : JsonType α) (readOne : rj.Value → Option α) :
    rj.Value → List α → Option (List α) :=
  match t with
  | .int => rj.readVectorInt
  | .string => rj.readVectorString
  | _ => rj.readVector readOne

def readIntMapOf {α : Type} (t : JsonType α) (readOne : rj.Value → Option α) :
    rj.Value → IntMap α → Option (IntMap α) :=
  match t with
  | .int => rj.readMapIntInt
  | _ => rj.readMap readIntKey readOne

def readStringMapOf {α : Type} (t : JsonType α) (readOne : rj.Value → Option α) :
    rj.Value → StringMap α → Option (StringMap α) :=
  match t with
  | .string => rj.readMapStringString
  | .int => rj.readMapStringInt
  | _ => rj.readMap c_str readOne

mutual

/-- `Utils::readJson` -/
def readJson : {α : Type} → JsonType α → rj.Value → α → Option α
  | _, .int8, msg, _ => (rj.getInt64 msg).map Int8.ofInt
  | _, .int16, msg, _ => (rj.getInt msg).map Int16.ofInt
  | _, .int, msg, _ => rj.readInt msg
  | _, .int64, msg, _ => (rj.getInt64 msg).map Int64.ofInt
  | _, .string, msg, _ => rj.readString msg
  | _, .vector t, msg, ret => rj.readVectorOf t (fun e => readJson t e t.fresh) msg ret
  | _, .intMap t, msg, ret => rj.readIntMapOf t (fun e => readJson t e t.fresh) msg ret
  | _, .stringMap t, msg, ret => rj.readStringMapOf t (fun e => readJson t e t.fresh) msg ret
  | _, .tuple ts, msg, ret => readTuple ts msg ret

/-- `TupleReader::read`; a missing member is read at the end iterator. -/
def readTuple : {α : Type} → TupleType α → rj.Value → α → Option α
  | _, .one t, msg, value =>
    if rj.isObject msg then (rj.findMember msg (ascii "0")).bind fun e => readJson t e value
    else some value
  | _, .snoc ts t, msg, (values, value) =>
    (readTuple ts msg values).bind fun values =>
      if rj.isObject msg then
        (rj.findMember msg (c_str (to_string ts.size))).bind fun e =>
          (readJson t e value).map fun value => (values, value)
      else some (values, value)

end

/-- `writeJson` of a vector. -/
def writeVector {α : Type} (writeOne : α → rj.Value) (value : List α) : rj.Value :=
  value.foldl (fun arrayObject v => rj.pushBack arrayObject (writeOne v)) rj.arrayType

/-- `writeJson` of a map. -/
def writeMap {κ α : Type} {lt : κ → κ → Prop} (writeKey : κ → List UInt8)
    (writeOne : α → rj.Value) (value : OrderedMap.Map lt α) : rj.Value :=
  value.entries.foldl (fun mapObject e => rj.addMember mapObject (writeKey e.1) (writeOne e.2))
    rj.objectType

/-- `Value(value)` of an `int`. -/
def writeInt (value : Int32) : rj.Value := rj.ofInt value.toInt

/-- `Value(value.c_str(), doc.GetAllocator())` -/
def writeString (value : List UInt8) : rj.Value := rj.ofString (c_str value)

def writeVectorInt : List Int32 → rj.Value := rj.writeVector rj.writeInt

def writeVectorString : List (List UInt8) → rj.Value := rj.writeVector rj.writeString

/-- The member name of a key of a `map<int, T>`. -/
def writeIntKey (key : Int32) : List UInt8 := c_str (to_string key.toInt)

def writeMapStringString : StringMap (List UInt8) → rj.Value := rj.writeMap c_str rj.writeString

def writeMapIntString : IntMap (List UInt8) → rj.Value := rj.writeMap writeIntKey rj.writeString

def writeMapStringInt : StringMap Int32 → rj.Value := rj.writeMap c_str rj.writeInt

/-- The overloads for vectors; `writeOne` is the one for an element. -/
def writeVectorOf {α : Type} (t : JsonType α) (writeOne : α → rj.Value) : List α → rj.Value :=
  match t with
  | .int => rj.writeVectorInt
  | .string => rj.writeVectorString
  | _ => rj.writeVector writeOne

def writeIntMapOf {α : Type} (t : JsonType α) (writeOne : α → rj.Value) : IntMap α → rj.Value :=
  match t with
  | .string => rj.writeMapIntString
  | _ => rj.writeMap writeIntKey writeOne

def writeStringMapOf {α : Type} (t : JsonType α) (writeOne : α → rj.Value) :
    StringMap α → rj.Value :=
  match t with
  | .string => rj.writeMapStringString
  | .int => rj.writeMapStringInt
  | _ => rj.writeMap c_str writeOne

mutual

/-- `Utils::writeJson` -/
def writeJson : {α : Type} → JsonType α → α → rj.Value
  | _, .int8, value => rj.ofInt value.toInt
  | _, .int16, value => rj.ofInt value.toInt
  | _, .int, value => rj.writeInt value
  | _, .int64, value => rj.ofInt value.toInt
  | _, .string, value => rj.writeString value
  | _, .vector t, value => rj.writeVectorOf t (writeJson t) value
  | _, .intMap t, value => rj.writeIntMapOf t (writeJson t) value
  | _, .stringMap t, value => rj.writeStringMapOf t (writeJson t) value
  | _, .tuple ts, value => writeTuple ts rj.objectType value

/-- `TupleWriter::write` -/
def writeTuple : {α : Type} → TupleType α → rj.Value → α → rj.Value
  | _, .one t, mapObject, value =>
    rj.addMember mapObject (c_str (to_string 0)) (writeJson t value)
  | _, .snoc ts t, mapObject, (values, value) =>
    rj.addMember (writeTuple ts mapObject values) (c_str (to_string ts.size)) (writeJson t value)

end

end Rapidjson

/-! ## What is left of a value -/

mutual

/-- The value with every string, keys included, ending at its first zero byte. -/
def JsonType.cut : {α : Type} → JsonType α → α → α
  | _, .int8, value => value
  | _, .int16, value => value
  | _, .int, value => value
  | _, .int64, value => value
  | _, .string, value => c_str value
  | _, .vector t, value => value.map t.cut
  | _, .intMap t, value => value.mapVal t.cut
  | _, .stringMap t, value =>
    value.entries.foldl (fun m e => m.set (c_str e.1) (t.cut e.2)) .empty
  | _, .tuple ts, value => ts.cut value

def TupleType.cut : {α : Type} → TupleType α → α → α
  | _, .one t, value => t.cut value
  | _, .snoc ts t, (values, value) => (ts.cut values, t.cut value)

end

mutual

/-- No string of the value holds a zero byte, and no key does. -/
def JsonType.NoZero : {α : Type} → JsonType α → α → Prop
  | _, .int8, _ => True
  | _, .int16, _ => True
  | _, .int, _ => True
  | _, .int64, _ => True
  | _, .string, value => 0 ∉ value
  | _, .vector t, value => ∀ v ∈ value, t.NoZero v
  | _, .intMap t, value => ∀ e ∈ value.entries, t.NoZero e.2
  | _, .stringMap t, value => ∀ e ∈ value.entries, 0 ∉ e.1 ∧ t.NoZero e.2
  | _, .tuple ts, value => ts.NoZero value

def TupleType.NoZero : {α : Type} → TupleType α → α → Prop
  | _, .one t, value => t.NoZero value
  | _, .snoc ts t, (values, value) => ts.NoZero values ∧ t.NoZero value

end

/-! ## What is written and read -/

/-- A key in a map that was filled with new keys is one of these. -/
theorem mem_foldl_set {κ α : Type} {lt : κ → κ → Prop} [DecidableRel lt] [IsStrictOrder κ lt]
    {f : κ → κ} {g : α → α} {l : List (κ × α)} {m : OrderedMap.Map lt α} {e : κ × α}
    (he : e ∈ (l.foldl (fun m e => m.set (f e.1) (g e.2)) m).entries) :
    (∃ x ∈ m.entries, x.1 = e.1) ∨ ∃ x ∈ l, f x.1 = e.1 := by
  induction l generalizing m with
  | nil => exact Or.inl ⟨e, he, rfl⟩
  | cons x xs ih =>
    rcases ih he with ⟨y, hy, hkey⟩ | ⟨y, hy, hkey⟩
    · rcases OrderedMap.key_mem_insert _ hy with hx | ⟨z, hz, hkey'⟩
      · exact Or.inr ⟨x, List.mem_cons_self, hx.symm.trans hkey⟩
      · exact Or.inl ⟨z, hz, hkey'.trans hkey⟩
    · exact Or.inr ⟨y, List.mem_cons_of_mem x hy, hkey⟩

namespace Rapidjson
variable {rj : Rapidjson}

/-! ### The overloads -/

theorem readJson_vector {α : Type} (t : JsonType α) (msg : rj.Value) (ret : List α) :
    rj.readJson (.vector t) msg ret = rj.readVector (fun e => rj.readJson t e t.fresh) msg ret := by
  rw [readJson]
  cases t <;> rfl

theorem readJson_intMap {α : Type} (t : JsonType α) (msg : rj.Value) (ret : IntMap α) :
    rj.readJson (.intMap t) msg ret =
      rj.readMap readIntKey (fun e => rj.readJson t e t.fresh) msg ret := by
  rw [readJson]
  cases t <;> rfl

theorem readJson_stringMap {α : Type} (t : JsonType α) (msg : rj.Value) (ret : StringMap α) :
    rj.readJson (.stringMap t) msg ret =
      rj.readMap c_str (fun e => rj.readJson t e t.fresh) msg ret := by
  rw [readJson]
  cases t <;> rfl

theorem writeJson_vector {α : Type} (t : JsonType α) (value : List α) :
    rj.writeJson (.vector t) value = rj.writeVector (rj.writeJson t) value := by
  rw [writeJson]
  cases t <;> rfl

theorem writeJson_intMap {α : Type} (t : JsonType α) (value : IntMap α) :
    rj.writeJson (.intMap t) value = rj.writeMap writeIntKey (rj.writeJson t) value := by
  rw [writeJson]
  cases t <;> rfl

theorem writeJson_stringMap {α : Type} (t : JsonType α) (value : StringMap α) :
    rj.writeJson (.stringMap t) value = rj.writeMap c_str (rj.writeJson t) value := by
  rw [writeJson]
  cases t <;> rfl

/-! ### Containers -/

section Containers
variable {α β κ : Type} {lt : κ → κ → Prop}

theorem Lawful.elements_writeVector (h : rj.Lawful) (writeOne : α → rj.Value) (value : List α) :
    rj.elements (rj.writeVector writeOne value) = some (value.map writeOne) := by
  -- for every array the loop may have filled so far
  have hfold : ∀ (value : List α) (l : List rj.Value) (arrayObject : rj.Value),
      rj.elements arrayObject = some l →
      rj.elements (value.foldl (fun a v => rj.pushBack a (writeOne v)) arrayObject) =
        some (l ++ value.map writeOne) := by
    intro value
    induction value with
    | nil =>
      intro l arrayObject ha
      rw [List.map_nil, List.append_nil]
      exact ha
    | cons v vs ih =>
      intro l arrayObject ha
      rw [List.foldl_cons, ih _ _ (h.elements_pushBack arrayObject l (writeOne v) ha),
        List.append_assoc]
      rfl
  exact hfold value [] rj.arrayType h.elements_arrayType

theorem Lawful.members_writeMap (h : rj.Lawful) {writeKey : κ → List UInt8}
    (hkey : ∀ k, 0 ∉ writeKey k) (writeOne : α → rj.Value) (value : OrderedMap.Map lt α) :
    rj.members (rj.writeMap writeKey writeOne value) =
      some (value.entries.map fun e => (writeKey e.1, writeOne e.2)) := by
  -- for every object the loop may have filled so far
  have hfold : ∀ (es : List (κ × α)) (l : List (List UInt8 × rj.Value)) (mapObject : rj.Value),
      rj.members mapObject = some l →
      rj.members (es.foldl (fun o e => rj.addMember o (writeKey e.1) (writeOne e.2)) mapObject) =
        some (l ++ es.map fun e => (writeKey e.1, writeOne e.2)) := by
    intro es
    induction es with
    | nil =>
      intro l mapObject ho
      rw [List.map_nil, List.append_nil]
      exact ho
    | cons e es ih =>
      intro l mapObject ho
      rw [List.foldl_cons, ih _ _ (h.members_addMember mapObject l _ (writeOne e.2) ho (hkey e.1)),
        List.append_assoc]
      rfl
  exact hfold value.entries [] rj.objectType h.members_objectType

/-- A vector is read back element by element. -/
theorem Lawful.readVector_writeVector (h : rj.Lawful) {readOne : rj.Value → Option β}
    {writeOne : α → rj.Value} {f : α → β} (hone : ∀ v, readOne (writeOne v) = some (f v))
    (value : List α) (ret : List β) :
    rj.readVector readOne (rj.writeVector writeOne value) ret = some (ret ++ value.map f) := by
  rw [readVector, h.elements_writeVector, Option.bind_some]
  induction value generalizing ret with
  | nil => rw [List.map_nil, List.map_nil, List.append_nil, List.foldlM_nil]; rfl
  | cons v vs ih =>
    rw [List.map_cons, List.foldlM_cons, hone, Option.map_some]
    exact (ih (ret ++ [f v])).trans (by rw [List.append_assoc]; rfl)

/-- A map is read back entry by entry. -/
theorem Lawful.readMap_writeMap [DecidableRel lt] [IsStrictOrder κ lt] (h : rj.Lawful)
    {writeKey : κ → List UInt8} (hkey : ∀ k, 0 ∉ writeKey k) {readKey : List UInt8 → κ}
    {readOne : rj.Value → Option β} {writeOne : α → rj.Value} {f : α → β}
    (hone : ∀ v, readOne (writeOne v) = some (f v)) (value : OrderedMap.Map lt α)
    (ret : OrderedMap.Map lt β) :
    rj.readMap readKey readOne (rj.writeMap writeKey writeOne value) ret =
      some (value.entries.foldl (fun m e => m.set (readKey (writeKey e.1)) (f e.2)) ret) := by
  rw [readMap, h.members_writeMap hkey, Option.bind_some]
  generalize value.entries = es
  induction es generalizing ret with
  | nil => rfl
  | cons e es ih =>
    rw [List.map_cons, List.foldlM_cons, hone, Option.map_some]
    exact ih _

end Containers

/-! ### Tuples -/

/-- The members that a tuple becomes. -/
def tupleMembers (rj : Rapidjson) : {α : Type} → TupleType α → α → List (List UInt8 × rj.Value)
  | _, .one t, value => [(c_str (to_string 0), rj.writeJson t value)]
  | _, .snoc ts t, (values, value) =>
    rj.tupleMembers ts values ++ [(c_str (to_string ts.size), rj.writeJson t value)]

theorem c_str_to_string (z : ℤ) : c_str (to_string z) = to_string z :=
  c_str_eq_self_iff.mpr (zero_not_mem_to_string z)

theorem Lawful.members_writeTuple (h : rj.Lawful) {o : rj.Value}
    {l : List (List UInt8 × rj.Value)} (ho : rj.members o = some l) :
    {α : Type} → (ts : TupleType α) → (value : α) →
      rj.members (rj.writeTuple ts o value) = some (l ++ rj.tupleMembers ts value)
  | _, .one t, value =>
    h.members_addMember o l _ (rj.writeJson t value) ho (zero_not_mem_c_str _)
  | _, .snoc ts t, (values, value) => by
    have hts := h.members_writeTuple ho ts values
    have hlast := h.members_addMember _ _ (c_str (to_string ts.size)) (rj.writeJson t value) hts
      (zero_not_mem_c_str _)
    rw [List.append_assoc] at hlast
    exact hlast

/-- The members are named by their positions. -/
theorem map_fst_tupleMembers (rj : Rapidjson) : {α : Type} → (ts : TupleType α) →
    (value : α) → (rj.tupleMembers ts value).map Prod.fst =
      (List.range ts.size).map fun i : ℕ => c_str (to_string i)
  | _, .one t, value => rfl
  | _, .snoc ts t, (values, value) => by
    rw [tupleMembers, List.map_append, rj.map_fst_tupleMembers ts values, TupleType.size,
      List.range_succ, List.map_append]
    rfl

/-- The next position is not the name of a member so far. -/
theorem find?_tupleMembers {α : Type} (ts : TupleType α) (value : α) :
    ((rj.tupleMembers ts value).find? fun m => m.1 = c_str (to_string ts.size)) = none := by
  rw [List.find?_eq_none]
  intro m hm
  have hname : m.1 ∈ (List.range ts.size).map fun i : ℕ => c_str (to_string i) := by
    rw [← rj.map_fst_tupleMembers ts value]
    exact List.mem_map_of_mem hm
  obtain ⟨i, hi, heq⟩ := List.mem_map.mp hname
  have hlt : i < ts.size := List.mem_range.mp hi
  rw [decide_eq_true_eq, ← heq, c_str_to_string, c_str_to_string]
  exact fun h => hlt.ne (to_string_natCast_injective h)

/-! ### All types -/

mutual

/-- What is written is read back up to the zero bytes. -/
theorem Lawful.readJson_writeJson (h : rj.Lawful) : {α : Type} → (t : JsonType α) → (value : α) →
    rj.readJson t (rj.writeJson t value) t.fresh = some (t.cut value)
  | _, .int8, value => by
    have hmin := value.le_toInt
    have hmax := value.toInt_lt
    have hget := h.getInt64_ofInt value.toInt (by omega) (by omega)
    rw [writeJson, readJson, hget, Option.map_some, Int8.ofInt_toInt]
    rfl
  | _, .int16, value => by
    have hmin := value.le_toInt
    have hmax := value.toInt_lt
    have hget := h.getInt_ofInt value.toInt (by omega) (by omega)
    rw [writeJson, readJson, hget, Option.map_some, Int16.ofInt_toInt]
    rfl
  | _, .int, value => by
    have hget := h.getInt_ofInt value.toInt value.le_toInt value.toInt_lt
    rw [writeJson, readJson, writeInt, readInt, hget, Option.map_some, Int32.ofInt_toInt]
    rfl
  | _, .int64, value => by
    have hget := h.getInt64_ofInt value.toInt value.le_toInt value.toInt_lt
    rw [writeJson, readJson, hget, Option.map_some, Int64.ofInt_toInt]
    rfl
  | _, .string, value => by
    have hget := h.getString_ofString (c_str value) (zero_not_mem_c_str value)
    rw [writeJson, readJson, writeString, readString, hget, Option.map_some,
      c_str_eq_self_iff.mpr (zero_not_mem_c_str value)]
    rfl
  | _, .vector t, value => by
    rw [writeJson_vector, readJson_vector,
      h.readVector_writeVector (h.readJson_writeJson t) value]
    rfl
  | _, .intMap t, value => by
    -- `atoi` takes back what `to_string` made of a key
    have hkey : ∀ k : Int32, readIntKey (writeIntKey k) = k := by
      intro k
      rw [readIntKey, writeIntKey, c_str_to_string, atoi_to_string ⟨k.le_toInt, k.toInt_lt⟩,
        Int32.ofInt_toInt]
    have hzero : ∀ k : Int32, 0 ∉ writeIntKey k := fun _ => zero_not_mem_c_str _
    rw [writeJson_intMap, readJson_intMap, h.readMap_writeMap hzero (h.readJson_writeJson t) value]
    simp only [hkey]
    exact congrArg some (OrderedMap.Map.foldl_set t.cut value)
  | _, .stringMap t, value => by
    rw [writeJson_stringMap, readJson_stringMap,
      h.readMap_writeMap (fun _ => zero_not_mem_c_str _) (h.readJson_writeJson t) value]
    -- a key is cut when it is written, and once more when it is read
    simp only [c_str_eq_self_iff.mpr (zero_not_mem_c_str _)]
    rfl
  | _, .tuple ts, value => by
    have hmem := h.members_writeTuple h.members_objectType ts value
    rw [List.nil_append] at hmem
    exact h.readTuple_of_members ts value (r := []) (by rw [List.append_nil]; exact hmem)

/-- A tuple is read from an object that begins with its members. -/
theorem Lawful.readTuple_of_members (h : rj.Lawful) : {α : Type} → (ts : TupleType α) →
    (value : α) → {msg : rj.Value} → {r : List (List UInt8 × rj.Value)} →
    rj.members msg = some (rj.tupleMembers ts value ++ r) →
    rj.readTuple ts msg ts.fresh = some (ts.cut value)
  | _, .one t, value, msg, r, hmsg => by
    have hfind : rj.findMember msg (ascii "0") = some (rj.writeJson t value) := by
      rw [h.findMember_of_members msg _ _ hmsg]
      rfl
    rw [readTuple, if_pos (h.isObject_of_members msg _ hmsg), hfind, Option.bind_some]
    exact h.readJson_writeJson t value
  | _, .snoc ts t, (values, value), msg, r, hmsg => by
    -- no earlier member has this number for its name
    have hfind : rj.findMember msg (c_str (to_string ts.size)) = some (rj.writeJson t value) := by
      rw [h.findMember_of_members msg _ _ hmsg, tupleMembers, List.append_assoc,
        List.find?_append, find?_tupleMembers, Option.none_or, List.singleton_append,
        List.find?_cons_of_pos (by rw [decide_eq_true_eq])]
      rfl
    have hts : rj.readTuple ts msg ts.fresh = some (ts.cut values) :=
      h.readTuple_of_members ts values (by rw [hmsg, tupleMembers, List.append_assoc])
    rw [TupleType.fresh, readTuple, hts, Option.bind_some,
      if_pos (h.isObject_of_members msg _ hmsg), hfind, Option.bind_some,
      h.readJson_writeJson t value]
    rfl

end

end Rapidjson

/-! ## Values that are kept -/

/-- A map is the same with its keys cut exactly if no key is cut. -/
theorem foldl_set_c_str_eq_self_iff {α : Type} (f : α → α) (m : StringMap α) :
    m.entries.foldl (fun r e => r.set (c_str e.1) (f e.2)) .empty = m ↔
      ∀ e ∈ m.entries, 0 ∉ e.1 ∧ f e.2 = e.2 := by
  have hfill : (∀ e ∈ m.entries, 0 ∉ e.1) →
      m.entries.foldl (fun r e => r.set (c_str e.1) (f e.2)) .empty = m.mapVal f := by
    intro hkeys
    rw [← OrderedMap.Map.foldl_set f m]
    apply List.foldl_ext
    intro r e he
    rw [c_str_eq_self_iff.mpr (hkeys e he)]
  constructor
  · intro h
    -- every key of the new map was cut, so those of `m` were
    have hkeys : ∀ e ∈ m.entries, 0 ∉ e.1 := by
      intro e he
      rw [← h] at he
      rcases mem_foldl_set he with ⟨x, hx, -⟩ | ⟨x, -, hkey⟩
      · cases hx
      · rw [← hkey]
        exact zero_not_mem_c_str x.1
    rw [hfill hkeys, OrderedMap.Map.mapVal_eq_self_iff] at h
    exact fun e he => ⟨hkeys e he, h e he⟩
  · intro h
    rw [hfill fun e he => (h e he).1, OrderedMap.Map.mapVal_eq_self_iff]
    exact fun e he => (h e he).2

mutual

/-- The cut changes a value exactly if it holds a zero byte. -/
theorem JsonType.cut_eq_self_iff : {α : Type} → (t : JsonType α) → (value : α) →
    (t.cut value = value ↔ t.NoZero value)
  | _, .int8, _ => iff_of_true rfl trivial
  | _, .int16, _ => iff_of_true rfl trivial
  | _, .int, _ => iff_of_true rfl trivial
  | _, .int64, _ => iff_of_true rfl trivial
  | _, .string, _ => c_str_eq_self_iff
  | _, .vector t, value => by
    rw [JsonType.cut, JsonType.NoZero, OrderedMap.map_eq_self_iff]
    exact forall₂_congr fun v _ => t.cut_eq_self_iff v
  | _, .intMap t, value => by
    rw [JsonType.cut, JsonType.NoZero, OrderedMap.Map.mapVal_eq_self_iff]
    exact forall₂_congr fun e _ => t.cut_eq_self_iff e.2
  | _, .stringMap t, value => by
    rw [JsonType.cut, JsonType.NoZero, foldl_set_c_str_eq_self_iff]
    exact forall₂_congr fun e _ => and_congr_right fun _ => t.cut_eq_self_iff e.2
  | _, .tuple ts, value => ts.cut_eq_self_iff value

theorem TupleType.cut_eq_self_iff : {α : Type} → (ts : TupleType α) → (value : α) →
    (ts.cut value = value ↔ ts.NoZero value)
  | _, .one t, value => t.cut_eq_self_iff value
  | _, .snoc ts t, (values, value) => by
    rw [TupleType.cut, TupleType.NoZero, Prod.mk.injEq, ts.cut_eq_self_iff values,
      t.cut_eq_self_iff value]

end

/-! ## The round trip -/

/-- **When a JSON argument comes back.** What is written is read back as it was exactly if no
string and no key in it holds a zero byte. -/
theorem readJson_writeJson_iff {rj : Rapidjson} (h : rj.Lawful) {α : Type} (t : JsonType α)
    (value : α) :
    rj.readJson t (rj.writeJson t value) t.fresh = some value ↔ t.NoZero value := by
  rw [h.readJson_writeJson, Option.some.injEq, t.cut_eq_self_iff]

/-- A document value as a tree. -/
inductive JsonTree
  | number (z : ℤ)
  | string (s : List UInt8)
  | array (elements : List JsonTree)
  | object (members : List (List UInt8 × JsonTree))

namespace JsonTree

def getString : JsonTree → Option (List UInt8)
  | string s => some s
  | _ => none

/-- A number that the type holds. -/
def getInt (bits : ℕ) : JsonTree → Option ℤ
  | number z => if -2 ^ (bits - 1) ≤ z ∧ z < 2 ^ (bits - 1) then some z else none
  | _ => none

def elements : JsonTree → Option (List JsonTree)
  | array l => some l
  | _ => none

def members : JsonTree → Option (List (List UInt8 × JsonTree))
  | object l => some l
  | _ => none

def pushBack : JsonTree → JsonTree → JsonTree
  | array l, v => array (l ++ [v])
  | a, _ => a

def addMember : JsonTree → List UInt8 → JsonTree → JsonTree
  | object l, name, v => object (l ++ [(name, v)])
  | o, _, _ => o

def rapidjson : Rapidjson where
  Value := JsonTree
  ofInt := number
  ofString := string
  arrayType := array []
  pushBack := pushBack
  objectType := object []
  addMember := addMember
  getInt := getInt 32
  getInt64 := getInt 64
  getString := getString
  elements := elements
  isObject := fun o => o.members.isSome
  members := members
  findMember := fun o name => o.members.bind fun l =>
    (l.find? fun m => m.1 = name).map Prod.snd

theorem eq_array {a : JsonTree} {l : List JsonTree} (h : a.elements = some l) : a = array l := by
  cases a <;> cases h
  rfl

theorem eq_object {o : JsonTree} {l : List (List UInt8 × JsonTree)} (h : o.members = some l) :
    o = object l := by
  cases o <;> cases h
  rfl

theorem rapidjson_lawful : rapidjson.Lawful where
  getInt_ofInt z hmin hmax := if_pos ⟨hmin, hmax⟩
  getInt64_ofInt z hmin hmax := if_pos ⟨hmin, hmax⟩
  getString_ofString _ _ := rfl
  elements_arrayType := rfl
  elements_pushBack a l v h := by
    rw [eq_array h]
    rfl
  members_objectType := rfl
  members_addMember o l name v h _ := by
    rw [eq_object h]
    rfl
  isObject_of_members o l h := by
    rw [eq_object h]
    rfl
  findMember_of_members o l name h := by
    rw [eq_object h]
    rfl

end JsonTree

/-- A string and two numbers. -/
theorem readJson_writeJson_pair :
    JsonTree.rapidjson.readJson (.tuple (.snoc (.one .string) (.vector .int)))
      (JsonTree.rapidjson.writeJson (.tuple (.snoc (.one .string) (.vector .int)))
        (ascii "a", [1, -2])) ([], []) = some (ascii "a", [1, -2]) :=
  (readJson_writeJson_iff JsonTree.rapidjson_lawful (.tuple (.snoc (.one .string) (.vector .int)))
    (ascii "a", [1, -2])).mpr
    ⟨by unfold TupleType.NoZero JsonType.NoZero; decide, fun _ _ => trivial⟩

/-- A string with a zero byte ends there. -/
theorem not_forall_readJson_writeJson :
    ¬ ∀ (rj : Rapidjson), rj.Lawful → ∀ {α : Type} (t : JsonType α) (value : α),
      rj.readJson t (rj.writeJson t value) t.fresh = some value := by
  intro h
  have hread := h JsonTree.rapidjson JsonTree.rapidjson_lawful .string [97, 0, 98]
  exact absurd (Option.some.inj hread) (by decide)

end Netxy.Rpc
