import Mathlib.Algebra.Ring.Int.Defs
import Mathlib.Data.List.Count
import Netxy.Lib.PriorityQueue

/-!
# `timer_mgr_s`

The C timers: an array of nodes, a stack of the ids of the free ones, and a heap of the ids of
the others. `ox_timer_mgr_del` only clears the callback of a node, which stays in the heap until
`ox_timer_mgr_schedule` finds it on top.

`κ` are the functions that can be called back, `α` the values of a `void*` other than `NULL`.
-/

namespace Netxy

/-- `timeaction_node_s`. -/
structure TimeactionNode (κ α : Type*) where
  index : ℕ
  left_time : Int64
  arg : Option α
  callback : Option κ

/-- `timeaction_node_init`. -/
def TimeactionNode.init {κ α : Type*} (index : ℕ) : TimeactionNode κ α where
  index := index
  left_time := 0
  arg := none
  callback := none

/-- `timer_mgr_s`. The top of the stack comes first, the heap is in any order. -/
structure TimeactionMgr (κ α : Type*) where
  free_node_ids : List ℕ
  node_array : List (TimeactionNode κ α)
  compositor_heap : List ℕ

namespace TimeactionMgr

variable {κ α : Type*} {m : TimeactionMgr κ α}

def node_num (m : TimeactionMgr κ α) : ℕ := m.node_array.length

/-- `timeaction_mgr_init`, with every allocation succeeding: the old ids are popped and pushed
again, which turns them round, and the new ones go on top. -/
def init (m : TimeactionMgr κ α) (num : ℕ) : TimeactionMgr κ α :=
  let new_ids := List.range' m.node_num (num - m.node_num)
  { m with
    free_node_ids := new_ids.reverse ++ m.free_node_ids.reverse
    node_array := m.node_array ++ new_ids.map .init }

/-- `ox_timer_mgr_new`. -/
def new (num : ℕ) : TimeactionMgr κ α := init ⟨[], [], []⟩ num

def left_time (m : TimeactionMgr κ α) (id : ℕ) : Int64 :=
  (m.node_array[id]?.map TimeactionNode.left_time).getD 0

def compareTimer (m : TimeactionMgr κ α) (index_a index_b : ℕ) : Bool :=
  decide (m.left_time index_a < m.left_time index_b)

/-- `id` may be what `ox_heap_top` returns. -/
def IsTop (m : TimeactionMgr κ α) (id : ℕ) : Prop :=
  PriorityQueue.IsTop (fun a b => m.compareTimer b a) m.compositor_heap id

instance decidableIsTop (m : TimeactionMgr κ α) (id : ℕ) : Decidable (m.IsTop id) :=
  inferInstanceAs (Decidable (PriorityQueue.IsTop _ _ _))

/-- What `ox_timer_mgr_add` does where the stack is empty. -/
def grow (m : TimeactionMgr κ α) : TimeactionMgr κ α :=
  if m.free_node_ids = [] then m.init (2 * m.node_num) else m

/-- The `left_time` of a new timer. Signed integers wrap. -/
def deadlineOf (delay now : Int64) : Int64 :=
  if 0 < delay then delay + now else now - (-delay)

/-- Write to the fields of `node_array[id]`. -/
def modifyNode (m : TimeactionMgr κ α) (id : ℕ)
    (f : TimeactionNode κ α → TimeactionNode κ α) : TimeactionMgr κ α :=
  { m with node_array := m.node_array.modify id f }

/-- `ox_heap_insert` of the `index` of `node_array[id]`. -/
def insert (m : TimeactionMgr κ α) (id : ℕ) : TimeactionMgr κ α :=
  { m with
    compositor_heap :=
      (m.node_array[id]?.map TimeactionNode.index).toList ++ m.compositor_heap }

/-- `ox_timer_mgr_add`; `none` is `ERROR_COMPOSITOR_INDEX`. -/
def add (m : TimeactionMgr κ α) (callback : Option κ) (delay : Int64) (arg : Option α)
    (now : Int64) : Option ℕ × TimeactionMgr κ α :=
  match callback with
  | none => (none, m)
  | some callback =>
    let m := m.grow
    match m.free_node_ids with
    | [] => (none, m)
    | id :: ids =>
      let m := { m with free_node_ids := ids }
      let m := m.modifyNode id fun node =>
        { node with callback := some callback, arg := arg, left_time := deadlineOf delay now }
      (some id, m.insert id)

/-- `ox_timer_mgr_del`, of an id that `ox_timer_mgr_add` returned. -/
def del (m : TimeactionMgr κ α) : Option ℕ → TimeactionMgr κ α
  | none => m
  | some id =>
    if id < m.node_num then m.modifyNode id fun node => { node with callback := none } else m

/-- `ox_heap_pop`, and the `ox_stack_push` of the id of the node that was on top. -/
def pop (m : TimeactionMgr κ α) (top : ℕ) (node : TimeactionNode κ α) : TimeactionMgr κ α :=
  { m with
    compositor_heap := m.compositor_heap.erase top
    free_node_ids := node.index :: m.free_node_ids }

/-- What a turn of the loop of `ox_timer_mgr_schedule` comes to. -/
inductive Turn (κ α : Type*)
  | break
  | dropped (m : TimeactionMgr κ α)
  | called (callback : κ) (arg : Option α) (m : TimeactionMgr κ α)

/-- A turn of the loop of `ox_timer_mgr_schedule`, with `top` on top of the heap. -/
def turn (m : TimeactionMgr κ α) (now : Int64) (top : ℕ) : Option (Turn κ α) :=
  (m.node_array[top]?).map fun node =>
    match node.callback with
    | none => .dropped (m.pop top node)
    | some callback =>
      if now < node.left_time then .break else .called callback node.arg (m.pop top node)

/-! ## Every id is free or in the heap -/

/-- What every operation keeps: each id is in exactly one place, and names its node. -/
structure Wf (m : TimeactionMgr κ α) : Prop where
  partitioned : ∀ id,
    m.free_node_ids.count id + m.compositor_heap.count id = if id < m.node_num then 1 else 0
  indexes : m.node_array.map TimeactionNode.index = List.range m.node_num
  node_num_pos : 0 < m.node_num

theorem Wf.index_eq (h : m.Wf) {id : ℕ} {node : TimeactionNode κ α}
    (hnode : m.node_array[id]? = some node) : node.index = id := by
  have hmap := congrArg (fun ids => ids[id]?) h.indexes
  have hid : id < m.node_num := (List.getElem?_eq_some_iff.mp hnode).1
  simpa only [List.getElem?_map, hnode, Option.map_some, List.getElem?_range hid,
    Option.some.injEq] using hmap

theorem Wf.lt_of_mem_heap (h : m.Wf) {id : ℕ} (hid : id ∈ m.compositor_heap) :
    id < m.node_num := by
  by_contra hlt
  have hcount := h.partitioned id
  have hpos := List.count_pos_iff.mpr hid
  rw [if_neg hlt] at hcount
  omega

theorem Wf.exists_node (h : m.Wf) {id : ℕ} (hid : id ∈ m.compositor_heap) :
    ∃ node, m.node_array[id]? = some node := ⟨_, List.getElem?_eq_getElem (h.lt_of_mem_heap hid)⟩

/-- The ids on the stack are not in the heap. -/
theorem Wf.of_mem_free (h : m.Wf) {id : ℕ} (hid : id ∈ m.free_node_ids) :
    id < m.node_num ∧ id ∉ m.compositor_heap := by
  have hcount := h.partitioned id
  have hpos := List.count_pos_iff.mpr hid
  split_ifs at hcount with hlt
  · refine ⟨hlt, fun hmem => ?_⟩
    have hpos' := List.count_pos_iff.mpr hmem
    omega
  · omega

theorem getElem?_init_of_lt (num : ℕ) {id : ℕ} (h : id < m.node_num) :
    (m.init num).node_array[id]? = m.node_array[id]? := List.getElem?_append_left h

theorem node_num_init {num : ℕ} (h : m.node_num ≤ num) : (m.init num).node_num = num := by
  rw [node_num, init, List.length_append, List.length_map, List.length_range']
  exact Nat.add_sub_cancel' h

/-- The ids of the new nodes are the ones that are added to the stack. -/
theorem partitioned_init
    (h : ∀ id, m.free_node_ids.count id + m.compositor_heap.count id =
      if id < m.node_num then 1 else 0) {num : ℕ} (hnum : m.node_num ≤ num) (id : ℕ) :
    (m.init num).free_node_ids.count id + (m.init num).compositor_heap.count id =
      if id < (m.init num).node_num then 1 else 0 := by
  have hnew : (List.range' m.node_num (num - m.node_num)).count id =
      if m.node_num ≤ id ∧ id < num then 1 else 0 := by
    have hnodup : (List.range' m.node_num (num - m.node_num)).Nodup := List.nodup_range'
    rw [hnodup.count]
    refine if_congr ?_ rfl rfl
    rw [List.mem_range'_1]
    omega
  have hold := h id
  rw [node_num_init hnum]
  simp only [init, List.count_append, List.count_reverse, hnew]
  split_ifs at hold ⊢ <;> omega

theorem indexes_init (h : m.node_array.map TimeactionNode.index = List.range m.node_num) {num : ℕ}
    (hnum : m.node_num ≤ num) :
    (m.init num).node_array.map TimeactionNode.index = List.range (m.init num).node_num := by
  have hnew : TimeactionNode.index ∘ (TimeactionNode.init (κ := κ) (α := α)) = id := rfl
  have happend := List.range'_append_1 (s := 0) (m := m.node_num) (n := num - m.node_num)
  rw [Nat.zero_add, Nat.add_sub_cancel' hnum] at happend
  rw [node_num_init hnum, init, List.map_append, h, List.map_map, hnew, List.map_id,
    List.range_eq_range', List.range_eq_range', happend]

/-- A new manager. -/
theorem wf_new {num : ℕ} (h : 0 < num) : (new num : TimeactionMgr κ α).Wf where
  partitioned := partitioned_init (fun _ => rfl) (Nat.zero_le num)
  indexes := indexes_init rfl (Nat.zero_le num)
  node_num_pos := h.trans_eq (node_num_init (m := ⟨[], [], []⟩) (Nat.zero_le num)).symm

theorem Wf.init (h : m.Wf) {num : ℕ} (hnum : m.node_num ≤ num) : (m.init num).Wf where
  partitioned := partitioned_init h.partitioned hnum
  indexes := indexes_init h.indexes hnum
  node_num_pos := (node_num_init hnum).symm ▸ h.node_num_pos.trans_le hnum

/-- Growth leaves the heap and all nodes as they are, and there is a free id after it. -/
theorem Wf.grow (h : m.Wf) :
    m.grow.Wf ∧ m.grow.free_node_ids ≠ [] ∧ m.grow.compositor_heap = m.compositor_heap ∧
      ∀ id ∈ m.compositor_heap, m.grow.node_array[id]? = m.node_array[id]? := by
  by_cases hfree : m.free_node_ids = []
  · have hpos := h.node_num_pos
    have hnum : m.node_num ≤ 2 * m.node_num := by omega
    rw [TimeactionMgr.grow, if_pos hfree]
    refine ⟨h.init hnum, ?_, rfl, fun id hid => getElem?_init_of_lt _ (h.lt_of_mem_heap hid)⟩
    rw [TimeactionMgr.init, hfree, List.reverse_nil, List.append_nil, Ne, List.reverse_eq_nil_iff,
      List.range'_eq_nil_iff]
    omega
  · rw [TimeactionMgr.grow, if_neg hfree]
    exact ⟨h, hfree, rfl, fun id _ => rfl⟩

@[simp] theorem node_num_modifyNode (id : ℕ) (f : TimeactionNode κ α → TimeactionNode κ α) :
    (m.modifyNode id f).node_num = m.node_num := List.length_modify ..

theorem getElem?_modifyNode_of_ne {id other : ℕ} (h : id ≠ other)
    (f : TimeactionNode κ α → TimeactionNode κ α) :
    (m.modifyNode id f).node_array[other]? = m.node_array[other]? :=
  List.getElem?_modify_ne _ _ h

theorem getElem?_modifyNode_self (id : ℕ) (f : TimeactionNode κ α → TimeactionNode κ α) :
    (m.modifyNode id f).node_array[id]? = m.node_array[id]?.map f := List.getElem?_modify_eq ..

theorem map_index_modifyNode (id : ℕ) {f : TimeactionNode κ α → TimeactionNode κ α}
    (hf : ∀ node, (f node).index = node.index) :
    (m.modifyNode id f).node_array.map TimeactionNode.index =
      m.node_array.map TimeactionNode.index := by
  apply List.ext_getElem?
  intro i
  rw [List.getElem?_map, List.getElem?_map]
  by_cases hi : id = i
  · rw [← hi, getElem?_modifyNode_self, Option.map_map]
    exact congrFun (congrArg Option.map (funext hf)) _
  · rw [getElem?_modifyNode_of_ne hi]

theorem Wf.modifyNode (h : m.Wf) (id : ℕ) {f : TimeactionNode κ α → TimeactionNode κ α}
    (hf : ∀ node, (f node).index = node.index) : (m.modifyNode id f).Wf where
  partitioned i := (h.partitioned i).trans (by rw [node_num_modifyNode])
  indexes := by rw [map_index_modifyNode id hf, h.indexes, node_num_modifyNode]
  node_num_pos := h.node_num_pos.trans_eq (node_num_modifyNode id f).symm

/-- A free id goes to the heap. -/
theorem Wf.insert (h : m.Wf) {id : ℕ} {ids : List ℕ} (hids : m.free_node_ids = id :: ids) :
    ({ m with free_node_ids := ids, compositor_heap := id :: m.compositor_heap } :
      TimeactionMgr κ α).Wf := by
  refine ⟨fun i => ?_, h.indexes, h.node_num_pos⟩
  have hcount := h.partitioned i
  rw [hids, List.count_cons] at hcount
  change ids.count i + (id :: m.compositor_heap).count i = if i < m.node_num then 1 else 0
  rw [List.count_cons]
  omega

/-- What `ox_timer_mgr_add` does: it returns a free id, whose node has all that was passed. The
timers in the heap are as before, also where the array grows. -/
theorem Wf.add (h : m.Wf) (callback : κ) (delay : Int64) (arg : Option α) (now : Int64) :
    ∃ id m', m.add (some callback) delay arg now = (some id, m') ∧ m'.Wf ∧
      id ∉ m.compositor_heap ∧ m'.compositor_heap = id :: m.compositor_heap ∧
      m'.node_array[id]? = some ⟨id, deadlineOf delay now, arg, some callback⟩ ∧
      ∀ other ∈ m.compositor_heap, m'.node_array[other]? = m.node_array[other]? := by
  obtain ⟨hwf, hfree, hheap, hnodes⟩ := h.grow
  obtain ⟨id, ids, hids⟩ := List.exists_cons_of_ne_nil hfree
  obtain ⟨hid, hnot⟩ := hwf.of_mem_free (hids ▸ List.mem_cons_self : id ∈ m.grow.free_node_ids)
  obtain ⟨node, hnode⟩ : ∃ node, m.grow.node_array[id]? = some node :=
    ⟨_, List.getElem?_eq_getElem hid⟩
  have hindex := hwf.index_eq hnode
  let f : TimeactionNode κ α → TimeactionNode κ α := fun node =>
    { node with callback := some callback, arg := arg, left_time := deadlineOf delay now }
  have hnew : (m.grow.modifyNode id f).node_array[id]? =
      some ⟨id, deadlineOf delay now, arg, some callback⟩ := by
    rw [getElem?_modifyNode_self, hnode, ← hindex]
    rfl
  have hids' : ((m.grow.modifyNode id f).node_array[id]?.map TimeactionNode.index).toList = [id] := by
    rw [hnew, Option.map_some, Option.toList_some]
  have hadd : m.add (some callback) delay arg now =
      (some id, { m.grow.modifyNode id f with
        free_node_ids := ids
        compositor_heap := [id] ++ m.grow.compositor_heap }) := by
    rw [← hids']
    simp only [TimeactionMgr.add, hids]
    rfl
  have hwf' := (hwf.modifyNode id (f := f) fun _ => rfl).insert hids
  refine ⟨id, _, hadd, hwf', hheap ▸ hnot,
    congrArg (id :: ·) hheap, hnew, fun other hother => ?_⟩
  have hne : id ≠ other := by
    rintro rfl
    exact hnot (hheap ▸ hother)
  exact (getElem?_modifyNode_of_ne hne f).trans (hnodes other hother)

theorem Wf.del (h : m.Wf) (id : Option ℕ) : (m.del id).Wf := by
  cases id with
  | none => exact h
  | some id =>
    rw [TimeactionMgr.del]
    split_ifs
    · exact h.modifyNode id fun _ => rfl
    · exact h

theorem compositor_heap_del (id : Option ℕ) : (m.del id).compositor_heap = m.compositor_heap := by
  cases id with
  | none => rfl
  | some id =>
    rw [del]
    split_ifs <;> rfl

/-- A node of another id keeps its callback. -/
theorem getElem?_del_of_ne {id : Option ℕ} {other : ℕ} (h : id ≠ some other) :
    (m.del id).node_array[other]? = m.node_array[other]? := by
  cases id with
  | none => rfl
  | some id =>
    rw [del]
    split_ifs
    · exact getElem?_modifyNode_of_ne (fun heq => h (congrArg some heq)) _
    · rfl

theorem callback_del {id : ℕ} {node : TimeactionNode κ α}
    (h : (m.del (some id)).node_array[id]? = some node) : node.callback = none := by
  rw [del] at h
  split_ifs at h with hid
  · rw [getElem?_modifyNode_self, Option.map_eq_some_iff] at h
    obtain ⟨old, -, rfl⟩ := h
    rfl
  · exact absurd (List.getElem?_eq_some_iff.mp h).1 hid

/-- The id on top goes back to the stack. -/
theorem Wf.pop (h : m.Wf) {top : ℕ} (htop : top ∈ m.compositor_heap)
    {node : TimeactionNode κ α} (hnode : m.node_array[top]? = some node) : (m.pop top node).Wf := by
  refine ⟨?_, h.indexes, h.node_num_pos⟩
  intro id
  have hcount := h.partitioned id
  have hpos := List.count_pos_iff.mpr htop
  rw [TimeactionMgr.pop, List.count_cons, List.count_erase, h.index_eq hnode]
  change _ = if id < m.node_num then 1 else 0
  by_cases hid : top = id
  · subst hid
    simp only [beq_self_eq_true, if_true]
    omega
  · simpa only [beq_eq_false_iff_ne.mpr hid, Bool.false_eq_true, if_false, Nat.sub_zero,
      Nat.add_zero] using hcount

/-- Of the heap, only the top is taken. -/
theorem Wf.mem_heap_pop_iff (h : m.Wf) {top : ℕ} (htop : top ∈ m.compositor_heap)
    (node : TimeactionNode κ α) {id : ℕ} :
    id ∈ (m.pop top node).compositor_heap ↔ id ∈ m.compositor_heap ∧ id ≠ top := by
  have hcount := h.partitioned top
  have hpos := List.count_pos_iff.mpr htop
  rw [if_pos (h.lt_of_mem_heap htop)] at hcount
  rw [TimeactionMgr.pop, ← List.count_pos_iff, ← List.count_pos_iff, List.count_erase]
  by_cases hid : top = id
  · subst hid
    simp only [beq_self_eq_true, if_true]
    omega
  · simp only [beq_eq_false_iff_ne.mpr hid, Bool.false_eq_true, if_false, Nat.sub_zero]
    exact ⟨fun hmem => ⟨hmem, Ne.symm hid⟩, And.left⟩

/-- Nothing in the heap is due before its top. -/
theorem IsTop.le {top : ℕ} (h : m.IsTop top) :
    ∀ id ∈ m.compositor_heap, (m.left_time top).toInt ≤ (m.left_time id).toInt := by
  intro id hid
  have hless := h.2 id hid
  have hlt := of_decide_eq_false hless
  rw [Int64.lt_iff_toInt_lt] at hlt
  omega

theorem exists_isTop (h : m.compositor_heap ≠ []) : ∃ top, m.IsTop top := by
  have hmin : ∃ top, PriorityQueue.IsTop
      (fun a b => decide ((m.left_time b).toInt < (m.left_time a).toInt)) m.compositor_heap top :=
    PriorityQueue.exists_isTop h
  obtain ⟨top, htop⟩ := hmin
  refine ⟨top, htop.1, fun id hid => ?_⟩
  have hle := of_decide_eq_false (htop.2 id hid)
  rw [← Int64.lt_iff_toInt_lt] at hle
  exact decide_eq_false hle

/-! ## Deadlines -/

/-- The deadline is what the node has, unless it needs more than 64 bits. -/
theorem toInt_deadlineOf_eq_iff (delay now : Int64) :
    (deadlineOf delay now).toInt = now.toInt + delay.toInt ↔
      -2 ^ 63 ≤ now.toInt + delay.toInt ∧ now.toInt + delay.toInt < 2 ^ 63 := by
  have hsum : (deadlineOf delay now).toInt = (now.toInt + delay.toInt).bmod (2 ^ 64) := by
    rw [deadlineOf]
    split_ifs
    · rw [Int64.toInt_add, Int.add_comm]
    · rw [Int64.sub_neg, Int64.toInt_add]
  rw [hsum]
  constructor
  · intro heq
    rw [← heq]
    exact ⟨Int.le_bmod (by decide), Int.bmod_lt (by decide)⟩
  · rintro ⟨hlow, hhigh⟩
    exact Int.bmod_eq_of_le hlow hhigh

end TimeactionMgr
end Netxy
