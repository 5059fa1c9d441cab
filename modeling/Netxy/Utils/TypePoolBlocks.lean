import Mathlib.Data.List.Nodup
import Mathlib.Data.List.Perm.Subperm
import Netxy.Lib.Transition
import Netxy.Utils.TypePool

/-!
# Who has the blocks of a `type_pool_s`

A pool with a program that claims blocks, gives back blocks it has, and adds nodes. Each block is
with the program or on the stack of its node, once in all, whatever `free_node` points to, so a
stack never gets more blocks than it was made for.
-/

namespace Netxy
namespace TypePool

open Transition

/-! ## Blocks on the stacks -/

/-- The `ptr_stack` of a node. -/
def stack (ptrs : PtrStacks) (node : ℕ) : List ℕ := (ptrs[node]?).getD []

/-- How often a block is on the stack of its node. -/
def freeCount (ptrs : PtrStacks) (block : Block) : ℕ := (stack ptrs block.node).count block.place

/-- The block was on top of the stack of its node, and is taken from it. -/
def Takes (ptrs : PtrStacks) (block : Block) (ptrs' : PtrStacks) : Prop :=
  ∃ rest, ptrs[block.node]? = some (block.place :: rest) ∧ ptrs' = ptrs.set block.node rest

variable {ptrs ptrs' : PtrStacks} {p : TypePool} {block : Block}

/-- A block that is popped is off its stack. -/
theorem takes_popback {node : ℕ} (h : popback ptrs node = some (block, ptrs')) :
    Takes ptrs block ptrs' := by
  unfold popback at h
  split at h
  · rename_i place rest hstack
    obtain ⟨hblock, hptrs⟩ := Prod.mk.inj (Option.some.inj h)
    rw [← hblock, ← hptrs]
    exact ⟨rest, hstack, rfl⟩
  · exact absurd h.symm (Option.some_ne_none _)

/-- Whatever `free_node` is, the block found was on top of a stack. -/
theorem takes_claimHelp {found : Found} (h : p.claimHelp ptrs = some found) :
    Takes ptrs found.block found.ptrs := by
  unfold claimHelp at h
  split at h
  · rename_i block ptrs' hpop
    obtain ⟨node, -, hpop⟩ := Option.bind_eq_some_iff.mp hpop
    rw [← Option.some.inj h]
    exact takes_popback hpop
  · obtain ⟨node, -, hpop, -⟩ := exists_popback_of_search h
    exact takes_popback hpop

/-- A claim takes a block from a stack, if need be after a new node was made. -/
theorem takes_claim (h : (p.claim ptrs).1 = some block) :
    Takes ptrs block (p.claim ptrs).2.2 ∧ (p.claim ptrs).2.1.nodes = p.nodes ∨
      Takes (nodeNew ptrs p.base_num) block (p.claim ptrs).2.2 ∧
        (p.claim ptrs).2.1.nodes = p.nodes ++ [ptrs.length] := by
  unfold claim at h ⊢
  split at h
  · rename_i found hfound
    left
    rw [← Option.some.inj h]
    exact ⟨takes_claimHelp hfound, rfl⟩
  · right
    simp only at h ⊢
    split at h
    · rename_i found hfound
      rw [← Option.some.inj h]
      exact ⟨takes_claimHelp hfound, rfl⟩
    · exact absurd h.symm (Option.some_ne_none _)

/-- No node comes or goes. -/
theorem Takes.length_eq (h : Takes ptrs block ptrs') : ptrs'.length = ptrs.length := by
  obtain ⟨rest, -, rfl⟩ := h
  exact List.length_set

theorem stack_eq {node : ℕ} {l : List ℕ} (h : ptrs[node]? = some l) : stack ptrs node = l := by
  rw [stack, h, Option.getD_some]

theorem block_eq_iff (b c : Block) : b = c ↔ b.node = c.node ∧ b.place = c.place := by
  rw [← Block.mk.injEq]

/-- The block that is taken was free once more than now. -/
theorem freeCount_takes (h : Takes ptrs block ptrs') (b : Block) :
    freeCount ptrs b = freeCount ptrs' b + if block = b then 1 else 0 := by
  obtain ⟨rest, hstack, rfl⟩ := h
  obtain ⟨hlt, -⟩ := List.getElem?_eq_some_iff.mp hstack
  by_cases hnode : b.node = block.node
  · have hnew : stack (ptrs.set block.node rest) b.node = rest := by
      rw [hnode]
      exact stack_eq (List.getElem?_set_self hlt)
    rw [freeCount, freeCount, hnew, hnode, stack_eq hstack, List.count_cons]
    simp only [block_eq_iff, hnode, true_and, beq_iff_eq]
  · have hnew : stack (ptrs.set block.node rest) b.node = stack ptrs b.node := by
      rw [stack, stack, List.getElem?_set_ne (Ne.symm hnode)]
    rw [freeCount, freeCount, hnew, if_neg fun heq => hnode (congrArg Block.node heq).symm,
      Nat.add_zero]

/-- A new node has one stack more. -/
theorem length_nodeNew (ptrs : PtrStacks) (num : ℕ) :
    (nodeNew ptrs num).length = ptrs.length + 1 := by
  rw [nodeNew, List.length_append, List.length_singleton]

/-- All blocks of a new node are free, once. -/
theorem freeCount_nodeNew (ptrs : PtrStacks) (num : ℕ) (b : Block) :
    freeCount (nodeNew ptrs num) b =
      freeCount ptrs b + if b.node = ptrs.length ∧ b.place < num then 1 else 0 := by
  by_cases hnode : b.node = ptrs.length
  · have hold : stack ptrs b.node = [] := by
      rw [stack, List.getElem?_eq_none (Nat.le_of_eq hnode.symm), Option.getD_none]
    have hnew : stack (nodeNew ptrs num) b.node = (List.range num).reverse := by
      apply stack_eq
      rw [hnode]
      exact List.getElem?_concat_length
    rw [freeCount, freeCount, hold, hnew, List.count_nil, List.count_reverse,
      List.nodup_range.count]
    simp only [hnode, true_and, List.mem_range, Nat.zero_add]
  · have hsame : stack (nodeNew ptrs num) b.node = stack ptrs b.node := by
      rw [stack, stack, nodeNew]
      by_cases hlt : b.node < ptrs.length
      · rw [List.getElem?_append_left hlt]
      · rw [List.getElem?_eq_none (by rw [List.length_append, List.length_singleton]; omega),
          List.getElem?_eq_none (by omega)]
    rw [freeCount, freeCount, hsame, if_neg fun h => hnode h.1, Nat.add_zero]

/-- A block that is given back is free once more. -/
theorem freeCount_push (h : block.node < ptrs.length) (b : Block) :
    freeCount (push ptrs block) b = freeCount ptrs b + if block = b then 1 else 0 := by
  by_cases hnode : b.node = block.node
  · have hnew : stack (push ptrs block) b.node = block.place :: stack ptrs b.node := by
      rw [stack, stack, push, hnode, List.getElem?_modify_eq, List.getElem?_eq_getElem h]
      rfl
    rw [freeCount, freeCount, hnew, List.count_cons]
    simp only [block_eq_iff, hnode, true_and, beq_iff_eq]
  · have hsame : stack (push ptrs block) b.node = stack ptrs b.node := by
      rw [stack, stack, push, List.getElem?_modify_ne _ _ (Ne.symm hnode)]
    rw [freeCount, freeCount, hsame, if_neg fun heq => hnode (congrArg Block.node heq).symm,
      Nat.add_zero]

/-! ## Blocks on the stacks and in use -/

/-- The block is one of the blocks of its node. -/
def Has (capacity : List ℕ) (block : Block) : Prop := block.place < (capacity[block.node]?).getD 0

instance (capacity : List ℕ) : DecidablePred (Has capacity) :=
  fun block => inferInstanceAs (Decidable (block.place < (capacity[block.node]?).getD 0))

/-- Every block is on the stack of its node or live, once, and there are no other blocks. -/
structure Counted (capacity : List ℕ) (ptrs : PtrStacks) (live : List Block) : Prop where
  length : capacity.length = ptrs.length
  count : ∀ b, freeCount ptrs b + live.count b = if Has capacity b then 1 else 0

variable {capacity : List ℕ} {live : List Block}

/-- Without nodes there are no blocks. -/
theorem counted_nil : Counted [] [] [] := ⟨rfl, fun b => by simp [freeCount, stack, Has]⟩

/-- A block that is claimed is live instead of free. -/
theorem Counted.take (h : Counted capacity ptrs live) (ht : Takes ptrs block ptrs') :
    Counted capacity ptrs' (block :: live) := by
  constructor
  case length => exact h.length.trans ht.length_eq.symm
  case count =>
    intro b
    have hcount := h.count b
    rw [freeCount_takes ht] at hcount
    rw [List.count_cons, ← hcount]
    simp only [beq_iff_eq]
    omega

/-- A new node adds its own blocks. -/
theorem has_append (capacity : List ℕ) (num : ℕ) (b : Block) :
    Has (capacity ++ [num]) b ↔ Has capacity b ∨ b.node = capacity.length ∧ b.place < num := by
  unfold Has
  rcases Nat.lt_trichotomy b.node capacity.length with hlt | heq | hgt
  · rw [List.getElem?_append_left hlt]
    omega
  · rw [heq, List.getElem?_concat_length, List.getElem?_eq_none (Nat.le_refl _), Option.getD_some,
      Option.getD_none]
    omega
  · have hlong : (capacity ++ [num]).length ≤ b.node := by
      rw [List.length_append, List.length_singleton]
      omega
    rw [List.getElem?_eq_none hlong, List.getElem?_eq_none (Nat.le_of_lt hgt)]
    omega

/-- A node that is still to be made has no block. -/
theorem Counted.not_has_of_le (h : Counted capacity ptrs live) (hnode : ptrs.length ≤ block.node) :
    ¬ Has capacity block := by
  have hnone : capacity[block.node]? = none := by
    apply List.getElem?_eq_none
    rw [h.length]
    exact hnode
  rw [Has, hnone]
  exact Nat.not_lt_zero _

/-- A new node's blocks are free. -/
theorem Counted.grow (h : Counted capacity ptrs live) (num : ℕ) :
    Counted (capacity ++ [num]) (nodeNew ptrs num) live := by
  constructor
  case length =>
    rw [length_nodeNew, List.length_append, List.length_singleton, h.length]
  case count =>
    intro b
    have hcount := h.count b
    have hnew : b.node = ptrs.length → ¬ Has capacity b := by
      intro hnode
      apply h.not_has_of_le
      omega
    rw [freeCount_nodeNew]
    simp only [has_append, h.length]
    by_cases hnode : b.node = ptrs.length
    · simp only [hnew hnode, if_false, false_or] at hcount ⊢
      omega
    · simp only [hnode, false_and, or_false, if_false] at hcount ⊢
      omega

/-- A block that is live is a block of its node. -/
theorem Counted.has_of_live (h : Counted capacity ptrs live) (hlive : block ∈ live) :
    Has capacity block := by
  by_contra hnot
  have hcount := h.count block
  have hpos := List.count_pos_iff.mpr hlive
  rw [if_neg hnot] at hcount
  omega

/-- A live block belongs to a node that there is. -/
theorem Counted.node_lt (h : Counted capacity ptrs live) (hlive : block ∈ live) :
    block.node < ptrs.length := by
  by_contra hnot
  exact h.not_has_of_le (Nat.le_of_not_lt hnot) (h.has_of_live hlive)

/-- A block that is given back is free instead of live. -/
theorem Counted.push (h : Counted capacity ptrs live) (hlive : block ∈ live) :
    Counted capacity (Netxy.push ptrs block) (live.erase block) := by
  constructor
  case length =>
    rw [Netxy.push, List.length_modify]
    exact h.length
  case count =>
    intro b
    have hcount := h.count b
    have hpos := List.count_pos_iff.mpr hlive
    rw [freeCount_push (h.node_lt hlive), List.count_erase, ← hcount]
    by_cases hb : block = b
    · rw [hb] at hpos ⊢
      simp only [if_true, beq_self_eq_true]
      omega
    · simp only [beq_iff_eq, hb, if_false]
      omega

/-- No stack holds a block twice. -/
theorem Counted.nodup_stack (h : Counted capacity ptrs live) (node : ℕ) :
    (stack ptrs node).Nodup := by
  rw [List.nodup_iff_count_le_one]
  intro place
  have hcount : (stack ptrs node).count place + live.count ⟨node, place⟩ = _ :=
    h.count ⟨node, place⟩
  split at hcount <;> omega

/-- A block on a stack is a block of the node of the stack. -/
theorem Counted.has_of_free (h : Counted capacity ptrs live)
    (hfree : block.place ∈ stack ptrs block.node) : Has capacity block := by
  by_contra hnot
  have hcount := h.count block
  have hpos := List.count_pos_iff.mpr hfree
  rw [if_neg hnot, freeCount] at hcount
  omega

/-- A live block is on no stack. -/
theorem Counted.notMem_stack (h : Counted capacity ptrs live) (hlive : block ∈ live) :
    block.place ∉ stack ptrs block.node := by
  intro hfree
  have hcount := h.count block
  have hpos := List.count_pos_iff.mpr hlive
  have hpos' := List.count_pos_iff.mpr hfree
  rw [if_pos (h.has_of_live hlive), freeCount] at hcount
  omega

/-- A stack has room for a block that is live. -/
theorem Counted.length_lt (h : Counted capacity ptrs live) (hlive : block ∈ live) :
    (stack ptrs block.node).length < (capacity[block.node]?).getD 0 := by
  -- with the block on it the stack is still a list of different places of the node
  have hnodup : (block.place :: stack ptrs block.node).Nodup :=
    List.nodup_cons.mpr ⟨h.notMem_stack hlive, h.nodup_stack block.node⟩
  have hsub : block.place :: stack ptrs block.node ⊆
      List.range ((capacity[block.node]?).getD 0) := by
    intro place hplace
    rw [List.mem_range]
    rcases List.mem_cons.mp hplace with rfl | hplace
    · exact h.has_of_live hlive
    · have hhas : Has capacity ⟨block.node, place⟩ := h.has_of_free hplace
      exact hhas
  have hlength := (List.subperm_of_subset hnodup hsub).length_le
  rw [List.length_cons, List.length_range] at hlength
  exact hlength

/-! ## Runs -/

/-- `ox_stack_push`, which does nothing when there are as many on the stack as it was made for. -/
def pushWithin (capacity : List ℕ) (ptrs : PtrStacks) (block : Block) : PtrStacks :=
  if (stack ptrs block.node).length < (capacity[block.node]?).getD 0 then push ptrs block else ptrs

/-- A pool, the number of blocks of each node, for which its stack was made, and the blocks that
are claimed and not reclaimed. -/
structure Run where
  pool : TypePool
  ptrs : PtrStacks
  capacity : List ℕ
  live : List Block

/-- The calls of the interface. -/
inductive Call
  | claim
  | reclaim (block : Block)
  | increase (increase_num : ℕ)

/-- `ox_type_pool_new`. -/
def Run.start (num : ℕ) : Run := ⟨(new [] num).1, (new [] num).2, [num], []⟩

/-- `ox_type_pool_claim`, and who has what after it. -/
def Run.claim (s : Run) : Run where
  pool := (s.pool.claim s.ptrs).2.1
  ptrs := (s.pool.claim s.ptrs).2.2
  capacity :=
    if (s.pool.claim s.ptrs).2.2.length = s.ptrs.length then s.capacity
    else s.capacity ++ [s.pool.base_num]
  live := (s.pool.claim s.ptrs).1.toList ++ s.live

/-- `ox_type_pool_reclaim` of a live block. -/
def Run.reclaim (s : Run) (block : Block) : Run where
  pool := (s.pool.reclaim s.ptrs block).1
  ptrs := pushWithin s.capacity s.ptrs block
  capacity := s.capacity
  live := s.live.erase block

/-- `ox_type_pool_increase`. -/
def Run.increase (s : Run) (increase_num : ℕ) : Run where
  pool := (s.pool.increase s.ptrs increase_num).1
  ptrs := (s.pool.increase s.ptrs increase_num).2
  capacity := s.capacity ++ [increase_num]
  live := s.live

/-- Live blocks are reclaimed, and nodes have blocks. -/
def step (s : Run) : Call → Option Run
  | .claim => some s.claim
  | .reclaim block => if block ∈ s.live then some (s.reclaim block) else none
  | .increase increase_num => if 0 < increase_num then some (s.increase increase_num) else none

/-- No two live blocks are the same, each block is live or on the stack of its node, not both and
not twice, there are no other blocks, and a claim gets one. -/
structure Run.Disjoint (s : Run) : Prop where
  nodup_live : s.live.Nodup
  nodup_stack : ∀ node, (stack s.ptrs node).Nodup
  owned : ∀ block, Has s.capacity block →
    (block ∈ s.live ↔ block.place ∉ stack s.ptrs block.node)
  has : ∀ block, block ∈ s.live ∨ block.place ∈ stack s.ptrs block.node → Has s.capacity block
  isSome_claim : (s.pool.claim s.ptrs).1.isSome

/-- The nodes are those of this pool, and the counts are right. -/
structure Run.Inv (s : Run) : Prop where
  nodes_eq : s.pool.nodes = List.range s.ptrs.length
  ok : s.pool.Ok s.ptrs
  base_num : 0 < s.pool.base_num
  counted : Counted s.capacity s.ptrs s.live

/-- No block is handed out twice. -/
theorem Counted.nodup_live (h : Counted capacity ptrs live) : live.Nodup := by
  rw [List.nodup_iff_count_le_one]
  intro block
  have hcount := h.count block
  split at hcount <;> omega

variable {s : Run}

/-- The blocks that are counted are kept apart. -/
theorem Run.Inv.disjoint (h : s.Inv) : s.Disjoint where
  nodup_live := h.counted.nodup_live
  nodup_stack := h.counted.nodup_stack
  owned block hhas := by
    constructor
    · exact h.counted.notMem_stack
    · intro hfree
      have hcount := h.counted.count block
      rw [if_pos hhas, freeCount, List.count_eq_zero.mpr hfree] at hcount
      exact List.count_pos_iff.mp (by omega)
  has block hblock := by
    rcases hblock with hlive | hfree
    · exact h.counted.has_of_live hlive
    · exact h.counted.has_of_free hfree
  isSome_claim := h.ok.claim.isSome h.base_num

/-- The stack of a live block is never full. -/
theorem Run.Inv.pushWithin_eq (h : s.Inv) {block : Block} (hlive : block ∈ s.live) :
    pushWithin s.capacity s.ptrs block = push s.ptrs block := by
  rw [pushWithin, if_pos (h.counted.length_lt hlive)]

/-- The base node of a new pool has its blocks free. -/
theorem inv_start {num : ℕ} (hnum : 0 < num) : (Run.start num).Inv where
  nodes_eq := rfl
  ok := by
    constructor
    · intro n hn
      rw [List.mem_singleton.mp hn]
      exact Nat.zero_lt_one
    · intro n hn
      rw [← Option.some.inj hn]
      exact List.mem_singleton.mpr rfl
  base_num := hnum
  counted := counted_nil.grow num

/-- A claim that finds nothing makes a node first. -/
theorem Run.Inv.claim (h : s.Inv) : s.claim.Inv := by
  have hclaims := h.ok.claim
  obtain ⟨block, hblock⟩ := Option.isSome_iff_exists.mp (hclaims.isSome h.base_num)
  have htakes := takes_claim hblock
  constructor
  case nodes_eq =>
    show (s.pool.claim s.ptrs).2.1.nodes = List.range (s.pool.claim s.ptrs).2.2.length
    rcases htakes with ⟨ht, hnodes⟩ | ⟨ht, hnodes⟩
    · rw [hnodes, ht.length_eq, h.nodes_eq]
    · rw [hnodes, ht.length_eq, length_nodeNew, List.range_succ, h.nodes_eq]
  case ok => exact hclaims.ok
  case base_num =>
    show 0 < (s.pool.claim s.ptrs).2.1.base_num
    rw [hclaims.base_num]
    exact h.base_num
  case counted =>
    have hlive : s.claim.live = block :: s.live := by
      show (s.pool.claim s.ptrs).1.toList ++ s.live = block :: s.live
      rw [hblock, Option.toList_some, List.singleton_append]
    rw [hlive]
    rcases htakes with ⟨ht, -⟩ | ⟨ht, -⟩
    · have hcapacity : s.claim.capacity = s.capacity := if_pos ht.length_eq
      rw [hcapacity]
      exact h.counted.take ht
    · have hlength : (s.pool.claim s.ptrs).2.2.length ≠ s.ptrs.length := by
        rw [ht.length_eq, length_nodeNew]
        omega
      have hcapacity : s.claim.capacity = s.capacity ++ [s.pool.base_num] := if_neg hlength
      rw [hcapacity]
      exact (h.counted.grow s.pool.base_num).take ht

/-- A live block goes back to its own stack. -/
theorem Run.Inv.reclaim (h : s.Inv) {block : Block} (hlive : block ∈ s.live) :
    (s.reclaim block).Inv := by
  have hptrs : (s.reclaim block).ptrs = push s.ptrs block := h.pushWithin_eq hlive
  have hlength : (s.reclaim block).ptrs.length = s.ptrs.length := by
    rw [hptrs, push, List.length_modify]
  constructor
  case nodes_eq =>
    rw [hlength]
    exact h.nodes_eq
  case ok =>
    constructor
    · intro n hn
      rw [hlength]
      exact h.ok.nodes_lt n hn
    · intro n hn
      -- the hint is the node of the block, and all nodes are those of the pool
      show n ∈ s.pool.nodes
      rw [← Option.some.inj hn, h.nodes_eq, List.mem_range]
      exact h.counted.node_lt hlive
  case base_num => exact h.base_num
  case counted =>
    rw [hptrs]
    exact h.counted.push hlive

theorem Run.Inv.increase (h : s.Inv) (increase_num : ℕ) : (s.increase increase_num).Inv where
  nodes_eq := by
    show s.pool.nodes ++ [s.ptrs.length] = List.range (nodeNew s.ptrs increase_num).length
    rw [length_nodeNew, List.range_succ, h.nodes_eq]
  ok := h.ok.increase increase_num
  base_num := h.base_num
  counted := h.counted.grow increase_num

/-- Every call keeps count of the blocks. -/
theorem Run.Inv.step {call : Call} {t : Run} (h : s.Inv) (hstep : step s call = some t) :
    t.Inv := by
  cases call with
  | claim =>
    rw [← Option.some.inj hstep]
    exact h.claim
  | reclaim block =>
    obtain ⟨hlive, ht⟩ := Option.ite_none_right_eq_some.mp hstep
    rw [← Option.some.inj ht]
    exact h.reclaim hlive
  | increase increase_num =>
    obtain ⟨-, ht⟩ := Option.ite_none_right_eq_some.mp hstep
    rw [← Option.some.inj ht]
    exact h.increase increase_num

/-- In every run of a pool with a positive base number, no block is lost or handed out twice, and
no claim fails. -/
theorem always_disjoint {num : ℕ} (hnum : 0 < num) (calls : List Call) :
    Always step Run.Disjoint (Run.start num) calls := by
  have hinv : Always TypePool.step Run.Inv (Run.start num) calls := by
    apply always_of_invariant
    · intro s call t h hstep
      exact h.step hstep
    · exact inv_start hnum
  apply hinv.imp
  intro s h
  exact h.disjoint

/-- A pool of one block, which has to grow. -/
theorem always_disjoint_one :
    0 < 1 ∧ Always step Run.Disjoint (Run.start 1)
      [.claim, .claim, .reclaim ⟨0, 0⟩, .increase 2, .claim, .claim, .claim] :=
  ⟨Nat.zero_lt_one, always_disjoint Nat.zero_lt_one _⟩

-- a second node is made for the second claim, and the third one gets what was given back
example : ((exec step (Run.start 1) [.claim, .claim, .reclaim ⟨0, 0⟩, .claim]).map Run.live) =
    some [⟨0, 0⟩, ⟨1, 0⟩] := by decide

end TypePool
end Netxy
