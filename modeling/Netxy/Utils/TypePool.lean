import Mathlib.Data.Nat.Notation
import Mathlib.Data.List.Basic

/-!
# `type_pool_s`

Blocks of one size, in nodes that are made as they are needed. A node has an array of blocks and
a stack of those that are free, and each block has a pointer to its node in front of it. Nodes
are numbered in the order in which they are made, of whatever pool they are, and a block is known
by its node and its place in the array. Memory does not run out.
-/

namespace Netxy

/-- A block, with the pointer to its node. -/
structure Block where
  node : ℕ
  place : ℕ
deriving DecidableEq

/-- The `ptr_stack` of every node, with the top of the stack in front. -/
abbrev PtrStacks := List (List ℕ)

/-- `ox_stack_popback` of the stack of a node. -/
def popback (ptrs : PtrStacks) (node : ℕ) : Option (Block × PtrStacks) :=
  match ptrs[node]? with
  | some (place :: rest) => some (⟨node, place⟩, ptrs.set node rest)
  | _ => none

/-- `ox_stack_push` onto the stack of the node of a block. -/
def push (ptrs : PtrStacks) (block : Block) : PtrStacks :=
  ptrs.modify block.node (block.place :: ·)

/-- `type_pool_s`. Its nodes stand in the order of `next`, from `head` to `tail`. -/
structure TypePool where
  base_num : ℕ
  nodes : List ℕ
  free_node : Option ℕ

namespace TypePool

/-- A block that was found, and what has changed. -/
structure Found where
  block : Block
  free_node : Option ℕ
  ptrs : PtrStacks

/-- The loop of `type_pool_claim_help`. After the node with a free block it goes on to the next
one, which becomes `free_node`. -/
def search (ptrs : PtrStacks) : List ℕ → Option Found
  | [] => none
  | node :: rest =>
    match popback ptrs node with
    | some (block, ptrs) => some ⟨block, rest.head?, ptrs⟩
    | none => search ptrs rest

/-- `type_pool_claim_help`. -/
def claimHelp (ptrs : PtrStacks) (p : TypePool) : Option Found :=
  match p.free_node.bind (popback ptrs) with
  | some (block, ptrs) => some ⟨block, p.free_node, ptrs⟩
  | none => search ptrs p.nodes

/-- `type_pool_node_new`: all blocks are free, the last one on top. -/
def nodeNew (ptrs : PtrStacks) (num : ℕ) : PtrStacks := ptrs ++ [(List.range num).reverse]

/-- `ox_type_pool_new`. -/
def new (ptrs : PtrStacks) (num : ℕ) : TypePool × PtrStacks :=
  (⟨num, [ptrs.length], some ptrs.length⟩, nodeNew ptrs num)

/-- `ox_type_pool_increase`. -/
def increase (ptrs : PtrStacks) (p : TypePool) (increase_num : ℕ) : TypePool × PtrStacks :=
  ({ p with nodes := p.nodes ++ [ptrs.length], free_node := some ptrs.length },
    nodeNew ptrs increase_num)

/-- `ox_type_pool_claim`. -/
def claim (ptrs : PtrStacks) (p : TypePool) : Option Block × TypePool × PtrStacks :=
  match p.claimHelp ptrs with
  | some found => (some found.block, { p with free_node := found.free_node }, found.ptrs)
  | none =>
    let (p, ptrs) := p.increase ptrs p.base_num
    match p.claimHelp ptrs with
    | some found => (some found.block, { p with free_node := found.free_node }, found.ptrs)
    | none => (none, p, ptrs)

/-- `ox_type_pool_reclaim`. The block goes to the stack of its own node. -/
def reclaim (ptrs : PtrStacks) (p : TypePool) (block : Block) : TypePool × PtrStacks :=
  ({ p with free_node := some block.node }, push ptrs block)

/-! ## What a claim does -/

variable {ptrs : PtrStacks} {p : TypePool}

/-- The nodes exist, and `free_node` is one of them. -/
structure Ok (ptrs : PtrStacks) (p : TypePool) : Prop where
  nodes_lt : ∀ n ∈ p.nodes, n < ptrs.length
  free_node : ∀ n ∈ p.free_node, n ∈ p.nodes

/-- No block of the pool is free. -/
def Empty (ptrs : PtrStacks) (p : TypePool) : Prop := ∀ n ∈ p.nodes, ptrs[n]? = some []

/-- Only stacks of these nodes were changed. -/
structure Frame (nodes : List ℕ) (ptrs ptrs' : PtrStacks) : Prop where
  length : ptrs'.length = ptrs.length
  other : ∀ n, n ∉ nodes → ptrs'[n]? = ptrs[n]?

/-- A block comes from the stack of its node. -/
theorem popback_eq_some {node : ℕ} {block : Block} {ptrs' : PtrStacks}
    (h : popback ptrs node = some (block, ptrs')) :
    block.node = node ∧ Frame [node] ptrs ptrs' := by
  unfold popback at h
  split at h
  · obtain ⟨hblock, hstacks⟩ := Prod.mk.inj (Option.some.inj h)
    rw [← hblock, ← hstacks]
    refine ⟨rfl, List.length_set, fun n hn => ?_⟩
    exact List.getElem?_set_ne fun heq => hn (List.mem_singleton.mpr heq.symm)
  · exact absurd h.symm (Option.some_ne_none _)

/-- An empty stack gives nothing. -/
theorem popback_eq_none {node : ℕ} (h : ptrs[node]? = some []) : popback ptrs node = none := by
  rw [popback, h]

/-- More nodes may have changed. -/
theorem Frame.mono {nodes nodes' : List ℕ} {ptrs' : PtrStacks} (h : Frame nodes ptrs ptrs')
    (hsub : ∀ n ∈ nodes, n ∈ nodes') : Frame nodes' ptrs ptrs' :=
  ⟨h.length, fun n hn => h.other n fun hmem => hn (hsub n hmem)⟩

/-- A block that was found lies in one of the nodes. -/
structure Finds (ptrs : PtrStacks) (nodes : List ℕ) (found : Found) : Prop where
  block : found.block.node ∈ nodes
  free_node : ∀ n ∈ found.free_node, n ∈ nodes
  frame : Frame nodes ptrs found.ptrs

/-- The search ends at a node with a free block, and goes on to a node of the pool, if any. -/
theorem exists_popback_of_search {nodes : List ℕ} {found : Found}
    (h : search ptrs nodes = some found) :
    ∃ node ∈ nodes, popback ptrs node = some (found.block, found.ptrs) ∧
      ∀ n ∈ found.free_node, n ∈ nodes := by
  induction nodes with
  | nil => exact absurd h.symm (Option.some_ne_none _)
  | cons node rest ih =>
    rw [search] at h
    split at h
    · rename_i block ptrs' hpop
      rw [← Option.some.inj h]
      refine ⟨node, List.mem_cons_self, hpop, fun n hn => ?_⟩
      exact List.mem_cons_of_mem _ (List.mem_of_mem_head? hn)
    · obtain ⟨last, hlast, hpop, hfree⟩ := ih h
      exact ⟨last, List.mem_cons_of_mem _ hlast, hpop,
        fun n hn => List.mem_cons_of_mem _ (hfree n hn)⟩

/-- A block of a node that the pool has. -/
theorem finds_of_popback {nodes : List ℕ} {node : ℕ} {found : Found} (hnode : node ∈ nodes)
    (hpop : popback ptrs node = some (found.block, found.ptrs))
    (hfree : ∀ n ∈ found.free_node, n ∈ nodes) : Finds ptrs nodes found := by
  obtain ⟨hblock, hframe⟩ := popback_eq_some hpop
  constructor
  case block =>
    rw [hblock]
    exact hnode
  case free_node => exact hfree
  case frame =>
    apply hframe.mono
    intro n hn
    rw [List.mem_singleton.mp hn]
    exact hnode

/-- What the search finds belongs to the pool. -/
theorem Ok.finds_claimHelp (hp : p.Ok ptrs) {found : Found}
    (h : p.claimHelp ptrs = some found) : Finds ptrs p.nodes found := by
  unfold claimHelp at h
  split at h
  · rename_i block ptrs' hpop
    obtain ⟨node, hfree, hpop⟩ := Option.bind_eq_some_iff.mp hpop
    rw [← Option.some.inj h]
    exact finds_of_popback (hp.free_node node hfree) hpop hp.free_node
  · obtain ⟨node, hnode, hpop, hfree⟩ := exists_popback_of_search h
    exact finds_of_popback hnode hpop hfree

/-- A search of empty nodes ends without a block. -/
theorem search_eq_none {nodes : List ℕ} (h : ∀ n ∈ nodes, ptrs[n]? = some []) :
    search ptrs nodes = none := by
  induction nodes with
  | nil => rfl
  | cons node rest ih =>
    rw [search, popback_eq_none (h node List.mem_cons_self)]
    exact ih fun n hn => h n (List.mem_cons_of_mem _ hn)

/-- Without a free block none is found. -/
theorem claimHelp_eq_none (hp : p.Ok ptrs) (h : p.Empty ptrs) : p.claimHelp ptrs = none := by
  have hfree : p.free_node.bind (popback ptrs) = none := by
    rw [Option.bind_eq_none_iff]
    intro node hnode
    exact popback_eq_none (h node (hp.free_node node hnode))
  rw [claimHelp, hfree]
  exact search_eq_none h

/-- A new node leaves the stacks that there are. -/
theorem getElem?_nodeNew_of_lt {n : ℕ} (h : n < ptrs.length) (num : ℕ) :
    (nodeNew ptrs num)[n]? = ptrs[n]? := List.getElem?_append_left h

/-- A new node is one of the pool's. -/
theorem Ok.increase (hp : p.Ok ptrs) (num : ℕ) :
    (p.increase ptrs num).1.Ok (p.increase ptrs num).2 := by
  have hlength : (p.increase ptrs num).2.length = ptrs.length + 1 := by
    show (ptrs ++ [(List.range num).reverse]).length = _
    rw [List.length_append, List.length_singleton]
  refine ⟨fun n hn => ?_, fun n hn => ?_⟩
  · rw [hlength]
    rcases List.mem_append.mp hn with hn | hn
    · exact Nat.lt_succ_of_lt (hp.nodes_lt n hn)
    · rw [List.mem_singleton.mp hn]
      exact Nat.lt_succ_self _
  · rw [← Option.some.inj hn]
    exact List.mem_append_right _ (List.mem_singleton.mpr rfl)

/-- A new node with blocks has a free one. -/
theorem exists_claimHelp_increase {num : ℕ} (hnum : 0 < num) :
    ∃ found, (p.increase ptrs num).1.claimHelp (p.increase ptrs num).2 = some found := by
  have hstack : (nodeNew ptrs num)[ptrs.length]? = some (List.range num).reverse := by
    rw [nodeNew, List.getElem?_append_right (Nat.le_refl _), Nat.sub_self]
    rfl
  obtain ⟨place, rest, hrest⟩ : ∃ place rest, (List.range num).reverse = place :: rest := by
    refine List.exists_cons_of_ne_nil fun hnil => ?_
    have hlength := congrArg List.length hnil
    rw [List.length_reverse, List.length_range, List.length_nil] at hlength
    omega
  have hpop : popback (nodeNew ptrs num) ptrs.length =
      some (⟨ptrs.length, place⟩, (nodeNew ptrs num).set ptrs.length rest) := by
    rw [popback, hstack, hrest]
  have hfree : (p.increase ptrs num).1.free_node.bind (popback (p.increase ptrs num).2) =
      popback (nodeNew ptrs num) ptrs.length := rfl
  rw [claimHelp, hfree, hpop]
  exact ⟨_, rfl⟩

/-- What a claim leaves: its pool may have got a new node, and no other pool is touched. -/
structure Claims (ptrs : PtrStacks) (p : TypePool) (result : Option Block) (p' : TypePool)
    (ptrs' : PtrStacks) : Prop where
  ok : p'.Ok ptrs'
  base_num : p'.base_num = p.base_num
  kept : ∀ n ∈ p.nodes, n ∈ p'.nodes
  fresh : ∀ n ∈ p'.nodes, n ∈ p.nodes ∨ n = ptrs.length
  length_le : ptrs.length ≤ ptrs'.length
  other : ∀ n < ptrs.length, n ∉ p'.nodes → ptrs'[n]? = ptrs[n]?
  block : ∀ b ∈ result, b.node ∈ p'.nodes
  isSome : 0 < p.base_num → result.isSome
  empty : p.base_num = 0 → p.Empty ptrs → result = none ∧ p'.Empty ptrs'

/-- The nodes are the pool's own, wherever the block came from. -/
theorem Finds.ok {nodes : List ℕ} {found : Found} (h : Finds ptrs nodes found)
    (hp : ∀ n ∈ nodes, n < ptrs.length) (base_num : ℕ) :
    Ok found.ptrs ⟨base_num, nodes, found.free_node⟩ := by
  refine ⟨fun n hn => ?_, h.free_node⟩
  rw [h.frame.length]
  exact hp n hn

/-- Where a block is free in the pool as it is. -/
theorem claims_of_found (hp : p.Ok ptrs) {found : Found}
    (h : p.claimHelp ptrs = some found) :
    Claims ptrs p (some found.block) { p with free_node := found.free_node } found.ptrs := by
  have hfinds := hp.finds_claimHelp h
  refine ⟨hfinds.ok hp.nodes_lt p.base_num, rfl, fun n hn => hn, fun n hn => .inl hn,
    Nat.le_of_eq hfinds.frame.length.symm, fun n _ hn => hfinds.frame.other n hn, fun b hb => ?_,
    fun _ => rfl, fun _ hempty => ?_⟩
  · rw [← Option.some.inj hb]
    exact hfinds.block
  · rw [claimHelp_eq_none hp hempty] at h
    exact absurd h.symm (Option.some_ne_none _)

/-- The one new node is the last. -/
theorem nodes_increase {n : ℕ} {num : ℕ} (hn : n ∈ (p.increase ptrs num).1.nodes) :
    n ∈ p.nodes ∨ n = ptrs.length :=
  (List.mem_append.mp hn).imp_right List.mem_singleton.mp

/-- A new node without blocks has none that is free. -/
theorem Ok.empty_increase (hp : p.Ok ptrs) (h : p.Empty ptrs) :
    (p.increase ptrs 0).1.Empty (p.increase ptrs 0).2 := by
  intro n hn
  rcases nodes_increase hn with hn | hn
  · have hsame : (p.increase ptrs 0).2[n]? = ptrs[n]? :=
      getElem?_nodeNew_of_lt (hp.nodes_lt n hn) 0
    rw [hsame]
    exact h n hn
  · show (ptrs ++ [(List.range 0).reverse])[n]? = some []
    rw [hn, List.getElem?_append_right (Nat.le_refl _), Nat.sub_self]
    rfl

/-- Where the pool has to grow first. -/
theorem claims_of_increase (hp : p.Ok ptrs) (h : p.claimHelp ptrs = none) :
    Claims ptrs p (p.claim ptrs).1 (p.claim ptrs).2.1 (p.claim ptrs).2.2 := by
  have hgrown := hp.increase p.base_num
  have hkept : ∀ n ∈ p.nodes, n ∈ (p.increase ptrs p.base_num).1.nodes :=
    fun n hn => List.mem_append_left _ hn
  have hlength : ptrs.length ≤ (p.increase ptrs p.base_num).2.length := by
    show ptrs.length ≤ (ptrs ++ [(List.range p.base_num).reverse]).length
    rw [List.length_append]
    exact Nat.le_add_right _ _
  have hfresh : ∀ n ∈ (p.increase ptrs p.base_num).1.nodes, n ∈ p.nodes ∨ n = ptrs.length :=
    fun n hn => nodes_increase hn
  have hother : ∀ n < ptrs.length, (p.increase ptrs p.base_num).2[n]? = ptrs[n]? :=
    fun n hn => getElem?_nodeNew_of_lt hn p.base_num
  rcases hsecond : (p.increase ptrs p.base_num).1.claimHelp
      (p.increase ptrs p.base_num).2 with _ | found
  · have hclaim : p.claim ptrs =
        (none, (p.increase ptrs p.base_num).1, (p.increase ptrs p.base_num).2) := by
      rw [claim, h]
      simp only [hsecond]
    rw [hclaim]
    refine ⟨hgrown, rfl, hkept, hfresh, hlength,
      fun n hlt _ => hother n hlt, fun b hb => absurd hb.symm (Option.some_ne_none b),
      fun hpos => ?_, fun hzero hempty => ⟨rfl, ?_⟩⟩
    · have hsome : ∃ found, (p.increase ptrs p.base_num).1.claimHelp
          (p.increase ptrs p.base_num).2 = some found := exists_claimHelp_increase hpos
      obtain ⟨found, hfound⟩ := hsome
      exact absurd (hsecond.symm.trans hfound).symm (Option.some_ne_none found)
    · rw [hzero]
      exact hp.empty_increase hempty
  · have hclaim : p.claim ptrs = (some found.block,
        { (p.increase ptrs p.base_num).1 with free_node := found.free_node },
        found.ptrs) := by
      rw [claim, h]
      simp only [hsecond]
    have hfinds := hgrown.finds_claimHelp hsecond
    rw [hclaim]
    refine ⟨hfinds.ok hgrown.nodes_lt p.base_num, rfl, hkept, hfresh,
      Nat.le_trans hlength (Nat.le_of_eq hfinds.frame.length.symm), fun n hlt hn => ?_, fun b hb => ?_,
      fun _ => rfl, fun hzero hempty => ?_⟩
    · exact (hfinds.frame.other n hn).trans (hother n hlt)
    · rw [← Option.some.inj hb]
      exact hfinds.block
    · rw [hzero] at hgrown hsecond
      rw [claimHelp_eq_none hgrown (hp.empty_increase hempty)] at hsecond
      exact absurd hsecond.symm (Option.some_ne_none found)

/-- A claim never fails, and touches the pool's own nodes alone. -/
theorem Ok.claim (hp : p.Ok ptrs) :
    Claims ptrs p (p.claim ptrs).1 (p.claim ptrs).2.1 (p.claim ptrs).2.2 := by
  rcases h : p.claimHelp ptrs with _ | found
  · exact claims_of_increase hp h
  · have hclaim : p.claim ptrs =
        (some found.block, { p with free_node := found.free_node }, found.ptrs) := by
      rw [TypePool.claim, h]
    rw [hclaim]
    exact claims_of_found hp h

end TypePool

end Netxy
