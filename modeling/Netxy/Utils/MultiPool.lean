import Mathlib.Algebra.Ring.Int.Defs
import Mathlib.Algebra.Ring.Nat
import Mathlib.Data.List.Basic
import Netxy.Lib.Transition
import Netxy.Utils.TypePool

/-!
# `multi_pool_s`

Pools of blocks of several lengths. The pool that a block comes from is kept in a signed `char`
in front of the block, and `ox_multi_pool_lenclaim` copies the number of pools into one. A block
lies in an array, behind the pointer to its node, with as much room as the length of its pool
gives it.
-/

namespace Netxy
open Transition

/-- `multi_pool_s`, with the stacks of all its nodes and the `pool_index` of every block. -/
structure MultiPool where
  lens : List Int32
  msg_pools : List TypePool
  ptrs : PtrStacks
  pool_index : Block → Int8
  /-- a `pool_index` was written where its block has no room for it -/
  overrun : Bool

namespace MultiPool

/-- The number of pools. -/
def max (m : MultiPool) : ℕ := m.lens.length

/-- The second loop of `ox_multi_pool_new`. -/
def newPools : PtrStacks → List ℕ → List TypePool × PtrStacks
  | ptrs, [] => ([], ptrs)
  | ptrs, num :: nums =>
    let (pool, ptrs) := TypePool.new ptrs num
    let (pools, ptrs) := newPools ptrs nums
    (pool :: pools, ptrs)

/-- The `element_size` that `type_pool_node_new` is given: the length, the index and the pointer
to the node. `sizeof` makes the sums those of a `size_t`, and they come back as an `int`. -/
def elementSize (len add : Int32) : ℤ := Int.bmod (len.toInt + add.toInt + 1 + 8) (2 ^ 32)

/-- A pool can be made: no sum or product of `int`s overflows, and a block has room for the
pointer that `type_pool_node_new` writes into it. (A negative size `malloc` cannot give.) -/
def Made (add : Int32) (size : ℕ × Int32) : Prop :=
  (-2 ^ 31 ≤ size.2.toInt + add.toInt ∧ size.2.toInt + add.toInt < 2 ^ 31) ∧
    size.1 * elementSize size.2 add < 2 ^ 31 ∧ (size.1 = 0 ∨ 8 ≤ elementSize size.2 add)

instance (add : Int32) (size : ℕ × Int32) : Decidable (Made add size) :=
  inferInstanceAs (Decidable (_ ∧ _))

/-- The pools of `ox_multi_pool_new`. -/
def make (sizes : List (ℕ × Int32)) (add : Int32) : MultiPool where
  lens := sizes.map fun size => size.2 + add
  msg_pools := (newPools [] (sizes.map Prod.fst)).1
  ptrs := (newPools [] (sizes.map Prod.fst)).2
  pool_index _ := 0
  overrun := false

/-- `ox_multi_pool_new`, with `nums` and `lens` as one array of pairs; `none` where it is not
defined. -/
def new (sizes : List (ℕ × Int32)) (add : Int32) : Option MultiPool :=
  if ∀ size ∈ sizes, Made add size then some (make sizes add) else none

/-- What `ox_multi_pool_claim` and `ox_multi_pool_lenclaim` do with an index. A block of a
negative length ends in front of its `pool_index`. -/
def claimAt (m : MultiPool) (pool_index : ℕ) (pool : TypePool) : Option Block × MultiPool :=
  let (block, pool, ptrs) := pool.claim m.ptrs
  (block,
    { m with
      msg_pools := m.msg_pools.set pool_index pool
      ptrs := ptrs
      pool_index := fun b => if some b = block then Int8.ofNat pool_index else m.pool_index b
      overrun := m.overrun || (block.isSome && m.lens[pool_index]?.any fun l => l < 0) })

/-- `ox_multi_pool_claim`. -/
def claim (m : MultiPool) (pool_index : ℕ) : Option (Option Block × MultiPool) :=
  (m.msg_pools[pool_index]?).map (m.claimAt pool_index)

/-- The loop of `ox_multi_pool_lenclaim`, and the check behind it. -/
def lenIndex (m : MultiPool) (len : Int32) : Option ℕ :=
  let packet_pool_max : Int8 := Int8.ofNat m.max
  let pool_index := (m.lens.take packet_pool_max.toInt.toNat).findIdx fun l => len ≤ l
  if (pool_index : ℤ) < packet_pool_max.toInt then some pool_index else none

/-- `ox_multi_pool_lenclaim`. -/
def lenclaim (m : MultiPool) (len : Int32) : Option Block × MultiPool :=
  match (m.lenIndex len).bind m.claim with
  | some x => x
  | none => (none, m)

/-- The index that is read in front of a block, if it is one of `msg_pools`. -/
def poolOf (m : MultiPool) (block : Block) : Option ℕ :=
  let pool_index := (m.pool_index block).toInt
  if 0 ≤ pool_index ∧ pool_index < m.max then some pool_index.toNat else none

/-- `ox_multi_pool_reclaim`. -/
def reclaim (m : MultiPool) (block : Block) : Option MultiPool :=
  (m.poolOf block).bind fun i =>
    (m.msg_pools[i]?).map fun pool =>
      let (pool, ptrs) := pool.reclaim m.ptrs block
      { m with msg_pools := m.msg_pools.set i pool, ptrs := ptrs }

/-- `ox_multi_pool_config_len`; nothing where its assertion fails. -/
def configLen (m : MultiPool) (block : Block) : Option Int32 :=
  (m.poolOf block).bind fun i => m.lens[i]?

/-! ## Sequences of calls -/

/-- The calls of the interface. -/
inductive Call
  | claim (pool_index : ℕ)
  | lenclaim (len : Int32)
  | reclaim (block : Block)

/-- A block that is in use: the pool it came from, and the length that was asked for. -/
structure Live where
  block : Block
  pool : ℕ
  len : Option Int32

/-- Pools, the blocks in use, and which calls of `ox_multi_pool_lenclaim` returned a block. -/
structure Run where
  pools : MultiPool
  live : List Live
  answers : List (Int32 × Bool)

/-- What a call does. -/
def Run.act (s : Run) : Call → Option Run
  | .claim i =>
    (s.pools.claim i).map fun x =>
      { s with
        pools := x.2
        live := (x.1.map fun b => ⟨b, i, none⟩).toList ++ s.live }
  | .lenclaim len =>
    let x := s.pools.lenclaim len
    some
      { pools := x.2
        live := (x.1.bind fun b => (s.pools.lenIndex len).map fun i => ⟨b, i, some len⟩).toList ++
          s.live
        answers := (len, x.1.isSome) :: s.answers }
  | .reclaim block =>
    (s.pools.reclaim block).map fun m =>
      { s with pools := m, live := s.live.filter fun b => b.block ≠ block }

/-- Nothing is known of the memory where an index was written outside of its block. -/
def step (s : Run) (c : Call) : Option Run := if s.pools.overrun then none else s.act c

/-- What a caller may do: use an index of a pool, and give back a block in use. -/
def Allowed (s : Run) : Call → Prop
  | .claim i => i < s.pools.max
  | .lenclaim _ => True
  | .reclaim block => ∃ b ∈ s.live, b.block = block

/-- The block would go back onto a stack of the pool. -/
def GoesBack (m : MultiPool) (block : Block) (i : ℕ) : Prop :=
  ∃ m' pool rest, m.reclaim block = some m' ∧ m'.msg_pools[i]? = some pool ∧
    block.node ∈ pool.nodes ∧ m'.ptrs[block.node]? = some (block.place :: rest)

/-- Blocks in use have the length of their pool and go back to it, and a block was returned
exactly where some pool has blocks that are long enough. -/
structure Correct (s : Run) : Prop where
  inside : s.pools.overrun = false
  poolOf : ∀ b ∈ s.live, s.pools.poolOf b.block = some b.pool
  configLen : ∀ b ∈ s.live, ∃ l, s.pools.lens[b.pool]? = some l ∧
    s.pools.configLen b.block = some l ∧ ∀ len ∈ b.len, len ≤ l
  goesBack : ∀ b ∈ s.live, s.pools.GoesBack b.block b.pool
  answers : ∀ a ∈ s.answers, a.2 = true ↔ ∃ l ∈ s.pools.lens, a.1 ≤ l

/-- The index survives in a signed `char` and has room in front of the block, unless there is no
block to keep it in front of; and the search for a pool comes as far as the first one with blocks
that are long enough, which has blocks, with room for the index. -/
def Call.Fits (sizes : List (ℕ × Int32)) (add : Int32) : Call → Prop
  | .claim i => ∀ size ∈ sizes[i]?, size.1 = 0 ∨ (i ≤ 127 ∧ 0 ≤ size.2 + add)
  | .lenclaim len => ∀ i ∈ sizes.findIdx? fun size => len ≤ size.2 + add,
      (i : ℤ) < (Int8.ofNat sizes.length).toInt ∧
        ∀ size ∈ sizes[i]?, 0 < size.1 ∧ 0 ≤ size.2 + add
  | .reclaim _ => True

/-! ## One step -/

/-- The pools have nodes of their own, and blocks in use lie in a node of their pool and have its
index. -/
structure Sound (sizes : List (ℕ × Int32)) (add : Int32) (s : Run) : Prop where
  inside : s.pools.overrun = false
  lens : s.pools.lens = sizes.map fun size => size.2 + add
  length : s.pools.msg_pools.length = sizes.length
  base_num : ∀ (i : ℕ) (p : TypePool), s.pools.msg_pools[i]? = some p →
    ∃ size, sizes[i]? = some size ∧ size.1 = p.base_num
  ok : ∀ (i : ℕ) (p : TypePool), s.pools.msg_pools[i]? = some p → p.Ok s.pools.ptrs
  disjoint : ∀ (i j : ℕ) (p q : TypePool), s.pools.msg_pools[i]? = some p → s.pools.msg_pools[j]? = some q →
    ∀ n ∈ p.nodes, n ∈ q.nodes → i = j
  empty : ∀ (i : ℕ) (p : TypePool), s.pools.msg_pools[i]? = some p → p.base_num = 0 → p.Empty s.pools.ptrs
  live : ∀ b ∈ s.live, ∃ p, s.pools.msg_pools[b.pool]? = some p ∧ b.block.node ∈ p.nodes ∧
    0 < p.base_num ∧ (s.pools.pool_index b.block).toInt = b.pool
  len : ∀ b ∈ s.live, ∀ len ∈ b.len, ∃ l, s.pools.lens[b.pool]? = some l ∧ len ≤ l
  answers : ∀ a ∈ s.answers, a.2 = true ↔ ∃ l ∈ s.pools.lens, a.1 ≤ l

/-- A `char` holds the indices up to 127. -/
theorem toInt_ofNat_eq_iff (i : ℕ) : (Int8.ofNat i).toInt = i ↔ i ≤ 127 := by
  have hlt := (Int8.ofNat i).toInt_lt
  constructor
  · intro h
    omega
  · intro h
    exact Int8.toInt_ofNat_of_lt (by omega)

variable {sizes : List (ℕ × Int32)} {add : Int32} {s : Run}

theorem Sound.length_pools (h : Sound sizes add s) :
    s.pools.msg_pools.length = s.pools.max := by
  rw [max, h.lens, List.length_map, h.length]

/-- What the invariant says of the runs is what was promised. -/
theorem Sound.correct (h : Sound sizes add s) : Correct s := by
  have hpoolOf : ∀ b ∈ s.live, s.pools.poolOf b.block = some b.pool := by
    intro b hb
    obtain ⟨p, hp, -, -, hindex⟩ := h.live b hb
    have hlt : b.pool < s.pools.max := by
      rw [← h.length_pools]
      exact (List.getElem?_eq_some_iff.mp hp).1
    rw [MultiPool.poolOf, hindex]
    simp only [Int.toNat_natCast]
    exact if_pos ⟨by omega, by omega⟩
  refine ⟨h.inside, hpoolOf, fun b hb => ?_, fun b hb => ?_, h.answers⟩
  · obtain ⟨p, hp, -⟩ := h.live b hb
    have hlt : b.pool < s.pools.lens.length := by
      have hlength := h.length_pools
      rw [max] at hlength
      rw [← hlength]
      exact (List.getElem?_eq_some_iff.mp hp).1
    refine ⟨s.pools.lens[b.pool], List.getElem?_eq_getElem hlt, ?_, fun len hlen => ?_⟩
    · rw [MultiPool.configLen, hpoolOf b hb, Option.bind_some]
      exact List.getElem?_eq_getElem hlt
    · obtain ⟨l, hl, hle⟩ := h.len b hb len hlen
      rw [List.getElem?_eq_getElem hlt] at hl
      rw [Option.some.inj hl]
      exact hle
  · obtain ⟨p, hp, hnode, -⟩ := h.live b hb
    have hlt := (h.ok _ _ hp).nodes_lt _ hnode
    have hpool := (List.getElem?_eq_some_iff.mp hp).1
    have hreclaim : s.pools.reclaim b.block = some
        { s.pools with
          msg_pools := s.pools.msg_pools.set b.pool { p with free_node := some b.block.node }
          ptrs := push s.pools.ptrs b.block } := by
      rw [reclaim, hpoolOf b hb, Option.bind_some, hp]
      rfl
    refine ⟨_, { p with free_node := some b.block.node }, s.pools.ptrs[b.block.node], hreclaim,
      List.getElem?_set_self hpool, hnode, ?_⟩
    show (push s.pools.ptrs b.block)[b.block.node]? = _
    rw [push, List.getElem?_modify_eq, List.getElem?_eq_getElem hlt]
    rfl

/-- What stands in a list after one entry of it was replaced. -/
theorem getElem?_set_cases {l : List TypePool} {i j : ℕ} {p q : TypePool}
    (h : (l.set i p)[j]? = some q) : (j = i ∧ q = p) ∨ (j ≠ i ∧ l[j]? = some q) := by
  by_cases hij : i = j
  · rw [hij] at h
    have hlt := (List.getElem?_eq_some_iff.mp h).1
    rw [List.length_set] at hlt
    rw [List.getElem?_set_self hlt] at h
    exact .inl ⟨hij.symm, (Option.some.inj h).symm⟩
  · rw [List.getElem?_set_ne hij] at h
    exact .inr ⟨fun heq => hij heq.symm, h⟩

/-- A pool may be replaced by one with the same number of blocks, whose nodes are its own or new,
where the stacks of all other nodes stay. -/
structure Replaces (ptrs ptrs' : PtrStacks) (p p' : TypePool) : Prop where
  base_num : p'.base_num = p.base_num
  ok : p'.Ok ptrs'
  kept : ∀ n ∈ p.nodes, n ∈ p'.nodes
  fresh : ∀ n ∈ p'.nodes, n ∈ p.nodes ∨ n = ptrs.length
  length_le : ptrs.length ≤ ptrs'.length
  other : ∀ n < ptrs.length, n ∉ p'.nodes → ptrs'[n]? = ptrs[n]?
  empty : p.base_num = 0 → p.Empty ptrs → p'.Empty ptrs'

/-- The nodes of the other pools are not among those of the new one. -/
theorem Replaces.notMem {ptrs' : PtrStacks} {p p' : TypePool}
    (hr : Replaces s.pools.ptrs ptrs' p p') (h : Sound sizes add s) {i j : ℕ} {q : TypePool}
    (hp : s.pools.msg_pools[i]? = some p) (hq : s.pools.msg_pools[j]? = some q) (hj : j ≠ i) :
    ∀ n ∈ q.nodes, n ∉ p'.nodes := by
  intro n hn hn'
  rcases hr.fresh n hn' with hold | hnew
  · exact hj (h.disjoint j i q p hq hp n hn hold)
  · have hnlt := (h.ok j q hq).nodes_lt n hn
    omega

/-- The pool of a block in use, where one pool was replaced. -/
theorem Replaces.live {ptrs' : PtrStacks} {p p' : TypePool}
    (hr : Replaces s.pools.ptrs ptrs' p p') (h : Sound sizes add s) {i : ℕ}
    (hp : s.pools.msg_pools[i]? = some p) {b : Live} (hb : b ∈ s.live) :
    ∃ q, (s.pools.msg_pools.set i p')[b.pool]? = some q ∧ b.block.node ∈ q.nodes ∧
      0 < q.base_num ∧ (b.pool ≠ i → b.block.node ∉ p'.nodes) ∧
      (b.pool = i → 0 < p.base_num) := by
  obtain ⟨q, hq, hnode, hpos, -⟩ := h.live b hb
  by_cases hbi : b.pool = i
  · rw [hbi] at hq ⊢
    have hqp : q = p := Option.some.inj (hq.symm.trans hp)
    rw [hqp] at hnode hpos
    refine ⟨p', List.getElem?_set_self (List.getElem?_eq_some_iff.mp hp).1, hr.kept _ hnode, ?_,
      fun hne => absurd rfl hne, fun _ => hpos⟩
    rw [hr.base_num]
    exact hpos
  · refine ⟨q, ?_, hnode, hpos, fun _ => hr.notMem h hp hq hbi _ hnode, fun heq => absurd heq hbi⟩
    rw [List.getElem?_set_ne fun heq => hbi heq.symm]
    exact hq

/-- What is sound stays so where a pool is replaced, if it is for the blocks in use. -/
theorem Sound.replace (h : Sound sizes add s) {i : ℕ} {p p' : TypePool}
    (hp : s.pools.msg_pools[i]? = some p) {ptrs' : PtrStacks}
    (hr : Replaces s.pools.ptrs ptrs' p p') {pool_index : Block → Int8} {live : List Live}
    (hlive : ∀ b ∈ live, ∃ q, (s.pools.msg_pools.set i p')[b.pool]? = some q ∧
      b.block.node ∈ q.nodes ∧ 0 < q.base_num ∧ (pool_index b.block).toInt = b.pool)
    (hlen : ∀ b ∈ live, ∀ len ∈ b.len, ∃ l, s.pools.lens[b.pool]? = some l ∧ len ≤ l)
    {answers : List (Int32 × Bool)}
    (hanswers : ∀ a ∈ answers, a.2 = true ↔ ∃ l ∈ s.pools.lens, a.1 ≤ l) :
    Sound sizes add
      { pools :=
          { s.pools with
            msg_pools := s.pools.msg_pools.set i p', ptrs := ptrs', pool_index := pool_index }
        live := live
        answers := answers } := by
  refine ⟨h.inside, h.lens, ?_, fun j q hq => ?_, fun j q hq => ?_, fun j k q r hq hr' n hn hn' => ?_,
    fun j q hq hzero => ?_, hlive, hlen, hanswers⟩
  · show (s.pools.msg_pools.set i p').length = _
    rw [List.length_set]
    exact h.length
  · rcases getElem?_set_cases hq with ⟨hj, hqp⟩ | ⟨-, hq⟩
    · rw [hj, hqp, hr.base_num]
      exact h.base_num i p hp
    · exact h.base_num j q hq
  · rcases getElem?_set_cases hq with ⟨-, hqp⟩ | ⟨-, hq⟩
    · rw [hqp]
      exact hr.ok
    · have hold := h.ok j q hq
      exact ⟨fun n hn => Nat.lt_of_lt_of_le (hold.nodes_lt n hn) hr.length_le, hold.free_node⟩
  · rcases getElem?_set_cases hq with ⟨hj, hqp⟩ | ⟨hj, hq⟩
    · rcases getElem?_set_cases hr' with ⟨hk, -⟩ | ⟨hk, hr'⟩
      · exact hj.trans hk.symm
      · rw [hqp] at hn
        exact absurd hn (hr.notMem h hp hr' hk n hn')
    · rcases getElem?_set_cases hr' with ⟨hk, hrp⟩ | ⟨-, hr'⟩
      · rw [hrp] at hn'
        exact absurd hn' (hr.notMem h hp hq hj n hn)
      · exact h.disjoint j k q r hq hr' n hn hn'
  · rcases getElem?_set_cases hq with ⟨-, hqp⟩ | ⟨hj, hq⟩
    · rw [hqp, hr.base_num] at hzero
      rw [hqp]
      exact hr.empty hzero (h.empty i p hp hzero)
    · intro n hn
      have hnlt := (h.ok j q hq).nodes_lt n hn
      exact (hr.other n hnlt (hr.notMem h hp hq hj n hn)).trans (h.empty j q hq hzero n hn)

/-- A claim from a pool whose index fits, or which has no blocks. -/
theorem Sound.claimAt (h : Sound sizes add s) {i : ℕ} {p : TypePool}
    (hp : s.pools.msg_pools[i]? = some p)
    (hi : p.base_num = 0 ∨ (i ≤ 127 ∧ ∀ l ∈ s.pools.lens[i]?, 0 ≤ l)) (asked : Option Int32)
    (hlen : ∀ len ∈ asked, ∃ l, s.pools.lens[i]? = some l ∧ len ≤ l)
    {answers : List (Int32 × Bool)}
    (hanswers : ∀ a ∈ answers, a.2 = true ↔ ∃ l ∈ s.pools.lens, a.1 ≤ l) :
    Sound sizes add
      { pools := (s.pools.claimAt i p).2
        live := ((s.pools.claimAt i p).1.map fun b => ⟨b, i, asked⟩).toList ++ s.live
        answers := answers } := by
  have hclaims := (h.ok i p hp).claim
  generalize hresult : (p.claim s.pools.ptrs).1 = result at hclaims
  generalize hpool : (p.claim s.pools.ptrs).2.1 = p' at hclaims
  generalize hstacks : (p.claim s.pools.ptrs).2.2 = ptrs' at hclaims
  have hr : Replaces s.pools.ptrs ptrs' p p' :=
    ⟨hclaims.base_num, hclaims.ok, hclaims.kept, hclaims.fresh, hclaims.length_le, hclaims.other,
      fun hzero hempty => (hclaims.empty hzero hempty).2⟩
  have hblocks : ∀ b ∈ result, 0 < p.base_num := by
    intro b hb
    by_contra hzero
    have hnone := (hclaims.empty (by omega) (h.empty i p hp (by omega))).1
    rw [hnone] at hb
    exact absurd hb.symm (Option.some_ne_none b)
  have hindex : 0 < p.base_num → (Int8.ofNat i).toInt = i := by
    intro hpos
    exact (toInt_ofNat_eq_iff i).mpr (hi.resolve_left (by omega)).1
  -- a block that was found has room for its index
  have hroom : (result.isSome && s.pools.lens[i]?.any fun l => l < 0) = false := by
    rcases hsome : result with _ | b
    · rfl
    · have hpos := hblocks b hsome
      have hl := (hi.resolve_left (by omega)).2
      rcases hlens : s.pools.lens[i]? with _ | l
      · rfl
      · exact decide_eq_false (Int32.not_lt.mpr (hl l hlens))
  have hclaimed : s.pools.claimAt i p = (result,
      { s.pools with
        msg_pools := s.pools.msg_pools.set i p'
        ptrs := ptrs'
        pool_index := fun b => if some b = result then Int8.ofNat i else s.pools.pool_index b }) := by
    rw [MultiPool.claimAt]
    simp only [hresult, hpool, hstacks, hroom, Bool.or_false]
  rw [hclaimed]
  refine h.replace hp hr (fun b hb => ?_) (fun b hb => ?_) hanswers
  · rcases List.mem_append.mp hb with hb | hb
    · -- the block that was claimed
      obtain ⟨c, hc, hbc⟩ := Option.map_eq_some_iff.mp (Option.mem_toList.mp hb)
      have hpos := hblocks c hc
      rw [← hbc]
      refine ⟨p', List.getElem?_set_self (List.getElem?_eq_some_iff.mp hp).1, hclaims.block c hc,
        ?_, ?_⟩
      · rw [hclaims.base_num]
        exact hpos
      · show (if some c = result then Int8.ofNat i else _).toInt = i
        rw [if_pos (Eq.symm hc)]
        exact hindex hpos
    · -- a block that was in use already
      obtain ⟨q, hq, hnode, hpos, hother, hsame⟩ := hr.live h hp hb
      obtain ⟨-, -, -, -, hbindex⟩ := h.live b hb
      refine ⟨q, hq, hnode, hpos, ?_⟩
      split_ifs with heq
      · have hbi : b.pool = i := by
          by_contra hbi
          exact hother hbi (hclaims.block _ heq.symm)
        rw [hbi]
        exact hindex (hsame hbi)
      · exact hbindex
  · rcases List.mem_append.mp hb with hb | hb
    · obtain ⟨c, -, hbc⟩ := Option.map_eq_some_iff.mp (Option.mem_toList.mp hb)
      rw [← hbc]
      exact hlen
    · exact h.len b hb

/-- Whether a claim from a pool returns a block. -/
theorem Sound.isSome_claimAt_iff (h : Sound sizes add s) {i : ℕ} {p : TypePool}
    (hp : s.pools.msg_pools[i]? = some p) :
    (s.pools.claimAt i p).1.isSome = true ↔ 0 < p.base_num := by
  have hclaims := (h.ok i p hp).claim
  have hresult : (s.pools.claimAt i p).1 = (p.claim s.pools.ptrs).1 := rfl
  rw [hresult]
  constructor
  · intro hsome
    by_contra hzero
    rw [(hclaims.empty (by omega) (h.empty i p hp (by omega))).1] at hsome
    exact Bool.false_ne_true hsome
  · exact hclaims.isSome

/-- A block that has no room for its index is a place where memory is overwritten. -/
theorem Sound.overrun_claimAt (h : Sound sizes add s) {i : ℕ} {p : TypePool}
    (hp : s.pools.msg_pools[i]? = some p) (hpos : 0 < p.base_num) {l : Int32}
    (hl : s.pools.lens[i]? = some l) (hneg : ¬ 0 ≤ l) :
    (s.pools.claimAt i p).2.overrun = true := by
  have hsome := (h.isSome_claimAt_iff hp).mpr hpos
  have hlt : decide (l < 0) = true := decide_eq_true (Int32.not_le.mp hneg)
  show (s.pools.overrun || ((s.pools.claimAt i p).1.isSome && s.pools.lens[i]?.any _)) = true
  rw [hsome, hl, Option.any_some, hlt]
  exact Bool.or_true _

/-- A pool that gets one of its blocks back. -/
theorem replaces_reclaim {ptrs : PtrStacks} {p : TypePool} (hp : p.Ok ptrs) {block : Block}
    (hnode : block.node ∈ p.nodes) (hpos : 0 < p.base_num) :
    Replaces ptrs (push ptrs block) p { p with free_node := some block.node } where
  base_num := rfl
  ok := by
    have hlength : (push ptrs block).length = ptrs.length := List.length_modify _ _ _
    refine ⟨fun n hn => ?_, fun n hn => ?_⟩
    · rw [hlength]
      exact hp.nodes_lt n hn
    · rw [← Option.some.inj hn]
      exact hnode
  kept _ hn := hn
  fresh _ hn := .inl hn
  length_le := Nat.le_of_eq (List.length_modify _ _ _).symm
  other n _ hn := List.getElem?_modify_ne _ _ fun heq => hn (heq ▸ hnode)
  empty hzero _ := absurd hzero (Nat.pos_iff_ne_zero.mp hpos)

/-- A block in use goes back to its pool. -/
theorem Sound.reclaim (h : Sound sizes add s) {b : Live} (hb : b ∈ s.live) {m : MultiPool}
    (hm : s.pools.reclaim b.block = some m) :
    Sound sizes add
      { s with pools := m, live := s.live.filter fun c => c.block ≠ b.block } := by
  obtain ⟨p, hp, hnode, hpos, -⟩ := h.live b hb
  have hr := replaces_reclaim (h.ok _ p hp) hnode hpos
  rw [MultiPool.reclaim, h.correct.poolOf b hb, Option.bind_some, hp, Option.map_some] at hm
  rw [← Option.some.inj hm]
  refine h.replace hp hr (fun c hc => ?_) (fun c hc => ?_) h.answers
  · have hc' := (List.mem_filter.mp hc).1
    obtain ⟨q, hq, hcnode, hcpos, -⟩ := hr.live h hp hc'
    obtain ⟨-, -, -, -, hindex⟩ := h.live c hc'
    exact ⟨q, hq, hcnode, hcpos, hindex⟩
  · exact h.len c (List.mem_filter.mp hc).1

/-! ## The search for a pool -/

theorem toInt_ofNat_le (n : ℕ) : (Int8.ofNat n).toInt ≤ n := by
  by_cases hn : n ≤ 127
  · exact Int.le_of_eq ((toInt_ofNat_eq_iff n).mpr hn)
  · have hlt := (Int8.ofNat n).toInt_lt
    omega

/-- The search ends at the first pool that is long enough, if it comes that far. -/
theorem lenIndex_eq_some_iff (m : MultiPool) (len : Int32) (i : ℕ) :
    m.lenIndex len = some i ↔
      m.lens.findIdx? (fun l => len ≤ l) = some i ∧ (i : ℤ) < (Int8.ofNat m.max).toInt := by
  have hle := toInt_ofNat_le m.max
  have hmax : m.max = m.lens.length := rfl
  rw [lenIndex, List.findIdx_take, List.findIdx?_eq_some_iff_findIdx_eq,
    Option.ite_none_right_eq_some, Option.some.injEq]
  constructor
  · intro h
    omega
  · intro h
    omega

/-- Where no pool is found, there is no block. -/
theorem lenclaim_of_none {m : MultiPool} {len : Int32} (h : m.lenIndex len = none) :
    m.lenclaim len = (none, m) := by
  rw [lenclaim, h]
  rfl

/-- Where one is found, the block comes from it. -/
theorem lenclaim_of_some {m : MultiPool} {len : Int32} {i : ℕ} {p : TypePool}
    (h : m.lenIndex len = some i) (hp : m.msg_pools[i]? = some p) :
    m.lenclaim len = m.claimAt i p := by
  rw [lenclaim, h, Option.bind_some, claim, hp]
  rfl

/-- The length of a pool, as it was given. -/
theorem Sound.lens_eq (h : Sound sizes add s) {i : ℕ} {size : ℕ × Int32}
    (hsize : sizes[i]? = some size) : s.pools.lens[i]? = some (size.2 + add) := by
  rw [h.lens, List.getElem?_map, hsize]
  rfl

/-- The first pool that is long enough, by the lengths that were given. -/
theorem Sound.findIdx?_lens (h : Sound sizes add s) (len : Int32) :
    s.pools.lens.findIdx? (fun l => len ≤ l) = sizes.findIdx? fun size => len ≤ size.2 + add := by
  rw [h.lens, List.findIdx?_map]
  rfl

theorem exists_le_iff {lens : List Int32} {len : Int32} :
    (∃ l ∈ lens, len ≤ l) ↔ ∃ i, lens.findIdx? (fun l => len ≤ l) = some i := by
  rw [← Option.isSome_iff_exists, List.findIdx?_isSome, List.any_eq_true]
  simp only [decide_eq_true_eq]

/-- A search that finds a pool finds one of the pools there are, whose index is kept. -/
theorem Sound.of_lenIndex (h : Sound sizes add s) {len : Int32} {i : ℕ}
    (hi : s.pools.lenIndex len = some i) :
    i ≤ 127 ∧ (∃ p, s.pools.msg_pools[i]? = some p) ∧
      ∃ l, s.pools.lens[i]? = some l ∧ len ≤ l := by
  obtain ⟨hfirst, hlt⟩ := (lenIndex_eq_some_iff s.pools len i).mp hi
  have hchar := (Int8.ofNat s.pools.max).toInt_lt
  obtain ⟨hbound, hle, -⟩ := List.findIdx?_eq_some_iff_getElem.mp hfirst
  have hlength := h.length_pools
  rw [max] at hlength
  rw [← hlength] at hbound
  refine ⟨by omega, ⟨_, List.getElem?_eq_getElem hbound⟩, ?_⟩
  exact ⟨_, List.getElem?_eq_getElem (hlength ▸ hbound), of_decide_eq_true hle⟩

variable {c : Call} {t : Run}

/-- `ox_multi_pool_lenclaim` returns a block exactly if the search finds a pool, and the pool
has blocks. -/
theorem Sound.isSome_lenclaim_iff (h : Sound sizes add s) (len : Int32) :
    (s.pools.lenclaim len).1.isSome = true ↔
      ∃ i p, s.pools.lenIndex len = some i ∧ s.pools.msg_pools[i]? = some p ∧
        0 < p.base_num := by
  rcases hi : s.pools.lenIndex len with _ | i
  · rw [lenclaim_of_none hi]
    refine iff_of_false Bool.false_ne_true fun hsome => ?_
    obtain ⟨i, p, hnone, -⟩ := hsome
    exact absurd hnone.symm (Option.some_ne_none i)
  · obtain ⟨-, ⟨p, hp⟩, -⟩ := h.of_lenIndex hi
    rw [lenclaim_of_some hi hp, h.isSome_claimAt_iff hp]
    constructor
    · intro hpos
      exact ⟨i, p, rfl, hp, hpos⟩
    · intro hsome
      obtain ⟨j, q, hj, hq, hpos⟩ := hsome
      rw [← Option.some.inj hj, hp] at hq
      rw [Option.some.inj hq]
      exact hpos

/-- The answer of `ox_multi_pool_lenclaim` is right exactly if the search comes to the first pool
that is long enough, and it has blocks. -/
theorem Sound.answer_iff (h : Sound sizes add s) (len : Int32) :
    ((s.pools.lenclaim len).1.isSome = true ↔ ∃ l ∈ s.pools.lens, len ≤ l) ↔
      ∀ i ∈ sizes.findIdx? fun size => len ≤ size.2 + add,
        (i : ℤ) < (Int8.ofNat sizes.length).toInt ∧ ∀ size ∈ sizes[i]?, 0 < size.1 := by
  have hmax : s.pools.max = sizes.length := by
    rw [max, h.lens, List.length_map]
  have hindex := lenIndex_eq_some_iff s.pools len
  rw [h.isSome_lenclaim_iff len, exists_le_iff, ← h.findIdx?_lens len, ← hmax]
  constructor
  · intro hanswer i hi
    obtain ⟨j, p, hj, hp, hpos⟩ := hanswer.mpr ⟨i, hi⟩
    obtain ⟨hfirst, hlt⟩ := (hindex j).mp hj
    have hij : i = j := Option.some.inj (Eq.trans (Eq.symm hi) hfirst)
    obtain ⟨size, hsize, hbase⟩ := h.base_num j p hp
    rw [hij]
    refine ⟨hlt, fun size' hsize' => ?_⟩
    rw [Option.some.inj (Eq.trans (Eq.symm hsize') hsize), hbase]
    exact hpos
  · intro hfits
    constructor
    · intro hsome
      obtain ⟨i, p, hi, -⟩ := hsome
      exact ⟨i, ((hindex i).mp hi).1⟩
    · intro hsome
      obtain ⟨i, hi⟩ := hsome
      obtain ⟨hlt, hnum⟩ := hfits i hi
      have hfound := (hindex i).mpr ⟨hi, hlt⟩
      obtain ⟨-, ⟨p, hp⟩, -⟩ := h.of_lenIndex hfound
      obtain ⟨size, hsize, hbase⟩ := h.base_num i p hp
      refine ⟨i, p, hfound, hp, ?_⟩
      rw [← hbase]
      exact hnum size hsize

/-- A call that fits keeps the pools sound. -/
theorem Sound.act (h : Sound sizes add s) (hallowed : Allowed s c) (hc : c.Fits sizes add)
    (hact : s.act c = some t) : Sound sizes add t := by
  cases c with
  | claim i =>
    obtain ⟨x, hx, ht⟩ := Option.map_eq_some_iff.mp hact
    obtain ⟨p, hp, hpx⟩ := Option.map_eq_some_iff.mp hx
    obtain ⟨size, hsize, hbase⟩ := h.base_num i p hp
    have hi : p.base_num = 0 ∨ (i ≤ 127 ∧ ∀ l ∈ s.pools.lens[i]?, 0 ≤ l) := by
      rw [← hbase, h.lens_eq hsize]
      refine (hc size hsize).imp_right fun hfits => ⟨hfits.1, fun l hl => ?_⟩
      rw [← Option.some.inj hl]
      exact hfits.2
    rw [← ht, ← hpx]
    exact h.claimAt hp hi none (fun len hlen => absurd hlen.symm (Option.some_ne_none len)) h.answers
  | lenclaim len =>
    rw [← Option.some.inj hact]
    have hanswers : ∀ a ∈ (len, (s.pools.lenclaim len).1.isSome) :: s.answers,
        a.2 = true ↔ ∃ l ∈ s.pools.lens, a.1 ≤ l := by
      intro a ha
      rcases List.mem_cons.mp ha with ha | ha
      · rw [ha]
        exact (h.answer_iff len).mpr fun i hi => (hc i hi).imp_right fun hsize size hs => (hsize size hs).1
      · exact h.answers a ha
    rcases hi : s.pools.lenIndex len with _ | i
    · rw [lenclaim_of_none hi] at hanswers ⊢
      exact ⟨h.inside, h.lens, h.length, h.base_num, h.ok, h.disjoint, h.empty, h.live, h.len,
        hanswers⟩
    · obtain ⟨hle, ⟨p, hp⟩, l, hl, hlen⟩ := h.of_lenIndex hi
      obtain ⟨size, hsize, hbase⟩ := h.base_num i p hp
      have hfirst := ((lenIndex_eq_some_iff s.pools len i).mp hi).1
      rw [h.findIdx?_lens len] at hfirst
      have hroom : ∀ l ∈ s.pools.lens[i]?, 0 ≤ l := by
        intro l hl
        rw [h.lens_eq hsize] at hl
        rw [← Option.some.inj hl]
        exact ((hc i hfirst).2 size hsize).2
      rw [lenclaim_of_some hi hp] at hanswers ⊢
      have hall := h.claimAt hp (.inr ⟨hle, hroom⟩) (some len)
        (fun len' hlen' => ⟨l, hl, Option.some.inj hlen' ▸ hlen⟩) hanswers
      rcases hb : (s.pools.claimAt i p).1 with _ | b
      · rw [hb] at hall
        exact hall
      · rw [hb] at hall
        exact hall
  | reclaim block =>
    obtain ⟨m, hm, ht⟩ := Option.map_eq_some_iff.mp hact
    obtain ⟨b, hb, hblock⟩ := hallowed
    rw [← ht, ← hblock]
    rw [← hblock] at hm
    exact h.reclaim hb hm

theorem Sound.step_eq (h : Sound sizes add s) (c : Call) : MultiPool.step s c = s.act c := by
  rw [MultiPool.step, if_neg (Bool.eq_false_iff.mp h.inside)]

/-- Every call within the conditions keeps the pools sound. -/
theorem Sound.step (h : Sound sizes add s) (hallowed : Allowed s c) (hc : c.Fits sizes add)
    (hstep : MultiPool.step s c = some t) : Sound sizes add t :=
  h.act hallowed hc ((h.step_eq c).symm.trans hstep)

/-- A claim from a pool whose index does not fit has another index in front of its block, or
none. -/
theorem Sound.not_correct_claim (h : Sound sizes add s) {i : ℕ} {p : TypePool}
    (hp : s.pools.msg_pools[i]? = some p) (hpos : 0 < p.base_num)
    (hi : ¬ (i ≤ 127 ∧ ∀ l ∈ s.pools.lens[i]?, 0 ≤ l)) :
    ∃ t, MultiPool.step s (.claim i) = some t ∧ ¬Correct t := by
  obtain ⟨b, hb⟩ := Option.isSome_iff_exists.mp ((h.isSome_claimAt_iff hp).mpr hpos)
  have hclaim : s.pools.claim i = some (s.pools.claimAt i p) := by
    rw [claim, hp]
    rfl
  refine ⟨_, (h.step_eq _).trans (congrArg (Option.map _) hclaim), fun hcorrect => hi ⟨?_, ?_⟩⟩
  · have hlive : (⟨b, i, none⟩ : Live) ∈
        (((s.pools.claimAt i p).1.map fun b => ⟨b, i, none⟩).toList ++ s.live) := by
      rw [hb]
      exact List.mem_append_left _ (List.mem_singleton.mpr rfl)
    have hindex := hcorrect.poolOf _ hlive
    have hwritten : (s.pools.claimAt i p).2.pool_index b = Int8.ofNat i := if_pos hb.symm
    rw [MultiPool.poolOf] at hindex
    simp only [hwritten] at hindex
    obtain ⟨hrange, hsame⟩ := Option.ite_none_right_eq_some.mp hindex
    have hnat := Option.some.inj hsame
    exact (toInt_ofNat_eq_iff i).mp (by omega)
  · intro l hl
    by_contra hneg
    have hover := h.overrun_claimAt hp hpos hl hneg
    exact Bool.false_ne_true (Eq.trans (Eq.symm hcorrect.inside) hover)

/-- A length that does not fit is answered wrongly, or by a block without room for its index. -/
theorem Sound.not_correct_lenclaim (h : Sound sizes add s) {len : Int32}
    (hc : ¬(Call.lenclaim len).Fits sizes add) :
    ∃ t, MultiPool.step s (.lenclaim len) = some t ∧ ¬Correct t := by
  refine ⟨_, h.step_eq _, fun hcorrect => hc fun i hi => ?_⟩
  have hlens : (s.pools.lenclaim len).2.lens = s.pools.lens := by
    rcases hi : s.pools.lenIndex len with _ | i
    · rw [lenclaim_of_none hi]
    · obtain ⟨-, ⟨p, hp⟩, -⟩ := h.of_lenIndex hi
      rw [lenclaim_of_some hi hp]
      rfl
  have hanswer := hcorrect.answers _ List.mem_cons_self
  rw [hlens] at hanswer
  obtain ⟨hlt, hnum⟩ := (h.answer_iff len).mp hanswer i hi
  refine ⟨hlt, fun size hsize => ⟨hnum size hsize, ?_⟩⟩
  -- the search comes to this pool, so that its block was given out
  have hfirst := h.findIdx?_lens len
  have hmax : s.pools.max = sizes.length := by
    rw [max, h.lens, List.length_map]
  have hindex : s.pools.lenIndex len = some i := by
    rw [lenIndex_eq_some_iff, hfirst, hmax]
    exact ⟨hi, hlt⟩
  obtain ⟨-, ⟨p, hp⟩, -⟩ := h.of_lenIndex hindex
  obtain ⟨size', hsize', hbase⟩ := h.base_num i p hp
  have hpos : 0 < p.base_num := by
    rw [← hbase]
    exact hnum size' hsize'
  by_contra hneg
  have hover := h.overrun_claimAt hp hpos (h.lens_eq hsize) hneg
  have hinside : (s.pools.lenclaim len).2.overrun = false := hcorrect.inside
  rw [lenclaim_of_some hindex hp] at hinside
  exact Bool.false_ne_true (Eq.trans (Eq.symm hinside) hover)

/-- A call that does not fit leaves something wrong. -/
theorem Sound.not_correct (h : Sound sizes add s) (hallowed : Allowed s c)
    (hc : ¬c.Fits sizes add) : ∃ t, MultiPool.step s c = some t ∧ ¬Correct t := by
  cases c with
  | claim i =>
    have hlt : i < s.pools.msg_pools.length := by
      rw [h.length_pools]
      exact hallowed
    have hp := List.getElem?_eq_getElem hlt
    obtain ⟨size, hsize, hbase⟩ := h.base_num i _ hp
    have hfits : ¬ (size.1 = 0 ∨ (i ≤ 127 ∧ 0 ≤ size.2 + add)) := by
      intro hfits
      refine hc fun size' hsize' => ?_
      rwa [Option.some.inj (Eq.trans (Eq.symm hsize') hsize)]
    obtain ⟨hnum, hi⟩ := not_or.mp hfits
    refine h.not_correct_claim hp (by omega) fun hindex => hi ⟨hindex.1, ?_⟩
    exact hindex.2 _ (h.lens_eq hsize)
  | lenclaim len => exact h.not_correct_lenclaim hc
  | reclaim block => exact absurd trivial hc

/-- Every call that is allowed goes through. -/
theorem Sound.exists_step (h : Sound sizes add s) (hallowed : Allowed s c) :
    ∃ t, MultiPool.step s c = some t := by
  rw [h.step_eq]
  cases c with
  | claim i =>
    have hlt : i < s.pools.msg_pools.length := by
      rw [h.length_pools]
      exact hallowed
    have hclaim : s.pools.claim i = some (s.pools.claimAt i s.pools.msg_pools[i]) := by
      rw [claim, List.getElem?_eq_getElem hlt]
      rfl
    exact ⟨_, congrArg (Option.map _) hclaim⟩
  | lenclaim len => exact ⟨_, rfl⟩
  | reclaim block =>
    obtain ⟨b, hb, hblock⟩ := hallowed
    obtain ⟨m, pool, rest, hm, -⟩ := h.correct.goesBack b hb
    rw [hblock] at hm
    exact ⟨_, congrArg (Option.map _) hm⟩

/-! ## Whole runs -/

theorem length_newPools (ptrs : PtrStacks) (nums : List ℕ) :
    (newPools ptrs nums).1.length = nums.length := by
  induction nums generalizing ptrs with
  | nil => rfl
  | cons num nums ih => exact congrArg (· + 1) (ih (TypePool.new ptrs num).2)

/-- A stack for each pool, behind those there are. -/
theorem newPools_stacks (ptrs : PtrStacks) (nums : List ℕ) :
    (newPools ptrs nums).2 = ptrs ++ nums.map fun num => (List.range num).reverse := by
  induction nums generalizing ptrs with
  | nil => exact (List.append_nil ptrs).symm
  | cons num nums ih =>
    refine (ih (TypePool.new ptrs num).2).trans ?_
    show ptrs ++ [(List.range num).reverse] ++ _ = _
    rw [List.append_assoc, List.singleton_append, List.map_cons]

/-- Every pool starts with a node of its own. -/
theorem newPools_pools (ptrs : PtrStacks) (nums : List ℕ) {i : ℕ} {p : TypePool}
    (hp : (newPools ptrs nums).1[i]? = some p) :
    ∃ num, nums[i]? = some num ∧ p = ⟨num, [ptrs.length + i], some (ptrs.length + i)⟩ := by
  induction nums generalizing ptrs i with
  | nil => exact absurd hp.symm (Option.some_ne_none p)
  | cons num nums ih =>
    cases i with
    | zero => exact ⟨num, rfl, (Option.some.inj hp).symm⟩
    | succ i =>
      obtain ⟨num', hnum, hpool⟩ := ih (TypePool.new ptrs num).2 hp
      have hlength : (TypePool.new ptrs num).2.length + i = ptrs.length + (i + 1) := by
        show (ptrs ++ [(List.range num).reverse]).length + i = _
        rw [List.length_append, List.length_singleton]
        omega
      rw [hlength] at hpool
      exact ⟨num', hnum, hpool⟩

/-- New pools have all of their blocks free. -/
theorem sound_make (sizes : List (ℕ × Int32)) (add : Int32) :
    Sound sizes add ⟨make sizes add, [], []⟩ := by
  have hlength : (make sizes add).msg_pools.length = sizes.length := by
    rw [make, length_newPools, List.length_map]
  have hstacks : (make sizes add).ptrs =
      (sizes.map Prod.fst).map fun num => (List.range num).reverse :=
    (newPools_stacks [] _).trans (List.nil_append _)
  have hpools : ∀ (i : ℕ) (p : TypePool), (make sizes add).msg_pools[i]? = some p →
      ∃ size, sizes[i]? = some size ∧ p = ⟨size.1, [i], some i⟩ := by
    intro i p hp
    obtain ⟨num, hnum, hpool⟩ := newPools_pools [] _ hp
    rw [List.length_nil, Nat.zero_add] at hpool
    rw [List.getElem?_map] at hnum
    obtain ⟨size, hsize, hfst⟩ := Option.map_eq_some_iff.mp hnum
    rw [← hfst] at hpool
    exact ⟨size, hsize, hpool⟩
  refine ⟨rfl, rfl, hlength, fun i p hp => ?_, fun i p hp => ?_, fun i j p q hp hq n hn hn' => ?_,
    fun i p hp hzero n hn => ?_, fun b hb => absurd hb List.not_mem_nil,
    fun b hb => absurd hb List.not_mem_nil, fun a ha => absurd ha List.not_mem_nil⟩
  · obtain ⟨size, hsize, hpool⟩ := hpools i p hp
    rw [hpool]
    exact ⟨size, hsize, rfl⟩
  · obtain ⟨size, hsize, hpool⟩ := hpools i p hp
    rw [hpool]
    refine ⟨fun n hn => ?_, fun n hn => ?_⟩
    · have hlt := (List.getElem?_eq_some_iff.mp hp).1
      show n < (make sizes add).ptrs.length
      rw [List.mem_singleton.mp hn, hstacks, List.length_map, List.length_map, ← hlength]
      exact hlt
    · rw [← Option.some.inj hn]
      exact List.mem_singleton.mpr rfl
  · obtain ⟨size, -, hpool⟩ := hpools i p hp
    obtain ⟨size', -, hpool'⟩ := hpools j q hq
    rw [hpool] at hn
    rw [hpool'] at hn'
    exact (List.mem_singleton.mp hn).symm.trans (List.mem_singleton.mp hn')
  · obtain ⟨size, hsize, hpool⟩ := hpools i p hp
    rw [hpool] at hn hzero
    show (make sizes add).ptrs[n]? = some []
    rw [List.mem_singleton.mp hn, hstacks, List.getElem?_map, List.getElem?_map, hsize]
    show some (List.range size.1).reverse = some []
    rw [show size.1 = 0 from hzero]
    rfl

/-- Which calls fit does not depend on the state, so that a run of calls that fit is one of which
each fits. -/
theorem Sound.throughout_fits_iff (h : Sound sizes add s) {calls : List Call}
    (hcalls : Throughout MultiPool.step Allowed s calls) :
    Throughout MultiPool.step (fun _ c => c.Fits sizes add) s calls ↔
      ∀ c ∈ calls, c.Fits sizes add := by
  induction calls generalizing s with
  | nil => exact iff_of_true trivial fun c hc => absurd hc List.not_mem_nil
  | cons c calls ih =>
    rw [List.forall_mem_cons, Throughout]
    refine and_congr_right fun hc => ?_
    obtain ⟨t, ht⟩ := h.exists_step hcalls.1
    have hnext := ih (h.step hcalls.1 hc ht) (hcalls.2 t ht)
    rw [← hnext]
    constructor
    · intro hall
      exact hall t ht
    · intro hall u hu
      rw [ht] at hu
      rw [← Option.some.inj hu]
      exact hall

/-- In a run of calls that a caller may make, pools are made and everything is right in every
state exactly if the sizes can be made and every call fits: no claim has an index above 127 of a
pool with blocks, every length that some pool is long enough for is asked of one that the search
for it reaches, and that has blocks, and no block is given out that has no room for its index. -/
theorem always_correct_iff (sizes : List (ℕ × Int32)) (add : Int32) (calls : List Call)
    (hcalls : ∀ m ∈ new sizes add, Throughout step Allowed ⟨m, [], []⟩ calls) :
    (∃ m ∈ new sizes add, Always step Correct ⟨m, [], []⟩ calls) ↔
      (∀ size ∈ sizes, Made add size) ∧ ∀ c ∈ calls, c.Fits sizes add := by
  unfold new at hcalls ⊢
  by_cases hmade : ∀ size ∈ sizes, Made add size
  · rw [if_pos hmade] at hcalls ⊢
    have hmake := sound_make sizes add
    have hrun := hcalls (make sizes add) rfl
    have hiff : Always step Correct ⟨make sizes add, [], []⟩ calls ↔
        ∀ c ∈ calls, c.Fits sizes add := by
      rw [← hmake.throughout_fits_iff hrun]
      exact always_iff_throughout (fun _ hs => hs.correct)
        (fun _ _ _ hs hallowed hc ht => hs.step hallowed hc ht)
        (fun _ _ hs hallowed hc => hs.not_correct hallowed hc) hmake hrun
    constructor
    · rintro ⟨m, hm, halways⟩
      cases hm
      exact ⟨hmade, hiff.mp halways⟩
    · rintro ⟨-, hfits⟩
      exact ⟨_, rfl, hiff.mpr hfits⟩
  · rw [if_neg hmade]
    refine iff_of_false ?_ fun h => hmade h.1
    rintro ⟨m, hm, -⟩
    cases hm

/-- Two pools, and a block of each. -/
theorem always_correct_two :
    (∃ m ∈ new [(1, 4), (2, 16)] 0, Always step Correct ⟨m, [], []⟩ [.lenclaim 10, .claim 0]) ↔
      (∀ size ∈ [(1, 4), (2, 16)], Made 0 size) ∧
        ∀ c ∈ [Call.lenclaim 10, .claim 0], c.Fits [(1, 4), (2, 16)] 0 := by
  refine always_correct_iff [(1, 4), (2, 16)] 0 [.lenclaim 10, .claim 0] fun m hm => ?_
  have hm : m = make [(1, 4), (2, 16)] 0 := (Option.some.inj hm).symm
  rw [hm]
  refine ⟨trivial, fun t ht => ⟨?_, fun _ _ => trivial⟩⟩
  rw [← Option.some.inj ht]
  show 0 < 2
  exact Nat.zero_lt_two

/-- Where the search does not come to a pool that is long enough, the answer is wrong. -/
theorem not_correct_of_lenIndex {len : Int32} (hindex : s.pools.lenIndex len = none)
    (hlong : ∃ l ∈ s.pools.lens, len ≤ l) (ht : s.act (.lenclaim len) = some t) :
    ¬Correct t := by
  intro hcorrect
  rw [Run.act, lenclaim_of_none hindex] at ht
  rw [← Option.some.inj ht] at hcorrect
  exact Bool.false_ne_true ((hcorrect.answers _ List.mem_cons_self).mpr hlong)

/-- As a `char` the number of 128 pools is -128, and no pool is searched. -/
theorem not_always_correct :
    ¬ ∀ (sizes : List (ℕ × Int32)) (add : Int32) (calls : List Call) (m : MultiPool), sizes ≠ [] →
      new sizes add = some m → Throughout step Allowed ⟨m, [], []⟩ calls →
        Always step Correct ⟨m, [], []⟩ calls := by
  intro h
  have hmade : ∀ size ∈ List.replicate 128 (1, (8 : Int32)), Made 0 size := by
    intro size hsize
    rw [List.eq_of_mem_replicate hsize]
    decide
  have hrun := h (List.replicate 128 (1, 8)) 0 [.lenclaim 8] _ (List.cons_ne_nil _ _)
    (if_pos hmade) ⟨trivial, fun _ _ => trivial⟩
  have hsound := sound_make (List.replicate 128 (1, 8)) 0
  have hindex : (make (List.replicate 128 (1, 8)) 0).lenIndex 8 = none := by
    rw [Option.eq_none_iff_forall_ne_some]
    intro i hi
    have hlt := ((lenIndex_eq_some_iff _ 8 i).mp hi).2
    have hmax : (make (List.replicate 128 (1, 8)) 0).max = 128 := by
      rw [max, make, List.length_map, List.length_replicate]
    have hchar : (Int8.ofNat 128).toInt = -128 := by decide
    rw [hmax, hchar] at hlt
    omega
  have hlong : (8 : Int32) ∈ (make (List.replicate 128 (1, 8)) 0).lens :=
    List.mem_map.mpr ⟨(1, 8), List.mem_replicate.mpr ⟨Nat.succ_ne_zero 127, rfl⟩, rfl⟩
  obtain ⟨t, ht⟩ := hsound.exists_step (c := Call.lenclaim 8) trivial
  exact not_correct_of_lenIndex (s := ⟨make (List.replicate 128 (1, 8)) 0, [], []⟩) hindex
    ⟨8, hlong, Int32.le_refl 8⟩ ((hsound.step_eq _).symm.trans ht) (hrun.2 t ht).head

end MultiPool

end Netxy
