import Netxy.Lib.SecureHash
import Mathlib.Tactic.IntervalCases

/-!
# `CSHA1`

The hash of `SHA1.cpp`, as it is compiled on a little-endian machine. The object is the
chaining value, the bit count in two words and the buffer of the block not full yet.
`Transform` is the table of its eighty unrolled rounds over five variables that take turns,
with the schedule kept in sixteen words; `transform_eq` says that it is the compression of
the standard.
-/

namespace Netxy.Sha1

open SecureHash

/-! ## `Transform` -/

/-- `ROL32`. -/
def ROL32 (x : Word) (n : ℕ) : Word := (x <<< n) ||| (x >>> (32 - n))

/-- The sixteen words of `m_block`. -/
abbrev WorkspaceBlock := Vector Word 16

/-- `memcpy(m_block, buffer, 64)`, and the words a little-endian machine reads there. -/
def loadBlock (buffer : List UInt8) : WorkspaceBlock :=
  Vector.ofFn fun i =>
    (buffer.getD (4 * i + 3) 0).toBitVec ++ (buffer.getD (4 * i + 2) 0).toBitVec ++
      (buffer.getD (4 * i + 1) 0).toBitVec ++ (buffer.getD (4 * i) 0).toBitVec

/-- Word `i & 15`. -/
def word (l : WorkspaceBlock) (i : ℕ) : Word := l[i % 16]

def setWord (l : WorkspaceBlock) (i : ℕ) (x : Word) : WorkspaceBlock := l.set (i % 16) x

/-- The value `SHABLK0(i)` leaves at place `i`. -/
def SHABLK0 (l : WorkspaceBlock) (i : ℕ) : Word :=
  (ROL32 (word l i) 24 &&& 0xFF00FF00) ||| (ROL32 (word l i) 8 &&& 0x00FF00FF)

/-- The value `SHABLK(i)` leaves at place `i & 15`. -/
def SHABLK (l : WorkspaceBlock) (i : ℕ) : Word :=
  ROL32 (word l (i + 13) ^^^ word l (i + 8) ^^^ word l (i + 2) ^^^ word l i) 1

/-- The local variables of `Transform`. -/
inductive Var
  | a | b | c | d | e
deriving DecidableEq, Repr

/-- The five round macros. -/
inductive RoundMacro
  | R0 | R1 | R2 | R3 | R4
deriving DecidableEq, Repr

/-- One use of a macro: its five variables and the number of the round. -/
structure Call where
  kind : RoundMacro
  v : Var
  w : Var
  x : Var
  y : Var
  z : Var
  i : ℕ
deriving DecidableEq, Repr

/-- The variables and the block, while the rounds are run. -/
structure Locals where
  a : Word
  b : Word
  c : Word
  d : Word
  e : Word
  l : WorkspaceBlock

/-- The value of a variable. -/
def Locals.get (s : Locals) : Var → Word
  | .a => s.a
  | .b => s.b
  | .c => s.c
  | .d => s.d
  | .e => s.e

/-- An assignment. -/
def Locals.set (s : Locals) (r : Var) (x : Word) : Locals :=
  match r with
  | .a => { s with a := x }
  | .b => { s with b := x }
  | .c => { s with c := x }
  | .d => { s with d := x }
  | .e => { s with e := x }

/-- The function of `w`, `x` and `y` and the constant in a macro. -/
def RoundMacro.mix : RoundMacro → Word → Word → Word → Word
  | .R0, w, x, y | .R1, w, x, y => (w &&& (x ^^^ y)) ^^^ y
  | .R2, w, x, y | .R4, w, x, y => w ^^^ x ^^^ y
  | .R3, w, x, y => ((w ||| x) &&& y) ||| (w &&& x)

def RoundMacro.const : RoundMacro → Word
  | .R0 | .R1 => 0x5A827999
  | .R2 => 0x6ED9EBA1
  | .R3 => 0x8F1BBCDC
  | .R4 => 0xCA62C1D6

/-- The word a macro puts into the block and adds. -/
def RoundMacro.blk : RoundMacro → WorkspaceBlock → ℕ → Word
  | .R0 => SHABLK0
  | _ => SHABLK

/-- `z += mix(w,x,y) + blk(i) + const + ROL32(v,5); w = ROL32(w,30);` -/
def Call.run (s : Locals) (k : Call) : Locals :=
  let blk := k.kind.blk s.l k.i
  let s := { s with l := setWord s.l k.i blk }
  let s := s.set k.z (s.get k.z +
    (k.kind.mix (s.get k.w) (s.get k.x) (s.get k.y) + blk + k.kind.const + ROL32 (s.get k.v) 5))
  s.set k.w (ROL32 (s.get k.w) 30)

open Var RoundMacro in
/-- The four rounds of twenty operations, as they are unrolled. -/
def calls : List Call := [
  ⟨R0,a,b,c,d,e,0⟩, ⟨R0,e,a,b,c,d,1⟩, ⟨R0,d,e,a,b,c,2⟩, ⟨R0,c,d,e,a,b,3⟩,
  ⟨R0,b,c,d,e,a,4⟩, ⟨R0,a,b,c,d,e,5⟩, ⟨R0,e,a,b,c,d,6⟩, ⟨R0,d,e,a,b,c,7⟩,
  ⟨R0,c,d,e,a,b,8⟩, ⟨R0,b,c,d,e,a,9⟩, ⟨R0,a,b,c,d,e,10⟩, ⟨R0,e,a,b,c,d,11⟩,
  ⟨R0,d,e,a,b,c,12⟩, ⟨R0,c,d,e,a,b,13⟩, ⟨R0,b,c,d,e,a,14⟩, ⟨R0,a,b,c,d,e,15⟩,
  ⟨R1,e,a,b,c,d,16⟩, ⟨R1,d,e,a,b,c,17⟩, ⟨R1,c,d,e,a,b,18⟩, ⟨R1,b,c,d,e,a,19⟩,
  ⟨R2,a,b,c,d,e,20⟩, ⟨R2,e,a,b,c,d,21⟩, ⟨R2,d,e,a,b,c,22⟩, ⟨R2,c,d,e,a,b,23⟩,
  ⟨R2,b,c,d,e,a,24⟩, ⟨R2,a,b,c,d,e,25⟩, ⟨R2,e,a,b,c,d,26⟩, ⟨R2,d,e,a,b,c,27⟩,
  ⟨R2,c,d,e,a,b,28⟩, ⟨R2,b,c,d,e,a,29⟩, ⟨R2,a,b,c,d,e,30⟩, ⟨R2,e,a,b,c,d,31⟩,
  ⟨R2,d,e,a,b,c,32⟩, ⟨R2,c,d,e,a,b,33⟩, ⟨R2,b,c,d,e,a,34⟩, ⟨R2,a,b,c,d,e,35⟩,
  ⟨R2,e,a,b,c,d,36⟩, ⟨R2,d,e,a,b,c,37⟩, ⟨R2,c,d,e,a,b,38⟩, ⟨R2,b,c,d,e,a,39⟩,
  ⟨R3,a,b,c,d,e,40⟩, ⟨R3,e,a,b,c,d,41⟩, ⟨R3,d,e,a,b,c,42⟩, ⟨R3,c,d,e,a,b,43⟩,
  ⟨R3,b,c,d,e,a,44⟩, ⟨R3,a,b,c,d,e,45⟩, ⟨R3,e,a,b,c,d,46⟩, ⟨R3,d,e,a,b,c,47⟩,
  ⟨R3,c,d,e,a,b,48⟩, ⟨R3,b,c,d,e,a,49⟩, ⟨R3,a,b,c,d,e,50⟩, ⟨R3,e,a,b,c,d,51⟩,
  ⟨R3,d,e,a,b,c,52⟩, ⟨R3,c,d,e,a,b,53⟩, ⟨R3,b,c,d,e,a,54⟩, ⟨R3,a,b,c,d,e,55⟩,
  ⟨R3,e,a,b,c,d,56⟩, ⟨R3,d,e,a,b,c,57⟩, ⟨R3,c,d,e,a,b,58⟩, ⟨R3,b,c,d,e,a,59⟩,
  ⟨R4,a,b,c,d,e,60⟩, ⟨R4,e,a,b,c,d,61⟩, ⟨R4,d,e,a,b,c,62⟩, ⟨R4,c,d,e,a,b,63⟩,
  ⟨R4,b,c,d,e,a,64⟩, ⟨R4,a,b,c,d,e,65⟩, ⟨R4,e,a,b,c,d,66⟩, ⟨R4,d,e,a,b,c,67⟩,
  ⟨R4,c,d,e,a,b,68⟩, ⟨R4,b,c,d,e,a,69⟩, ⟨R4,a,b,c,d,e,70⟩, ⟨R4,e,a,b,c,d,71⟩,
  ⟨R4,d,e,a,b,c,72⟩, ⟨R4,c,d,e,a,b,73⟩, ⟨R4,b,c,d,e,a,74⟩, ⟨R4,a,b,c,d,e,75⟩,
  ⟨R4,e,a,b,c,d,76⟩, ⟨R4,d,e,a,b,c,77⟩, ⟨R4,c,d,e,a,b,78⟩, ⟨R4,b,c,d,e,a,79⟩]

/-- The copy of the state the rounds start from. -/
def Locals.ofState (state : Hash) (l : WorkspaceBlock) : Locals :=
  { a := state.a, b := state.b, c := state.c, d := state.d, e := state.e, l := l }

/-- `CSHA1::Transform`: the state after the block in `buffer`. -/
def transform (state : Hash) (buffer : List UInt8) : Hash :=
  let s := calls.foldl Call.run (Locals.ofState state (loadBlock buffer))
  { a := state.a + s.a, b := state.b + s.b, c := state.c + s.c, d := state.d + s.d,
    e := state.e + s.e }

/-! ## The rounds are those of the standard -/

/-- The macro is a rotation, by less than the width. -/
theorem ROL32_eq (x : Word) {n : ℕ} (h : n < 32) : ROL32 x n = x.rotateLeft n := by
  rw [BitVec.rotateLeft_def, Nat.mod_eq_of_lt h]
  rfl

/-- The choice as the source writes it. -/
theorem mix_ch (x y z : Word) : (x &&& (y ^^^ z)) ^^^ z = ch x y z := by
  ext i hi
  simp only [ch, BitVec.getElem_xor, BitVec.getElem_and, BitVec.getElem_not]
  cases x[i] <;> cases y[i] <;> cases z[i] <;> rfl

/-- The majority as the source writes it. -/
theorem mix_maj (x y z : Word) : ((x ||| y) &&& z) ||| (x &&& y) = maj x y z := by
  ext i hi
  simp only [maj, BitVec.getElem_xor, BitVec.getElem_and, BitVec.getElem_or]
  cases x[i] <;> cases y[i] <;> cases z[i] <;> rfl

/-- The four bytes of a word in the other order. -/
theorem swap_bytes (p q r s : BitVec 8) :
    (ROL32 (s ++ r ++ q ++ p) 24 &&& 0xFF00FF00) ||| (ROL32 (s ++ r ++ q ++ p) 8 &&& 0x00FF00FF) =
      p ++ q ++ r ++ s := by
  apply BitVec.eq_of_getLsbD_eq
  intro i hi
  rw [ROL32_eq _ (by decide), ROL32_eq _ (by decide)]
  simp only [BitVec.getLsbD_or, BitVec.getLsbD_and, BitVec.getLsbD_rotateLeft,
    BitVec.getLsbD_append]
  interval_cases i <;> simp

/-- The variables by number. -/
def var : ℕ → Var
  | 0 => .a
  | 1 => .b
  | 2 => .c
  | 3 => .d
  | _ => .e

/-- The five variables are different ones. -/
theorem var_injective {i j : ℕ} (hi : i < 5) (hj : j < 5) (h : var i = var j) : i = j := by
  interval_cases i <;> interval_cases j <;> first | rfl | cases h

/-- The variable that plays part `k` in round `t`: each round the parts move on by one. -/
def role (t k : ℕ) : Var := var ((k + 4 * t) % 5)

theorem role_ne {t i j : ℕ} (hi : i < 5) (hj : j < 5) (h : i ≠ j) : role t i ≠ role t j := by
  intro heq
  have hmod := var_injective (Nat.mod_lt _ (by decide)) (Nat.mod_lt _ (by decide)) heq
  omega

/-- Each round renames the variables by one. -/
theorem role_succ (t k : ℕ) : role (t + 1) (k + 1) = role t k := by
  have hmod : (k + 1 + 4 * (t + 1)) % 5 = (k + 4 * t) % 5 := by omega
  rw [role, hmod, role]

theorem role_succ_zero (t : ℕ) : role (t + 1) 0 = role t 4 := by
  have hmod : (0 + 4 * (t + 1)) % 5 = (4 + 4 * t) % 5 := by omega
  rw [role, hmod, role]

/-- The macro of round `t`. -/
def macroAt (t : ℕ) : RoundMacro :=
  if t < 16 then .R0 else if t < 20 then .R1 else if t < 40 then .R2
  else if t < 60 then .R3 else .R4

/-- Round `t` as a use of its macro. -/
def callAt (t : ℕ) : Call :=
  ⟨macroAt t, role t 0, role t 1, role t 2, role t 3, role t 4, t⟩

/-- The unrolled rounds follow one pattern. -/
theorem calls_eq : calls = (List.range 80).map callAt := by decide

/-- The macro of a round mixes by the function of the round. -/
theorem mix_macroAt (t : ℕ) : (macroAt t).mix = f t := by
  funext x y z
  unfold macroAt f
  split_ifs <;> first | omega | exact mix_ch x y z | exact mix_maj x y z | rfl

/-- And adds its constant. -/
theorem const_macroAt (t : ℕ) : (macroAt t).const = K t := by
  unfold macroAt K
  split_ifs <;> first | omega | rfl

@[simp] theorem Locals.get_set_self (s : Locals) (r : Var) (x : Word) : (s.set r x).get r = x := by
  cases r <;> rfl

theorem Locals.get_set_of_ne (s : Locals) {r r' : Var} (h : r' ≠ r) (x : Word) :
    (s.set r x).get r' = s.get r' := by
  cases r <;> cases r' <;> first | rfl | exact absurd rfl h

@[simp] theorem Locals.l_set (s : Locals) (r : Var) (x : Word) : (s.set r x).l = s.l := by
  cases r <;> rfl

@[simp] theorem Locals.get_setBlock (s : Locals) (l : WorkspaceBlock) (r : Var) :
    Locals.get { s with l := l } r = s.get r := by
  cases r <;> rfl

/-- The working variables of the standard before round `t`. -/
def vars (t : ℕ) (s : Locals) : Hash :=
  { a := s.get (role t 0), b := s.get (role t 1), c := s.get (role t 2), d := s.get (role t 3),
    e := s.get (role t 4) }

/-- One use of a macro is one round of the standard. -/
theorem vars_run (t : ℕ) (s : Locals) :
    vars (t + 1) ((callAt t).run s) = SecureHash.round t ((macroAt t).blk s.l t) (vars t s) := by
  have h01 : role t 0 ≠ role t 1 := role_ne (by decide) (by decide) (by decide)
  have h04 : role t 0 ≠ role t 4 := role_ne (by decide) (by decide) (by decide)
  have h14 : role t 1 ≠ role t 4 := role_ne (by decide) (by decide) (by decide)
  have h21 : role t 2 ≠ role t 1 := role_ne (by decide) (by decide) (by decide)
  have h24 : role t 2 ≠ role t 4 := role_ne (by decide) (by decide) (by decide)
  have h31 : role t 3 ≠ role t 1 := role_ne (by decide) (by decide) (by decide)
  have h34 : role t 3 ≠ role t 4 := role_ne (by decide) (by decide) (by decide)
  apply Hash.ext
  · show ((callAt t).run s).get (role (t + 1) 0) = _
    rw [role_succ_zero]
    simp only [Call.run, callAt]
    rw [Locals.get_set_of_ne _ h14.symm, Locals.get_set_self, mix_macroAt, const_macroAt,
      ROL32_eq _ (by decide)]
    simp only [Locals.get_setBlock, SecureHash.round, vars]
    ac_rfl
  · show ((callAt t).run s).get (role (t + 1) (0 + 1)) = s.get (role t 0)
    rw [role_succ]
    simp only [Call.run, callAt]
    rw [Locals.get_set_of_ne _ h01, Locals.get_set_of_ne _ h04, Locals.get_setBlock]
  · show ((callAt t).run s).get (role (t + 1) (1 + 1)) = (s.get (role t 1)).rotateLeft 30
    rw [role_succ]
    simp only [Call.run, callAt]
    rw [Locals.get_set_self, Locals.get_set_of_ne _ h14, Locals.get_setBlock,
      ROL32_eq _ (by decide)]
  · show ((callAt t).run s).get (role (t + 1) (2 + 1)) = s.get (role t 2)
    rw [role_succ]
    simp only [Call.run, callAt]
    rw [Locals.get_set_of_ne _ h21, Locals.get_set_of_ne _ h24, Locals.get_setBlock]
  · show ((callAt t).run s).get (role (t + 1) (3 + 1)) = s.get (role t 3)
    rw [role_succ]
    simp only [Call.run, callAt]
    rw [Locals.get_set_of_ne _ h31, Locals.get_set_of_ne _ h34, Locals.get_setBlock]

/-- The block before round `t`: the last sixteen words of the schedule, and the words of the
message that no round has taken yet. -/
structure Scheduled (M : ℕ → Word) (t : ℕ) (l : WorkspaceBlock) : Prop where
  done : ∀ i < t, t ≤ i + 16 → word l i = W M i
  raw : ∀ i < 16, t ≤ i → SHABLK0 l i = M i

/-- The word a round adds is that of the schedule. -/
theorem Scheduled.blk_eq {M : ℕ → Word} {t : ℕ} {l : WorkspaceBlock} (h : Scheduled M t l) :
    (macroAt t).blk l t = W M t := by
  by_cases ht : t < 16
  · have hkind : macroAt t = .R0 := if_pos ht
    rw [hkind, W_of_lt M ht]
    exact h.raw t ht (le_refl t)
  · have hkind : (macroAt t).blk = SHABLK := by
      unfold macroAt
      split_ifs <;> rfl
    have hplace : ∀ i j, i % 16 = j % 16 → word l i = word l j := by
      intro i j hij
      simp only [word, hij]
    rw [hkind, W_of_le M (by omega), SHABLK, ROL32_eq _ (by decide),
      hplace (t + 13) (t - 3) (by omega), hplace (t + 8) (t - 8) (by omega),
      hplace (t + 2) (t - 14) (by omega), hplace t (t - 16) (by omega),
      h.done (t - 3) (by omega) (by omega), h.done (t - 8) (by omega) (by omega),
      h.done (t - 14) (by omega) (by omega), h.done (t - 16) (by omega) (by omega)]

/-- A word of the block is its place modulo 16. -/
theorem word_setWord (l : WorkspaceBlock) (i j : ℕ) (x : Word) :
    word (setWord l i x) j = if i % 16 = j % 16 then x else word l j := by
  unfold word setWord
  rw [Vector.getElem_set]

/-- The schedule goes on in place of the word of sixteen rounds before. -/
theorem Scheduled.setWord {M : ℕ → Word} {t : ℕ} {l : WorkspaceBlock} (h : Scheduled M t l) :
    Scheduled M (t + 1) (setWord l t (W M t)) where
  done := by
    intro i hi hle
    rw [word_setWord]
    by_cases hit : i = t
    · rw [if_pos (by rw [hit]), hit]
    · rw [if_neg (by omega), h.done i (by omega) (by omega)]
  raw := by
    intro i hi hle
    have hword : word (Sha1.setWord l t (W M t)) i = word l i := by
      rw [word_setWord, if_neg (by omega)]
    rw [← h.raw i hi (by omega), SHABLK0, hword, SHABLK0]

/-- The first sixteen words are those of the block. -/
theorem scheduled_loadBlock (block : List UInt8) :
    Scheduled (blockWord block) 0 (loadBlock block) where
  done := by
    intro i hi
    omega
  raw := by
    intro i hi _
    have hword : word (loadBlock block) i =
        (block.getD (4 * i + 3) 0).toBitVec ++ (block.getD (4 * i + 2) 0).toBitVec ++
          (block.getD (4 * i + 1) 0).toBitVec ++ (block.getD (4 * i) 0).toBitVec := by
      simp only [word, loadBlock, Vector.getElem_ofFn, Nat.mod_eq_of_lt hi]
    rw [SHABLK0, hword, swap_bytes]
    rfl

/-- After `t` calls the variables and the block are where the standard has them. -/
theorem foldl_run (M : ℕ → Word) (s : Locals) (hs : Scheduled M 0 s.l) (t : ℕ) :
    vars t (((List.range t).map callAt).foldl Call.run s) = working M (vars 0 s) t ∧
    Scheduled M t (((List.range t).map callAt).foldl Call.run s).l := by
  induction t with
  | zero => exact ⟨rfl, hs⟩
  | succ t ih =>
    obtain ⟨hvars, hblock⟩ := ih
    rw [List.range_succ, List.map_append, List.foldl_append]
    show vars (t + 1) ((callAt t).run _) = _ ∧ Scheduled M (t + 1) ((callAt t).run _).l
    constructor
    · rw [vars_run, hvars, hblock.blk_eq]
      rfl
    · have hl : ∀ s : Locals, ((callAt t).run s).l = setWord s.l t ((macroAt t).blk s.l t) := by
        intro s
        simp only [Call.run, callAt, Locals.l_set]
      rw [hl, hblock.blk_eq]
      exact hblock.setWord

/-- **`Transform` is the compression of the standard.** -/
theorem transform_eq (state : Hash) (block : List UInt8) :
    transform state block = compress state block := by
  have hrun := (foldl_run (blockWord block) (Locals.ofState state (loadBlock block))
    (scheduled_loadBlock block) 80).1
  rw [← calls_eq] at hrun
  -- after eighty rounds every variable is back in its first part
  have hvars : ∀ s : Locals, vars 80 s = ⟨s.a, s.b, s.c, s.d, s.e⟩ := fun s => rfl
  have hstart : vars 0 (Locals.ofState state (loadBlock block)) = state := rfl
  rw [hvars, hstart] at hrun
  unfold transform compress
  rw [← hrun]

end Netxy.Sha1
