import Netxy.Http.Completeness
import Netxy.Lib.Transition

/-!
# Where the chunk scan reads

The `while` of `checkCompleted` one round at a time, with every offset of `copyBuffer` it
reads. What `sscanf` makes of a size is any `int`, a new one in each round.
-/

namespace Netxy.Http
namespace ChunkScan
open CString

variable {buffer : List UInt8}

/-- The loop at its head, `len_flag` not being null there, or behind it: then with `tmp` if
`checkChunked` was set. -/
inductive Loop
  | running (tmp len_flag : ℕ)
  | done (tmp : Option ℕ)
deriving DecidableEq, Repr

/-- The loop, and the offsets that were read so far. -/
structure Scan where
  loop : Loop
  touched : List ℕ
deriving DecidableEq, Repr

/-- What a string function reads from `start` on, up to the terminating zero. A start behind
the end of the buffer is outside by itself. -/
def cString (buffer : List UInt8) (start : ℕ) : List ℕ :=
  List.range' start ((c_str ((buffer ++ [0]).drop start)).length + 1)

/-- `len_flag = strstr(tmp, RL)`, and the test of the loop. -/
def search (buffer : List UInt8) (touched : List ℕ) (tmp : ℕ) : Scan where
  loop :=
    match strstrFrom RL (buffer ++ [0]) tmp with
    | some len_flag => .running tmp len_flag
    | none => .done none
  touched := touched ++ cString buffer tmp

/-- One round of the loop in which `sscanf` yields `nValude`. -/
def step (buffer : List UInt8) (s : Scan) (nValude : ℤ) : Option Scan :=
  match s.loop with
  | .done _ => none
  | .running tmp len_flag =>
    -- `std::string numstr(tmp, len_flag)`
    let touched := s.touched ++ List.range' tmp (len_flag - tmp)
    let tmp := len_flag + RL.length
    if buffer.length ≤ tmp then some ⟨.done none, touched⟩
    else if 0 < nValude then
      let tmp := tmp + nValude.toNat
      if buffer.length ≤ tmp then some ⟨.done none, touched⟩
      else
        let touched := touched ++ cString buffer tmp
        match strstrFrom RL (buffer ++ [0]) tmp with
        | none => some ⟨.done none, touched⟩
        | some len_flag => some (search buffer touched (len_flag + RL.length))
    else if nValude = 0 then some ⟨.done (some tmp), touched⟩
    else some (search buffer touched tmp)

/-- The search before the loop. -/
def start (buffer : List UInt8) (bodystart : ℕ) : Scan := search buffer [] bodystart

/-- What is read in all: behind the loop `*tmp`, and one more search from there. -/
def Scan.reads (buffer : List UInt8) (s : Scan) : List ℕ :=
  match s.loop with
  | .done (some tmp) => s.touched ++ tmp :: cString buffer tmp
  | _ => s.touched

/-- `bodystart`, where `checkCompleted` comes to the chunked branch. -/
def chunkedBranch (buffer : List UInt8) : Option ℕ :=
  match strstr DOUBLE_RL (buffer ++ [0]) with
  | none => none
  | some headlineend =>
    match strstr CONTENT_LENGTH_FLAG (buffer ++ [0]), strstr CHUNKED_FLAG (buffer ++ [0]) with
    | none, some _ => some (headlineend + DOUBLE_RL.length)
    | _, _ => none

/-! ## The loop of the model -/

/-- In the chunked branch the answer is that of `checkChunks`. -/
theorem checkCompleted_of_chunkedBranch {bodystart : ℕ}
    (h : chunkedBranch buffer = some bodystart) :
    checkCompleted buffer = checkChunks (buffer ++ [0]) buffer.length bodystart := by
  unfold chunkedBranch at h
  unfold checkCompleted checkCompletedWith
  split at h
  · cases h
  · rename_i i hi
    split at h
    · rename_i hlength hchunked
      cases h
      simp only [hi, hlength, hchunked]
    · cases h

/-- `scanChunks` goes through the same rounds, with what `sscanf("%x")` makes of the sizes. -/
theorem exists_exec_of_scanChunks {fuel tmp : ℕ} {r : Option ℕ} {touched : List ℕ}
    (h : scanChunks (buffer ++ [0]) buffer.length fuel tmp
      (strstrFrom RL (buffer ++ [0]) tmp) = .ok r) :
    ∃ ns s, Transition.exec (step buffer) (search buffer touched tmp) ns = some s ∧
      s.loop = .done r := by
  induction fuel generalizing tmp touched with
  | zero => cases h
  | succ fuel ih =>
    rcases hflag : strstrFrom RL (buffer ++ [0]) tmp with _ | len_flag
    · rw [hflag] at h
      cases h
      exact ⟨[], _, rfl, by simp only [search, hflag]⟩
    rw [hflag, scanChunks] at h
    -- the rounds after the first one, if there are any
    have hstep : ∃ t, step buffer (search buffer touched tmp)
          (sscanfHex (((buffer ++ [0]).drop tmp).take (len_flag - tmp))) = some t ∧
        ∃ ns s, Transition.exec (step buffer) t ns = some s ∧ s.loop = .done r := by
      have hloop : (search buffer touched tmp).loop = .running tmp len_flag := by
        simp only [search, hflag]
      unfold step
      rw [hloop]
      simp only at h ⊢
      split_ifs at h ⊢ with hend hpos hdata hzero
      · cases h
        exact ⟨_, rfl, [], _, rfl, rfl⟩
      · cases h
        exact ⟨_, rfl, [], _, rfl, rfl⟩
      · rcases hnext : strstrFrom RL (buffer ++ [0]) _ with _ | next
        · rw [hnext] at h
          cases h
          exact ⟨_, rfl, [], _, rfl, rfl⟩
        · rw [hnext] at h
          exact ⟨_, rfl, ih h⟩
      · cases h
        exact ⟨_, rfl, [], _, rfl, rfl⟩
      · exact ⟨_, rfl, ih h⟩
    obtain ⟨t, ht, ns, s, hs, hr⟩ := hstep
    exact ⟨_ :: ns, s, Transition.exec_cons.mpr ⟨t, ht, hs⟩, hr⟩

/-! ## Bounds -/

/-- What is found lies in the buffer, behind where the search began. -/
theorem strstrFrom_RL_bounds {tmp len_flag : ℕ}
    (h : strstrFrom RL (buffer ++ [0]) tmp = some len_flag) :
    tmp ≤ len_flag ∧ len_flag + RL.length ≤ buffer.length := by
  obtain ⟨i, hi, rfl⟩ := Option.map_eq_some_iff.mp h
  refine ⟨Nat.le_add_right _ _, ?_⟩
  by_cases htmp : tmp ≤ buffer.length
  · rw [List.drop_append_of_le_length htmp, strstr_concat_zero RL_ne.1 RL_ne.2] at hi
    have hle := add_two_le_of_strstr_RL hi
    rw [List.length_drop] at hle
    rw [length_RL]
    omega
  · have hnil : (buffer ++ [0]).drop tmp = [] := by
      rw [List.drop_eq_nil_iff, List.length_append, List.length_singleton]
      omega
    rw [hnil] at hi
    cases hi

/-- The terminating zero is in the buffer. -/
theorem le_of_mem_cString {tmp o : ℕ} (htmp : tmp ≤ buffer.length)
    (ho : o ∈ cString buffer tmp) : o ≤ buffer.length := by
  have hshort : (c_str ((buffer ++ [0]).drop tmp)).length ≤ buffer.length - tmp := by
    rw [List.drop_append_of_le_length htmp, c_str]
    have hzero : (buffer.drop tmp ++ [0]).takeWhile (· ≠ 0) =
        (buffer.drop tmp).takeWhile (· ≠ 0) := by
      rw [List.takeWhile_append]
      split_ifs with hall
      · rw [List.takeWhile_cons_of_neg (by decide), List.append_nil]
        exact ((List.takeWhile_sublist _).eq_of_length hall).symm
      · rfl
    rw [hzero, ← List.length_drop]
    exact (List.takeWhile_sublist _).length_le
  rw [cString, List.mem_range'_1] at ho
  omega

/-- After `rounds` rounds from `bodystart` everything read lies in the buffer, and the loop
has used up two bytes in each round. -/
structure Bounded (buffer : List UInt8) (bodystart rounds : ℕ) (s : Scan) : Prop where
  touched : ∀ o ∈ s.touched, o ≤ buffer.length
  used : bodystart + 2 * rounds ≤ buffer.length
  running : ∀ tmp len_flag, s.loop = .running tmp len_flag →
    bodystart + 2 * rounds ≤ tmp ∧ tmp ≤ len_flag ∧ len_flag + RL.length ≤ buffer.length
  done : ∀ tmp, s.loop = .done (some tmp) → tmp ≤ buffer.length

theorem Bounded.search {bodystart rounds tmp : ℕ} {touched : List ℕ}
    (htouched : ∀ o ∈ touched, o ≤ buffer.length) (hused : bodystart + 2 * rounds ≤ tmp)
    (htmp : tmp ≤ buffer.length) :
    Bounded buffer bodystart rounds (search buffer touched tmp) where
  touched := by
    intro o ho
    rcases List.mem_append.mp ho with ho | ho
    · exact htouched o ho
    · exact le_of_mem_cString htmp ho
  used := hused.trans htmp
  running := by
    intro tmp' len_flag hloop
    simp only [ChunkScan.search] at hloop
    split at hloop
    case h_1 i hi =>
      cases hloop
      obtain ⟨hle, hend⟩ := strstrFrom_RL_bounds hi
      exact ⟨hused, hle, hend⟩
    · cases hloop
  done := by
    intro tmp' hloop
    simp only [ChunkScan.search] at hloop
    split at hloop <;> cases hloop

/-- A round that leaves the loop. -/
theorem Bounded.leave {bodystart rounds : ℕ} {touched : List ℕ} {r : Option ℕ}
    (htouched : ∀ o ∈ touched, o ≤ buffer.length)
    (hused : bodystart + 2 * rounds ≤ buffer.length) (hr : ∀ tmp ∈ r, tmp ≤ buffer.length) :
    Bounded buffer bodystart rounds ⟨.done r, touched⟩ where
  touched := htouched
  used := hused
  running := fun _ _ h => by cases h
  done := by
    rintro tmp ⟨⟩
    exact hr tmp rfl

theorem Bounded.step {bodystart rounds : ℕ} {s t : Scan} (hs : Bounded buffer bodystart rounds s)
    {nValude : ℤ} (ht : step buffer s nValude = some t) :
    Bounded buffer bodystart (rounds + 1) t := by
  unfold ChunkScan.step at ht
  split at ht
  · cases ht
  rename_i tmp len_flag hloop
  obtain ⟨hused, hle, hend⟩ := hs.running tmp len_flag hloop
  have hnumstr : ∀ o ∈ s.touched ++ List.range' tmp (len_flag - tmp), o ≤ buffer.length := by
    intro o ho
    rcases List.mem_append.mp ho with ho | ho
    · exact hs.touched o ho
    · rw [List.mem_range'_1] at ho
      omega
  rw [length_RL] at hend
  -- the round is paid for by the line end of the size
  have hpaid : bodystart + 2 * (rounds + 1) ≤ len_flag + RL.length := by
    rw [length_RL]
    omega
  have hroom : bodystart + 2 * (rounds + 1) ≤ buffer.length := hpaid.trans hend
  simp only at ht
  split_ifs at ht with hstop hpos hdata hzero
  · cases ht
    exact .leave hnumstr hroom fun _ h => by cases h
  · cases ht
    exact .leave hnumstr hroom fun _ h => by cases h
  · -- a size that is not negative cannot lead behind the end: that was just tested
    have hin : len_flag + RL.length + nValude.toNat ≤ buffer.length := (not_le.mp hdata).le
    have htouched : ∀ o ∈ s.touched ++ List.range' tmp (len_flag - tmp) ++
        cString buffer (len_flag + RL.length + nValude.toNat), o ≤ buffer.length := by
      intro o ho
      rcases List.mem_append.mp ho with ho | ho
      · exact hnumstr o ho
      · exact le_of_mem_cString hin ho
    split at ht
    · cases ht
      exact .leave htouched hroom fun _ h => by cases h
    · rename_i next hnext
      obtain ⟨hafter, hinside⟩ := strstrFrom_RL_bounds hnext
      cases ht
      exact .search htouched (by omega) hinside
  · cases ht
    refine .leave hnumstr hroom fun tmp h => ?_
    cases h
    exact (not_le.mp hstop).le
  · cases ht
    exact .search hnumstr hpaid (not_le.mp hstop).le

theorem Bounded.exec {bodystart rounds : ℕ} {s t : Scan} {ns : List ℤ}
    (hs : Bounded buffer bodystart rounds s)
    (ht : Transition.exec (ChunkScan.step buffer) s ns = some t) :
    Bounded buffer bodystart (rounds + ns.length) t := by
  induction ns generalizing rounds s with
  | nil =>
    cases ht
    exact hs
  | cons n ns ih =>
    obtain ⟨u, hu, ht⟩ := Transition.exec_cons.mp ht
    have hrest := ih (hs.step hu) ht
    rwa [List.length_cons, Nat.add_comm ns.length 1, ← Nat.add_assoc]

theorem Bounded.reads {bodystart rounds : ℕ} {s : Scan} (hs : Bounded buffer bodystart rounds s) :
    ∀ o ∈ s.reads buffer, o ≤ buffer.length := by
  intro o ho
  unfold Scan.reads at ho
  split at ho
  · rename_i tmp hloop
    rcases List.mem_append.mp ho with ho | ho
    · exact hs.touched o ho
    · rcases List.mem_cons.mp ho with rfl | ho
      · exact hs.done o hloop
      · exact le_of_mem_cString (hs.done tmp hloop) ho
  · exact hs.touched o ho

/-- The loop goes on as long as it runs. -/
theorem exists_done_of_step_eq_none {s : Scan} {nValude : ℤ} (h : step buffer s nValude = none) :
    ∃ r, s.loop = .done r := by
  unfold step at h
  split at h
  · rename_i r hloop
    exact ⟨r, hloop⟩
  · simp only at h
    split_ifs at h
    split at h <;> cases h

theorem bodystart_le {bodystart : ℕ} (h : chunkedBranch buffer = some bodystart) :
    bodystart ≤ buffer.length := by
  unfold chunkedBranch at h
  split at h
  · cases h
  · rename_i i hi
    rw [strstr_concat_zero DOUBLE_RL_ne.1 DOUBLE_RL_ne.2] at hi
    split at h
    · cases h
      exact add_length_le_of_strstr DOUBLE_RL_ne.1 hi
    · cases h

/-- Whatever `sscanf` yields in each round, the loop ends after at most half as many rounds
as there are bytes, and neither it nor what follows it reads behind the terminating zero. -/
theorem chunk_scan_ends_within_bounds {bodystart : ℕ} (h : chunkedBranch buffer = some bodystart)
    (sscanf : ℕ → ℤ) :
    ∃ rounds s r, Transition.exec (step buffer) (start buffer bodystart)
        ((List.range rounds).map sscanf) = some s ∧
      s.loop = .done r ∧ 2 * rounds ≤ buffer.length ∧
      ∀ o ∈ s.reads buffer, o ≤ buffer.length := by
  have hstart : Bounded buffer bodystart 0 (start buffer bodystart) :=
    .search (fun _ h => absurd h List.not_mem_nil) le_rfl (bodystart_le h)
  have hlen : ∀ ns s, Transition.exec (step buffer) (start buffer bodystart) ns = some s →
      ns.length ≤ buffer.length := by
    intro ns s hs
    have hused := (hstart.exec hs).used
    omega
  obtain ⟨rounds, s, hs, hstop⟩ := Transition.exists_stop hlen sscanf
  obtain ⟨r, hr⟩ := exists_done_of_step_eq_none hstop
  have hend := hstart.exec hs
  have hused := hend.used
  rw [List.length_map, List.length_range] at hused
  exact ⟨rounds, s, r, hs, hr, by omega, hend.reads⟩

/-- A message with two chunks, of which `sscanf` makes a size of -1 and then one that leads
behind the end. -/
theorem chunk_scan_two_chunks :
    ∃ rounds s r, Transition.exec (step (ascii "A\r\nTransfer-Encoding: chunked\r\n\r\n1\r\na\r\n"))
        (start (ascii "A\r\nTransfer-Encoding: chunked\r\n\r\n1\r\na\r\n") 33)
        ((List.range rounds).map fun k => if k = 0 then -1 else 2147483647) = some s ∧
      s.loop = .done r ∧
      2 * rounds ≤ (ascii "A\r\nTransfer-Encoding: chunked\r\n\r\n1\r\na\r\n").length ∧
      ∀ o ∈ s.reads (ascii "A\r\nTransfer-Encoding: chunked\r\n\r\n1\r\na\r\n"),
        o ≤ (ascii "A\r\nTransfer-Encoding: chunked\r\n\r\n1\r\na\r\n").length :=
  chunk_scan_ends_within_bounds (by decide) fun k => if k = 0 then -1 else 2147483647

end ChunkScan
end Netxy.Http
