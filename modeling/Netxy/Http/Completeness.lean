import Netxy.Http.Message

/-!
# Completeness of a message

`checkCompleted` looks for texts and line ends in what was received so far. Here its answers
on the first bytes of a message are compared with the end of the message.
-/

namespace Netxy.Http
open CString

/-! ## Searches in the buffer -/

theorem RL_ne : RL ≠ [] ∧ 0 ∉ RL := by decide

theorem DOUBLE_RL_ne : DOUBLE_RL ≠ [] ∧ 0 ∉ DOUBLE_RL := by decide

theorem CONTENT_LENGTH_FLAG_ne : CONTENT_LENGTH_FLAG ≠ [] ∧ 0 ∉ CONTENT_LENGTH_FLAG := by decide

theorem CHUNKED_FLAG_ne : CHUNKED_FLAG ≠ [] ∧ 0 ∉ CHUNKED_FLAG := by decide

/-- `strstr` from a place in the body, in the copy that ends with a zero. -/
theorem strstrFrom_body {pat : List UInt8} (hpat : pat ≠ [] ∧ 0 ∉ pat) (head : List UInt8)
    {body : List UInt8} {k : ℕ} (hk : k ≤ body.length) :
    strstrFrom pat (head ++ body ++ [0]) (head.length + k) =
      (strstr pat (body.drop k)).map (head.length + k + ·) := by
  rw [List.append_assoc, strstrFrom_append, List.drop_append_of_le_length hk,
    strstr_concat_zero hpat.1 hpat.2]

theorem add_two_le_of_strstr_RL {l : List UInt8} {i : ℕ} (h : strstr RL l = some i) :
    i + 2 ≤ l.length :=
  add_length_le_of_strstr RL_ne.1 h

/-! ## Chunks as they are scanned -/

/-- Where the trailers end: at the first line end behind a `\r`, else at the first empty
line. -/
def trailerEnd (body : List UInt8) : Option ℕ :=
  if body.headD 0 = 13 then (strstr RL body).map (· + 2) else (strstr DOUBLE_RL body).map (· + 4)

/-- Where the chunks that the body begins with end. A line is read for a size; behind so many
bytes the scan goes on at the next line end, and a size of zero is followed by the trailers.
Nothing is skipped for a negative size. -/
def chunksEnd (body : List UInt8) : Option ℕ :=
  match h : strstr RL body with
  | none => none
  | some i =>
    let n := sscanfHex (body.take i)
    if 0 < n then
      match strstr RL (body.drop (i + 2 + n.toNat)) with
      | none => none
      | some j =>
        (chunksEnd (body.drop (i + 2 + n.toNat + j + 2))).map (i + 2 + n.toNat + j + 2 + ·)
    else if n = 0 then (trailerEnd (body.drop (i + 2))).map (i + 2 + ·)
    else (chunksEnd (body.drop (i + 2))).map (i + 2 + ·)
termination_by body.length
decreasing_by
  all_goals
    have := add_two_le_of_strstr_RL h
    rw [List.length_drop]
    omega

theorem chunksEnd_of_none {body : List UInt8} (h : strstr RL body = none) :
    chunksEnd body = none := by
  rw [chunksEnd]
  split
  · rfl
  · rename_i i hi
    rw [h] at hi
    cases hi

theorem chunksEnd_of_some {body : List UInt8} {i : ℕ} (h : strstr RL body = some i) :
    chunksEnd body =
      if 0 < sscanfHex (body.take i) then
        (strstr RL (body.drop (i + 2 + (sscanfHex (body.take i)).toNat))).bind fun j =>
          (chunksEnd (body.drop (i + 2 + (sscanfHex (body.take i)).toNat + j + 2))).map
            (i + 2 + (sscanfHex (body.take i)).toNat + j + 2 + ·)
      else if sscanfHex (body.take i) = 0 then
        (trailerEnd (body.drop (i + 2))).map (i + 2 + ·)
      else (chunksEnd (body.drop (i + 2))).map (i + 2 + ·) := by
  rw [chunksEnd]
  split
  · rename_i hnone
    rw [h] at hnone
    cases hnone
  · rename_i i' hi'
    rw [h] at hi'
    cases hi'
    dsimp only
    split
    · split
      · rename_i hj
        rw [hj]
        rfl
      · rename_i j hj
        rw [hj]
        rfl
    · rfl

theorem chunksEnd_nil : chunksEnd [] = none := chunksEnd_of_none rfl

theorem trailerEnd_nil : trailerEnd [] = none := rfl

/-- What follows the chunk loop. -/
def afterChunks (copyBuffer : List UInt8) : Option ℕ → Except Fault Bool
  | none => .ok false
  | some tmp =>
    if copyBuffer.getD tmp 0 = 13 then .ok (strstrFrom RL copyBuffer tmp).isSome
    else .ok (strstrFrom DOUBLE_RL copyBuffer tmp).isSome

theorem checkChunks_eq (copyBuffer : List UInt8) (len bodystart : ℕ) :
    checkChunks copyBuffer len bodystart =
      (scanChunks copyBuffer len (len + 1) bodystart (strstrFrom RL copyBuffer bodystart)).bind
        (afterChunks copyBuffer) := by
  unfold checkChunks
  rcases scanChunks copyBuffer len (len + 1) bodystart (strstrFrom RL copyBuffer bodystart) with
    e | _ | tmp
  · rfl
  · rfl
  · rfl

section Scan
variable {head body : List UInt8}

theorem getD_body {k : ℕ} (hk : k < body.length) :
    (head ++ body ++ [0]).getD (head.length + k) 0 = (body.drop k).headD 0 := by
  have hlen : head.length + k < (head ++ body).length := by
    rw [List.length_append]
    omega
  rw [List.getD_eq_getElem?_getD, List.headD_eq_head?_getD, List.head?_drop,
    List.getElem?_append_left hlen, List.getElem?_append_right (by omega),
    Nat.add_sub_cancel_left]

theorem afterChunks_body {k : ℕ} (hk : k < body.length) :
    afterChunks (head ++ body ++ [0]) (some (head.length + k)) =
      .ok (trailerEnd (body.drop k)).isSome := by
  rw [afterChunks, getD_body hk, strstrFrom_body RL_ne head hk.le,
    strstrFrom_body DOUBLE_RL_ne head hk.le, trailerEnd]
  split
  · rw [Option.isSome_map, Option.isSome_map]
  · rw [Option.isSome_map, Option.isSome_map]

/-- The loop from a place in the body on. -/
theorem scanChunks_body {fuel k : ℕ} (hk : k ≤ body.length) (hfuel : body.length < k + fuel) :
    (scanChunks (head ++ body ++ [0]) (head.length + body.length) fuel (head.length + k)
        (strstrFrom RL (head ++ body ++ [0]) (head.length + k))).bind
      (afterChunks (head ++ body ++ [0])) = .ok (chunksEnd (body.drop k)).isSome := by
  -- each round moves on by two bytes at least, so the fuel lasts to the end of the body
  induction fuel generalizing k with
  | zero => omega
  | succ fuel ih =>
    rw [strstrFrom_body RL_ne head hk]
    rcases hi : strstr RL (body.drop k) with _ | i
    · rw [chunksEnd_of_none hi]
      rfl
    have hlen := add_two_le_of_strstr_RL hi
    rw [List.length_drop] at hlen
    have hsize : ((head ++ body ++ [0]).drop (head.length + k)).take
        (head.length + k + i - (head.length + k)) = (body.drop k).take i := by
      rw [List.append_assoc, List.drop_length_add_append, List.drop_append_of_le_length hk,
        Nat.add_sub_cancel_left, List.take_append_of_le_length (by rw [List.length_drop]; omega)]
    rw [Option.map_some, scanChunks, chunksEnd_of_some hi]
    simp only [hsize, length_RL, List.drop_drop]
    generalize sscanfHex ((body.drop k).take i) = n
    by_cases hcut : body.length ≤ k + (i + 2)
    · -- nothing follows the size line
      have hnil : body.drop (k + (i + 2)) = [] := List.drop_eq_nil_of_le hcut
      have hnil' : body.drop (k + (i + 2 + n.toNat)) = [] :=
        List.drop_eq_nil_of_le (by omega)
      rw [if_pos (by omega), hnil, hnil', chunksEnd_nil, trailerEnd_nil]
      split
      · rfl
      · split <;> rfl
    rw [if_neg (by omega)]
    split
    · -- the bytes of the chunk, and what follows them
      by_cases hdata : body.length ≤ k + (i + 2 + n.toNat)
      · rw [if_pos (by omega), List.drop_eq_nil_of_le hdata]
        rfl
      · rw [if_neg (by omega), show head.length + k + i + 2 + n.toNat =
            head.length + (k + (i + 2 + n.toNat)) by omega,
          strstrFrom_body RL_ne head (by omega)]
        rcases hj : strstr RL (body.drop (k + (i + 2 + n.toNat))) with _ | j
        · rfl
        · have hjlen := add_two_le_of_strstr_RL hj
          rw [List.length_drop] at hjlen
          rw [Option.map_some, Option.bind_some, Option.isSome_map]
          simp only
          rw [show head.length + (k + (i + 2 + n.toNat)) + j + 2 =
            head.length + (k + (i + 2 + n.toNat + j + 2)) by omega]
          exact ih (by omega) (by omega)
    · rw [show head.length + k + i + 2 = head.length + (k + (i + 2)) by omega]
      split
      · rw [Option.isSome_map]
        exact afterChunks_body (by omega)
      · rw [Option.isSome_map]
        exact ih (by omega) (by omega)

/-- The chunks of what was received of the body. -/
theorem checkChunks_body (head body : List UInt8) :
    checkChunks (head ++ body ++ [0]) (head.length + body.length) head.length =
      .ok (chunksEnd body).isSome := by
  rw [checkChunks_eq]
  exact scanChunks_body (k := 0) (Nat.zero_le _) (by omega)

end Scan

/-! ## What a cut leaves -/

/-- The place, if it lies before the cut. -/
def before (j : ℕ) (o : Option ℕ) : Option ℕ := o.filter fun e => decide (e ≤ j)

theorem before_some {j e : ℕ} : before j (some e) = if e ≤ j then some e else none := by
  simp only [before, Option.filter_some, decide_eq_true_eq]

theorem map_before {t j : ℕ} (h : t ≤ j) (o : Option ℕ) :
    (before (j - t) o).map (t + ·) = before j (o.map (t + ·)) := by
  cases o with
  | none => rfl
  | some e =>
    rw [Option.map_some, before_some, before_some]
    by_cases he : e ≤ j - t
    · rw [if_pos he, if_pos (by omega), Option.map_some]
    · rw [if_neg he, if_neg (by omega), Option.map_none]

theorem before_map_of_lt {t j : ℕ} (h : j < t) (o : Option ℕ) :
    before j (o.map (t + ·)) = none := by
  cases o with
  | none => rfl
  | some e => rw [Option.map_some, before_some, if_neg (by omega)]

/-- Where the text that is searched for ends. -/
theorem strstr_take_before {pat : List UInt8} (hpat : pat ≠ []) (l : List UInt8) (k : ℕ) :
    (strstr pat (l.take k)).map (· + pat.length) =
      before k ((strstr pat l).map (· + pat.length)) := by
  rw [strstr_take hpat]
  cases strstr pat l with
  | none => rfl
  | some i =>
    rw [Option.map_some, before_some, Option.filter_some]
    simp only [decide_eq_true_eq]
    split <;> rfl

theorem trailerEnd_take (l : List UInt8) (k : ℕ) :
    trailerEnd (l.take k) = before k (trailerEnd l) := by
  cases k with
  | zero =>
    -- an end of the trailers is behind at least one line end
    have hpos : ∀ e, trailerEnd l = some e → ¬ e ≤ 0 := by
      intro e he
      unfold trailerEnd at he
      split at he
      · obtain ⟨i, -, rfl⟩ := Option.map_eq_some_iff.mp he
        omega
      · obtain ⟨i, -, rfl⟩ := Option.map_eq_some_iff.mp he
        omega
    rw [List.take_zero, trailerEnd_nil]
    rcases he : trailerEnd l with _ | e
    · rfl
    · rw [before_some, if_neg (hpos e he)]
  | succ k =>
    have hhead : (l.take (k + 1)).headD 0 = l.headD 0 := by
      cases l <;> rfl
    rw [trailerEnd, trailerEnd, hhead]
    split
    · exact strstr_take_before RL_ne.1 l (k + 1)
    · exact strstr_take_before DOUBLE_RL_ne.1 l (k + 1)

/-- The chunks of a cut body end where those of the body do, if that lies before the cut. -/
theorem chunksEnd_take (body : List UInt8) (k : ℕ) :
    chunksEnd (body.take k) = before k (chunksEnd body) := by
  induction hn : body.length using Nat.strong_induction_on generalizing body k with
  | h len ih =>
    subst hn
    have hcut := strstr_take RL_ne.1 body k
    rcases hi : strstr RL body with _ | i
    · rw [hi] at hcut
      rw [chunksEnd_of_none hi, chunksEnd_of_none hcut]
      rfl
    rw [hi, Option.filter_some] at hcut
    have hlen := add_two_le_of_strstr_RL hi
    have hrest {t : ℕ} (ht : i + 2 ≤ t) (htk : t ≤ k) :
        (chunksEnd ((body.take k).drop t)).map (t + ·) =
          before k ((chunksEnd (body.drop t)).map (t + ·)) := by
      rw [List.drop_take, ih _ (by rw [List.length_drop]; omega) _ _ rfl, map_before htk]
    rw [chunksEnd_of_some hi]
    -- either the size line lies before the cut, or no round is finished before it
    by_cases hk : i + RL.length ≤ k
    · rw [if_pos (decide_eq_true hk)] at hcut
      have hsize : (body.take k).take i = body.take i := by
        rw [List.take_take, Nat.min_eq_left (by omega)]
      have hk' : i + 2 ≤ k := hk
      rw [chunksEnd_of_some hcut, hsize]
      split
      · rw [List.drop_take, strstr_take RL_ne.1]
        rcases strstr RL (body.drop (i + 2 + (sscanfHex (body.take i)).toNat)) with _ | j
        · rfl
        · rw [Option.filter_some, length_RL, Option.bind_some]
          split
          · rename_i hj
            rw [decide_eq_true_eq] at hj
            exact hrest (by omega) (by omega)
          · rename_i hj
            rw [decide_eq_true_eq] at hj
            rw [before_map_of_lt (by omega)]
            rfl
      · split
        · rw [List.drop_take, trailerEnd_take, map_before hk']
        · exact hrest le_rfl hk'
    · rw [if_neg (by rwa [decide_eq_true_eq])] at hcut
      have hk' : ¬ i + 2 ≤ k := hk
      rw [chunksEnd_of_none hcut]
      split
      · rcases strstr RL (body.drop (i + 2 + (sscanfHex (body.take i)).toNat)) with _ | j
        · rfl
        · rw [Option.bind_some, before_map_of_lt (by omega)]
      · split
        · rw [before_map_of_lt (by omega)]
        · rw [before_map_of_lt (by omega)]

/-! ## The number behind `Content-Length: ` -/

/-- From the text behind the flag, the end of its line and the number, where `checkCompleted`
takes it: in a line of 1 to 1023 bytes, and not negative. -/
def lengthField (text : List UInt8) : Option (ℕ × ℕ) :=
  (strstr RL text).bind fun i =>
    if 0 < i ∧ i < 1024 ∧ 0 ≤ atoi (text.take i) then some (i + 2, (atoi (text.take i)).toNat)
    else none

/-- `checkContentLength`, given the text behind the flag and the number of bytes received of
the body. -/
def lengthVerdict (text : List UInt8) (received : ℕ) : Except Fault Bool :=
  let temp := text.take ((strstr RL text).getD 0)
  if 1024 < temp.length + 1 then .error .outOfBounds
  else if temp.length + 1 = 1 then .ok false
  else if atoi temp < 0 then .error .assertion
  else .ok (decide ((atoi temp).toNat ≤ received))

/-- What is copied into `temp`, from the text behind the flag. -/
theorem take_drop_lineEnd (pre text : List UInt8) :
    ((pre ++ text ++ [0]).drop pre.length).take
      ((strstrFrom RL (pre ++ text ++ [0]) pre.length).getD pre.length - pre.length) =
        text.take ((strstr RL text).getD 0) := by
  have hfind : strstrFrom RL (pre ++ text ++ [0]) pre.length =
      (strstr RL text).map (pre.length + ·) :=
    strstrFrom_body RL_ne pre (Nat.zero_le _)
  rw [hfind, List.append_assoc, List.drop_left]
  rcases hi : strstr RL text with _ | i
  · simp only [Option.map_none, Option.getD_none, Nat.sub_self, List.take_zero]
  · have hlen := add_two_le_of_strstr_RL hi
    simp only [Option.map_some, Option.getD_some, Nat.add_sub_cancel_left]
    rw [List.take_append_of_le_length (by omega)]

theorem checkContentLength_eq (text : List UInt8) (len bodystart : ℕ) {pre : List UInt8} {c : ℕ}
    (hc : pre.length = c + CONTENT_LENGTH_FLAG.length) :
    checkContentLength (pre ++ text ++ [0]) len bodystart c =
      lengthVerdict text (len - bodystart) := by
  unfold checkContentLength checkContentLengthWith lengthVerdict
  simp only [← hc, take_drop_lineEnd]

theorem lengthField_eq_some {text : List UInt8} {i d : ℕ} :
    lengthField text = some (i, d) ↔
      ∃ j, strstr RL text = some j ∧ i = j + 2 ∧ (0 < j ∧ j < 1024) ∧ atoi (text.take j) = d := by
  rw [lengthField, Option.bind_eq_some_iff]
  refine exists_congr fun j => and_congr_right fun _ => ?_
  rw [Option.ite_none_right_eq_some, Option.some.injEq, Prod.mk.injEq]
  omega

theorem lengthVerdict_of_none {text : List UInt8} (h : strstr RL text = none) (received : ℕ) :
    lengthVerdict text received = .ok false := by
  rw [lengthVerdict, h]
  rfl

theorem lengthVerdict_of_lengthField {text : List UInt8} {i d : ℕ}
    (h : lengthField text = some (i, d)) (received : ℕ) :
    lengthVerdict text received = .ok (decide (d ≤ received)) := by
  obtain ⟨j, hj, -, hvalid, hd⟩ := lengthField_eq_some.mp h
  have hlen := add_two_le_of_strstr_RL hj
  have htemp : (text.take j).length = j := List.length_take_of_le (by omega)
  simp only [lengthVerdict, hj, Option.getD_some, htemp, hd, Int.toNat_natCast]
  rw [if_neg (by omega), if_neg (by omega), if_neg (by omega)]

theorem lengthField_of_lengthVerdict {text : List UInt8} {received : ℕ}
    (h : lengthVerdict text received = .ok true) :
    ∃ i d, lengthField text = some (i, d) ∧ d ≤ received := by
  rcases hi : strstr RL text with _ | i
  · rw [lengthVerdict_of_none hi] at h
    cases h
  have hlen := add_two_le_of_strstr_RL hi
  have htemp : (text.take i).length = i := List.length_take_of_le (by omega)
  simp only [lengthVerdict, hi, Option.getD_some, htemp] at h
  split at h
  · cases h
  split at h
  · cases h
  split at h
  · cases h
  rw [Except.ok.injEq, decide_eq_true_eq] at h
  exact ⟨i + 2, (atoi (text.take i)).toNat,
    lengthField_eq_some.mpr ⟨i, hi, rfl, by omega, by omega⟩, h⟩

/-- The line of the number ends in the text. -/
theorem le_length_of_lengthField {text : List UInt8} {i d : ℕ}
    (h : lengthField text = some (i, d)) : i ≤ text.length := by
  obtain ⟨j, hj, rfl, -⟩ := lengthField_eq_some.mp h
  exact add_two_le_of_strstr_RL hj

/-- What follows the line does not matter. -/
theorem lengthField_take {text : List UInt8} {i d k : ℕ} (h : lengthField text = some (i, d))
    (hk : i ≤ k) : lengthField (text.take k) = some (i, d) := by
  obtain ⟨j, hj, rfl, hvalid, hd⟩ := lengthField_eq_some.mp h
  have hfind : strstr RL (text.take k) = some j := by
    rw [strstr_take RL_ne.1, hj, Option.filter_some, length_RL, if_pos (decide_eq_true hk)]
  have htemp : (text.take k).take j = text.take j := by
    rw [List.take_take, Nat.min_eq_left (by omega)]
  exact lengthField_eq_some.mpr ⟨j, hfind, rfl, hvalid, htemp ▸ hd⟩

theorem strstr_RL_take_of_lengthField {text : List UInt8} {i d k : ℕ}
    (h : lengthField text = some (i, d)) (hk : k < i) : strstr RL (text.take k) = none := by
  obtain ⟨j, hj, rfl, -⟩ := lengthField_eq_some.mp h
  rw [strstr_take RL_ne.1, hj, Option.filter_some, length_RL, if_neg]
  rw [decide_eq_true_eq]
  omega

/-! ## The answers on the first bytes of a message -/

section Answers
variable {head : List UInt8} (hhead : IsHead head)
include hhead

theorem IsHead.four_le : 4 ≤ head.length := by
  have hle := add_length_le_of_strstr DOUBLE_RL_ne.1 hhead.empty_line
  rw [length_DOUBLE_RL] at hle
  omega

theorem IsHead.drop_eq : head.drop (head.length - 4) = DOUBLE_RL := by
  have hlen := hhead.four_le
  refine ((isPrefix_drop_of_strstr hhead.empty_line).eq_of_length ?_).symm
  rw [List.length_drop, length_DOUBLE_RL]
  omega

theorem IsHead.getLast?_eq : head.getLast? = some 10 := by
  rw [← List.take_append_drop (head.length - 4) head, hhead.drop_eq, List.getLast?_append]
  rfl

/-- A flag stands in the head, or the search goes on in the body. -/
theorem IsHead.strstr_append {pat : List UInt8} (hpat : pat ≠ [] ∧ 0 ∉ pat) (h10 : 10 ∉ pat)
    (body : List UInt8) :
    strstr pat (head ++ body ++ [0]) =
      (strstr pat head).or ((strstr pat body).map (head.length + ·)) := by
  rw [strstr_concat_zero hpat.1 hpat.2]
  rcases h : strstr pat head with _ | c
  · rw [strstr_append_of_none hhead.getLast?_eq h10 hhead.zero_notMem h, Option.none_or]
  · rw [strstr_append_of_some hpat.1 h, Option.some_or]

/-- Nothing is complete before the head is. -/
theorem IsHead.checkCompleted_take {k : ℕ} (hk : k < head.length) (body : List UInt8) :
    checkCompleted ((head ++ body).take k) = .ok false := by
  have hnone : strstr DOUBLE_RL ((head ++ body).take k ++ [0]) = none := by
    have hlen := hhead.four_le
    rw [strstr_concat_zero DOUBLE_RL_ne.1 DOUBLE_RL_ne.2, strstr_take DOUBLE_RL_ne.1,
      strstr_append_of_some DOUBLE_RL_ne.1 hhead.empty_line, Option.filter_some,
      length_DOUBLE_RL, if_neg (by rw [decide_eq_true_eq]; omega)]
  unfold checkCompleted checkCompletedWith
  simp only [hnone]

theorem IsHead.checkCompleted_append (body : List UInt8) :
    checkCompleted (head ++ body) =
      match (strstr CONTENT_LENGTH_FLAG head).or
          ((strstr CONTENT_LENGTH_FLAG body).map (head.length + ·)) with
      | some c =>
        lengthVerdict ((head ++ body).drop (c + CONTENT_LENGTH_FLAG.length)) body.length
      | none =>
        match (strstr CHUNKED_FLAG head).or ((strstr CHUNKED_FLAG body).map (head.length + ·)) with
        | some _ => .ok (chunksEnd body).isSome
        | none => .ok true := by
  have hend : strstr DOUBLE_RL (head ++ body ++ [0]) = some (head.length - 4) := by
    rw [strstr_concat_zero DOUBLE_RL_ne.1 DOUBLE_RL_ne.2,
      strstr_append_of_some DOUBLE_RL_ne.1 hhead.empty_line]
  have hlen := hhead.four_le
  have hstart : head.length - 4 + DOUBLE_RL.length = head.length := by
    rw [length_DOUBLE_RL]
    omega
  have hflag := hhead.strstr_append CONTENT_LENGTH_FLAG_ne (by decide) body
  rw [checkCompleted, checkCompletedWith]
  simp only [hend, hstart, hflag, hhead.strstr_append CHUNKED_FLAG_ne (by decide) body,
    List.length_append, checkChunks_body]
  rcases hc : (strstr CONTENT_LENGTH_FLAG head).or
      ((strstr CONTENT_LENGTH_FLAG body).map (head.length + ·)) with _ | c
  · rfl
  -- the flag is followed by what is left of the buffer
  rw [strstr_concat_zero CONTENT_LENGTH_FLAG_ne.1 CONTENT_LENGTH_FLAG_ne.2, hc] at hflag
  have hpre : ((head ++ body).take (c + CONTENT_LENGTH_FLAG.length)).length =
      c + CONTENT_LENGTH_FLAG.length :=
    List.length_take_of_le (add_length_le_of_strstr CONTENT_LENGTH_FLAG_ne.1 hflag)
  have hcheck := checkContentLength_eq ((head ++ body).drop (c + CONTENT_LENGTH_FLAG.length))
    (head.length + body.length) head.length hpre
  rwa [List.take_append_drop, Nat.add_sub_cancel_left] at hcheck

/-- Behind a flag in the head its line ends, in the head too. -/
theorem IsHead.exists_lineEnd {c : ℕ} (hc : strstr CONTENT_LENGTH_FLAG head = some c) :
    ∃ i, strstr RL (head.drop (c + CONTENT_LENGTH_FLAG.length)) = some i := by
  have hlen := hhead.four_le
  have hle := add_length_le_of_strstr CONTENT_LENGTH_FLAG_ne.1 hc
  have h16 : CONTENT_LENGTH_FLAG.length = 16 := rfl
  have hflag := isPrefix_drop_of_strstr hc
  have hsplit := List.take_append_drop (head.length - 4) head
  rw [hhead.drop_eq] at hsplit
  have htake : (head.take (head.length - 4)).length = head.length - 4 :=
    List.length_take_of_le (by omega)
  -- the flag has no `\r`, so it ends before the last line ends
  have hbefore : c + CONTENT_LENGTH_FLAG.length ≤ head.length - 4 := by
    by_contra hafter
    rw [← hsplit, List.drop_append_of_le_length (by omega)] at hflag
    have hcr : (head.take (head.length - 4)).drop c ++ [13] <+:
        (head.take (head.length - 4)).drop c ++ DOUBLE_RL :=
      (List.prefix_append_right_inj _).mpr (by decide)
    have hmem := (List.prefix_of_prefix_length_le hcr hflag (by
      rw [List.length_append, List.length_drop, List.length_singleton]
      omega)).subset (List.mem_append_right _ (List.mem_singleton_self 13))
    exact absurd hmem (by decide)
  refine Option.ne_none_iff_exists'.mp ?_
  rw [← hsplit, List.drop_append_of_le_length (by omega)]
  refine strstr_ne_none RL_ne.1 (fun hmem => hhead.zero_notMem ?_) RL
  exact List.mem_of_mem_take (List.mem_of_mem_drop hmem)

end Answers

/-- The scan finds the message complete when all of it is there, and not before. -/
def ScansExactly (m : List UInt8) : Prop :=
  ∀ k ≤ m.length, checkCompleted (m.take k) = .ok (decide (k = m.length))

theorem scansExactly_iff_body {head : List UInt8} (hhead : IsHead head) (body : List UInt8) :
    ScansExactly (head ++ body) ↔
      ∀ k ≤ body.length,
        checkCompleted (head ++ body.take k) = .ok (decide (k = body.length)) := by
  unfold ScansExactly
  rw [List.length_append]
  constructor
  · intro h k hk
    have hcut := h (head.length + k) (by omega)
    rw [List.take_length_add_append] at hcut
    rw [hcut]
    simp only [Nat.add_left_cancel_iff]
  · intro h k hk
    by_cases hcut : k < head.length
    · rw [hhead.checkCompleted_take hcut, decide_eq_false (by omega)]
    · obtain ⟨k, rfl⟩ := Nat.exists_eq_add_of_le (not_lt.mp hcut)
      rw [List.take_length_add_append, h k (by omega)]
      simp only [Nat.add_left_cancel_iff]

/-! ## When the scan is exact -/

/-- The head and the body agree with what `checkCompleted` looks for.
* `Content-Length: ` in the head is followed by the length of the body.
* Otherwise a body needs `Transfer-Encoding: chunked` in the head, and consists of chunks as
  they are scanned.
* There, `Content-Length: ` in the body, before any zero, is followed by a number that makes
  the message complete at its end, and does not come too late. -/
def AgreesWithScan (head body : List UInt8) : Prop :=
  match strstr CONTENT_LENGTH_FLAG head with
  | some c => ∃ i, lengthField (head.drop (c + CONTENT_LENGTH_FLAG.length)) = some (i, body.length)
  | none =>
    match strstr CHUNKED_FLAG head with
    | none => body = []
    | some _ =>
      match strstr CONTENT_LENGTH_FLAG body with
      | none => chunksEnd body = some body.length
      | some c =>
        let start := c + CONTENT_LENGTH_FLAG.length
        (∀ e, chunksEnd body = some e → start ≤ e) ∧
          ∃ i d, lengthField (body.drop start) = some (i, d) ∧ max d (start + i) = body.length

theorem lengthVerdict_append {text : List UInt8} {i : ℕ} (h : strstr RL text = some i)
    (r : List UInt8) (received : ℕ) :
    lengthVerdict (text ++ r) received = lengthVerdict text received := by
  have hlen := add_two_le_of_strstr_RL h
  simp only [lengthVerdict, strstr_append_of_some RL_ne.1 h, h, Option.getD_some,
    List.take_append_of_le_length (show i ≤ text.length by omega)]

/-- The number alone decides. -/
theorem verdicts_iff_length (text : List UInt8) (n : ℕ) :
    (∀ k ≤ n, lengthVerdict text k = .ok (decide (k = n))) ↔
      ∃ i, lengthField text = some (i, n) := by
  constructor
  · intro h
    have hn := h n le_rfl
    rw [decide_eq_true rfl] at hn
    obtain ⟨i, d, hfield, hd⟩ := lengthField_of_lengthVerdict hn
    have hat := h d hd
    rw [lengthVerdict_of_lengthField hfield, decide_eq_true le_rfl, Except.ok.injEq, eq_comm,
      decide_eq_true_eq] at hat
    exact ⟨i, hat ▸ hfield⟩
  · rintro ⟨i, hfield⟩ k hk
    rw [lengthVerdict_of_lengthField hfield]
    congr 2
    exact propext ⟨fun h => le_antisymm hk h, fun h => h.ge⟩

/-- The end of the chunks alone decides. -/
theorem chunkAnswers_iff (o : Option ℕ) (n : ℕ) :
    (∀ k ≤ n, (before k o).isSome = decide (k = n)) ↔ o = some n := by
  constructor
  · intro h
    have hn := h n le_rfl
    rw [decide_eq_true rfl] at hn
    cases o with
    | none => cases hn
    | some e =>
      rw [before_some] at hn
      split at hn
      · rename_i he
        -- the chunks end before the cut at `e` already, so `e` is where the message ends
        have hat := h e he
        rw [before_some, if_pos le_rfl, Option.isSome_some, eq_comm, decide_eq_true_eq] at hat
        rw [hat]
      · cases hn
  · rintro rfl k hk
    rw [before_some]
    by_cases h : n ≤ k
    · rw [if_pos h, decide_eq_true (le_antisymm hk h)]
      rfl
    · rw [if_neg h, decide_eq_false (by omega)]
      rfl

/-- Up to `start` the chunks decide, and from there on the number. -/
theorem answers_iff_of_flag_in_body {body : List UInt8} {start : ℕ} (hstart : start ≤ body.length) :
    (∀ k ≤ body.length,
      (if k < start then .ok (before k (chunksEnd body)).isSome
        else lengthVerdict ((body.drop start).take (k - start)) k : Except Fault Bool) =
          .ok (decide (k = body.length))) ↔
      (∀ e, chunksEnd body = some e → start ≤ e) ∧
        ∃ i d, lengthField (body.drop start) = some (i, d) ∧ max d (start + i) = body.length := by
  have hdrop : (body.drop start).length = body.length - start := List.length_drop
  constructor
  · intro h
    refine ⟨fun e he => ?_, ?_⟩
    · by_contra hlt
      -- chunks that end before the number is there would end the message too early
      have hat := h e (by omega)
      rw [if_pos (by omega), he, before_some, if_pos le_rfl, decide_eq_false (by omega)] at hat
      cases hat
    · have hn := h body.length le_rfl
      rw [if_neg (by omega), List.take_of_length_le (by omega), decide_eq_true rfl] at hn
      obtain ⟨i, d, hfield, hd⟩ := lengthField_of_lengthVerdict hn
      have hi := le_length_of_lengthField hfield
      refine ⟨i, d, hfield, ?_⟩
      -- the message is taken for complete with the number and its line
      have hat := h (max d (start + i)) (by omega)
      rw [if_neg (by omega),
        lengthVerdict_of_lengthField (lengthField_take hfield (by omega)),
        decide_eq_true (le_max_left _ _), Except.ok.injEq, eq_comm, decide_eq_true_eq] at hat
      exact hat
  · rintro ⟨hchunks, i, d, hfield, hmax⟩ k hk
    split
    · rename_i hlt
      rw [decide_eq_false (by omega)]
      rcases he : chunksEnd body with _ | e
      · rfl
      · have := hchunks e he
        rw [before_some, if_neg (by omega)]
        rfl
    · by_cases hi : k - start < i
      · rw [lengthVerdict_of_none (strstr_RL_take_of_lengthField hfield hi),
          decide_eq_false (by omega)]
      · rw [lengthVerdict_of_lengthField (lengthField_take hfield (by omega))]
        congr 2
        exact propext ⟨fun h => by omega, fun h => by omega⟩

section Exact
variable {head body : List UInt8} (hhead : IsHead head)
include hhead

theorem IsHead.answer_of_flag_in_head {c k : ℕ} (hc : strstr CONTENT_LENGTH_FLAG head = some c)
    (hk : k ≤ body.length) :
    checkCompleted (head ++ body.take k) =
      lengthVerdict (head.drop (c + CONTENT_LENGTH_FLAG.length)) k := by
  obtain ⟨i, hi⟩ := hhead.exists_lineEnd hc
  have hle := add_length_le_of_strstr CONTENT_LENGTH_FLAG_ne.1 hc
  rw [hhead.checkCompleted_append, hc, Option.some_or, List.length_take_of_le hk]
  simp only
  rw [List.drop_append_of_le_length hle, lengthVerdict_append hi]

theorem IsHead.answer_of_no_flag (hc : strstr CONTENT_LENGTH_FLAG head = none)
    (hchunked : strstr CHUNKED_FLAG head = none) : checkCompleted (head ++ []) = .ok true := by
  rw [hhead.checkCompleted_append, hc, hchunked]
  rfl

theorem IsHead.answer_of_chunked {c' k : ℕ} (hc : strstr CONTENT_LENGTH_FLAG head = none)
    (hchunked : strstr CHUNKED_FLAG head = some c')
    (hbody : strstr CONTENT_LENGTH_FLAG (body.take k) = none) :
    checkCompleted (head ++ body.take k) = .ok (before k (chunksEnd body)).isSome := by
  rw [hhead.checkCompleted_append, hc, hbody, hchunked, chunksEnd_take]
  rfl

theorem IsHead.answer_of_flag_in_body {c k : ℕ} (hc : strstr CONTENT_LENGTH_FLAG head = none)
    (hk : k ≤ body.length) (hbody : strstr CONTENT_LENGTH_FLAG (body.take k) = some c) :
    checkCompleted (head ++ body.take k) =
      lengthVerdict ((body.drop (c + CONTENT_LENGTH_FLAG.length)).take
        (k - (c + CONTENT_LENGTH_FLAG.length))) k := by
  rw [hhead.checkCompleted_append, hc, hbody, Option.none_or, Option.map_some,
    List.length_take_of_le hk]
  simp only
  rw [Nat.add_assoc, List.drop_length_add_append, List.drop_take]

theorem IsHead.scansExactly_iff_agreesWithScan :
    ScansExactly (head ++ body) ↔ AgreesWithScan head body := by
  rw [scansExactly_iff_body hhead, AgreesWithScan]
  rcases hc : strstr CONTENT_LENGTH_FLAG head with _ | c
  · rcases hchunked : strstr CHUNKED_FLAG head with _ | c'
    · -- the end of the head is taken for the end of the message
      simp only
      constructor
      · intro h
        have h0 := h 0 (Nat.zero_le _)
        rw [List.take_zero, hhead.answer_of_no_flag hc hchunked, Except.ok.injEq, eq_comm,
          decide_eq_true_eq] at h0
        exact List.eq_nil_of_length_eq_zero h0.symm
      · rintro rfl k hk
        rw [List.take_nil, hhead.answer_of_no_flag hc hchunked,
          decide_eq_true (show k = ([] : List UInt8).length from Nat.le_zero.mp hk)]
    · rcases hbody : strstr CONTENT_LENGTH_FLAG body with _ | c
      · simp only
        rw [← chunkAnswers_iff]
        refine forall₂_congr fun k _ => ?_
        have hcut : strstr CONTENT_LENGTH_FLAG (body.take k) = none := by
          rw [strstr_take CONTENT_LENGTH_FLAG_ne.1, hbody]
          rfl
        rw [hhead.answer_of_chunked hc hchunked hcut, Except.ok.injEq]
      · simp only
        have hstart := add_length_le_of_strstr CONTENT_LENGTH_FLAG_ne.1 hbody
        rw [← answers_iff_of_flag_in_body hstart]
        refine forall₂_congr fun k hk => ?_
        have hcut := strstr_take CONTENT_LENGTH_FLAG_ne.1 body k
        rw [hbody, Option.filter_some] at hcut
        by_cases hlt : k < c + CONTENT_LENGTH_FLAG.length
        · rw [if_neg (by rw [decide_eq_true_eq]; omega)] at hcut
          rw [hhead.answer_of_chunked hc hchunked hcut, if_pos hlt]
        · rw [if_pos (by rw [decide_eq_true_eq]; omega)] at hcut
          rw [hhead.answer_of_flag_in_body hc hk hcut, if_neg hlt]
  · simp only
    rw [← verdicts_iff_length]
    refine forall₂_congr fun k hk => ?_
    rw [hhead.answer_of_flag_in_head hc hk]

end Exact

/-- **The scan finds a well-formed message complete exactly at its end** if and only if the
head and the body agree with what it looks for. -/
theorem Message.scansExactly_iff (m : Message) :
    ScansExactly m.bytes ↔ AgreesWithScan m.head m.body :=
  m.isHead.scansExactly_iff_agreesWithScan

/-- What is given to the parser: the message, and nothing short of it. -/
theorem tryParse_take_of_scansExactly {m : List UInt8} (hm : ScansExactly m) (v : VendoredParser)
    {p : HTTPParser} (hp : p.isCompleted = false) :
    (∀ k < m.length, HTTPParser.tryParse v p (m.take k) = .ok (0, p)) ∧
      ∃ p', HTTPParser.tryParse v p m = .ok (m.length, p') := by
  refine ⟨fun k hk => ?_, HTTPParser.tryParse_of_completed hp ?_⟩
  · have hfalse := hm k hk.le
    rw [decide_eq_false hk.ne] at hfalse
    unfold HTTPParser.tryParse
    rw [hp, hfalse]
    rfl
  · have htrue := hm m.length le_rfl
    rwa [List.take_length, decide_eq_true rfl] at htrue

/-! ## Bodies that are scanned as they are framed -/

theorem digits_append {base : ℕ} {s r : List UInt8} (hs : ∀ c ∈ s, digitVal c < base)
    (hr : ∀ c ∈ r.head?, ¬ digitVal c < base) (acc : ℕ) :
    digits base acc (s ++ r) = digits base acc s := by
  induction s generalizing acc with
  | nil =>
    cases r with
    | nil => rfl
    | cons c cs => simp only [List.nil_append, digits, if_neg (hr c rfl)]
  | cons c cs ih =>
    rw [List.cons_append, digits, digits, if_pos (hs c List.mem_cons_self),
      if_pos (hs c List.mem_cons_self), ih fun c hc => hs c (List.mem_cons_of_mem _ hc)]

theorem le_of_digitVal_lt {c : UInt8} (h : digitVal c < 16) : 48 ≤ c := by
  unfold digitVal at h
  rw [UInt8.le_iff_toNat_le]
  split at h
  · rename_i hc
    exact UInt8.le_iff_toNat_le.mp hc.1
  split at h
  · rename_i hc
    exact le_trans (by decide) (UInt8.le_iff_toNat_le.mp hc.1)
  split at h
  · rename_i hc
    exact le_trans (by decide) (UInt8.le_iff_toNat_le.mp hc.1)
  · exact absurd h (lt_irrefl 16)

/-- A digit is no white space. -/
theorem isSpace_of_digitVal_lt {c : UInt8} (h : digitVal c < 16) : isSpace c = false := by
  have hle := UInt8.le_iff_toNat_le.mp (le_of_digitVal_lt h)
  simp only [isSpace, Bool.or_eq_false_iff, Bool.and_eq_false_iff, decide_eq_false_iff_not,
    UInt8.le_iff_toNat_le, ← UInt8.toNat_inj, UInt8.reduceToNat] at hle ⊢
  omega

/-- What may follow a chunk size is no digit, and no `x`. -/
theorem not_digit_of_extension {c : UInt8} (h : c = 59 ∨ isBlank c) :
    ¬ digitVal c < 16 ∧ c ≠ 120 ∧ c ≠ 88 := by
  have hcases : c = 59 ∨ c = 32 ∨ c = 9 := by
    simpa only [isBlank, Bool.or_eq_true, decide_eq_true_eq] using h
  rcases hcases with rfl | rfl | rfl <;> decide

theorem sign_of_digit {c : UInt8} (h : digitVal c < 16) (cs : List UInt8) :
    sign (c :: cs) = (false, c :: cs) := by
  unfold sign
  split
  · rename_i heq
    cases heq
    exact absurd h (by decide)
  · rename_i heq
    cases heq
    exact absurd h (by decide)
  · rfl

/-- `sscanf` reads a chunk size up to its extension. -/
theorem sscanfHex_size {size extension : List UInt8} (hne : size ≠ [])
    (hsize : ∀ c ∈ size, digitVal c < 16) (hext : ∀ c ∈ extension.head?, c = 59 ∨ isBlank c)
    (hlt : digits 16 0 size < 2 ^ 31) :
    sscanfHex (size ++ extension) = digits 16 0 size := by
  have hdigits : digits 16 0 (size ++ extension) = digits 16 0 size :=
    digits_append hsize (fun c hc => (not_digit_of_extension (hext c hc)).1) 0
  obtain ⟨c, cs, rfl⟩ := List.exists_cons_of_ne_nil hne
  have hc := hsize c List.mem_cons_self
  have hspace : (c :: cs ++ extension).dropWhile isSpace = c :: cs ++ extension := by
    rw [List.cons_append, List.dropWhile_cons_of_neg (by rw [isSpace_of_digitVal_lt hc]; nofun)]
  -- `sscanf` would pass over `0x`, but neither a digit nor an extension begins with `x`
  have hnot : ∀ d ∈ (cs ++ extension).head?, d ≠ 120 ∧ d ≠ 88 := by
    intro d hd
    cases cs with
    | nil => exact (not_digit_of_extension (hext d hd)).2
    | cons e es =>
      cases hd
      have he := hsize d (List.mem_cons_of_mem _ List.mem_cons_self)
      constructor <;> rintro rfl <;> exact absurd he (by decide)
  unfold sscanfHex
  rw [hspace, List.cons_append, sign_of_digit hc]
  simp only
  split
  · rename_i heq
    rw [(List.cons.inj heq).2] at hnot
    exact absurd rfl (hnot 120 rfl).1
  · rename_i heq
    rw [(List.cons.inj heq).2] at hnot
    exact absurd rfl (hnot 88 rfl).2
  · rw [← List.cons_append, hdigits, if_neg (by omega), if_neg Bool.false_ne_true]
    exact Int.bmod_eq_of_le (by omega) (by omega)

theorem strstr_RL_line {line rest : List UInt8} (hline : ∀ c ∈ line, c ≠ 13 ∧ c ≠ 0) :
    strstr RL (line ++ (crlf ++ rest)) = some line.length := by
  have hcrlf : strstr RL (crlf ++ rest) = some 0 :=
    strstr_cons_of_isPrefix (List.prefix_append RL rest)
  rw [show RL = 13 :: [10] from rfl] at hcrlf ⊢
  rw [strstr_append_of_forall hline, hcrlf, Option.map_some, Nat.add_zero]

/-- A size line is found and read. -/
theorem size_line {size extension : List UInt8} (hsize : ∀ c ∈ size, digitVal c < 16)
    (hext : ∀ c ∈ extension, isText c) :
    ∀ c ∈ size ++ extension, c ≠ 13 ∧ c ≠ 0 := by
  intro c hc
  rcases List.mem_append.mp hc with hc | hc
  · have hlt := hsize c hc
    constructor <;> rintro rfl <;> exact absurd hlt (by decide)
  · have := ne_of_isText (hext c hc)
    exact ⟨this.1, this.2.2⟩

theorem chunksEnd_chunk (c : Chunk) (hlt : c.data.length < 2 ^ 31) (rest : List UInt8) :
    chunksEnd (c.bytes ++ rest) = (chunksEnd rest).map (c.bytes.length + ·) := by
  have hne : c.size ≠ [] := by
    intro hnil
    have hlen := c.data_length
    rw [hnil] at hlen
    exact c.data_ne (List.eq_nil_of_length_eq_zero hlen)
  have hsize := sscanfHex_size hne c.size_digits c.extension_head (c.data_length ▸ hlt)
  rw [← c.data_length] at hsize
  have hpos := List.length_pos_iff.mpr c.data_ne
  have hbytes : c.bytes ++ rest = (c.size ++ c.extension) ++ (crlf ++ (c.data ++ (crlf ++ rest))) := by
    simp only [Chunk.bytes, List.append_assoc]
  have hfind : strstr RL (c.bytes ++ rest) = some (c.size ++ c.extension).length := by
    rw [hbytes]
    exact strstr_RL_line (size_line c.size_digits c.extension_text)
  have htake : (c.bytes ++ rest).take (c.size ++ c.extension).length = c.size ++ c.extension := by
    rw [hbytes, List.take_left]
  have hdata : (c.bytes ++ rest).drop ((c.size ++ c.extension).length + 2 + c.data.length) =
      crlf ++ rest := by
    have hsplit : c.bytes ++ rest =
        (c.size ++ c.extension ++ crlf ++ c.data) ++ (crlf ++ rest) := by
      simp only [Chunk.bytes, List.append_assoc]
    rw [hsplit]
    exact List.drop_left' (by simp only [List.length_append, length_crlf])
  have hend : strstr RL (crlf ++ rest) = some 0 :=
    strstr_cons_of_isPrefix (List.prefix_append RL rest)
  have hlen : (c.size ++ c.extension).length + 2 + c.data.length + 0 + 2 = c.bytes.length := by
    simp only [Chunk.bytes, List.length_append, length_crlf, Nat.add_zero]
  rw [chunksEnd_of_some hfind, htake, hsize, if_pos (by omega), Int.toNat_natCast, hdata, hend,
    Option.bind_some, hlen, List.drop_left]

/-- The trailers end with the first empty line. -/
theorem trailerEnd_lineSection (trailers : List Field) :
    trailerEnd (lineSection (trailers.map Field.bytes)) =
      some (lineSection (trailers.map Field.bytes)).length := by
  cases trailers with
  | nil => decide
  | cons f fs =>
    have hend := strstr_lineSection f.isLine (isLine_of_mem_map fs)
    have hlen := add_length_le_of_strstr DOUBLE_RL_ne.1 hend
    rw [length_DOUBLE_RL] at hlen
    -- a field does not begin with `\r`, so the scan looks for an empty line
    have hhead : (lineSection ((f :: fs).map Field.bytes)).headD 0 ≠ 13 := by
      obtain ⟨hne, htext⟩ := f.isLine
      obtain ⟨c, cs, hcs⟩ := List.exists_cons_of_ne_nil hne
      rw [List.map_cons, lineSection_cons, hcs, List.cons_append, List.headD_cons]
      exact (ne_of_isText (htext c (hcs ▸ List.mem_cons_self))).1
    rw [trailerEnd, if_neg hhead, List.map_cons, hend, Option.map_some]
    congr 1
    omega

theorem chunksEnd_chunks {chunks : List Chunk} (hlt : ∀ c ∈ chunks, c.data.length < 2 ^ 31)
    (rest : List UInt8) :
    chunksEnd (chunks.flatMap Chunk.bytes ++ rest) =
      (chunksEnd rest).map ((chunks.flatMap Chunk.bytes).length + ·) := by
  induction chunks with
  | nil =>
    rw [List.flatMap_nil, List.nil_append, List.length_nil]
    rcases chunksEnd rest with _ | e
    · rfl
    · rw [Option.map_some, Nat.zero_add]
  | cons c cs ih =>
    rw [List.flatMap_cons, List.append_assoc, chunksEnd_chunk c (hlt c List.mem_cons_self),
      ih fun d hd => hlt d (List.mem_cons_of_mem c hd), Option.map_map]
    congr 1
    funext i
    simp only [Function.comp_apply, List.length_append]
    omega

theorem digits_zeros {zeros : List UInt8} (h : ∀ c ∈ zeros, c = 48) : digits 16 0 zeros = 0 := by
  induction zeros with
  | nil => rfl
  | cons c cs ih =>
    rw [h c List.mem_cons_self, digits, if_pos (by decide)]
    exact ih fun d hd => h d (List.mem_cons_of_mem c hd)

/-- A chunked body is scanned to its end, if its chunks are shorter than `2 ^ 31`. -/
theorem chunksEnd_chunkedBody (b : ChunkedBody) (hlt : ∀ c ∈ b.chunks, c.data.length < 2 ^ 31) :
    chunksEnd b.bytes = some b.bytes.length := by
  have hzeros : ∀ c ∈ b.zeros, digitVal c < 16 := by
    intro c hc
    rw [b.zeros_zero c hc]
    decide
  have hsize := sscanfHex_size b.zeros_ne hzeros b.extension_head
    (by rw [digits_zeros b.zeros_zero]; decide)
  rw [digits_zeros b.zeros_zero, Nat.cast_zero] at hsize
  have hbytes : b.bytes = b.chunks.flatMap Chunk.bytes ++
      ((b.zeros ++ b.extension) ++ (crlf ++ lineSection (b.trailers.map Field.bytes))) := by
    simp only [ChunkedBody.bytes, List.append_assoc]
  have hfind : strstr RL ((b.zeros ++ b.extension) ++
      (crlf ++ lineSection (b.trailers.map Field.bytes))) =
        some (b.zeros ++ b.extension).length :=
    strstr_RL_line (size_line hzeros b.extension_text)
  have hdrop : ((b.zeros ++ b.extension) ++
      (crlf ++ lineSection (b.trailers.map Field.bytes))).drop
        ((b.zeros ++ b.extension).length + 2) = lineSection (b.trailers.map Field.bytes) := by
    rw [← List.append_assoc]
    exact List.drop_left' (by rw [List.length_append, length_crlf])
  rw [hbytes, chunksEnd_chunks hlt, chunksEnd_of_some hfind, List.take_left, hsize,
    if_neg (Int.lt_irrefl 0), if_pos rfl, hdrop, trailerEnd_lineSection]
  simp only [Option.map_some, List.length_append, length_crlf, Option.some.injEq]
  omega

/-- A chunked message is scanned exactly if its head has the chunked flag in this spelling, no
`Content-Length: ` stands in it or, before any zero, in its body, and its chunks are shorter than
`2 ^ 31`. -/
theorem Message.scansExactly_of_chunked (m : Message) (b : ChunkedBody) (hbody : m.body = b.bytes)
    (hlt : ∀ c ∈ b.chunks, c.data.length < 2 ^ 31)
    (hflag : strstr CHUNKED_FLAG m.head ≠ none)
    (hhead : strstr CONTENT_LENGTH_FLAG m.head = none)
    (hnone : strstr CONTENT_LENGTH_FLAG m.body = none) : ScansExactly m.bytes := by
  obtain ⟨c, hc⟩ := Option.ne_none_iff_exists'.mp hflag
  refine m.isHead.scansExactly_iff_agreesWithScan.mpr ?_
  rw [AgreesWithScan, hhead, hc, hnone]
  change chunksEnd m.body = some m.body.length
  rw [hbody]
  exact chunksEnd_chunkedBody b hlt

theorem digitVal_lt_of_isDigit {c : UInt8} (h : isDigit c) : digitVal c < 16 := by
  simp only [isDigit, Bool.and_eq_true, decide_eq_true_eq] at h
  have hle := UInt8.le_iff_toNat_le.mp h.2
  rw [digitVal, if_pos h, UInt8.toNat_sub_of_le _ _ h.1]
  simp only [UInt8.reduceToNat] at hle ⊢
  omega

/-- A decimal number in its line is read as it is written. -/
theorem lengthField_of_decimal {s : List UInt8} {n : ℕ} (hs : decimal s = some n)
    (hlen : s.length < 1024) (hn : n < 2 ^ 31) (rest : List UInt8) :
    lengthField (s ++ (crlf ++ rest)) = some (s.length + 2, n) := by
  unfold decimal at hs
  split at hs
  · rename_i hdigits
    cases hs
    obtain ⟨hne, hall⟩ := hdigits
    have hdigits : ∀ c ∈ s, isDigit c := List.all_eq_true.mp hall
    have hfind : strstr RL (s ++ (crlf ++ rest)) = some s.length := by
      refine strstr_RL_line fun c hc => ?_
      have := ne_of_isText (isText_of_isVisible (isVisible_of_isDigit (hdigits c hc)))
      exact ⟨this.1, this.2.2⟩
    have hatoi : atoi s = digits 10 0 s := by
      obtain ⟨c, cs, rfl⟩ := List.exists_cons_of_ne_nil hne
      have hc := digitVal_lt_of_isDigit (hdigits c List.mem_cons_self)
      unfold atoi
      rw [List.dropWhile_cons_of_neg (by rw [isSpace_of_digitVal_lt hc]; nofun), sign_of_digit hc]
      simp only [if_neg Bool.false_ne_true]
      rw [Int.min_eq_left (by omega)]
      exact Int.bmod_eq_of_le (by omega) (by omega)
    have hpos := List.length_pos_iff.mpr hne
    refine lengthField_eq_some.mpr ⟨s.length, hfind, rfl, by omega, ?_⟩
    rw [List.take_left, hatoi]
  · cases hs

/-- A message with the flag in its head, and its length behind it in decimal. -/
theorem Message.scansExactly_of_contentLength (m : Message) {c : ℕ} {s rest : List UInt8}
    (hc : strstr CONTENT_LENGTH_FLAG m.head = some c)
    (hs : m.head.drop (c + CONTENT_LENGTH_FLAG.length) = s ++ (crlf ++ rest))
    (hdec : decimal s = some m.body.length) (hlen : s.length < 1024)
    (hbody : m.body.length < 2 ^ 31) : ScansExactly m.bytes := by
  refine m.isHead.scansExactly_iff_agreesWithScan.mpr ?_
  rw [AgreesWithScan, hc]
  change ∃ i, lengthField (m.head.drop (c + CONTENT_LENGTH_FLAG.length)) = some (i, m.body.length)
  rw [hs]
  exact ⟨_, lengthField_of_decimal hdec hlen hbody rest⟩

/-! ## A field name in lower case -/

def lowerCaseField : Field where
  name := ascii "content-length"
  value := ascii " 1"
  name_ne := by decide
  name_token := List.all_eq_true.mp (by decide)
  value_text := List.all_eq_true.mp (by decide)

/-- `POST / HTTP/1.1`, `content-length: 1` and the body `a`. -/
def lowerCaseMessage : Message where
  startLine := .request
    { method := ascii "POST"
      target := ascii "/"
      method_ne := by decide
      method_token := List.all_eq_true.mp (by decide)
      target_ne := by decide
      target_visible := List.all_eq_true.mp (by decide) }
  fields := [lowerCaseField]
  body := ascii "a"
  framed := by
    refine .contentLength _ ⟨lowerCaseField, List.mem_singleton_self _, by decide⟩ ?_ ?_
    · intro f hf
      rw [List.mem_singleton.mp hf]
      decide
    · intro f hf _
      rw [List.mem_singleton.mp hf]
      decide

/-- The message is taken for complete before its body is there. -/
theorem lowerCaseMessage_not_scansExactly : ¬ ScansExactly lowerCaseMessage.bytes := by
  intro h
  have hhead := h lowerCaseMessage.head.length (by decide)
  revert hhead
  decide

end Netxy.Http
