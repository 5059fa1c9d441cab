import Netxy.Lib.Cut
import Netxy.Http.Message

/-!
# Reading HTTP/1.1 messages

Readers for the start line and the header fields of the grammar: they take apart exactly the texts
that `lineSection` puts together from a start line and fields.
-/

namespace Netxy.Http
open CString Cut

/-! ## The readers -/

/-- A field name, a colon and the value, with the white space around it. -/
def readField (line : List UInt8) : Option Field :=
  (cut [58] line).bind fun r =>
    if h : r.1 ≠ [] ∧ r.1.all isTokenChar ∧ r.2.all isText then
      some ⟨r.1, r.2, h.1, List.all_eq_true.mp h.2.1, List.all_eq_true.mp h.2.2⟩
    else none

/-- The lines up to the empty one, and what follows it. -/
def readLines : ℕ → List UInt8 → Option (List (List UInt8) × List UInt8)
  | 0, _ => none
  | fuel + 1, text =>
    (cut crlf text).bind fun r =>
      if r.1 = [] then some ([], r.2)
      else (readLines fuel r.2).map fun rest => (r.1 :: rest.1, rest.2)

/-- The header fields and the body. -/
def readHead (text : List UInt8) : Option (List Field × List UInt8) :=
  (readLines (text.length + 1) text).bind fun r =>
    (r.1.mapM readField).map fun fields => (fields, r.2)

/-- The version, a code of three digits and a reason, with single spaces between them. -/
def readStatusLine (line : List UInt8) : Option StatusLine :=
  (cut [32] line).bind fun r =>
    (cut [32] r.2).bind fun s =>
      if h : r.1 = ascii "HTTP/1.1" ∧ s.1.length = 3 ∧ s.1.all isDigit ∧ s.2.all isText then
        some ⟨s.1, s.2, h.2.1, List.all_eq_true.mp h.2.2.1, List.all_eq_true.mp h.2.2.2⟩
      else none

/-- A start line, header fields and what follows the empty line. -/
def readMessage {α : Type*} (readStartLine : List UInt8 → Option α) (text : List UInt8) :
    Option (α × List Field × List UInt8) :=
  (cut crlf text).bind fun r =>
    (readStartLine r.1).bind fun line => (readHead r.2).map fun rest => (line, rest)

/-! ## The readers are the grammar -/

/-- No name has a colon or a blank in it. -/
theorem ne_of_isTokenChar {c : UInt8} (h : isTokenChar c) : c ≠ 58 ∧ c ≠ 32 := by
  refine ⟨?_, ?_⟩ <;> rintro rfl <;> revert h <;> decide

theorem ne_of_isDigit {c : UInt8} (h : isDigit c) : c ≠ 32 := by
  rintro rfl
  revert h
  decide

/-- A line is the field that is read from it, and no other field. -/
theorem readField_eq_some {line : List UInt8} {f : Field} :
    readField line = some f ↔ line = f.bytes := by
  constructor
  · intro h
    obtain ⟨r, hcut, h⟩ := Option.bind_eq_some_iff.mp h
    split_ifs at h
    cases h
    exact eq_of_cut hcut
  · rintro rfl
    have hcolon : (58 : UInt8) ∉ f.name := fun hc => (ne_of_isTokenChar (f.name_token _ hc)).1 rfl
    have hcut : cut [58] f.bytes = some (f.name, f.value) := cut_append hcolon f.value
    rw [readField, hcut, Option.bind_some, dif_pos ⟨f.name_ne, List.all_eq_true.mpr f.name_token,
      List.all_eq_true.mpr f.value_text⟩]

/-- The same for all lines. -/
theorem mapM_readField_eq_some {lines : List (List UInt8)} {fields : List Field} :
    lines.mapM readField = some fields ↔ lines = fields.map Field.bytes := by
  induction lines generalizing fields with
  | nil =>
    cases fields with
    | nil => exact iff_of_true rfl rfl
    | cons f fields => exact iff_of_false nofun nofun
  | cons line lines ih =>
    simp only [List.mapM_cons, Option.bind_eq_bind, Option.pure_def, Option.bind_eq_some_iff,
      readField_eq_some, ih, Option.some.injEq]
    constructor
    · rintro ⟨f, rfl, fields, rfl, rfl⟩
      rfl
    · intro h
      obtain ⟨f, fields, rfl, hf, hfields⟩ := List.map_eq_cons_iff.mp h.symm
      exact ⟨f, hf.symm, fields, hfields.symm, rfl⟩

/-- Lines are read up to the empty one. -/
theorem readLines_lineSection {lines : List (List UInt8)} (h : ∀ l ∈ lines, IsLine l)
    (body : List UInt8) {fuel : ℕ} (hfuel : lines.length < fuel) :
    readLines fuel (lineSection lines ++ body) = some (lines, body) := by
  induction lines generalizing fuel with
  | nil =>
    obtain ⟨fuel, rfl⟩ := Nat.exists_eq_succ_of_ne_zero (Nat.ne_zero_of_lt hfuel)
    have hcut : cut crlf (lineSection [] ++ body) = some ([], body) :=
      cut_append List.not_mem_nil body
    rw [readLines, hcut]
    rfl
  | cons l ls ih =>
    obtain ⟨fuel, rfl⟩ := Nat.exists_eq_succ_of_ne_zero (Nat.ne_zero_of_lt hfuel)
    obtain ⟨hne, htext⟩ := h l List.mem_cons_self
    have hend : (13 : UInt8) ∉ l := fun hc => (ne_of_isText (htext _ hc)).1 rfl
    have hcut : cut crlf (lineSection (l :: ls) ++ body) = some (l, lineSection ls ++ body) := by
      rw [lineSection_cons, ← List.append_assoc, List.append_assoc]
      exact cut_append hend _
    have hrest := ih (fun x hx => h x (List.mem_cons_of_mem l hx)) (Nat.lt_of_succ_lt_succ hfuel)
    rw [readLines, hcut, Option.bind_some, if_neg hne, hrest]
    rfl

/-- The lines and the body are the text. -/
theorem eq_of_readLines {fuel : ℕ} {text body : List UInt8} {lines : List (List UInt8)}
    (h : readLines fuel text = some (lines, body)) : text = lineSection lines ++ body := by
  induction fuel generalizing text lines with
  | zero => cases h
  | succ fuel ih =>
    obtain ⟨r, hcut, h⟩ := Option.bind_eq_some_iff.mp h
    rw [eq_of_cut hcut]
    split_ifs at h with hempty
    · cases h
      rw [hempty]
      rfl
    · obtain ⟨rest, hrest, h⟩ := Option.map_eq_some_iff.mp h
      cases h
      rw [ih hrest, lineSection_cons, List.append_assoc, List.append_assoc, List.append_assoc]

/-- Every line takes two characters at least, so the fuel lasts. -/
theorem length_le_lineSection (lines : List (List UInt8)) :
    lines.length ≤ (lineSection lines).length := by
  induction lines with
  | nil => exact Nat.zero_le _
  | cons l ls ih =>
    rw [lineSection_cons, List.length_append, List.length_append, length_crlf, List.length_cons]
    omega

/-- The head and the body are the text, and there is one way to read it. -/
theorem readHead_eq_some {text body : List UInt8} {fields : List Field} :
    readHead text = some (fields, body) ↔
      text = lineSection (fields.map Field.bytes) ++ body := by
  constructor
  · intro h
    obtain ⟨r, hr, h⟩ := Option.bind_eq_some_iff.mp h
    obtain ⟨fields, hfields, h⟩ := Option.map_eq_some_iff.mp h
    cases h
    rw [← mapM_readField_eq_some.mp hfields]
    exact eq_of_readLines hr
  · rintro rfl
    have hlines : readLines ((lineSection (fields.map Field.bytes) ++ body).length + 1)
        (lineSection (fields.map Field.bytes) ++ body) = some (fields.map Field.bytes, body) := by
      refine readLines_lineSection (isLine_of_mem_map fields) body ?_
      have hle := length_le_lineSection (fields.map Field.bytes)
      rw [List.length_append]
      omega
    rw [readHead, hlines, Option.bind_some, mapM_readField_eq_some.mpr rfl]
    rfl

/-- And for the status line. -/
theorem readStatusLine_eq_some {text : List UInt8} {line : StatusLine} :
    readStatusLine text = some line ↔ text = (StartLine.status line).bytes := by
  have hversion : ascii "HTTP/1.1 " = ascii "HTTP/1.1" ++ [32] := by decide
  constructor
  · intro h
    obtain ⟨r, hline, h⟩ := Option.bind_eq_some_iff.mp h
    obtain ⟨s, hcode, h⟩ := Option.bind_eq_some_iff.mp h
    split_ifs at h with hok
    cases h
    rw [eq_of_cut hline, eq_of_cut hcode, hok.1]
    simp only [StartLine.bytes, hversion, List.append_assoc]
  · rintro rfl
    have hbytes : (StartLine.status line).bytes =
        ascii "HTTP/1.1" ++ [32] ++ (line.code ++ [32] ++ line.reason) := by
      rw [StartLine.bytes, hversion]
      simp only [List.append_assoc]
    have hline : cut [32] (StartLine.status line).bytes =
        some (ascii "HTTP/1.1", line.code ++ [32] ++ line.reason) := by
      rw [hbytes]
      exact cut_append (by decide) _
    have hcode : cut [32] (line.code ++ [32] ++ line.reason) = some (line.code, line.reason) :=
      cut_append (fun hc => ne_of_isDigit (line.code_digit _ hc) rfl) _
    rw [readStatusLine, hline, Option.bind_some, hcode, Option.bind_some, dif_pos
      ⟨rfl, line.code_length, List.all_eq_true.mpr line.code_digit,
        List.all_eq_true.mpr line.reason_text⟩]

/-- A reader of start lines makes one of messages. -/
theorem readMessage_eq_some {α : Type*} {readStartLine : List UInt8 → Option α}
    {startLine : α → StartLine}
    (hread : ∀ text line, readStartLine text = some line ↔ text = (startLine line).bytes)
    {text body : List UInt8} {line : α} {fields : List Field} :
    readMessage readStartLine text = some (line, fields, body) ↔
      text = lineSection ((startLine line).bytes :: fields.map Field.bytes) ++ body := by
  rw [lineSection_cons]
  constructor
  · intro h
    obtain ⟨r, hcut, h⟩ := Option.bind_eq_some_iff.mp h
    obtain ⟨l, hline, h⟩ := Option.bind_eq_some_iff.mp h
    obtain ⟨rest, hrest, h⟩ := Option.map_eq_some_iff.mp h
    cases h
    rw [eq_of_cut hcut, (hread _ _).mp hline, readHead_eq_some.mp hrest]
    simp only [List.append_assoc]
  · rintro rfl
    have hend : (13 : UInt8) ∉ (startLine line).bytes :=
      fun hc => (ne_of_isText ((startLine line).isLine.2 _ hc)).1 rfl
    have hcut : cut crlf ((startLine line).bytes ++
        (crlf ++ lineSection (fields.map Field.bytes)) ++ body) =
        some ((startLine line).bytes, lineSection (fields.map Field.bytes) ++ body) := by
      rw [← List.append_assoc, List.append_assoc]
      exact cut_append hend _
    rw [readMessage, hcut, Option.bind_some, (hread _ line).mpr rfl, Option.bind_some,
      readHead_eq_some.mpr rfl]
    rfl

/-! ## What a field says -/

/-- The name and the value without the white space around it. -/
def Field.pair (f : Field) : List UInt8 × List UInt8 := (f.name, f.content)

/-- A name of token characters, and a value of text that neither begins nor ends in a blank. -/
structure ProperField (v : List UInt8 × List UInt8) : Prop where
  name_ne : v.1 ≠ []
  name_token : ∀ c ∈ v.1, isTokenChar c
  value_text : ∀ c ∈ v.2, isText c
  head : ∀ c ∈ v.2.head?, ¬ isBlank c
  last : ∀ c ∈ v.2.getLast?, ¬ isBlank c

/-- Nor is it a tab. -/
theorem not_isBlank_of_isVisible {c : UInt8} (h : isVisible c) : ¬ isBlank c := by
  intro hblank
  rw [isBlank, Bool.or_eq_true, decide_eq_true_eq, decide_eq_true_eq] at hblank
  rcases hblank with rfl | rfl <;> revert h <;> decide

/-- A value without any blank is proper. -/
theorem properField_of_isVisible {name value : List UInt8} (hne : name ≠ [])
    (hname : ∀ c ∈ name, isTokenChar c) (hvalue : ∀ c ∈ value, isVisible c) :
    ProperField (name, value) where
  name_ne := hne
  name_token := hname
  value_text c hc := isText_of_isVisible (hvalue c hc)
  head c hc := not_isBlank_of_isVisible (hvalue c (List.mem_of_mem_head? hc))
  last c hc := not_isBlank_of_isVisible (hvalue c (List.mem_of_mem_getLast? hc))

/-- A field that says this, with one space behind the colon. -/
def ProperField.field {v : List UInt8 × List UInt8} (h : ProperField v) : Field where
  name := v.1
  value := 32 :: v.2
  name_ne := h.name_ne
  name_token := h.name_token
  value_text := List.forall_mem_cons.mpr ⟨rfl, h.value_text⟩

/-- The pair comes back as it was given. -/
theorem ProperField.pair_field {v : List UInt8 × List UInt8} (h : ProperField v) :
    h.field.pair = v := by
  have hfront : v.2.dropWhile isBlank = v.2 := by
    rw [List.dropWhile_eq_self_iff]
    intro hlt
    refine h.head _ ?_
    rw [List.head?_eq_getElem?, List.getElem?_eq_getElem hlt]
    rfl
  have hback : v.2.rdropWhile isBlank = v.2 :=
    List.rdropWhile_eq_self_iff.mpr fun hne => h.last _ (List.getLast?_eq_some_getLast hne)
  have hcontent : h.field.content = v.2 := by
    change (v.2.dropWhile isBlank).rdropWhile isBlank = v.2
    rw [hfront, hback]
  exact Prod.ext rfl hcontent

end Netxy.Http
