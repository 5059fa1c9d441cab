import Mathlib.Data.List.DropRight
import Netxy.Http.HttpParser

/-!
# HTTP/1.1 messages

The messages of the protocol: a start line, header fields whose names are compared without
regard to case, and a body that is framed by `Content-Length`, by chunks, or empty.
-/

namespace Netxy.Http
open CString

/-! ## Lines -/

def isTokenChar (c : UInt8) : Bool :=
  (48 ≤ c && c ≤ 57) || (65 ≤ c && c ≤ 90) || (97 ≤ c && c ≤ 122) ||
    [33, 35, 36, 37, 38, 39, 42, 43, 45, 46, 94, 95, 96, 124, 126].contains c

/-- A visible character, or one of the upper half. -/
def isVisible (c : UInt8) : Bool := 33 ≤ c && c ≠ 127

def isBlank (c : UInt8) : Bool := c = 32 || c = 9

def isText (c : UInt8) : Bool := isBlank c || isVisible c

def isDigit (c : UInt8) : Bool := 48 ≤ c && c ≤ 57

def crlf : List UInt8 := [13, 10]

/-- A method, a target and the version. -/
structure RequestLine where
  method : List UInt8
  target : List UInt8
  method_ne : method ≠ []
  method_token : ∀ c ∈ method, isTokenChar c
  target_ne : target ≠ []
  target_visible : ∀ c ∈ target, isVisible c

/-- The version, a status code and a reason. -/
structure StatusLine where
  code : List UInt8
  reason : List UInt8
  code_length : code.length = 3
  code_digit : ∀ c ∈ code, isDigit c
  reason_text : ∀ c ∈ reason, isText c

inductive StartLine
  | request (line : RequestLine)
  | status (line : StatusLine)

def StartLine.bytes : StartLine → List UInt8
  | .request line => line.method ++ [32] ++ line.target ++ ascii " HTTP/1.1"
  | .status line => ascii "HTTP/1.1 " ++ line.code ++ [32] ++ line.reason

/-- A header field or a trailer field; the white space around the value is part of it here. -/
structure Field where
  name : List UInt8
  value : List UInt8
  name_ne : name ≠ []
  name_token : ∀ c ∈ name, isTokenChar c
  value_text : ∀ c ∈ value, isText c

def Field.bytes (f : Field) : List UInt8 := f.name ++ [58] ++ f.value

def toLower (c : UInt8) : UInt8 := if 65 ≤ c ∧ c ≤ 90 then c + 32 else c

/-- The field has this name, which is given in lower case. -/
def Field.isNamed (f : Field) (name : List UInt8) : Bool := f.name.map toLower = name

/-- The value without the white space around it. -/
def Field.content (f : Field) : List UInt8 := (f.value.dropWhile isBlank).rdropWhile isBlank

/-- The lines, each with its end, and the empty line behind them. -/
def lineSection (lines : List (List UInt8)) : List UInt8 := (lines.flatMap (· ++ crlf)) ++ crlf

/-! ## Bodies -/

/-- A chunk: a size in hexadecimal digits, an extension and the data. -/
structure Chunk where
  size : List UInt8
  extension : List UInt8
  data : List UInt8
  size_digits : ∀ c ∈ size, digitVal c < 16
  extension_text : ∀ c ∈ extension, isText c
  extension_head : ∀ c ∈ extension.head?, c = 59 ∨ isBlank c
  data_length : data.length = digits 16 0 size
  data_ne : data ≠ []

def Chunk.bytes (c : Chunk) : List UInt8 := c.size ++ c.extension ++ crlf ++ c.data ++ crlf

/-- Chunks, the last one of size zero, and the trailer fields. -/
structure ChunkedBody where
  chunks : List Chunk
  zeros : List UInt8
  extension : List UInt8
  trailers : List Field
  zeros_ne : zeros ≠ []
  zeros_zero : ∀ c ∈ zeros, c = 48
  extension_text : ∀ c ∈ extension, isText c
  extension_head : ∀ c ∈ extension.head?, c = 59 ∨ isBlank c

def ChunkedBody.bytes (b : ChunkedBody) : List UInt8 :=
  b.chunks.flatMap Chunk.bytes ++ (b.zeros ++ b.extension ++ crlf) ++
    lineSection (b.trailers.map Field.bytes)

/-- The value of a decimal number. -/
def decimal (s : List UInt8) : Option ℕ :=
  if s ≠ [] ∧ s.all isDigit then some (digits 10 0 s) else none

/-- How the header fields frame the body. -/
inductive Framed (fields : List Field) : List UInt8 → Prop
  | contentLength (body : List UInt8)
    (present : ∃ f ∈ fields, f.isNamed (ascii "content-length"))
    (unchunked : ∀ f ∈ fields, ¬ f.isNamed (ascii "transfer-encoding"))
    (length : ∀ f ∈ fields, f.isNamed (ascii "content-length") →
      decimal f.content = some body.length) : Framed fields body
  | chunked (body : ChunkedBody)
    (present : ∃ f ∈ fields, f.isNamed (ascii "transfer-encoding"))
    (coding : ∀ f ∈ fields, f.isNamed (ascii "transfer-encoding") →
      f.content.map toLower = ascii "chunked")
    (undelimited : ∀ f ∈ fields, ¬ f.isNamed (ascii "content-length")) : Framed fields body.bytes
  | empty (unchunked : ∀ f ∈ fields, ¬ f.isNamed (ascii "transfer-encoding"))
    (undelimited : ∀ f ∈ fields, ¬ f.isNamed (ascii "content-length")) : Framed fields []

/-- A well-formed message. -/
structure Message where
  startLine : StartLine
  fields : List Field
  body : List UInt8
  framed : Framed fields body

/-- The start line, the header fields and the empty line. -/
def Message.head (m : Message) : List UInt8 :=
  lineSection (m.startLine.bytes :: m.fields.map Field.bytes)

def Message.bytes (m : Message) : List UInt8 := m.head ++ m.body

/-! ## Where the head ends -/

theorem ne_of_isText {c : UInt8} (h : isText c) : c ≠ 13 ∧ c ≠ 10 ∧ c ≠ 0 := by
  refine ⟨?_, ?_, ?_⟩ <;> rintro rfl <;> revert h <;> decide

theorem isText_of_isVisible {c : UInt8} (h : isVisible c) : isText c := by
  rw [isText, h, Bool.or_true]

theorem isVisible_of_isTokenChar {c : UInt8} (h : isTokenChar c) : isVisible c := by
  simp only [isTokenChar, isVisible, Bool.or_eq_true, Bool.and_eq_true, decide_eq_true_eq,
    List.contains_iff_mem, List.mem_cons, List.not_mem_nil, or_false, UInt8.le_iff_toNat_le,
    ← UInt8.toNat_inj, ne_eq, UInt8.reduceToNat] at h ⊢
  omega

theorem isVisible_of_isDigit {c : UInt8} (h : isDigit c) : isVisible c := by
  simp only [isDigit, isVisible, Bool.and_eq_true, decide_eq_true_eq, UInt8.le_iff_toNat_le,
    ← UInt8.toNat_inj, ne_eq, UInt8.reduceToNat] at h ⊢
  omega

/-- A line that is not empty. -/
def IsLine (l : List UInt8) : Prop := l ≠ [] ∧ ∀ c ∈ l, isText c

theorem Field.isLine (f : Field) : IsLine f.bytes := by
  refine ⟨by simp [Field.bytes], fun c hc => ?_⟩
  simp only [Field.bytes, List.mem_append, List.mem_singleton] at hc
  rcases hc with (hc | rfl) | hc
  · exact isText_of_isVisible (isVisible_of_isTokenChar (f.name_token c hc))
  · decide
  · exact f.value_text c hc

theorem isLine_of_mem_map (fields : List Field) : ∀ x ∈ fields.map Field.bytes, IsLine x := by
  intro x hx
  obtain ⟨f, -, rfl⟩ := List.mem_map.mp hx
  exact f.isLine

theorem StartLine.isLine (l : StartLine) : IsLine l.bytes := by
  cases l with
  | request line =>
    have hversion : ∀ c ∈ ascii " HTTP/1.1", isText c := List.all_eq_true.mp (by decide)
    refine ⟨by simp [StartLine.bytes, line.method_ne], fun c hc => ?_⟩
    simp only [StartLine.bytes, List.mem_append, List.mem_singleton] at hc
    rcases hc with ((hc | rfl) | hc) | hc
    · exact isText_of_isVisible (isVisible_of_isTokenChar (line.method_token c hc))
    · decide
    · exact isText_of_isVisible (line.target_visible c hc)
    · exact hversion c hc
  | status line =>
    have hversion : ∀ c ∈ ascii "HTTP/1.1 ", isText c := List.all_eq_true.mp (by decide)
    refine ⟨by simp [StartLine.bytes], fun c hc => ?_⟩
    simp only [StartLine.bytes, List.mem_append, List.mem_singleton] at hc
    rcases hc with ((hc | hc) | rfl) | hc
    · exact hversion c hc
    · exact isText_of_isVisible (isVisible_of_isDigit (line.code_digit c hc))
    · decide
    · exact line.reason_text c hc

theorem length_crlf : crlf.length = 2 := rfl

theorem length_RL : RL.length = 2 := rfl

theorem length_DOUBLE_RL : DOUBLE_RL.length = 4 := rfl

theorem DOUBLE_RL_eq : DOUBLE_RL = [13, 10, 13, 10] := by decide

theorem lineSection_cons (l : List UInt8) (ls : List (List UInt8)) :
    lineSection (l :: ls) = l ++ (crlf ++ lineSection ls) := by
  simp only [lineSection, List.flatMap_cons, List.append_assoc]

/-- A line end before another line does not begin an empty line. -/
theorem strstr_crlf_append {l r : List UInt8} (hl : IsLine l) :
    strstr DOUBLE_RL (crlf ++ (l ++ r)) = (strstr DOUBLE_RL (l ++ r)).map (2 + ·) := by
  obtain ⟨hne, htext⟩ := hl
  cases l with
  | nil => exact absurd rfl hne
  | cons c cs =>
    have hc := ne_of_isText (htext c List.mem_cons_self)
    -- an empty line here would take `c` for its `\r`
    have hcr : ¬ DOUBLE_RL <+: 13 :: 10 :: c :: (cs ++ r) := by
      rw [DOUBLE_RL_eq]
      simp only [List.cons_prefix_cons, true_and]
      exact fun h => hc.1 h.1.symm
    have hlf : ¬ DOUBLE_RL <+: 10 :: c :: (cs ++ r) := by
      rw [DOUBLE_RL_eq]
      simp only [List.cons_prefix_cons]
      exact fun h => absurd h.1 (by decide)
    change strstr DOUBLE_RL (13 :: 10 :: c :: (cs ++ r)) = _
    rw [strstr_cons_of_not_isPrefix hcr (by decide), strstr_cons_of_not_isPrefix hlf (by decide),
      Option.map_map]
    congr 1
    funext i
    simp only [Function.comp_apply]
    omega

/-- The first empty line is the one that ends the section. -/
theorem strstr_lineSection {l : List UInt8} {ls : List (List UInt8)} (hl : IsLine l)
    (hls : ∀ x ∈ ls, IsLine x) :
    strstr DOUBLE_RL (lineSection (l :: ls)) = some ((lineSection (l :: ls)).length - 4) := by
  -- a line has no `\r`, so an empty line cannot begin in it
  have hskip : ∀ {l r : List UInt8}, IsLine l →
      strstr DOUBLE_RL (l ++ r) = (strstr DOUBLE_RL r).map (l.length + ·) := by
    intro l r hl
    rw [DOUBLE_RL_eq]
    refine strstr_append_of_forall (fun c hc => ?_) r
    have := ne_of_isText (hl.2 c hc)
    exact ⟨this.1, this.2.2⟩
  induction ls generalizing l with
  | nil =>
    have hend : strstr DOUBLE_RL (crlf ++ lineSection []) = some 0 := by decide
    rw [lineSection_cons, hskip hl, hend, Option.map_some, List.length_append]
    rfl
  | cons l' ls ih =>
    have hl' := hls l' List.mem_cons_self
    have htail := ih hl' fun x hx => hls x (List.mem_cons_of_mem _ hx)
    have hlen : 4 ≤ (lineSection (l' :: ls)).length := by
      have := add_length_le_of_strstr (by decide) htail
      rw [length_DOUBLE_RL] at this
      omega
    rw [lineSection_cons, hskip hl]
    rw [lineSection_cons l'] at htail hlen ⊢
    rw [strstr_crlf_append hl', htail]
    simp only [Option.map_some, List.length_append, Option.some.injEq, length_crlf] at hlen ⊢
    omega

theorem zero_notMem_lineSection {ls : List (List UInt8)} (hls : ∀ x ∈ ls, IsLine x) :
    0 ∉ lineSection ls := by
  have hcrlf : (0 : UInt8) ∉ crlf := by decide
  intro h
  rcases List.mem_append.mp h with h | h
  · obtain ⟨l, hl, h⟩ := List.mem_flatMap.mp h
    rcases List.mem_append.mp h with h | h
    · exact (ne_of_isText ((hls l hl).2 0 h)).2.2 rfl
    · exact hcrlf h
  · exact hcrlf h

/-- What `checkCompleted` takes for the head of a message. -/
structure IsHead (head : List UInt8) : Prop where
  empty_line : strstr DOUBLE_RL head = some (head.length - 4)
  zero_notMem : 0 ∉ head

theorem Message.isHead (m : Message) : IsHead m.head := by
  have hfields := isLine_of_mem_map m.fields
  refine ⟨strstr_lineSection m.startLine.isLine hfields, zero_notMem_lineSection ?_⟩
  rw [List.forall_mem_cons]
  exact ⟨m.startLine.isLine, hfields⟩

end Netxy.Http
