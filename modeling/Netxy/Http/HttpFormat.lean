import Mathlib.Data.Bool.AllAny
import Netxy.Http.MessageReader

/-!
# `HttpRequest` and `HttpResponse`

The texts that the two builders of `HttpFormat.h` assemble, and what a reader of the HTTP/1.1
grammar that takes such a text apart again finds in it.
-/

namespace Netxy.HttpFormat
open CString Cut Http

/-- The texts of both classes. -/
abbrev Bytes := List UInt8

/-! ## The builders -/

/-- `mHeadField[field] = value`. The map is unordered: the place of an entry means nothing. -/
def setHeadField (mHeadField : List (Bytes × Bytes)) (field value : Bytes) :
    List (Bytes × Bytes) :=
  (field, value) :: mHeadField.filter fun v => v.1 ≠ field

inductive HTTP_METHOD
  | HTTP_METHOD_HEAD
  | HTTP_METHOD_GET
  | HTTP_METHOD_POST
  | HTTP_METHOD_PUT
  | HTTP_METHOD_DELETE
  | HTTP_METHOD_MAX
deriving DecidableEq, Repr

/-- `HttpRequest`. -/
structure HttpRequest where
  mUrl : Bytes
  mQuery : Bytes
  mBody : Bytes
  mMethod : HTTP_METHOD
  mHeadField : List (Bytes × Bytes)

/-- `HttpResponse`. -/
structure HttpResponse where
  mStatus : ℤ
  mHeadField : List (Bytes × Bytes)
  mBody : Bytes

/-- The lines of the header fields, in the order the map is walked, and the empty line. -/
def headText (order : List (Bytes × Bytes)) : Bytes :=
  (order.flatMap fun v => v.1 ++ ascii ": " ++ v.2 ++ crlf) ++ crlf

namespace HttpRequest

/-- `setMethod`; `none` where its assertion fails. -/
def setMethod (r : HttpRequest) (protocol : HTTP_METHOD) : Option HttpRequest :=
  if protocol ≠ .HTTP_METHOD_HEAD ∧ protocol ≠ .HTTP_METHOD_MAX then
    some { r with mMethod := protocol }
  else none

def addHeadValue (r : HttpRequest) (field value : Bytes) : HttpRequest :=
  { r with mHeadField := setHeadField r.mHeadField field value }

/-- The constructor. -/
def init : HttpRequest := ⟨[], [], [], .HTTP_METHOD_GET, []⟩

def setBody (r : HttpRequest) (body : Bytes) : HttpRequest :=
  { r with mBody := body }.addHeadValue (ascii "Content-Length") (to_string body.length)

/-- The setters of `HttpRequest`. -/
inductive Setter
  | setMethod (protocol : HTTP_METHOD)
  | setUrl (url : Bytes)
  | setQuery (query : Bytes)
  | addHeadValue (field value : Bytes)
  | setBody (body : Bytes)

/-- A setter; `none` where its assertion fails. -/
def set (r : HttpRequest) : Setter → Option HttpRequest
  | .setMethod protocol => r.setMethod protocol
  | .setUrl url => some { r with mUrl := url }
  | .setQuery query => some { r with mQuery := query }
  | .addHeadValue field value => some (r.addHeadValue field value)
  | .setBody body => some (r.setBody body)

end HttpRequest

namespace HttpResponse

/-- `HTTP_RESPONSE_STATUS::OK`. -/
def OK : ℤ := 200

/-- The constructor. -/
def init : HttpResponse := ⟨OK, [], []⟩

def addHeadValue (r : HttpResponse) (field value : Bytes) : HttpResponse :=
  { r with mHeadField := setHeadField r.mHeadField field value }

def setBody (r : HttpResponse) (body : Bytes) : HttpResponse :=
  { r with mBody := body }.addHeadValue (ascii "Content-Length") (to_string body.length)

inductive Setter
  | setStatus (status : ℤ)
  | addHeadValue (field value : Bytes)
  | setBody (body : Bytes)

def set (r : HttpResponse) : Setter → HttpResponse
  | .setStatus status => { r with mStatus := status }
  | .addHeadValue field value => r.addHeadValue field value
  | .setBody body => r.setBody body

end HttpResponse

/-! ## What was read -/

/-- The parts of a response. -/
structure ResponseParts where
  version : Bytes
  code : Bytes
  reason : Bytes
  fields : List (Bytes × Bytes)
  body : Bytes
deriving DecidableEq, Repr

/-- A response as the grammar reads it. -/
def splitResponse (text : Bytes) : Option ResponseParts :=
  (readMessage readStatusLine text).map fun r =>
    { version := ascii "HTTP/1.1"
      code := r.1.code
      reason := r.1.reason
      fields := r.2.1.map Field.pair
      body := r.2.2 }

/-! ## Header fields -/

/-- Proper names and values are the lines of fields. -/
theorem exists_fields {order : List (Bytes × Bytes)} (h : ∀ v ∈ order, ProperField v) :
    ∃ fields : List Field, fields.map Field.pair = order ∧
      lineSection (fields.map Field.bytes) = headText order := by
  induction order with
  | nil => exact ⟨[], rfl, rfl⟩
  | cons v order ih =>
    obtain ⟨fields, hpairs, hlines⟩ := ih fun w hw => h w (List.mem_cons_of_mem v hw)
    have hv := h v List.mem_cons_self
    refine ⟨hv.field :: fields, ?_, ?_⟩
    · rw [List.map_cons, hv.pair_field, hpairs]
    · have hbytes : hv.field.bytes = v.1 ++ ascii ": " ++ v.2 := by
        have hcolon : ascii ": " = [58, 32] := by decide
        rw [hcolon, List.append_assoc]
        exact List.append_assoc _ _ _
      rw [List.map_cons, lineSection_cons, hbytes, hlines]
      simp only [headText, List.flatMap_cons, List.append_assoc]

/-- A status line with proper header fields is read as it is. -/
theorem splitResponse_of_proper (line : StatusLine) {order : List (Bytes × Bytes)}
    (h : ∀ v ∈ order, ProperField v) (body : Bytes) :
    splitResponse ((StartLine.status line).bytes ++ crlf ++ (headText order ++ body)) =
      some ⟨ascii "HTTP/1.1", line.code, line.reason, order, body⟩ := by
  obtain ⟨fields, rfl, hlines⟩ := exists_fields h
  have hread : readMessage readStatusLine
      ((StartLine.status line).bytes ++ crlf ++ (headText (fields.map Field.pair) ++ body)) =
        some (line, fields, body) := by
    rw [readMessage_eq_some fun _ _ => readStatusLine_eq_some, lineSection_cons, ← hlines]
    simp only [List.append_assoc]
  rw [splitResponse, hread]
  rfl

namespace HttpRequest

/-- A URL has no space, no line end and no question mark. -/
def Setter.Ok : Setter → Prop
  | .setUrl url => ∀ c ∈ url, c ≠ 32 ∧ c ≠ 13 ∧ c ≠ 10 ∧ c ≠ 63
  | _ => True

structure Ok (r : HttpRequest) : Prop where
  method : r.mMethod ≠ .HTTP_METHOD_MAX
  url : ∀ c ∈ r.mUrl, c ≠ 32 ∧ c ≠ 13 ∧ c ≠ 10 ∧ c ≠ 63

/-- A setter whose arguments are in order keeps the request in order. -/
theorem Ok.set {r t : HttpRequest} (hr : r.Ok) {c : Setter} (hc : c.Ok) (h : r.set c = some t) :
    t.Ok := by
  cases c with
  | setMethod protocol =>
    obtain ⟨hprotocol, h⟩ := Option.ite_none_right_eq_some.mp h
    cases h
    exact ⟨hprotocol.2, hr.url⟩
  | setUrl url =>
    cases h
    exact ⟨hr.method, hc⟩
  | setQuery query =>
    cases h
    exact ⟨hr.method, hr.url⟩
  | addHeadValue field value =>
    cases h
    exact ⟨hr.method, hr.url⟩
  | setBody body =>
    cases h
    exact ⟨hr.method, hr.url⟩

/-- So do some of them. -/
theorem Ok.foldlM {r t : HttpRequest} (hr : r.Ok) {calls : List Setter}
    (hcalls : ∀ c ∈ calls, c.Ok) (h : calls.foldlM HttpRequest.set r = some t) : t.Ok := by
  induction calls generalizing r with
  | nil =>
    cases h
    exact hr
  | cons c cs ih =>
    rw [List.foldlM_cons] at h
    obtain ⟨u, hu, h⟩ := Option.bind_eq_some_iff.mp h
    exact ih (hr.set (hcalls c List.mem_cons_self) hu)
      (fun x hx => hcalls x (List.mem_cons_of_mem c hx)) h

/-- What stands between the method and the version. -/
def target (r : HttpRequest) : Bytes :=
  r.mUrl ++ if r.mQuery.isEmpty then ascii "?" ++ r.mQuery else []

end HttpRequest

namespace HttpResponse

end HttpResponse

/-! ## The round trip -/

end Netxy.HttpFormat
