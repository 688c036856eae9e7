import LFGateway.Http.Framing
import LFGateway.Http.Written

/-!
This module contains requests that differ in the letter case of their header field names only, and
when the parser reads the same from them.
-/

namespace LFGateway

open Foundation

/--
`std::tolower` in the "C" locale
-/
def tolower (b : UInt8) : UInt8 := if 65 ≤ b ∧ b ≤ 90 then b + 32 else b

def SameName (name name' : Bytes) : Prop := name.map tolower = name'.map tolower

instance (name name' : Bytes) : Decidable (SameName name name') :=
  inferInstanceAs (Decidable (name.map tolower = name'.map tolower))

theorem SameName.trans {a b c : Bytes} (h : SameName a b) (h' : SameName b c) : SameName a c :=
  Eq.trans h h'

theorem SameName.symm {a b : Bytes} (h : SameName a b) : SameName b a := Eq.symm h

namespace Message

variable {m m' : Message} {name : Bytes} {fields fields' : List (Bytes × Bytes)}

def names (m : Message) : List Bytes := m.fields.map Prod.fst

def valueOf (name : Bytes) (fields : List (Bytes × Bytes)) : Option Bytes :=
  (fields.find? fun field => SameName name field.1).map fun field => fieldValue field.2

def AtMostOnce (name : Bytes) (fields : List (Bytes × Bytes)) : Prop :=
  fields.countP (fun field => SameName name field.1) ≤ 1

instance (name : Bytes) (fields : List (Bytes × Bytes)) : Decidable (AtMostOnce name fields) :=
  inferInstanceAs (Decidable (_ ≤ 1))

def authorization : Bytes := Bytes.ofAscii "Authorization"

/--
The length of the body stands in the one `Content-Length` field, which is missing only if there is
no body. There is not more than one `Authorization` field either.
-/
structure WellFormed (m : Message) : Prop where
  length_once : AtMostOnce HttpParser.contentLength m.fields
  authorization_once : AtMostOnce authorization m.fields
  announced : ∀ value, valueOf HttpParser.contentLength m.fields = some value → IsLength value m.body.length
  bodyless : valueOf HttpParser.contentLength m.fields = none → m.body = []

def Refused (m : Message) : Prop :=
  m.method = HttpParser.POST ∧ HttpParser.contentLength ∈ m.names ∧ 2 ^ 31 ≤ m.body.length

def SameFields (fields fields' : List (Bytes × Bytes)) : Prop :=
  List.Forall₂ (fun field field' => SameName field.1 field'.1 ∧ field'.2 = field.2) fields fields'

structure Recased (m m' : Message) : Prop where
  method : m'.method = m.method
  path : m'.path = m.path
  version : m'.version = m.version
  body : m'.body = m.body
  fields : SameFields m.fields m'.fields

theorem sameName_congr (name : Bytes) {a b : Bytes} (h : SameName a b)
    : SameName name a ↔ SameName name b :=
  ⟨fun hname => hname.trans h, fun hname => hname.trans h.symm⟩

theorem valueOf_eq_of_sameFields (h : SameFields fields fields')
    : valueOf name fields' = valueOf name fields := by
  unfold valueOf
  induction h with
  | nil => rfl
  | @cons field field' fields fields' hfield _ ih =>
    have hsame := sameName_congr name hfield.1
    rw [List.find?_cons, List.find?_cons]
    by_cases hname : SameName name field.1
    . simp only [hname, hsame.mp hname, decide_true, Option.map_some, hfield.2]
    . simp only [hname, mt hsame.mpr hname, decide_false]
      exact ih

theorem countP_eq_of_sameFields (h : SameFields fields fields')
    : fields'.countP (fun field => SameName name field.1)
        =
      fields.countP (fun field => SameName name field.1) := by
  induction h with
  | nil => rfl
  | @cons field field' fields fields' hfield _ ih =>
    have hsame := sameName_congr name hfield.1
    simp only [List.countP_cons, ih, decide_eq_true_eq, hsame]

theorem AtMostOnce.of_sameFields (h : AtMostOnce name fields) (hsame : SameFields fields fields')
    : AtMostOnce name fields' := by
  unfold AtMostOnce at h ⊢
  rwa [countP_eq_of_sameFields hsame]

theorem WellFormed.of_recased (hm : m.WellFormed) (h : m.Recased m') : m'.WellFormed := by
  constructor
  . exact hm.length_once.of_sameFields h.fields
  . exact hm.authorization_once.of_sameFields h.fields
  . rw [valueOf_eq_of_sameFields h.fields, h.body]
    exact hm.announced
  . rw [valueOf_eq_of_sameFields h.fields, h.body]
    exact hm.bodyless

theorem headersOf_eq (headers : Bytes → Option Bytes) (h : AtMostOnce name fields)
    : headersOf headers fields name
        =
      if name ∈ fields.map Prod.fst then valueOf name fields else headers name := by
  unfold AtMostOnce at h
  induction fields generalizing headers with
  | nil => rfl
  | cons field fields ih =>
    rw [List.countP_cons] at h
    change headersOf (Function.update headers field.1 (some (fieldValue field.2))) fields name = _
    by_cases hsame : SameName name field.1
    . have hnone : name ∉ fields.map Prod.fst := by
        simp only [hsame, decide_true, ↓reduceIte] at h
        have hzero := List.countP_eq_zero.mp (by omega : fields.countP (fun f => SameName name f.1) = 0)
        intro hmem
        obtain ⟨f, hf, rfl⟩ := List.mem_map.mp hmem
        exact hzero f hf (decide_eq_true rfl)
      rw [headersOf_of_notMem _ hnone]
      by_cases heq : name = field.1
      . simp [heq, valueOf, SameName]
      . simp [heq, hnone]
    . have heq : name ≠ field.1 := by
        rintro rfl
        exact hsame rfl
      have hvalue : valueOf name (field :: fields) = valueOf name fields := by
        unfold valueOf
        rw [List.find?_cons_of_neg (by simpa using hsame)]
      rw [ih _ (by omega), hvalue, Function.update_of_ne heq]
      simp only [List.map_cons, List.mem_cons, heq, false_or]

theorem WellFormed.header_contentLength (hm : m.WellFormed)
    : m.headers HttpParser.contentLength
        =
      if HttpParser.contentLength ∈ m.names then valueOf HttpParser.contentLength m.fields else none :=
  headersOf_eq _ hm.length_once

theorem WellFormed.header_authorization (hm : m.WellFormed)
    : m.headers authorization = if authorization ∈ m.names then valueOf authorization m.fields else none :=
  headersOf_eq _ hm.authorization_once

end Message

namespace HttpParser

open Message

variable {m m' : Message}

theorem finish_message (m : Message) (rest : Bytes)
    : parse new (m.text ++ rest) HttpRequest.new
        =
      finish ⟨⟨if m.method = POST then .body else .done, m.body ++ rest⟩,
        ⟨m.method, m.path, m.version, m.headers, []⟩⟩ := by
  have htext : m.text ++ rest
      = m.method ++ 32 :: (m.path ++ 32 :: (m.version ++ (crlf ++
          (m.fields.flatMap (fun field => fieldLine field ++ crlf) ++ (crlf ++ (m.body ++ rest)))))) := by
    simp [text]
  rw [parse_new, htext, finish_of_requestLine m.method_clean.1 m.path_clean.1
    (isLine_of_notMem m.version_clean), finish_fields m.fields_clean, finish_blank]
  rfl

/--
Method, path and body, the bytes left over and what `parse` returned or threw are the same.
-/
structure ReadAlike (raw raw' : Bytes) : Prop where
  result : (parse new raw HttpRequest.new).result = (parse new raw' HttpRequest.new).result
  method : (parse new raw HttpRequest.new).req.method = (parse new raw' HttpRequest.new).req.method
  path : (parse new raw HttpRequest.new).req.path = (parse new raw' HttpRequest.new).req.path
  body : (parse new raw HttpRequest.new).req.body = (parse new raw' HttpRequest.new).req.body
  left : (parse new raw HttpRequest.new).parser.buffer_ = (parse new raw' HttpRequest.new).parser.buffer_

theorem parse_of_not_read (rest : Bytes)
    (h : m.method = POST → m.headers contentLength = none)
    : parse new (m.text ++ rest) HttpRequest.new
        =
      ⟨.ok true, ⟨.done, m.body ++ rest⟩, ⟨m.method, m.path, m.version, m.headers, []⟩⟩ := by
  rw [finish_message]
  split
  . next hpost => exact finish_without_length (h hpost)
  . exact finish_done _ _

theorem parse_of_read {value : Bytes} (rest : Bytes) (hpost : m.method = POST)
    (hvalue : m.headers contentLength = some value) (hlength : IsLength value m.body.length)
    (hshort : m.body.length < 2 ^ 31)
    : parse new (m.text ++ rest) HttpRequest.new
        =
      ⟨.ok true, ⟨.done, rest⟩, ⟨m.method, m.path, m.version, m.headers, m.body⟩⟩ := by
  rw [finish_message, if_pos hpost,
    finish_body_of_stoi hvalue (stoi_of_isLength hlength hshort) hshort rfl]

theorem parse_of_refused {value : Bytes} (rest : Bytes) (hpost : m.method = POST)
    (hvalue : m.headers contentLength = some value) (hlength : IsLength value m.body.length)
    (hlong : 2 ^ 31 ≤ m.body.length)
    : parse new (m.text ++ rest) HttpRequest.new
        =
      ⟨.error .out_of_range, ⟨.body, m.body ++ rest⟩, ⟨m.method, m.path, m.version, m.headers, []⟩⟩ := by
  have hstoi : stoi value = .error .out_of_range := by
    rw [stoi_eq_of_isLength hlength, if_neg (not_lt.mpr hlong)]
  rw [finish_message, if_pos hpost, finish_of_done]
  simp only [iteration, hvalue, hstoi]

/--
The body is read in both of two requests or in none, unless there is nothing to read.
-/
def LengthAlike (m m' : Message) : Prop :=
  m.method = POST → m.body ≠ [] → (contentLength ∈ m.names ↔ contentLength ∈ m'.names)

theorem exists_length (hm : m.WellFormed) (hbody : m.body ≠ [])
    : ∃ value, valueOf contentLength m.fields = some value ∧ IsLength value m.body.length := by
  cases hvalue : valueOf contentLength m.fields with
  | none => exact absurd (hm.bodyless hvalue) hbody
  | some value => exact ⟨value, rfl, hm.announced value hvalue⟩

theorem parse_of_bodyless (hm : m.WellFormed) (rest : Bytes) (h : m.method = POST → m.body = [])
    : parse new (m.text ++ rest) HttpRequest.new
        =
      ⟨.ok true, ⟨.done, m.body ++ rest⟩, ⟨m.method, m.path, m.version, m.headers, []⟩⟩ := by
  by_cases hpost : m.method = POST
  . cases hvalue : m.headers contentLength with
    | none => exact parse_of_not_read rest fun _ => hvalue
    | some value =>
      have hlength : IsLength value m.body.length := by
        rw [hm.header_contentLength] at hvalue
        split at hvalue
        . exact hm.announced value hvalue
        . contradiction
      have hnil := h hpost
      rw [parse_of_read rest hpost hvalue hlength (by simp [hnil]), hnil]
      rfl
  . exact parse_of_not_read rest fun h => absurd h hpost

theorem skipped_iff (hm : m.WellFormed) (rest : Bytes) (hpost : m.method = POST) (hbody : m.body ≠ [])
    : (parse new (m.text ++ rest) HttpRequest.new).result = .ok true ∧
        (parse new (m.text ++ rest) HttpRequest.new).req.body = []
        ↔
      contentLength ∉ m.names := by
  obtain ⟨value, hvalue, hlength⟩ := exists_length hm hbody
  have hheader := hm.header_contentLength
  constructor
  . rintro ⟨hresult, hskipped⟩ hspelt
    rw [if_pos hspelt, hvalue] at hheader
    by_cases hshort : m.body.length < 2 ^ 31
    . rw [parse_of_read rest hpost hheader hlength hshort] at hskipped
      exact hbody hskipped
    . rw [parse_of_refused rest hpost hheader hlength (not_lt.mp hshort)] at hresult
      contradiction
  . intro hspelt
    rw [if_neg hspelt] at hheader
    rw [parse_of_not_read rest fun _ => hheader]
    exact ⟨rfl, rfl⟩

theorem lengthAlike_of_readAlike {rest : Bytes} (hm : m.WellFormed) (h : m.Recased m')
    (halike : ReadAlike (m.text ++ rest) (m'.text ++ rest)) : LengthAlike m m' := by
  intro hpost hbody
  have hskipped := skipped_iff hm rest hpost hbody
  have hskipped' := skipped_iff (hm.of_recased h) rest (h.method.trans hpost) (ne_of_eq_of_ne h.body hbody)
  rw [halike.result, halike.body] at hskipped
  exact not_iff_not.mp (hskipped.symm.trans hskipped')

theorem readAlike_of_lengthAlike (hm : m.WellFormed) (h : m.Recased m') (halike : LengthAlike m m')
    (rest : Bytes) : ReadAlike (m.text ++ rest) (m'.text ++ rest) := by
  have hm' := hm.of_recased h
  by_cases hread : m.method = POST ∧ m.body ≠ []
  . obtain ⟨hpost, hbody⟩ := hread
    have hpost' := h.method.trans hpost
    obtain ⟨value, hvalue, hlength⟩ := exists_length hm hbody
    have hheader := hm.header_contentLength
    have hheader' := hm'.header_contentLength
    rw [valueOf_eq_of_sameFields h.fields] at hheader'
    simp only [← halike hpost hbody] at hheader'
    by_cases hspelt : contentLength ∈ m.names
    . rw [if_pos hspelt, hvalue] at hheader hheader'
      have hlength' : IsLength value m'.body.length := by rwa [h.body]
      by_cases hshort : m.body.length < 2 ^ 31
      . constructor <;>
        simp only [parse_of_read rest hpost hheader hlength hshort,
          parse_of_read rest hpost' hheader' hlength' (by rwa [h.body]), h.method, h.path, h.body]
      . constructor <;>
        simp only [parse_of_refused rest hpost hheader hlength (not_lt.mp hshort),
          parse_of_refused rest hpost' hheader' hlength' (by rwa [h.body, ← not_lt]), h.method, h.path,
          h.body]
    . rw [if_neg hspelt] at hheader hheader'
      constructor <;>
      simp only [parse_of_not_read rest fun _ => hheader, parse_of_not_read rest fun _ => hheader',
        h.method, h.path, h.body]
  . rw [not_and, not_not] at hread
    have hread' : m'.method = POST → m'.body = [] := by rwa [h.method, h.body]
    constructor <;>
    simp only [parse_of_bodyless hm rest hread, parse_of_bodyless hm' rest hread', h.method, h.path,
      h.body]

theorem parse_message (hm : m.WellFormed) (rest : Bytes)
    : (parse new (m.text ++ rest) HttpRequest.new).req.headers = m.headers ∧
        ((parse new (m.text ++ rest) HttpRequest.new).result = .ok true ↔ ¬m.Refused) := by
  have hheader := hm.header_contentLength
  unfold Refused
  by_cases hspelt : m.method = POST ∧ contentLength ∈ m.names
  . obtain ⟨hpost, hspelt⟩ := hspelt
    have hsome := @headersOf_ne_none (fun _ => none) _ _ hspelt
    obtain ⟨value, hvalue⟩ := Option.ne_none_iff_exists'.mp hsome
    have hlength : IsLength value m.body.length := by
      apply hm.announced
      rw [← hvalue]
      exact (hheader.trans (if_pos hspelt)).symm
    by_cases hshort : m.body.length < 2 ^ 31
    . rw [parse_of_read rest hpost hvalue hlength hshort]
      exact ⟨rfl, iff_of_true rfl fun h => not_lt.mpr h.2.2 hshort⟩
    . have hlong := not_lt.mp hshort
      rw [parse_of_refused rest hpost hvalue hlength hlong]
      exact ⟨rfl, iff_of_false (by simp) fun h => h ⟨hpost, hspelt, hlong⟩⟩
  . have hnone : m.method = POST → m.headers contentLength = none := by
      intro hpost
      rw [hheader, if_neg (fun hmem => hspelt ⟨hpost, hmem⟩)]
    rw [parse_of_not_read rest hnone]
    exact ⟨rfl, iff_of_true rfl fun h => hspelt ⟨h.1, h.2.1⟩⟩

end HttpParser
end LFGateway
