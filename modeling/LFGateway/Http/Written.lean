import Mathlib.Data.List.Nodup
import LFGateway.Http.Errors

/-!
This module contains requests that are written with one space behind the colon of every header, and
that `parse` reads back what was written, whatever bytes follow.
-/

namespace LFGateway

open Foundation

section Break

variable {b c : UInt8} {s t : Bytes}

theorem crlf_prefix_cons (hc : c ≠ 10) (h : crlf <+: b :: (s ++ c :: t)) : crlf <+: b :: s := by
  rw [crlf, List.cons_prefix_cons] at h ⊢
  refine ⟨h.1, ?_⟩
  cases s with
  | nil =>
    rw [List.nil_append, List.cons_prefix_cons] at h
    exact absurd h.2.1.symm hc
  | cons b' s =>
    rw [List.cons_append, List.cons_prefix_cons] at h
    rw [List.cons_prefix_cons]
    exact ⟨h.2.1, List.nil_prefix⟩

theorem not_crlf_infix_append_cons (hs : ¬crlf <:+: s) (ht : ¬crlf <:+: t) (hcr : c ≠ 13) (hlf : c ≠ 10)
    : ¬crlf <:+: s ++ c :: t := by
  induction s with
  | nil =>
    rw [List.nil_append, List.infix_cons_iff, not_or]
    refine ⟨fun hprefix => ?_, ht⟩
    rw [crlf, List.cons_prefix_cons] at hprefix
    exact hcr hprefix.1.symm
  | cons b s ih =>
    rw [List.infix_cons_iff, not_or] at hs
    rw [List.cons_append, List.infix_cons_iff, not_or]
    exact ⟨fun hprefix => hs.1 (crlf_prefix_cons hlf hprefix), ih hs.2⟩

theorem isLine_of_no_crlf (h : ¬crlf <:+: s) : HttpParser.IsLine s := by
  unfold HttpParser.IsLine
  induction s with
  | nil => decide
  | cons b s ih =>
    rw [List.infix_cons_iff, not_or] at h
    rw [List.cons_append, Bytes.find_cons_of_not_prefix, ih h.2]
    . rfl
    . exact fun hprefix => h.1 (crlf_prefix_cons (c := 13) (t := [10]) (by decide) hprefix)

end Break

/--
A request with its headers in the order in which they are written.
-/
structure WrittenRequest where
  method : Bytes
  path : Bytes
  version : Bytes
  headers : List (Bytes × Bytes)
  body : Bytes
  method_plain : 32 ∉ method
  path_plain : 32 ∉ path
  version_plain : ¬crlf <:+: version
  keys_nodup : (headers.map Prod.fst).Nodup
  keys_plain : ∀ header ∈ headers, 58 ∉ header.1 ∧ ¬crlf <:+: header.1
  values_plain : ∀ header ∈ headers, ¬crlf <:+: header.2

namespace WrittenRequest

def headerLine (header : Bytes × Bytes) : Bytes := header.1 ++ 58 :: 32 :: header.2

def text (r : WrittenRequest) : Bytes :=
  r.method ++ 32 :: (r.path ++ 32 :: (r.version ++ (crlf ++
    (r.headers.flatMap (fun header => headerLine header ++ crlf) ++ (crlf ++ r.body)))))

def request (r : WrittenRequest) : HttpRequest :=
  ⟨r.method, r.path, r.version, fun key => r.headers.lookup key, r.body⟩

theorem request_of_nil {r : WrittenRequest} (h : r.body = []) : { r.request with body := [] } = r.request := by
  unfold request
  rw [h]

/--
A body is only there where its length is.
-/
def Announced (r : WrittenRequest) : Prop :=
  r.body = [] ∨
    r.method = HttpParser.POST ∧
      r.headers.lookup HttpParser.contentLength = some (Bytes.ofNat r.body.length) ∧
      r.body.length ≤ 2 ^ 31 - 1

/--
An empty body is not contradicted by a length.
-/
def EmptyIsZero (r : WrittenRequest) : Prop :=
  r.method = HttpParser.POST → r.body = [] →
    ∀ value, r.headers.lookup HttpParser.contentLength = some value → stoi value = .ok 0

end WrittenRequest

theorem stoi_range {value : Bytes} {n : Int} (h : stoi value = .ok n) : -(2 ^ 31) ≤ n ∧ n < 2 ^ 31 := by
  unfold stoi at h
  dsimp only at h
  split at h
  . contradiction
  . split at h
    all_goals
      split at h
      . next hrange =>
        injection h with h
        rwa [h] at hrange
      . contradiction

namespace HttpParser

variable {b : Bytes} {req : HttpRequest}

open WrittenRequest

theorem isLine_headerLine {header : Bytes × Bytes} (hkey : ¬crlf <:+: header.1)
    (hvalue : ¬crlf <:+: header.2) : headerLine header ≠ [] ∧ IsLine (headerLine header) := by
  refine ⟨by simp [headerLine], isLine_of_no_crlf ?_⟩
  apply not_crlf_infix_append_cons hkey _ (by decide) (by decide)
  exact not_crlf_infix_append_cons (s := []) (by decide) hvalue (by decide) (by decide)

theorem addHeader_headerLine {header : Bytes × Bytes} (h : 58 ∉ header.1)
    : addHeader req (headerLine header)
        =
      { req with headers := Function.update req.headers header.1 (some header.2) } := by
  have hfield : 58 ∉ (header.1, 32 :: header.2).1 := h
  exact addHeader_fieldLine hfield

theorem foldl_headerLine {headers : List (Bytes × Bytes)} (h : ∀ header ∈ headers, 58 ∉ header.1)
    (hnodup : (headers.map Prod.fst).Nodup)
    : (headers.map headerLine).foldl addHeader req
        =
      { req with headers := fun key => (headers.lookup key).or (req.headers key) } := by
  induction headers generalizing req with
  | nil => rfl
  | cons header headers ih =>
    obtain ⟨key, value⟩ := header
    rw [List.forall_mem_cons] at h
    rw [List.map_cons, List.nodup_cons] at hnodup
    rw [List.map_cons, List.foldl_cons, addHeader_headerLine h.1, ih h.2 hnodup.2]
    congr 1
    funext key'
    by_cases heq : key' = key
    . subst heq
      have hnone : headers.lookup key' = none := by
        rw [List.lookup_eq_none_iff]
        intro header hmem
        rw [bne_iff_ne]
        intro heq
        exact hnodup.1 (List.mem_map.mpr ⟨header, hmem, heq.symm⟩)
      simp [hnone]
    . have hne : (key' == key) = false := beq_eq_false_iff_ne.mpr heq
      simp [List.lookup_cons, hne, heq]

theorem finish_text (r : WrittenRequest) (rest : Bytes)
    : parse new (r.text ++ rest) HttpRequest.new
        =
      finish ⟨⟨if r.method = POST then .body else .done, r.body ++ rest⟩,
        { r.request with body := [] }⟩ := by
  have htext : r.text ++ rest
      = r.method ++ 32 :: (r.path ++ 32 :: (r.version ++ (crlf ++
          (headerText (r.headers.map headerLine) ++ (crlf ++ (r.body ++ rest)))))) := by
    simp [text, headerText, List.flatMap_map]
  have hlines : ∀ line ∈ r.headers.map headerLine, line ≠ [] ∧ IsLine line := by
    rw [List.forall_mem_map]
    intro header hmem
    exact isLine_headerLine (r.keys_plain header hmem).2 (r.values_plain header hmem)
  rw [parse_new, htext, finish_of_requestLine r.method_plain r.path_plain
    (isLine_of_no_crlf r.version_plain), finish_lines hlines, finish_blank, method_foldl,
    foldl_headerLine (fun header hmem => (r.keys_plain header hmem).1) r.keys_nodup]
  simp [request, HttpRequest.new]

theorem finish_body_of_stoi {value : Bytes} {n : Nat} {rest : Bytes}
    (hvalue : req.headers contentLength = some value) (hstoi : stoi value = .ok n) (hn : n < 2 ^ 31)
    (hb : b.length = n)
    : finish ⟨⟨.body, b ++ rest⟩, req⟩ = ⟨.ok true, ⟨.done, rest⟩, { req with body := b }⟩ := by
  have hsize := sizeT_of_lt hn
  have henough : ¬(b ++ rest).length < n := by
    rw [List.length_append]
    omega
  rw [finish_of_next (q := ⟨⟨.done, rest⟩, { req with body := b }⟩)]
  . exact finish_done _ _
  . simp only [iteration, hvalue, hstoi, hsize, henough, ↓reduceIte]
    rw [← hb, List.drop_left, List.take_left]

theorem stoi_of_accepted_nil {value : Bytes} (hvalue : req.headers contentLength = some value)
    (h : (finish ⟨⟨.body, []⟩, req⟩).result = .ok true) : stoi value = .ok 0 := by
  cases hstoi : stoi value with
  | error e =>
    rw [throws_body_iff.mpr ⟨value, hvalue, hstoi⟩] at h
    contradiction
  | ok n =>
    by_cases hshort : ([] : Bytes).length < sizeT n
    . rw [finish_of_done (o := ⟨.ok false, ⟨.body, []⟩, req⟩)
        (by simp only [iteration, hvalue, hstoi, hshort, ↓reduceIte])] at h
      simp at h
    . obtain ⟨hlow, hhigh⟩ := stoi_range hstoi
      rw [List.length_nil, sizeT] at hshort
      have hzero : n = 0 := by omega
      rw [hzero]

theorem finish_text_of_emptyIsZero {r : WrittenRequest} (h : r.Announced) (hzero : r.EmptyIsZero)
    (rest : Bytes) : parse new (r.text ++ rest) HttpRequest.new = ⟨.ok true, ⟨.done, rest⟩, r.request⟩ := by
  rw [finish_text]
  by_cases hpost : r.method = POST
  . rw [if_pos hpost]
    cases hvalue : r.headers.lookup contentLength with
    | none =>
      have hbody : r.body = [] := by
        cases h with
        | inl hbody => exact hbody
        | inr hlength =>
          rw [hvalue] at hlength
          exact absurd hlength.2.1 (by simp)
      rw [finish_without_length hvalue, hbody, List.nil_append, request_of_nil hbody]
    | some value =>
      have hstoi : stoi value = .ok r.body.length ∧ r.body.length < 2 ^ 31 := by
        cases h with
        | inl hbody =>
          rw [hzero hpost hbody value hvalue, hbody]
          exact ⟨rfl, by decide⟩
        | inr hlength =>
          obtain ⟨_, hlookup, hle⟩ := hlength
          rw [hvalue, Option.some.injEq] at hlookup
          rw [hlookup]
          have hbound : r.body.length < 2 ^ 31 := by omega
          exact ⟨stoi_ofInt (n := r.body.length) (by omega) (by omega), hbound⟩
      rw [finish_body_of_stoi hvalue hstoi.1 hstoi.2 rfl]
      rfl
  . have hbody : r.body = [] := h.resolve_right fun hlength => hpost hlength.1
    rw [if_neg hpost, finish_done, hbody, List.nil_append, request_of_nil hbody]

/--
A request is read back from its text, with what follows it left in the buffer, exactly if a `POST`
without a body has no `Content-Length` other than zero.
-/
theorem parse_text_iff (r : WrittenRequest) (h : r.Announced)
    : (∀ rest, parse new (r.text ++ rest) HttpRequest.new = ⟨.ok true, ⟨.done, rest⟩, r.request⟩)
        ↔
      r.EmptyIsZero := by
  constructor
  . intro hparse hpost hbody value hvalue
    have hnil := congrArg Outcome.result (hparse [])
    rw [finish_text, if_pos hpost, hbody, List.append_nil] at hnil
    exact stoi_of_accepted_nil hvalue hnil
  . intro hzero rest
    exact finish_text_of_emptyIsZero h hzero rest

end HttpParser

namespace WrittenRequest

def login : WrittenRequest where
  method := HttpParser.POST
  path := Bytes.ofAscii "/login"
  version := Bytes.ofAscii "HTTP/1.1"
  headers := [(Bytes.ofAscii "Host", Bytes.ofAscii "a:80"), (HttpParser.contentLength, Bytes.ofAscii "2")]
  body := Bytes.ofAscii "hi"
  method_plain := by decide
  path_plain := by decide
  version_plain := by decide
  keys_nodup := by decide
  keys_plain := by decide
  values_plain := by decide

def promised : WrittenRequest :=
  { login with headers := [(HttpParser.contentLength, Bytes.ofAscii "2")], body := [],
               keys_nodup := by decide, keys_plain := by decide, values_plain := by decide }

end WrittenRequest

namespace HttpParser

open WrittenRequest

theorem parse_text_iff_login
    : parse new (login.text ++ Bytes.ofAscii "GET") HttpRequest.new
        =
      ⟨.ok true, ⟨.done, Bytes.ofAscii "GET"⟩, login.request⟩ :=
  (parse_text_iff login (.inr (by decide))).mpr (by intro _ hbody; contradiction) (Bytes.ofAscii "GET")

/--
The next request is taken for the body.
-/
theorem not_parse_text_promised
    : promised.Announced ∧
        parse new (promised.text ++ Bytes.ofAscii "GET") HttpRequest.new
          ≠
        ⟨.ok true, ⟨.done, Bytes.ofAscii "GET"⟩, promised.request⟩ := by
  refine ⟨.inl rfl, fun heq => ?_⟩
  have hbuffer := congrArg (fun o => o.parser.buffer_) heq
  revert hbuffer
  decide

end HttpParser

end LFGateway
