import LFGateway.Http.Message

/-!
This module contains the request texts at which `HttpParser::parse` throws: the ones whose length is
asked for and cannot be read.
-/

namespace LFGateway

open Foundation

namespace HttpParser

variable {b rest value : Bytes} {req req' : HttpRequest} {lines : List Bytes} {e : StdException}

def headerText (lines : List Bytes) : Bytes := lines.flatMap fun line => line ++ crlf

def headerOf (lines : List Bytes) (name : Bytes) : Option Bytes :=
  (lines.foldl addHeader HttpRequest.new).headers name

/--
A `POST` request, up to the end of its header at least, with a `Content-Length` that is not a number
which fits an `int`.
-/
def BadLength (raw : Bytes) : Prop :=
  ∃ path version lines value rest,
    raw = POST ++ 32 :: (path ++ 32 :: (version ++ (crlf ++ (headerText lines ++ (crlf ++ rest))))) ∧
      32 ∉ path ∧ IsLine version ∧ (∀ line ∈ lines, line ≠ [] ∧ IsLine line) ∧
      headerOf lines contentLength = some value ∧ ∀ n, stoi value ≠ .ok n

theorem headers_addHeader (h : req.headers = req'.headers) (line : Bytes)
    : (addHeader req line).headers = (addHeader req' line).headers := by
  unfold addHeader
  split
  . exact h
  . rw [h]

theorem headers_foldl (h : req.headers = req'.headers) (lines : List Bytes)
    : (lines.foldl addHeader req).headers = (lines.foldl addHeader req').headers := by
  induction lines generalizing req req' with
  | nil => exact h
  | cons line lines ih => exact ih (headers_addHeader h line)

theorem headerOf_eq (h : req.headers = HttpRequest.new.headers) (lines : List Bytes) (name : Bytes)
    : headerOf lines name = (lines.foldl addHeader req).headers name :=
  congrFun (headers_foldl h.symm lines) name

theorem method_foldl (req : HttpRequest) (lines : List Bytes)
    : (lines.foldl addHeader req).method = req.method := by
  induction lines generalizing req with
  | nil => rfl
  | cons line lines ih =>
    rw [List.foldl_cons, ih]
    exact (addHeader_line req line).1

theorem take_two_line {line : Bytes} (hne : line ≠ []) (hline : IsLine line) (t : Bytes)
    : (line ++ (crlf ++ t)).take 2 ≠ crlf := by
  intro htake
  have hzero : Bytes.find (line ++ (crlf ++ t)) crlf = some 0 := by
    apply Bytes.find_of_prefix
    have hprefix := List.take_prefix 2 (line ++ (crlf ++ t))
    rwa [htake] at hprefix
  rw [hline.find, Option.some.injEq] at hzero
  exact hne (List.eq_nil_of_length_eq_zero hzero)

theorem finish_lines (h : ∀ line ∈ lines, line ≠ [] ∧ IsLine line)
    : finish ⟨⟨.header, headerText lines ++ b⟩, req⟩
        =
      finish ⟨⟨.header, b⟩, lines.foldl addHeader req⟩ := by
  induction lines generalizing req with
  | nil => rfl
  | cons line lines ih =>
    rw [List.forall_mem_cons] at h
    obtain ⟨⟨hne, hline⟩, hrest⟩ := h
    rw [headerText, List.flatMap_cons, List.append_assoc, List.append_assoc, ← headerText]
    have hblank := take_two_line hne hline (headerText lines ++ b)
    have hfind := hline.find (headerText lines ++ b)
    obtain ⟨htake, hdrop⟩ := take_append_crlf line (headerText lines ++ b)
    rw [finish_of_next (q := ⟨⟨.header, _⟩, addHeader req line⟩)
      (by simp only [iteration, hblank, hfind, htake, hdrop, ↓reduceIte]; rfl)]
    exact ih hrest

theorem throws_body_iff
    : (finish ⟨⟨.body, b⟩, req⟩).result = .error e
        ↔
      ∃ value, req.headers contentLength = some value ∧ stoi value = .error e := by
  cases hvalue : req.headers contentLength with
  | none => simp [finish_without_length hvalue]
  | some value =>
    cases hlength : stoi value with
    | error e' =>
      rw [finish_bad_length hvalue hlength]
      simp [hlength]
    | ok n =>
      have hresult : ∃ done, (finish ⟨⟨.body, b⟩, req⟩).result = .ok done := by
        by_cases hshort : b.length < sizeT n
        . rw [finish_short hvalue hlength hshort]
          exact ⟨false, rfl⟩
        . rw [finish_with_length hvalue hlength hshort]
          exact ⟨true, rfl⟩
      obtain ⟨done, hdone⟩ := hresult
      rw [hdone]
      simp [hlength]

theorem exists_lines {p : Progress} (hstate : p.parser.state_ = .header)
    (h : (finish p).PastHeader)
    : ∃ lines rest, p.parser.buffer_ = headerText lines ++ (crlf ++ rest) ∧
        (∀ line ∈ lines, line ≠ [] ∧ IsLine line) ∧
        finish p
          = finish ⟨⟨if p.req.method = POST then .body else .done, rest⟩, lines.foldl addHeader p.req⟩ := by
  revert hstate h
  apply finish_induction (P := fun p o => p.parser.state_ = .header → o.PastHeader →
    ∃ lines rest, p.parser.buffer_ = headerText lines ++ (crlf ++ rest) ∧
      (∀ line ∈ lines, line ≠ [] ∧ IsLine line) ∧
      o = finish ⟨⟨if p.req.method = POST then .body else .done, rest⟩, lines.foldl addHeader p.req⟩)
  . intro p o hdone hstate h
    obtain ⟨⟨state_, b⟩, req⟩ := p
    dsimp only at hstate
    subst hstate
    simp only [iteration] at hdone
    split at hdone
    . contradiction
    . split at hdone
      . rw [Iter.done.injEq] at hdone
        rw [← hdone] at h
        cases h rfl
      . contradiction
  . intro p p' hnext ih hstate h
    obtain ⟨⟨state_, b⟩, req⟩ := p
    dsimp only at hstate ⊢
    subst hstate
    simp only [iteration] at hnext
    split at hnext
    . next hblank =>
      rw [Iter.next.injEq] at hnext
      subst hnext
      have hrest : b = crlf ++ b.drop 2 := by rw [← hblank, List.take_append_drop]
      exact ⟨[], b.drop 2, hrest, by simp, rfl⟩
    . next hblank =>
      split at hnext
      . contradiction
      . next pos hpos =>
        rw [Iter.next.injEq] at hnext
        subst hnext
        obtain ⟨lines, rest, hb, hlines, heq⟩ := ih rfl h
        have hb' : b = b.take pos ++ (crlf ++ b.drop (pos + 2)) := Bytes.eq_take_append_of_find hpos
        refine ⟨b.take pos :: lines, rest, ?_, ?_, ?_⟩
        . dsimp only at hb
          conv => lhs; rw [hb', hb]
          simp [headerText]
        . rw [List.forall_mem_cons]
          refine ⟨⟨?_, isLine_of_find hpos⟩, hlines⟩
          intro hnil
          rw [hnil, List.nil_append] at hb'
          apply hblank
          rw [hb']
          rfl
        . rw [heq, (addHeader_line req (b.take pos)).1]
          rfl

theorem exists_lines_of_throws {p : Progress} (hstate : p.parser.state_ = .header)
    (h : (finish p).result = .error e)
    : ∃ lines value rest, p.parser.buffer_ = headerText lines ++ (crlf ++ rest) ∧
        (∀ line ∈ lines, line ≠ [] ∧ IsLine line) ∧ p.req.method = POST ∧
        (lines.foldl addHeader p.req).headers contentLength = some value ∧ stoi value = .error e := by
  obtain ⟨lines, rest, hb, hlines, heq⟩ := exists_lines hstate (.of_ne (by simp [h]))
  rw [heq] at h
  split at h
  . next hpost =>
    obtain ⟨value, hvalue, herror⟩ := throws_body_iff.mp h
    exact ⟨lines, value, rest, hb, hlines, hpost, hvalue, herror⟩
  . rw [finish_done] at h
    contradiction

theorem throws_iff (raw : Bytes)
    : (∃ e, (parse new raw HttpRequest.new).result = .error e) ↔ BadLength raw := by
  rw [parse_new]
  constructor
  . rintro ⟨e, h⟩
    obtain ⟨method, path, version, rest, hraw, _, hpath, hversion, heq⟩ :=
      finish_requestLine (.of_ne (ne_of_eq_of_ne h (by simp)))
    rw [heq] at h
    obtain ⟨lines, value, rest, rfl, hlines, rfl, hvalue, herror⟩ := exists_lines_of_throws rfl h
    refine ⟨path, version, lines, value, rest, hraw, hpath, hversion, hlines, ?_, ?_⟩
    . rw [← hvalue]
      apply headerOf_eq
      rfl
    . simp [herror]
  . rintro ⟨path, version, lines, value, rest, rfl, hpath, hversion, hlines, hvalue, hbad⟩
    obtain ⟨e, herror⟩ : ∃ e, stoi value = .error e := by
      cases hstoi : stoi value with
      | error e => exact ⟨e, rfl⟩
      | ok n => exact absurd hstoi (hbad n)
    refine ⟨e, ?_⟩
    rw [finish_of_requestLine (by decide) hpath hversion, finish_lines hlines, finish_blank]
    rw [method_foldl, if_pos rfl]
    refine throws_body_iff.mpr ⟨value, ?_, herror⟩
    rw [← hvalue, headerOf_eq]
    rfl

end HttpParser
end LFGateway
