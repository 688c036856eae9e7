import LFGateway.Http.Errors
import LFGateway.Http.Incremental

/-!
This module contains the texts that the parser accepts, and those that no more bytes make a request of:
the length of their body cannot be read or is negative.
-/

namespace LFGateway

open Foundation

namespace HttpParser

variable {raw b rest : Bytes} {req : HttpRequest} {lines : List Bytes}

/--
How what stands behind a header is cut into a body and the rest: only a `POST` with a `Content-Length`
has a body.
-/
inductive Content (method : Bytes) (length : Option Bytes) : Bytes → Bytes → Bytes → Prop where
  | noBody (hmethod : method = POST → length = none) (rest : Bytes) : Content method length rest [] rest
  | body (hmethod : method = POST) {value : Bytes} (hlength : length = some value) {n : Int}
      (hn : stoi value = .ok n) {body : Bytes} (hbody : body.length = sizeT n) (rest : Bytes)
      : Content method length (body ++ rest) body rest

/--
The text is a request line, the lines of a header, a blank line and `tail`, from which the body is cut
off. No line of the header is empty, and no part of the text holds what ends it.
-/
structure IsRequest (raw : Bytes) (req : HttpRequest) (lines : List Bytes) (tail rest : Bytes) : Prop where
  text : raw
      =
    req.method ++ 32 :: (req.path ++ 32 :: (req.version ++ (crlf ++ (headerText lines ++ (crlf ++ tail)))))
  method : 32 ∉ req.method
  path : 32 ∉ req.path
  version : IsLine req.version
  isLine : ∀ line ∈ lines, line ≠ [] ∧ IsLine line
  headers : req.headers = headerOf lines
  content : Content req.method (headerOf lines contentLength) tail req.body rest

theorem foldl_addHeader (method path version body : Bytes) (lines : List Bytes)
    : lines.foldl addHeader ⟨method, path, version, HttpRequest.new.headers, body⟩
        =
      ⟨method, path, version, headerOf lines, body⟩ := by
  have hline : ∀ (req : HttpRequest) (lines : List Bytes), (lines.foldl addHeader req).method = req.method ∧
      (lines.foldl addHeader req).path = req.path ∧ (lines.foldl addHeader req).version = req.version ∧
      (lines.foldl addHeader req).body = req.body := by
    intro req lines
    induction lines generalizing req with
    | nil => exact ⟨rfl, rfl, rfl, rfl⟩
    | cons line lines ih =>
      obtain ⟨hmethod, hpath, hversion, hbody⟩ := addHeader_line req line
      rw [← hmethod, ← hpath, ← hversion, ← hbody]
      exact ih _
  obtain ⟨req, hreq⟩ : ∃ req : HttpRequest, req = ⟨method, path, version, HttpRequest.new.headers, body⟩ :=
    ⟨_, rfl⟩
  obtain ⟨hmethod, hpath, hversion, hbody⟩ := hline req lines
  have hheaders : (lines.foldl addHeader req).headers = headerOf lines := by
    funext name
    exact (headerOf_eq (by rw [hreq]) lines name).symm
  rw [← hreq]
  generalize lines.foldl addHeader req = req' at hmethod hpath hversion hbody hheaders
  rw [hreq] at hmethod hpath hversion hbody
  obtain ⟨method', path', version', headers', body'⟩ := req'
  dsimp only at hmethod hpath hversion hbody hheaders
  rw [hmethod, hpath, hversion, hbody, hheaders]

section Content

variable {method tail body : Bytes}

theorem Content.noBody_iff {length : Option Bytes} (h : method = POST → length = none)
    : Content method length tail body rest ↔ body = [] ∧ rest = tail := by
  constructor
  . intro hcontent
    cases hcontent with
    | noBody => exact ⟨rfl, rfl⟩
    | body hpost hlength =>
      rw [h hpost] at hlength
      contradiction
  . rintro ⟨rfl, rfl⟩
    exact .noBody h _

theorem Content.body_iff (hpost : method = POST) {value : Bytes}
    : Content method (some value) tail body rest
        ↔
      ∃ n, stoi value = .ok n ∧ body.length = sizeT n ∧ tail = body ++ rest := by
  constructor
  . intro hcontent
    cases hcontent with
    | noBody hnone => exact absurd (hnone hpost) (by simp)
    | body _ hsome hn hsize =>
      rw [← Option.some.inj hsome] at hn
      exact ⟨_, hn, hsize, rfl⟩
  . rintro ⟨n, hn, hsize, rfl⟩
    exact .body hpost rfl hn hsize rest

end Content

theorem headers_finish_body : (finish ⟨⟨.body, b⟩, req⟩).req.headers = req.headers := by
  cases hvalue : req.headers contentLength with
  | none => rw [finish_without_length hvalue]
  | some value =>
    cases hstoi : stoi value with
    | error e =>
      rw [finish_bad_length hvalue hstoi]
    | ok n =>
      by_cases hshort : b.length < sizeT n
      . rw [finish_short hvalue hstoi hshort]
      . rw [finish_with_length hvalue hstoi hshort]

theorem finish_content_iff {tail : Bytes} {req' : HttpRequest} (req : HttpRequest) (hbody : req.body = [])
    : finish ⟨⟨if req.method = POST then .body else .done, tail⟩, req⟩ = ⟨.ok true, ⟨.done, rest⟩, req'⟩
        ↔
      ∃ body, Content req.method (req.headers contentLength) tail body rest ∧ req' = { req with body } := by
  have hnoBody : (⟨.ok true, ⟨.done, tail⟩, req⟩ : Outcome) = ⟨.ok true, ⟨.done, rest⟩, req'⟩
      ↔ ∃ body, (body = [] ∧ rest = tail) ∧ req' = { req with body } := by
    rw [Outcome.mk.injEq, HttpParser.mk.injEq]
    constructor
    . rintro ⟨_, ⟨_, rfl⟩, rfl⟩
      exact ⟨[], ⟨rfl, rfl⟩, by rw [← hbody]⟩
    . rintro ⟨_, ⟨rfl, rfl⟩, rfl⟩
      exact ⟨rfl, ⟨rfl, rfl⟩, by rw [← hbody]⟩
  by_cases hpost : req.method = POST
  . rw [if_pos hpost]
    cases hlength : req.headers contentLength with
    | none =>
      rw [finish_without_length hlength, hnoBody]
      simp only [Content.noBody_iff fun _ => rfl]
    | some value =>
      simp only [Content.body_iff hpost]
      cases hstoi : stoi value with
      | error e =>
        rw [finish_bad_length hlength hstoi]
        simp
      | ok n =>
        simp only [Except.ok.injEq, exists_eq_left']
        by_cases hshort : tail.length < sizeT n
        . rw [finish_short hlength hstoi hshort]
          constructor
          . intro h
            simp at h
          . rintro ⟨body, ⟨hsize, rfl⟩, _⟩
            rw [List.length_append, hsize] at hshort
            omega
        . rw [finish_with_length hlength hstoi hshort, Outcome.mk.injEq, HttpParser.mk.injEq]
          constructor
          . rintro ⟨_, ⟨_, rfl⟩, rfl⟩
            have hsize : (tail.take (sizeT n)).length = sizeT n := List.length_take_of_le (by omega)
            exact ⟨tail.take (sizeT n), ⟨hsize, (List.take_append_drop _ tail).symm⟩, rfl⟩
          . rintro ⟨body, ⟨hsize, rfl⟩, rfl⟩
            rw [← hsize, List.drop_left, List.take_left]
            exact ⟨rfl, ⟨rfl, rfl⟩, rfl⟩
  . rw [if_neg hpost, finish_done, hnoBody]
    simp only [Content.noBody_iff fun h => absurd h hpost]

/--
The parser accepts a text if and only if it is a request, and it leaves what comes behind it in its
buffer.
-/
theorem parse_iff (raw : Bytes) (req : HttpRequest) (rest : Bytes)
    : parse new raw HttpRequest.new = ⟨.ok true, ⟨.done, rest⟩, req⟩
        ↔
      ∃ lines tail, IsRequest raw req lines tail rest := by
  rw [parse_new]
  constructor
  . intro h
    have hok : (finish ⟨⟨.method, raw⟩, HttpRequest.new⟩).PastHeader :=
      .of_ne (by simp [h])
    obtain ⟨method, path, version, b, hraw, hmethod, hpath, hversion, hline⟩ := finish_requestLine hok
    rw [hline] at h hok
    obtain ⟨lines, tail, hb, hlines, hheader⟩ := exists_lines rfl hok
    dsimp only at hb hheader
    rw [hheader, foldl_addHeader] at h
    obtain ⟨body, hcontent, rfl⟩ := (finish_content_iff ⟨method, path, version, headerOf lines, []⟩ rfl).mp h
    exact ⟨lines, tail, by rw [hraw, hb], hmethod, hpath, hversion, hlines, rfl, hcontent⟩
  . rintro ⟨lines, tail, hrequest⟩
    rw [hrequest.text, finish_of_requestLine hrequest.method hrequest.path hrequest.version,
      finish_lines hrequest.isLine, finish_blank, foldl_addHeader]
    apply (finish_content_iff ⟨req.method, req.path, req.version, headerOf lines, []⟩ rfl).mpr
    refine ⟨req.body, hrequest.content, ?_⟩
    rw [← hrequest.headers]

section Completion

/--
The header line after which a `POST` has no body, whatever length it has announced before.
-/
def emptyLength : Bytes := contentLength ++ Bytes.ofAscii ":0"

theorem addHeader_emptyLength (req : HttpRequest)
    : addHeader req emptyLength
        =
      { req with headers := Function.update req.headers contentLength (some (Bytes.ofAscii "0")) } := by
  have hcolon : emptyLength.findByte 58 = some 14 := by decide
  have hkey : emptyLength.take 14 = contentLength := by decide
  have hvalue : emptyLength.drop (14 + 1) = Bytes.ofAscii "0" := by decide
  have hspace : (Bytes.ofAscii "0").head? ≠ some 32 := by decide
  simp only [addHeader, hcolon, hkey, hvalue, if_neg hspace]

theorem isLine_of_find_none (h : Bytes.find b crlf = none) : IsLine b := by
  obtain ⟨pos, hle, hpos⟩ := Bytes.exists_find_le b [] crlf
  rw [List.append_nil] at hpos
  have hbreak : crlf <+: (b ++ crlf).drop pos := Bytes.find_prefix_drop hpos
  rcases Nat.lt_trichotomy (pos + 1) b.length with hbefore | hacross | hbehind
  . have hlt : pos + crlf.length ≤ b.length := hbefore
    have hfind := Bytes.find_append (t := b.drop (pos + crlf.length)) (Bytes.find_take hpos)
    rw [List.take_append_of_le_length hlt, List.take_append_drop, h] at hfind
    contradiction
  . -- the second byte of the break would be the first one of the appended break
    obtain ⟨last, hlast⟩ : ∃ last, b.drop pos = [last] :=
      List.length_eq_one_iff.mp (by rw [List.length_drop]; omega)
    rw [List.drop_append_of_le_length hle, hlast] at hbreak
    simp [crlf] at hbreak
  . have heq : pos = b.length := by omega
    rwa [IsLine, ← heq]

theorem notMem_of_findByte_none {c : UInt8} (h : b.findByte c = none) : c ∉ b := by
  intro hmem
  obtain ⟨front, back, rfl, hnone⟩ := List.eq_append_cons_of_mem hmem
  rw [Bytes.findByte_append_cons hnone] at h
  contradiction

/--
At most `n` bytes behind those that the parser has make a request.
-/
def Completable (n : Nat) (p : Progress) : Prop :=
  ∃ more, more.length ≤ n ∧ (finish (p.append more)).result = .ok true

theorem Completable.mono {n m : Nat} {p : Progress} (h : Completable n p) (hle : n ≤ m)
    : Completable m p := by
  obtain ⟨more, hlength, hmore⟩ := h
  exact ⟨more, Nat.le_trans hlength hle, hmore⟩

theorem completable_header (b : Bytes) (hb : b = [] ∨ b ≠ [] ∧ IsLine b) (req : HttpRequest)
    : Completable 22 ⟨⟨.header, b⟩, req⟩ := by
  have hend : ∀ req : HttpRequest,
      (finish ⟨⟨.header, headerText [emptyLength] ++ crlf⟩, req⟩).result = .ok true := by
    intro req
    rw [finish_lines (by decide), ← List.append_nil crlf, finish_blank, List.foldl_cons, List.foldl_nil,
      addHeader_emptyLength]
    split
    . have hvalue : Function.update req.headers contentLength (some (Bytes.ofAscii "0")) contentLength
          = some (Bytes.ofAscii "0") := Function.update_self _ _ _
      have hzero : stoi (Bytes.ofAscii "0") = .ok 0 := by decide
      have hsize : sizeT 0 = 0 := rfl
      rw [finish_of_next (q := ⟨⟨.done, []⟩, _⟩)
        (by simp only [iteration, hvalue, hzero, hsize, List.length_nil, Nat.lt_irrefl, ↓reduceIte]; rfl),
        finish_done]
    . rw [finish_done]
  obtain rfl | hline := hb
  . exact ⟨_, by decide, hend req⟩
  . refine ⟨crlf ++ (headerText [emptyLength] ++ crlf), by decide, ?_⟩
    have htext : b ++ (crlf ++ (headerText [emptyLength] ++ crlf))
        = headerText [b] ++ (headerText [emptyLength] ++ crlf) := by
      simp [headerText]
    rw [Progress.append, htext, finish_lines (by simpa using hline)]
    exact hend _

theorem completable_version (h : IsLine b) (req : HttpRequest)
    : Completable 24 ⟨⟨.version, b⟩, req⟩ := by
  obtain ⟨more, hlength, hmore⟩ := completable_header [] (.inl rfl) { req with version := b }
  refine ⟨crlf ++ more, ?_, ?_⟩
  . rw [List.length_append]
    exact Nat.add_le_add_left hlength 2
  . obtain ⟨htake, hdrop⟩ := take_append_crlf b more
    rw [Progress.append, finish_of_next (q := ⟨⟨.header, more⟩, { req with version := b }⟩)
      (by simp only [iteration, h.find more, htake, hdrop])]
    exact hmore

theorem completable_path (h : 32 ∉ b) (req : HttpRequest) : Completable 25 ⟨⟨.path, b⟩, req⟩ := by
  obtain ⟨more, hlength, hmore⟩ := completable_version (b := []) (by decide) { req with path := b }
  refine ⟨32 :: more, Nat.succ_le_succ hlength, ?_⟩
  obtain ⟨htake, hdrop⟩ := take_append_cons b more 32
  rw [Progress.append, finish_of_next (q := ⟨⟨.version, more⟩, { req with path := b }⟩)
    (by simp only [iteration, Bytes.findByte_append_cons h, htake, hdrop])]
  exact hmore

theorem completable_method (h : 32 ∉ b) (req : HttpRequest) : Completable 26 ⟨⟨.method, b⟩, req⟩ := by
  obtain ⟨more, hlength, hmore⟩ := completable_path (b := []) (by decide) { req with method := b }
  refine ⟨32 :: more, Nat.succ_le_succ hlength, ?_⟩
  obtain ⟨htake, hdrop⟩ := take_append_cons b more 32
  rw [Progress.append, finish_of_next (q := ⟨⟨.path, more⟩, { req with method := b }⟩)
    (by simp only [iteration, Bytes.findByte_append_cons h, htake, hdrop])]
  exact hmore

/--
No bytes that still fit a string make a request of what the parser has: it has thrown, or it waits for
a body of a negative length, cast to a `size_t`.
-/
def Outcome.Refuses (o : Outcome) : Prop :=
  o.Throws ∨
    o.result = .ok false ∧ o.parser.state_ = .body ∧
      ∃ value n, o.req.headers contentLength = some value ∧ stoi value = .ok n ∧ n < 0

theorem completable_of_done {p : Progress} {o : Outcome} (hdone : iteration p = .done o) (h : ¬o.Refuses)
    : Completable (2 ^ 31) p := by
  obtain ⟨⟨state_, b⟩, req⟩ := p
  cases state_ with
  | method =>
    simp only [iteration] at hdone
    split at hdone
    . next hnone => exact (completable_method (notMem_of_findByte_none hnone) req).mono (by decide)
    . contradiction
  | path =>
    simp only [iteration] at hdone
    split at hdone
    . next hnone => exact (completable_path (notMem_of_findByte_none hnone) req).mono (by decide)
    . contradiction
  | version =>
    simp only [iteration] at hdone
    split at hdone
    . next hnone => exact (completable_version (isLine_of_find_none hnone) req).mono (by decide)
    . contradiction
  | header =>
    simp only [iteration] at hdone
    split at hdone
    . contradiction
    . split at hdone
      . next hnone =>
        refine (completable_header b ?_ req).mono (by decide)
        by_cases hb : b = []
        . exact .inl hb
        . exact .inr ⟨hb, isLine_of_find_none hnone⟩
      . contradiction
  | body =>
    simp only [iteration] at hdone
    split at hdone
    . contradiction
    . next value hvalue =>
      split at hdone
      . next e _ =>
        rw [Iter.done.injEq] at hdone
        subst hdone
        exact absurd (.inl ⟨e, rfl⟩) h
      . next n hn =>
        split at hdone
        . next hshort =>
          rw [Iter.done.injEq] at hdone
          subst hdone
          have hnonneg : 0 ≤ n := by
            by_contra hneg
            exact h (.inr ⟨rfl, rfl, value, n, hvalue, hn, Int.not_le.mp hneg⟩)
          have hsize : sizeT n < 2 ^ 31 := by
            have hrange := range_of_stoi hn
            unfold sizeT
            omega
          refine ⟨List.replicate (sizeT n - b.length) 0, ?_, ?_⟩
          . rw [List.length_replicate]
            omega
          . have henough : ¬(b ++ List.replicate (sizeT n - b.length) 0).length < sizeT n := by
              rw [List.length_append, List.length_replicate]
              omega
            rw [Progress.append, finish_with_length hvalue hn henough]
        . contradiction
  | done => exact ⟨[], Nat.zero_le _, by rw [Progress.append, finish_done]⟩

theorem completable_of_finish (p : Progress) (h : ¬(finish p).Refuses) : Completable (2 ^ 31) p := by
  revert h
  apply finish_induction (P := fun p o => ¬o.Refuses → Completable (2 ^ 31) p)
  . intro p o hdone h
    exact completable_of_done hdone h
  . intro p p' hnext ih h
    obtain ⟨more, hlength, hmore⟩ := ih h
    refine ⟨more, hlength, ?_⟩
    rwa [finish_of_next (iteration_append hnext)]

/--
A `POST` request, up to the end of its header at least, whose `Content-Length` is not a number from 0 up
that fits an `int`.
-/
def IsRefused (raw : Bytes) : Prop :=
  ∃ path version lines value rest,
    raw = POST ++ 32 :: (path ++ 32 :: (version ++ (crlf ++ (headerText lines ++ (crlf ++ rest))))) ∧
      32 ∉ path ∧ IsLine version ∧ (∀ line ∈ lines, line ≠ [] ∧ IsLine line) ∧
      headerOf lines contentLength = some value ∧ ∀ n, stoi value = .ok n → n < 0

theorem refused_of_refuses {raw : Bytes} (h : (finish ⟨⟨.method, raw⟩, HttpRequest.new⟩).Refuses)
    : IsRefused raw := by
  obtain hthrows | ⟨hfalse, hstate, value, n, hvalue, hn, hneg⟩ := h
  . obtain ⟨path, version, lines, value, rest, hraw, hpath, hversion, hlines, hvalue, hbad⟩ :=
      (throws_iff raw).mp (by rwa [parse_new])
    exact ⟨path, version, lines, value, rest, hraw, hpath, hversion, hlines, hvalue,
      fun n hn => absurd hn (hbad n)⟩
  . have hpast : (finish ⟨⟨.method, raw⟩, HttpRequest.new⟩).PastHeader := fun _ => hstate
    obtain ⟨method, path, version, b, hraw, _, hpath, hversion, hline⟩ := finish_requestLine hpast
    rw [hline] at hpast hfalse hvalue
    obtain ⟨lines, rest, hb, hlines, hheader⟩ := exists_lines rfl hpast
    dsimp only at hb hheader
    rw [hheader] at hfalse hvalue
    by_cases hpost : method = POST
    . rw [if_pos hpost, headers_finish_body] at hvalue
      subst hpost hb
      refine ⟨path, version, lines, value, rest, hraw, hpath, hversion, hlines, ?_, ?_⟩
      . rw [← hvalue]
        apply headerOf_eq
        rfl
      . intro n' hn'
        rw [hn, Except.ok.injEq] at hn'
        omega
    . rw [if_neg hpost, finish_done] at hfalse
      simp at hfalse

theorem IsRefused.append {raw : Bytes} (h : IsRefused raw) (more : Bytes) : IsRefused (raw ++ more) := by
  obtain ⟨path, version, lines, value, rest, rfl, hrest⟩ := h
  exact ⟨path, version, lines, value, rest ++ more, by simp, hrest⟩

/--
A negative length is a `size_t` from `2 ^ 63` on.
-/
theorem IsRefused.not_accepted {raw : Bytes} (h : IsRefused raw) (hraw : raw.length < 2 ^ 63)
    : (parse new raw HttpRequest.new).result ≠ .ok true := by
  obtain ⟨path, version, lines, value, rest, rfl, hpath, hversion, hlines, hvalue, hlength⟩ := h
  rw [parse_new, finish_of_requestLine (by decide) hpath hversion, finish_lines hlines, finish_blank,
    method_foldl, if_pos rfl]
  have hheaders : { HttpRequest.new with method := POST, path, version }.headers = HttpRequest.new.headers :=
    rfl
  rw [headerOf_eq hheaders] at hvalue
  cases hstoi : stoi value with
  | error e =>
    rw [throws_body_iff.mpr ⟨value, hvalue, hstoi⟩]
    simp
  | ok n =>
    have hneg := hlength n hstoi
    have hshort : rest.length < sizeT n := by
      have hrange := range_of_stoi hstoi
      have hrest : rest.length < 2 ^ 63 := by
        simp only [List.length_append, List.length_cons] at hraw
        omega
      unfold sizeT
      omega
    rw [finish_short hvalue hstoi hshort]
    simp

/--
Bytes can be completed to a request, within the `2 ^ 63` bytes that a string may have, if and only if
they do not hold the one thing that the parser refuses.
-/
theorem completable_iff (raw : Bytes) (hraw : raw.length + 2 ^ 31 < 2 ^ 63)
    : (∃ more, (raw ++ more).length < 2 ^ 63 ∧
          (parse new (raw ++ more) HttpRequest.new).result = .ok true)
        ↔
      ¬IsRefused raw := by
  constructor
  . rintro ⟨more, hlength, hmore⟩ hrefused
    exact (hrefused.append more).not_accepted hlength hmore
  . intro h
    obtain ⟨more, hlength, hmore⟩ :=
      completable_of_finish ⟨⟨.method, raw⟩, HttpRequest.new⟩ (mt refused_of_refuses h)
    refine ⟨more, ?_, hmore⟩
    rw [List.length_append]
    omega

def negativeLength : Bytes := Bytes.ofAscii "POST / HTTP/1.1\r\nContent-Length: -1\r\n\r\n"

theorem completable_iff_negativeLength
    : ¬∃ more, (negativeLength ++ more).length < 2 ^ 63 ∧
        (parse new (negativeLength ++ more) HttpRequest.new).result = .ok true := by
  rw [completable_iff negativeLength (by decide), not_not]
  refine ⟨Bytes.ofAscii "/", Bytes.ofAscii "HTTP/1.1", [Bytes.ofAscii "Content-Length: -1"],
    Bytes.ofAscii "-1", [], by decide, by decide, by decide, by decide, by decide, ?_⟩
  have hstoi : stoi (Bytes.ofAscii "-1") = .ok (-1) := by decide
  intro n hn
  rw [hstoi, Except.ok.injEq] at hn
  omega

end Completion

end HttpParser
end LFGateway
