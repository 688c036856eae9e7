import LFGateway.Http.Impl

/-!
This module contains what a request that `parse` accepts tells about the bytes it was parsed from,
and that bytes which follow an accepted request do not change it.
-/

namespace LFGateway

open Foundation

namespace HttpParser

variable {b e : Bytes} {p p' : Progress} {req : HttpRequest} {o : Outcome}

def finish (p : Progress) : Outcome := loop iteration measure iteration_decreases p

theorem parse_new (raw : Bytes) (req : HttpRequest)
    : parse new raw req = finish ⟨⟨.method, raw⟩, req⟩ := rfl

theorem finish_of_next {q : Progress} (h : iteration p = .next q) : finish p = finish q :=
  loop_of_next iteration_decreases h

theorem finish_of_done (h : iteration p = .done o) : finish p = o :=
  loop_of_done iteration_decreases h

theorem finish_induction {P : Progress → Outcome → Prop}
    (hdone : ∀ p o, iteration p = .done o → P p o)
    (hnext : ∀ p p', iteration p = .next p' → P p' (finish p') → P p (finish p')) (p : Progress)
    : P p (finish p) :=
  loop_induction iteration_decreases hdone hnext p

section Append

def Progress.append (p : Progress) (e : Bytes) : Progress :=
  { p with parser := { p.parser with buffer_ := p.parser.buffer_ ++ e } }

def Outcome.append (o : Outcome) (e : Bytes) : Outcome :=
  { o with parser := { o.parser with buffer_ := o.parser.buffer_ ++ e } }

theorem take_append_of_findByte {c : UInt8} {pos : Nat} (h : Bytes.findByte c b = some pos)
    : (b ++ e).take pos = b.take pos ∧ (b ++ e).drop (pos + 1) = b.drop (pos + 1) ++ e := by
  have hlt := Bytes.findByte_lt_length h
  exact ⟨List.take_append_of_le_length (by omega), List.drop_append_of_le_length (by omega)⟩

theorem take_append_of_find_crlf {pos : Nat} (h : Bytes.find b crlf = some pos)
    : (b ++ e).take pos = b.take pos ∧ (b ++ e).drop (pos + 2) = b.drop (pos + 2) ++ e := by
  have hle : pos + 2 ≤ b.length := Bytes.find_le_length h
  exact ⟨List.take_append_of_le_length (by omega), List.drop_append_of_le_length (by omega)⟩

theorem take_two_append (h : 2 ≤ b.length) : (b ++ e).take 2 = b.take 2 :=
  List.take_append_of_le_length h

theorem two_le_of_take (h : b.take 2 = crlf) : 2 ≤ b.length := by
  have hlength := congrArg List.length h
  rw [List.length_take, crlf, List.length_cons, List.length_singleton] at hlength
  omega

/--
An iteration that goes on never looked past the bytes it had.
-/
theorem iteration_append (h : iteration p = .next p')
    : iteration (p.append e) = .next (p'.append e) := by
  obtain ⟨⟨state_, buffer_⟩, req⟩ := p
  cases state_ with
  | method | path =>
    simp only [iteration] at h
    split at h
    . contradiction
    . next pos hpos =>
      rw [Iter.next.injEq] at h
      subst h
      have hfind : (buffer_ ++ e).findByte 32 = some pos := Bytes.find_append hpos
      obtain ⟨htake, hdrop⟩ := take_append_of_findByte (e := e) hpos
      simp [iteration, Progress.append, hfind, htake, hdrop]
  | version =>
    simp only [iteration] at h
    split at h
    . contradiction
    . next pos hpos =>
      rw [Iter.next.injEq] at h
      subst h
      have hfind : (buffer_ ++ e).find crlf = some pos := Bytes.find_append hpos
      obtain ⟨htake, hdrop⟩ := take_append_of_find_crlf (e := e) hpos
      simp only [iteration, Progress.append, hfind, htake, hdrop]
  | header =>
    simp only [iteration] at h
    split at h
    . next hblank =>
      rw [Iter.next.injEq] at h
      subst h
      have hlength := two_le_of_take hblank
      have hdrop : (buffer_ ++ e).drop 2 = buffer_.drop 2 ++ e :=
        List.drop_append_of_le_length hlength
      simp only [iteration, Progress.append, take_two_append hlength, hblank, hdrop, ↓reduceIte]
      rfl
    . next hblank =>
      split at h
      . contradiction
      . next pos hpos =>
        rw [Iter.next.injEq] at h
        subst h
        have hle : pos + 2 ≤ buffer_.length := Bytes.find_le_length hpos
        have hlength : 2 ≤ buffer_.length := by omega
        have hfind : (buffer_ ++ e).find crlf = some pos := Bytes.find_append hpos
        obtain ⟨htake, hdrop⟩ := take_append_of_find_crlf (e := e) hpos
        simp only [iteration, Progress.append, take_two_append hlength, hblank, hfind, htake, hdrop,
          ↓reduceIte]
  | body =>
    simp only [iteration] at h
    split at h
    . next hnone =>
      rw [Iter.next.injEq] at h
      subst h
      simp only [iteration, Progress.append, hnone]
    . next value hvalue =>
      split at h
      . contradiction
      . next bodyLen hlen =>
        split at h
        . contradiction
        . next hshort =>
          rw [Iter.next.injEq] at h
          subst h
          have hle : sizeT bodyLen ≤ buffer_.length := not_lt.mp hshort
          have hlong : ¬(buffer_ ++ e).length < sizeT bodyLen := by
            rw [List.length_append]
            omega
          have htake : (buffer_ ++ e).take (sizeT bodyLen) = buffer_.take (sizeT bodyLen) :=
            List.take_append_of_le_length hle
          have hdrop : (buffer_ ++ e).drop (sizeT bodyLen) = buffer_.drop (sizeT bodyLen) ++ e :=
            List.drop_append_of_le_length hle
          simp only [iteration, Progress.append, hvalue, hlen, hlong, htake, hdrop, ↓reduceIte]
  | done =>
    simp only [iteration] at h
    contradiction

theorem iteration_accepted (h : iteration p = .done o) (hok : o.result = .ok true)
    : p.parser.state_ = .done ∧ o = ⟨.ok true, p.parser, p.req⟩ := by
  obtain ⟨⟨state_, buffer_⟩, req⟩ := p
  cases state_ with
  | done =>
    simp only [iteration, Iter.done.injEq] at h
    exact ⟨rfl, h.symm⟩
  | method | path | version | header | body =>
    simp only [iteration] at h
    repeat' split at h
    all_goals first
      | contradiction
      | rw [Iter.done.injEq] at h
        subst h
        simp at hok

theorem finish_append (h : (finish p).result = .ok true) (e : Bytes)
    : finish (p.append e) = (finish p).append e := by
  revert h
  apply finish_induction (P := fun p o => o.result = .ok true → finish (p.append e) = o.append e)
  . intro p o hdone hok
    obtain ⟨hstate, heq⟩ := iteration_accepted hdone hok
    subst heq
    apply finish_of_done
    simp only [iteration, Progress.append, Outcome.append, hstate]
  . intro p p' hnext ih hok
    rw [finish_of_next (iteration_append hnext)]
    exact ih hok

end Append

section Accepted

theorem finish_done (buffer_ : Bytes) (req : HttpRequest)
    : finish ⟨⟨.done, buffer_⟩, req⟩ = ⟨.ok true, ⟨.done, buffer_⟩, req⟩ :=
  finish_of_done rfl

theorem finish_body (hbody : req.body = []) (h : (finish ⟨⟨.body, b⟩, req⟩).result = .ok true)
    : ∃ n, (finish ⟨⟨.body, b⟩, req⟩).req = { req with body := b.take n } := by
  cases hiteration : iteration ⟨⟨.body, b⟩, req⟩ with
  | next p =>
    rw [finish_of_next hiteration]
    simp only [iteration] at hiteration
    split at hiteration
    . rw [Iter.next.injEq] at hiteration
      subst hiteration
      refine ⟨0, ?_⟩
      rw [finish_done, List.take_zero, ← hbody]
    . split at hiteration
      . contradiction
      . split at hiteration
        . contradiction
        . rw [Iter.next.injEq] at hiteration
          subst hiteration
          exact ⟨_, by rw [finish_done]⟩
  | done o =>
    rw [finish_of_done hiteration] at h
    have hstate := (iteration_accepted hiteration h).1
    contradiction

/--
What is known when `parse` accepts from the headers on: the request line is kept, every header that
is new took a line, and the body is in the buffer.
-/
structure Headers (b : Bytes) (req : HttpRequest) (o : Outcome) : Prop where
  line : o.req.method = req.method ∧ o.req.path = req.path ∧ o.req.version = req.version
  count : ∀ keys : List Bytes, keys.Nodup →
    (∀ key ∈ keys, req.headers key = none ∧ o.req.headers key ≠ none) →
    keys.length + 1 + o.req.body.count 10 ≤ b.count 10
  length : o.req.body.length ≤ b.length

theorem count_of_find_crlf {pos : Nat} (h : Bytes.find b crlf = some pos)
    : b.count 10 = (b.take pos).count 10 + 1 + (b.drop (pos + 2)).count 10 := by
  conv => lhs; rw [Bytes.eq_take_append_of_find h]
  rw [List.count_append, List.count_append]
  have hcrlf : crlf.count 10 = 1 := by decide
  rw [hcrlf, ← Nat.add_assoc]
  rfl

theorem count_of_take_crlf (h : b.take 2 = crlf) : b.count 10 = 1 + (b.drop 2).count 10 := by
  conv => lhs; rw [← List.take_append_drop 2 b, h, List.count_append]
  rfl

theorem Headers.blank (hblank : b.take 2 = crlf) (hbody : req.body = [])
    {state_ : State} (hstate : state_ = .body ∨ state_ = .done)
    (h : (finish ⟨⟨state_, b.drop 2⟩, req⟩).result = .ok true)
    : Headers b req (finish ⟨⟨state_, b.drop 2⟩, req⟩) := by
  have htaken : ∃ n, (finish ⟨⟨state_, b.drop 2⟩, req⟩).req = { req with body := (b.drop 2).take n } := by
    cases hstate with
    | inl hstate =>
      subst hstate
      exact finish_body hbody h
    | inr hstate =>
      subst hstate
      refine ⟨0, ?_⟩
      rw [finish_done, List.take_zero, ← hbody]
  obtain ⟨n, hn⟩ := htaken
  constructor
  . rw [hn]
    exact ⟨rfl, rfl, rfl⟩
  . intro keys _ hkeys
    rw [hn] at hkeys ⊢
    have hempty : keys = [] := by
      rw [List.eq_nil_iff_forall_not_mem]
      intro key hkey
      exact (hkeys key hkey).2 (hkeys key hkey).1
    have hsub : ((b.drop 2).take n).count 10 ≤ (b.drop 2).count 10 :=
      (List.take_sublist _ _).count_le _
    rw [count_of_take_crlf hblank, hempty]
    simp only [List.length_nil]
    omega
  . rw [hn]
    simp

theorem addHeader_line (req : HttpRequest) (line : Bytes)
    : (addHeader req line).method = req.method ∧ (addHeader req line).path = req.path ∧
        (addHeader req line).version = req.version ∧ (addHeader req line).body = req.body := by
  unfold addHeader
  split <;> exact ⟨rfl, rfl, rfl, rfl⟩

theorem exists_key_addHeader (req : HttpRequest) (line : Bytes)
    : ∃ key, ∀ key', key' ≠ key → (addHeader req line).headers key' = req.headers key' := by
  unfold addHeader
  split
  . exact ⟨[], fun _ _ => rfl⟩
  . exact ⟨_, fun _ hne => Function.update_of_ne hne _ _⟩

theorem Headers.field {pos : Nat} (hpos : Bytes.find b crlf = some pos)
    (h : Headers (b.drop (pos + 2)) (addHeader req (b.take pos)) o) : Headers b req o := by
  obtain ⟨hmethod, hpath, hversion, _⟩ := addHeader_line req (b.take pos)
  obtain ⟨key, hkey⟩ := exists_key_addHeader req (b.take pos)
  constructor
  . rw [← hmethod, ← hpath, ← hversion]
    exact h.line
  . intro keys hnodup hkeys
    have hrest := h.count (keys.erase key) (hnodup.erase key) (by
      intro key' hmem
      rw [hnodup.mem_erase_iff] at hmem
      rw [hkey key' hmem.1]
      exact hkeys key' hmem.2)
    have herase := List.le_length_erase (a := key) (l := keys)
    rw [count_of_find_crlf hpos]
    omega
  . have hlength := h.length
    rw [List.length_drop] at hlength
    omega

theorem headers_of_accepted (hstate : p.parser.state_ = .header) (hbody : p.req.body = [])
    (h : (finish p).result = .ok true) : Headers p.parser.buffer_ p.req (finish p) := by
  revert hstate hbody h
  apply finish_induction (P := fun p o => p.parser.state_ = .header →
    p.req.body = [] → o.result = .ok true → Headers p.parser.buffer_ p.req o)
  . intro p o hdone hstate _ hok
    have hfinal := (iteration_accepted hdone hok).1
    rw [hstate] at hfinal
    contradiction
  . intro p p' hnext ih hstate hbody hok
    obtain ⟨⟨state_, b⟩, req⟩ := p
    dsimp only at hstate hbody
    subst hstate
    simp only [iteration] at hnext
    split at hnext
    . next hblank =>
      rw [Iter.next.injEq] at hnext
      subst hnext
      apply Headers.blank hblank hbody _ hok
      split
      . exact .inl rfl
      . exact .inr rfl
    . split at hnext
      . contradiction
      . next pos hpos =>
        rw [Iter.next.injEq] at hnext
        subst hnext
        apply Headers.field hpos
        apply ih rfl _ hok
        rw [(addHeader_line _ _).2.2.2]
        exact hbody

structure Accepted (raw : Bytes) (req : HttpRequest) : Prop where
  line : ∃ rest, raw = req.method ++ 32 :: (req.path ++ 32 :: (req.version ++ crlf ++ rest))
  count : ∀ keys : List Bytes, keys.Nodup → (∀ key ∈ keys, req.headers key ≠ none) →
    keys.length + 2 + req.body.count 10 ≤ raw.count 10
  length : req.body.length ≤ raw.length

theorem eq_take_append_of_findByte {c : UInt8} {pos : Nat} (h : Bytes.findByte c b = some pos)
    : b = b.take pos ++ c :: b.drop (pos + 1) :=
  Bytes.eq_take_append_of_find h

section RequestLine

def Outcome.PastHeader (o : Outcome) : Prop := o.result = .ok false → o.parser.state_ = .body

theorem Outcome.PastHeader.of_ne {o : Outcome} (h : o.result ≠ .ok false) : o.PastHeader :=
  fun hfalse => absurd hfalse h

theorem finish_method (h : (finish ⟨⟨.method, b⟩, req⟩).PastHeader)
    : ∃ pos, b.findByte 32 = some pos ∧
        finish ⟨⟨.method, b⟩, req⟩
          = finish ⟨⟨.path, b.drop (pos + 1)⟩, { req with method := b.take pos }⟩ := by
  cases hfind : b.findByte 32 with
  | none =>
    rw [finish_of_done (o := ⟨.ok false, ⟨.method, b⟩, req⟩) (by simp only [iteration, hfind])] at h
    cases h rfl
  | some pos => exact ⟨pos, rfl, finish_of_next (by simp only [iteration, hfind])⟩

theorem finish_path (h : (finish ⟨⟨.path, b⟩, req⟩).PastHeader)
    : ∃ pos, b.findByte 32 = some pos ∧
        finish ⟨⟨.path, b⟩, req⟩
          = finish ⟨⟨.version, b.drop (pos + 1)⟩, { req with path := b.take pos }⟩ := by
  cases hfind : b.findByte 32 with
  | none =>
    rw [finish_of_done (o := ⟨.ok false, ⟨.path, b⟩, req⟩) (by simp only [iteration, hfind])] at h
    cases h rfl
  | some pos => exact ⟨pos, rfl, finish_of_next (by simp only [iteration, hfind])⟩

theorem finish_version (h : (finish ⟨⟨.version, b⟩, req⟩).PastHeader)
    : ∃ pos, b.find crlf = some pos ∧
        finish ⟨⟨.version, b⟩, req⟩
          = finish ⟨⟨.header, b.drop (pos + 2)⟩, { req with version := b.take pos }⟩ := by
  cases hfind : b.find crlf with
  | none =>
    rw [finish_of_done (o := ⟨.ok false, ⟨.version, b⟩, req⟩) (by simp only [iteration, hfind])] at h
    cases h rfl
  | some pos => exact ⟨pos, rfl, finish_of_next (by simp only [iteration, hfind])⟩

/--
A text in which no line break begins.
-/
def IsLine (line : Bytes) : Prop := Bytes.find (line ++ crlf) crlf = some line.length

instance (line : Bytes) : Decidable (IsLine line) := inferInstanceAs (Decidable (_ = _))

theorem IsLine.find {line : Bytes} (h : IsLine line) (t : Bytes)
    : Bytes.find (line ++ (crlf ++ t)) crlf = some line.length := by
  rw [← List.append_assoc]
  exact Bytes.find_append h

theorem isLine_of_find {pos : Nat} (h : Bytes.find b crlf = some pos) : IsLine (b.take pos) := by
  have hle : pos + 2 ≤ b.length := Bytes.find_le_length h
  have htake : b.take pos ++ crlf = b.take (pos + 2) := by
    have hsplit := congrArg (List.take (pos + 2)) (Bytes.eq_take_append_of_find h)
    rw [hsplit, ← List.append_assoc, List.take_left']
    simp [crlf]
    omega
  unfold IsLine
  rw [htake, List.length_take_of_le (by omega)]
  exact Bytes.find_take h

theorem finish_requestLine (h : (finish ⟨⟨.method, b⟩, req⟩).PastHeader)
    : ∃ method path version rest,
        b = method ++ 32 :: (path ++ 32 :: (version ++ (crlf ++ rest))) ∧
        32 ∉ method ∧ 32 ∉ path ∧ IsLine version ∧
        finish ⟨⟨.method, b⟩, req⟩
          = finish ⟨⟨.header, rest⟩, { req with method, path, version }⟩ := by
  obtain ⟨i, hi, hmethod⟩ := finish_method h
  rw [hmethod] at h
  obtain ⟨j, hj, hpath⟩ := finish_path h
  rw [hpath] at h
  obtain ⟨k, hk, hversion⟩ := finish_version h
  refine ⟨_, _, _, _, ?_, Bytes.notMem_take_of_findByte hi, Bytes.notMem_take_of_findByte hj,
    isLine_of_find hk, by rw [hmethod, hpath, hversion]⟩
  conv =>
    lhs
    rw [eq_take_append_of_findByte hi, eq_take_append_of_findByte hj, Bytes.eq_take_append_of_find hk]
  rfl

theorem take_append_cons (s t : Bytes) (c : UInt8)
    : (s ++ c :: t).take s.length = s ∧ (s ++ c :: t).drop (s.length + 1) = t := by
  constructor
  . exact List.take_left
  . rw [List.drop_append]
    simp

theorem take_append_crlf (s t : Bytes)
    : (s ++ (crlf ++ t)).take s.length = s ∧ (s ++ (crlf ++ t)).drop (s.length + 2) = t := by
  constructor
  . exact List.take_left
  . rw [List.drop_append]
    simp [crlf]

theorem finish_of_requestLine {method path version rest : Bytes} (hmethod : 32 ∉ method)
    (hpath : 32 ∉ path) (hversion : IsLine version)
    : finish ⟨⟨.method, method ++ 32 :: (path ++ 32 :: (version ++ (crlf ++ rest)))⟩, req⟩
        =
      finish ⟨⟨.header, rest⟩, { req with method, path, version }⟩ := by
  obtain ⟨htake, hdrop⟩ := take_append_cons method (path ++ 32 :: (version ++ (crlf ++ rest))) 32
  rw [finish_of_next (q := ⟨⟨.path, _⟩, _⟩) (by
    simp only [iteration, Bytes.findByte_append_cons hmethod, htake, hdrop]
    rfl)]
  obtain ⟨htake, hdrop⟩ := take_append_cons path (version ++ (crlf ++ rest)) 32
  rw [finish_of_next (q := ⟨⟨.version, _⟩, _⟩) (by
    simp only [iteration, Bytes.findByte_append_cons hpath, htake, hdrop]
    rfl)]
  obtain ⟨htake, hdrop⟩ := take_append_crlf version rest
  rw [finish_of_next (q := ⟨⟨.header, _⟩, _⟩) (by
    simp only [iteration, hversion.find, htake, hdrop]
    rfl)]

theorem finish_blank
    : finish ⟨⟨.header, crlf ++ b⟩, req⟩
        =
      finish ⟨⟨if req.method = POST then .body else .done, b⟩, req⟩ :=
  finish_of_next (by simp [iteration, crlf])

end RequestLine

theorem accepted_of_parse {raw : Bytes} (h : (parse new raw HttpRequest.new).result = .ok true)
    : Accepted raw (parse new raw HttpRequest.new).req := by
  rw [parse_new] at h ⊢
  obtain ⟨method, path, version, rest, hraw, _, _, _, heq⟩ :=
    finish_requestLine (.of_ne (ne_of_eq_of_ne h (by simp)))
  rw [heq] at h ⊢
  have hheaders := headers_of_accepted (by rfl) (by rfl) h
  obtain ⟨hm, hp, hv⟩ := hheaders.line
  constructor
  . refine ⟨rest, ?_⟩
    rw [hm, hp, hv, hraw, List.append_assoc]
  . intro keys hnodup hkeys
    have hrest := hheaders.count keys hnodup (fun key hkey => ⟨rfl, hkeys key hkey⟩)
    have hcrlf : crlf.count 10 = 1 := by decide
    rw [hraw, List.count_append, List.count_cons_of_ne (by decide), List.count_append,
      List.count_cons_of_ne (by decide), List.count_append, List.count_append, hcrlf]
    dsimp only at hrest ⊢
    omega
  . have hlength := hheaders.length
    rw [hraw]
    simp only [List.length_append, List.length_cons]
    dsimp only at hlength ⊢
    omega

end Accepted

section RequestPath

def RequestPath (path : Bytes) : Prop :=
  ∃ raw, (parse new raw HttpRequest.new).result = .ok true ∧
    (parse new raw HttpRequest.new).req.path = path

theorem notMem_path_of_parse {raw : Bytes} (h : (parse new raw HttpRequest.new).result = .ok true)
    : 32 ∉ (parse new raw HttpRequest.new).req.path := by
  rw [parse_new] at h ⊢
  obtain ⟨method, path, version, rest, _, _, hpath, _, heq⟩ :=
    finish_requestLine (.of_ne (ne_of_eq_of_ne h (by simp)))
  rw [heq] at h ⊢
  have hheaders := headers_of_accepted (by rfl) (by rfl) h
  rw [hheaders.line.2.1]
  exact hpath

theorem requestPath_iff {path : Bytes} : RequestPath path ↔ 32 ∉ path := by
  constructor
  . rintro ⟨raw, hok, rfl⟩
    exact notMem_path_of_parse hok
  . intro hpath
    have hparse : parse new ([] ++ 32 :: (path ++ 32 :: ([] ++ (crlf ++ (crlf ++ []))))) HttpRequest.new
        = ⟨.ok true, ⟨.done, []⟩, ⟨[], path, [], fun _ => none, []⟩⟩ := by
      rw [parse_new, finish_of_requestLine (by simp) hpath (by decide), finish_blank]
      exact finish_done _ _
    exact ⟨_, by rw [hparse], by rw [hparse]⟩

end RequestPath

end HttpParser
end LFGateway
