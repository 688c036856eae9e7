import LFGateway.Http.Lemmas

/-!
This module contains well-formed HTTP requests as a client writes them, and that `parse` reads such a
request back from its text.
-/

namespace LFGateway

open Foundation

/--
`value` is the decimal number `n` with white space around it.
-/
def IsLength (value : Bytes) (n : Nat) : Prop :=
  ∃ lead digits trail, value = lead ++ (digits ++ trail) ∧ digits ≠ [] ∧ digits.toNat = n ∧
    (∀ b ∈ lead, isspace b = true) ∧ (∀ b ∈ digits, isdigit b = true) ∧
    (∀ b ∈ trail, isspace b = true)

theorem not_isdigit_of_isspace {b : UInt8} (h : isspace b = true) : isdigit b = false := by
  simp only [isspace, isdigit, decide_eq_true_eq, decide_eq_false_iff_not, UInt8.le_iff_toNat_le]
    at h ⊢
  rintro ⟨hlow, _⟩
  cases h with
  | inl heq =>
    subst heq
    contradiction
  | inr hrange =>
    have h9 : (13 : UInt8).toNat = 13 := rfl
    have h48 : (48 : UInt8).toNat = 48 := rfl
    omega

theorem sign_of_isdigit {d : UInt8} {s : Bytes} (h : isdigit d = true)
    : sign (d :: s) = (false, d :: s) := by
  unfold sign
  split
  . next heq =>
    rw [List.cons.injEq] at heq
    rw [heq.1] at h
    contradiction
  . next heq =>
    rw [List.cons.injEq] at heq
    rw [heq.1] at h
    contradiction
  . rfl

theorem takeWhile_isdigit {digits trail : Bytes} (hdigits : ∀ b ∈ digits, isdigit b = true)
    (htrail : ∀ b ∈ trail, isspace b = true) : (digits ++ trail).takeWhile isdigit = digits := by
  rw [List.takeWhile_append_of_pos hdigits]
  cases trail with
  | nil => simp
  | cons b trail =>
    rw [List.takeWhile_cons_of_neg, List.append_nil]
    rw [not_isdigit_of_isspace (htrail b List.mem_cons_self)]
    simp

theorem stoi_eq_of_isLength {value : Bytes} {n : Nat} (h : IsLength value n)
    : stoi value = if n < 2 ^ 31 then .ok (n : Int) else .error .out_of_range := by
  obtain ⟨lead, digits, trail, rfl, hne, hnat, hlead, hdigits, htrail⟩ := h
  cases digits with
  | nil => contradiction
  | cons d digits =>
    have hd : isdigit d = true := hdigits d List.mem_cons_self
    have hspace : isspace d = false := by
      by_contra hspace
      rw [Bool.not_eq_false] at hspace
      rw [not_isdigit_of_isspace hspace] at hd
      contradiction
    have hstripped : (lead ++ (d :: digits ++ trail)).dropWhile isspace = d :: (digits ++ trail) := by
      rw [List.dropWhile_append_of_pos hlead, List.cons_append, List.dropWhile_cons_of_neg]
      simp [hspace]
    unfold stoi
    rw [hstripped, sign_of_isdigit hd]
    dsimp only
    rw [← List.cons_append, takeWhile_isdigit hdigits htrail, hnat, if_neg hne]
    have hrange : (-(2 ^ 31) ≤ (n : Int) ∧ (n : Int) < 2 ^ 31) ↔ n < 2 ^ 31 := by omega
    simp only [Bool.false_eq_true, ↓reduceIte, hrange]

theorem stoi_digits {digits : Bytes} (hne : digits ≠ []) (hdigits : ∀ b ∈ digits, isdigit b = true)
    : stoi digits = if digits.toNat < 2 ^ 31 then .ok (digits.toNat : Int) else .error .out_of_range :=
  stoi_eq_of_isLength ⟨[], digits, [], by simp, hne, rfl, by simp, hdigits, by simp⟩

theorem stoi_of_isLength {value : Bytes} {n : Nat} (h : IsLength value n) (hn : n < 2 ^ 31)
    : stoi value = .ok n := by
  rw [stoi_eq_of_isLength h, if_pos hn]

theorem isdigit_of_mem_ofNat {b : UInt8} {n : Nat} (h : b ∈ Bytes.ofNat n) : isdigit b = true := by
  obtain ⟨d, hd, rfl⟩ := Bytes.exists_digit_of_mem_ofNat h
  have hnat := Bytes.toNat_digit hd
  have h48 : (48 : UInt8).toNat = 48 := rfl
  have h57 : (57 : UInt8).toNat = 57 := rfl
  simp only [isdigit, decide_eq_true_eq, UInt8.le_iff_toNat_le]
  omega

theorem stoi_ofInt {n : Int} (hlow : -(2 ^ 31) ≤ n) (hhigh : n < 2 ^ 31)
    : stoi (Bytes.ofInt n) = .ok n := by
  cases n with
  | ofNat n =>
    apply stoi_of_isLength
    . exact ⟨[], Bytes.ofNat n, [], by simp [Bytes.ofInt], Bytes.ofNat_ne_nil n, Bytes.toNat_ofNat n,
        by simp, fun b hb => isdigit_of_mem_ofNat hb, by simp⟩
    . have := hhigh
      simp only [Int.ofNat_eq_natCast] at this
      omega
  | negSucc n =>
    have hdigits : (Bytes.ofNat (n + 1)).takeWhile isdigit = Bytes.ofNat (n + 1) := by
      rw [List.takeWhile_eq_self_iff]
      exact fun b hb => isdigit_of_mem_ofNat hb
    have hminus : (45 :: Bytes.ofNat (n + 1)).dropWhile isspace = 45 :: Bytes.ofNat (n + 1) := rfl
    have hsign : sign (45 :: Bytes.ofNat (n + 1)) = (true, Bytes.ofNat (n + 1)) := rfl
    unfold stoi Bytes.ofInt
    rw [hminus, hsign]
    dsimp only
    rw [hdigits, if_neg (Bytes.ofNat_ne_nil _), Bytes.toNat_ofNat]
    rw [Int.negSucc_eq] at hlow hhigh ⊢
    simp
    omega

theorem sizeT_of_lt {n : Nat} (h : n < 2 ^ 31) : sizeT (n : Int) = n := by
  unfold sizeT
  omega

theorem range_of_stoi {value : Bytes} {n : Int} (h : stoi value = .ok n) : -(2 ^ 31) ≤ n ∧ n < 2 ^ 31 := by
  simp only [stoi] at h
  generalize (if (sign (value.dropWhile isspace)).1 = true then _ else _ : Int) = m at h
  split at h
  . contradiction
  . split at h
    . next hrange =>
      rw [Except.ok.injEq] at h
      rwa [← h]
    . contradiction

def fieldValue (raw : Bytes) : Bytes := if raw.head? = some 32 then raw.tail else raw

def headersOf (headers : Bytes → Option Bytes) (fields : List (Bytes × Bytes)) : Bytes → Option Bytes :=
  fields.foldl (fun headers field => Function.update headers field.1 (some (fieldValue field.2))) headers

/--
A well-formed request. A field is a name and what stands behind the colon. Where the method is `POST`
and there is a `Content-Length`, it is the length of the body.
-/
structure Message where
  method : Bytes
  path : Bytes
  version : Bytes
  fields : List (Bytes × Bytes)
  body : Bytes
  method_clean : 32 ∉ method ∧ 10 ∉ method
  path_clean : 32 ∉ path ∧ 10 ∉ path
  version_clean : 10 ∉ version
  fields_clean : ∀ field ∈ fields, 58 ∉ field.1 ∧ 10 ∉ field.1 ∧ 10 ∉ field.2
  framed : method = HttpParser.POST →
    ∀ value, headersOf (fun _ => none) fields HttpParser.contentLength = some value →
      IsLength value body.length

namespace Message

def headers (m : Message) : Bytes → Option Bytes := headersOf (fun _ => none) m.fields

def fieldLine (field : Bytes × Bytes) : Bytes := field.1 ++ 58 :: field.2

def text (m : Message) : Bytes :=
  m.method ++ 32 :: (m.path ++ 32 :: (m.version ++ (crlf ++
    (m.fields.flatMap (fun field => fieldLine field ++ crlf) ++ (crlf ++ m.body)))))

/--
The gateway reads a body if the method is `POST` and the length is given.
-/
def HasBody (m : Message) : Prop :=
  m.method = HttpParser.POST ∧ m.headers HttpParser.contentLength ≠ none

instance (m : Message) : Decidable m.HasBody :=
  inferInstanceAs (Decidable (_ ∧ m.headers HttpParser.contentLength ≠ none))

def request (m : Message) : HttpRequest :=
  ⟨m.method, m.path, m.version, m.headers, if m.HasBody then m.body else []⟩

def unread (m : Message) : Bytes := if m.HasBody then [] else m.body

end Message

namespace HttpParser

variable {b t : Bytes} {req : HttpRequest}

theorem find_crlf_append (h : 10 ∉ b) : Bytes.find (b ++ (crlf ++ t)) crlf = some b.length := by
  induction b with
  | nil =>
    apply Bytes.find_of_prefix
    exact List.prefix_append _ _
  | cons x b ih =>
    rw [List.mem_cons, not_or] at h
    rw [List.cons_append, Bytes.find_cons_of_not_prefix]
    . rw [ih h.2]
      rfl
    . -- the second byte of the pattern is the one that `b` does not have
      intro hprefix
      rw [crlf, List.cons_prefix_cons] at hprefix
      cases b with
      | nil =>
        simp at hprefix
      | cons y b =>
        rw [List.mem_cons, not_or] at h
        rw [List.cons_append, List.cons_prefix_cons] at hprefix
        exact h.2.1 hprefix.2.1

theorem isLine_of_notMem (h : 10 ∉ b) : IsLine b := by
  have hfind := find_crlf_append (t := []) h
  rwa [List.append_nil] at hfind

theorem addHeader_fieldLine {field : Bytes × Bytes} (h : 58 ∉ field.1)
    : addHeader req (Message.fieldLine field)
        =
      { req with headers := Function.update req.headers field.1 (some (fieldValue field.2)) } := by
  obtain ⟨htake, hdrop⟩ := take_append_cons field.1 field.2 58
  have hcolon : (Message.fieldLine field).findByte 58 = some field.1.length :=
    Bytes.findByte_append_cons h
  simp only [addHeader, hcolon]
  rw [Message.fieldLine, htake, hdrop]
  rfl

theorem take_two_fieldLine {field : Bytes × Bytes} (h : 10 ∉ field.1 ∧ 10 ∉ field.2)
    : (Message.fieldLine field ++ (crlf ++ t)).take 2 ≠ crlf := by
  intro heq
  have hmem : 10 ∉ Message.fieldLine field := by
    unfold Message.fieldLine
    rw [List.mem_append, List.mem_cons, not_or, not_or]
    exact ⟨h.1, by decide, h.2⟩
  have hfind := find_crlf_append (t := t) hmem
  have hzero : Bytes.find (Message.fieldLine field ++ (crlf ++ t)) crlf = some 0 := by
    apply Bytes.find_of_prefix
    have hprefix := List.take_prefix 2 (Message.fieldLine field ++ (crlf ++ t))
    rw [heq] at hprefix
    exact hprefix
  rw [hzero, Option.some.injEq] at hfind
  simp [Message.fieldLine] at hfind

theorem finish_fields {fields : List (Bytes × Bytes)}
    (h : ∀ field ∈ fields, 58 ∉ field.1 ∧ 10 ∉ field.1 ∧ 10 ∉ field.2)
    : finish ⟨⟨.header, fields.flatMap (fun field => Message.fieldLine field ++ crlf) ++ t⟩, req⟩
        =
      finish ⟨⟨.header, t⟩, { req with headers := headersOf req.headers fields }⟩ := by
  induction fields generalizing req with
  | nil => rfl
  | cons field fields ih =>
    obtain ⟨hcolon, hname, hvalue⟩ := h field List.mem_cons_self
    have hrest := fun f hf => h f (List.mem_cons_of_mem _ hf)
    have hline : 10 ∉ Message.fieldLine field := by
      unfold Message.fieldLine
      rw [List.mem_append, List.mem_cons, not_or, not_or]
      exact ⟨hname, by decide, hvalue⟩
    rw [List.flatMap_cons, List.append_assoc, List.append_assoc]
    have hblank := take_two_fieldLine (t := fields.flatMap
      (fun field => Message.fieldLine field ++ crlf) ++ t) ⟨hname, hvalue⟩
    have hfind := find_crlf_append (t := fields.flatMap
      (fun field => Message.fieldLine field ++ crlf) ++ t) hline
    obtain ⟨htake, hdrop⟩ := take_append_crlf (Message.fieldLine field)
      (fields.flatMap (fun field => Message.fieldLine field ++ crlf) ++ t)
    rw [finish_of_next (q := ⟨⟨.header, _⟩, addHeader req (Message.fieldLine field)⟩)
      (by simp only [iteration, hblank, hfind, htake, hdrop, ↓reduceIte]; rfl)]
    rw [ih hrest, addHeader_fieldLine hcolon]
    rfl

theorem finish_bad_length {value : Bytes} {e : StdException}
    (hlength : req.headers contentLength = some value) (he : stoi value = .error e)
    : finish ⟨⟨.body, b⟩, req⟩ = ⟨.error e, ⟨.body, b⟩, req⟩ :=
  finish_of_done (by simp only [iteration, hlength, he])

theorem finish_short {value : Bytes} {n : Int} (hlength : req.headers contentLength = some value)
    (hn : stoi value = .ok n) (hshort : b.length < sizeT n)
    : finish ⟨⟨.body, b⟩, req⟩ = ⟨.ok false, ⟨.body, b⟩, req⟩ :=
  finish_of_done (by simp only [iteration, hlength, hn, hshort, ↓reduceIte])

theorem finish_with_length {value : Bytes} {n : Int} (hlength : req.headers contentLength = some value)
    (hn : stoi value = .ok n) (henough : ¬b.length < sizeT n)
    : finish ⟨⟨.body, b⟩, req⟩
        =
      ⟨.ok true, ⟨.done, b.drop (sizeT n)⟩, { req with body := b.take (sizeT n) }⟩ := by
  rw [finish_of_next (q := ⟨⟨.done, b.drop (sizeT n)⟩, { req with body := b.take (sizeT n) }⟩)
    (by simp only [iteration, hlength, hn, henough, ↓reduceIte])]
  exact finish_done _ _

theorem finish_content {n : Nat} (h : ∃ value, req.headers contentLength = some value ∧ IsLength value n)
    (hn : n < 2 ^ 31) (hlength : b.length = n)
    : finish ⟨⟨.body, b⟩, req⟩ = ⟨.ok true, ⟨.done, []⟩, { req with body := b }⟩ := by
  obtain ⟨value, hvalue, his⟩ := h
  have hsize := sizeT_of_lt hn
  rw [finish_with_length hvalue (stoi_of_isLength his hn) (by omega), hsize, ← hlength, List.drop_length,
    List.take_length]

theorem finish_without_length (h : req.headers contentLength = none)
    : finish ⟨⟨.body, b⟩, req⟩ = ⟨.ok true, ⟨.done, b⟩, req⟩ := by
  rw [finish_of_next (q := ⟨⟨.done, b⟩, req⟩) (by simp only [iteration, h])]
  exact finish_done _ _

theorem parse_text (m : Message) (h : m.HasBody → m.body.length < 2 ^ 31)
    : parse new m.text HttpRequest.new = ⟨.ok true, ⟨.done, m.unread⟩, m.request⟩ := by
  rw [parse_new]
  unfold Message.text
  rw [finish_of_requestLine m.method_clean.1 m.path_clean.1 (isLine_of_notMem m.version_clean)]
  rw [finish_fields m.fields_clean, finish_blank]
  dsimp only
  by_cases hpost : m.method = POST
  . rw [if_pos hpost]
    cases hlength : m.headers contentLength with
    | none =>
      have hbody : ¬m.HasBody := fun hbody => hbody.2 hlength
      rw [finish_without_length hlength]
      unfold Message.unread Message.request
      rw [if_neg hbody, if_neg hbody]
      rfl
    | some value =>
      have hbody : m.HasBody := ⟨hpost, by simp [hlength]⟩
      rw [finish_content ⟨value, hlength, m.framed hpost value hlength⟩ (h hbody) rfl]
      unfold Message.unread Message.request
      rw [if_pos hbody, if_pos hbody]
      rfl
  . have hbody : ¬m.HasBody := fun hbody => hpost hbody.1
    rw [if_neg hpost, finish_done]
    unfold Message.unread Message.request
    rw [if_neg hbody, if_neg hbody]
    rfl

end HttpParser
end LFGateway
