import LFGateway.Http.Errors

/-!
This module contains where the parts of a request line come from. The parser looks for the spaces
between them in all that it has, and only the end of the version is a line break to it.
-/

namespace LFGateway

open Foundation

namespace HttpParser

variable {raw : Bytes} {req : HttpRequest}

def firstLine (raw : Bytes) : Bytes :=
  match raw.find crlf with
  | some pos => raw.take pos
  | none => raw

/--
The text is a line, more lines, a blank one and `rest`. The request has the three parts of the first
line and the headers of the others.
-/
structure FromLines (raw : Bytes) (req : HttpRequest) (lines : List Bytes) (rest : Bytes) : Prop where
  text : raw = firstLine raw ++ (crlf ++ (headerText lines ++ (crlf ++ rest)))
  isLine : ∀ line ∈ lines, IsLine line
  parts : firstLine raw = req.method ++ 32 :: (req.path ++ 32 :: req.version)
  method : 32 ∉ req.method
  path : 32 ∉ req.path
  headers : req.headers = headerOf lines

def OnOneLine (raw : Bytes) (req : HttpRequest) : Prop := ∃ lines rest, FromLines raw req lines rest

theorem two_le_of_onOneLine (h : OnOneLine raw req) : 2 ≤ (firstLine raw).count 32 := by
  obtain ⟨lines, rest, hlines⟩ := h
  rw [hlines.parts, List.count_append, List.count_cons_self, List.count_append, List.count_cons_self]
  omega

theorem body_foldl (req : HttpRequest) (lines : List Bytes)
    : (lines.foldl addHeader req).body = req.body := by
  induction lines generalizing req with
  | nil => rfl
  | cons line lines ih =>
    rw [List.foldl_cons, ih]
    exact (addHeader_line req line).2.2.2

theorem exists_headerText {b : Bytes} (hheaders : req.headers = HttpRequest.new.headers)
    (hbody : req.body = []) (h : (finish ⟨⟨.header, b⟩, req⟩).result = .ok true)
    : ∃ lines rest, b = headerText lines ++ (crlf ++ rest) ∧ (∀ line ∈ lines, IsLine line) ∧
        (finish ⟨⟨.header, b⟩, req⟩).req.headers = headerOf lines := by
  obtain ⟨lines, rest, hb, hlines, heq⟩ :=
    exists_lines (p := ⟨⟨.header, b⟩, req⟩) rfl (.of_ne (ne_of_eq_of_ne h (by simp)))
  refine ⟨lines, rest, hb, fun line hline => (hlines line hline).2, ?_⟩
  have hkept : headerOf lines = (lines.foldl addHeader req).headers := by
    funext name
    exact headerOf_eq hheaders lines name
  rw [heq] at h ⊢
  rw [hkept]
  split at h
  . next hpost =>
    obtain ⟨n, hn⟩ := finish_body ((body_foldl req lines).trans hbody) h
    rw [if_pos hpost, hn]
  . next hpost => rw [if_neg hpost, finish_done]

/--
With two spaces before the first line break, that line break ends the version.
-/
theorem find_crlf_of_two_le {method path version rest : Bytes} (hmethod : 32 ∉ method)
    (hpath : 32 ∉ path) (hversion : IsLine version)
    (htext : raw = method ++ 32 :: (path ++ 32 :: (version ++ (crlf ++ rest))))
    (h : 2 ≤ (firstLine raw).count 32)
    : raw.find crlf = some (method ++ 32 :: (path ++ 32 :: version)).length := by
  obtain ⟨parts, hparts⟩ : ∃ parts, parts = method ++ 32 :: path := ⟨_, rfl⟩
  have hone : parts.count 32 = 1 := by
    rw [hparts, List.count_append, List.count_cons_self, List.count_eq_zero.mpr hmethod,
      List.count_eq_zero.mpr hpath]
  have hsplit : raw = (parts ++ 32 :: version) ++ (crlf ++ rest) := by
    rw [htext, hparts]
    simp
  obtain ⟨pos, _, hpos⟩ := Bytes.exists_find_le (parts ++ 32 :: version) rest crlf
  rw [← hsplit] at hpos
  rw [firstLine, hpos] at h
  dsimp only at h
  have hle : (parts ++ [32]).length ≤ pos := by
    by_contra hlt
    rw [List.length_append, List.length_singleton] at hlt
    have htake : raw.take pos = parts.take pos := by
      rw [hsplit, List.append_assoc]
      exact List.take_append_of_le_length (by omega)
    have hcount := (List.take_sublist pos parts).count_le 32
    rw [htake] at h
    omega
  have hrest : Bytes.find (version ++ (crlf ++ rest)) crlf = some (pos - (parts ++ [32]).length) := by
    apply Bytes.find_of_find_append _ hle
    rw [← hpos, hsplit]
    simp
  rw [hversion.find, Option.some.injEq] at hrest
  rw [hpos, Option.some.injEq]
  simp only [hparts, List.length_append, List.length_cons, List.length_nil] at hle hrest ⊢
  omega

/--
A request that the parser accepts has its parts from the first line, and its headers from later ones,
exactly if two spaces stand before the first line break.
-/
theorem onOneLine_iff (raw : Bytes) (h : (parse new raw HttpRequest.new).result = .ok true)
    : OnOneLine raw (parse new raw HttpRequest.new).req ↔ 2 ≤ (firstLine raw).count 32 := by
  refine ⟨two_le_of_onOneLine, fun hspaces => ?_⟩
  rw [parse_new] at h ⊢
  obtain ⟨method, path, version, rest, hraw, hmethod, hpath, hversion, heq⟩ :=
    finish_requestLine (.of_ne (ne_of_eq_of_ne h (by simp)))
  rw [heq] at h ⊢
  have hfind := find_crlf_of_two_le hmethod hpath hversion hraw hspaces
  have hline : firstLine raw = method ++ 32 :: (path ++ 32 :: version) := by
    rw [firstLine, hfind]
    dsimp only
    have hsplit : raw = (method ++ 32 :: (path ++ 32 :: version)) ++ (crlf ++ rest) := by
      rw [hraw]
      simp
    conv => lhs; rw [hsplit]
    exact List.take_left
  obtain ⟨hm, hp, hv⟩ := (headers_of_accepted (by rfl) (by rfl) h).line
  obtain ⟨lines, tail, hrest, hlines, hheaders⟩ := exists_headerText (by rfl) (by rfl) h
  refine ⟨lines, tail, ?_, hlines, ?_, ?_, ?_, hheaders⟩
  . rw [hline, ← hrest, hraw]
    simp
  . rw [hline, hm, hp, hv]
  . rw [hm]
    exact hmethod
  . rw [hp]
    exact hpath

def getRoot : Bytes := Bytes.ofAscii "GET / HTTP/1.1\r\nHost: a\r\n\r\n"

theorem onOneLine_iff_getRoot
    : OnOneLine getRoot (parse new getRoot HttpRequest.new).req :=
  (onOneLine_iff getRoot (by decide)).mpr (by decide)

/--
Without a version, the path goes on to the first space of a header.
-/
def noVersion : Bytes := Bytes.ofAscii "GET /\r\nHost: a b\r\n\r\n"

theorem not_onOneLine_noVersion
    : (parse new noVersion HttpRequest.new).result = .ok true ∧
        ¬OnOneLine noVersion (parse new noVersion HttpRequest.new).req := by
  refine ⟨by decide, fun h => ?_⟩
  have hspaces := two_le_of_onOneLine h
  have hnone : (firstLine noVersion).count 32 = 1 := by decide
  omega

end HttpParser
end LFGateway
