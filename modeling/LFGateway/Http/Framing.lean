import Mathlib.Data.List.Forall2
import LFGateway.Http.Message

/-!
This module contains how the requests on a connection meet the reads they arrive in. Every read
becomes a task with a parser of its own, and nothing is kept from one read to the next.
-/

namespace LFGateway

open Foundation

/--
The task that was enqueued with `raw` gets request `m`: it accepts, and has parsed what `m` says.
-/
def Gets (raw : Bytes) (m : Message) : Prop :=
  let parsed := HttpParser.parse HttpParser.new raw HttpRequest.new
  parsed.result = .ok true ∧ parsed.req = m.request

namespace Message

variable {m : Message} {raw x y : Bytes}

/--
No field name is repeated and no body is left unread.
-/
def Plain (m : Message) : Prop := (m.fields.map Prod.fst).Nodup ∧ m.unread = []

theorem headersOf_of_notMem (headers : Bytes → Option Bytes) {fields : List (Bytes × Bytes)}
    {name : Bytes} (h : name ∉ fields.map Prod.fst) : headersOf headers fields name = headers name := by
  induction fields generalizing headers with
  | nil => rfl
  | cons field fields ih =>
    rw [List.map_cons, List.mem_cons, not_or] at h
    unfold headersOf at ih ⊢
    rw [List.foldl_cons, ih _ h.2, Function.update_of_ne h.1]

theorem headersOf_ne_none {headers : Bytes → Option Bytes} {fields : List (Bytes × Bytes)}
    {name : Bytes} (h : name ∈ fields.map Prod.fst) : headersOf headers fields name ≠ none := by
  induction fields generalizing headers with
  | nil => simp at h
  | cons field fields ih =>
    by_cases hmem : name ∈ fields.map Prod.fst
    . exact ih hmem
    . rw [List.map_cons, List.mem_cons] at h
      have heq := h.resolve_right hmem
      subst heq
      have hrest := headersOf_of_notMem (Function.update headers field.1
        (some (fieldValue field.2))) hmem
      unfold headersOf at hrest ⊢
      rw [List.foldl_cons, hrest]
      simp

theorem body_of_plain (h : m.Plain) : m.request.body = m.body := by
  have hunread := h.2
  unfold unread at hunread
  unfold request
  split
  . rfl
  . next hbody =>
    rw [if_neg hbody] at hunread
    exact hunread.symm

def line (m : Message) : Bytes := m.method ++ 32 :: (m.path ++ 32 :: (m.version ++ [13]))

theorem notMem_line (m : Message) : 10 ∉ m.line := by
  unfold line
  simp [m.method_clean.2, m.path_clean.2, m.version_clean]

theorem text_eq (m : Message)
    : m.text = m.line ++ 10 ::
        (m.fields.flatMap (fun field => fieldLine field ++ crlf) ++ (crlf ++ m.body)) := by
  simp [text, line, crlf]

theorem count_fields {fields : List (Bytes × Bytes)}
    (h : ∀ field ∈ fields, 58 ∉ field.1 ∧ 10 ∉ field.1 ∧ 10 ∉ field.2)
    : (fields.flatMap (fun field => fieldLine field ++ crlf)).count 10 = fields.length := by
  induction fields with
  | nil => rfl
  | cons field fields ih =>
    obtain ⟨_, hname, hvalue⟩ := h field List.mem_cons_self
    have hline : (fieldLine field).count 10 = 0 := by
      rw [List.count_eq_zero, fieldLine, List.mem_append, List.mem_cons, not_or, not_or]
      exact ⟨hname, by decide, hvalue⟩
    have hcrlf : crlf.count 10 = 1 := by decide
    rw [List.flatMap_cons, List.count_append, List.count_append, hline, hcrlf,
      ih fun f hf => h f (List.mem_cons_of_mem _ hf), List.length_cons]
    omega

theorem count_text (m : Message) : m.text.count 10 = m.fields.length + 2 + m.body.count 10 := by
  have hline : m.line.count 10 = 0 := List.count_eq_zero.mpr m.notMem_line
  have hcrlf : crlf.count 10 = 1 := by decide
  rw [text_eq, List.count_append, List.count_cons_self, List.count_append, List.count_append, hline,
    hcrlf, count_fields m.fields_clean]
  omega

/--
A task cannot get a plain request from the inside of its text: all line feeds are needed, so only
bytes of the first line could be missing, and the request line shows that none is.
-/
theorem eq_nil_of_gets_inside (hplain : m.Plain) (h : Gets raw m) (heq : x ++ (raw ++ y) = m.text)
    : x = [] := by
  have haccepted := HttpParser.accepted_of_parse h.1
  rw [h.2] at haccepted
  have hneeded := haccepted.count (m.fields.map Prod.fst) hplain.1
    (fun name hname => headersOf_ne_none hname)
  have htotal := count_text m
  rw [body_of_plain hplain, List.length_map] at hneeded
  rw [← heq, List.count_append, List.count_append] at htotal
  have hx : 10 ∉ x := List.count_eq_zero.mp (by omega)
  obtain ⟨rest, hraw⟩ := haccepted.line
  have hraw' : raw = m.line ++ 10 :: rest := by
    rw [hraw]
    simp [line, crlf, request]
  have hlong : 10 ∉ x ++ m.line := by
    rw [List.mem_append, not_or]
    exact ⟨hx, m.notMem_line⟩
  have hfirst := Bytes.findByte_append_cons (t := rest ++ y) hlong
  have hsame : x ++ m.line ++ 10 :: (rest ++ y) = m.text := by
    rw [← heq, hraw']
    simp
  rw [hsame, text_eq, Bytes.findByte_append_cons m.notMem_line, Option.some.injEq,
    List.length_append] at hfirst
  exact List.eq_nil_of_length_eq_zero (by omega)

theorem eq_nil_of_gets_prefix (hplain : m.Plain) (h : Gets raw m) (hlength : raw.length ≤ 65536)
    (heq : raw ++ y = m.text) : y = [] := by
  have haccepted := HttpParser.accepted_of_parse h.1
  rw [h.2] at haccepted
  have hbody : m.body.length < 2 ^ 31 := by
    have hle := haccepted.length
    rw [body_of_plain hplain] at hle
    omega
  have hwhole := HttpParser.parse_text m (fun _ => hbody)
  have hmore := HttpParser.finish_append h.1 y
  have hstart : HttpParser.parse HttpParser.new m.text HttpRequest.new
      = (HttpParser.parse HttpParser.new raw HttpRequest.new).append y := by
    rw [← heq]
    exact hmore
  rw [hstart] at hwhole
  have hbuffer := congrArg (fun o => o.parser.buffer_) hwhole
  simp only [HttpParser.Outcome.append, hplain.2] at hbuffer
  exact (List.append_eq_nil_iff.mp hbuffer).2

theorem gets_text (hlength : m.text.length ≤ 65536) : Gets m.text m := by
  have hparse := HttpParser.parse_text m (fun _ => by
    have hle : m.body.length ≤ m.text.length := by
      unfold text
      simp only [List.length_append, List.length_cons]
      omega
    omega)
  unfold Gets
  rw [hparse]
  exact ⟨rfl, rfl⟩

/--
Once a read has run into the next request, the tasks never get back in step.
-/
theorem ahead {raws : List Bytes} {messages : List Message} (h : List.Forall₂ Gets raws messages)
    (hplain : ∀ m ∈ messages, m.Plain) (hx : x ≠ [])
    : x ++ raws.flatten ≠ (messages.map text).flatten := by
  induction h generalizing x with
  | nil => simpa using hx
  | @cons raw m raws messages hgets _ ih =>
    intro heq
    have hm := hplain m List.mem_cons_self
    rw [List.flatten_cons, List.map_cons, List.flatten_cons, ← List.append_assoc] at heq
    rw [List.append_eq_append_iff] at heq
    rcases heq with ⟨y, htext, _⟩ | ⟨y, hraw, hrest⟩
    . rw [List.append_assoc] at htext
      exact hx (eq_nil_of_gets_inside hm hgets htext.symm)
    . by_cases hy : y = []
      . subst hy
        rw [List.append_nil] at hraw
        apply hx
        apply eq_nil_of_gets_inside hm hgets (y := [])
        rw [List.append_nil, hraw]
      . exact ih (fun m hm => hplain m (List.mem_cons_of_mem _ hm)) hy hrest.symm

theorem eq_texts_of_gets {raws : List Bytes} {messages : List Message}
    (h : List.Forall₂ Gets raws messages) (hplain : ∀ m ∈ messages, m.Plain)
    (hlength : ∀ raw ∈ raws, raw.length ≤ 65536)
    (heq : raws.flatten = (messages.map text).flatten) : raws = messages.map text := by
  induction h with
  | nil => rfl
  | @cons raw m raws messages hgets hrest ih =>
    have hm := hplain m List.mem_cons_self
    have hplain' := fun m hm => hplain m (List.mem_cons_of_mem _ hm)
    have hraw := hlength raw List.mem_cons_self
    have hstep : raw = m.text := by
      rw [List.flatten_cons, List.map_cons, List.flatten_cons, List.append_eq_append_iff] at heq
      rcases heq with ⟨y, htext, _⟩ | ⟨y, hover, hahead⟩
      . rw [htext, eq_nil_of_gets_prefix hm hgets hraw htext.symm, List.append_nil]
      . by_cases hy : y = []
        . rw [hover, hy, List.append_nil]
        . exact absurd hahead.symm (ahead hrest hplain' hy)
    rw [List.flatten_cons, List.map_cons, List.flatten_cons, hstep, List.append_cancel_left_eq] at heq
    rw [List.map_cons, hstep,
      ih hplain' (fun raw hraw => hlength raw (List.mem_cons_of_mem _ hraw)) heq]

theorem gets_texts {messages : List Message} (hlength : ∀ m ∈ messages, m.text.length ≤ 65536)
    : List.Forall₂ Gets (messages.map text) messages := by
  induction messages with
  | nil => exact .nil
  | cons m messages ih =>
    exact .cons (gets_text (hlength m List.mem_cons_self))
      (ih fun m hm => hlength m (List.mem_cons_of_mem _ hm))

end Message

end LFGateway
