import LFGateway.Http.Lemmas

/-!
This module contains that a parser which gets its input in pieces does the same as one that gets it at
once, wherever the input is cut.
-/

namespace LFGateway

open Foundation

namespace HttpParser

variable {p : Progress} {o : Outcome}

/--
A call behind another one, with the same parser and the same request.
-/
def Outcome.parse (o : Outcome) (data : Bytes) : Outcome := o.parser.parse data o.req

/--
The calls of a fresh parser that gets one piece after the other. A caller that catches what a call
throws may go on.
-/
def calls (chunk : Bytes) (chunks : List Bytes) : List Outcome :=
  chunks.scanl Outcome.parse (HttpParser.new.parse chunk HttpRequest.new)

def Outcome.Throws (o : Outcome) : Prop := ∃ e, o.result = .error e

def Outcome.progress (o : Outcome) : Progress := ⟨o.parser, o.req⟩

theorem Outcome.parse_eq (o : Outcome) (data : Bytes)
    : o.parse data = finish (o.progress.append data) := rfl

theorem progress_of_done (h : iteration p = .done o) : o.progress = p := by
  obtain ⟨⟨state_, buffer_⟩, req⟩ := p
  cases state_ with
  | method | path | version | header | body | done =>
    simp only [iteration] at h
    repeat' split at h
    all_goals first
      | contradiction
      | rw [Iter.done.injEq] at h
        subst h
        rfl

theorem finish_progress_append (p : Progress) (e : Bytes)
    : finish ((finish p).progress.append e) = finish (p.append e) := by
  apply finish_induction (P := fun p o => finish (o.progress.append e) = finish (p.append e))
  . intro p o hdone
    rw [progress_of_done hdone]
  . intro p p' hnext ih
    rw [ih, finish_of_next (iteration_append hnext)]

theorem parse_parse (s e : Bytes)
    : (HttpParser.new.parse s HttpRequest.new).parse e = HttpParser.new.parse (s ++ e) HttpRequest.new := by
  rw [Outcome.parse_eq]
  exact finish_progress_append ⟨⟨.method, s⟩, HttpRequest.new⟩ e

theorem iteration_throws {error : StdException} (h : iteration p = .done o)
    (herror : o.result = .error error) (e : Bytes)
    : iteration (p.append e) = .done (o.append e) := by
  obtain ⟨⟨state_, buffer_⟩, req⟩ := p
  cases state_ with
  | method | path | version | header | done =>
    simp only [iteration] at h
    repeat' split at h
    all_goals first
      | contradiction
      | rw [Iter.done.injEq] at h
        subst h
        contradiction
  | body =>
    simp only [iteration] at h
    split at h
    . contradiction
    . next value hvalue =>
      split at h
      . next error' hstoi =>
        rw [Iter.done.injEq] at h
        subst h
        simp only [iteration, Progress.append, Outcome.append, hvalue, hstoi]
      . split at h
        . rw [Iter.done.injEq] at h
          subst h
          contradiction
        . contradiction

theorem finish_throws (h : (finish p).Throws) (e : Bytes) : (finish (p.append e)).Throws := by
  revert h
  apply finish_induction (P := fun p o => o.Throws → (finish (p.append e)).Throws)
  . rintro p o hdone ⟨error, herror⟩
    rw [finish_of_done (iteration_throws hdone herror e)]
    exact ⟨error, herror⟩
  . intro p p' hnext ih hthrows
    rw [finish_of_next (iteration_append hnext)]
    exact ih hthrows

theorem parse_throws {s : Bytes} (h : (HttpParser.new.parse s HttpRequest.new).Throws) (e : Bytes)
    : (HttpParser.new.parse (s ++ e) HttpRequest.new).Throws :=
  finish_throws (p := ⟨⟨.method, s⟩, HttpRequest.new⟩) h e

theorem calls_cons (chunk next : Bytes) (chunks : List Bytes)
    : calls chunk (next :: chunks)
        =
      HttpParser.new.parse chunk HttpRequest.new :: calls (chunk ++ next) chunks := by
  rw [calls, List.scanl_cons, parse_parse]
  rfl

theorem getLast?_calls (chunk : Bytes) (chunks : List Bytes)
    : (calls chunk chunks).getLast?
        =
      some (HttpParser.new.parse (chunk ++ chunks.flatten) HttpRequest.new) := by
  induction chunks generalizing chunk with
  | nil => simp [calls]
  | cons next chunks ih =>
    rw [calls_cons, List.getLast?_cons, ih, List.flatten_cons, List.append_assoc]
    rfl

theorem exists_throws_calls (chunk : Bytes) (chunks : List Bytes)
    : (∃ o ∈ calls chunk chunks, o.Throws)
        ↔
      (HttpParser.new.parse (chunk ++ chunks.flatten) HttpRequest.new).Throws := by
  induction chunks generalizing chunk with
  | nil => simp [calls]
  | cons next chunks ih =>
    rw [calls_cons, List.exists_mem_cons_iff, ih, List.flatten_cons, List.append_assoc]
    constructor
    . rintro (hfirst | hrest)
      . exact parse_throws hfirst _
      . exact hrest
    . exact .inr

/--
However the input is cut, the last call leaves and returns what a single call on all of it does, and
one of the calls throws exactly if that call does.
-/
theorem calls_eq_parse (chunk : Bytes) (chunks : List Bytes)
    : (calls chunk chunks).getLast?
          = some (HttpParser.new.parse (chunk ++ chunks.flatten) HttpRequest.new)
        ∧
      ((∃ o ∈ calls chunk chunks, o.Throws)
        ↔
      (HttpParser.new.parse (chunk ++ chunks.flatten) HttpRequest.new).Throws) :=
  ⟨getLast?_calls chunk chunks, exists_throws_calls chunk chunks⟩

end HttpParser
end LFGateway
