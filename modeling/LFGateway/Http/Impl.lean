import Mathlib.Logic.Function.Basic
import LFGateway.Foundation.Bytes
import LFGateway.Foundation.Loop

/-!
This module contains `HttpRequest` and `HttpParser`.
-/

namespace LFGateway

open Foundation

def crlf : Bytes := [13, 10]

inductive StdException where
  | invalid_argument
  | out_of_range
  deriving DecidableEq, Repr

/--
`std::isspace` in the "C" locale
-/
def isspace (b : UInt8) : Bool := b = 32 ∨ 9 ≤ b ∧ b ≤ 13

def isdigit (b : UInt8) : Bool := 48 ≤ b ∧ b ≤ 57

/--
An optional sign, and whether it is a minus.
-/
def sign : Bytes → Bool × Bytes
  | 45 :: s => (true, s)
  | 43 :: s => (false, s)
  | s => (false, s)

/--
`std::stoi`: white space, an optional sign and digits, of which there must be one; what follows them
is ignored.
-/
def stoi (s : Bytes) : Except StdException Int :=
  let (negative, s) := sign (s.dropWhile isspace)
  let digits := s.takeWhile isdigit
  if digits = [] then
    .error .invalid_argument
  else
    let n : Int := if negative then -(Bytes.toNat digits) else Bytes.toNat digits
    if -(2 ^ 31) ≤ n ∧ n < 2 ^ 31 then .ok n else .error .out_of_range

/--
`static_cast<size_t>` of an `int`
-/
def sizeT (n : Int) : Nat := (n % 2 ^ 64).toNat

/--
`headers` is an `unordered_map`, which is only ever looked up.
-/
structure HttpRequest where
  method : Bytes
  path : Bytes
  version : Bytes
  headers : Bytes → Option Bytes
  body : Bytes

def HttpRequest.new : HttpRequest := ⟨[], [], [], fun _ => none, []⟩

namespace HttpParser

inductive State where
  | method
  | path
  | version
  | header
  | body
  | done
  deriving DecidableEq, Repr

end HttpParser

structure HttpParser where
  state_ : HttpParser.State
  buffer_ : Bytes
  deriving DecidableEq, Repr

namespace HttpParser

def new : HttpParser := ⟨.method, []⟩

def reset (_ : HttpParser) : HttpParser := ⟨.method, []⟩

/--
What the loop of `parse` works on: the parser and the request it fills in.
-/
structure Progress where
  parser : HttpParser
  req : HttpRequest

/--
How `parse` ends: it returns `result` or throws.
-/
structure Outcome where
  result : Except StdException Bool
  parser : HttpParser
  req : HttpRequest

def POST : Bytes := Bytes.ofAscii "POST"

def contentLength : Bytes := Bytes.ofAscii "Content-Length"

/--
What a header line does to the request; a line without a colon is ignored.
-/
def addHeader (req : HttpRequest) (line : Bytes) : HttpRequest :=
  match line.findByte 58 with
  | none => req
  | some colon =>
    let key := line.take colon
    let value := line.drop (colon + 1)
    let value := if value.head? = some 32 then value.tail else value
    { req with headers := Function.update req.headers key (some value) }

/--
One iteration of the loop in `parse`.
-/
def iteration (p : Progress) : Iter Progress Outcome :=
  let buffer_ := p.parser.buffer_
  let req := p.req
  let return_ (result : Except StdException Bool) := Iter.done ⟨result, p.parser, req⟩
  match p.parser.state_ with
  | .method =>
    match buffer_.findByte 32 with
    | none => return_ (.ok false)
    | some pos => .next ⟨⟨.path, buffer_.drop (pos + 1)⟩, { req with method := buffer_.take pos }⟩
  | .path =>
    match buffer_.findByte 32 with
    | none => return_ (.ok false)
    | some pos => .next ⟨⟨.version, buffer_.drop (pos + 1)⟩, { req with path := buffer_.take pos }⟩
  | .version =>
    match buffer_.find crlf with
    | none => return_ (.ok false)
    | some pos => .next ⟨⟨.header, buffer_.drop (pos + 2)⟩, { req with version := buffer_.take pos }⟩
  | .header =>
    if buffer_.take 2 = crlf then
      .next ⟨⟨if req.method = POST then .body else .done, buffer_.drop 2⟩, req⟩
    else
      match buffer_.find crlf with
      | none => return_ (.ok false)
      | some pos => .next ⟨⟨.header, buffer_.drop (pos + 2)⟩, addHeader req (buffer_.take pos)⟩
  | .body =>
    match req.headers contentLength with
    | none => .next ⟨⟨.done, buffer_⟩, req⟩
    | some value =>
      match stoi value with
      | .error e => return_ (.error e)
      | .ok bodyLen =>
        if buffer_.length < sizeT bodyLen then
          return_ (.ok false)
        else
          .next ⟨⟨.done, buffer_.drop (sizeT bodyLen)⟩, { req with body := buffer_.take (sizeT bodyLen) }⟩
  | .done => return_ (.ok true)

/--
Every iteration takes bytes off the buffer, but for the one that leaves `BODY`.
-/
def measure (p : Progress) : Nat :=
  p.parser.buffer_.length + if p.parser.state_ = .body then 1 else 0

theorem iteration_decreases : Decreases iteration measure := by
  intro p p' h
  obtain ⟨⟨state_, buffer_⟩, req⟩ := p
  unfold measure
  cases state_ with
  | method | path =>
    simp only [iteration] at h
    split at h
    . contradiction
    . next pos hpos =>
      have hlt := Bytes.findByte_lt_length hpos
      rw [Iter.next.injEq] at h
      subst h
      simp
      omega
  | version =>
    simp only [iteration] at h
    split at h
    . contradiction
    . next pos hpos =>
      have hle : pos + 2 ≤ buffer_.length := Bytes.find_le_length hpos
      rw [Iter.next.injEq] at h
      subst h
      simp
      omega
  | header =>
    simp only [iteration] at h
    split at h
    . next hblank =>
      have hlength := congrArg List.length hblank
      rw [List.length_take, crlf, List.length_cons, List.length_singleton] at hlength
      rw [Iter.next.injEq] at h
      subst h
      simp
      split <;> omega
    . split at h
      . contradiction
      . next pos hpos =>
        have hle : pos + 2 ≤ buffer_.length := Bytes.find_le_length hpos
        rw [Iter.next.injEq] at h
        subst h
        simp
        omega
  | body =>
    simp only [iteration] at h
    split at h
    . rw [Iter.next.injEq] at h
      subst h
      simp
    . split at h
      . contradiction
      . split at h
        . contradiction
        . rw [Iter.next.injEq] at h
          subst h
          simp
  | done =>
    simp only [iteration] at h
    contradiction

def parse (parser : HttpParser) (data : Bytes) (req : HttpRequest) : Outcome :=
  loop iteration measure iteration_decreases
    ⟨{ parser with buffer_ := parser.buffer_ ++ data }, req⟩

end HttpParser
end LFGateway
