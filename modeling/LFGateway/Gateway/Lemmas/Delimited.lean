import LFGateway.Foundation.Delimited
import LFGateway.Gateway.Impl.Api
import LFGateway.Http.Message

/-!
This module contains a client that reads responses from a connection that stays open, and that it finds
out of the answers of the gateway what each of them was, whatever bytes their bodies have.
-/

namespace LFGateway

open Foundation

namespace Client

/--
The lines in front of the first blank line, without the CRLF behind each, and what is behind the blank
line.
-/
def readHead (s : Bytes) : Option (List Bytes × Bytes) :=
  match _hfind : s.find crlf with
  | none => none
  | some 0 => some ([], s.drop 2)
  | some (n + 1) =>
    match readHead (s.drop (n + 3)) with
    | none => none
    | some (lines, rest) => some (s.take (n + 1) :: lines, rest)
termination_by s.length
decreasing_by
  have hle := Bytes.find_le_length _hfind
  rw [List.length_drop]
  omega

def decimal (s : Bytes) : Option Nat := if s ≠ [] ∧ s.all isdigit then some s.toNat else none

def statusCode (line : Bytes) : Option Nat :=
  decimal (((line.dropWhile (· != 32)).drop 1).takeWhile (· != 32))

def fieldValue (name line : Bytes) : Option Bytes :=
  if name ++ [58] <+: line then some ((line.drop (name.length + 1)).dropWhile (· == 32)) else none

/--
A status code and a body that is as long as `Content-Length` says.
-/
def readResponse (s : Bytes) : Option ((Nat × Bytes) × Bytes) := do
  let (lines, rest) ← readHead s
  let code ← lines.head?.bind statusCode
  let length ← (lines.tail.findSome? (fieldValue HttpParser.contentLength)).bind decimal
  if length ≤ rest.length then some ((code, rest.take length), rest.drop length) else none

theorem readHead_of_find {s : Bytes} {n : Nat} (h : s.find crlf = some (n + 1))
    : readHead s
        =
      (readHead (s.drop (n + 3))).map fun (lines, rest) => (s.take (n + 1) :: lines, rest) := by
  rw [readHead]
  split
  . next hnone =>
    rw [h] at hnone
    contradiction
  . next hzero =>
    rw [h, Option.some.injEq] at hzero
    contradiction
  . next m hm =>
    rw [h, Option.some.injEq, Nat.add_right_cancel_iff] at hm
    subst hm
    cases readHead (s.drop (n + 3)) with
    | none => rfl
    | some head => rfl

theorem readHead_crlf (s : Bytes) : readHead (crlf ++ s) = some ([], s) := by
  have hfind : Bytes.find (crlf ++ s) crlf = some 0 := Bytes.find_of_prefix (List.prefix_append _ _)
  rw [readHead]
  split
  . next hnone =>
    rw [hfind] at hnone
    contradiction
  . rfl
  . next hsucc =>
    rw [hfind, Option.some.injEq] at hsucc
    contradiction

theorem readHead_line {line : Bytes} (hne : line ≠ []) (hline : 10 ∉ line) (s : Bytes)
    : readHead (line ++ (crlf ++ s)) = (readHead s).map fun (lines, rest) => (line :: lines, rest) := by
  obtain ⟨n, hn⟩ := Nat.exists_eq_succ_of_ne_zero (mt List.eq_nil_of_length_eq_zero hne)
  have hfind : Bytes.find (line ++ (crlf ++ s)) crlf = some (n + 1) := by
    rw [HttpParser.find_crlf_append hline, hn]
  have hlength : n + 3 = (line ++ crlf).length := by
    rw [List.length_append, hn]
    rfl
  have hdrop : (line ++ (crlf ++ s)).drop (n + 3) = s := by
    rw [hlength, ← List.append_assoc, List.drop_left]
  have htake : (line ++ (crlf ++ s)).take (n + 1) = line := by
    rw [← Nat.succ_eq_add_one, ← hn, List.take_left]
  rw [readHead_of_find hfind, hdrop, htake]

theorem readHead_lines {lines : List Bytes} (h : ∀ line ∈ lines, line ≠ [] ∧ 10 ∉ line) (s : Bytes)
    : readHead (lines.flatMap (· ++ crlf) ++ (crlf ++ s)) = some (lines, s) := by
  induction lines with
  | nil => exact readHead_crlf s
  | cons line lines ih =>
    obtain ⟨⟨hne, hline⟩, hlines⟩ := List.forall_mem_cons.mp h
    rw [List.flatMap_cons, List.append_assoc, List.append_assoc, readHead_line hne hline, ih hlines]
    rfl

theorem decimal_ofNat (n : Nat) : decimal (Bytes.ofNat n) = some n := by
  unfold decimal
  rw [if_pos, Bytes.toNat_ofNat]
  exact ⟨Bytes.ofNat_ne_nil n, List.all_eq_true.mpr fun _ => isdigit_of_mem_ofNat⟩

end Client

namespace Gateway

def headLines (code length : Nat) : List Bytes := [
  Bytes.ofAscii "HTTP/1.1 " ++ Bytes.ofNat code ++ Bytes.ofAscii " OK",
  Bytes.ofAscii "Content-Type: application/json",
  Bytes.ofAscii "Content-Length: " ++ Bytes.ofNat length,
  Bytes.ofAscii "Connection: keep-alive",
  Bytes.ofAscii "Server: LFGateway/1.0"
]

theorem responseText_eq (code : Nat) (body : Bytes)
    : responseText code body = (headLines code body.length).flatMap (· ++ crlf) ++ (crlf ++ body) := by
  have hstatus : Bytes.ofAscii " OK\r\n" = Bytes.ofAscii " OK" ++ crlf := by decide
  have htype : Bytes.ofAscii "Content-Type: application/json\r\n"
      = Bytes.ofAscii "Content-Type: application/json" ++ crlf := by decide
  have hlength : Bytes.ofAscii "\r\n" = crlf := by decide
  have hconnection : Bytes.ofAscii "Connection: keep-alive\r\n"
      = Bytes.ofAscii "Connection: keep-alive" ++ crlf := by decide
  have hserver : Bytes.ofAscii "Server: LFGateway/1.0\r\n\r\n"
      = Bytes.ofAscii "Server: LFGateway/1.0" ++ crlf ++ crlf := by decide
  unfold responseText
  rw [hstatus, htype, hlength, hconnection, hserver]
  simp only [headLines, List.flatMap_cons, List.flatMap_nil, List.append_assoc, List.append_nil]

theorem ne_of_mem_ofNat {b c : UInt8} {n : Nat} (hb : b ∈ Bytes.ofNat n) (hc : isdigit c = false)
    : b ≠ c := by
  rintro rfl
  rw [isdigit_of_mem_ofNat hb] at hc
  contradiction

theorem statusCode_headLines (code length : Nat)
    : (headLines code length).head?.bind Client.statusCode = some code := by
  have hline : Bytes.ofAscii "HTTP/1.1 " ++ Bytes.ofNat code ++ Bytes.ofAscii " OK"
      = Bytes.ofAscii "HTTP/1.1" ++ 32 :: (Bytes.ofNat code ++ 32 :: Bytes.ofAscii "OK") := by
    have hbegin : Bytes.ofAscii "HTTP/1.1 " = Bytes.ofAscii "HTTP/1.1" ++ [32] := by decide
    have hend : Bytes.ofAscii " OK" = 32 :: Bytes.ofAscii "OK" := by decide
    rw [hbegin, hend, List.append_assoc, List.append_assoc, List.singleton_append]
  have hversion : ∀ b ∈ Bytes.ofAscii "HTTP/1.1", (b != 32) = true :=
    List.all_eq_true.mp (by decide)
  have hcode : ∀ b ∈ Bytes.ofNat code, (b != 32) = true := fun b hb =>
    bne_iff_ne.mpr (ne_of_mem_ofNat hb (by decide))
  simp only [headLines, List.head?_cons, Option.bind_some, Client.statusCode]
  rw [hline, List.dropWhile_append_of_pos hversion, List.dropWhile_cons_of_neg (by simp),
    List.drop_one, List.tail_cons, List.takeWhile_append_of_pos hcode,
    List.takeWhile_cons_of_neg (by simp), List.append_nil, Client.decimal_ofNat]

theorem length_headLines (code length : Nat)
    : ((headLines code length).tail.findSome? (Client.fieldValue HttpParser.contentLength)).bind
        Client.decimal
        =
      some length := by
  have htype : Client.fieldValue HttpParser.contentLength
      (Bytes.ofAscii "Content-Type: application/json") = none := by decide
  have hbegin : Bytes.ofAscii "Content-Length: " = HttpParser.contentLength ++ [58] ++ [32] := by
    decide
  have hname : HttpParser.contentLength.length + 1 = (HttpParser.contentLength ++ [58]).length := rfl
  have hdigits : (Bytes.ofNat length).dropWhile (· == 32) = Bytes.ofNat length := by
    rw [List.dropWhile_eq_self_iff]
    intro hpos
    rw [beq_iff_eq]
    exact ne_of_mem_ofNat (List.getElem_mem hpos) (by decide)
  have hlength : Client.fieldValue HttpParser.contentLength
      (Bytes.ofAscii "Content-Length: " ++ Bytes.ofNat length) = some (Bytes.ofNat length) := by
    rw [hbegin, List.append_assoc]
    unfold Client.fieldValue
    rw [if_pos (List.prefix_append _ _), hname, List.drop_left, List.singleton_append,
      List.dropWhile_cons_of_pos (by rfl), hdigits]
  simp only [headLines, List.tail_cons, List.findSome?_cons, htype, hlength, Option.bind_some]
  exact Client.decimal_ofNat length

theorem headLines_notMem (code length : Nat)
    : ∀ line ∈ headLines code length, line ≠ [] ∧ 10 ∉ line := by
  have hdigits : ∀ n, (10 : UInt8) ∉ Bytes.ofNat n := fun n h =>
    ne_of_mem_ofNat h (by decide) rfl
  have hstatus : (10 : UInt8) ∉ Bytes.ofAscii "HTTP/1.1 " := by decide
  have hreason : (10 : UInt8) ∉ Bytes.ofAscii " OK" := by decide
  have hlength : (10 : UInt8) ∉ Bytes.ofAscii "Content-Length: " := by decide
  simp only [headLines, List.forall_mem_cons, List.mem_append, not_or]
  refine ⟨⟨?_, ⟨hstatus, hdigits code⟩, hreason⟩, by decide, ⟨?_, hlength, hdigits length⟩, by decide,
    by decide, ?_⟩
  . simp [Bytes.ofNat_ne_nil]
  . simp [Bytes.ofNat_ne_nil]
  . simp

theorem selfDelimiting
    : SelfDelimiting (fun r : Nat × Bytes => responseText r.1 r.2) Client.readResponse where
  read_append := by
    rintro ⟨code, body⟩ s
    unfold Client.readResponse
    rw [responseText_eq, List.append_assoc, List.append_assoc,
      Client.readHead_lines (headLines_notMem code body.length)]
    simp only [Option.bind_eq_bind, Option.bind_some]
    rw [statusCode_headLines, length_headLines]
    simp
  read_nil := by
    unfold Client.readResponse
    rw [Client.readHead]
    rfl

/--
The client reads the answers that stand one behind the other on the connection, each with its code and
its body, and nothing is left over.
-/
theorem readAll_responses (rs : List (Nat × Bytes))
    : readAll Client.readResponse (rs.flatMap fun r => responseText r.1 r.2) = (rs, []) :=
  selfDelimiting.readAll_flatMap rs

end Gateway
end LFGateway
