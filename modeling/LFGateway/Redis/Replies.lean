import LFGateway.Foundation.Bytes
import Mathlib.Logic.Function.Basic

/-!
This module contains `RedisClient::xreadgroup` over the reply trees of hiredis, and what it makes of a
well-formed reply: it looks for the entries one level too high.
-/

namespace LFGateway

open Foundation

inductive ReplyType where
  | string
  | status
  | error
  | integer
  | nil
  deriving DecidableEq, Repr

/--
A `redisReply`. The fields that its type does not use are zero: an array has the empty string in
`str`, anything else has no elements.
-/
inductive ReplyTree where
  | leaf (type : ReplyType) (str : Bytes)
  | array (element : List ReplyTree)

namespace ReplyTree

def str : ReplyTree → Bytes
  | leaf _ str => str
  | array _ => []

def element : ReplyTree → List ReplyTree
  | leaf _ _ => []
  | array element => element

end ReplyTree

abbrev FieldMap := Bytes → Option Bytes

def FieldMap.insert (msg : FieldMap) (key value : Bytes) : FieldMap :=
  Function.update msg key (some value)

namespace RedisClient

/--
The innermost loop, `none` where it reads an element behind the last one.
-/
def readFields (msg : FieldMap) : List ReplyTree → Option FieldMap
  | [] => some msg
  | [_] => none
  | field :: value :: fields => readFields (msg.insert field.str value.str) fields

/--
What the loop over `j` adds to the result for `msgArray`.
-/
def readMessage (msgArray : ReplyTree) : Option (List FieldMap) :=
  match msgArray.element with
  | id :: fields :: _ =>
    let msg := FieldMap.insert (fun _ => none) (Bytes.ofAscii "id") id.str
    (readFields msg fields.element).map fun msg => [msg]
  | [_] | [] => some []

def readMessages : List ReplyTree → Option (List FieldMap)
  | [] => some []
  | msgArray :: rest => do
    let msgs ← readMessage msgArray
    let msgs' ← readMessages rest
    return msgs ++ msgs'

/--
The loop over `i`, which skips streams that are not arrays.
-/
def readStreams : List ReplyTree → Option (List FieldMap)
  | [] => some []
  | .leaf _ _ :: rest => readStreams rest
  | .array element :: rest => do
    let msgs ← readMessages element
    let msgs' ← readStreams rest
    return msgs ++ msgs'

/--
What `xreadgroup` makes of a reply, `none` being a null pointer.
-/
def xreadgroup : Option ReplyTree → Option (List FieldMap)
  | some (.array element) => readStreams element
  | some (.leaf _ _) | none => some []

end RedisClient

/--
An entry of a stream as Redis sends it, with its fields in order.
-/
structure StreamEntry where
  id : Bytes
  fields : List (Bytes × Bytes)
  distinct : (fields.map Prod.fst).Nodup
  noId : Bytes.ofAscii "id" ∉ fields.map Prod.fst

namespace StreamEntry

def tree (entry : StreamEntry) : ReplyTree :=
  .array [.leaf .string entry.id,
    .array (entry.fields.flatMap fun field => [.leaf .string field.1, .leaf .string field.2])]

/--
The map an entry should become.
-/
def map (entry : StreamEntry) : FieldMap := fun key =>
  if key = Bytes.ofAscii "id" then some entry.id else entry.fields.lookup key

end StreamEntry

/--
What `XREADGROUP` returns of one stream.
-/
structure StreamReply where
  name : Bytes
  entries : List StreamEntry

namespace StreamReply

def tree (stream : StreamReply) : ReplyTree :=
  .array [.leaf .string stream.name, .array (stream.entries.map StreamEntry.tree)]

/--
What `xreadgroup` reads out of a stream: the first two entries are taken for an id and its fields.
-/
def misread (stream : StreamReply) : List FieldMap :=
  match stream.entries with
  | _ :: second :: _ =>
    [(FieldMap.insert (fun _ => none) (Bytes.ofAscii "id") []).insert second.id []]
  | [_] | [] => []

theorem readMessages_eq (stream : StreamReply)
    : RedisClient.readMessages [.leaf .string stream.name, .array (stream.entries.map StreamEntry.tree)]
        =
      some stream.misread := by
  unfold misread
  match hentries : stream.entries with
  | [] => rfl
  | [_] => rfl
  | _ :: _ :: _ => rfl

theorem length_misread_le (stream : StreamReply) : stream.misread.length ≤ stream.entries.length := by
  unfold misread
  split
  . next hentries => simp [hentries]
  . exact Nat.zero_le _
  . exact Nat.zero_le _

theorem length_misread_lt (stream : StreamReply) (h : stream.entries ≠ [])
    : stream.misread.length < stream.entries.length := by
  unfold misread
  split
  . next hentries => simp [hentries]
  . next hentries => simp [hentries]
  . next hentries => exact absurd hentries h

end StreamReply

namespace RedisClient

theorem readStreams_eq (streams : List StreamReply)
    : readStreams (streams.map StreamReply.tree) = some (streams.flatMap StreamReply.misread) := by
  induction streams with
  | nil => rfl
  | cons stream streams ih =>
    rw [List.map_cons, StreamReply.tree, readStreams, stream.readMessages_eq, ih]
    rfl

theorem length_misread_eq_iff (streams : List StreamReply)
    : (streams.flatMap StreamReply.misread).length = (streams.flatMap StreamReply.entries).length
        ↔
      ∀ stream ∈ streams, stream.entries = [] := by
  have hle : ∀ streams : List StreamReply, (streams.flatMap StreamReply.misread).length
      ≤ (streams.flatMap StreamReply.entries).length := by
    intro streams
    induction streams with
    | nil => exact Nat.le_refl _
    | cons stream streams ih =>
      rw [List.flatMap_cons, List.flatMap_cons, List.length_append, List.length_append]
      exact Nat.add_le_add stream.length_misread_le ih
  induction streams with
  | nil => simp
  | cons stream streams ih =>
    rw [List.flatMap_cons, List.flatMap_cons, List.length_append, List.length_append]
    rw [List.forall_mem_cons]
    have hrest := hle streams
    by_cases hentries : stream.entries = []
    . have hstream := stream.length_misread_le
      rw [hentries, List.length_nil] at hstream
      rw [hentries, List.length_nil, Nat.le_zero.mp hstream, Nat.zero_add, Nat.zero_add]
      exact ih.trans (and_iff_right rfl).symm
    . have hstream := stream.length_misread_lt hentries
      constructor
      . omega
      . intro h
        exact absurd h.1 hentries

/--
`xreadgroup` returns the entries of a well-formed reply if and only if it has none.
-/
theorem xreadgroup_eq_entries_iff (streams : List StreamReply)
    : xreadgroup (some (.array (streams.map StreamReply.tree)))
          = some ((streams.flatMap StreamReply.entries).map StreamEntry.map)
        ↔
      ∀ stream ∈ streams, stream.entries = [] := by
  rw [xreadgroup, readStreams_eq, Option.some.injEq]
  constructor
  . intro h
    have hlength := congrArg List.length h
    rw [List.length_map] at hlength
    exact (length_misread_eq_iff streams).mp hlength
  . intro h
    have hempty : streams.flatMap StreamReply.entries = [] := List.flatMap_eq_nil_iff.mpr h
    have hlength := (length_misread_eq_iff streams).mpr h
    rw [hempty, List.length_nil, List.length_eq_zero_iff] at hlength
    rw [hempty, hlength, List.map_nil]

def twoEntries : List StreamReply :=
  [⟨Bytes.ofAscii "log_stream",
    [⟨Bytes.ofAscii "1-0", [(Bytes.ofAscii "path", Bytes.ofAscii "/a")], by decide, by decide⟩,
      ⟨Bytes.ofAscii "2-0", [(Bytes.ofAscii "path", Bytes.ofAscii "/b")], by decide, by decide⟩]⟩]

theorem xreadgroup_twoEntries
    : xreadgroup (some (.array (twoEntries.map StreamReply.tree)))
        ≠ some ((twoEntries.flatMap StreamReply.entries).map StreamEntry.map) ∧
      ∃ msg, xreadgroup (some (.array (twoEntries.map StreamReply.tree))) = some [msg] ∧
        msg (Bytes.ofAscii "id") = some [] ∧ msg (Bytes.ofAscii "2-0") = some [] ∧
        msg (Bytes.ofAscii "path") = none := by
  refine ⟨?_, _, readStreams_eq twoEntries, by decide, by decide, by decide⟩
  intro h
  have hlength := congrArg (Option.map List.length) h
  rw [xreadgroup, readStreams_eq] at hlength
  exact absurd hlength (by decide)

end RedisClient
end LFGateway
