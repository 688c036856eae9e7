import LFGateway.Foundation.Sql
import LFGateway.Redis.LogEncoding
import LFGateway.Stream.Impl

/-!
This module contains the text of the statement that `StreamWriter::run` builds for a batch, and for which
paths MySQL reads the batch from it.
-/

namespace LFGateway

open Foundation

namespace StreamWriter

def insertInto : Bytes :=
  Bytes.ofAscii "INSERT INTO api_call_logs (path, user_id, status_code, latency_ms) VALUES "

def appendMessage (sql : Bytes × Bool) (msg : Entry) : Bytes × Bool :=
  let (text, first) := sql
  let text := if !first then text ++ Bytes.ofAscii ", " else text
  (text ++ Bytes.ofAscii "('" ++ msg.path ++ Bytes.ofAscii "', " ++
    msg.user_id ++ Bytes.ofAscii ", " ++
    msg.status_code ++ Bytes.ofAscii ", " ++
    msg.latency_ms ++ Bytes.ofAscii ")", false)

def sql (messages : List Entry) : Bytes := (messages.foldl appendMessage (insertInto, true)).1

end StreamWriter

/--
The fields are what `LogConsumer::push` writes for some request.
-/
structure Entry.Pushed (msg : Entry) : Prop where
  path : HttpParser.RequestPath msg.path
  user_id : ∃ userId, msg.user_id = Bytes.ofInt userId
  status_code : ∃ statusCode, msg.status_code = Bytes.ofInt statusCode
  latency_ms : ∃ latencyNs, msg.latency_ms = LogConsumer.latencyText latencyNs

namespace StreamWriter

variable {msg : Entry} {messages : List Entry}

def columns (msg : Entry) : Bytes :=
  msg.user_id ++ Bytes.ofAscii ", " ++ msg.status_code ++ Bytes.ofAscii ", " ++ msg.latency_ms ++
    Bytes.ofAscii ")"

def row (msg : Entry) : List Sql.Piece :=
  [.byte 40, .text msg.path] ++ (44 :: 32 :: columns msg).map .byte

def statement (messages : List Entry) : List Sql.Piece :=
  insertInto.map .byte ++ ((Bytes.ofAscii ", ").map Sql.Piece.byte).intercalate (messages.map row)

def tuple (msg : Entry) : Bytes := 40 :: 39 :: (msg.path ++ 39 :: 44 :: 32 :: columns msg)

theorem foldl_appendMessage (text : Bytes) (messages : List Entry)
    : (messages.foldl appendMessage (text, false)).1
        =
      text ++ messages.flatMap fun msg => Bytes.ofAscii ", " ++ tuple msg := by
  induction messages generalizing text with
  | nil => simp
  | cons msg messages ih =>
    rw [List.foldl_cons, List.flatMap_cons, appendMessage, ih]
    simp [tuple, columns, Bytes.ofAscii]

theorem sql_cons (msg : Entry) (messages : List Entry)
    : sql (msg :: messages)
        =
      insertInto ++ (tuple msg ++ messages.flatMap fun msg => Bytes.ofAscii ", " ++ tuple msg) := by
  rw [sql, List.foldl_cons, appendMessage, foldl_appendMessage]
  simp [tuple, columns, Bytes.ofAscii]

theorem statement_cons (msg : Entry) (messages : List Entry)
    : statement (msg :: messages)
        =
      insertInto.map .byte ++
        (row msg ++ messages.flatMap fun msg => (Bytes.ofAscii ", ").map .byte ++ row msg) := by
  induction messages generalizing msg with
  | nil => simp [statement]
  | cons next messages ih =>
    have hrest := ih next
    rw [statement, List.append_cancel_left_eq] at hrest
    rw [statement, List.map_cons, List.map_cons, List.intercalate_cons_cons, ← List.map_cons, hrest]
    simp

theorem notMem_columns (h : msg.Pushed) {c : UInt8} (hc : c = 0 ∨ c = 39)
    : c ∉ columns msg := by
  obtain ⟨userId, huser⟩ := h.user_id
  obtain ⟨statusCode, hstatus⟩ := h.status_code
  obtain ⟨latencyNs, hlatency⟩ := h.latency_ms
  have hminus : c ≠ 45 := by rcases hc with rfl | rfl <;> decide
  have hpoint : c ≠ 46 := by rcases hc with rfl | rfl <;> decide
  have hdigit : c.toNat < 48 ∨ 57 < c.toNat := by rcases hc with rfl | rfl <;> decide
  have hcomma : c ∉ Bytes.ofAscii ", " := by rcases hc with rfl | rfl <;> decide
  have hclose : c ∉ Bytes.ofAscii ")" := by rcases hc with rfl | rfl <;> decide
  rw [columns, huser, hstatus, hlatency]
  simp only [List.mem_append, not_or]
  exact ⟨⟨⟨⟨⟨Bytes.notMem_ofInt hminus hdigit _, hcomma⟩, Bytes.notMem_ofInt hminus hdigit _⟩,
    hcomma⟩, LogConsumer.notMem_latencyText hpoint hdigit _⟩, hclose⟩

/--
A path that MySQL reads back from between quotes.
-/
def ReadsBack (path : Bytes) : Prop := Sql.Verbatim path ∧ 0 ∉ path

theorem pieces_tuple_iff (h : msg.Pushed) (rest : Bytes) (ps : List Sql.Piece)
    : Sql.pieces (tuple msg ++ rest).cStr = some (row msg ++ ps)
        ↔
      ReadsBack msg.path ∧ Sql.pieces rest.cStr = some ps := by
  have hspace := HttpParser.requestPath_iff.mp h.path
  have hcolumns : (columns msg ++ rest).cStr = columns msg ++ rest.cStr :=
    Bytes.cStr_append (notMem_columns h (.inl rfl))
  have htext : (tuple msg ++ rest).cStr
      = [40] ++ 39 :: (msg.path ++ 39 :: 44 :: 32 :: (columns msg ++ rest)).cStr := by
    rw [tuple]
    simp [Bytes.cStr]
  have hquote : 39 ∉ 44 :: 32 :: columns msg := by
    simp [notMem_columns h (.inr rfl)]
  have hrest : Sql.pieces (44 :: 32 :: (columns msg ++ rest).cStr)
      = (Sql.pieces rest.cStr).map ((44 :: 32 :: columns msg).map Sql.Piece.byte ++ ·) := by
    rw [hcolumns]
    exact Sql.pieces_append hquote _
  rw [htext, Sql.pieces_append (by decide), row, List.append_assoc, Option.map_eq_some_iff]
  constructor
  . rintro ⟨ps', hps, heq⟩
    simp only [List.map_cons, List.map_nil, List.cons_append, List.nil_append, List.cons.injEq,
      true_and] at heq
    subst heq
    obtain ⟨behind, hquoted, hbehind⟩ := Sql.pieces_quote.mp hps
    obtain ⟨hclean, rfl⟩ := (Sql.quoted_self_iff hspace).mp hquoted
    rw [hrest] at hbehind
    refine ⟨hclean, ?_⟩
    simpa using hbehind
  . rintro ⟨hclean, hps⟩
    refine ⟨_, Sql.pieces_quote.mpr ⟨_, (Sql.quoted_self_iff hspace).mpr ⟨hclean, rfl⟩, ?_⟩, rfl⟩
    rw [hrest, hps]
    rfl

theorem pieces_tuples_iff (h : ∀ msg ∈ messages, msg.Pushed)
    : Sql.pieces (Bytes.cStr (messages.flatMap fun msg => Bytes.ofAscii ", " ++ tuple msg))
          = some (messages.flatMap fun msg => (Bytes.ofAscii ", ").map .byte ++ row msg)
        ↔
      ∀ msg ∈ messages, ReadsBack msg.path := by
  induction messages with
  | nil => simp [Sql.pieces, Bytes.cStr]
  | cons msg messages ih =>
    rw [List.forall_mem_cons] at h ⊢
    rw [List.flatMap_cons, List.flatMap_cons, List.append_assoc, List.append_assoc,
      Bytes.cStr_append (by decide), Sql.pieces_append (by decide)]
    rw [← ih h.2, ← pieces_tuple_iff h.1]
    simp

/--
MySQL reads a statement with one tuple for each message, and with the path of the message in it, if and
only if all paths read back.
-/
theorem pieces_sql_iff (h : ∀ msg ∈ messages, msg.Pushed)
    : Sql.pieces (sql messages).cStr = some (statement messages)
        ↔
      ∀ msg ∈ messages, ReadsBack msg.path := by
  cases messages with
  | nil =>
    have hempty : (sql []).cStr = insertInto ++ [] := by decide
    rw [hempty, Sql.pieces_append (by decide)]
    simp [Sql.pieces, statement]
  | cons msg messages =>
    rw [List.forall_mem_cons] at h ⊢
    rw [sql_cons, statement_cons, Bytes.cStr_append (by decide), Sql.pieces_append (by decide)]
    rw [← pieces_tuples_iff h.2, ← pieces_tuple_iff h.1, Option.map_eq_some_iff]
    simp

def literal : Sql.Piece → Option Bytes
  | .text value => some value
  | .byte _ => none

theorem literals_statement (messages : List Entry)
    : (statement messages).filterMap literal = messages.map Entry.path := by
  have hbytes : ∀ text : Bytes, (text.map Sql.Piece.byte).filterMap literal = [] := by
    intro text
    induction text with
    | nil => rfl
    | cons b text ih => exact ih
  have hrow : ∀ msg, (row msg).filterMap literal = [msg.path] := by
    intro msg
    rw [row, List.filterMap_append, hbytes]
    rfl
  cases messages with
  | nil =>
    rw [statement, List.filterMap_append, hbytes]
    rfl
  | cons msg messages =>
    rw [statement_cons, List.filterMap_append, List.filterMap_append, hbytes, hrow]
    rw [List.filterMap_flatMap]
    simp only [List.filterMap_append, hbytes, hrow, List.nil_append]
    rw [← List.map_eq_flatMap]
    rfl

def twoRequests : List Entry :=
  [⟨1, Bytes.ofAscii "/api/users", Bytes.ofAscii "0", Bytes.ofAscii "200", Bytes.ofAscii "0.000007"⟩,
    ⟨2, Bytes.ofAscii "/api/\\_x", Bytes.ofAscii "0", Bytes.ofAscii "200", Bytes.ofAscii "12.000000"⟩]

theorem pushed_twoRequests : ∀ msg ∈ twoRequests, msg.Pushed := by
  intro msg hmsg
  simp only [twoRequests, List.mem_cons, List.not_mem_nil, or_false] at hmsg
  rcases hmsg with rfl | rfl
  . exact ⟨HttpParser.requestPath_iff.mpr (by decide), ⟨0, by decide⟩, ⟨200, by decide⟩,
      ⟨7, by decide⟩⟩
  . exact ⟨HttpParser.requestPath_iff.mpr (by decide), ⟨0, by decide⟩, ⟨200, by decide⟩,
      ⟨12000000, by decide⟩⟩

theorem pieces_sql_iff_twoRequests : Sql.pieces (sql twoRequests).cStr = some (statement twoRequests) := by
  apply (pieces_sql_iff pushed_twoRequests).mpr
  intro msg hmsg
  simp only [twoRequests, List.mem_cons, List.not_mem_nil, or_false] at hmsg
  rcases hmsg with rfl | rfl
  . have hpath : Bytes.ofAscii "/api/users" = [47, 97, 112, 105, 47, 117, 115, 101, 114, 115] := by decide
    dsimp only
    rw [hpath]
    simp [ReadsBack, Sql.verbatim_cons, Sql.verbatim_nil]
  . have hpath : Bytes.ofAscii "/api/\\_x" = [47, 97, 112, 105, 47, 92, 95, 120] := by decide
    dsimp only
    rw [hpath]
    simp [ReadsBack, Sql.verbatim_cons, Sql.verbatim_nil]

def quotedRequest : Entry :=
  ⟨1, Bytes.ofAscii "/it's", Bytes.ofAscii "0", Bytes.ofAscii "200", Bytes.ofAscii "0.000007"⟩

theorem not_pieces_sql_quoted
    : quotedRequest.Pushed ∧ Sql.pieces (sql [quotedRequest]).cStr ≠ some (statement [quotedRequest]) := by
  have hpushed : quotedRequest.Pushed :=
    ⟨HttpParser.requestPath_iff.mpr (by decide), ⟨0, by decide⟩, ⟨200, by decide⟩, ⟨7, by decide⟩⟩
  refine ⟨hpushed, ?_⟩
  have htext : sql [quotedRequest] = insertInto ++ (tuple quotedRequest ++ []) := sql_cons _ _
  have hpieces : statement [quotedRequest] = insertInto.map .byte ++ (row quotedRequest ++ []) :=
    statement_cons _ _
  rw [htext, hpieces, Bytes.cStr_append (by decide), Sql.pieces_append (by decide)]
  intro h
  have hrow : Sql.pieces (tuple quotedRequest ++ []).cStr = some (row quotedRequest ++ []) := by
    simpa using h
  exact absurd ((pieces_tuple_iff hpushed [] []).mp hrow).1.1.1 (by decide)

end StreamWriter
end LFGateway
