import LFGateway.Foundation.JsonPrint
import LFGateway.Gateway.Lemmas.Auth
import LFGateway.Gateway.Lemmas.Sends
import LFGateway.Routes.Coherence

/-!
This module contains the JSON texts of the gateway, and when they are read back as the path and the rows
that they are made of. Texts are put between quotes as they are, and `NULL` is printed as something else.
-/

namespace LFGateway

open Foundation Foundation.Json

section Values

/--
The value of a column, which may be `NULL`.
-/
def orNull {α : Type} (f : α → Value) (column : Option α) : Value := (column.map f).getD .null

namespace ApiRoute

def target (route : ApiRoute) : Bytes := route.target_host ++ 58 :: Bytes.ofInt route.target_port.toInt

def value (route : ApiRoute) : Value := .object [
  (Bytes.ofAscii "id", .number route.id.toInt),
  (Bytes.ofAscii "path", .string route.path_pattern),
  (Bytes.ofAscii "target", .string route.target),
  (Bytes.ofAscii "auth", .bool route.rule.needAuth),
  (Bytes.ofAscii "rateLimit", orNull (fun n => .number n.toInt) route.rate_limit)
]

/--
The texts need no escape sequences, the flag is 0, 1 or not given, and there is a limit.
-/
structure Printable (route : ApiRoute) : Prop where
  path_pattern : Plain route.path_pattern
  target : Plain route.target
  need_auth : route.need_auth = none ∨ route.need_auth = some 0 ∨ route.need_auth = some 1
  rate_limit : route.rate_limit ≠ none

end ApiRoute

def padded (width n : Nat) : Bytes :=
  List.replicate (width - (Bytes.ofNat n).length) (Bytes.digit 0) ++ Bytes.ofNat n

structure Timestamp where
  year : Nat
  month : Nat
  day : Nat
  hour : Nat
  minute : Nat
  second : Nat
  deriving DecidableEq, Repr

/--
`YYYY-MM-DD hh:mm:ss`
-/
def Timestamp.text (t : Timestamp) : Bytes :=
  padded 4 t.year ++ 45 :: (padded 2 t.month ++ 45 :: (padded 2 t.day ++ 32 ::
    (padded 2 t.hour ++ 58 :: (padded 2 t.minute ++ 58 :: padded 2 t.second))))

/--
A row of `api_call_logs` with the types of its columns. `NULL` is `none`, and the `DOUBLE` is the number
that MySQL prints for it.
-/
structure ApiCallLog where
  path : Option Bytes
  user_id : Option Int32
  status_code : Option Int32
  latency_ms : Option Number
  created_at : Option Timestamp

namespace ApiCallLog

/--
The row as `SELECT path, user_id, status_code, latency_ms, created_at` returns it.
-/
def row (log : ApiCallLog) : Row := [
  log.path,
  log.user_id.map fun n => Bytes.ofInt n.toInt,
  log.status_code.map fun n => Bytes.ofInt n.toInt,
  log.latency_ms.map Number.text,
  log.created_at.map Timestamp.text
]

def value (log : ApiCallLog) : Value := .object [
  (Bytes.ofAscii "path", orNull .string log.path),
  (Bytes.ofAscii "userId", orNull (fun n => .number n.toInt) log.user_id),
  (Bytes.ofAscii "status", orNull (fun n => .number n.toInt) log.status_code),
  (Bytes.ofAscii "latency", orNull (fun n => .number n.value) log.latency_ms),
  (Bytes.ofAscii "time", orNull (fun t => .string t.text) log.created_at)
]

/--
Nothing is `NULL`, and the path needs no escape sequences.
-/
structure Printable (log : ApiCallLog) : Prop where
  path : ∃ path, log.path = some path ∧ Plain path
  user_id : log.user_id ≠ none
  status_code : log.status_code ≠ none
  latency_ms : log.latency_ms ≠ none
  created_at : log.created_at ≠ none

end ApiCallLog

end Values

section Columns

variable {α : Type} {column : Option α} {g : α → Value} {holds : α → Prop}

theorem Plain.cStr {s : Bytes} (h : Plain s) : s.cStr = s := Bytes.cStr_of_notMem h.notMem_zero

theorem prints_text (s : Bytes) : Prints (34 :: (s.cStr ++ [34])) (.string s) (Plain s) := by
  apply (prints_string (List.takeWhile_prefix _)).congr
  exact ⟨And.right, fun h => ⟨Plain.cStr h, h⟩⟩

theorem prints_orNull {f : α → Bytes} {b : UInt8} {t : Bytes}
    (h : ∀ a, Prints (f a) (g a) (holds a)) (hblank : isBlank b = false) (hb : b ≠ 110)
    : Prints ((column.map f).getD (b :: t)) (orNull g column) (∃ a, column = some a ∧ holds a) := by
  cases column with
  | none =>
    apply (prints_null hblank hb).congr
    simp
  | some a =>
    apply (h a).congr
    simp

theorem prints_number_orNull {f : α → Bytes} (h : ∀ a, Prints (f a) (g a) True)
    : Prints ((column.map f).getD [48]) (orNull g column) (column ≠ none) := by
  apply (prints_orNull h (by decide) (by decide)).congr
  simp [Option.ne_none_iff_exists']

theorem wellFormed_member {name text : Bytes} {value : Value} {P : Prop}
    (hname : name.all isPlainAscii = true) (h : Prints text value P)
    : PrintedMember.WellFormed ⟨[], name, [], text, value, P⟩ :=
  ⟨blank_nil, blank_nil, plain_of_ascii hname, h⟩

end Columns

section Routes

namespace ApiRoute

theorem prints_target (route : ApiRoute)
    : Prints (34 :: ((route.target_host.cStr ++ 58 :: Bytes.ofInt route.target_port.toInt) ++ [34]))
        (.string route.target) (Plain route.target) := by
  have hlength : (route.target_host.cStr ++ 58 :: Bytes.ofInt route.target_port.toInt).length
      ≤ route.target.length := by
    have hle := (List.takeWhile_prefix (l := route.target_host) (· != 0)).length_le
    unfold target Bytes.cStr
    simp only [List.length_append, List.length_cons]
    omega
  apply (prints_string_of_length_le hlength _).congr
  . constructor
    . exact And.right
    . intro hplain
      have hzero : 0 ∉ route.target_host := by
        intro hmem
        exact hplain.notMem_zero (List.mem_append_left _ hmem)
      rw [Bytes.cStr_of_notMem hzero]
      exact ⟨rfl, hplain⟩
  . intro c heq
    have hlast := congrArg List.getLast? heq
    rw [List.getLast?_append_cons, List.getLast?_concat] at hlast
    have hmem := List.mem_of_getLast? hlast
    rw [List.mem_cons] at hmem
    have hnot := Bytes.notMem_ofInt (c := 92) (by decide) (by decide) route.target_port.toInt
    exact hnot (hmem.resolve_left (by decide))

def printedAuth (route : ApiRoute) : Bool := route.need_auth = none ∨ route.need_auth = some 1

theorem text_flag (n : Int8)
    : (if (Bytes.ofInt n.toInt).cStr = Bytes.ofAscii "1" then Bytes.ofAscii "true"
        else Bytes.ofAscii "false")
        =
      Bytes.ofAscii (if n = 1 then "true" else "false") := by
  have hone : Bytes.ofInt n.toInt = Bytes.ofAscii "1" ↔ n = 1 := by
    have htext : Bytes.ofAscii "1" = Bytes.ofInt 1 := by decide
    rw [htext, Bytes.ofInt_injective.eq_iff]
    exact Int8.toInt_inj (y := 1)
  rw [Routing.cStr_ofInt]
  simp only [hone]
  split <;> rfl

def members (route : ApiRoute) : List PrintedMember := [
  ⟨[], Bytes.ofAscii "id", [], Bytes.ofInt route.id.toInt, .number route.id.toInt, True⟩,
  ⟨[], Bytes.ofAscii "path", [], 34 :: (route.path_pattern.cStr ++ [34]), .string route.path_pattern,
    Plain route.path_pattern⟩,
  ⟨[], Bytes.ofAscii "target", [],
    34 :: ((route.target_host.cStr ++ 58 :: Bytes.ofInt route.target_port.toInt) ++ [34]),
    .string route.target, Plain route.target⟩,
  ⟨[], Bytes.ofAscii "auth", [], Bytes.ofAscii (if route.printedAuth then "true" else "false"),
    .bool route.rule.needAuth, route.printedAuth = route.rule.needAuth⟩,
  ⟨[], Bytes.ofAscii "rateLimit", [], (route.rate_limit.map fun n => Bytes.ofInt n.toInt).getD [48],
    orNull (fun n => .number n.toInt) route.rate_limit, route.rate_limit ≠ none⟩
]

theorem routeJson_row (route : ApiRoute)
    : Gateway.routeJson route.row
        =
      123 :: (commas (route.members.map PrintedMember.printed) ++ [125]) := by
  have hid : route.row.col 0 = some (Bytes.ofInt route.id.toInt).cStr := rfl
  have hpath : route.row.col 1 = some route.path_pattern.cStr := rfl
  have hhost : route.row.col 2 = some route.target_host.cStr := rfl
  have hport : route.row.col 3 = some (Bytes.ofInt route.target_port.toInt).cStr := rfl
  unfold Gateway.routeJson Gateway.colOr
  rw [hid, hpath, hhost, hport, Routing.col_need_auth, Routing.col_rate_limit]
  unfold members printedAuth
  cases route.need_auth with
  | none => simp [Routing.cStr_ofInt, PrintedMember.printed, commas, Bytes.ofAscii]
  | some n =>
    simp only [Option.map_some, text_flag]
    simp [Routing.cStr_ofInt, PrintedMember.printed, commas, Bytes.ofAscii]

theorem wellFormed_members (route : ApiRoute) : ∀ p ∈ route.members, p.WellFormed := by
  unfold members
  simp only [List.forall_mem_cons, List.not_mem_nil, false_implies, implies_true, and_true]
  refine ⟨wellFormed_member (by decide) (prints_ofInt _), wellFormed_member (by decide) (prints_text _),
    wellFormed_member (by decide) route.prints_target, wellFormed_member (by decide) (prints_bool _ _),
    wellFormed_member (by decide) ?_⟩
  exact prints_number_orNull fun n => prints_ofInt n.toInt

theorem printedAuth_eq_iff (route : ApiRoute)
    : route.printedAuth = route.rule.needAuth
        ↔
      route.need_auth = none ∨ route.need_auth = some 0 ∨ route.need_auth = some 1 := by
  unfold printedAuth rule
  rw [decide_eq_decide]
  cases route.need_auth with
  | none => simp
  | some n =>
    simp only [reduceCtorEq, false_or, Option.some.injEq, ne_eq]
    constructor
    . intro h
      by_cases hzero : n = 0
      . exact .inl hzero
      . exact .inr (h.mpr hzero)
    . rintro (rfl | rfl) <;> decide

theorem prints_row (route : ApiRoute)
    : Prints (Gateway.routeJson route.row) route.value route.Printable := by
  have hprints := prints_object route.wellFormed_members
  rw [← routeJson_row] at hprints
  apply hprints.congr
  unfold members
  simp only [List.forall_mem_cons, List.not_mem_nil, false_implies, implies_true, and_true, true_and,
    printedAuth_eq_iff]
  constructor
  . rintro ⟨hpath, htarget, hauth, hrate⟩
    exact ⟨hpath, htarget, hauth, hrate⟩
  . intro h
    exact ⟨h.path_pattern, h.target, h.need_auth, h.rate_limit⟩

end ApiRoute

end Routes

section Logs

theorem isDigit_of_mem_padded {width n : Nat} {b : UInt8} (h : b ∈ padded width n) : isDigit b = true := by
  rw [padded, List.mem_append] at h
  cases h with
  | inl hzero =>
    rw [List.eq_of_mem_replicate hzero]
    decide
  | inr hdigit => exact isDigit_of_mem_ofNat hdigit

theorem Timestamp.plain_text (t : Timestamp) : Plain t.text := by
  have hdigit (b : UInt8) (h : isDigit b = true) : isPlainAscii b = true := by
    simp only [isDigit, isPlainAscii, decide_eq_true_eq] at h ⊢
    refine ⟨UInt8.le_trans (by decide) h.1, UInt8.lt_of_le_of_lt h.2 (by decide), ?_, ?_⟩
    . rintro rfl
      exact absurd h.1 (by decide)
    . rintro rfl
      exact absurd h.2 (by decide)
  apply plain_of_ascii
  rw [List.all_eq_true]
  unfold Timestamp.text
  simp only [List.forall_mem_append, List.forall_mem_cons]
  refine ⟨?_, by decide, ?_, by decide, ?_, by decide, ?_, by decide, ?_, by decide, ?_⟩
  all_goals exact fun b hb => hdigit b (isDigit_of_mem_padded hb)

theorem cStr_text (n : Number) : n.text.cStr = n.text := by
  apply Bytes.cStr_of_notMem
  intro hmem
  exact absurd (n.isNumeric_of_mem hmem) (by decide)

namespace ApiCallLog

def members (log : ApiCallLog) : List PrintedMember := [
  ⟨[], Bytes.ofAscii "path", [], (log.path.map fun s => 34 :: (s.cStr ++ [34])).getD [34, 34],
    orNull .string log.path, ∃ path, log.path = some path ∧ Plain path⟩,
  ⟨[], Bytes.ofAscii "userId", [], (log.user_id.map fun n => Bytes.ofInt n.toInt).getD [48],
    orNull (fun n => .number n.toInt) log.user_id, log.user_id ≠ none⟩,
  ⟨[], Bytes.ofAscii "status", [], (log.status_code.map fun n => Bytes.ofInt n.toInt).getD [48],
    orNull (fun n => .number n.toInt) log.status_code, log.status_code ≠ none⟩,
  ⟨[], Bytes.ofAscii "latency", [], (log.latency_ms.map Number.text).getD [48],
    orNull (fun n => .number n.value) log.latency_ms, log.latency_ms ≠ none⟩,
  ⟨[], Bytes.ofAscii "time", [], (log.created_at.map fun t => 34 :: (t.text.cStr ++ [34])).getD [34, 34],
    orNull (fun t => .string t.text) log.created_at, log.created_at ≠ none⟩
]

theorem col_row (log : ApiCallLog)
    : log.row.col 0 = log.path.map Bytes.cStr ∧
        log.row.col 1 = log.user_id.map (fun n => Bytes.ofInt n.toInt) ∧
        log.row.col 2 = log.status_code.map (fun n => Bytes.ofInt n.toInt) ∧
        log.row.col 3 = log.latency_ms.map Number.text ∧
        log.row.col 4 = log.created_at.map fun t => t.text.cStr := by
  simp [Row.col, row, Function.comp_def, Routing.cStr_ofInt, cStr_text]

theorem logJson_row (log : ApiCallLog)
    : Gateway.logJson log.row
        =
      123 :: (commas (log.members.map PrintedMember.printed) ++ [125]) := by
  obtain ⟨hpath, huser, hstatus, hlatency, htime⟩ := log.col_row
  unfold Gateway.logJson Gateway.colOr members
  rw [hpath, huser, hstatus, hlatency, htime]
  cases log.path <;> cases log.created_at <;> simp [PrintedMember.printed, commas, Bytes.ofAscii]

theorem wellFormed_members (log : ApiCallLog) : ∀ p ∈ log.members, p.WellFormed := by
  unfold members
  simp only [List.forall_mem_cons, List.not_mem_nil, false_implies, implies_true, and_true]
  refine ⟨wellFormed_member (by decide) ?_, wellFormed_member (by decide) ?_,
    wellFormed_member (by decide) ?_, wellFormed_member (by decide) ?_,
    wellFormed_member (by decide) ?_⟩
  . exact prints_orNull prints_text (by decide) (by decide)
  . exact prints_number_orNull fun n => prints_ofInt n.toInt
  . exact prints_number_orNull fun n => prints_ofInt n.toInt
  . exact prints_number_orNull prints_number
  . have hprints (t : Timestamp) : Prints (34 :: (t.text.cStr ++ [34])) (.string t.text) True :=
      (prints_text t.text).congr (iff_true_intro t.plain_text)
    apply (prints_orNull hprints (by decide) (by decide)).congr
    simp [Option.ne_none_iff_exists']

theorem prints_row (log : ApiCallLog) : Prints (Gateway.logJson log.row) log.value log.Printable := by
  have hprints := prints_object log.wellFormed_members
  rw [← logJson_row] at hprints
  apply hprints.congr
  unfold members
  simp only [List.forall_mem_cons, List.not_mem_nil, false_implies, implies_true, and_true]
  constructor
  . rintro ⟨hpath, huser, hstatus, hlatency, htime⟩
    exact ⟨hpath, huser, hstatus, hlatency, htime⟩
  . intro h
    exact ⟨h.path, h.user_id, h.status_code, h.latency_ms, h.created_at⟩

end ApiCallLog

end Logs

namespace Gateway

section Tables

def fetched (h : List (Event PoolOp PoolOp.Reply)) : List Row :=
  h.flatMap fun
    | ⟨.mysqlStoreResult _, some rows⟩ => rows
    | _ => []

variable {query : Query} {json : Row → Bytes} {h : List (Event PoolOp PoolOp.Reply)} {text : Bytes}

theorem text_of_returns (hr : Prog.Returns (tableJson query json) h (some text))
    : text = 91 :: (commas ((fetched h).map json) ++ [93]) := by
  have hnone : Bytes.ofAscii "[]" = 91 :: (commas [] ++ [93]) := by decide
  unfold tableJson at hr
  obtain ⟨conn, h, rfl, hr₁⟩ := Prog.returns_perform_bind.mp hr
  cases conn with
  | none => exact absurd (Prog.returns_pure.mp hr₁).2 (by simp)
  | some conn =>
    obtain ⟨ok, h, rfl, hr₂⟩ := Prog.returns_perform_bind.mp hr₁
    cases ok with
    | false =>
      obtain ⟨_, h, rfl, hr₃⟩ := Prog.returns_perform_bind.mp hr₂
      obtain ⟨rfl, heq⟩ := Prog.returns_pure.mp hr₃
      rw [← Option.some.inj heq, hnone]
      rfl
    | true =>
      obtain ⟨rows, h, rfl, hr₃⟩ := Prog.returns_perform_bind.mp hr₂
      cases rows with
      | none => exact absurd (Prog.returns_pure.mp hr₃).2 (by simp)
      | some rows =>
        obtain ⟨_, h, rfl, hr₄⟩ := Prog.returns_perform_bind.mp hr₃
        obtain ⟨rfl, heq⟩ := Prog.returns_pure.mp hr₄
        have hfetched : fetched [⟨.mysqlAcquire, some conn⟩, ⟨.mysqlQuery conn query, true⟩,
            ⟨.mysqlStoreResult conn, some rows⟩, ⟨.mysqlRelease conn, ()⟩] = rows := by
          simp [fetched]
        rw [← Option.some.inj heq, hfetched, commas_eq_intercalate]
        rfl

theorem isText_rows_iff {α : Type} {row : α → Row} {value : α → Value} {holds : α → Prop}
    (hprints : ∀ a, Prints (json (row a)) (value a) (holds a)) {as : List α}
    (hr : Prog.Returns (tableJson query json) h (some text)) (hfetched : fetched h = as.map row)
    : IsText text (.array (as.map value)) ↔ ∀ a ∈ as, holds a := by
  have harray := @prints_array (as.map fun a => ⟨json (row a), value a, holds a⟩)
    (by simpa using fun a _ => hprints a)
  simp only [List.map_map, Function.comp_def, List.forall_mem_map] at harray
  rw [text_of_returns hr, hfetched, List.map_map]
  exact harray.isText_iff

end Tables

section Answer

/--
What the body of an answer 200 should say.
-/
def okValue (path : Bytes) : Value :=
  .object [(Bytes.ofAscii "message", .string (Bytes.ofAscii "OK")), (Bytes.ofAscii "path", .string path)]

def okMembers (path : Bytes) : List PrintedMember := [
  ⟨[], Bytes.ofAscii "message", [32], 34 :: (Bytes.ofAscii "OK" ++ [34]), .string (Bytes.ofAscii "OK"),
    True⟩,
  ⟨[32], Bytes.ofAscii "path", [32], 34 :: (path ++ [34]), .string path, Plain path⟩
]

theorem prints_okBody (path : Bytes) : Prints (okBody path) (okValue path) (Plain path) := by
  have hstring (s : Bytes) : Prints (34 :: (s ++ [34])) (.string s) (Plain s) := by
    apply (prints_string (List.prefix_refl s)).congr
    simp
  have hok : Plain (Bytes.ofAscii "OK") := plain_of_ascii (by decide)
  have hname : Plain (Bytes.ofAscii "path") := plain_of_ascii (by decide)
  have hblank : Blank [32] := by simp [Blank, isBlank]
  have hwellFormed : ∀ p ∈ okMembers path, p.WellFormed := by
    unfold okMembers
    simp only [List.forall_mem_cons, List.not_mem_nil, false_implies, implies_true, and_true]
    exact ⟨⟨blank_nil, hblank, plain_of_ascii (by decide), (hstring _).congr (iff_true_intro hok)⟩,
      ⟨hblank, hblank, hname, hstring path⟩⟩
  have htext : okBody path = 123 :: (commas ((okMembers path).map PrintedMember.printed) ++ [125]) := by
    simp [okBody, okMembers, PrintedMember.printed, commas, Bytes.ofAscii]
  have hprints := prints_object hwellFormed
  rw [← htext] at hprints
  apply hprints.congr
  simp [okMembers]

def strays (path : Bytes) : ApiOp → Bool
  | .send text => statusOf text = Bytes.ofNat 200 ∧ text ≠ responseText 200 (okBody path)
  | _ => false

variable {path : Bytes}

theorem isSend_of_strays {o : ApiOp} (h : strays path o = true) : o.isSend = true := by
  cases o with
  | send text => rfl
  | add | steadyNow | systemNow | routerMatch | readRule | command => contradiction

theorem strays_of_sends {α : Type} {p : ApiProg α} (h : Sends 0 p) : p.Counts (strays path) 0 := by
  intro h' a hr
  rw [List.countP_eq_zero]
  intro e he hstrays
  exact List.countP_eq_zero.mp (h h' a hr) e he (isSend_of_strays hstrays)

theorem strays_sendResponse {code : Nat} {body : Bytes}
    (h : strays path (.send (responseText code body)) = false)
    : (sendResponse code body).Counts (strays path) 0 := by
  have hcounts : (sendResponse code body).Counts (strays path) _ := Prog.counts_perform _
  rwa [h] at hcounts

theorem strays_rejected {code : Nat} {body : Bytes} (hcode : (Bytes.ofNat code).length = 3)
    (hne : Bytes.ofNat code ≠ Bytes.ofNat 200) : (sendResponse code body).Counts (strays path) 0 := by
  apply strays_sendResponse
  simp [strays, statusOf_responseText body hcode, hne]

theorem strays_respond (req : HttpRequest) (start : Int)
    : (respond req start).Counts (strays req.path) 0 := by
  have hsend : (sendResponse 200 (okBody req.path)).Counts (strays req.path) 0 := by
    apply strays_sendResponse
    simp [strays]
  apply hsend.zero_bind
  intro _
  apply Prog.counts_perform_bind rfl
  intro stop
  exact Prog.counts_perform_bind rfl fun _ => strays_of_sends (LogConsumer.sends_push _ _)

theorem strays_processMatched (rule : Handle) (req : HttpRequest) (start : Int)
    : (processMatched rule req start).Counts (strays req.path) 0 := by
  apply (strays_of_sends (sends_checkAuth rule req)).zero_bind
  intro authorized
  cases authorized with
  | false => exact Prog.counts_perform_bind rfl fun _ => strays_rejected (by decide) (by decide)
  | true =>
    apply (strays_of_sends (sends_checkLimit rule)).zero_bind
    intro allowed
    cases allowed with
    | false => exact Prog.counts_perform_bind rfl fun _ => strays_rejected (by decide) (by decide)
    | true => exact strays_respond req start

theorem strays_processApiRequest (raw : Bytes)
    : (processApiRequest raw).Counts (strays (requestOf raw).path) 0 := by
  have hreturn (p : ApiProg Unit) (hp : p.Counts (strays (requestOf raw).path) 0)
      : (p >>= fun _ => pure (.ok ()) : ApiProg (Except StdException Unit)).Counts
          (strays (requestOf raw).path) 0 :=
    hp.zero_bind fun _ => Prog.counts_pure _
  unfold processApiRequest
  apply Prog.counts_perform_bind rfl
  intro _
  apply Prog.counts_perform_bind rfl
  intro start
  dsimp only
  split
  . exact Prog.counts_pure _
  . exact hreturn _ (strays_rejected (by decide) (by decide))
  . apply Prog.counts_perform_bind rfl
    intro found
    split
    . exact hreturn _ (strays_rejected (by decide) (by decide))
    . exact hreturn _ (strays_processMatched _ _ _)

theorem responseText_injective {code : Nat} {body body' : Bytes}
    (h : responseText code body = responseText code body') : body = body' := by
  have hstop : ∀ s : Bytes, ∀ b ∈ (Bytes.ofAscii "\r\n" ++ s).head?, ¬isDigit b = true := by
    rintro s _ ⟨⟩
    decide
  unfold responseText at h
  simp only [List.append_assoc, List.append_cancel_left_eq] at h
  have hrest := (eq_of_append_eq (fun _ => isDigit_of_mem_ofNat) (fun _ => isDigit_of_mem_ofNat)
    (hstop _) (hstop _) h).2
  simpa only [List.append_cancel_left_eq] using hrest

theorem eq_okBody_of_sent {raw body : Bytes} {h : List ApiEvent} {x : Except StdException Unit}
    (hr : Prog.Returns (processApiRequest raw) h x)
    (hsent : (⟨.send (responseText 200 body), ()⟩ : ApiEvent) ∈ h)
    : body = okBody (requestOf raw).path := by
  have hstrays := List.countP_eq_zero.mp (strays_processApiRequest raw h x hr) _ hsent
  have hcode : (Bytes.ofNat 200).length = 3 := by decide
  simp only [strays, statusOf_responseText body hcode, true_and, decide_not, Bool.not_eq_true',
    decide_eq_false_iff_not, not_not] at hstrays
  exact responseText_injective hstrays

end Answer

section Emitted

/--
What is emitted is read back as the path, the routes and the log rows exactly where nothing in them needs
an escape sequence, no column is `NULL` but the flag, and the flag is 0, 1 or `NULL`.
-/
theorem emitted_iff (raw params : Bytes) (routes : List ApiRoute) (logs : List ApiCallLog)
    : (∀ h x body, Prog.Returns (processApiRequest raw) h x
        →
      (⟨.send (responseText 200 body), ()⟩ : ApiEvent) ∈ h
        →
      (IsText body (okValue (requestOf raw).path) ↔ Plain (requestOf raw).path)) ∧
    (∀ h text, Prog.Returns getRouteListJson h (some text)
        →
      fetched h = routes.map ApiRoute.row
        →
      (IsText text (.array (routes.map ApiRoute.value)) ↔ ∀ route ∈ routes, route.Printable)) ∧
    ∀ h text, Prog.Returns (getLogsJson params) h (some text)
        →
      fetched h = logs.map ApiCallLog.row
        →
      (IsText text (.array (logs.map ApiCallLog.value)) ↔ ∀ log ∈ logs, log.Printable) := by
  refine ⟨?_, ?_, ?_⟩
  . intro h x body hr hsent
    rw [eq_okBody_of_sent hr hsent]
    exact (prints_okBody _).isText_iff
  . intro h text hr hfetched
    exact isText_rows_iff ApiRoute.prints_row hr hfetched
  . intro h text hr hfetched
    exact isText_rows_iff ApiCallLog.prints_row hr hfetched

def openRule : (o : ApiOp) → o.Reply
  | .add _ _ => ()
  | .steadyNow => (0 : Int)
  | .systemNow => (0 : Int)
  | .routerMatch _ => some (⟨0, 0⟩ : Handle)
  | .readRule _ => (⟨[47], false, 0⟩ : RouteRule)
  | .command _ _ => none
  | .send _ => ()

def returnsRows (rows : List Row) : (o : PoolOp) → o.Reply
  | .redisAcquire => (0 : Nat)
  | .redisCommand _ _ => none
  | .redisRelease _ => ()
  | .mysqlAcquire => some (0 : Nat)
  | .mysqlQuery _ _ => true
  | .mysqlStoreResult _ => some rows
  | .mysqlRelease _ => ()
  | .swapRules _ => ()
  | .api o => openRule o

theorem sent_openRule (raw : Bytes)
    (hresult : (HttpParser.parse HttpParser.new raw HttpRequest.new).result = .ok true)
    : (⟨.send (responseText 200 (okBody (requestOf raw).path)), ()⟩ : ApiEvent)
        ∈ ((processApiRequest raw).play openRule).1 := by
  unfold processApiRequest
  rw [Prog.play_perform_bind, Prog.play_perform_bind]
  dsimp only
  rw [hresult]
  -- the counter, the clock, the table and the rule twice come before the answer
  apply List.mem_cons_of_mem
  apply List.mem_cons_of_mem
  apply List.mem_cons_of_mem
  apply List.mem_cons_of_mem
  apply List.mem_cons_of_mem
  exact List.mem_cons_self

def requestTest : Bytes := Bytes.ofAscii "GET /api/test HTTP/1.1\r\n\r\n"

def logTest : ApiCallLog :=
  ⟨some (Bytes.ofAscii "/api/test"), some 0, some 200, some (Number.ofInt 3), some ⟨2026, 1, 31, 8, 5, 0⟩⟩

theorem emitted_iff_test
    : IsText (okBody (requestOf requestTest).path) (okValue (requestOf requestTest).path) ∧
        (∃ text, (getRouteListJson.play (returnsRows [Routing.testRoute.row])).2 = some text ∧
          IsText text (.array [Routing.testRoute.value])) ∧
        ∃ text, ((getLogsJson []).play (returnsRows [logTest.row])).2 = some text ∧
          IsText text (.array [logTest.value]) := by
  have hemitted := emitted_iff requestTest [] [Routing.testRoute] [logTest]
  refine ⟨?_, ⟨_, rfl, ?_⟩, ⟨_, rfl, ?_⟩⟩
  . apply (hemitted.1 _ _ _ (Prog.returns_play openRule _)
      (sent_openRule requestTest (by decide))).mpr
    exact plain_of_ascii (by decide)
  . apply (hemitted.2.1 _ _ (Prog.returns_play (returnsRows _) _) rfl).mpr
    rw [List.forall_mem_singleton]
    exact ⟨plain_of_ascii (by decide), plain_of_ascii (by decide), .inr (.inr rfl), by decide⟩
  . apply (hemitted.2.2 _ _ (Prog.returns_play (returnsRows _) _) rfl).mpr
    rw [List.forall_mem_singleton]
    exact ⟨⟨_, rfl, plain_of_ascii (by decide)⟩, by decide, by decide, Option.some_ne_none _, by decide⟩

def requestQuote : Bytes := Bytes.ofAscii "GET /\" HTTP/1.1\r\n\r\n"

/--
`loadFromMySQL` takes 2 for a flag that is set.
-/
def routeTwo : ApiRoute := { Routing.testRoute with need_auth := some 2 }

theorem not_emitted_quote
    : (∃ h x body, Prog.Returns (processApiRequest requestQuote) h x ∧
          (⟨.send (responseText 200 body), ()⟩ : ApiEvent) ∈ h ∧
          ¬IsText body (okValue (requestOf requestQuote).path)) ∧
        ∃ h text, Prog.Returns getRouteListJson h (some text) ∧ fetched h = [routeTwo.row] ∧
          ¬IsText text (.array [routeTwo.value]) := by
  constructor
  . refine ⟨_, _, _, Prog.returns_play openRule _, sent_openRule requestQuote (by decide), fun htext => ?_⟩
    have hplain := (prints_okBody _).isText_iff.mp htext
    exact (hplain.of_mem (b := 34) (by decide)).2.1 rfl
  . refine ⟨_, _, Prog.returns_play (returnsRows [routeTwo.row]) _, rfl, fun htext => ?_⟩
    have hrows : IsText _ (.array ([routeTwo].map ApiRoute.value))
        ↔ ∀ route ∈ [routeTwo], route.Printable :=
      isText_rows_iff ApiRoute.prints_row
        (Prog.returns_play (returnsRows [routeTwo.row]) getRouteListJson) rfl
    have hauth := (hrows.mp htext routeTwo List.mem_cons_self).need_auth
    revert hauth
    decide

end Emitted

end Gateway

end LFGateway
