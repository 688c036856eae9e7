import LFGateway.Routes.Coherence
import LFGateway.Routes.DeleteId
import LFGateway.Routes.Messages

/-!
This module contains which management messages get their answer: the ones that have an argument where
the handler cuts them, and that do not list a text with a line break.
-/

namespace LFGateway

open Foundation

namespace Management

/--
A text with one line break, at its end.
-/
def ReplyLine (text : Bytes) : Prop := ∃ line, text = line ++ [10] ∧ 10 ∉ line

def AnsweredOnce (s : Management) (result : Option Unit) (s' : Management) : Prop :=
  result = some () ∧ ∃ text, s'.sent = s.sent ++ [text] ∧ ReplyLine text

/--
A message whose command is followed by an argument, or needs none; an id to delete fits an `int`, and no
listed text has a line break.
-/
@[mk_iff]
structure Answerable (s : Management) (data : Bytes) : Prop where
  routeList : data.find MgmtHandler.ROUTE_LIST = some 0 →
    ∀ route ∈ s.api_routes, 10 ∉ route.path_pattern.cStr ∧ 10 ∉ route.target_host.cStr
  routeAdd : data ≠ MgmtHandler.ROUTE_ADD
  routeDelete : data.find MgmtHandler.ROUTE_DELETE = some 0 →
    data ≠ MgmtHandler.ROUTE_DELETE ∧
      ∀ idStr ∈ Gateway.idText (data.drop 13), idStr.toNat < 2 ^ 31
  logQuery : data.find MgmtHandler.LOG_QUERY = some 0 →
    data ≠ MgmtHandler.LOG_QUERY ∧ ∀ row ∈ s.latest, ∀ k < 5, ∀ text ∈ row.col k, 10 ∉ text

variable {s : Management} {data json : Bytes}

section Texts

theorem replyLine_append {text : Bytes} : ReplyLine (text ++ Bytes.ofAscii "\n") ↔ 10 ∉ text := by
  have hbreak : Bytes.ofAscii "\n" = [10] := rfl
  rw [hbreak, ReplyLine]
  constructor
  . rintro ⟨line, heq, hline⟩
    rwa [List.append_cancel_right heq]
  . intro htext
    exact ⟨text, rfl, htext⟩

theorem mem_separated {b : UInt8} (hcomma : b ≠ 44) (texts : List Bytes)
    : b ∈ Gateway.separated texts ↔ ∃ text ∈ texts, b ∈ text := by
  unfold Gateway.separated
  induction texts with
  | nil => simp
  | cons text texts ih =>
    cases texts with
    | nil => simp
    | cons next texts =>
      rw [List.intercalate_cons_cons, List.mem_append, List.mem_append, ih]
      simp [Bytes.ofAscii, hcomma]

theorem notMem_tableText (rows : List Row) (json : Row → Bytes)
    : 10 ∉ Bytes.ofAscii "[" ++ Gateway.separated (rows.map json) ++ Bytes.ofAscii "]"
        ↔
      ∀ row ∈ rows, 10 ∉ json row := by
  have hopen : 10 ∉ Bytes.ofAscii "[" := by decide
  have hclose : 10 ∉ Bytes.ofAscii "]" := by decide
  rw [List.mem_append, List.mem_append, mem_separated (by decide)]
  simp [hopen, hclose]

theorem notMem_colOr {row : Row} {k : Nat} {other : String} (hother : 10 ∉ Bytes.ofAscii other)
    : 10 ∉ Gateway.colOr row k other ↔ ∀ text ∈ row.col k, 10 ∉ text := by
  unfold Gateway.colOr
  cases row.col k with
  | none => simp [hother]
  | some text => simp

theorem notMem_logJson (row : Row)
    : 10 ∉ Gateway.logJson row ↔ ∀ k < 5, ∀ text ∈ row.col k, 10 ∉ text := by
  have hfixed : ∀ text ∈ [Bytes.ofAscii "\x7b", Bytes.ofAscii "\"path\":\"", Bytes.ofAscii "\",",
      Bytes.ofAscii "\"userId\":", Bytes.ofAscii ",", Bytes.ofAscii "\"status\":",
      Bytes.ofAscii "\"latency\":", Bytes.ofAscii "\"time\":\"", Bytes.ofAscii "\"",
      Bytes.ofAscii "\x7d"], 10 ∉ text := by decide
  simp only [List.forall_mem_cons, List.not_mem_nil, IsEmpty.forall_iff, implies_true, and_true]
    at hfixed
  unfold Gateway.logJson
  simp only [List.mem_append, not_or, hfixed, true_and, and_true, not_false_eq_true]
  rw [notMem_colOr (by decide), notMem_colOr (by decide), notMem_colOr (by decide),
    notMem_colOr (by decide), notMem_colOr (by decide)]
  constructor
  . rintro ⟨⟨⟨⟨h₀, h₁⟩, h₂⟩, h₃⟩, h₄⟩ k hk
    match k with
    | 0 => exact h₀
    | 1 => exact h₁
    | 2 => exact h₂
    | 3 => exact h₃
    | 4 => exact h₄
    | k + 5 => omega
  . intro h
    exact ⟨⟨⟨⟨h 0 (by decide), h 1 (by decide)⟩, h 2 (by decide)⟩, h 3 (by decide)⟩, h 4 (by decide)⟩

theorem notMem_routeJson (route : ApiRoute)
    : 10 ∉ Gateway.routeJson route.row
        ↔
      10 ∉ route.path_pattern.cStr ∧ 10 ∉ route.target_host.cStr := by
  have hnumber : ∀ n, 10 ∉ (Bytes.ofInt n).cStr := by
    intro n hmem
    exact Bytes.notMem_ofInt (by decide) (by decide) n (Bytes.cStr_subset _ hmem)
  have hid : 10 ∉ Gateway.colOr route.row 0 "0" := hnumber _
  have hport : 10 ∉ Gateway.colOr route.row 3 "0" := hnumber _
  have hrate : 10 ∉ Gateway.colOr route.row 5 "0" := by
    rw [notMem_colOr (by decide), Routing.col_rate_limit]
    cases route.rate_limit with
    | none => simp
    | some rate => simpa using hnumber rate.toInt
  have hpath : Gateway.colOr route.row 1 "" = route.path_pattern.cStr := rfl
  have hhost : Gateway.colOr route.row 2 "" = route.target_host.cStr := rfl
  have hfixed : ∀ text ∈ [Bytes.ofAscii "\x7b", Bytes.ofAscii "\"id\":", Bytes.ofAscii ",",
      Bytes.ofAscii "\"path\":\"", Bytes.ofAscii "\",", Bytes.ofAscii "\"target\":\"",
      Bytes.ofAscii ":", Bytes.ofAscii "\"auth\":", Bytes.ofAscii "true", Bytes.ofAscii "false",
      Bytes.ofAscii "\"rateLimit\":", Bytes.ofAscii "\x7d"], 10 ∉ text := by decide
  simp only [List.forall_mem_cons, List.not_mem_nil, IsEmpty.forall_iff, implies_true, and_true]
    at hfixed
  unfold Gateway.routeJson
  simp only [List.mem_append, not_or, hfixed, hid, hport, hrate, hpath, hhost, true_and, and_true,
    not_false_eq_true]
  apply and_iff_left
  cases route.row.col 4 with
  | none => simp only [hfixed, not_false_eq_true]
  | some text =>
    by_cases htext : text = Bytes.ofAscii "1"
    . simp only [htext, ↓reduceIte, hfixed, not_false_eq_true]
    . simp only [htext, ↓reduceIte, hfixed, not_false_eq_true]

end Texts

section Calls

variable {α : Type}

/--
What a call to the gateway leaves for its handler: nothing was sent yet.
-/
abbrev Computes (s : Management) (post : α → Prop) (p : PoolProg α) : Prop :=
  poolReplies.Ensures (fun r s' => post r ∧ s'.sent = s.sent) s p

theorem sent_execute (s : Management) (query : Query) : (s.execute query).sent = s.sent := by
  cases query <;> rfl

theorem ensures_acquire_bind {post : α → Management → Prop} {f : Option Conn → PoolProg α}
    (hnext : ∀ conn, poolReplies.Ensures post s (f (some conn)))
    : poolReplies.Ensures post s (Pools.perform .mysqlAcquire >>= f) := by
  apply Surroundings.ensures_perform_bind
  rintro conn _ ⟨hconn, rfl⟩
  cases conn with
  | none => contradiction
  | some conn => exact hnext conn

theorem computes_loadFromMySQL : Computes s (· = some true) Router.loadFromMySQL := by
  unfold Router.loadFromMySQL
  apply ensures_acquire_bind
  intro conn
  apply Surroundings.ensures_perform_bind
  rintro _ _ ⟨rfl, rfl⟩
  apply Surroundings.ensures_perform_bind
  rintro _ _ ⟨⟨rows, rfl, routes, _, rfl⟩, rfl⟩
  dsimp only
  rw [Routing.rulesOfRows_map]
  apply Surroundings.ensures_perform_bind
  rintro _ _ rfl
  apply Surroundings.ensures_perform_bind
  rintro _ _ rfl
  exact ⟨rfl, rfl⟩

theorem computes_deleteRoute (json : Bytes)
    : Computes s
        (fun r => r ≠ none ↔ ∀ idStr ∈ Gateway.idText json, idStr.toNat < 2 ^ 31)
        (Gateway.deleteRoute json) := by
  unfold Gateway.deleteRoute
  cases hid : Gateway.idText json with
  | none => exact ⟨by simp, rfl⟩
  | some idStr =>
    obtain ⟨hne, hdigits⟩ := Gateway.digits_of_idText hid
    dsimp only
    rw [stoi_digits hne hdigits]
    by_cases hfits : idStr.toNat < 2 ^ 31
    . rw [if_pos hfits]
      apply ensures_acquire_bind
      intro conn
      apply Surroundings.ensures_perform_bind
      rintro _ _ ⟨rfl, rfl⟩
      apply Surroundings.ensures_perform_bind
      rintro _ _ rfl
      apply computes_loadFromMySQL.bind
      rintro _ s' ⟨rfl, hsent⟩
      exact ⟨by simpa using hfits, hsent⟩
    . rw [if_neg hfits]
      exact ⟨by simpa using hfits, rfl⟩

theorem computes_tableJson (query : Query) (json : Row → Bytes)
    : Computes s
        (fun r => ∃ rows, (s.execute query).Returns rows ∧
          r = some (Bytes.ofAscii "[" ++ Gateway.separated (rows.map json) ++ Bytes.ofAscii "]"))
        (Gateway.tableJson query json) := by
  unfold Gateway.tableJson
  apply ensures_acquire_bind
  intro conn
  apply Surroundings.ensures_perform_bind
  rintro _ _ ⟨rfl, rfl⟩
  apply Surroundings.ensures_perform_bind
  rintro _ _ ⟨⟨rows, rfl, hrows⟩, rfl⟩
  apply Surroundings.ensures_perform_bind
  rintro _ _ rfl
  exact ⟨⟨rows, hrows, rfl⟩, sent_execute _ query⟩

end Calls

section Handlers

variable {α : Type} {P : Prop}

theorem ensures_send (text : Bytes)
    : poolReplies.Ensures (fun _ s' => s'.sent = s.sent ++ [text]) s
        (Pools.perform (.api (.send text))) := by
  apply Surroundings.ensures_perform
  rintro _ _ rfl
  rfl

theorem ensures_sendLine (text : Bytes)
    : poolReplies.Ensures (fun _ s' => AnsweredOnce s (some ()) s' ↔ 10 ∉ text) s
        (MgmtHandler.sendLine (some text)) := by
  apply (ensures_send _).mono
  intro _ s' hsent
  rw [← replyLine_append, AnsweredOnce, hsent]
  simp

theorem ensures_handled_sendLine {call : PoolProg (Option Bytes)}
    (hcall : Computes s (fun r => ∃ text, r = some text ∧ (10 ∉ text ↔ P)) call)
    : poolReplies.Ensures (fun r s' => AnsweredOnce s r s' ↔ P) s
        (MgmtHandler.handled call MgmtHandler.sendLine) := by
  apply hcall.bind
  rintro _ t ⟨⟨text, rfl, htext⟩, hsent⟩
  apply (ensures_sendLine text).bind
  intro _ s' hanswered
  rw [AnsweredOnce, hsent] at hanswered
  exact hanswered.trans htext

theorem ensures_handled_report {call : PoolProg (Option Bool)}
    (hcall : Computes s (fun r => r ≠ none ↔ P) call)
    : poolReplies.Ensures (fun r s' => AnsweredOnce s r s' ↔ P) s
        (MgmtHandler.handled call MgmtHandler.report) := by
  have hok : ReplyLine MgmtHandler.okText :=
    ⟨MgmtHandler.okText.dropLast, by decide, by decide⟩
  have hfailed : ReplyLine MgmtHandler.failedText :=
    ⟨MgmtHandler.failedText.dropLast, by decide, by decide⟩
  apply hcall.bind
  rintro r t ⟨hr, hsent⟩
  match r with
  | none =>
    have hnot : ¬P := by simpa using hr
    refine iff_of_false ?_ hnot
    rintro ⟨hnone, _⟩
    contradiction
  | some true =>
    apply (ensures_send _).bind
    intro _ s' htext
    exact iff_of_true ⟨rfl, _, by rw [htext, hsent], hok⟩ (hr.mp (by simp))
  | some false =>
    apply (ensures_send _).bind
    intro _ s' htext
    exact iff_of_true ⟨rfl, _, by rw [htext, hsent], hfailed⟩ (hr.mp (by simp))

theorem ensures_routeList
    : poolReplies.Ensures (fun r s' => AnsweredOnce s r s' ↔ ∀ route ∈ s.api_routes,
        10 ∉ route.path_pattern.cStr ∧ 10 ∉ route.target_host.cStr) s
        (MgmtHandler.handled Gateway.getRouteListJson MgmtHandler.sendLine) := by
  apply ensures_handled_sendLine
  apply (computes_tableJson _ _).mono
  rintro _ s' ⟨⟨rows, ⟨routes, hperm, rfl⟩, rfl⟩, hsent⟩
  refine ⟨⟨_, rfl, ?_⟩, hsent⟩
  rw [notMem_tableText, List.forall_mem_map]
  simp only [notMem_routeJson]
  constructor
  . exact fun h route hroute => h route (hperm.mem_iff.mpr hroute)
  . exact fun h route hroute => h route (hperm.mem_iff.mp hroute)

theorem ensures_logQuery (body : Bytes)
    : poolReplies.Ensures (fun r s' => AnsweredOnce s r s' ↔ ∀ row ∈ s.latest, ∀ k < 5,
        ∀ text ∈ row.col k, 10 ∉ text) s
        (MgmtHandler.handled (Gateway.getLogsJson body) MgmtHandler.sendLine) := by
  apply ensures_handled_sendLine
  apply (computes_tableJson _ _).mono
  rintro _ s' ⟨⟨rows, rfl, rfl⟩, hsent⟩
  refine ⟨⟨_, rfl, ?_⟩, hsent⟩
  rw [notMem_tableText]
  simp only [notMem_logJson]
  exact Iff.rfl

end Handlers

section Messages

theorem ensures_call {α : Type} {post : α → Management → Prop} {p : PoolProg α}
    (hp : poolReplies.Ensures post s p) : replies.Ensures post s (Mgmt.call p) :=
  Surroundings.ensures_lower (fun _ _ => Surroundings.ensures_perform fun _ _ hreply => hreply) hp

theorem ne_digit {d : Nat} (hd : d < 10) : 10 ≠ Bytes.digit d := by
  intro heq
  have hnat := Bytes.toNat_digit hd
  rw [← heq] at hnat
  have h10 : (10 : UInt8).toNat = 10 := rfl
  omega

theorem notMem_uint64 (n : UInt64) : 10 ∉ Gateway.uint64 n := by
  intro hmem
  obtain ⟨d, hd, heq⟩ := Bytes.exists_digit_of_mem_ofNat hmem
  exact ne_digit hd heq

theorem notMem_ofRatio (num den : Nat) : 10 ∉ Bytes.ofRatio num den := by
  intro hmem
  rcases Bytes.mem_ofRatio hmem with hsign | ⟨d, hd, heq⟩
  . exact absurd hsign (by decide)
  . exact ne_digit hd heq

theorem ensures_getStatsJson
    : replies.Ensures (fun json s' => 10 ∉ json ∧ s' = s) s Gateway.getStatsJson := by
  unfold Gateway.getStatsJson
  apply Surroundings.ensures_perform_bind
  rintro reqs _ rfl
  apply Surroundings.ensures_perform_bind
  rintro latUs _ rfl
  apply Surroundings.ensures_perform_bind
  rintro rejectedAuth _ rfl
  apply Surroundings.ensures_perform_bind
  rintro rejectedLimit _ rfl
  have havg : 10 ∉ (if 0 < reqs then Bytes.ofRatio latUs.toNat (1000 * reqs.toNat) else Bytes.ofNat 0) := by
    split
    . exact notMem_ofRatio _ _
    . decide
  have hfixed : ∀ text ∈ [Bytes.ofAscii "\x7b\"totalRequests\":", Bytes.ofAscii ",\"avgLatencyMs\":",
      Bytes.ofAscii ",\"rejectedAuth\":", Bytes.ofAscii ",\"rejectedLimit\":",
      Bytes.ofAscii "\x7d"], 10 ∉ text := by decide
  simp only [List.forall_mem_cons, List.not_mem_nil, IsEmpty.forall_iff, implies_true, and_true]
    at hfixed
  refine ⟨?_, rfl⟩
  simp only [List.mem_append, not_or, hfixed, notMem_uint64, havg, and_self, not_false_eq_true]

theorem ensures_getHealthJson
    : replies.Ensures (fun json s' => 10 ∉ json ∧ s' = s) s Gateway.getHealthJson := by
  unfold Gateway.getHealthJson
  apply Surroundings.ensures_perform_bind
  rintro reqs _ rfl
  apply Surroundings.ensures_perform_bind
  rintro active _ rfl
  apply Surroundings.ensures_perform_bind
  rintro idle _ rfl
  apply Surroundings.ensures_perform_bind
  rintro acquires _ rfl
  apply Surroundings.ensures_perform_bind
  rintro timeouts _ rfl
  have hfixed : ∀ text ∈ [Bytes.ofAscii "\x7b", Bytes.ofAscii "\"status\":\"running\",",
      Bytes.ofAscii "\"totalRequests\":", Bytes.ofAscii ",", Bytes.ofAscii "\"activeConnections\":",
      Bytes.ofAscii "running", Bytes.ofAscii "\"mysqlPool\":\x7b", Bytes.ofAscii "\"active\":",
      Bytes.ofAscii "\"idle\":", Bytes.ofAscii "\"totalAcquires\":",
      Bytes.ofAscii "\"totalTimeouts\":", Bytes.ofAscii "\x7d,",
      Bytes.ofAscii "\"redisPool\":\"connected\"", Bytes.ofAscii "\x7d"], 10 ∉ text := by decide
  simp only [List.forall_mem_cons, List.not_mem_nil, IsEmpty.forall_iff, implies_true, and_true]
    at hfixed
  refine ⟨?_, rfl⟩
  simp only [List.mem_append, not_or, hfixed, notMem_uint64, and_self, not_false_eq_true]

theorem find_eq_zero_iff {pat : Bytes} : data.find pat = some 0 ↔ pat <+: data := by
  constructor
  . intro h
    exact Bytes.find_prefix_drop h
  . exact Bytes.find_of_prefix

theorem find_ne_of_find {pat : Bytes} (pat' : Bytes) (h : data.find pat = some 0)
    (hpat : ¬pat <+: pat' ∧ ¬pat' <+: pat) : data.find pat' ≠ some 0 := by
  rw [find_eq_zero_iff] at h
  rw [ne_eq, find_eq_zero_iff]
  intro h'
  exact (List.prefix_or_prefix_of_prefix h h').elim hpat.1 hpat.2

theorem ne_of_find_ne {pat : Bytes} (h : data.find pat ≠ some 0) : data ≠ pat := by
  rintro rfl
  exact h (Bytes.find_of_prefix (List.prefix_refl _))

theorem substr_eq {pat : Bytes} {n : Nat} (h : data.find pat = some 0) (hn : n = pat.length + 1)
    : MgmtHandler.substr data n = if data = pat then none else some (data.drop n) := by
  obtain ⟨rest, rfl⟩ := find_eq_zero_iff.mp h
  have hshort : (pat ++ rest).length < n ↔ pat ++ rest = pat := by
    rw [List.length_append, hn, List.append_right_eq_self]
    cases rest <;> simp
  unfold MgmtHandler.substr
  simp only [hshort]

theorem answerable_of_find_ne (hlist : data.find MgmtHandler.ROUTE_LIST ≠ some 0)
    (hadd : data.find MgmtHandler.ROUTE_ADD ≠ some 0)
    (hdelete : data.find MgmtHandler.ROUTE_DELETE ≠ some 0)
    (hquery : data.find MgmtHandler.LOG_QUERY ≠ some 0) : Answerable s data where
  routeList h := absurd h hlist
  routeAdd := ne_of_find_ne hadd
  routeDelete h := absurd h hdelete
  logQuery h := absurd h hquery

theorem answerable_of_find {pat : Bytes} (h : data.find pat = some 0)
    (hpat : ∀ pat' ∈ [MgmtHandler.ROUTE_LIST, MgmtHandler.ROUTE_ADD, MgmtHandler.ROUTE_DELETE,
      MgmtHandler.LOG_QUERY], ¬pat <+: pat' ∧ ¬pat' <+: pat) : Answerable s data := by
  simp only [List.forall_mem_cons] at hpat
  obtain ⟨hlist, hadd, hdelete, hquery, _⟩ := hpat
  exact answerable_of_find_ne (find_ne_of_find _ h hlist) (find_ne_of_find _ h hadd)
    (find_ne_of_find _ h hdelete) (find_ne_of_find _ h hquery)

theorem ensures_answered {text : Bytes} (htext : 10 ∉ text) (hanswerable : Answerable s data)
    : replies.Ensures (fun r s' => AnsweredOnce s r s' ↔ Answerable s data) s
        (do Mgmt.call (MgmtHandler.sendLine (some text)); return some ()) := by
  apply (ensures_call (ensures_sendLine text)).bind
  intro _ s' hanswered
  exact iff_of_true (hanswered.mpr htext) hanswerable

theorem ensures_argument {pat : Bytes} {n : Nat} {P : Prop} (call : Bytes → PoolProg (Option Unit))
    (h : data.find pat = some 0) (hn : n = pat.length + 1)
    (hanswerable : Answerable s data ↔ data ≠ pat ∧ P)
    (hcall : poolReplies.Ensures (fun r s' => AnsweredOnce s r s' ↔ P) s (call (data.drop n)))
    : replies.Ensures (fun r s' => AnsweredOnce s r s' ↔ Answerable s data) s
        (match MgmtHandler.substr data n with
          | none => return none
          | some body => Mgmt.call (call body)) := by
  rw [substr_eq h hn, hanswerable]
  by_cases heq : data = pat
  . rw [if_pos heq]
    refine iff_of_false ?_ (fun h => h.1 heq)
    rintro ⟨hnone, _⟩
    contradiction
  . rw [if_neg heq]
    apply (ensures_call hcall).mono
    intro r s' hanswered
    rw [hanswered]
    simp [heq]

theorem ensures_onMessage (s : Management) (data : Bytes)
    : replies.Ensures (fun r s' => AnsweredOnce s r s' ↔ Answerable s data) s
        (MgmtHandler.onMessage data) := by
  unfold MgmtHandler.onMessage
  split
  . next hstats =>
    apply ensures_getStatsJson.bind
    rintro json _ ⟨hjson, rfl⟩
    exact ensures_answered hjson (answerable_of_find hstats (by decide))
  split
  . next hhealth =>
    apply ensures_getHealthJson.bind
    rintro json _ ⟨hjson, rfl⟩
    exact ensures_answered hjson (answerable_of_find hhealth (by decide))
  split
  . next hlist =>
    have hadd := find_ne_of_find MgmtHandler.ROUTE_ADD hlist (by decide)
    have hdelete := find_ne_of_find MgmtHandler.ROUTE_DELETE hlist (by decide)
    have hquery := find_ne_of_find MgmtHandler.LOG_QUERY hlist (by decide)
    have hanswerable : Answerable s data ↔ ∀ route ∈ s.api_routes,
        10 ∉ route.path_pattern.cStr ∧ 10 ∉ route.target_host.cStr := by
      simp [answerable_iff, hlist, ne_of_find_ne hadd, hdelete, hquery]
    rw [hanswerable]
    exact ensures_call ensures_routeList
  split
  . next hlist hadd =>
    have hdelete := find_ne_of_find MgmtHandler.ROUTE_DELETE hadd (by decide)
    have hquery := find_ne_of_find MgmtHandler.LOG_QUERY hadd (by decide)
    have hanswerable : Answerable s data ↔ data ≠ MgmtHandler.ROUTE_ADD ∧ True := by
      simp [answerable_iff, hlist, hdelete, hquery]
    apply ensures_argument (fun body =>
      MgmtHandler.handled (Gateway.addRoute body) MgmtHandler.report) hadd rfl hanswerable
    apply ensures_handled_report
    apply computes_loadFromMySQL.mono
    rintro _ s' ⟨rfl, hsent⟩
    exact ⟨by simp, hsent⟩
  split
  . next hlist hadd hdelete =>
    have hquery := find_ne_of_find MgmtHandler.LOG_QUERY hdelete (by decide)
    have hanswerable : Answerable s data ↔ data ≠ MgmtHandler.ROUTE_DELETE ∧
        ∀ idStr ∈ Gateway.idText (data.drop 13), idStr.toNat < 2 ^ 31 := by
      simp [answerable_iff, hlist, ne_of_find_ne hadd, hdelete, hquery]
    exact ensures_argument (fun body =>
      MgmtHandler.handled (Gateway.deleteRoute body) MgmtHandler.report) hdelete rfl hanswerable
      (ensures_handled_report (computes_deleteRoute _))
  split
  . next hlist hadd hdelete hquery =>
    have hanswerable : Answerable s data ↔ data ≠ MgmtHandler.LOG_QUERY ∧
        ∀ row ∈ s.latest, ∀ k < 5, ∀ text ∈ row.col k, 10 ∉ text := by
      simp [answerable_iff, hlist, ne_of_find_ne hadd, hdelete, hquery]
    exact ensures_argument (fun body =>
      MgmtHandler.handled (Gateway.getLogsJson body) MgmtHandler.sendLine) hquery rfl hanswerable
      (ensures_logQuery _)
  . next hlist hadd hdelete hquery =>
    exact ensures_answered (by decide) (answerable_of_find_ne hlist hadd hdelete hquery)

/--
Every message gets one line as its answer, and no exception leaves the handler, exactly if it is
answerable.
-/
theorem onMessage_answeredOnce_iff {s s' : Management} {data : Bytes} {h : List MgmtEvent} {result : Option Unit}
    (hr : Prog.Returns (MgmtHandler.onMessage data) h result) (hhappen : replies.Happen s h s')
    : AnsweredOnce s result s' ↔ Answerable s data :=
  (ensures_onMessage s data).of_returns hr hhappen

def oneRoute : Management := ⟨[Routing.testRoute], [], none, []⟩

def listing : List MgmtEvent := [
  ⟨.pool .mysqlAcquire, some (0 : Conn)⟩,
  ⟨.pool (.mysqlQuery 0 .selectRoutes), true⟩,
  ⟨.pool (.mysqlStoreResult 0), some [Routing.testRoute.row]⟩,
  ⟨.pool (.mysqlRelease 0), ()⟩,
  ⟨.pool (.api (.send (Bytes.ofAscii "[" ++ Gateway.separated [Gateway.routeJson Routing.testRoute.row] ++
    Bytes.ofAscii "]" ++ Bytes.ofAscii "\n"))), ()⟩
]

theorem onMessage_answeredOnce_iff_listing
    : ∃ s', replies.Happen oneRoute listing s' ∧ AnsweredOnce oneRoute (some ()) s' := by
  have hhappen : replies.Happen oneRoute listing _ :=
    .cons ⟨by simp, rfl⟩ (.cons ⟨rfl, rfl⟩ (.cons ⟨⟨_, rfl, [Routing.testRoute], .refl _, rfl⟩, rfl⟩
      (.cons rfl (.cons rfl (.nil _)))))
  have hr : Prog.Returns (MgmtHandler.onMessage MgmtHandler.ROUTE_LIST) listing (some ()) := by
    unfold listing
    iterate 5 apply Prog.Does.cons
    exact .nil _
  have hanswerable : Answerable oneRoute MgmtHandler.ROUTE_LIST := by
    refine ⟨fun _ => by decide, by decide, ?_, ?_⟩
    . exact fun hdelete => absurd hdelete (by decide)
    . exact fun hquery => absurd hquery (by decide)
  exact ⟨_, hhappen, (onMessage_answeredOnce_iff hr hhappen).mpr hanswerable⟩

/--
`ROUTE_ADD` with nothing behind it: `substr` throws.
-/
theorem not_answeredOnce_routeAdd
    : Prog.Returns (MgmtHandler.onMessage (Bytes.ofAscii "ROUTE_ADD")) [] none ∧
        replies.Happen oneRoute [] oneRoute ∧ ¬AnsweredOnce oneRoute none oneRoute := by
  refine ⟨.nil _, .nil _, ?_⟩
  rintro ⟨hnone, _⟩
  contradiction

end Messages

end Management
end LFGateway
