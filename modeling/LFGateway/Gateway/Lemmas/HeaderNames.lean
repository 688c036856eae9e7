import LFGateway.Gateway.Impl.Keyed
import LFGateway.Gateway.Lemmas.Auth
import LFGateway.Http.HeaderNames

/-!
This module contains when two requests that differ in the letter case of their header field names only
are answered with the same status.
-/

namespace LFGateway

open Foundation

namespace Gateway

/--
What becomes of a command: it is answered, or the connection is lost before or after its execution.
-/
inductive Delivery where
  | answered
  | lostBefore
  | lostAfter
  deriving DecidableEq, Repr

/--
What a request finds: the rule table, what Redis does, and for its `n`-th operation the time and what
becomes of a command.
-/
structure Setting (V : Type) where
  rules_ : List RouteRule
  redis : KeyedRedis V
  time : Nat → Int
  delivery : Nat → Delivery

def statuses (h : List ApiEvent) : List Bytes :=
  (visible h).filterMap fun
    | .answer status => some status
    | _ => none

namespace Setting

variable {V : Type}

/--
The reply to the `n`-th operation, and what Redis holds after it. A rule is only read where it was
found.
-/
def reply (setting : Setting V) : Nat × KeyedRedis.Store V → (o : ApiOp)
    → o.Reply × (Nat × KeyedRedis.Store V)
  | (n, store), .add _ _ => ((), n + 1, store)
  | (n, store), .steadyNow => (setting.time n, n + 1, store)
  | (n, store), .systemNow => (setting.time n, n + 1, store)
  | (n, store), .routerMatch path => (Router.match 0 setting.rules_ path, n + 1, store)
  | (n, store), .readRule rule => ((setting.rules_[rule.index]?).getD ⟨[], false, 0⟩, n + 1, store)
  | (n, store), .command _ cmd =>
    let (reply, written) := setting.redis.execute store cmd (setting.time n)
    match setting.delivery n with
    | .answered => (some reply, n + 1, written)
    | .lostBefore => (none, n + 1, store)
    | .lostAfter => (none, n + 1, written)
  | (n, store), .send _ => ((), n + 1, store)

/--
The statuses of the answers to a request text. There is none where the parser throws.
-/
def statuses (setting : Setting V) (store : KeyedRedis.Store V) (raw : Bytes) : List Bytes :=
  Gateway.statuses ((processApiRequest raw).playFrom setting.reply (0, store)).1

end Setting

/--
With every rule table and every Redis, the answers to two texts have the same status.
-/
def AnsweredAlike (raw raw' : Bytes) : Prop :=
  ∀ (V : Type) (setting : Setting V) (store : KeyedRedis.Store V),
    setting.statuses store raw = setting.statuses store raw'

section Alike

variable {raw raw' : Bytes} {req req' : HttpRequest}

theorem get_congr {via : Member} {key key' : Bytes} (h : key.cStr = key'.cStr)
    : RedisClient.get via key = RedisClient.get via key' := by
  unfold RedisClient.get
  rw [h]
  apply bind_congr
  intro reply
  cases reply with
  | none => rfl
  | some reply => cases reply <;> rfl

theorem validate_congr {token token' : Bytes} (h : token.cStr = token'.cStr)
    : AuthPlugin.validate token = AuthPlugin.validate token' := by
  have hkey : (Bytes.ofAscii "token:" ++ token).cStr = (Bytes.ofAscii "token:" ++ token').cStr := by
    rw [Bytes.cStr_append (by decide), Bytes.cStr_append (by decide), h]
  unfold AuthPlugin.validate
  rw [get_congr hkey]

theorem processMatched_congr (hpath : req.path = req'.path)
    (htoken : (bearerToken req).cStr = (bearerToken req').cStr) (rule : Handle) (start : Int)
    : processMatched rule req start = processMatched rule req' start := by
  unfold processMatched checkAuth respond
  rw [validate_congr htoken, hpath]

theorem processApiRequest_congr (h : HttpParser.ReadAlike raw raw')
    (htoken : (HttpParser.parse HttpParser.new raw HttpRequest.new).result = .ok true →
      (bearerToken (requestOf raw)).cStr = (bearerToken (requestOf raw')).cStr)
    : processApiRequest raw = processApiRequest raw' := by
  unfold processApiRequest
  apply bind_congr
  intro _
  apply bind_congr
  intro start
  dsimp only
  cases hparsed : (HttpParser.parse HttpParser.new raw HttpRequest.new).result with
  | error e =>
    rw [← h.result, hparsed]
  | ok ready =>
    rw [← h.result, hparsed]
    cases ready with
    | false => rfl
    | true =>
      dsimp only
      rw [← h.path]
      apply bind_congr
      intro found
      cases found with
      | none => rfl
      | some rule =>
        dsimp only
        rw [processMatched_congr h.path (htoken hparsed)]

end Alike

section Token

def strings : KeyedRedis (Option Bytes) where
  apply
    | .get _, _, some value => (.string value, some value)
    | .get _, _, none => (.nil, none)
    | _, _, v => (.error [], v)
  get_keeps _ _ v := by cases v <;> rfl

/--
One rule for all paths that asks for a token and has no limit.
-/
def guarded : RouteRule := ⟨[], true, 0⟩

def tokenSetting : Setting (Option Bytes) := ⟨[guarded], strings, fun _ => 0, fun _ => .answered⟩

/--
What is replied in this setting, which never changes what Redis holds.
-/
def Tells (store : KeyValues) : ApiEvent → Prop
  | ⟨.routerMatch path, found⟩ => found = Router.match 0 [guarded] path
  | ⟨.readRule rule, r⟩ => rule.index = 0 → r = guarded
  | ⟨.command _ (.get key), reply⟩ => reply = some (store.get key)
  | _ => True

variable {raw raw' token : Bytes} {req : HttpRequest} {store : KeyValues} {h : List ApiEvent}

theorem execute_strings (store : KeyValues) (cmd : Command) (at' : Int)
    : (strings.execute store cmd at').2 = store := by
  have hkept : (strings.apply cmd at' (store cmd.key)).2 = store cmd.key := by
    cases cmd with
    | get key => exact strings.get_keeps _ _ _
    | eval | incr | expire | xadd => rfl
  unfold KeyedRedis.execute
  dsimp only
  rw [hkept, Function.update_eq_self]

theorem tells_reply (n : Nat) (store : KeyValues) (o : ApiOp)
    : Tells store ⟨o, (tokenSetting.reply (n, store) o).1⟩ ∧
        (tokenSetting.reply (n, store) o).2.2 = store := by
  cases o with
  | command via cmd =>
    refine ⟨?_, execute_strings store cmd 0⟩
    cases cmd with
    | get key =>
      change some (strings.apply (.get key) 0 (store key)).1 = some (store.get key)
      unfold KeyValues.get
      cases store key <;> rfl
    | eval | incr | expire | xadd => trivial
  | readRule rule =>
    refine ⟨?_, rfl⟩
    intro hindex
    simp [Setting.reply, tokenSetting, hindex]
  | routerMatch path => exact ⟨rfl, rfl⟩
  | add | steadyNow | systemNow | send => exact ⟨trivial, rfl⟩

theorem tells_of_mem_playFrom {α : Type} (p : ApiProg α) (n : Nat) (store : KeyValues)
    : ∀ e ∈ (p.playFrom tokenSetting.reply (n, store)).1, Tells store e := by
  have hstep : ∀ (s : Nat × KeyedRedis.Store (Option Bytes)) (o : ApiOp), s.2 = store →
      Tells store ⟨o, (tokenSetting.reply s o).1⟩ ∧ (tokenSetting.reply s o).2.2 = store := by
    rintro ⟨n, store'⟩ o rfl
    exact tells_reply n store' o
  exact Prog.forall_mem_playFrom tokenSetting.reply hstep p rfl

theorem get_of_tells {via : Member} {key value : Bytes} (hr : Prog.Returns (RedisClient.get via key) h value)
    (htells : ∀ e ∈ h, Tells store e) : value = (store key.cStr).getD [] := by
  unfold RedisClient.get at hr
  obtain ⟨reply, h', rfl, hrest⟩ := Prog.returns_perform_bind.mp hr
  have hreply : reply = some (store.get key.cStr) := htells _ List.mem_cons_self
  rw [hreply] at hrest
  unfold KeyValues.get at hrest
  cases hvalue : store key.cStr with
  | none =>
    rw [hvalue] at hrest
    exact (Prog.returns_pure.mp hrest).2.symm
  | some s =>
    rw [hvalue] at hrest
    exact (Prog.returns_pure.mp hrest).2.symm

theorem checkAuth_of_tells {ok : Bool} (hr : Prog.Returns (checkAuth ⟨0, 0⟩ req) h ok)
    (htells : ∀ e ∈ h, Tells store e) : ok = true ↔ store.Holds (tokenKey (bearerToken req)).cStr := by
  unfold checkAuth at hr
  obtain ⟨r, h', rfl, hr₁⟩ := Prog.returns_perform_bind.mp hr
  have hread : r = guarded := htells _ List.mem_cons_self rfl
  rw [hread, if_pos (by rfl)] at hr₁
  unfold AuthPlugin.validate at hr₁
  obtain ⟨value, h₁, h₂, rfl, hget, hrest⟩ := Prog.returns_bind.mp hr₁
  have hvalue := get_of_tells hget fun e he => htells e (by simp [he])
  rw [← (Prog.returns_pure.mp hrest).2, decide_eq_true_eq, hvalue]
  unfold KeyValues.Holds tokenKey
  cases store (Bytes.ofAscii "token:" ++ bearerToken req).cStr <;> simp

theorem checkLimit_of_tells {allowed : Bool} (hr : Prog.Returns (checkLimit ⟨0, 0⟩) h allowed)
    (htells : ∀ e ∈ h, Tells store e) : visible h = [] ∧ allowed = true := by
  unfold checkLimit at hr
  obtain ⟨r, h', rfl, hr₁⟩ := Prog.returns_perform_bind.mp hr
  have hread : r = guarded := htells _ List.mem_cons_self rfl
  rw [hread, if_neg (by decide)] at hr₁
  obtain ⟨rfl, hallowed⟩ := Prog.returns_pure.mp hr₁
  exact ⟨rfl, hallowed.symm⟩

theorem visible_of_tells {start : Int} (hr : Prog.Returns (processMatched ⟨0, 0⟩ req start) h ())
    (htells : ∀ e ∈ h, Tells store e)
    : ∃ ok : Bool, (ok = true ↔ store.Holds (tokenKey (bearerToken req)).cStr) ∧
        visible h = [.answer (if ok then Bytes.ofNat 200 else Bytes.ofNat 401)] := by
  unfold processMatched at hr
  obtain ⟨ok, h₁, h₂, rfl, hauth, hr₁⟩ := Prog.returns_bind.mp hr
  refine ⟨ok, checkAuth_of_tells hauth fun e he => htells e (by simp [he]), ?_⟩
  rw [visible_append, visible_checkAuth hauth, List.nil_append]
  cases ok with
  | false =>
    obtain ⟨_, h₂, rfl, hsend⟩ := Prog.returns_perform_bind.mp hr₁
    rw [visible_add]
    exact visible_sendResponse (by decide) hsend
  | true =>
    obtain ⟨allowed, h₃, h₄, rfl, hlimit, hr₂⟩ := Prog.returns_bind.mp hr₁
    obtain ⟨hseen, rfl⟩ := checkLimit_of_tells hlimit fun e he => htells e (by simp [he])
    rw [visible_append, hseen, List.nil_append]
    exact visible_respond hr₂

theorem statuses_tokenSetting (store : KeyValues)
    (haccepted : (HttpParser.parse HttpParser.new raw HttpRequest.new).result = .ok true)
    : ∃ ok : Bool, (ok = true ↔ store.Holds (tokenKey (bearerToken (requestOf raw))).cStr) ∧
        tokenSetting.statuses store raw = [if ok then Bytes.ofNat 200 else Bytes.ofNat 401] := by
  have hmatched : ruleOf [guarded] raw = some 0 := by
    unfold ruleOf
    dsimp only
    rw [haccepted]
    rfl
  have htells := tells_of_mem_playFrom (processApiRequest raw) 0 store
  obtain ⟨start, h, hvisible, hsub, hr⟩ := returns_of_ruleOf hmatched
    (Prog.returns_playFrom tokenSetting.reply (processApiRequest raw) (0, store))
    (fun path found hmem => htells _ hmem)
  obtain ⟨ok, hok, hseen⟩ := visible_of_tells hr fun e he => htells e (hsub e he)
  refine ⟨ok, hok, ?_⟩
  unfold Setting.statuses Gateway.statuses
  rw [hvisible, hseen]
  rfl

theorem token_of_answeredAlike
    (haccepted : (HttpParser.parse HttpParser.new raw HttpRequest.new).result = .ok true)
    (haccepted' : (HttpParser.parse HttpParser.new raw' HttpRequest.new).result = .ok true)
    (halike : AnsweredAlike raw raw')
    : (bearerToken (requestOf raw)).cStr = (bearerToken (requestOf raw')).cStr := by
  -- Redis holds what is asked for the first request and nothing else
  obtain ⟨key, hkey⟩ : ∃ key, key = (tokenKey (bearerToken (requestOf raw))).cStr := ⟨_, rfl⟩
  obtain ⟨store, hstore⟩ : ∃ store : KeyValues, store = fun k => if k = key then some [49] else none :=
    ⟨_, rfl⟩
  obtain ⟨ok, hok, hstatuses⟩ := statuses_tokenSetting store haccepted
  obtain ⟨ok', hok', hstatuses'⟩ := statuses_tokenSetting store haccepted'
  have htrue : ok = true := hok.mpr ⟨[49], by simp [hstore, hkey], by simp⟩
  have hsame := halike _ tokenSetting store
  rw [hstatuses, hstatuses', htrue] at hsame
  have htrue' : ok' = true := by
    cases ok' with
    | false => exact absurd hsame (by decide)
    | true => rfl
  obtain ⟨value, hvalue, _⟩ := hok'.mp htrue'
  have heq : (tokenKey (bearerToken (requestOf raw'))).cStr = key := by
    by_contra hne
    simp [hstore, hne] at hvalue
  rw [hkey, tokenKey, tokenKey, Bytes.cStr_append (by decide), Bytes.cStr_append (by decide),
    List.append_cancel_left_eq] at heq
  exact heq.symm

end Token

section Message

open Message HttpParser

variable {m m' : Message} {req req' : HttpRequest}

/--
In whatever letter case the field is named, a token stands in it.
-/
def BearsToken (m : Message) : Prop :=
  ∃ token, valueOf authorization m.fields = some (bearer ++ token) ∧ token.cStr ≠ []

/--
Whatever follows the requests, the same is read from both, and the answers have the same status.
-/
def AnswersAlike (m m' : Message) : Prop :=
  ∀ rest, ReadAlike (m.text ++ rest) (m'.text ++ rest) ∧ AnsweredAlike (m.text ++ rest) (m'.text ++ rest)

/--
The token is found in both of two requests or in none, unless there is none or the parser has thrown.
-/
def TokenAlike (m m' : Message) : Prop :=
  ¬m.Refused → BearsToken m → (authorization ∈ m.names ↔ authorization ∈ m'.names)

theorem cStr_bearerToken {token : Bytes} (hm : m.WellFormed) (hreq : req.headers = m.headers)
    (hvalue : valueOf authorization m.fields = some (bearer ++ token)) (hne : token.cStr ≠ [])
    : (bearerToken req).cStr = if authorization ∈ m.names then token.cStr else [] := by
  have hheader := hm.header_authorization
  rw [← hreq] at hheader
  split
  . next hspelt =>
    rw [if_pos hspelt, hvalue] at hheader
    have htoken : token ≠ [] := fun h => hne (by rw [h]; rfl)
    rw [(bearerToken_eq htoken).mpr hheader]
  . next hspelt =>
    rw [if_neg hspelt] at hheader
    unfold bearerToken
    unfold authorization at hheader
    rw [hheader]
    rfl

theorem cStr_bearerToken_of_none (hm : m.WellFormed) (hreq : req.headers = m.headers)
    (hno : ¬BearsToken m) : (bearerToken req).cStr = [] := by
  by_contra hne
  have htoken : bearerToken req ≠ [] := fun h => hne (by rw [h]; rfl)
  have hheader : m.headers authorization = some (bearer ++ bearerToken req) := by
    rw [← hreq]
    exact (bearerToken_eq htoken).mp rfl
  rw [hm.header_authorization] at hheader
  split at hheader
  . exact hno ⟨_, hheader, hne⟩
  . contradiction

theorem token_eq_iff (hm : m.WellFormed) (h : m.Recased m') (hreq : req.headers = m.headers)
    (hreq' : req'.headers = m'.headers)
    : (bearerToken req).cStr = (bearerToken req').cStr
        ↔
      (BearsToken m → (authorization ∈ m.names ↔ authorization ∈ m'.names)) := by
  have hm' := hm.of_recased h
  have hsame : valueOf authorization m'.fields = valueOf authorization m.fields :=
    valueOf_eq_of_sameFields h.fields
  by_cases hbears : BearsToken m
  . obtain ⟨token, hvalue, hne⟩ := hbears
    rw [cStr_bearerToken hm hreq hvalue hne, cStr_bearerToken hm' hreq' (hsame.trans hvalue) hne]
    have hbears : BearsToken m := ⟨token, hvalue, hne⟩
    simp only [hbears, true_imp_iff]
    by_cases hspelt : authorization ∈ m.names
    . by_cases hspelt' : authorization ∈ m'.names
      . simp [hspelt, hspelt']
      . simp [hspelt, hspelt', hne]
    . by_cases hspelt' : authorization ∈ m'.names
      . simp [hspelt, hspelt', hne.symm]
      . simp [hspelt, hspelt']
  . have hbears' : ¬BearsToken m' := by
      unfold BearsToken at hbears ⊢
      rwa [hsame]
    rw [cStr_bearerToken_of_none hm hreq hbears, cStr_bearerToken_of_none hm' hreq' hbears']
    exact iff_of_true rfl fun h => absurd h hbears

/--
Requests that differ in the letter case of header field names only are answered alike exactly if both
or none of them name the length of a body, and the token they bear, as the gateway looks them up.
-/
theorem answersAlike_iff (m m' : Message) (hm : m.WellFormed) (h : m.Recased m')
    : AnswersAlike m m' ↔ LengthAlike m m' ∧ TokenAlike m m' := by
  have hm' := hm.of_recased h
  constructor
  . intro halike
    obtain ⟨hread, hanswered⟩ := halike []
    obtain ⟨hheaders, haccepted⟩ := parse_message hm []
    obtain ⟨hheaders', _⟩ := parse_message hm' []
    refine ⟨lengthAlike_of_readAlike hm h hread, fun hready => ?_⟩
    apply (token_eq_iff hm h hheaders hheaders').mp
    have hresult := haccepted.mpr hready
    exact token_of_answeredAlike hresult (hread.result ▸ hresult) hanswered
  . rintro ⟨hlength, htoken⟩ rest
    obtain ⟨hheaders, haccepted⟩ := parse_message hm rest
    obtain ⟨hheaders', _⟩ := parse_message hm' rest
    have hread := readAlike_of_lengthAlike hm h hlength rest
    refine ⟨hread, fun V setting store => ?_⟩
    have hprogram := processApiRequest_congr hread fun hresult =>
      (token_eq_iff hm h hheaders hheaders').mpr (htoken (haccepted.mp hresult))
    unfold Setting.statuses
    rw [hprogram]

theorem isLength_two : IsLength (Bytes.ofAscii "2") 2 := by
  refine ⟨[], [50], [], by decide, by decide, by decide, List.forall_mem_nil _, ?_, List.forall_mem_nil _⟩
  rw [List.forall_mem_singleton]
  decide

theorem path_clean_root : 32 ∉ Bytes.ofAscii "/" ∧ 10 ∉ Bytes.ofAscii "/" := by decide

theorem version_clean_http : 10 ∉ Bytes.ofAscii "HTTP/1.1" := by decide

def posted : Message where
  method := POST
  path := Bytes.ofAscii "/"
  version := Bytes.ofAscii "HTTP/1.1"
  fields := [(Bytes.ofAscii "Host", Bytes.ofAscii " a"), (authorization, Bytes.ofAscii " Bearer t"),
    (contentLength, Bytes.ofAscii " 2")]
  body := Bytes.ofAscii "hi"
  method_clean := by decide
  path_clean := path_clean_root
  version_clean := version_clean_http
  fields_clean := by decide
  framed := by
    rintro _ value ⟨⟩
    exact isLength_two

theorem wellFormed_posted : posted.WellFormed := by
  constructor
  . decide
  . decide
  . rintro value ⟨⟩
    exact isLength_two
  . intro hnone
    exact absurd hnone (by decide)

def lowerHost : Message :=
  { posted with
    fields := [(Bytes.ofAscii "host", Bytes.ofAscii " a"), (authorization, Bytes.ofAscii " Bearer t"),
      (contentLength, Bytes.ofAscii " 2")]
    fields_clean := by decide
    framed := posted.framed }

theorem answersAlike_iff_lowerHost : AnswersAlike posted lowerHost := by
  have hrecased : posted.Recased lowerHost := by
    refine ⟨rfl, rfl, rfl, rfl, ?_⟩
    exact .cons (by decide) (.cons (by decide) (.cons (by decide) .nil))
  apply (answersAlike_iff posted lowerHost wellFormed_posted hrecased).mpr
  constructor
  . exact fun _ _ => by decide
  . exact fun _ _ => by decide

def lower : Message :=
  { posted with
    fields := [(Bytes.ofAscii "host", Bytes.ofAscii " a"),
      (Bytes.ofAscii "authorization", Bytes.ofAscii " Bearer t"),
      (Bytes.ofAscii "content-length", Bytes.ofAscii " 2")]
    fields_clean := by decide
    framed := by
      rintro _ value ⟨⟩ }

/--
The body of the request in lower case is left over, and its token is not found.
-/
theorem not_answersAlike_lower
    : posted.WellFormed ∧ posted.Recased lower ∧ ¬AnswersAlike posted lower ∧
        (parse new lower.text HttpRequest.new).req.body = [] ∧
        bearerToken (requestOf lower.text) = [] ∧ bearerToken (requestOf posted.text) = [116] := by
  refine ⟨wellFormed_posted, ⟨rfl, rfl, rfl, rfl, ?_⟩, ?_, by decide, by decide, by decide⟩
  . exact .cons (by decide) (.cons (by decide) (.cons (by decide) .nil))
  . intro h
    have hbody := (h []).1.body
    revert hbody
    decide

end Message

end Gateway
end LFGateway
