import LFGateway.Gateway.Lemmas.Api

/-!
This module contains what an answer 200 says about the token of a request: `AuthPlugin::validate` has
found something under the key it asked for, which is cut off at the first NUL byte and is "token:"
alone where there is no token.
-/

namespace LFGateway

open Foundation

namespace Gateway

abbrev KeyValues := Bytes → Option Bytes

variable {rules_ : List RouteRule} {store : KeyValues} {raw token : Bytes} {h : List ApiEvent}

def KeyValues.Holds (store : KeyValues) (key : Bytes) : Prop := ∃ value, store key = some value ∧ value ≠ []

def KeyValues.get (store : KeyValues) (key : Bytes) : RedisReply :=
  match store key with
  | some value => .string value
  | none => .nil

/--
A reply that the table and the strings in Redis allow. Any command may fail.
-/
def AnsweredBy (rules_ : List RouteRule) (store : KeyValues) : ApiEvent → Prop
  | ⟨.routerMatch path, found⟩ => found = Router.match 0 rules_ path
  | ⟨.readRule handle, r⟩ => ∀ r' ∈ rules_[handle.index]?, r = r'
  | ⟨.command _ (.get key), reply⟩ =>
    reply = none ∨ (∃ text, reply = some (.error text)) ∨ reply = some (store.get key)
  | _ => True

def requestOf (raw : Bytes) : HttpRequest :=
  (HttpParser.parse HttpParser.new raw HttpRequest.new).req

def NeedsAuth (rules_ : List RouteRule) (raw : Bytes) : Prop :=
  ∃ i, ruleOf rules_ raw = some i ∧ ∃ rule, rules_[i]? = some rule ∧ rule.needAuth = true

def Answered (code : Nat) (h : List ApiEvent) : Prop :=
  ∃ body, (⟨.send (responseText code body), ()⟩ : ApiEvent) ∈ h

def tokenKey (token : Bytes) : Bytes := Bytes.ofAscii "token:" ++ token

def Authorized (store : KeyValues) (req : HttpRequest) : Prop :=
  ∃ token, token ≠ [] ∧ req.headers (Bytes.ofAscii "Authorization") = some (bearer ++ token) ∧
    store.Holds (tokenKey token)

/--
A request whose rule needs a token is answered 200 only if it carries one that Redis knows.
-/
def AuthSound (rules_ : List RouteRule) (store : KeyValues) (raw : Bytes) : Prop :=
  NeedsAuth rules_ raw
    →
  ∀ h x, Prog.Returns (processApiRequest raw) h x → (∀ e ∈ h, AnsweredBy rules_ store e)
    →
  Answered 200 h → Authorized store (requestOf raw)

theorem bearerToken_eq {req : HttpRequest} (hne : token ≠ [])
    : bearerToken req = token
        ↔
      req.headers (Bytes.ofAscii "Authorization") = some (bearer ++ token) := by
  have hlength : bearer.length = 7 := by decide
  unfold bearerToken
  constructor
  . intro h
    split at h
    . next value hvalue =>
      split at h
      . next hbearer =>
        rw [hvalue, ← h, ← hlength]
        obtain ⟨rest, hrest⟩ := Bytes.find_prefix_drop hbearer.2
        rw [List.drop_zero] at hrest
        rw [← hrest, List.drop_left]
      . exact absurd h.symm hne
    . exact absurd h.symm hne
  . intro h
    rw [h]
    dsimp only
    rw [if_pos ⟨by simp [bearer, Bytes.ofAscii], Bytes.find_of_prefix (List.prefix_append _ _)⟩]
    rw [← hlength, List.drop_left]

theorem authorized_iff {req : HttpRequest}
    : Authorized store req ↔ bearerToken req ≠ [] ∧ store.Holds (tokenKey (bearerToken req)) := by
  constructor
  . rintro ⟨token, hne, hheader, hholds⟩
    rw [(bearerToken_eq hne).mpr hheader]
    exact ⟨hne, hholds⟩
  . rintro ⟨hne, hholds⟩
    exact ⟨bearerToken req, hne, (bearerToken_eq hne).mp rfl, hholds⟩

section Sound

theorem answer_mem_of_answered {code : Nat} (hcode : (Bytes.ofNat code).length = 3)
    (h' : Answered code h) : .answer (Bytes.ofNat code) ∈ visible h := by
  obtain ⟨body, hmem⟩ := h'
  rw [← statusOf_responseText body hcode]
  exact List.mem_filterMap.mpr ⟨_, hmem, rfl⟩

theorem lookup_of_get {via : Member} {key value : Bytes}
    (hr : Prog.Returns (RedisClient.get via key) h value)
    (hok : ∀ e ∈ h, AnsweredBy rules_ store e) (hne : value ≠ []) : store key.cStr = some value := by
  unfold RedisClient.get at hr
  obtain ⟨reply, h', rfl, hrest⟩ := Prog.returns_perform_bind.mp hr
  have hreply := hok _ List.mem_cons_self
  unfold AnsweredBy at hreply
  split at hrest
  . next s =>
    have heq := (Prog.returns_pure.mp hrest).2
    subst heq
    simp only [reduceCtorEq, Option.some.injEq, exists_false, false_or] at hreply
    unfold KeyValues.get at hreply
    split at hreply
    . next value' hvalue =>
      rw [RedisReply.string.injEq] at hreply
      rw [hvalue, hreply]
    . contradiction
  . exact absurd (Prog.returns_pure.mp hrest).2.symm hne

theorem holds_of_validate (hr : Prog.Returns (AuthPlugin.validate token) h true)
    (hok : ∀ e ∈ h, AnsweredBy rules_ store e) : store.Holds (tokenKey token).cStr := by
  obtain ⟨value, h₁, h₂, rfl, hget, hrest⟩ := Prog.returns_bind.mp hr
  have hvalue := (Prog.returns_pure.mp hrest).2
  rw [decide_eq_true_eq] at hvalue
  exact ⟨value, lookup_of_get hget (fun e he => hok e (List.mem_append_left _ he)) hvalue, hvalue⟩

theorem holds_of_checkAuth {handle : Handle} {rule : RouteRule} {req : HttpRequest}
    (hrule : rules_[handle.index]? = some rule) (hauth : rule.needAuth = true)
    (hr : Prog.Returns (checkAuth handle req) h true) (hok : ∀ e ∈ h, AnsweredBy rules_ store e)
    : store.Holds (tokenKey (bearerToken req)).cStr := by
  unfold checkAuth at hr
  obtain ⟨r, h', rfl, hr₁⟩ := Prog.returns_perform_bind.mp hr
  have hread : r = rule := by
    have hreads : ∀ r' ∈ rules_[handle.index]?, r = r' := hok _ List.mem_cons_self
    exact hreads rule hrule
  rw [hread, if_pos hauth] at hr₁
  exact holds_of_validate hr₁ fun e he => hok e (List.mem_cons_of_mem _ he)

theorem holds_of_answered {x : Except StdException Unit} (hneeds : NeedsAuth rules_ raw)
    (hr : Prog.Returns (processApiRequest raw) h x) (hok : ∀ e ∈ h, AnsweredBy rules_ store e)
    (hanswered : Answered 200 h) : store.Holds (tokenKey (bearerToken (requestOf raw))).cStr := by
  obtain ⟨i, hmatched, rule, hrule, hauth⟩ := hneeds
  obtain ⟨start, h', hvisible, hsub, hprocess⟩ := returns_of_ruleOf hmatched hr
    (fun path found hmem => hok _ hmem)
  have hmem := answer_mem_of_answered (by decide) hanswered
  rw [hvisible] at hmem
  unfold processMatched at hprocess
  obtain ⟨authorized, h₁, h₂, rfl, hcheck, hprocess₁⟩ := Prog.returns_bind.mp hprocess
  cases authorized with
  | false =>
    obtain ⟨_, h₂, rfl, hsend⟩ := Prog.returns_perform_bind.mp hprocess₁
    rw [visible_append, visible_checkAuth hcheck, visible_add,
      visible_sendResponse (by decide) hsend] at hmem
    exact absurd hmem (by decide)
  | true =>
    exact holds_of_checkAuth hrule hauth hcheck fun e he => hok e (hsub e (by simp [he]))

end Sound

section Granted

def openReply (rules_ : List RouteRule) (store : KeyValues) : (o : ApiOp) → o.Reply
  | .add _ _ => ()
  | .steadyNow => 0
  | .systemNow => 0
  | .routerMatch path => Router.match 0 rules_ path
  | .readRule handle => (rules_[handle.index]?).getD ⟨[], false, 0⟩
  | .command _ (.get key) => some (store.get key)
  | .command _ (.eval _ _ _ _) => some (.integer 1)
  | .command _ _ => none
  | .send _ => ()

theorem answeredBy_of_play {α : Type} {p : ApiProg α} {e : ApiEvent}
    (he : e ∈ (p.play (openReply rules_ store)).1) : AnsweredBy rules_ store e := by
  have hreply := Prog.eq_of_mem_play _ he
  obtain ⟨o, reply⟩ := e
  dsimp only at hreply
  subst hreply
  cases o with
  | routerMatch path => rfl
  | readRule handle =>
    intro r' hr'
    simp [openReply, Option.mem_def.mp hr']
  | command via cmd =>
    cases cmd with
    | get key => exact .inr (.inr rfl)
    | eval | incr | expire | xadd => trivial
  | add | steadyNow | systemNow | send => trivial

theorem play_checkAuth {handle : Handle} {req : HttpRequest}
    (hholds : store.Holds (tokenKey (bearerToken req)).cStr)
    : ((checkAuth handle req).play (openReply rules_ store)).2 = true := by
  obtain ⟨value, hvalue, hne⟩ := hholds
  unfold checkAuth
  rw [Prog.play_perform_bind]
  dsimp only
  split
  . unfold AuthPlugin.validate RedisClient.get
    unfold tokenKey at hvalue
    have hreply : openReply rules_ store
        (.command .auth_ (.get (Bytes.ofAscii "token:" ++ bearerToken req).cStr))
          = some (.string value) := by
      simp [openReply, KeyValues.get, hvalue]
    rw [Prog.play_bind, Prog.play_perform_bind, hreply]
    simp [hne]
  . rfl

theorem play_checkLimit (handle : Handle)
    : ((checkLimit handle).play (openReply rules_ store)).2 = true := by
  unfold checkLimit
  rw [Prog.play_perform_bind]
  dsimp only
  split
  . rw [Prog.play_perform_bind, Prog.play_bind]
    have hallowed : ∀ path rate capacity, ((DistributedRateLimiter.isAllowed path rate capacity).play
        (openReply rules_ store)).2 = true := by
      intro path rate capacity
      rfl
    dsimp only
    rw [hallowed]
    rfl
  . rfl

theorem exists_answered (hneeds : NeedsAuth rules_ raw)
    (hholds : store.Holds (tokenKey (bearerToken (requestOf raw))).cStr)
    : ∃ h x, Prog.Returns (processApiRequest raw) h x ∧ (∀ e ∈ h, AnsweredBy rules_ store e) ∧
        Answered 200 h := by
  refine ⟨_, _, Prog.returns_play (openReply rules_ store) _, fun e he => answeredBy_of_play he, ?_⟩
  obtain ⟨i, hmatched, _⟩ := hneeds
  have hgranted : ∀ handle start, (⟨.send (responseText 200 (okBody (requestOf raw).path)), ()⟩ : ApiEvent)
      ∈ ((processMatched handle (requestOf raw) start).play (openReply rules_ store)).1 := by
    intro handle start
    unfold processMatched
    rw [Prog.play_bind, play_checkAuth hholds, if_neg (by decide), Prog.play_bind, play_checkLimit,
      if_neg (by decide)]
    apply List.mem_append_right
    apply List.mem_append_right
    exact List.mem_cons_self
  refine ⟨okBody (requestOf raw).path, ?_⟩
  unfold ruleOf at hmatched
  dsimp only at hmatched
  split at hmatched
  . next hparsed =>
    unfold processApiRequest
    rw [Prog.play_perform_bind, Prog.play_perform_bind]
    dsimp only
    rw [hparsed]
    dsimp only
    have hfound : openReply rules_ store (.routerMatch
        (HttpParser.parse HttpParser.new raw HttpRequest.new).req.path) = some ⟨0, i⟩ := by
      simp [openReply, Router.match, hmatched]
    rw [Prog.play_perform_bind, hfound]
    dsimp only
    rw [Prog.play_bind]
    apply List.mem_cons_of_mem
    apply List.mem_cons_of_mem
    apply List.mem_cons_of_mem
    apply List.mem_append_left
    apply hgranted
  . contradiction

end Granted

/--
The answer 200 says what it should exactly if the key that is asked for, cut off at its first NUL
byte, tells as much as the token: nothing is stored there, or there is a token and it is stored.
-/
theorem authSound_iff (rules_ : List RouteRule) (store : KeyValues) (raw : Bytes)
    : AuthSound rules_ store raw
        ↔
      (NeedsAuth rules_ raw → store.Holds (tokenKey (bearerToken (requestOf raw))).cStr
          →
        bearerToken (requestOf raw) ≠ [] ∧ store.Holds (tokenKey (bearerToken (requestOf raw)))) := by
  unfold AuthSound
  simp only [authorized_iff]
  constructor
  . intro hsound hneeds hholds
    obtain ⟨h, x, hr, hok, hanswered⟩ := exists_answered hneeds hholds
    exact hsound hneeds h x hr hok hanswered
  . intro hcond hneeds h x hr hok hanswered
    exact hcond hneeds (holds_of_answered hneeds hr hok hanswered)

theorem authSound_of_clean (hne : bearerToken (requestOf raw) ≠ [])
    (hclean : 0 ∉ bearerToken (requestOf raw)) : AuthSound rules_ store raw := by
  intro hneeds h x hr hok hanswered
  have hholds := holds_of_answered hneeds hr hok hanswered
  rw [authorized_iff]
  refine ⟨hne, ?_⟩
  have hkey : 0 ∉ tokenKey (bearerToken (requestOf raw)) := by
    unfold tokenKey
    rw [List.mem_append, not_or]
    exact ⟨by decide, hclean⟩
  rw [Bytes.cStr_of_notMem hkey] at hholds
  exact hholds

def withoutHeader : Bytes := Bytes.ofAscii "GET / HTTP/1.1\r\n\r\n"

def emptyToken : KeyValues := fun key => if key = Bytes.ofAscii "token:" then some [49] else none

theorem not_authSound_withoutHeader : ¬AuthSound [⟨[47], true, 0⟩] emptyToken withoutHeader := by
  intro hsound
  have hneeds : NeedsAuth [⟨[47], true, 0⟩] withoutHeader := ⟨0, by decide, _, rfl, rfl⟩
  have htoken : bearerToken (requestOf withoutHeader) = [] := by decide
  have hholds : emptyToken.Holds (tokenKey (bearerToken (requestOf withoutHeader))).cStr := by
    rw [htoken]
    exact ⟨[49], by decide, by decide⟩
  obtain ⟨h, x, hr, hok, hanswered⟩ := exists_answered hneeds hholds
  have hauthorized := hsound hneeds h x hr hok hanswered
  rw [authorized_iff] at hauthorized
  exact hauthorized.1 htoken

end Gateway
end LFGateway
