import LFGateway.Gateway.Impl.Requests

/-!
This module contains what `processApiRequest` did when it has returned, as far as it can be seen from
outside: the replies of the token bucket and of the counter, and the answers that were sent.
-/

namespace LFGateway

open Foundation

inductive Visible where
  /-- a reply to the token bucket script -/
  | script (reply : Option RedisReply)
  | count (reply : Option RedisReply)
  | answer (status : Bytes)
  deriving DecidableEq, Repr

/--
The status in a response text, behind "HTTP/1.1 ".
-/
def statusOf (text : Bytes) : Bytes := (text.drop 9).take 3

def visible (h : List ApiEvent) : List Visible :=
  h.filterMap fun
    | ⟨.command _ (.eval _ _ _ _), reply⟩ => some (.script reply)
    | ⟨.command _ (.incr _), reply⟩ => some (.count reply)
    | ⟨.send text, _⟩ => some (.answer (statusOf text))
    | _ => none

variable {h h₁ h₂ : List ApiEvent}

@[simp]
theorem visible_nil : visible [] = [] := rfl

@[simp]
theorem visible_append : visible (h₁ ++ h₂) = visible h₁ ++ visible h₂ := by
  simp [visible]

section Cons

variable {via : Member} {key : Bytes}

@[simp]
theorem visible_add {stat : Stat} {n : Nat} {r : Unit}
    : visible (⟨.add stat n, r⟩ :: h) = visible h := rfl

@[simp]
theorem visible_steadyNow {ns : Int} : visible (⟨.steadyNow, ns⟩ :: h) = visible h := rfl

@[simp]
theorem visible_systemNow {ns : Int} : visible (⟨.systemNow, ns⟩ :: h) = visible h := rfl

@[simp]
theorem visible_routerMatch {path : Bytes} {rule : Option Handle}
    : visible (⟨.routerMatch path, rule⟩ :: h) = visible h := rfl

@[simp]
theorem visible_readRule {rule : Handle} {r : RouteRule}
    : visible (⟨.readRule rule, r⟩ :: h) = visible h := rfl

@[simp]
theorem visible_eval {capacity rate now : Int} {reply : Option RedisReply}
    : visible (⟨.command via (.eval key capacity rate now), reply⟩ :: h)
        =
      .script reply :: visible h := rfl

end Cons

theorem RedisClient.visible_get {via : Member} {key v : Bytes} (hr : Prog.Returns (get via key) h v)
    : visible h = [] := by
  unfold get at hr
  obtain ⟨reply, h', rfl, hrest⟩ := Prog.returns_perform_bind.mp hr
  have hnil : h' = [] := by
    split at hrest <;> exact (Prog.returns_pure.mp hrest).1
  rw [hnil]
  rfl

theorem RedisClient.visible_expire {via : Member} {key : Bytes} {seconds : Int} {ok : Bool}
    (hr : Prog.Returns (expire via key seconds) h ok) : visible h = [] := by
  unfold expire at hr
  obtain ⟨reply, h', rfl, hrest⟩ := Prog.returns_perform_bind.mp hr
  rw [(Prog.returns_pure.mp hrest).1]
  rfl

theorem RedisClient.visible_incr {via : Member} {key : Bytes} {n : Int}
    (hr : Prog.Returns (incr via key) h n)
    : ∃ reply, visible h = [.count reply] ∧ n = RedisClient.countOf reply := by
  unfold incr at hr
  obtain ⟨reply, h', rfl, hrest⟩ := Prog.returns_perform_bind.mp hr
  obtain ⟨rfl, rfl⟩ := Prog.returns_pure.mp hrest
  exact ⟨reply, rfl, rfl⟩

theorem AuthPlugin.visible_validate {token : Bytes} {ok : Bool}
    (hr : Prog.Returns (validate token) h ok) : visible h = [] := by
  obtain ⟨val, h₁, h₂, rfl, hget, hrest⟩ := Prog.returns_bind.mp hr
  rw [visible_append, RedisClient.visible_get hget, (Prog.returns_pure.mp hrest).1]
  rfl

theorem DistributedRateLimiter.visible_isAllowed {path : Bytes} {rate capacity : Int} {allowed : Bool}
    (hr : Prog.Returns (isAllowed path rate capacity) h allowed)
    : ∃ reply, visible h = [.script reply] ∧
        (allowed = true ↔ reply = none ∨ reply = some (.integer 1)) := by
  unfold isAllowed acquireToken at hr
  obtain ⟨result, h₁, h₂, rfl, hacquire, hrest⟩ := Prog.returns_bind.mp hr
  obtain ⟨now, h₁, rfl, hacquire₁⟩ := Prog.returns_perform_bind.mp hacquire
  obtain ⟨reply, h₁, rfl, hacquire₂⟩ := Prog.returns_perform_bind.mp hacquire₁
  refine ⟨reply, ?_⟩
  cases reply with
  | none =>
    obtain ⟨rfl, rfl⟩ := Prog.returns_pure.mp hacquire₂
    obtain ⟨rfl, rfl⟩ := Prog.returns_pure.mp hrest
    exact ⟨rfl, by simp⟩
  | some reply =>
    obtain ⟨rfl, rfl⟩ := Prog.returns_pure.mp hacquire₂
    obtain ⟨rfl, rfl⟩ := Prog.returns_pure.mp hrest
    exact ⟨rfl, by simp⟩

theorem RateLimitPlugin.visible_isAllowed {keyPrefix : Bytes} {max : Int} {allowed : Bool}
    (hmax : 0 < max) (hr : Prog.Returns (isAllowed keyPrefix max) h allowed)
    : ∃ reply, visible h = [.count reply] ∧ (allowed = true ↔ RedisClient.countOf reply ≤ max) := by
  unfold isAllowed at hr
  rw [if_neg (not_le.mpr hmax)] at hr
  obtain ⟨now, h', rfl, hr₁⟩ := Prog.returns_perform_bind.mp hr
  obtain ⟨n, h₁, h₂, rfl, hincr, hrest⟩ := Prog.returns_bind.mp hr₁
  obtain ⟨reply, hcount, rfl⟩ := RedisClient.visible_incr hincr
  refine ⟨reply, ?_⟩
  rw [visible_systemNow, visible_append, hcount]
  split at hrest
  . obtain ⟨ok, h₃, h₄, rfl, hexpire, hrest₁⟩ := Prog.returns_bind.mp hrest
    obtain ⟨rfl, rfl⟩ := Prog.returns_pure.mp hrest₁
    rw [visible_append, RedisClient.visible_expire hexpire]
    simp
  . obtain ⟨rfl, rfl⟩ := Prog.returns_pure.mp hrest
    simp

theorem LogConsumer.visible_push {path : Bytes} {ns : Nat} (hr : Prog.Returns (push path ns) h ())
    : visible h = [] := by
  unfold push RedisClient.xadd at hr
  obtain ⟨ok, h₁, h₂, rfl, hxadd, hrest⟩ := Prog.returns_bind.mp hr
  obtain ⟨reply, h', rfl, hxadd₁⟩ := Prog.returns_perform_bind.mp hxadd
  have hnil : h' = [] := by
    split at hxadd₁ <;> exact (Prog.returns_pure.mp hxadd₁).1
  rw [hnil, (Prog.returns_pure.mp hrest).1]
  rfl

namespace Gateway

variable {rule : Handle} {r : RouteRule} {req : HttpRequest} {start : Int}

theorem statusOf_responseText {code : Nat} (body : Bytes) (hcode : (Bytes.ofNat code).length = 3)
    : statusOf (responseText code body) = Bytes.ofNat code := by
  have hline : (Bytes.ofAscii "HTTP/1.1 ").length = 9 := by decide
  unfold statusOf responseText
  simp only [List.append_assoc]
  rw [← hline, List.drop_left, ← hcode, List.take_left]

theorem visible_sendResponse {code : Nat} {body : Bytes} (hcode : (Bytes.ofNat code).length = 3)
    (hr : Prog.Returns (sendResponse code body) h ()) : visible h = [.answer (Bytes.ofNat code)] := by
  unfold sendResponse perform at hr
  rw [Prog.returns_perform.mp hr]
  rw [← statusOf_responseText body hcode]
  rfl

def Reads (rule : Handle) (r : RouteRule) (h : List ApiEvent) : Prop :=
  ∀ r', (⟨.readRule rule, r'⟩ : ApiEvent) ∈ h → r' = r

theorem Reads.append_left (hreads : Reads rule r (h₁ ++ h₂)) : Reads rule r h₁ :=
  fun r' hmem => hreads r' (List.mem_append_left _ hmem)

theorem Reads.append_right (hreads : Reads rule r (h₁ ++ h₂)) : Reads rule r h₂ :=
  fun r' hmem => hreads r' (List.mem_append_right _ hmem)

theorem Reads.tail {e : ApiEvent} (hreads : Reads rule r (e :: h)) : Reads rule r h :=
  fun r' hmem => hreads r' (List.mem_cons_of_mem _ hmem)

theorem visible_checkAuth {ok : Bool} (hr : Prog.Returns (checkAuth rule req) h ok)
    : visible h = [] := by
  unfold checkAuth at hr
  obtain ⟨r', h', rfl, hr₁⟩ := Prog.returns_perform_bind.mp hr
  rw [visible_readRule]
  split at hr₁
  . exact AuthPlugin.visible_validate hr₁
  . rw [(Prog.returns_pure.mp hr₁).1]
    rfl

def Limited (r : RouteRule) (seen : List Visible) (allowed : Bool) : Prop :=
  ∃ reply, if reply = none ∨ reply = some (.integer 1) then
    seen = [.script reply] ∧ allowed = true
  else
    ∃ reply', seen = [.script reply, .count reply'] ∧ (allowed = true ↔ RedisClient.countOf reply' ≤ r.rateLimit)

theorem visible_checkLimit {allowed : Bool} (hr : Prog.Returns (checkLimit rule) h allowed)
    (hreads : Reads rule r h) (hlimit : 0 < r.rateLimit) : Limited r (visible h) allowed := by
  unfold checkLimit at hr
  obtain ⟨r₁, h', rfl, hr₁⟩ := Prog.returns_perform_bind.mp hr
  have heq := hreads r₁ List.mem_cons_self
  subst heq
  rw [if_pos hlimit] at hr₁
  obtain ⟨r₂, h', rfl, hr₂⟩ := Prog.returns_perform_bind.mp hr₁
  have heq := hreads.tail r₂ List.mem_cons_self
  subst heq
  obtain ⟨first, h₁, h₂, rfl, hfirst, hr₃⟩ := Prog.returns_bind.mp hr₂
  obtain ⟨reply, hscript, hpasses⟩ := DistributedRateLimiter.visible_isAllowed hfirst
  rw [visible_readRule, visible_readRule, visible_append, hscript]
  refine ⟨reply, ?_⟩
  split
  . next hpass =>
    have hfirst := hpasses.mpr hpass
    subst hfirst
    obtain ⟨rfl, rfl⟩ := Prog.returns_pure.mp hr₃
    exact ⟨rfl, rfl⟩
  . next hdenied =>
    have hfirst : first = false := by
      rw [← Bool.not_eq_true]
      exact fun heq => hdenied (hpasses.mp heq)
    subst hfirst
    obtain ⟨r₃, h₃, rfl, hr₄⟩ := Prog.returns_perform_bind.mp hr₃
    have heq := hreads.tail.tail.append_right r₃ List.mem_cons_self
    subst heq
    obtain ⟨reply', hcount, hallowed⟩ := RateLimitPlugin.visible_isAllowed hlimit hr₄
    refine ⟨reply', ?_, hallowed⟩
    rw [visible_readRule, hcount]
    rfl

theorem visible_respond (hr : Prog.Returns (respond req start) h ())
    : visible h = [.answer (Bytes.ofNat 200)] := by
  unfold respond at hr
  obtain ⟨_, h₁, h₂, rfl, hsend, hr₁⟩ := Prog.returns_bind.mp hr
  obtain ⟨stop, h₂, rfl, hr₂⟩ := Prog.returns_perform_bind.mp hr₁
  obtain ⟨_, h₂, rfl, hr₃⟩ := Prog.returns_perform_bind.mp hr₂
  rw [visible_append, visible_sendResponse (by decide) hsend, visible_steadyNow, visible_add,
    LogConsumer.visible_push hr₃]
  rfl

/--
A request that the rule's limit is asked about: it is turned away before, or it is answered as the
limit says.
-/
theorem visible_processMatched (hr : Prog.Returns (processMatched rule req start) h ())
    (hreads : Reads rule r h) (hlimit : 0 < r.rateLimit)
    : visible h = [.answer (Bytes.ofNat 401)] ∨
        ∃ seen allowed, Limited r seen allowed ∧
          visible h = seen ++ [.answer (if allowed then Bytes.ofNat 200 else Bytes.ofNat 429)] := by
  unfold processMatched at hr
  obtain ⟨authorized, h₁, h₂, rfl, hauth, hr₁⟩ := Prog.returns_bind.mp hr
  rw [visible_append, visible_checkAuth hauth, List.nil_append]
  cases authorized with
  | false =>
    left
    obtain ⟨_, h₂, rfl, hr₂⟩ := Prog.returns_perform_bind.mp hr₁
    rw [visible_add]
    exact visible_sendResponse (by decide) hr₂
  | true =>
    right
    obtain ⟨allowed, h₃, h₄, rfl, hcheck, hr₂⟩ := Prog.returns_bind.mp hr₁
    refine ⟨visible h₃, allowed,
      visible_checkLimit hcheck hreads.append_right.append_left hlimit, ?_⟩
    rw [visible_append, List.append_cancel_left_eq]
    cases allowed with
    | false =>
      obtain ⟨_, h₄, rfl, hr₃⟩ := Prog.returns_perform_bind.mp hr₂
      rw [visible_add]
      exact visible_sendResponse (by decide) hr₃
    | true => exact visible_respond hr₂

theorem returns_of_ruleOf {rules_ : List RouteRule} {raw : Bytes} {i : Nat}
    {x : Except StdException Unit} (hmatched : ruleOf rules_ raw = some i)
    (hr : Prog.Returns (processApiRequest raw) h x)
    (htable : ∀ path found, (⟨.routerMatch path, found⟩ : ApiEvent) ∈ h →
      found = Router.match 0 rules_ path)
    : ∃ start h', visible h = visible h' ∧ (∀ e ∈ h', e ∈ h) ∧
        Prog.Returns (processMatched ⟨0, i⟩
          (HttpParser.parse HttpParser.new raw HttpRequest.new).req start) h' () := by
  unfold processApiRequest at hr
  obtain ⟨_, h₁, rfl, hr₁⟩ := Prog.returns_perform_bind.mp hr
  obtain ⟨start, h₂, rfl, hr₂⟩ := Prog.returns_perform_bind.mp hr₁
  unfold ruleOf at hmatched
  dsimp only at hmatched hr₂
  split at hmatched
  . next hparsed =>
    rw [hparsed] at hr₂
    dsimp only at hr₂
    obtain ⟨found, h₃, rfl, hr₃⟩ := Prog.returns_perform_bind.mp hr₂
    have hfound : found = some ⟨0, i⟩ := by
      rw [htable _ found (by simp)]
      unfold Router.match
      rw [hmatched]
      rfl
    subst hfound
    obtain ⟨_, h₄, h₅, rfl, hprocess, hrest⟩ := Prog.returns_bind.mp hr₃
    obtain ⟨rfl, rfl⟩ := Prog.returns_pure.mp hrest
    refine ⟨start, h₄, by simp, ?_, hprocess⟩
    intro e he
    simp [he]
  . contradiction

end Gateway
end LFGateway
