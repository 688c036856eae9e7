import LFGateway.Foundation.Phases
import LFGateway.Gateway.Lemmas.Api
import LFGateway.Gateway.Lemmas.Keys

/-!
This module contains the stages of a request, from its match to its answer: which rule it reads in
them, which keys of Redis it asks about and which answers it may give.
-/

namespace LFGateway
namespace Gateway

open Foundation

/--
The path that a request text is routed by, if it is parsed.
-/
def routedPath (raw : Bytes) : Option Bytes :=
  let parsed := HttpParser.parse HttpParser.new raw HttpRequest.new
  match parsed.result with
  | .ok true => some parsed.req.path
  | _ => none

def Rejects (text : Bytes) : Prop :=
  statusOf text ∈ [Bytes.ofNat 400, Bytes.ofNat 404, Bytes.ofNat 401]

instance : Decidable (Rejects text) := inferInstanceAs (Decidable (_ ∈ _))

inductive Stage where
  | arrived
  /-- has a rule, and knows what it last read of it -/
  | matched (rule : Handle) (read : Option RouteRule)
  /-- has asked a limiter; `now` is the time it read since then -/
  | limiting (rule : Handle) (read : Option RouteRule) (now : Option Int)
  | answered
  | logged
  deriving DecidableEq, Repr

def Stage.rule : Stage → Option Handle
  | .matched rule _ | .limiting rule _ _ => some rule
  | .arrived | .answered | .logged => none

def Stage.read : Stage → Option RouteRule
  | .matched _ read | .limiting _ read _ => read
  | .arrived | .answered | .logged => none

def Stage.Early : Stage → Prop
  | .arrived | .matched _ _ => True
  | .limiting _ _ _ | .answered | .logged => False

def Stage.Unanswered : Stage → Prop
  | .arrived | .matched _ _ | .limiting _ _ _ => True
  | .answered | .logged => False

def Stage.found : Option Handle → Stage
  | some rule => .matched rule none
  | none => .arrived

def IsLimiter : ApiOp → Prop
  | .command _ (.eval _ _ _ _) | .command _ (.incr _) | .command _ (.expire _ _) => True
  | _ => False

def IsQuiet : ApiOp → Prop
  | .add _ _ | .steadyNow | .systemNow => True
  | _ => False

/--
What a request may ask before it was admitted: for its token, and a limiter about the pattern it
read last.
-/
def askMatched (rule : Handle) (read : Option RouteRule) : Command → Option Stage
  | .get key => if tokenPrefix <+: key then some (.matched rule read) else none
  | .eval key _ _ _ =>
    match read with
    | some r => if key = bucketKey r.pathPattern then some (.limiting rule (some r) none) else none
    | none => none
  | .incr _ | .expire _ _ | .xadd _ => none

def askLimiting (rule : Handle) (read : Option RouteRule) (now : Option Int) (cmd : Command) : Option Stage :=
  match read, now, cmd with
  | some r, some ns, .incr key | some r, some ns, .expire key _ =>
    if key = secondKey r.pathPattern ns then some (.limiting rule (some r) (some ns)) else none
  | _, _, _ => none

/--
What a request with the text `raw` may do in a stage.
-/
def stages (raw : Bytes) : Phases ApiOp ApiOp.Reply Stage
  | .arrived => fun
    | .add _ _, _ | .steadyNow, _ => some .arrived
    | .routerMatch path, found =>
      if routedPath raw = some path then some (Stage.found found) else none
    | .send _, _ => some .answered
    | .systemNow, _ | .readRule _, _ | .command _ _, _ => none
  | .matched rule read => fun
    | .add _ _, _ | .systemNow, _ => some (.matched rule read)
    | .readRule rule', r => if rule' = rule then some (.matched rule (some r)) else none
    | .command _ cmd, _ => askMatched rule read cmd
    | .send _, _ => some .answered
    | .steadyNow, _ | .routerMatch _, _ => none
  | .limiting rule read now => fun
    | .add _ _, _ => some (.limiting rule read now)
    | .systemNow, ns => some (.limiting rule read (some ns))
    | .readRule rule', r => if rule' = rule then some (.limiting rule (some r) now) else none
    | .command _ cmd, _ => askLimiting rule read now cmd
    | .send text, _ => if Rejects text then none else some .answered
    | .steadyNow, _ | .routerMatch _, _ => none
  | .answered => fun
    | .add _ _, _ | .steadyNow, _ => some .answered
    | .command _ (.xadd cmd), _ => if xaddLog <+: cmd then some .logged else none
    | _, _ => none
  | .logged => fun _ _ => none

section Steps

variable {raw : Bytes} {φ φ' : Stage} {o : ApiOp} {r : o.Reply} {rule : Handle}
variable {read : Option RouteRule} {now : Option Int} {cmd : Command}

theorem askMatched_cases (h : askMatched rule read cmd = some φ')
    : (∃ key, cmd = .get key ∧ tokenPrefix <+: key ∧ φ' = .matched rule read) ∨
        ∃ key capacity rate time r, cmd = .eval key capacity rate time ∧ read = some r ∧
          key = bucketKey r.pathPattern ∧ φ' = .limiting rule read none := by
  cases cmd with
  | get key =>
    left
    simp only [askMatched, Option.ite_none_right_eq_some, Option.some.injEq] at h
    exact ⟨key, rfl, h.1, h.2.symm⟩
  | eval key capacity rate time =>
    right
    cases read with
    | none => contradiction
    | some r =>
      simp only [askMatched, Option.ite_none_right_eq_some, Option.some.injEq] at h
      exact ⟨key, capacity, rate, time, r, rfl, rfl, h.1, h.2.symm⟩
  | incr | expire | xadd => contradiction

theorem askLimiting_cases (h : askLimiting rule read now cmd = some φ')
    : ∃ r ns, read = some r ∧ cmd.key = secondKey r.pathPattern ns ∧
        (∀ via, IsLimiter (.command via cmd)) ∧ φ' = .limiting rule read now := by
  unfold askLimiting at h
  split at h
  . next r ns key =>
    rw [Option.ite_none_right_eq_some, Option.some.injEq] at h
    exact ⟨r, ns, rfl, h.1, fun _ => trivial, h.2.symm⟩
  . next r ns key seconds =>
    rw [Option.ite_none_right_eq_some, Option.some.injEq] at h
    exact ⟨r, ns, rfl, h.1, fun _ => trivial, h.2.symm⟩
  . contradiction

theorem stages_match {path : Bytes} {found : Option Handle}
    (h : stages raw φ (.routerMatch path) found = some φ')
    : φ = .arrived ∧ routedPath raw = some path ∧ φ' = .found found := by
  cases φ with
  | arrived =>
    simp only [stages, Option.ite_none_right_eq_some, Option.some.injEq] at h
    exact ⟨rfl, h.1, h.2.symm⟩
  | matched | limiting | answered | logged => contradiction

theorem stages_read {r : RouteRule} (h : stages raw φ (.readRule rule) r = some φ')
    : φ.rule = some rule ∧ φ'.rule = some rule ∧ φ'.read = some r ∧ φ.Unanswered ∧
        (φ'.Early → φ.Early) := by
  cases φ with
  | matched rule' read =>
    simp only [stages, Option.ite_none_right_eq_some, Option.some.injEq] at h
    obtain ⟨rfl, rfl⟩ := h
    exact ⟨rfl, rfl, rfl, trivial, id⟩
  | limiting rule' read now =>
    simp only [stages, Option.ite_none_right_eq_some, Option.some.injEq] at h
    obtain ⟨rfl, rfl⟩ := h
    exact ⟨rfl, rfl, rfl, trivial, id⟩
  | arrived | answered | logged => contradiction

theorem stages_send {text : Bytes} (h : stages raw φ (.send text) () = some φ')
    : φ.Unanswered ∧ (φ.Early ∨ ¬Rejects text) ∧ φ' = .answered := by
  cases φ with
  | arrived | matched =>
    simp only [stages, Option.some.injEq] at h
    exact ⟨trivial, .inl trivial, h.symm⟩
  | limiting rule read now =>
    simp only [stages, Option.ite_none_left_eq_some, Option.some.injEq] at h
    exact ⟨trivial, .inr h.1, h.2.symm⟩
  | answered | logged => contradiction

theorem stages_quiet (h : stages raw φ o r = some φ') (hquiet : IsQuiet o)
    : φ' = φ ∨ ∃ rule read now ns, φ = .limiting rule read now ∧ φ' = .limiting rule read (some ns) := by
  cases o with
  | add stat n =>
    cases φ with
    | arrived | matched | limiting | answered =>
      rw [stages, Option.some.injEq] at h
      exact .inl h.symm
    | logged => contradiction
  | steadyNow =>
    cases φ with
    | arrived | answered =>
      rw [stages, Option.some.injEq] at h
      exact .inl h.symm
    | matched | limiting | logged => contradiction
  | systemNow =>
    cases φ with
    | matched rule read =>
      rw [stages, Option.some.injEq] at h
      exact .inl h.symm
    | limiting rule read now =>
      rw [stages, Option.some.injEq] at h
      exact .inr ⟨rule, read, now, _, rfl, h.symm⟩
    | arrived | answered | logged => contradiction
  | routerMatch | readRule | command | send => contradiction

theorem stages_command {via : Member} {reply : Option RedisReply}
    (h : stages raw φ (.command via cmd) reply = some φ')
    : (∃ key, cmd = .get key ∧ tokenPrefix <+: key ∧ φ' = φ) ∨
        (∃ rule r now, φ.rule = some rule ∧ φ.read = some r ∧ φ.Unanswered ∧
          φ' = .limiting rule (some r) now ∧ IsLimiter (.command via cmd) ∧
          (cmd.key = bucketKey r.pathPattern ∨ ∃ ns, cmd.key = secondKey r.pathPattern ns)) ∨
        ∃ text, cmd = .xadd text ∧ xaddLog <+: text ∧ φ' = .logged := by
  cases φ with
  | matched rule read =>
    rcases askMatched_cases h with ⟨key, hcmd, hkey, rfl⟩ | ⟨_, _, _, _, r, rfl, rfl, hkey, rfl⟩
    . exact .inl ⟨key, hcmd, hkey, rfl⟩
    . exact .inr (.inl ⟨rule, r, none, rfl, rfl, trivial, rfl, trivial, .inl hkey⟩)
  | limiting rule read now =>
    obtain ⟨r, ns, rfl, hkey, hlimiter, rfl⟩ := askLimiting_cases h
    exact .inr (.inl ⟨rule, r, now, rfl, rfl, trivial, rfl, hlimiter via, .inr ⟨ns, hkey⟩⟩)
  | answered =>
    cases cmd with
    | xadd text =>
      simp only [stages, Option.ite_none_right_eq_some, Option.some.injEq] at h
      exact .inr (.inr ⟨text, rfl, h.1, h.2.symm⟩)
    | get | eval | incr | expire => contradiction
  | arrived | logged => contradiction

theorem stages_rule (h : stages raw φ o r = some φ') (hrule : φ'.rule = some rule)
    : φ.rule = some rule ∨ ∃ path, (⟨o, r⟩ : ApiEvent) = ⟨.routerMatch path, some rule⟩ := by
  cases o with
  | add | steadyNow | systemNow =>
    rcases stages_quiet h trivial with rfl | ⟨_, _, _, _, rfl, rfl⟩ <;> exact .inl hrule
  | routerMatch path =>
    obtain ⟨rfl, _, rfl⟩ := stages_match h
    cases r with
    | none => contradiction
    | some found =>
      rw [Stage.found, Stage.rule] at hrule
      exact .inr ⟨path, by rw [hrule]⟩
  | readRule rule' =>
    obtain ⟨hbefore, hafter, _⟩ := stages_read h
    exact .inl (by rw [hbefore, ← hafter, hrule])
  | command via cmd =>
    rcases stages_command h with ⟨_, _, _, rfl⟩ | ⟨_, _, _, hbefore, _, _, rfl, _⟩ | ⟨_, _, _, rfl⟩
    . exact .inl hrule
    . exact .inl (hbefore.trans hrule)
    . contradiction
  | send text =>
    obtain ⟨_, _, rfl⟩ := stages_send h
    contradiction

theorem stages_readAs {r' : RouteRule} (h : stages raw φ o r = some φ') (hread : φ'.read = some r')
    : φ.read = some r' ∨ ∃ rule, (⟨o, r⟩ : ApiEvent) = ⟨.readRule rule, r'⟩ := by
  cases o with
  | add | steadyNow | systemNow =>
    rcases stages_quiet h trivial with rfl | ⟨_, _, _, _, rfl, rfl⟩ <;> exact .inl hread
  | routerMatch path =>
    obtain ⟨rfl, _, rfl⟩ := stages_match h
    cases r <;> contradiction
  | readRule rule =>
    obtain ⟨_, _, hafter, _⟩ := stages_read h
    rw [hafter, Option.some.injEq] at hread
    exact .inr ⟨rule, by rw [hread]⟩
  | command via cmd =>
    rcases stages_command h with ⟨_, _, _, rfl⟩ | ⟨_, _, _, _, hbefore, _, rfl, _⟩ | ⟨_, _, _, rfl⟩
    . exact .inl hread
    . exact .inl (hbefore.trans hread)
    . contradiction
  | send text =>
    obtain ⟨_, _, rfl⟩ := stages_send h
    contradiction

theorem stages_arrived (h : stages raw φ o r = some φ') (harrived : φ' = .arrived)
    : φ = .arrived ∧ ∀ path rule, (⟨o, r⟩ : ApiEvent) ≠ ⟨.routerMatch path, some rule⟩ := by
  cases o with
  | add | steadyNow | systemNow =>
    rcases stages_quiet h trivial with rfl | ⟨_, _, _, _, _, rfl⟩
    . exact ⟨harrived, nofun⟩
    . contradiction
  | routerMatch path =>
    obtain ⟨rfl, _, rfl⟩ := stages_match h
    cases r with
    | none => exact ⟨rfl, nofun⟩
    | some found => contradiction
  | readRule rule =>
    obtain ⟨_, hafter, _⟩ := stages_read h
    rw [harrived] at hafter
    contradiction
  | command via cmd =>
    rcases stages_command h with ⟨_, _, _, rfl⟩ | ⟨_, _, _, _, _, _, rfl, _⟩ | ⟨_, _, _, rfl⟩
    . exact ⟨harrived, nofun⟩
    . contradiction
    . contradiction
  | send text =>
    obtain ⟨_, _, rfl⟩ := stages_send h
    contradiction

theorem stages_unanswered (h : stages raw φ o r = some φ') (hunanswered : φ'.Unanswered)
    : φ.Unanswered ∧ ∀ text, o ≠ .send text := by
  cases o with
  | add | steadyNow | systemNow =>
    rcases stages_quiet h trivial with rfl | ⟨_, _, _, _, rfl, rfl⟩ <;> exact ⟨hunanswered, nofun⟩
  | routerMatch path =>
    obtain ⟨rfl, _⟩ := stages_match h
    exact ⟨trivial, nofun⟩
  | readRule rule =>
    obtain ⟨_, _, _, hbefore, _⟩ := stages_read h
    exact ⟨hbefore, nofun⟩
  | command via cmd =>
    rcases stages_command h with ⟨_, _, _, rfl⟩ | ⟨_, _, _, _, _, hbefore, _⟩ | ⟨_, _, _, rfl⟩
    . exact ⟨hunanswered, nofun⟩
    . exact ⟨hbefore, nofun⟩
    . contradiction
  | send text =>
    obtain ⟨_, _, rfl⟩ := stages_send h
    contradiction

theorem stages_early (h : stages raw φ o r = some φ') (hearly : φ'.Early)
    : φ.Early ∧ ¬IsLimiter o := by
  cases o with
  | add | steadyNow | systemNow =>
    rcases stages_quiet h trivial with rfl | ⟨_, _, _, _, _, rfl⟩
    . exact ⟨hearly, not_false⟩
    . contradiction
  | routerMatch path =>
    obtain ⟨rfl, _⟩ := stages_match h
    exact ⟨trivial, not_false⟩
  | readRule rule =>
    obtain ⟨_, _, _, _, hbefore⟩ := stages_read h
    exact ⟨hbefore hearly, not_false⟩
  | command via cmd =>
    rcases stages_command h with ⟨_, rfl, _, rfl⟩ | ⟨_, _, _, _, _, _, rfl, _⟩ | ⟨_, _, _, rfl⟩
    . exact ⟨hearly, not_false⟩
    . contradiction
    . contradiction
  | send text =>
    obtain ⟨_, _, rfl⟩ := stages_send h
    contradiction

theorem stages_limiter (h : stages raw φ o r = some φ') (hlimiter : IsLimiter o)
    : φ.Unanswered := by
  cases o with
  | command via cmd =>
    rcases stages_command h with ⟨_, rfl, _⟩ | ⟨_, _, _, _, _, hbefore, _⟩ | ⟨_, rfl, _⟩
    . contradiction
    . exact hbefore
    . contradiction
  | add | steadyNow | systemNow | routerMatch | readRule | send => contradiction

end Steps

section Conforms

variable {raw : Bytes} {rule : Handle} {r : RouteRule} {read : Option RouteRule} {now : Option Int}
variable {req : HttpRequest}

abbrev Staged (raw : Bytes) {α : Type} (post : α → Stage → Prop) (φ : Stage) (p : ApiProg α) : Prop :=
  (stages raw).Conforms post φ p

theorem staged_get {via : Member} {key : Bytes} (hkey : tokenPrefix <+: key.cStr)
    : Staged raw (fun _ φ => φ = .matched rule read) (.matched rule read) (RedisClient.get via key) := by
  unfold RedisClient.get
  apply Phases.conforms_perform_bind
  intro reply
  refine ⟨.matched rule read, if_pos hkey, ?_⟩
  split <;> exact rfl

theorem staged_validate (token : Bytes)
    : Staged raw (fun _ φ => φ = .matched rule read) (.matched rule read) (AuthPlugin.validate token) := by
  apply (staged_get (Bytes.prefix_cStr_append (by decide))).bind
  rintro val _ rfl
  exact rfl

theorem staged_checkAuth
    : Staged raw (fun _ φ => ∃ read, φ = .matched rule read) (.matched rule none) (checkAuth rule req) := by
  unfold checkAuth
  apply Phases.conforms_perform_bind
  intro r
  refine ⟨.matched rule (some r), if_pos rfl, ?_⟩
  split
  . apply (staged_validate _).mono
    rintro _ _ rfl
    exact ⟨some r, rfl⟩
  . exact ⟨some r, rfl⟩

theorem staged_distributed (rate capacity : Int)
    : Staged raw (fun _ φ => φ = .limiting rule (some r) none) (.matched rule (some r))
        (DistributedRateLimiter.isAllowed r.pathPattern rate capacity) := by
  have hacquire : ∀ capacity, Staged raw (fun _ φ => φ = .limiting rule (some r) none)
      (.matched rule (some r)) (DistributedRateLimiter.acquireToken
        (Bytes.ofAscii "gateway:rate_limit" ++ Bytes.ofAscii ":" ++ r.pathPattern) rate capacity) := by
    intro capacity
    unfold DistributedRateLimiter.acquireToken
    apply Phases.conforms_perform_bind
    intro now
    refine ⟨.matched rule (some r), rfl, ?_⟩
    apply Phases.conforms_perform_bind
    intro reply
    refine ⟨.limiting rule (some r) none, if_pos rfl, ?_⟩
    cases reply <;> exact rfl
  apply (hacquire _).bind
  rintro result _ rfl
  cases result <;> exact rfl

section PerSecond

variable {via : Member} {key : Bytes} {ns : Int}

theorem staged_incr (hkey : key.cStr = secondKey r.pathPattern ns)
    : Staged raw (fun _ φ => φ = .limiting rule (some r) (some ns)) (.limiting rule (some r) (some ns))
        (RedisClient.incr via key) := by
  unfold RedisClient.incr
  apply Phases.conforms_perform_bind
  intro reply
  exact ⟨.limiting rule (some r) (some ns), if_pos hkey, rfl⟩

theorem staged_expire {seconds : Int} (hkey : key.cStr = secondKey r.pathPattern ns)
    : Staged raw (fun _ φ => φ = .limiting rule (some r) (some ns)) (.limiting rule (some r) (some ns))
        (RedisClient.expire via key seconds) := by
  unfold RedisClient.expire
  apply Phases.conforms_perform_bind
  intro reply
  exact ⟨.limiting rule (some r) (some ns), if_pos hkey, rfl⟩

theorem staged_perSecond (max : Int)
    : Staged raw (fun _ φ => ∃ now, φ = .limiting rule (some r) now) (.limiting rule (some r) now)
        (RateLimitPlugin.isAllowed (Bytes.ofAscii "rate:" ++ r.pathPattern) max) := by
  unfold RateLimitPlugin.isAllowed
  split
  . exact ⟨now, rfl⟩
  . apply Phases.conforms_perform_bind
    intro ns
    refine ⟨.limiting rule (some r) (some ns), rfl, ?_⟩
    apply (staged_incr rfl).bind
    rintro count _ rfl
    split
    . apply (staged_expire rfl).bind
      rintro ok _ rfl
      exact ⟨some ns, rfl⟩
    . exact ⟨some ns, rfl⟩

end PerSecond

def Checked (rule : Handle) (φ : Stage) : Prop :=
  (∃ read, φ = .matched rule read) ∨ ∃ read now, φ = .limiting rule read now

theorem staged_checkLimit
    : Staged raw (fun _ φ => Checked rule φ) (.matched rule read) (checkLimit rule) := by
  unfold checkLimit
  apply Phases.conforms_perform_bind
  intro r₁
  refine ⟨.matched rule (some r₁), if_pos rfl, ?_⟩
  split
  . apply Phases.conforms_perform_bind
    intro r₂
    refine ⟨.matched rule (some r₂), if_pos rfl, ?_⟩
    apply (staged_distributed _ _).bind
    rintro allowed _ rfl
    split
    . apply Phases.conforms_perform_bind
      intro r₃
      refine ⟨.limiting rule (some r₃) none, if_pos rfl, ?_⟩
      apply (staged_perSecond _).mono
      rintro _ _ ⟨now, rfl⟩
      exact .inr ⟨some r₃, now, rfl⟩
    . exact .inr ⟨some r₂, none, rfl⟩
  . exact .inl ⟨some r₁, rfl⟩

theorem staged_add {stat : Stat} {n : Nat} {φ : Stage} (hφ : Checked rule φ)
    : stages raw φ (.add stat n) () = some φ := by
  rcases hφ with ⟨read, rfl⟩ | ⟨read, now, rfl⟩ <;> rfl

theorem not_rejects {code : Nat} {body : Bytes} (hcode : (Bytes.ofNat code).length = 3)
    (hne : Bytes.ofNat code ∉ [Bytes.ofNat 400, Bytes.ofNat 404, Bytes.ofNat 401])
    : ¬Rejects (responseText code body) := by
  unfold Rejects
  rw [statusOf_responseText body hcode]
  exact hne

theorem staged_send {text : Bytes} {φ : Stage} (hφ : Checked rule φ) (htext : ¬Rejects text)
    : stages raw φ (.send text) () = some .answered := by
  rcases hφ with ⟨read, rfl⟩ | ⟨read, now, rfl⟩
  . rfl
  . exact if_neg htext

theorem staged_push (path : Bytes) (ns : Nat)
    : Staged raw (fun _ _ => True) .answered (LogConsumer.push path ns) := by
  have hxadd : ∀ fields, Staged raw (fun _ _ => True) .answered
      (RedisClient.xadd .logConsumer_ (Bytes.ofAscii "log_stream") fields) := by
    intro fields
    have hkey : xaddLog <+: (RedisClient.xaddCmd (Bytes.ofAscii "log_stream") fields).cStr :=
      Bytes.prefix_cStr_append (s := xaddLog) (by decide)
    unfold RedisClient.xadd
    apply Phases.conforms_perform_bind
    intro reply
    refine ⟨.logged, by simp [stages, hkey], ?_⟩
    split <;> trivial
  apply (hxadd _).bind
  intro _ _ _
  trivial

theorem staged_respond {start : Int} {φ : Stage} (hφ : Checked rule φ)
    : Staged raw (fun _ _ => True) φ (respond req start) := by
  unfold respond
  apply Phases.conforms_perform_bind
  intro _
  refine ⟨.answered, staged_send hφ (not_rejects (by decide) (by decide)), ?_⟩
  apply Phases.conforms_perform_bind
  intro stop
  refine ⟨.answered, rfl, ?_⟩
  apply Phases.conforms_perform_bind
  intro _
  exact ⟨.answered, rfl, staged_push _ _⟩

theorem staged_processMatched {start : Int}
    : Staged raw (fun _ _ => True) (.matched rule none) (processMatched rule req start) := by
  unfold processMatched
  apply staged_checkAuth.bind
  rintro authorized _ ⟨read, rfl⟩
  split
  . apply Phases.conforms_perform_bind
    intro _
    refine ⟨.matched rule read, rfl, ?_⟩
    intro _
    exact ⟨.answered, rfl, trivial⟩
  . apply staged_checkLimit.bind
    intro allowed φ hφ
    split
    . apply Phases.conforms_perform_bind
      intro _
      refine ⟨φ, staged_add hφ, ?_⟩
      intro _
      exact ⟨.answered, staged_send hφ (not_rejects (by decide) (by decide)), trivial⟩
    . exact staged_respond hφ

theorem staged_processApiRequest (raw : Bytes)
    : Staged raw (fun _ _ => True) .arrived (processApiRequest raw) := by
  unfold processApiRequest
  apply Phases.conforms_perform_bind
  intro _
  refine ⟨.arrived, rfl, ?_⟩
  apply Phases.conforms_perform_bind
  intro start
  refine ⟨.arrived, rfl, ?_⟩
  dsimp only
  split
  . trivial
  . intro _
    exact ⟨.answered, rfl, trivial⟩
  . next hparsed =>
    apply Phases.conforms_perform_bind
    intro found
    have hpath : routedPath raw = some (HttpParser.parse HttpParser.new raw HttpRequest.new).req.path := by
      simp [routedPath, hparsed]
    cases found with
    | none =>
      refine ⟨.arrived, if_pos hpath, ?_⟩
      intro _
      exact ⟨.answered, rfl, trivial⟩
    | some rule =>
      refine ⟨.matched rule none, if_pos hpath, ?_⟩
      apply staged_processMatched.bind
      intro _ _ _
      trivial

end Conforms

end Gateway
end LFGateway
