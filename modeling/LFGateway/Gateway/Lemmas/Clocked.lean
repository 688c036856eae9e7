import LFGateway.Gateway.Impl.Timed
import LFGateway.Gateway.Lemmas.Isolation
import LFGateway.RateLimit.Lemmas.FixedWindow

/-!
This module contains what a request that counts itself has done before: its key is that of its rule and
of the second in which it read the clock, and the numbers it got were counted in that second.
-/

namespace LFGateway

open Foundation

namespace Gateway

def Stage.now : Stage → Option Int
  | .limiting _ _ now => now
  | .arrived | .matched _ _ | .answered | .logged => none

namespace Timed

variable {rules_ : List RouteRule} {rule : RouteRule} {raw p q : Bytes} {start clock clock' : Nat}
variable {second : Nat} {t t' : Request} {h : List ApiEvent} {φ φ' : Stage} {o : ApiOp} {r : o.Reply}

section Deadlines

def deadlines : Phases ApiOp ApiOp.Reply Unit
  | _, .command _ (.expire _ seconds), _ => if seconds = 2 then some () else none
  | _, _, _ => some ()

abbrev Deadlined {α : Type} (p : ApiProg α) : Prop := deadlines.Conforms (fun _ _ => True) () p

variable {α β : Type} {via : Member} {key : Bytes}

theorem deadlined_bind {p : ApiProg α} {f : α → ApiProg β} (hp : Deadlined p)
    (hf : ∀ a, Deadlined (f a)) : Deadlined (p >>= f) :=
  hp.bind fun a _ _ => hf a

theorem deadlined_perform_bind {f : o.Reply → ApiProg β} (ho : ∀ r, deadlines () o r = some ())
    (hf : ∀ r, Deadlined (f r)) : Deadlined (perform o >>= f) :=
  Phases.conforms_perform_bind fun r => ⟨(), ho r, hf r⟩

theorem deadlined_get : Deadlined (RedisClient.get via key) := by
  unfold RedisClient.get
  apply deadlined_perform_bind fun _ => rfl
  intro reply
  split <;> trivial

theorem deadlined_distributed (path : Bytes) (rate capacity : Int)
    : Deadlined (DistributedRateLimiter.isAllowed path rate capacity) := by
  have hacquire : ∀ key rate capacity,
      Deadlined (DistributedRateLimiter.acquireToken key rate capacity) := by
    intro key rate capacity
    unfold DistributedRateLimiter.acquireToken
    apply deadlined_perform_bind fun _ => rfl
    intro now
    apply deadlined_perform_bind fun _ => rfl
    intro reply
    split <;> trivial
  unfold DistributedRateLimiter.isAllowed
  apply deadlined_bind (hacquire _ _ _)
  intro result
  split <;> trivial

theorem deadlined_perSecond (keyPrefix : Bytes) (max : Int)
    : Deadlined (RateLimitPlugin.isAllowed keyPrefix max) := by
  unfold RateLimitPlugin.isAllowed
  split
  . trivial
  . apply deadlined_perform_bind fun _ => rfl
    intro now
    have hincr : Deadlined (RedisClient.incr .rateLimiter_
        (keyPrefix ++ Bytes.ofAscii ":" ++ Bytes.ofInt (now.tdiv 1000000000))) :=
      deadlined_perform_bind (fun _ => rfl) fun _ => trivial
    apply deadlined_bind hincr
    intro count
    have hexpire : Deadlined (RedisClient.expire .rateLimiter_
        (keyPrefix ++ Bytes.ofAscii ":" ++ Bytes.ofInt (now.tdiv 1000000000)) 2) :=
      deadlined_perform_bind (fun _ => rfl) fun _ => trivial
    split
    . exact deadlined_bind hexpire fun _ => trivial
    . trivial

theorem deadlined_checkAuth (handle : Handle) (req : HttpRequest) : Deadlined (checkAuth handle req) := by
  unfold checkAuth AuthPlugin.validate
  apply deadlined_perform_bind fun _ => rfl
  intro r
  split
  . exact deadlined_bind deadlined_get fun _ => trivial
  . trivial

theorem deadlined_checkLimit (handle : Handle) : Deadlined (checkLimit handle) := by
  unfold checkLimit
  apply deadlined_perform_bind fun _ => rfl
  intro r₁
  split
  . apply deadlined_perform_bind fun _ => rfl
    intro r₂
    apply deadlined_bind (deadlined_distributed _ _ _)
    intro allowed
    split
    . exact deadlined_perform_bind (fun _ => rfl) fun _ => deadlined_perSecond _ _
    . trivial
  . trivial

theorem deadlined_send (code : Nat) (body : Bytes) : Deadlined (sendResponse code body) :=
  Phases.conforms_perform fun _ => ⟨(), rfl, trivial⟩

theorem deadlined_respond (req : HttpRequest) (start : Int) : Deadlined (respond req start) := by
  unfold respond LogConsumer.push
  apply deadlined_bind (deadlined_send _ _)
  intro _
  apply deadlined_perform_bind fun _ => rfl
  intro stop
  apply deadlined_perform_bind fun _ => rfl
  intro _
  have hxadd : ∀ key fields, Deadlined (RedisClient.xadd .logConsumer_ key fields) := by
    intro key fields
    unfold RedisClient.xadd
    apply deadlined_perform_bind fun _ => rfl
    intro reply
    split <;> trivial
  exact deadlined_bind (hxadd _ _) fun _ => trivial

theorem deadlined_processMatched (handle : Handle) (req : HttpRequest) (start : Int)
    : Deadlined (processMatched handle req start) := by
  unfold processMatched
  apply deadlined_bind (deadlined_checkAuth _ _)
  intro authorized
  split
  . exact deadlined_perform_bind (fun _ => rfl) fun _ => deadlined_send _ _
  . apply deadlined_bind (deadlined_checkLimit _)
    intro allowed
    split
    . exact deadlined_perform_bind (fun _ => rfl) fun _ => deadlined_send _ _
    . exact deadlined_respond _ _

theorem deadlined_processApiRequest (raw : Bytes) : Deadlined (processApiRequest raw) := by
  unfold processApiRequest
  apply deadlined_perform_bind fun _ => rfl
  intro _
  apply deadlined_perform_bind fun _ => rfl
  intro start
  dsimp only
  split
  . trivial
  . exact deadlined_bind (deadlined_send _ _) fun _ => trivial
  . apply deadlined_perform_bind fun _ => rfl
    intro found
    split
    . exact deadlined_bind (deadlined_send _ _) fun _ => trivial
    . exact deadlined_bind (deadlined_processMatched _ _ _) fun _ => trivial

end Deadlines

section Keys

theorem counterKey_eq (p : Bytes) (ns : Nat) : secondKey p ns = counterKey p (ns / 1000000000) := by
  have hdiv : ((ns : Int).tdiv 1000000000) = ((ns / 1000000000 : Nat) : Int) :=
    (Int.ofNat_tdiv ns 1000000000).symm
  unfold secondKey counterKey FixedWindow.secondKey
  rw [hdiv]

theorem counterKey_injective {a b : Nat} (hp : 0 ∉ p) (hq : 0 ∉ q)
    (h : counterKey p a = counterKey q b) : p = q ∧ a = b := by
  have hns : ∀ (p : Bytes) (a : Nat), counterKey p a = secondKey p (1000000000 * a : Nat) := by
    intro p a
    rw [counterKey_eq, Nat.mul_div_cancel_left a (by decide)]
  rw [hns, hns] at h
  obtain ⟨hpattern, hsecond⟩ := secondKey_injective hp hq h
  refine ⟨hpattern, ?_⟩
  have hdiv : ∀ a : Nat, ((1000000000 * a : Nat) : Int).tdiv 1000000000 = a := by
    intro a
    rw [Nat.cast_mul]
    exact Int.mul_tdiv_cancel_left _ (by decide)
  rwa [hdiv, hdiv, Nat.cast_inj] at hsecond

theorem ne_counterKey {key : Bytes} (hp : 0 ∉ p) (hkey : ¬counterPrefix p <+: key)
    : key ≠ counterKey p second := by
  rintro rfl
  apply hkey
  apply Bytes.prefix_cStr_append
  simp only [counterPrefix, List.mem_append, not_or]
  exact ⟨⟨by decide, hp⟩, by decide⟩

theorem exists_first_of_ruleFor (hrule : Keyed.ruleFor rules_ raw = some rule)
    : ∃ (i : Nat) (path : Bytes), rules_[i]? = some rule ∧ rule.matches path = true ∧
        ∀ (j : Nat) (other : RouteRule), rules_[j]? = some other → other.matches path = true → i ≤ j := by
  obtain ⟨i, hi, hrow⟩ := Option.bind_eq_some_iff.mp hrule
  unfold ruleOf at hi
  dsimp only at hi
  split at hi
  . obtain ⟨hlt, hmatches, hleast⟩ := List.findIdx?_eq_some_iff_getElem.mp hi
    refine ⟨i, (HttpParser.parse HttpParser.new raw HttpRequest.new).req.path, hrow, ?_, ?_⟩
    . rw [List.getElem?_eq_getElem hlt, Option.some.injEq] at hrow
      rwa [← hrow]
    . intro j other hother hmatched
      by_contra hlt'
      obtain ⟨hj, rfl⟩ := List.getElem?_eq_some_iff.mp hother
      exact hleast j (by omega) hmatched
  . contradiction

theorem ruleFor_eq_of_pattern {raw' : Bytes} {rule' : RouteRule}
    (hrule : Keyed.ruleFor rules_ raw = some rule) (hrule' : Keyed.ruleFor rules_ raw' = some rule')
    (heq : rule.pathPattern = rule'.pathPattern) : rule = rule' := by
  obtain ⟨i, path, hi, hpath, hleast⟩ := exists_first_of_ruleFor hrule
  obtain ⟨j, path', hj, hpath', hleast'⟩ := exists_first_of_ruleFor hrule'
  have hle : i ≤ j := by
    apply hleast j rule' hj
    unfold RouteRule.matches at hpath ⊢
    rwa [← heq]
  have hge : j ≤ i := by
    apply hleast' i rule hi
    unfold RouteRule.matches at hpath' ⊢
    rwa [heq]
  have hij : i = j := by omega
  rw [hij, hj, Option.some.injEq] at hi
  exact hi.symm

end Keys

section Readings

theorem readings_append {h' : List ApiEvent}
    : FixedWindow.readings (h ++ h') = FixedWindow.readings h ++ FixedWindow.readings h' :=
  List.filterMap_append

theorem lastReading_systemNow {ns : Int} : lastReading (h ++ [⟨.systemNow, ns⟩]) = some ns := by
  unfold lastReading
  rw [readings_append]
  exact List.getLast?_concat ..

theorem lastReading_of_ne (ho : o ≠ .systemNow) : lastReading (h ++ [⟨o, r⟩]) = lastReading h := by
  have hnone : FixedWindow.readings [⟨o, r⟩] = [] := by
    cases o with
    | systemNow => contradiction
    | add | steadyNow | routerMatch | readRule | command | send => rfl
  unfold lastReading
  rw [readings_append, hnone, List.append_nil]

theorem stages_now {ns : Int} (hφ' : stages raw φ o r = some φ') (hnow : φ'.now = some ns)
    (hbefore : ∀ ns, φ.now = some ns → lastReading h = some ns)
    : lastReading (h ++ [⟨o, r⟩]) = some ns := by
  cases o with
  | systemNow =>
    rw [lastReading_systemNow]
    cases φ with
    | limiting rule read now =>
      simp only [stages, Option.some.injEq] at hφ'
      subst hφ'
      exact hnow
    | matched rule read =>
      simp only [stages, Option.some.injEq] at hφ'
      subst hφ'
      contradiction
    | arrived | answered | logged => contradiction
  | add stat n =>
    have hsame : φ' = φ := by
      cases φ with
      | arrived | matched | limiting | answered => exact (Option.some.inj hφ').symm
      | logged => contradiction
    rw [hsame] at hnow
    rw [lastReading_of_ne (by simp)]
    exact hbefore ns hnow
  | steadyNow =>
    cases φ with
    | arrived | answered =>
      rw [← Option.some.inj hφ'] at hnow
      contradiction
    | matched | limiting | logged => contradiction
  | routerMatch path =>
    obtain ⟨rfl, _, rfl⟩ := stages_match hφ'
    cases r <;> contradiction
  | readRule handle =>
    rw [lastReading_of_ne (by simp)]
    cases φ with
    | matched rule read =>
      simp only [stages, Option.ite_none_right_eq_some, Option.some.injEq] at hφ'
      rw [← hφ'.2] at hnow
      contradiction
    | limiting rule read now =>
      simp only [stages, Option.ite_none_right_eq_some, Option.some.injEq] at hφ'
      rw [← hφ'.2] at hnow
      exact hbefore ns hnow
    | arrived | answered | logged => contradiction
  | command via cmd =>
    rw [lastReading_of_ne (by simp)]
    cases φ with
    | matched rule read =>
      rcases askMatched_cases hφ' with ⟨_, _, _, rfl⟩ | ⟨_, _, _, _, _, _, _, _, rfl⟩ <;> contradiction
    | limiting rule read now =>
      obtain ⟨_, _, _, _, _, rfl⟩ := askLimiting_cases hφ'
      exact hbefore ns hnow
    | answered =>
      rcases stages_command hφ' with ⟨_, _, _, rfl⟩ | ⟨_, _, _, hnone, _⟩ | ⟨_, _, _, rfl⟩ <;> contradiction
    | arrived | logged => contradiction
  | send text =>
    obtain ⟨_, _, rfl⟩ := stages_send hφ'
    contradiction

end Readings

section Kept

def OwnKey (rules_ : List RouteRule) (start clock : Nat) (raw key : Bytes) : Prop :=
  ∃ rule second, Keyed.ruleFor rules_ raw = some rule ∧ key = counterKey rule.pathPattern second ∧
    start / 1000000000 ≤ second ∧ second ≤ clock / 1000000000

/--
What holds of a request at a time, where the run has begun at `start`.
-/
structure Kept (rules_ : List RouteRule) (start clock : Nat) (t : Request) : Prop where
  staged : ∃ φ, (stages t.input).Conforms (fun _ _ => True) φ t.now ∧ Keyed.Faithful rules_ t.input φ ∧
    ∀ ns, φ.now = some ns → lastReading t.history = some ns
  deadlines : Deadlined t.now
  reading : ∀ ns ∈ lastReading t.history, ∃ m : Nat, ns = m ∧ start ≤ m ∧ m ≤ clock
  counted : ∀ kn ∈ numbers t.history, OwnKey rules_ start clock t.input kn.1

theorem kept_arrived (raw : Bytes) : Kept rules_ start clock ⟨raw, [], processApiRequest raw⟩ where
  staged := by
    refine ⟨.arrived, staged_processApiRequest raw, ⟨?_, ?_⟩, ?_⟩
    . intro rule hrule
      contradiction
    . intro r hread
      contradiction
    . intro ns hnow
      contradiction
  deadlines := deadlined_processApiRequest raw
  reading := by
    intro ns hns
    contradiction
  counted := by
    intro kn hkn
    contradiction

theorem OwnKey.mono {key : Bytes} (h : OwnKey rules_ start clock raw key) (hle : clock ≤ clock')
    : OwnKey rules_ start clock' raw key := by
  obtain ⟨rule, second, hrule, hkey, hstart, hend⟩ := h
  exact ⟨rule, second, hrule, hkey, hstart, hend.trans (Nat.div_le_div_right hle)⟩

theorem Kept.mono (h : Kept rules_ start clock t) (hle : clock ≤ clock') : Kept rules_ start clock' t where
  staged := h.staged
  deadlines := h.deadlines
  reading := by
    intro ns hns
    obtain ⟨m, hm, hstart, hend⟩ := h.reading ns hns
    exact ⟨m, hm, hstart, hend.trans hle⟩
  counted := fun kn hkn => (h.counted kn hkn).mono hle

theorem Kept.incr {via : Member} {key : Bytes}
    {next : Option RedisReply → ApiProg (Except StdException Unit)} (h : Kept rules_ start clock t)
    (hnow : t.now = .op (.command via (.incr key)) next) (htime : CallInTime clock t)
    : ∃ rule second, Keyed.ruleFor rules_ t.input = some rule ∧ key = counterKey rule.pathPattern second ∧
        start / 1000000000 ≤ second ∧ 1000000000 * second ≤ clock ∧
        clock < 1000000000 * (second + 2) := by
  obtain ⟨φ, hconforms, hfaithful, hread⟩ := h.staged
  rw [hnow] at hconforms
  obtain ⟨φ', hφ', _⟩ := hconforms none
  cases φ with
  | limiting handle read now =>
    simp only [stages, askLimiting] at hφ'
    split at hφ'
    . next r ns key' heq =>
      rw [Option.ite_none_right_eq_some] at hφ'
      rw [Command.incr.injEq] at heq
      subst heq
      have hns := hread ns rfl
      obtain ⟨m, rfl, hstart, hend⟩ := h.reading ns hns
      unfold CallInTime at htime
      rw [hnow] at htime
      have hlate := htime rfl m hns
      refine ⟨r, m / 1000000000, hfaithful.read r rfl, ?_, Nat.div_le_div_right hstart, ?_, ?_⟩
      . rw [← counterKey_eq]
        exact hφ'.1
      . omega
      . omega
    . next heq => contradiction
    . contradiction
  | arrived | matched | answered | logged => contradiction

theorem fromTable_of_answer {server server' : Server} {choice : Choice}
    (h : answer rules_ server o choice = some (r, server')) : Keyed.FromTable rules_ ⟨o, r⟩ := by
  cases o with
  | routerMatch | readRule =>
    cases choice with
    | go => exact Keyed.fromTable_of_localReply (answerLocally_eq_some_iff.mp h).1
    | time | redis | lost => contradiction
  | add | steadyNow | systemNow | command | send => trivial

theorem answer_of_not_command {server server' : Server} {choice : Choice}
    (ho : ∀ via cmd, o ≠ .command via cmd)
    (h : answer rules_ server o choice = some (r, server')) : server' = server := by
  cases o with
  | command via cmd => exact absurd rfl (ho via cmd)
  | steadyNow =>
    cases choice with
    | time ns =>
      simp only [answer, Option.some.injEq, Prod.mk.injEq] at h
      exact h.2.symm
    | go | redis | lost => contradiction
  | systemNow =>
    cases choice with
    | go =>
      simp only [answer, Option.some.injEq, Prod.mk.injEq] at h
      exact h.2.symm
    | time | redis | lost => contradiction
  | add | routerMatch | readRule | send =>
    cases choice with
    | go => exact (answerLocally_eq_some_iff.mp h).2
    | time | redis | lost => contradiction

theorem reading_of_answer {server server' : Server} {choice : Choice} {ns : Int}
    (h : answer rules_ server .systemNow choice = some (ns, server')) : ns = server.clock := by
  cases choice with
  | go =>
    simp only [answer, Option.some.injEq, Prod.mk.injEq] at h
    exact h.1.symm
  | time | redis | lost => contradiction

theorem numbers_append {h' : List ApiEvent} : numbers (h ++ h') = numbers h ++ numbers h' :=
  List.filterMap_append

theorem incr_of_mem_numbers {kn : Bytes × Int} (h : kn ∈ numbers [⟨o, r⟩])
    : ∃ via, o = .command via (.incr kn.1) := by
  obtain ⟨e, he, hkn⟩ := List.mem_filterMap.mp h
  rw [List.mem_singleton] at he
  subst he
  split at hkn
  . next via key n heq =>
    rw [Option.some.injEq] at hkn
    subst hkn
    cases heq
    exact ⟨via, rfl⟩
  . contradiction

theorem Kept.advance {server server' : Server} {choice : Choice} (h : Kept rules_ start server.clock t)
    (hstart : start ≤ server.clock) (htime : CallInTime server.clock t)
    (hstep : Threads.advance (answer rules_) server t choice = some (server', t'))
    : Kept rules_ start server.clock t' := by
  obtain ⟨o, next, r, hnow, hanswer, rfl⟩ := Threads.advance_eq_some hstep
  constructor
  . obtain ⟨φ, hconforms, hfaithful, hread⟩ := h.staged
    rw [hnow] at hconforms
    obtain ⟨φ', hφ', hnext⟩ := hconforms r
    exact ⟨φ', hnext, hfaithful.next hφ' (fromTable_of_answer hanswer),
      fun ns hns => stages_now hφ' hns hread⟩
  . have hdeadlines := h.deadlines
    rw [hnow] at hdeadlines
    obtain ⟨_, _, hnext⟩ := hdeadlines r
    exact hnext
  . dsimp only
    by_cases ho : o = .systemNow
    . subst ho
      rw [lastReading_systemNow, reading_of_answer hanswer]
      rintro ns ⟨⟩
      exact ⟨server.clock, rfl, hstart, le_refl _⟩
    . rw [lastReading_of_ne ho]
      exact h.reading
  . dsimp only
    intro kn hkn
    rw [numbers_append, List.mem_append] at hkn
    cases hkn with
    | inl hold => exact h.counted kn hold
    | inr hlast =>
      obtain ⟨via, rfl⟩ := incr_of_mem_numbers hlast
      obtain ⟨rule, second, hrule, hkey, hfrom, hclock, _⟩ := h.incr hnow htime
      exact ⟨rule, second, hrule, hkey, hfrom, by omega⟩

end Kept

end Timed
end Gateway
end LFGateway
