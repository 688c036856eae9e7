import LFGateway.Gateway.Lemmas.Admission

/-!
This module contains which numbers of the second limiter have no deadline. `INCR` and `EXPIRE` are two
commands, so a number is without one until the request that created it has set it; where one of the two
replies is missed, nobody sets it any more.
-/

namespace LFGateway

open Foundation

namespace Gateway
namespace Timed

variable {rules_ : List RouteRule} {raw : Bytes} {t t' : Request} {server server' : Server}
variable {s s' : Requests} {choice : Choice} {o : ApiOp} {r : o.Reply}

section Debts

/--
What a request owes to the number that it has counted up.
-/
inductive Debt where
  /-- it has not counted -/
  | free
  /-- the number was 1, the deadline comes next -/
  | due (key : Bytes)
  /-- the number or the reply to its deadline has not come back, or Redis has refused the deadline -/
  | missed (key : Bytes)
  /-- nothing any more -/
  | settled
  deriving DecidableEq, Repr

def Debt.key : Debt → Option Bytes
  | due key | missed key => some key
  | free | settled => none

def Debt.isDue : Debt → Bool
  | due _ => true
  | free | missed _ | settled => false

def counted (key : Bytes) : Option RedisReply → Debt
  | none => .missed key
  | some reply => if reply = .integer 1 then .due key else .settled

def dated (key : Bytes) : Option RedisReply → Debt
  | some (.integer _) => .settled
  | _ => .missed key

def debtAfter : Debt → ApiEvent → Debt
  | .free, ⟨.command _ (.incr key), reply⟩ => counted key reply
  | .due key, ⟨.command _ (.expire _ _), reply⟩ => dated key reply
  | debt, _ => debt

def debt (t : Request) : Debt := t.history.foldl debtAfter .free

def isCount : ApiOp → Bool
  | .command _ (.incr _) | .command _ (.expire _ _) => true
  | _ => false

/--
A request counts once, and it sets the deadline of the number it has counted before anything else.
-/
def permitted : Debt → ApiOp → Bool
  | .free, .command _ (.expire _ _) => false
  | .free, _ => true
  | .due key, .command _ (.expire key' _) => key' = key
  | .due _, _ => false
  | .missed _, o | .settled, o => !isCount o

def debts : Phases ApiOp ApiOp.Reply Debt := fun debt o r =>
  if permitted debt o then some (debtAfter debt ⟨o, r⟩) else none

variable {α β : Type} {debt : Debt} {via : Member} {key : Bytes} {post : α → Debt → Prop}

theorem debts_of_quiet (hdebt : debt.isDue = false) (ho : isCount o = false)
    : debts debt o r = some debt := by
  cases debt with
  | due key => contradiction
  | free | missed | settled =>
    cases o with
    | command via cmd =>
      cases cmd with
      | incr | expire => contradiction
      | get | eval | xadd => rfl
    | add | steadyNow | systemNow | routerMatch | readRule | send => rfl

theorem conforms_quiet_bind {f : o.Reply → ApiProg α} (hdebt : debt.isDue = false)
    (ho : isCount o = false) (hf : ∀ r, debts.Conforms post debt (f r))
    : debts.Conforms post debt (perform o >>= f) :=
  Phases.conforms_perform_bind fun r => ⟨debt, debts_of_quiet hdebt ho, hf r⟩

abbrev Quiet {α : Type} (p : ApiProg α) : Prop :=
  ∀ debt : Debt, debt.isDue = false → debts.Conforms (fun _ debt' => debt' = debt) debt p

theorem Quiet.bind {p : ApiProg β} {f : β → ApiProg α} (hp : Quiet p) (hdebt : debt.isDue = false)
    (hf : ∀ a, debts.Conforms post debt (f a)) : debts.Conforms post debt (p >>= f) := by
  apply (hp debt hdebt).bind
  rintro a _ rfl
  exact hf a

theorem quiet_get : Quiet (RedisClient.get via key) := by
  intro debt hdebt
  unfold RedisClient.get
  apply conforms_quiet_bind hdebt rfl
  intro reply
  split <;> exact rfl

theorem quiet_xadd (fields : List (Bytes × Bytes)) : Quiet (RedisClient.xadd via key fields) := by
  intro debt hdebt
  unfold RedisClient.xadd
  apply conforms_quiet_bind hdebt rfl
  intro reply
  split <;> exact rfl

theorem quiet_distributed (path : Bytes) (rate capacity : Int)
    : Quiet (DistributedRateLimiter.isAllowed path rate capacity) := by
  have hacquire : ∀ key rate capacity, Quiet (DistributedRateLimiter.acquireToken key rate capacity) := by
    intro key rate capacity debt hdebt
    unfold DistributedRateLimiter.acquireToken
    apply conforms_quiet_bind hdebt rfl
    intro now
    apply conforms_quiet_bind hdebt rfl
    intro reply
    split <;> exact rfl
  intro debt hdebt
  unfold DistributedRateLimiter.isAllowed
  apply (hacquire _ _ _).bind hdebt
  intro result
  split <;> exact rfl

theorem quiet_checkAuth (handle : Handle) (req : HttpRequest) : Quiet (checkAuth handle req) := by
  intro debt hdebt
  unfold checkAuth AuthPlugin.validate
  apply conforms_quiet_bind hdebt rfl
  intro r
  split
  . exact quiet_get.bind hdebt fun _ => rfl
  . exact rfl

theorem quiet_sendResponse (code : Nat) (body : Bytes) : Quiet (sendResponse code body) :=
  fun _ hdebt => Phases.conforms_perform fun _ => ⟨_, debts_of_quiet hdebt rfl, rfl⟩

theorem quiet_respond (req : HttpRequest) (start : Int) : Quiet (respond req start) := by
  intro debt hdebt
  unfold respond LogConsumer.push
  apply (quiet_sendResponse _ _).bind hdebt
  intro _
  apply conforms_quiet_bind hdebt rfl
  intro stop
  apply conforms_quiet_bind hdebt rfl
  intro _
  exact (quiet_xadd _).bind hdebt fun _ => rfl

/--
The program counts at most once, and it does not return before it has tried to set the deadline.
-/
abbrev Pays {α : Type} (p : ApiProg α) : Prop :=
  debts.Conforms (fun _ debt => debt.isDue = false) .free p

theorem counted_cases (key : Bytes) (reply : Option RedisReply)
    : (RedisClient.countOf reply = 1 ∧ counted key reply = .due key) ∨
        (RedisClient.countOf reply ≠ 1 ∧ (counted key reply).isDue = false) := by
  cases reply with
  | none => exact .inr ⟨by simp [RedisClient.countOf], rfl⟩
  | some reply =>
    cases reply with
    | integer n =>
      by_cases hn : n = 1
      . subst hn
        exact .inl ⟨rfl, rfl⟩
      . refine .inr ⟨hn, ?_⟩
        simp [counted, hn, Debt.isDue]
    | string | status | nil | error =>
      exact .inr ⟨by simp [RedisClient.countOf], rfl⟩

theorem debts_expire (seconds : Int) (reply : Option RedisReply)
    : debts (.due key) (.command via (.expire key seconds)) reply = some (dated key reply) :=
  if_pos (decide_eq_true rfl)

theorem isDue_dated (key : Bytes) (reply : Option RedisReply) : (dated key reply).isDue = false := by
  unfold dated
  split <;> rfl

theorem pays_perSecond (keyPrefix : Bytes) (max : Int)
    : Pays (RateLimitPlugin.isAllowed keyPrefix max) := by
  unfold RateLimitPlugin.isAllowed RedisClient.incr RedisClient.expire
  split
  . exact rfl
  . apply conforms_quiet_bind rfl rfl
    intro now
    dsimp only
    rw [bind_assoc]
    apply Phases.conforms_perform_bind
    intro reply
    refine ⟨counted _ reply, rfl, ?_⟩
    rw [pure_bind]
    rcases counted_cases (keyPrefix ++ Bytes.ofAscii ":" ++ Bytes.ofInt (now.tdiv 1000000000)).cStr reply
      with ⟨hcount, hdue⟩ | ⟨hcount, hdebt⟩
    . rw [if_pos hcount, hdue, bind_assoc]
      apply Phases.conforms_perform_bind
      intro reply
      exact ⟨_, debts_expire 2 reply, isDue_dated _ reply⟩
    . rw [if_neg hcount]
      exact hdebt

theorem pays_checkLimit (handle : Handle) : Pays (checkLimit handle) := by
  unfold checkLimit
  apply conforms_quiet_bind rfl rfl
  intro r₁
  split
  . apply conforms_quiet_bind rfl rfl
    intro r₂
    apply (quiet_distributed _ _ _).bind rfl
    intro allowed
    split
    . exact conforms_quiet_bind rfl rfl fun _ => pays_perSecond _ _
    . exact rfl
  . exact rfl

theorem pays_processMatched (handle : Handle) (req : HttpRequest) (start : Int)
    : Pays (processMatched handle req start) := by
  unfold processMatched
  apply (quiet_checkAuth _ _).bind rfl
  intro authorized
  split
  . exact conforms_quiet_bind rfl rfl fun _ => (quiet_sendResponse _ _ .free rfl).mono (by simp [Debt.isDue])
  . apply (pays_checkLimit _).bind
    intro allowed debt hdebt
    have hkeeps {p : ApiProg Unit} (hp : Quiet p)
        : debts.Conforms (fun _ debt => debt.isDue = false) debt p := by
      apply (hp debt hdebt).mono
      rintro _ _ rfl
      exact hdebt
    split
    . exact conforms_quiet_bind hdebt rfl fun _ => hkeeps (quiet_sendResponse _ _)
    . exact hkeeps (quiet_respond _ _)

theorem pays_processApiRequest (raw : Bytes) : Pays (processApiRequest raw) := by
  unfold processApiRequest
  apply conforms_quiet_bind rfl rfl
  intro _
  apply conforms_quiet_bind rfl rfl
  intro start
  dsimp only
  split
  . exact rfl
  . exact (quiet_sendResponse _ _).bind rfl fun _ => rfl
  . apply conforms_quiet_bind rfl rfl
    intro found
    split
    . exact (quiet_sendResponse _ _).bind rfl fun _ => rfl
    . exact (pays_processMatched _ _ _).bind fun _ _ hdebt => hdebt

end Debts

section Server

variable {key : Bytes} {e : ApiEvent} {via : Member} {cmd : Command} {reply : Option RedisReply}

/--
The number stays in Redis until somebody sets its deadline.
-/
def Undated (server : Server) (key : Bytes) : Prop := ∃ count, server.counters key = some ⟨count, none⟩

def SetsDeadline (key : Bytes) (e : ApiEvent) : Prop :=
  ∃ via seconds n, e = ⟨.command via (.expire key seconds), some (.integer n)⟩

/--
What an operation of a request has done to Redis. An `INCR` or `EXPIRE` that has done nothing has got no
number.
-/
inductive Effect (server : Server) : ApiEvent → Server → Prop where
  | unchanged (e : ApiEvent)
      (hcount : ∀ via cmd n, e = ⟨.command via cmd, some (.integer n)⟩ → isCount (.command via cmd) = false)
      : Effect server e server
  | incr (via : Member) (key : Bytes) (n : Int) (reply : Option RedisReply) (server' : Server)
      (hreply : reply = some (.integer n) ∨ reply = none) (hincr : server.incr key = some (n, server'))
      : Effect server ⟨.command via (.incr key), reply⟩ server'
  | expire (via : Member) (key : Bytes) (seconds : Int)
      : Effect server ⟨.command via (.expire key seconds), some (.integer (server.expire key seconds).1)⟩
          (server.expire key seconds).2

theorem effect_of_redisAnswer (via : Member) (h : redisAnswer server cmd choice = some (reply, server'))
    : Effect server ⟨.command via cmd, reply⟩ server' := by
  unfold redisAnswer at h
  split at h
  . next key =>
    obtain ⟨⟨n, _⟩, hincr, heq⟩ := Option.map_eq_some_iff.mp h
    cases heq
    exact .incr via key n _ _ (.inl rfl) hincr
  . next key =>
    obtain ⟨⟨n, _⟩, hincr, heq⟩ := Option.map_eq_some_iff.mp h
    cases heq
    exact .incr via key n _ _ (.inr rfl) hincr
  . split at h
    . next hunexecuted =>
      cases h
      apply Effect.unchanged
      rintro _ _ n heq
      cases heq
      exact hunexecuted.elim
    . contradiction
  . next key seconds =>
    cases h
    exact .expire via key seconds
  . split at h
    . next hunexecuted =>
      cases h
      apply Effect.unchanged
      rintro _ _ n heq
      cases heq
      exact hunexecuted.elim
    . contradiction
  all_goals
    first
    | contradiction
    | cases h
      apply Effect.unchanged
      rintro _ _ n heq
      cases heq
      rfl

theorem effect_of_answer (h : answer rules_ server o choice = some (r, server'))
    : Effect server ⟨o, r⟩ server' := by
  by_cases ho : ∃ via cmd, o = .command via cmd
  . obtain ⟨via, cmd, rfl⟩ := ho
    exact effect_of_redisAnswer via h
  . rw [answer_of_not_command (fun via cmd heq => ho ⟨via, cmd, heq⟩) h]
    apply Effect.unchanged
    intro via cmd n heq
    exact absurd ⟨via, cmd, congrArg Event.op heq⟩ ho

theorem counters_incr {n : Int} (hincr : server.incr key = some (n, server'))
    : n = ((server.counters key).getD ⟨0, none⟩).count + 1 ∧
        server'.counters
          =
        Function.update server.counters key (some ⟨n, ((server.counters key).getD ⟨0, none⟩).deadline⟩) := by
  unfold FixedWindow.Server.incr at hincr
  dsimp only at hincr
  split at hincr
  . rw [Option.some.injEq, Prod.mk.injEq] at hincr
    obtain ⟨rfl, rfl⟩ := hincr
    exact ⟨rfl, rfl⟩
  . contradiction

theorem counters_expire (seconds : Int) {key' : Bytes} (hne : key' ≠ key)
    : (server.expire key seconds).2.counters key' = server.counters key' := by
  unfold FixedWindow.Server.expire
  split
  . simp [hne]
  . rfl

theorem not_undated_expire (seconds : Int) : ¬Undated (server.expire key seconds).2 key := by
  rintro ⟨count, hcount⟩
  unfold FixedWindow.Server.expire at hcount
  split at hcount
  . simp at hcount
  . next hnone =>
    rw [hnone] at hcount
    contradiction

theorem Effect.undated (h : Effect server e server') (hundated : Undated server' key)
    : (Undated server key ∧ ¬SetsDeadline key e) ∨
        ∃ via reply, e = ⟨.command via (.incr key), reply⟩ ∧ (counted key reply).key = some key := by
  cases h with
  | unchanged e hcount =>
    refine .inl ⟨hundated, ?_⟩
    rintro ⟨via, seconds, n, rfl⟩
    exact absurd (hcount via _ n rfl) (by simp [isCount])
  | incr via key' n reply server' hreply hincr =>
    have hnot : ¬SetsDeadline key ⟨.command via (.incr key'), reply⟩ := by
      rintro ⟨_, _, _, heq⟩
      simp at heq
    obtain ⟨hn, hcounters⟩ := counters_incr hincr
    obtain ⟨count, hcount⟩ := hundated
    by_cases heq : key = key'
    . subst heq
      rw [hcounters, Function.update_self, Option.some.injEq, Counter.mk.injEq] at hcount
      cases hbefore : server.counters key with
      | none =>
        rw [hbefore] at hn
        refine .inr ⟨via, reply, rfl, ?_⟩
        rcases hreply with rfl | rfl
        . rw [hn]
          rfl
        . rfl
      | some counter =>
        rw [hbefore, Option.getD_some] at hcount
        exact .inl ⟨⟨counter.count, by rw [hbefore, ← hcount.2]⟩, hnot⟩
    . rw [hcounters, Function.update_of_ne heq] at hcount
      exact .inl ⟨⟨count, hcount⟩, hnot⟩
  | expire via key' seconds =>
    by_cases heq : key = key'
    . subst heq
      exact absurd hundated (not_undated_expire seconds)
    . obtain ⟨count, hcount⟩ := hundated
      rw [counters_expire seconds heq] at hcount
      refine .inl ⟨⟨count, hcount⟩, ?_⟩
      rintro ⟨_, _, _, hsets⟩
      cases hsets
      exact heq rfl

/--
Nothing but `EXPIRE` gives the number a deadline; `INCR` counts it up beyond 1.
-/
theorem Effect.counters {count : Int} (h : Effect server e server') (hpositive : 0 < count)
    (hcount : server.counters key = some ⟨count, none⟩) (hnot : ¬SetsDeadline key e)
    : (∃ count', count ≤ count' ∧ server'.counters key = some ⟨count', none⟩) ∧
        ∀ via reply, e = ⟨.command via (.incr key), reply⟩ → (counted key reply).isDue = false := by
  cases h with
  | unchanged e hnumber =>
    refine ⟨⟨count, le_refl _, hcount⟩, ?_⟩
    rintro via reply rfl
    unfold counted
    split
    . rfl
    . next reply =>
      split
      . next heq =>
        rw [heq] at hnumber
        exact absurd (hnumber via _ 1 rfl) (by simp [isCount])
      . rfl
  | incr via key' n reply server' hreply hincr =>
    obtain ⟨hn, hcounters⟩ := counters_incr hincr
    by_cases heq : key = key'
    . subst heq
      rw [hcount, Option.getD_some] at hn hcounters
      dsimp only at hn
      refine ⟨⟨n, by omega, by rw [hcounters, Function.update_self]⟩, ?_⟩
      rintro via' reply' hevent
      cases hevent
      rcases hreply with rfl | rfl
      . have hne : n ≠ 1 := by omega
        simp [counted, hne, Debt.isDue]
      . rfl
    . refine ⟨⟨count, le_refl _, by rw [hcounters, Function.update_of_ne heq, hcount]⟩, ?_⟩
      rintro via' reply' hevent
      cases hevent
      exact absurd rfl heq
  | expire via key' seconds =>
    have heq : key ≠ key' := by
      rintro rfl
      exact hnot ⟨via, seconds, _, rfl⟩
    refine ⟨⟨count, le_refl _, by rw [counters_expire seconds heq, hcount]⟩, ?_⟩
    rintro via' reply' hevent
    simp at hevent

end Server

section Runs

variable {key : Bytes} {e : ApiEvent}

theorem key_debtAfter {debt : Debt} (hpermitted : permitted debt e.op = true)
    (hkey : debt.key = some key) (hnot : ¬SetsDeadline key e) : (debtAfter debt e).key = some key := by
  cases debt with
  | free | settled => contradiction
  | missed key' => exact hkey
  | due key' =>
    rw [Debt.key, Option.some.injEq] at hkey
    subst hkey
    obtain ⟨o, r⟩ := e
    cases o with
    | command via cmd =>
      cases cmd with
      | expire key₁ seconds =>
        have heq : key₁ = key' := of_decide_eq_true hpermitted
        subst heq
        change (dated key₁ r).key = some key₁
        unfold dated
        split
        . exact absurd ⟨via, seconds, _, rfl⟩ hnot
        . rfl
      | incr | get | eval | xadd => contradiction
    | add | steadyNow | systemNow | routerMatch | readRule | send => contradiction

theorem debtAfter_incr {debt : Debt} {via : Member} {reply : Option RedisReply}
    (hpermitted : permitted debt (.command via (.incr key)) = true)
    : debtAfter debt ⟨.command via (.incr key), reply⟩ = counted key reply := by
  cases debt with
  | free => rfl
  | due | missed | settled => contradiction

def WritesDates : Label → Prop
  | .env (.write _ (some counter)) => counter.deadline ≠ none
  | _ => True

instance : DecidablePred WritesDates
  | .env (.write _ (some counter)) => inferInstanceAs (Decidable (counter.deadline ≠ none))
  | .env (.write _ none) | .env (.tick _) | .env (.removed _) | .env (.expire _) => isTrue trivial
  | .start _ | .step _ _ => isTrue trivial

def AllPay (s : Requests) : Prop :=
  ∀ t ∈ s.threads, debts.Conforms (fun _ debt => debt.isDue = false) (debt t) t.now

/--
Every number without a deadline is owed by a request.
-/
structure Ledger (s : Requests) : Prop where
  pays : AllPay s
  owed : ∀ key, Undated s.shared key → ∃ (i : Nat) (t : Request), s.threads[i]? = some t ∧ (debt t).key = some key

theorem pays_advance (h : debts.Conforms (fun _ debt => debt.isDue = false) (debt t) t.now)
    (hstep : Threads.advance (answer rules_) server t choice = some (server', t'))
    : ∃ e : ApiEvent, debt t' = debtAfter (debt t) e ∧ permitted (debt t) e.op = true ∧
        Effect server e server' ∧
        debts.Conforms (fun _ debt => debt.isDue = false) (debt t') t'.now := by
  obtain ⟨o, next, r, hnow, hanswer, rfl⟩ := Threads.advance_eq_some hstep
  rw [hnow] at h
  obtain ⟨debt', hdebt', hnext⟩ := h r
  rw [debts, Option.ite_none_right_eq_some, Option.some.injEq] at hdebt'
  have hafter : debt { t with history := t.history ++ [⟨o, r⟩], now := next r } = debt' := by
    rw [← hdebt'.2]
    unfold debt
    rw [List.foldl_append]
    rfl
  refine ⟨⟨o, r⟩, hafter.trans hdebt'.2.symm, hdebt'.1, effect_of_answer hanswer, ?_⟩
  rw [hafter]
  exact hnext

theorem AllPay.step {l : Label} (h : AllPay s) (hl : Timed.step rules_ s l = some s') : AllPay s' := by
  cases l with
  | start raw =>
    rw [Threads.step_start hl]
    intro t ht
    rw [List.mem_append, List.mem_singleton] at ht
    cases ht with
    | inl hold => exact h t hold
    | inr heq =>
      rw [heq]
      exact pays_processApiRequest raw
  | step i choice =>
    obtain ⟨t, shared, t', ht, hadvance, rfl⟩ := Threads.step_step hl
    obtain ⟨_, _, _, _, hpays⟩ := pays_advance (h t (List.mem_of_getElem? ht)) hadvance
    intro t₁ ht₁
    cases List.mem_or_eq_of_mem_set ht₁ with
    | inl hold => exact h t₁ hold
    | inr heq =>
      rw [heq]
      exact hpays
  | env event =>
    unfold AllPay
    rw [Threads.step_env hl]
    exact h

theorem undated_of_outside {event : Outside} (hwrites : WritesDates (.env event))
    (h : outside server event = some server') (hundated : Undated server' key) : Undated server key := by
  obtain ⟨count, hcount⟩ := hundated
  cases event with
  | tick ns =>
    rw [outside, Option.some.injEq] at h
    rw [← h] at hcount
    exact ⟨count, hcount⟩
  | removed key' =>
    rw [outside, FixedWindow.outside] at h
    split at h
    . split at h
      . rw [Option.some.injEq] at h
        rw [← h] at hcount
        by_cases heq : key = key'
        . subst heq
          simp at hcount
        . exact ⟨count, by simpa [heq] using hcount⟩
      . contradiction
    . contradiction
  | expire key' =>
    rw [outside, FixedWindow.outside, Option.some.injEq] at h
    rw [← h] at hcount
    by_cases heq : key = key'
    . subst heq
      exact absurd ⟨count, hcount⟩ (not_undated_expire 2)
    . rw [counters_expire 2 heq] at hcount
      exact ⟨count, hcount⟩
  | write key' counter =>
    rw [outside, Option.some.injEq] at h
    rw [← h] at hcount
    by_cases heq : key = key'
    . subst heq
      simp only [Function.update_self] at hcount
      rw [hcount] at hwrites
      exact absurd rfl hwrites
    . exact ⟨count, by simpa [heq] using hcount⟩

theorem Ledger.step {l : Label} (h : Ledger s) (hwrites : WritesDates l)
    (hl : Timed.step rules_ s l = some s') : Ledger s' := by
  refine ⟨h.pays.step hl, ?_⟩
  intro key hundated
  cases l with
  | start raw =>
    rw [Threads.step_start hl] at hundated ⊢
    obtain ⟨i, t, ht, hkey⟩ := h.owed key hundated
    exact ⟨i, t, by rw [List.getElem?_append_left (List.getElem?_eq_some_iff.mp ht).1, ht], hkey⟩
  | step i choice =>
    obtain ⟨t, shared, t', ht, hadvance, rfl⟩ := Threads.step_step hl
    obtain ⟨e, hdebt, hpermitted, heffect, _⟩ :=
      pays_advance (h.pays t (List.mem_of_getElem? ht)) hadvance
    have hself : (debt t').key = some key →
        ∃ (j : Nat) (t₁ : Request), (s.threads.set i t')[j]? = some t₁ ∧ (debt t₁).key = some key :=
      fun hkey => ⟨i, t', List.getElem?_set_self (List.getElem?_eq_some_iff.mp ht).1, hkey⟩
    rcases heffect.undated hundated with ⟨hbefore, hnot⟩ | ⟨via, reply, rfl, hkey⟩
    . obtain ⟨j, t₁, ht₁, hkey⟩ := h.owed key hbefore
      by_cases heq : i = j
      . subst heq
        rw [ht, Option.some.injEq] at ht₁
        subst ht₁
        apply hself
        rw [hdebt]
        exact key_debtAfter hpermitted hkey hnot
      . exact ⟨j, t₁, by rw [List.getElem?_set_ne heq, ht₁], hkey⟩
    . apply hself
      rw [hdebt, debtAfter_incr hpermitted]
      exact hkey
  | env event =>
    obtain ⟨shared, henv, rfl⟩ := Threads.exists_of_step_env hl
    exact h.owed key (undated_of_outside hwrites henv hundated)

theorem ledger_exec {start : Server} {ls : List Label} (hstart : ∀ key, ¬Undated start key)
    (hwrites : ∀ l ∈ ls, WritesDates l) (h : exec (Timed.step rules_) ⟨start, []⟩ ls = some s)
    : Ledger s := by
  apply exec_invariant_of_meets (Timed.step rules_) (fun _ l => WritesDates l) (P := Ledger) _ _
    (meets_of_forall_mem (Timed.step rules_) hwrites) h
  . intro s l s' hs hl hstep
    exact hs.step hl hstep
  . refine ⟨fun t ht => absurd ht List.not_mem_nil, ?_⟩
    intro key hundated
    exact absurd hundated (hstart key)

/--
Other clients leave the number alone, and Redis does not execute an `EXPIRE` later on.
-/
def LeavesAlone (key : Bytes) : Label → Prop
  | .env (.write key' _) | .env (.expire key') => key ≠ key'
  | _ => True

instance (key : Bytes) : DecidablePred (LeavesAlone key)
  | .env (.write key' _) | .env (.expire key') => inferInstanceAs (Decidable (key ≠ key'))
  | .env (.tick _) | .env (.removed _) | .start _ | .step _ _ => isTrue trivial

/--
The number has no deadline, and no request is about to set it.
-/
structure Left (count : Int) (key : Bytes) (s : Requests) : Prop where
  pays : AllPay s
  number : ∃ count', count ≤ count' ∧ s.shared.counters key = some ⟨count', none⟩
  nobody : ∀ t ∈ s.threads, debt t ≠ .due key

theorem due_of_setsDeadline {debt : Debt} (hpermitted : permitted debt e.op = true)
    (h : SetsDeadline key e) : debt = .due key := by
  obtain ⟨via, seconds, n, rfl⟩ := h
  cases debt with
  | due key' => rw [of_decide_eq_true hpermitted]
  | free | missed | settled => contradiction

theorem due_or_counted {debt : Debt} (h : debtAfter debt e = .due key)
    : debt = .due key ∨ ∃ via reply, e = ⟨.command via (.incr key), reply⟩ ∧
        (counted key reply).isDue = true := by
  cases debt with
  | missed | settled => contradiction
  | due key' =>
    obtain ⟨o, r⟩ := e
    cases o with
    | command via cmd =>
      cases cmd with
      | expire key₁ seconds =>
        have hdue := isDue_dated key' r
        rw [show dated key' r = .due key from h] at hdue
        contradiction
      | incr | get | eval | xadd => exact .inl h
    | add | steadyNow | systemNow | routerMatch | readRule | send => exact .inl h
  | free =>
    obtain ⟨o, r⟩ := e
    cases o with
    | command via cmd =>
      cases cmd with
      | incr key' =>
        change counted key' r = .due key at h
        have heq : key' = key := by
          unfold counted at h
          split at h
          . contradiction
          . split at h
            . exact Debt.due.inj h
            . contradiction
        subst heq
        exact .inr ⟨via, r, rfl, by rw [h]; rfl⟩
      | get | eval | expire | xadd => contradiction
    | add | steadyNow | systemNow | routerMatch | readRule | send => contradiction

theorem counters_of_outside {count : Int} {event : Outside} (halone : LeavesAlone key (.env event))
    (hcount : server.counters key = some ⟨count, none⟩) (h : outside server event = some server')
    : server'.counters key = some ⟨count, none⟩ := by
  cases event with
  | tick ns =>
    rw [outside, Option.some.injEq] at h
    rw [← h]
    exact hcount
  | removed key' =>
    rw [outside, FixedWindow.outside] at h
    split at h
    . next n deadline hdeadline =>
      have hne : key ≠ key' := by
        rintro rfl
        rw [hcount] at hdeadline
        simp at hdeadline
      split at h
      . rw [Option.some.injEq] at h
        rw [← h]
        simpa [hne] using hcount
      . contradiction
    . contradiction
  | expire key' =>
    rw [outside, FixedWindow.outside, Option.some.injEq] at h
    rw [← h, counters_expire 2 halone, hcount]
  | write key' counter =>
    have hne : key ≠ key' := halone
    rw [outside, Option.some.injEq] at h
    rw [← h]
    simpa [hne] using hcount

theorem Left.step {l : Label} {count : Int} (hpositive : 0 < count) (h : Left count key s)
    (halone : LeavesAlone key l) (hl : Timed.step rules_ s l = some s') : Left count key s' := by
  have hpays := h.pays.step hl
  obtain ⟨count', hle, hcount⟩ := h.number
  cases l with
  | start raw =>
    rw [Threads.step_start hl] at hpays ⊢
    refine ⟨hpays, h.number, ?_⟩
    intro t ht
    rw [List.mem_append, List.mem_singleton] at ht
    cases ht with
    | inl hold => exact h.nobody t hold
    | inr heq =>
      rw [heq]
      simp [debt]
  | step i choice =>
    obtain ⟨t, shared, t', ht, hadvance, rfl⟩ := Threads.step_step hl
    have hmem := List.mem_of_getElem? ht
    obtain ⟨e, hdebt, hpermitted, heffect, _⟩ := pays_advance (h.pays t hmem) hadvance
    have hnot : ¬SetsDeadline key e := fun hsets =>
      h.nobody t hmem (due_of_setsDeadline hpermitted hsets)
    obtain ⟨⟨count₁, hle₁, hcount₁⟩, hincr⟩ := heffect.counters (by omega) hcount hnot
    refine ⟨hpays, ⟨count₁, hle.trans hle₁, hcount₁⟩, ?_⟩
    intro t₁ ht₁
    cases List.mem_or_eq_of_mem_set ht₁ with
    | inl hold => exact h.nobody t₁ hold
    | inr heq =>
      rw [heq, hdebt]
      intro hdue
      rcases due_or_counted hdue with hbefore | ⟨via, reply, rfl, hreply⟩
      . exact h.nobody t hmem hbefore
      . rw [hincr via reply rfl] at hreply
        contradiction
  | env event =>
    obtain ⟨shared, henv, rfl⟩ := Threads.exists_of_step_env hl
    exact ⟨hpays, ⟨count', hle, counters_of_outside halone hcount henv⟩, h.nobody⟩

def Unnumbered (e : ApiEvent) : Prop :=
  isCount e.op = true ∧ ∀ via cmd n, e ≠ ⟨.command via cmd, some (.integer n)⟩

theorem missed_or_unnumbered {debt : Debt} (h : debtAfter debt e = .missed key)
    : debt = .missed key ∨ Unnumbered e := by
  cases debt with
  | missed key' => exact .inl h
  | settled => contradiction
  | free =>
    obtain ⟨o, r⟩ := e
    cases o with
    | command via cmd =>
      cases cmd with
      | incr key' =>
        refine .inr ⟨rfl, ?_⟩
        rintro via cmd n heq
        cases heq
        change counted key' (some (.integer n)) = .missed key at h
        rw [counted] at h
        split at h <;> contradiction
      | get | eval | expire | xadd => contradiction
    | add | steadyNow | systemNow | routerMatch | readRule | send => contradiction
  | due key' =>
    obtain ⟨o, r⟩ := e
    cases o with
    | command via cmd =>
      cases cmd with
      | expire key₁ seconds =>
        refine .inr ⟨rfl, ?_⟩
        rintro via cmd n heq
        cases heq
        contradiction
      | get | eval | incr | xadd => contradiction
    | add | steadyNow | systemNow | routerMatch | readRule | send => contradiction

theorem unnumbered_of_missed {h : List ApiEvent} (hmissed : h.foldl debtAfter .free = .missed key)
    : ∃ e ∈ h, Unnumbered e := by
  induction h using List.reverseRecOn with
  | nil => contradiction
  | append_singleton h e ih =>
    rw [List.foldl_append, List.foldl_cons, List.foldl_nil] at hmissed
    rcases missed_or_unnumbered hmissed with hbefore | hnumber
    . obtain ⟨e', he', hnumber⟩ := ih hbefore
      exact ⟨e', List.mem_append_left _ he', hnumber⟩
    . exact ⟨e, List.mem_append_right _ (List.mem_singleton_self e), hnumber⟩

theorem key_of_finished {a : Except StdException Unit} (h : Ledger s) (ht : t ∈ s.threads)
    (hnow : t.now = .ret a) (hkey : (debt t).key = some key) : debt t = .missed key := by
  have hpays := h.pays t ht
  rw [hnow] at hpays
  change (debt t).isDue = false at hpays
  cases hdebt : debt t with
  | free | settled =>
    rw [hdebt] at hkey
    contradiction
  | due key' =>
    rw [hdebt] at hpays
    contradiction
  | missed key' =>
    rw [hdebt, Debt.key, Option.some.injEq] at hkey
    rw [hkey]

end Runs

section Main

variable {key : Bytes}

/--
If no number is without a deadline at the start and no other client writes such a one, there are no more
of them than requests that owe a deadline, and those that are through owe it because a reply was missed.
-/
theorem undated_le_owed {start : Server} {ls : List Label} (hstart : ∀ key, ¬Undated start key)
    (hwrites : ∀ l ∈ ls, WritesDates l) (h : exec (step rules_) ⟨start, []⟩ ls = some s)
    {keys : List Bytes} (hnodup : keys.Nodup) (hkeys : ∀ key ∈ keys, Undated s.shared key)
    : keys.length ≤ s.threads.countP (fun t => (debt t).key.isSome) ∧
        ∀ t ∈ s.threads, Threads.Finished t → (debt t).key.isSome → ∃ e ∈ t.history, Unnumbered e := by
  have hledger := ledger_exec hstart hwrites h
  constructor
  . have hsub : keys ⊆ s.threads.filterMap fun t => (debt t).key := by
      intro key hkey
      obtain ⟨i, t, ht, howes⟩ := hledger.owed key (hkeys key hkey)
      exact List.mem_filterMap.mpr ⟨t, List.mem_of_getElem? ht, howes⟩
    have hlength := (hnodup.subperm hsub).length_le
    rwa [List.length_filterMap_eq_countP] at hlength
  . rintro t ht ⟨a, hnow⟩ hsome
    obtain ⟨key, hkey⟩ := Option.isSome_iff_exists.mp hsome
    exact unnumbered_of_missed (key_of_finished hledger ht hnow hkey)

/--
A number whose deadline was missed gets none any more, unless an `EXPIRE` that was sent before is executed
later or another client touches the key: whatever requests come, it stays in Redis and is counted on.
-/
theorem stays_undated {start : Server} {ls ls' : List Label}
    (h : exec (step rules_) ⟨start, []⟩ ls = some s) {count : Int} (hpositive : 0 < count)
    (hcount : s.shared.counters key = some ⟨count, none⟩) (hnobody : ∀ t ∈ s.threads, debt t ≠ .due key)
    (halone : ∀ l ∈ ls', LeavesAlone key l) (h' : exec (step rules_) s ls' = some s')
    : ∃ count', count ≤ count' ∧ s'.shared.counters key = some ⟨count', none⟩ := by
  have hpays : AllPay s := by
    apply exec_invariant (step rules_) (P := AllPay) (fun s l s' hs hl => hs.step hl) _ h
    exact fun t ht => absurd ht List.not_mem_nil
  have hleft : Left count key s := ⟨hpays, ⟨count, le_refl _, hcount⟩, hnobody⟩
  have hleft' : Left count key s' := by
    apply exec_invariant_of_meets (step rules_) (fun _ l => LeavesAlone key l) (P := Left count key) _
      hleft (meets_of_forall_mem (step rules_) halone) h'
    intro s l s' hs hl hstep
    exact hs.step hpositive hl hstep
  exact hleft'.number

end Main

section Witness

/--
The number 1 comes back, but the connection is lost before the deadline is set.
-/
def deadlineMissed : List Label := untilCount 0 ++ [.step 0 .go, .step 0 (.redis none)] ++ logged 0

def keyOfSecondFive : Bytes := counterKey (Bytes.ofAscii "/") 5

theorem undated_le_owed_missed
    : ∃ s, exec (step limitedRoot) ⟨atSecondFive, []⟩ deadlineMissed = some s ∧
        [keyOfSecondFive].length ≤ s.threads.countP fun t => (debt t).key.isSome := by
  have hend := Option.eq_some_of_isSome
    (o := exec (step limitedRoot) ⟨atSecondFive, []⟩ deadlineMissed) (by decide +kernel)
  have hstart : ∀ key, ¬Undated atSecondFive key := by
    rintro key ⟨count, hcount⟩
    contradiction
  refine ⟨_, hend, ?_⟩
  have howed := undated_le_owed hstart (by decide +kernel) hend (List.nodup_singleton keyOfSecondFive)
    (fun key hkey => ⟨1, by rw [List.mem_singleton.mp hkey]; decide +kernel⟩)
  exact howed.1

def minuteLater : List Label := untilCount 1 ++ [.env (.tick 60000000000), .step 1 .go]

theorem stays_undated_missed
    : ∃ s s', exec (step limitedRoot) ⟨atSecondFive, []⟩ deadlineMissed = some s ∧
        exec (step limitedRoot) s minuteLater = some s' ∧
        ∃ count, 1 ≤ count ∧ s'.shared.counters keyOfSecondFive = some ⟨count, none⟩ := by
  have hmissed := Option.eq_some_of_isSome
    (o := exec (step limitedRoot) ⟨atSecondFive, []⟩ deadlineMissed) (by decide +kernel)
  have hlater := Option.eq_some_of_isSome
    (o := exec (step limitedRoot) ((exec (step limitedRoot) ⟨atSecondFive, []⟩ deadlineMissed).get
      (by decide +kernel)) minuteLater) (by decide +kernel)
  refine ⟨_, _, hmissed, hlater, ?_⟩
  exact stays_undated hmissed (by decide) (by decide +kernel) (by decide +kernel) (by decide +kernel) hlater

end Witness

end Timed
end Gateway
end LFGateway
