import LFGateway.Foundation.ListSet
import LFGateway.RateLimit.Impl.FixedWindow

/-!
This module contains the proof that the limiter of one second is exact: the counts that the calls get
are 1, 2, 3 and so on, because the key cannot be removed before the last call of its second has counted.
-/

namespace LFGateway

open Foundation

namespace FixedWindow

variable {keyPrefix : Bytes} {max : Int} {second : Nat}
variable {s s' : Calls} {server server' : Server} {call : Call}

def counts (history : List ApiEvent) : List Int :=
  history.filterMap fun
    | ⟨.command _ (.incr _), some (.integer n)⟩ => some n
    | _ => none

def counted (max : Int) (key : Bytes) (count : Int) : ApiProg Bool :=
  if count = 1 then
    .op (.command .rateLimiter_ (.expire key 2)) fun _ => .ret (decide (count ≤ max))
  else
    .ret (decide (count ≤ max))

theorem isAllowed_eq (hmax : 1 ≤ max)
    : RateLimitPlugin.isAllowed keyPrefix max
        =
      .op .systemNow fun now =>
        let key := (keyPrefix ++ Bytes.ofAscii ":" ++ Bytes.ofInt (now.tdiv 1000000000)).cStr
        .op (.command .rateLimiter_ (.incr key)) fun reply =>
          counted max key (RedisClient.countOf reply) := by
  have hpos : ¬max ≤ 0 := by omega
  unfold RateLimitPlugin.isAllowed
  rw [if_neg hpos]
  apply congrArg (Prog.op ApiOp.systemNow)
  funext now
  apply congrArg (Prog.op _)
  funext reply
  change (if RedisClient.countOf reply = 1 then _ else _) = _
  unfold counted
  by_cases hone : RedisClient.countOf reply = 1
  . rw [if_pos hone, if_pos hone]
    rfl
  . rw [if_neg hone, if_neg hone]
    rfl

inductive Stage (max : Int) (keyPrefix : Bytes) (second clock : Nat) : Call → Prop where
  | called : Stage max keyPrefix second clock ⟨(), [], RateLimitPlugin.isAllowed keyPrefix max⟩
  | read (ns : Nat) (hsecond : ns / 1000000000 = second) (hpast : ns ≤ clock)
      : Stage max keyPrefix second clock
          ⟨(), [⟨.systemNow, (ns : Int)⟩],
            .op (.command .rateLimiter_ (.incr (secondKey keyPrefix second))) fun reply =>
              counted max (secondKey keyPrefix second) (RedisClient.countOf reply)⟩
  | first (history : List ApiEvent) (hcounts : counts history = [1])
      : Stage max keyPrefix second clock ⟨(), history, counted max (secondKey keyPrefix second) 1⟩
  | returned (history : List ApiEvent) (count : Int) (hcounts : counts history = [count])
      : Stage max keyPrefix second clock ⟨(), history, .ret (decide (count ≤ max))⟩

theorem Stage.mono {clock clock' : Nat} (h : Stage max keyPrefix second clock call)
    (hle : clock ≤ clock') : Stage max keyPrefix second clock' call := by
  cases h with
  | called => exact .called
  | read ns hsecond hpast => exact .read ns hsecond (hpast.trans hle)
  | first history hcounts => exact .first history hcounts
  | returned history count hcounts => exact .returned history count hcounts

/--
The key after `m` calls have counted. Its deadline is two seconds behind the beginning of the
second, at the earliest.
-/
inductive KeyCounts (key : Bytes) (second m : Nat) (server : Server) : Prop where
  | missing (hm : m = 0) (hkey : server.counters key = none)
  | counting (deadline : Option Nat) (hkey : server.counters key = some ⟨m, deadline⟩)
      (hstart : 1000000000 * second ≤ server.clock)
      (hdeadline : ∀ d, deadline = some d → second * 1000 + 2000 ≤ d)
  | past (hclock : 1000000000 * (second + 2) ≤ server.clock)

def firstCounts (m : Nat) : List Int := (List.range m).map fun i : Nat => (i : Int) + 1

structure Exact (keyPrefix : Bytes) (max : Int) (second m : Nat) (s : Calls) : Prop where
  stages : ∀ call ∈ s.threads, Stage max keyPrefix second s.shared.clock call
  perm : (s.threads.flatMap fun call => counts call.history).Perm (firstCounts m)
  key : KeyCounts (secondKey keyPrefix second) second m s.shared

section Server

variable {key : Bytes} {m : Nat}

theorem Server.expire_none (seconds : Int) (h : server.counters key = none)
    : server.expire key seconds = (0, server) := by
  unfold Server.expire
  rw [h]

theorem Server.expire_some {counter : Counter} (seconds : Int) (h : server.counters key = some counter)
    : server.expire key seconds
        =
      (1, ⟨server.clock, Function.update server.counters key
        (some ⟨counter.count, some (server.milliseconds + 1000 * seconds.toNat)⟩)⟩) := by
  unfold Server.expire
  rw [h]

@[simp]
theorem Server.expire_clock (server : Server) (key : Bytes) (seconds : Int)
    : (server.expire key seconds).2.clock = server.clock := by
  unfold Server.expire
  split <;> rfl

theorem KeyCounts.incr {count : Int} (h : KeyCounts key second m server)
    (hstart : 1000000000 * second ≤ server.clock) (hend : server.clock < 1000000000 * (second + 2))
    (hincr : server.incr key = some (count, server'))
    : count = (m : Int) + 1 ∧ server'.clock = server.clock ∧ KeyCounts key second (m + 1) server' := by
  unfold Server.incr at hincr
  dsimp only at hincr
  split at hincr
  . rw [Option.some.injEq, Prod.mk.injEq] at hincr
    obtain ⟨rfl, rfl⟩ := hincr
    cases h with
    | missing hm hkey =>
      rw [hkey, hm]
      exact ⟨rfl, rfl, .counting none (Function.update_self ..) hstart (by simp)⟩
    | counting deadline hkey _ hdeadline =>
      rw [hkey]
      exact ⟨rfl, rfl, .counting deadline (Function.update_self ..) hstart hdeadline⟩
    | past hclock => exact absurd hend (not_lt.mpr hclock)
  . contradiction

theorem KeyCounts.expire (h : KeyCounts key second m server)
    : KeyCounts key second m (server.expire key 2).2 := by
  cases h with
  | missing hm hkey =>
    rw [Server.expire_none 2 hkey]
    exact .missing hm hkey
  | counting deadline hkey hstart hdeadline =>
    rw [Server.expire_some 2 hkey]
    refine KeyCounts.counting _ (Function.update_self ..) hstart ?_
    rintro d ⟨⟩
    have hnow : second * 1000 ≤ server.milliseconds := by
      unfold Server.milliseconds
      omega
    exact Nat.add_le_add_right hnow 2000
  | past hclock =>
    apply KeyCounts.past
    rwa [Server.expire_clock]

theorem KeyCounts.tick (h : KeyCounts key second m server) (ns : Nat)
    : KeyCounts key second m { server with clock := server.clock + ns } := by
  cases h with
  | missing hm hkey => exact .missing hm hkey
  | counting deadline hkey hstart hdeadline =>
    exact .counting deadline hkey (hstart.trans (Nat.le_add_right _ _)) hdeadline
  | past hclock => exact .past (hclock.trans (Nat.le_add_right _ _))

theorem KeyCounts.write {key' : Bytes} (h : KeyCounts key second m server) (hne : key' ≠ key)
    (counter : Option Counter)
    : KeyCounts key second m { server with counters := Function.update server.counters key' counter } := by
  have hkept : Function.update server.counters key' counter key = server.counters key :=
    Function.update_of_ne hne.symm _ _
  cases h with
  | missing hm hkey => exact .missing hm (hkept.trans hkey)
  | counting deadline hkey hstart hdeadline =>
    exact .counting deadline (hkept.trans hkey) hstart hdeadline
  | past hclock => exact .past hclock

theorem KeyCounts.removed {count : Int} {deadline : Nat} (h : KeyCounts key second m server)
    (hkey : server.counters key = some ⟨count, some deadline⟩) (hpast : deadline ≤ server.milliseconds)
    : 1000000000 * (second + 2) ≤ server.clock := by
  unfold Server.milliseconds at hpast
  cases h with
  | missing _ hmissing =>
    rw [hmissing] at hkey
    contradiction
  | counting _ hcounting _ hdeadline =>
    rw [hcounting, Option.some.injEq, Counter.mk.injEq] at hkey
    have hle := hdeadline deadline hkey.2
    omega
  | past hclock => exact hclock

theorem KeyCounts.outside {e : Outside} (h : KeyCounts key second m server)
    (he : outside key server e = some server')
    : server.clock ≤ server'.clock ∧ KeyCounts key second m server' := by
  unfold FixedWindow.outside at he
  cases e with
  | tick ns =>
    rw [Option.some.injEq] at he
    rw [← he]
    exact ⟨Nat.le_add_right _ _, h.tick ns⟩
  | removed =>
    dsimp only at he
    split at he
    . next count deadline hkey =>
      split at he
      . next hpast =>
        rw [Option.some.injEq] at he
        rw [← he]
        exact ⟨le_refl _, .past (h.removed hkey hpast)⟩
      . contradiction
    . contradiction
  | expire =>
    rw [Option.some.injEq] at he
    rw [← he]
    exact ⟨(Server.expire_clock ..).ge, h.expire⟩
  | write key' counter =>
    dsimp only at he
    split at he
    . contradiction
    . next hne =>
      rw [Option.some.injEq] at he
      rw [← he]
      exact ⟨le_refl _, h.write hne counter⟩

end Server

section Call

variable {call' : Call} {choice : Choice} {m : Nat}

theorem answer_systemNow {now : Int} (h : answer server .systemNow choice = some (now, server'))
    : now = server.clock ∧ server' = server := by
  cases choice with
  | go =>
    simp only [answer, Option.some.injEq, Prod.mk.injEq] at h
    exact ⟨h.1.symm, h.2.symm⟩
  | lost => simp [answer] at h

theorem answer_incr {via : Member} {key : Bytes} {reply : Option RedisReply}
    (h : answer server (.command via (.incr key)) choice = some (reply, server'))
    : ∃ count, reply = some (.integer count) ∧ server.incr key = some (count, server') := by
  cases choice with
  | go =>
    simp only [answer] at h
    split at h
    . next count server'' hincr =>
      simp only [Option.some.injEq, Prod.mk.injEq] at h
      obtain ⟨rfl, rfl⟩ := h
      exact ⟨count, rfl, hincr⟩
    . contradiction
  | lost => simp [answer] at h

theorem answer_expire {via : Member} {key : Bytes} {seconds : Int} {reply : Option RedisReply}
    (h : answer server (.command via (.expire key seconds)) choice = some (reply, server'))
    : server' = (server.expire key seconds).2 ∨ server' = server := by
  cases choice with
  | go =>
    simp only [answer, Option.some.injEq, Prod.mk.injEq] at h
    exact .inl h.2.symm
  | lost =>
    simp only [answer, Option.some.injEq, Prod.mk.injEq] at h
    exact .inr h.2.symm

inductive Counted (key : Bytes) (second m : Nat) (call call' : Call) (server : Server) : Prop where
  | same (hcounts : counts call'.history = counts call.history) (hkey : KeyCounts key second m server)
  | next (hbefore : counts call.history = []) (hcounts : counts call'.history = [(m : Int) + 1])
      (hkey : KeyCounts key second (m + 1) server)

theorem counts_append (history history' : List ApiEvent)
    : counts (history ++ history') = counts history ++ counts history' :=
  List.filterMap_append

theorem Stage.advance_called {now : Int}
    (hsecond : server.clock / 1000000000 = second) (hnow : now = server.clock)
    : Stage max keyPrefix second server.clock
        ⟨(), [] ++ [⟨.systemNow, now⟩],
          .op (.command .rateLimiter_
              (.incr (keyPrefix ++ Bytes.ofAscii ":" ++ Bytes.ofInt (now.tdiv 1000000000)).cStr)) fun reply =>
            counted max (keyPrefix ++ Bytes.ofAscii ":" ++ Bytes.ofInt (now.tdiv 1000000000)).cStr
              (RedisClient.countOf reply)⟩ := by
  have hdiv : now.tdiv 1000000000 = (second : Int) := by
    rw [hnow, ← hsecond]
    exact (Int.ofNat_tdiv server.clock 1000000000).symm
  rw [hdiv, hnow]
  exact .read server.clock hsecond (le_refl _)

theorem Stage.counted {clock : Nat} {history : List ApiEvent} {count : Int}
    (hcounts : counts history = [count])
    : Stage max keyPrefix second clock
        ⟨(), history, FixedWindow.counted max (secondKey keyPrefix second) count⟩ := by
  by_cases hone : count = 1
  . rw [hone] at hcounts ⊢
    exact .first history hcounts
  . rw [FixedWindow.counted, if_neg hone]
    exact .returned history count hcounts

theorem Stage.advance (hmax : 1 ≤ max) (h : Stage max keyPrefix second server.clock call)
    (hkey : KeyCounts (secondKey keyPrefix second) second m server)
    (htime : CallInTime second server.clock call)
    (hstep : Threads.advance answer server call choice = some (server', call'))
    : server'.clock = server.clock ∧ Stage max keyPrefix second server.clock call' ∧
        Counted (secondKey keyPrefix second) second m call call' server' := by
  obtain ⟨o, next, reply, hnow, hanswer, rfl⟩ := Threads.advance_eq_some hstep
  cases h with
  | called =>
    rw [isAllowed_eq hmax] at hnow
    cases hnow
    have hsecond : server.clock / 1000000000 = second := by
      rw [isAllowed_eq hmax] at htime
      exact htime
    obtain ⟨hreply, rfl⟩ := answer_systemNow hanswer
    exact ⟨rfl, .advance_called hsecond hreply, .same rfl hkey⟩
  | read ns hsecond hpast =>
    cases hnow
    obtain ⟨count, rfl, hincr⟩ := answer_incr hanswer
    have hend : (server.clock : Int) < ns + 1000000000 := htime ns (by simp [readings])
    obtain ⟨rfl, hclock, hkey⟩ := hkey.incr (by omega) (by omega) hincr
    exact ⟨hclock, .counted rfl, .next rfl rfl hkey⟩
  | first history hcounts =>
    rw [FixedWindow.counted, if_pos rfl] at hnow
    cases hnow
    have hsame : counts (history ++ [⟨_, reply⟩]) = counts history := by
      rw [counts_append]
      exact List.append_nil _
    refine ⟨?_, .returned _ 1 (hsame.trans hcounts), ?_⟩
    . cases answer_expire hanswer with
      | inl hexpired => rw [hexpired, Server.expire_clock]
      | inr hlost => rw [hlost]
    . apply Counted.same hsame
      cases answer_expire hanswer with
      | inl hexpired =>
        rw [hexpired]
        exact hkey.expire
      | inr hlost => rwa [hlost]
  | returned history count hcounts => contradiction

end Call

theorem firstCounts_succ (m : Nat) : firstCounts (m + 1) = firstCounts m ++ [(m : Int) + 1] := by
  unfold firstCounts
  rw [List.range_succ, List.map_append]
  rfl

theorem Exact.step {m : Nat} {l : Label} (hmax : 1 ≤ max) (h : Exact keyPrefix max second m s)
    (htime : InTime second s l) (hl : FixedWindow.step keyPrefix max second s l = some s')
    : ∃ m', Exact keyPrefix max second m' s' := by
  cases l with
  | start input =>
    rw [Threads.step_start hl]
    refine ⟨m, ?_, ?_, h.key⟩
    . intro call hcall
      rw [List.mem_append, List.mem_singleton] at hcall
      cases hcall with
      | inl hold => exact h.stages call hold
      | inr hnew =>
        rw [hnew]
        exact .called
    . have hnone (now : ApiProg Bool)
          : (([⟨input, [], now⟩] : List Call).flatMap fun call => counts call.history) = [] := rfl
      rw [List.flatMap_append, hnone, List.append_nil]
      exact h.perm
  | step i choice =>
    obtain ⟨call, shared, call', hcall, hadvance, rfl⟩ := Threads.step_step hl
    obtain ⟨hclock, hstage, hcounted⟩ :=
      (h.stages call (List.mem_of_getElem? hcall)).advance hmax h.key (htime call hcall) hadvance
    have hstages : ∀ call₁ ∈ s.threads.set i call', Stage max keyPrefix second shared.clock call₁ := by
      intro call₁ hcall₁
      rw [hclock]
      cases List.mem_or_eq_of_mem_set hcall₁ with
      | inl hold => exact h.stages call₁ hold
      | inr hnew => rwa [hnew]
    cases hcounted with
    | same hcounts hkey =>
      refine ⟨m, hstages, ?_, hkey⟩
      dsimp only
      rw [flatMap_set_of_eq (fun call => counts call.history) hcall hcounts]
      exact h.perm
    | next hbefore hcounts hkey =>
      refine ⟨m + 1, hstages, ?_, hkey⟩
      have hperm := flatMap_set_perm (fun call => counts call.history) hcall (b := call')
      rw [hbefore, hcounts, List.append_nil] at hperm
      rw [firstCounts_succ]
      exact hperm.trans (h.perm.append_right _)
  | env e =>
    obtain ⟨shared, he, rfl⟩ := Threads.exists_of_step_env hl
    obtain ⟨hclock, hkey⟩ := h.key.outside he
    exact ⟨m, fun call hcall => (h.stages call hcall).mono hclock, h.perm, hkey⟩

theorem Stage.returned_of_finished {clock : Nat} (hmax : 1 ≤ max)
    (h : Stage max keyPrefix second clock call) (hfinished : Threads.Finished call)
    : ∃ count, counts call.history = [count] ∧ call.now = .ret (decide (count ≤ max)) := by
  obtain ⟨a, ha⟩ := hfinished
  cases h with
  | called =>
    rw [isAllowed_eq hmax] at ha
    contradiction
  | read ns hsecond hpast => contradiction
  | first history hcounts =>
    rw [FixedWindow.counted, if_pos rfl] at ha
    contradiction
  | returned history count hcounts => exact ⟨count, hcounts, rfl⟩

theorem countP_allowed {calls : List Call}
    (h : ∀ call ∈ calls, ∃ count, counts call.history = [count] ∧ call.now = .ret (decide (count ≤ max)))
    : calls.countP (Allowed ·)
        =
      (calls.flatMap fun call => counts call.history).countP (· ≤ max) ∧
      calls.length = (calls.flatMap fun call => counts call.history).length := by
  induction calls with
  | nil => exact ⟨rfl, rfl⟩
  | cons call calls ih =>
    obtain ⟨hcountP, hlength⟩ := ih fun call hcall => h call (List.mem_cons_of_mem _ hcall)
    obtain ⟨count, hcounts, hnow⟩ := h call List.mem_cons_self
    have hallowed : Allowed call ↔ count ≤ max := by
      unfold Allowed
      rw [hnow, Prog.ret.injEq, decide_eq_true_eq]
    rw [List.flatMap_cons, hcounts, List.countP_cons, hcountP, List.singleton_append, List.countP_cons,
      List.length_cons, List.length_cons, hlength]
    simp only [hallowed]
    exact ⟨trivial, trivial⟩

theorem countP_firstCounts (m : Nat) (hmax : 0 ≤ max)
    : ((firstCounts m).countP (· ≤ max) : Int) = min (m : Int) max := by
  induction m with
  | zero => simp [firstCounts, hmax]
  | succ m ih =>
    rw [firstCounts_succ, List.countP_append, List.countP_singleton]
    split
    . next hle =>
      rw [decide_eq_true_eq] at hle
      omega
    . next hlt =>
      rw [decide_eq_true_eq] at hlt
      omega

/--
However the steps of the calls of one second interleave, the limiter lets pass exactly as many of them
as it may. The key of the second is missing before its first call.
-/
theorem countP_allowed_eq_min {start : Server} {ls : List Label} (hmax : 1 ≤ max)
    (hmissing : start.counters (secondKey keyPrefix second) = none)
    (htime : Meets (step keyPrefix max second) (InTime second) ⟨start, []⟩ ls)
    (hexec : exec (step keyPrefix max second) ⟨start, []⟩ ls = some s)
    (hfinished : ∀ call ∈ s.threads, Threads.Finished call)
    : (s.threads.countP (Allowed ·) : Int) = min (s.threads.length : Int) max := by
  have hstart : Exact keyPrefix max second 0 ⟨start, []⟩ := ⟨by simp, .refl _, .missing rfl hmissing⟩
  obtain ⟨m, hexact⟩ := exec_invariant_of_meets (step keyPrefix max second) (InTime second)
    (P := fun s => ∃ m, Exact keyPrefix max second m s)
    (fun s l s' ⟨m, hs⟩ htime hl => hs.step hmax htime hl) ⟨0, hstart⟩ htime hexec
  have hreturned : ∀ call ∈ s.threads, ∃ count, counts call.history = [count] ∧
      call.now = .ret (decide (count ≤ max)) := fun call hcall =>
    (hexact.stages call hcall).returned_of_finished hmax (hfinished call hcall)
  obtain ⟨hcountP, hlength⟩ := countP_allowed hreturned
  rw [hcountP, hlength, hexact.perm.countP_eq, hexact.perm.length_eq, countP_firstCounts m (by omega)]
  simp [firstCounts]

/--
Two calls of the sixth second. The second one counts before the key has a deadline.
-/
def twoCalls : List Label :=
  [.env (.tick 5900000000), .start (), .start (), .step 0 .go, .step 0 .go, .env (.tick 50000000),
    .step 1 .go, .env (.tick 900000000), .step 1 .go, .env (.tick 2000000000), .step 0 .go]

theorem countP_allowed_eq_min_twoCalls
    : ∃ s, exec (step (Bytes.ofAscii "rate:/") 1 5) ⟨⟨0, fun _ => none⟩, []⟩ twoCalls = some s ∧
        s.threads.length = 2 ∧ (s.threads.countP (Allowed ·) : Int) = min 2 1 := by
  have hend := Option.eq_some_of_isSome
    (o := exec (step (Bytes.ofAscii "rate:/") 1 5) ⟨⟨0, fun _ => none⟩, []⟩ twoCalls) (by decide +kernel)
  exact ⟨_, hend, by decide +kernel,
    countP_allowed_eq_min (by decide) rfl (by decide +kernel) hend (by decide +kernel)⟩

end FixedWindow
end LFGateway
