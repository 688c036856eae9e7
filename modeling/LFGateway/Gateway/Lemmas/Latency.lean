import Mathlib.Algebra.BigOperators.Group.List.Basic
import Mathlib.Algebra.Group.Prod
import Mathlib.Algebra.Order.BigOperators.Group.List
import Mathlib.Tactic.Linarith
import Mathlib.Tactic.FieldSimp
import LFGateway.Foundation.ListSet
import LFGateway.Gateway.Impl.Statistics
import LFGateway.Gateway.Lemmas.Api
import LFGateway.Gateway.Lemmas.Sends

/-!
This module contains what the average latency of the gateway is the average of: every call counts as a
request, but only those that are answered 200 record a latency.
-/

namespace LFGateway

open Foundation

def ApiOp.adds (stat : Stat) : ApiOp → Bool
  | .add stat' _ => stat' = stat
  | _ => false

def ApiOp.accepts : ApiOp → Bool
  | .send text => statusOf text = Bytes.ofNat 200
  | _ => false

namespace Gateway
namespace Statistics

variable {α β : Type} {h h' : List ApiEvent} {p : ApiProg α}

def tally (h : List ApiEvent) : Nat × Nat × Nat :=
  (h.countP fun e => e.op.adds .totalRequests_, h.countP fun e => e.op.adds .totalLatencyUs_,
    h.countP fun e => e.op.accepts)

def mark (o : ApiOp) : Nat × Nat × Nat :=
  ((o.adds .totalRequests_).toNat, (o.adds .totalLatencyUs_).toNat, o.accepts.toNat)

theorem tally_singleton (e : ApiEvent) : tally [e] = mark e.op := by
  have htoNat : ∀ b : Bool, (if b = true then 1 else 0) = b.toNat := by decide
  simp only [tally, mark, List.countP_singleton, htoNat]

theorem tally_append : tally (h ++ h') = tally h + tally h' := by
  simp only [tally, List.countP_append, Prod.mk_add_mk]

theorem tally_cons (e : ApiEvent) : tally (e :: h) = mark e.op + tally h := by
  rw [← List.singleton_append, tally_append, tally_singleton]

def Quiet (p : ApiProg α) : Prop := ∀ h a, Prog.Returns p h a → tally h = 0

def Balanced (p : ApiProg α) : Prop := ∀ h a, Prog.Returns p h a → ∃ n ≤ 1, tally h = (0, n, n)

theorem quiet_of_counts (hp : ∀ f : ApiOp → Bool, (∀ o, o.isInner = true → f o = false) → p.Counts f 0)
    : Quiet p := by
  intro h a hr
  have hinner : ∀ o : ApiOp, o.isInner = true →
      o.adds .totalRequests_ = false ∧ o.adds .totalLatencyUs_ = false ∧ o.accepts = false := by
    intro o ho
    cases o with
    | systemNow | readRule | command => exact ⟨rfl, rfl, rfl⟩
    | add | steadyNow | routerMatch | send => contradiction
  have hrequests := hp (ApiOp.adds .totalRequests_) (fun o ho => (hinner o ho).1) h a hr
  have hlatency := hp (ApiOp.adds .totalLatencyUs_) (fun o ho => (hinner o ho).2.1) h a hr
  have haccepts := hp ApiOp.accepts (fun o ho => (hinner o ho).2.2) h a hr
  unfold tally
  rw [hrequests, hlatency, haccepts]
  rfl

theorem Quiet.balanced (hp : Quiet p) : Balanced p := fun h a hr =>
  ⟨0, Nat.zero_le 1, hp h a hr⟩

theorem Balanced.quiet_bind {k : α → ApiProg β} (hp : Quiet p) (hk : ∀ a, Balanced (k a))
    : Balanced (p >>= k) := by
  intro h b hr
  obtain ⟨a, h₁, h₂, rfl, hfirst, hsecond⟩ := Prog.returns_bind.mp hr
  rw [tally_append, hp _ _ hfirst, zero_add]
  exact hk a h₂ b hsecond

theorem quiet_pure (a : α) : Quiet (pure a) := by
  intro h b hr
  rw [(Prog.returns_pure.mp hr).1]
  rfl

theorem quiet_perform {o : ApiOp} (ho : mark o = 0) : Quiet (perform o) := by
  intro h r hr
  rw [Prog.returns_perform.mp hr, tally_singleton, ho]

theorem balanced_bind_pure {b : β} (hp : Balanced p) : Balanced (p >>= fun _ => pure b) := by
  intro h b' hr
  obtain ⟨a, h₁, h₂, rfl, hfirst, hsecond⟩ := Prog.returns_bind.mp hr
  rw [(Prog.returns_pure.mp hsecond).1, List.append_nil]
  exact hp h₁ a hfirst

theorem accepts_responseText {code : Nat} (body : Bytes) (hcode : (Bytes.ofNat code).length = 3)
    : (ApiOp.send (responseText code body)).accepts = decide (Bytes.ofNat code = Bytes.ofNat 200) := by
  rw [ApiOp.accepts, statusOf_responseText body hcode]

theorem quiet_sendResponse {code : Nat} (body : Bytes) (hcode : (Bytes.ofNat code).length = 3)
    (hne : Bytes.ofNat code ≠ Bytes.ofNat 200) : Quiet (sendResponse code body) := by
  apply quiet_perform
  rw [mark, accepts_responseText body hcode, decide_eq_false hne]
  rfl

theorem balanced_respond (req : HttpRequest) (start : Int) : Balanced (respond req start) := by
  intro h a hr
  obtain ⟨_, h, rfl, hr₁⟩ := Prog.returns_perform_bind.mp hr
  obtain ⟨stop, h, rfl, hr₂⟩ := Prog.returns_perform_bind.mp hr₁
  obtain ⟨_, h, rfl, hpush⟩ := Prog.returns_perform_bind.mp hr₂
  have hquiet : tally h = 0 := quiet_of_counts
    (fun f hf => LogConsumer.counts_push hf req.path (stop - start).toNat) h a hpush
  have haccepts := accepts_responseText (okBody req.path) (show (Bytes.ofNat 200).length = 3 by decide)
  have hsend : mark (.send (responseText 200 (okBody req.path))) = (0, 0, 1) := by
    rw [mark, haccepts]
    rfl
  refine ⟨1, le_refl 1, ?_⟩
  rw [tally_cons, tally_cons, tally_cons, hquiet, hsend]
  rfl

theorem balanced_processMatched (rule : Handle) (req : HttpRequest) (start : Int)
    : Balanced (processMatched rule req start) := by
  apply Balanced.quiet_bind (quiet_of_counts fun f hf => counts_checkAuth hf rule req)
  intro authorized
  cases authorized with
  | false =>
    apply Balanced.quiet_bind (quiet_perform rfl)
    exact fun _ => (quiet_sendResponse _ (by decide) (by decide)).balanced
  | true =>
    apply Balanced.quiet_bind (quiet_of_counts fun f hf => counts_checkLimit hf rule)
    intro allowed
    cases allowed with
    | false =>
      apply Balanced.quiet_bind (quiet_perform rfl)
      exact fun _ => (quiet_sendResponse _ (by decide) (by decide)).balanced
    | true => exact balanced_respond req start

theorem tally_of_returns {raw : Bytes} {x : Except StdException Unit}
    (hr : Prog.Returns (processApiRequest raw) h x)
    : ∃ h', h = ⟨.add .totalRequests_ 1, ()⟩ :: h' ∧ ∃ n ≤ 1, tally h' = (0, n, n) := by
  unfold processApiRequest at hr
  obtain ⟨_, h', rfl, hr₁⟩ := Prog.returns_perform_bind.mp hr
  refine ⟨h', rfl, ?_⟩
  revert hr₁
  suffices hbalanced : Balanced _ from hbalanced h' x
  apply Balanced.quiet_bind (quiet_perform rfl)
  intro start
  dsimp only
  split
  . exact (quiet_pure _).balanced
  . exact balanced_bind_pure (quiet_sendResponse _ (by decide) (by decide)).balanced
  . apply Balanced.quiet_bind (quiet_perform rfl)
    intro found
    split
    . exact balanced_bind_pure (quiet_sendResponse _ (by decide) (by decide)).balanced
    . exact balanced_bind_pure (balanced_processMatched _ _ _)

section Counters

variable {stat : Stat} {s s' : Calls} {t : Call} {ls : List Label}

theorem amounts_append : amounts stat (h ++ h') = amounts stat h ++ amounts stat h' :=
  List.filterMap_append

theorem length_amounts (stat : Stat) (h : List ApiEvent)
    : (amounts stat h).length = h.countP fun e => e.op.adds stat := by
  unfold amounts
  rw [List.length_filterMap_eq_countP]
  apply List.countP_congr
  rintro ⟨o, r⟩ _
  cases o with
  | add stat' n =>
    by_cases hstat : stat' = stat
    . simp [ApiOp.adds, hstat]
    . simp [ApiOp.adds, hstat]
  | steadyNow | systemNow | routerMatch | readRule | command | send => simp [ApiOp.adds]

theorem answer_eq_some {counters counters' : Counters} {o : ApiOp} {e : ApiEvent} {r : o.Reply}
    (h : answer counters o e = some (r, counters')) : counters' = counters.after o := by
  simp only [answer] at h
  split at h
  . rw [Option.some.injEq, Prod.mk.injEq] at h
    exact h.2.symm
  . contradiction

theorem after_eq (counters : Counters) (o : ApiOp) (r : o.Reply) (stat : Stat)
    : counters.after o stat = counters stat + UInt64.ofNat (amounts stat [⟨o, r⟩]).sum := by
  cases o with
  | add stat' n =>
    by_cases hstat : stat' = stat
    . subst hstat
      simp [Counters.after, amounts]
    . simp [Counters.after, amounts, hstat, Function.update_of_ne (Ne.symm hstat)]
  | steadyNow | systemNow | routerMatch | readRule | command | send => simp [Counters.after, amounts]

theorem sum_recorded_set {i : Nat} {e : ApiEvent} {t' : Call} (ht : s.threads[i]? = some t)
    (hhistory : t'.history = t.history ++ [e]) (counters : Counters)
    : (recorded stat ⟨counters, s.threads.set i t'⟩).sum
        =
      (recorded stat s).sum + (amounts stat [e]).sum := by
  have hperm := flatMap_set_perm (fun t : Call => amounts stat t.history) ht (b := t')
  rw [hhistory, amounts_append] at hperm
  have hsum : (recorded stat ⟨counters, s.threads.set i t'⟩ ++ amounts stat t.history).sum
      = (recorded stat s ++ (amounts stat t.history ++ amounts stat [e])).sum := hperm.sum_eq
  rw [List.sum_append, List.sum_append, List.sum_append] at hsum
  omega

/--
What the calls have added to a counter, it has modulo 2^64.
-/
def Sums (s : Calls) : Prop := ∀ stat, s.shared stat = UInt64.ofNat (recorded stat s).sum

theorem Sums.step {l : Label} (h : Sums s) (hl : step s l = some s') : Sums s' := by
  intro stat
  cases l with
  | start input =>
    rw [Threads.step_start hl]
    have hnone : recorded stat { s with threads := s.threads ++ [⟨input, [], processApiRequest input⟩] }
        = recorded stat s := by
      unfold recorded
      rw [List.flatMap_append]
      exact List.append_nil _
    rw [hnone]
    exact h stat
  | step i e =>
    obtain ⟨t, shared, t', ht, hadvance, rfl⟩ := Threads.step_step hl
    obtain ⟨o, next, r, _, hanswer, rfl⟩ := Threads.advance_eq_some hadvance
    rw [sum_recorded_set (e := ⟨o, r⟩) (t := t) ht rfl, UInt64.ofNat_add, ← h stat]
    simp only [answer_eq_some hanswer, after_eq _ o r]
  | env e => exact e.elim

theorem sums_of_exec (h : exec step init ls = some s) : Sums s :=
  exec_invariant step (fun _ _ _ hs hl => hs.step hl) (fun _ => rfl) h

def rejected (s : Calls) : Nat := s.threads.countP fun t => !t.history.any fun e => e.op.accepts

structure Counted (t : Call) : Prop where
  requests : amounts .totalRequests_ t.history = [1]
  latency : (amounts .totalLatencyUs_ t.history).length
      + (!t.history.any fun e => e.op.accepts).toNat = 1

theorem counted_of_finished (hruns : Threads.Runs processApiRequest (fun _ => True) t)
    (hfinished : Threads.Finished t) : Counted t := by
  obtain ⟨x, hnow⟩ := hfinished
  have hdoes := hruns.does
  rw [hnow] at hdoes
  obtain ⟨h', hhistory, n, hn, htally⟩ := tally_of_returns hdoes
  simp only [tally, Prod.mk.injEq, ← length_amounts] at htally
  obtain ⟨hrequests, hlatency, haccepts⟩ := htally
  constructor
  . rw [hhistory, ← List.singleton_append, amounts_append, List.eq_nil_of_length_eq_zero hrequests]
    rfl
  . have hfirst : amounts .totalLatencyUs_ t.history = amounts .totalLatencyUs_ h' := by
      rw [hhistory]
      rfl
    have hany : (t.history.any fun e => e.op.accepts) = h'.any fun e => e.op.accepts := by
      rw [hhistory]
      rfl
    rw [hfirst, hany, hlatency]
    cases hcase : h'.any fun e => e.op.accepts with
    | true =>
      have hpos : 0 < h'.countP fun e => e.op.accepts := List.countP_pos_iff.mpr (List.any_eq_true.mp hcase)
      simp only [Bool.not_true, Bool.toNat_false]
      omega
    | false =>
      have hzero : h'.countP (fun e => e.op.accepts) = 0 := by
        rw [List.countP_eq_zero]
        intro e he haccept
        rw [List.any_eq_false] at hcase
        exact hcase e he haccept
      simp only [Bool.not_false, Bool.toNat_true]
      omega

theorem sums_of_counted {threads : List Call} (h : ∀ t ∈ threads, Counted t)
    : (threads.flatMap fun t => amounts .totalRequests_ t.history).sum = threads.length ∧
        (threads.flatMap fun t => amounts .totalLatencyUs_ t.history).length
          + (threads.countP fun t => !t.history.any fun e => e.op.accepts) = threads.length := by
  induction threads with
  | nil => exact ⟨rfl, rfl⟩
  | cons t threads ih =>
    obtain ⟨hfirst, hrest⟩ := List.forall_mem_cons.mp h
    obtain ⟨hrequests, hlatency⟩ := ih hrest
    have hlatency₁ := hfirst.latency
    constructor
    . rw [List.flatMap_cons, List.sum_append, hrequests, hfirst.requests, List.sum_singleton,
        List.length_cons, Nat.add_comm]
    . rw [List.flatMap_cons, List.length_append, List.countP_cons, List.length_cons]
      generalize (!t.history.any fun e => e.op.accepts) = b at hlatency₁ ⊢
      cases b with
      | true =>
        rw [Bool.toNat_true] at hlatency₁
        rw [if_pos rfl]
        omega
      | false =>
        rw [Bool.toNat_false] at hlatency₁
        rw [if_neg (by decide)]
        omega

end Counters

section Average

variable {l : List Nat} {n : Nat} {s : Calls} {ls : List Label}

def excess (l : List Nat) (hne : l ≠ []) : Nat := (l.map fun n => n - l.min hne).sum

theorem sum_map_sub {m : Nat} (h : ∀ n ∈ l, m ≤ n)
    : (l.map fun n => n - m).sum + l.length * m = l.sum := by
  induction l with
  | nil => simp
  | cons n l ih =>
    obtain ⟨hn, hl⟩ := List.forall_mem_cons.mp h
    have hrest := ih hl
    rw [List.map_cons, List.sum_cons, List.sum_cons, List.length_cons, Nat.succ_mul]
    omega

/--
An average over `n` numbers more than there are stays below the largest one, but it may get below the
smallest one.
-/
theorem avgMs_iff (hne : l ≠ []) (n : Nat)
    : (l.min hne : ℚ) / 1000 ≤ avgMs (l.length + n) l.sum ∧
          avgMs (l.length + n) l.sum ≤ (l.max hne : ℚ) / 1000
        ↔
      n * l.min hne ≤ excess l hne := by
  have hlength : 0 < l.length := List.length_pos_of_ne_nil hne
  have hpos : (0 : ℚ) < (l.length + n : Nat) := by
    rw [Nat.cast_pos]
    omega
  have hlow : (l.min hne : ℚ) / 1000 ≤ avgMs (l.length + n) l.sum
      ↔ l.min hne * (l.length + n) ≤ l.sum := by
    rw [avgMs, if_pos (by omega), le_div_iff₀ hpos, div_mul_eq_mul_div,
      div_le_div_iff_of_pos_right (by norm_num)]
    norm_cast
  have hhigh : avgMs (l.length + n) l.sum ≤ (l.max hne : ℚ) / 1000 := by
    rw [avgMs, if_pos (by omega), div_le_iff₀ hpos, div_mul_eq_mul_div,
      div_le_div_iff_of_pos_right (by norm_num)]
    norm_cast
    calc
      l.sum ≤ l.max hne * l.length := List.sum_le_max_mul_length_nat hne
      _ ≤ l.max hne * (l.length + n) := Nat.mul_le_mul_left _ (Nat.le_add_right _ _)
  rw [and_iff_left hhigh, hlow]
  have hsum : excess l hne + l.length * l.min hne = l.sum :=
    sum_map_sub fun n hn => List.min_le_of_mem hn
  rw [← hsum, Nat.mul_add, Nat.mul_comm _ l.length, Nat.mul_comm _ n]
  omega

def AverageInRange (s : Calls) (hne : latencies s ≠ []) : Prop :=
  ((latencies s).min hne : ℚ) / 1000 ≤ avgLatencyMs s ∧
    avgLatencyMs s ≤ ((latencies s).max hne : ℚ) / 1000

/--
When all calls have come to their end, the counters are the sums of what the calls have added, and the
average that they make is in range exactly if the calls without an answer 200, at the smallest latency
each, are covered by what the other latencies exceed it by.
-/
theorem averageInRange_iff (h : exec step init ls = some s)
    (hidle : ∀ t ∈ s.threads, Threads.Finished t) (hne : latencies s ≠ [])
    : (∀ stat, s.shared stat = UInt64.ofNat (recorded stat s).sum) ∧
        (AverageInRange s hne
            ↔
          rejected s * (latencies s).min hne ≤ excess (latencies s) hne) := by
  have hruns : ∀ t ∈ s.threads, Threads.Runs processApiRequest (fun _ => True) t :=
    Threads.runs_exec (fun _ _ _ _ _ _ => trivial) h
  obtain ⟨hrequests, hlatency⟩ := sums_of_counted fun t ht =>
    counted_of_finished (hruns t ht) (hidle t ht)
  have hreqs : (recorded .totalRequests_ s).sum = (latencies s).length + rejected s :=
    hrequests.trans hlatency.symm
  refine ⟨sums_of_exec h, ?_⟩
  rw [AverageInRange, avgLatencyMs, hreqs]
  exact avgMs_iff hne (rejected s)

def getText (path : String) : Bytes := Bytes.ofAscii ("GET " ++ path ++ " HTTP/1.1\r\n\r\n")

def performs (i : Nat) (e : ApiEvent) : Label := .step i e

def ruleA : RouteRule := ⟨Bytes.ofAscii "/a", false, 0⟩

def served (i ms : Nat) : List Label := [
  .start (getText "/a"), performs i ⟨.add .totalRequests_ 1, ()⟩, performs i ⟨.steadyNow, (0 : Int)⟩,
  performs i ⟨.routerMatch (Bytes.ofAscii "/a"), some (⟨0, 0⟩ : Handle)⟩,
  performs i ⟨.readRule ⟨0, 0⟩, ruleA⟩, performs i ⟨.readRule ⟨0, 0⟩, ruleA⟩,
  performs i ⟨.send (responseText 200 (okBody (Bytes.ofAscii "/a"))), ()⟩,
  performs i ⟨.steadyNow, (1000000 * ms : Int)⟩, performs i ⟨.add .totalLatencyUs_ (1000 * ms), ()⟩,
  performs i ⟨.command .logConsumer_
    (.xadd (Bytes.ofAscii "XADD log_stream MAXLEN ~ 10000 * latency_ms " ++ Bytes.ofNat ms ++
      Bytes.ofAscii ".000000 path /a status_code 200 user_id 0 ")),
    (some (.string []) : Option RedisReply)⟩
]

def notFound (i : Nat) : List Label := [
  .start (getText "/b"), performs i ⟨.add .totalRequests_ 1, ()⟩, performs i ⟨.steadyNow, (0 : Int)⟩,
  performs i ⟨.routerMatch (Bytes.ofAscii "/b"), (none : Option Handle)⟩,
  performs i ⟨.send (responseText 404 noRoute), ()⟩
]

/--
One call takes so long that the average of all three is not below the smallest latency.
-/
theorem averageInRange_iff_served
    : ∃ s, exec step init (served 0 7 ++ served 1 21 ++ notFound 2) = some s ∧ rejected s = 1 ∧
        ∃ hne : latencies s ≠ [], AverageInRange s hne := by
  have hrun : (exec step init (served 0 7 ++ served 1 21 ++ notFound 2)).any (fun s =>
      (∀ t ∈ s.threads, Threads.Finished t) ∧ rejected s = 1 ∧ latencies s = [7000, 21000]) = true := by
    decide +kernel
  obtain ⟨s, hs, hend⟩ := (Option.any_eq_true _ _).mp hrun
  obtain ⟨hidle, hrejected, hlatencies⟩ := of_decide_eq_true hend
  have hne : latencies s ≠ [] := by
    rw [hlatencies]
    exact List.cons_ne_nil _ _
  refine ⟨s, hs, hrejected, hne, (averageInRange_iff hs hidle hne).2.mpr ?_⟩
  have hcovered : 1 * [7000, 21000].min (by simp) ≤ excess [7000, 21000] (by simp) := by decide
  simpa only [hrejected, hlatencies] using hcovered

/--
Of two calls one records 7 ms, and the average of both is 3.5 ms.
-/
theorem not_averageInRange_notFound
    : ∃ s, exec step init (served 0 7 ++ notFound 1) = some s ∧
        (∀ t ∈ s.threads, Threads.Finished t) ∧ latencies s = [7000] ∧ avgLatencyMs s = 7 / 2 ∧
        ∃ hne : latencies s ≠ [], ¬AverageInRange s hne := by
  have hrun : (exec step init (served 0 7 ++ notFound 1)).any (fun s =>
      (∀ t ∈ s.threads, Threads.Finished t) ∧ latencies s = [7000] ∧ avgLatencyMs s = 7 / 2) = true := by
    decide +kernel
  obtain ⟨s, hs, hend⟩ := (Option.any_eq_true _ _).mp hrun
  obtain ⟨hidle, hlatencies, haverage⟩ := of_decide_eq_true hend
  have hne : latencies s ≠ [] := by
    rw [hlatencies]
    exact List.cons_ne_nil _ _
  refine ⟨s, hs, hidle, hlatencies, haverage, hne, ?_⟩
  rintro ⟨hlow, _⟩
  simp only [hlatencies, haverage, List.min_singleton] at hlow
  norm_num at hlow

end Average

end Statistics
end Gateway
end LFGateway
