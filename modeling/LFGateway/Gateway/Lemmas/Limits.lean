import LFGateway.Foundation.ListSet
import LFGateway.Gateway.Lemmas.Api
import LFGateway.RateLimit.Impl.TokenBucket

/-!
This module contains what the two limiters amount to over runs of concurrent requests: the second one
is asked after every denial of the first, so the bucket is enforced exactly as far as the counter of
the current second is used up.
-/

namespace LFGateway

open Foundation

namespace Gateway

variable {rules_ : List RouteRule} {i : Nat} {rule : RouteRule} {h : List ApiEvent}
variable {s s' : Requests} {t t' : Request}

/--
A reply that the table and an error-free Redis give.
-/
def Replied (rules_ : List RouteRule) : ApiEvent → Prop
  | ⟨.routerMatch path, found⟩ => found = Router.match 0 rules_ path
  | ⟨.readRule handle, r⟩ => rules_[handle.index]? = some r
  | ⟨.command _ (.eval _ _ _ _), reply⟩ =>
    reply = some (.integer 0) ∨ reply = some (.integer 1)
  | ⟨.command _ (.incr _), reply⟩ => ∃ n, reply = some (.integer n)
  | _ => True

theorem replied_of_answer {shared shared' : Shared} {o : ApiOp} {choice : Choice} {r : o.Reply}
    (hanswer : answer rules_ shared o choice = some (r, shared')) : Replied rules_ ⟨o, r⟩ := by
  cases o with
  | routerMatch path =>
    cases choice with
    | go =>
      have hreply := (answerLocally_eq_some_iff.mp hanswer).1
      rw [localReply, Option.some.injEq] at hreply
      exact hreply.symm
    | time | redis => contradiction
  | readRule handle =>
    cases choice with
    | go => exact (answerLocally_eq_some_iff.mp hanswer).1
    | time | redis => contradiction
  | command via cmd =>
    cases choice with
    | redis reply =>
      simp only [answer] at hanswer
      split at hanswer
      . next counters hcounters =>
        rw [Option.some.injEq, Prod.mk.injEq] at hanswer
        rw [← hanswer.1]
        unfold redisAnswer at hcounters
        split at hcounters
        . next n =>
          split at hcounters
          . next hbit =>
            cases hbit with
            | inl hzero => exact .inl (by rw [hzero])
            | inr hone => exact .inr (by rw [hone])
          . contradiction
        . trivial
        . trivial
        . next key n => exact ⟨n, rfl⟩
        . trivial
        . trivial
        . contradiction
      . contradiction
    | go | time => contradiction
  | add | steadyNow | systemNow | send => trivial

inductive Fate (rule : RouteRule) : List Visible → Prop where
  | rejected : Fate rule [.answer (Bytes.ofNat 401)]
  | granted : Fate rule [.script (some (.integer 1)), .answer (Bytes.ofNat 200)]
  | overruled (n : Int) (h : n ≤ rule.rateLimit)
      : Fate rule [.script (some (.integer 0)), .count (some (.integer n)), .answer (Bytes.ofNat 200)]
  | denied (n : Int) (h : rule.rateLimit < n)
      : Fate rule [.script (some (.integer 0)), .count (some (.integer n)), .answer (Bytes.ofNat 429)]

theorem seen_of_replied (hok : ∀ e ∈ h, Replied rules_ e)
    : (∀ reply, .script reply ∈ visible h → reply = some (.integer 0) ∨ reply = some (.integer 1)) ∧
        (∀ reply, .count reply ∈ visible h → ∃ n, reply = some (.integer n)) := by
  constructor
  . intro reply hmem
    obtain ⟨e, he, hseen⟩ := List.mem_filterMap.mp hmem
    have hreplied := hok e he
    split at hseen
    . rw [Option.some.injEq, Visible.script.injEq] at hseen
      rw [← hseen]
      exact hreplied
    . simp at hseen
    . simp at hseen
    . simp at hseen
  . intro reply hmem
    obtain ⟨e, he, hseen⟩ := List.mem_filterMap.mp hmem
    have hreplied := hok e he
    split at hseen
    . simp at hseen
    . rw [Option.some.injEq, Visible.count.injEq] at hseen
      rw [← hseen]
      exact hreplied
    . simp at hseen
    . simp at hseen

theorem fate_processMatched {handle : Handle} {req : HttpRequest} {start : Int}
    (hr : Prog.Returns (processMatched handle req start) h ())
    (hok : ∀ e ∈ h, Replied rules_ e) (hrule : rules_[handle.index]? = some rule)
    (hlimit : 0 < rule.rateLimit) : Fate rule (visible h) := by
  have hreads : Reads handle rule h := by
    intro r' hmem
    have hread : rules_[handle.index]? = some r' := hok _ hmem
    rw [hrule, Option.some.injEq] at hread
    exact hread.symm
  obtain ⟨hscripts, hcounts⟩ := seen_of_replied hok
  rcases visible_processMatched hr hreads hlimit with hrejected | ⟨seen, allowed, hlimited, hseen⟩
  . rw [hrejected]
    exact .rejected
  . obtain ⟨reply, hlimited⟩ := hlimited
    have hreply : reply = some (.integer 0) ∨ reply = some (.integer 1) := by
      apply hscripts
      rw [hseen]
      split at hlimited
      . rw [hlimited.1]
        simp
      . obtain ⟨reply', hcount, _⟩ := hlimited
        rw [hcount]
        simp
    cases hreply with
    | inl hzero =>
      subst hzero
      rw [if_neg (by simp)] at hlimited
      obtain ⟨reply', hcount, hallowed⟩ := hlimited
      obtain ⟨n, rfl⟩ := hcounts reply' (by simp [hseen, hcount])
      rw [hseen, hcount]
      cases allowed with
      | true => exact .overruled n (hallowed.mp rfl)
      | false =>
        apply Fate.denied n
        by_contra hle
        exact absurd (hallowed.mpr (not_lt.mp hle)) (by simp)
    | inr hone =>
      subst hone
      rw [if_pos (by simp)] at hlimited
      obtain ⟨hscript, hallowed⟩ := hlimited
      rw [hseen, hscript, hallowed]
      exact .granted

theorem fate_processApiRequest {raw : Bytes} {x : Except StdException Unit}
    (hr : Prog.Returns (processApiRequest raw) h x) (hok : ∀ e ∈ h, Replied rules_ e)
    (hmatched : ruleOf rules_ raw = some i) (hrule : rules_[i]? = some rule)
    (hlimit : 0 < rule.rateLimit) : Fate rule (visible h) := by
  obtain ⟨start, h', hvisible, hsub, hprocess⟩ := returns_of_ruleOf hmatched hr
    (fun path found hmem => hok _ hmem)
  rw [hvisible]
  exact fate_processMatched hprocess (fun e he => hok e (hsub e he)) hrule hlimit

section Runs

/--
A limited rule in front of whose requests the counter of the current second is used up: if the next
operation of a request of rule `i` is to count itself after a denial, it comes too late there too.
-/
def CountsOut (rules_ : List RouteRule) (i : Nat) (s : Requests) : Requests.Label → Prop
  | .step j _ =>
    ∀ t ∈ s.threads[j]?, ruleOf rules_ t.input = some i → ∀ rule ∈ rules_[i]?,
      match t.now with
      | .op (.command _ (.incr key)) _ => rule.rateLimit ≤ s.shared.counters key
      | _ => True
  | _ => True

instance (s : Requests) (l : Requests.Label) : Decidable (CountsOut rules_ i s l) :=
  match l with
  | .start _ => inferInstanceAs (Decidable True)
  | .env _ => inferInstanceAs (Decidable True)
  | .step j _ => by
    unfold CountsOut
    have : ∀ (t : Request) (rule : RouteRule), Decidable (match t.now with
        | .op (.command _ (.incr key)) _ => rule.rateLimit ≤ s.shared.counters key
        | _ => True) := by
      intro t rule
      split <;> infer_instance
    infer_instance

def Over (rules_ : List RouteRule) (i : Nat) (rule : RouteRule) (t : Request) : Prop :=
  ruleOf rules_ t.input = some i →
    ∀ n, .count (some (.integer n)) ∈ visible t.history → rule.rateLimit < n

theorem answer_incr {shared shared' : Shared} {via : Member} {key : Bytes} {choice : Choice}
    {r : Option RedisReply}
    (hanswer : answer rules_ shared (.command via (.incr key)) choice = some (r, shared'))
    : r = some (.integer (shared.counters key + 1)) := by
  cases choice with
  | go | time => contradiction
  | redis reply =>
    cases reply with
    | string | status | nil | error => simp [answer, redisAnswer] at hanswer
    | integer n =>
      simp only [answer, redisAnswer] at hanswer
      split at hanswer
      . next hcounters =>
        split at hcounters
        . next hnext =>
          rw [Option.some.injEq, Prod.mk.injEq] at hanswer
          rw [← hanswer.1, hnext.1]
        . contradiction
      . contradiction

theorem count_notMem_visible {o : ApiOp} {r : o.Reply}
    (hother : ∀ via key, o ≠ .command via (.incr key)) (reply : Option RedisReply)
    : .count reply ∉ visible [⟨o, r⟩] := by
  cases o with
  | add | steadyNow | systemNow | routerMatch | readRule => exact List.not_mem_nil
  | send text =>
    intro hmem
    have heq := List.mem_singleton.mp hmem
    contradiction
  | command via cmd =>
    cases cmd with
    | get | expire | xadd => exact List.not_mem_nil
    | eval =>
      intro hmem
      have heq := List.mem_singleton.mp hmem
      contradiction
    | incr key => exact absurd rfl (hother via key)

theorem over_advance {shared shared' : Shared} {choice : Choice}
    (hadvance : Threads.advance (answer rules_) shared t choice = some (shared', t'))
    : Over rules_ i rule t' ↔
        Over rules_ i rule t ∧ (ruleOf rules_ t.input = some i →
          match t.now with
          | .op (.command _ (.incr key)) _ => rule.rateLimit ≤ shared.counters key
          | _ => True) := by
  obtain ⟨o, next, r, hnow, hanswer, rfl⟩ := Threads.advance_eq_some hadvance
  unfold Over
  rw [← imp_and, hnow]
  apply imp_congr_right
  intro _
  dsimp only
  rw [visible_append]
  split
  . next via key next' heq =>
    rw [Prog.op.injEq] at heq
    obtain ⟨rfl, _⟩ := heq
    rw [answer_incr hanswer]
    have hseen : visible [⟨.command via (.incr key), some (.integer (shared.counters key + 1))⟩]
        = [.count (some (.integer (shared.counters key + 1)))] := rfl
    constructor
    . intro hover
      refine ⟨fun n hn => hover n (List.mem_append_left _ hn), ?_⟩
      have := hover (shared.counters key + 1) (by rw [hseen]; simp)
      omega
    . rintro ⟨hover, hle⟩ n hn
      rw [hseen, List.mem_append, List.mem_singleton] at hn
      cases hn with
      | inl hold => exact hover n hold
      | inr heq =>
        simp only [Visible.count.injEq, Option.some.injEq, RedisReply.integer.injEq] at heq
        omega
  . next hother =>
    have hnone := count_notMem_visible (r := r) (by
      intro via key heq
      subst heq
      exact hother via key next rfl)
    simp [hnone]

theorem over_step {l : Requests.Label} (hrule : rules_[i]? = some rule)
    (hl : Requests.step rules_ s l = some s')
    : (∀ t ∈ s'.threads, Over rules_ i rule t) ↔
        (∀ t ∈ s.threads, Over rules_ i rule t) ∧ CountsOut rules_ i s l := by
  cases l with
  | start raw =>
    rw [Threads.step_start hl]
    have hnew : Over rules_ i rule ⟨raw, [], processApiRequest raw⟩ := by
      intro _ n hn
      simp at hn
    rw [List.forall_mem_append]
    simp [hnew, CountsOut]
  | step j choice =>
    obtain ⟨t, shared, t', ht, hadvance, rfl⟩ := Threads.step_step hl
    have hboth := forall_mem_set_iff (P := Over rules_ i rule) ht (over_advance hadvance)
    simp only [hboth, CountsOut, ht, hrule, Option.mem_def, Option.some.injEq, forall_eq']
  | env e =>
    rw [Threads.step_env hl]
    simp [CountsOut]

end Runs

/--
Rule `i` is limited by the bucket: whoever was denied by the script is answered 429, and as many are
answered 200 as the script let pass.
-/
def Enforced (rules_ : List RouteRule) (i : Nat) (s : Requests) : Prop :=
  let ofRule := s.threads.filter fun t => ruleOf rules_ t.input = some i
  (∀ t ∈ ofRule, .script (some (.integer 0)) ∈ visible t.history →
    ∀ status, .answer status ∈ visible t.history ↔ status = Bytes.ofNat 429) ∧
  (ofRule.map fun t => (visible t.history).count (.answer (Bytes.ofNat 200))).sum
    = (ofRule.map fun t => (visible t.history).count (.script (some (.integer 1)))).sum

section Fate

variable {seen : List Visible}

theorem Fate.denied_iff (hfate : Fate rule seen)
    : (.script (some (.integer 0)) ∈ seen →
        ∀ status, .answer status ∈ seen ↔ status = Bytes.ofNat 429)
        ↔
      (∀ n, .count (some (.integer n)) ∈ seen → rule.rateLimit < n) := by
  cases hfate with
  | rejected => simp
  | granted => simp
  | overruled n hle =>
    constructor
    . intro hdenied
      have heq := (hdenied (by simp) (Bytes.ofNat 200)).mp (by simp)
      have := Bytes.ofNat_injective heq
      contradiction
    . intro hover
      have := hover n (by simp)
      omega
  | denied n hlt => simp [hlt]

theorem Fate.count_eq (hfate : Fate rule seen)
    (hover : ∀ n, .count (some (.integer n)) ∈ seen → rule.rateLimit < n)
    : seen.count (.answer (Bytes.ofNat 200)) = seen.count (.script (some (.integer 1))) := by
  cases hfate with
  | rejected => decide
  | granted => decide
  | overruled n hle =>
    have := hover n (by simp)
    omega
  | denied n hlt =>
    have hne : Bytes.ofNat 429 ≠ Bytes.ofNat 200 := by decide
    simp [hne]

end Fate

/--
In a run that has come to rest, a limited rule is enforced if and only if every denied request found
the counter of its second used up.
-/
theorem enforced_iff_countsOut {shared : Shared} {ls : List Requests.Label} {s : Requests}
    (h : exec (Requests.step rules_) ⟨shared, []⟩ ls = some s)
    (hfinished : ∀ t ∈ s.threads, Threads.Finished t) (hrule : rules_[i]? = some rule)
    (hlimit : 0 < rule.rateLimit)
    : Enforced rules_ i s ↔ Meets (Requests.step rules_) (CountsOut rules_ i) ⟨shared, []⟩ ls := by
  have hover := iff_meets_of_step (Requests.step rules_) (CountsOut rules_ i)
    (P := fun s => ∀ t ∈ s.threads, Over rules_ i rule t) (fun _ _ _ hl => over_step hrule hl) h
  have hfate : ∀ t ∈ s.threads, ruleOf rules_ t.input = some i → Fate rule (visible t.history) := by
    intro t ht hmatched
    have hruns : Threads.Runs processApiRequest (Replied rules_) t :=
      Threads.runs_exec (fun _ _ _ _ _ hanswer => replied_of_answer hanswer) h t ht
    obtain ⟨x, hx⟩ := hfinished t ht
    have hdoes := hruns.does
    rw [hx] at hdoes
    exact fate_processApiRequest hdoes hruns.replies hmatched hrule hlimit
  rw [← (hover.trans (and_iff_right (by simp)))]
  constructor
  . rintro ⟨hdenied, _⟩ t ht hmatched
    apply (hfate t ht hmatched).denied_iff.mp
    apply hdenied
    simp [ht, hmatched]
  . intro hover
    constructor
    . intro t ht
      obtain ⟨ht, hmatched⟩ := List.mem_filter.mp ht
      rw [decide_eq_true_eq] at hmatched
      exact (hfate t ht hmatched).denied_iff.mpr (hover t ht hmatched)
    . congr 1
      apply List.map_congr_left
      intro t ht
      obtain ⟨ht, hmatched⟩ := List.mem_filter.mp ht
      rw [decide_eq_true_eq] at hmatched
      exact (hfate t ht hmatched).count_eq (hover t ht hmatched)

section Witness

def limitedRoot : List RouteRule := [⟨Bytes.ofAscii "/", false, 1⟩]

def getRootText : Bytes := Bytes.ofAscii "GET / HTTP/1.1\r\n\r\n"

def fresh : Shared := ⟨fun _ => 0, fun _ => 0⟩

def untilScript (i : Nat) (reply : Int) : List Requests.Label :=
  .start getRootText ::
    [.go, .time 0, .go, .go, .go, .go, .time 0, .redis (.integer reply)].map (.step i)

def answered (i : Nat) : List Requests.Label :=
  [.go, .time 0, .go, .redis (.string [])].map (.step i)

/--
One request that the script lets pass and one that is turned away by both limiters.
-/
def bothLimiters : List Requests.Label :=
  untilScript 0 1 ++ answered 0 ++ untilScript 1 0 ++ [
    .step 1 .go,
    .step 1 (.time 0),
    .env (.counter (Bytes.ofAscii "rate:/:0") 1),
    .step 1 (.redis (.integer 2)),
    .step 1 .go,
    .step 1 .go
  ]

theorem enforced_iff_countsOut_bothLimiters
    : ∃ s, exec (Requests.step limitedRoot) ⟨fresh, []⟩ bothLimiters = some s ∧
        Enforced limitedRoot 0 s := by
  have hend := Option.eq_some_of_isSome
    (o := exec (Requests.step limitedRoot) ⟨fresh, []⟩ bothLimiters) (by decide +kernel)
  refine ⟨_, hend, ?_⟩
  exact (enforced_iff_countsOut hend (by decide +kernel) (i := 0) rfl (by decide)).mpr
    (by decide +kernel)

/--
Two requests empty the bucket, a third is denied and finds no counter yet.
-/
def burst : List Requests.Label :=
  untilScript 0 1 ++ answered 0 ++ untilScript 1 1 ++ answered 1 ++ untilScript 2 0 ++
    [.go, .time 0, .redis (.integer 1), .redis (.integer 1)].map (.step 2) ++ answered 2

/--
With one request a second and room for two, the script lets two requests of one millisecond pass, and
three are answered 200.
-/
theorem not_enforced_burst
    : TokenBucket.admitted 2 1 none [0, 0, 0] = 2 ∧
      ∃ s, exec (Requests.step limitedRoot) ⟨fresh, []⟩ burst = some s ∧
        (∀ t ∈ s.threads, Threads.Finished t) ∧
        s.threads.map (fun t => (visible t.history).count (.answer (Bytes.ofNat 200))) = [1, 1, 1] ∧
        ¬Enforced limitedRoot 0 s := by
  have hend := Option.eq_some_of_isSome
    (o := exec (Requests.step limitedRoot) ⟨fresh, []⟩ burst) (by decide +kernel)
  refine ⟨by decide +kernel, _, hend, by decide +kernel, by decide +kernel, ?_⟩
  intro henforced
  exact absurd henforced.2 (by decide +kernel)

end Witness

end Gateway
end LFGateway
