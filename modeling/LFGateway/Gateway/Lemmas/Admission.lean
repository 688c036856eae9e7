import Mathlib.Algebra.Order.BigOperators.Group.Finset
import Mathlib.Algebra.Order.BigOperators.Group.List
import LFGateway.Foundation.Partition
import LFGateway.Gateway.Lemmas.Clocked
import LFGateway.Gateway.Lemmas.Limits

/-!
This module contains what the two limiters let pass together. The second one is asked after every denial
of the first, so that a rule gives as many answers 200 as its bucket lets pass or fails to say, and up to
its rate in every second on top of that.
-/

namespace LFGateway

open Foundation

namespace Gateway
namespace Timed

variable {rules_ : List RouteRule} {rule : RouteRule} {p : Bytes} {start clock : Nat}
variable {second m : Nat} {t t' : Request} {h : List ApiEvent} {server server' : Server}
variable {s s' : Requests} {choice : Choice} {unseen : List Int}

section Server

variable {key : Bytes} {cmd : Command} {reply : Option RedisReply}

/--
What a command does to a key that `m` calls have counted on: the numbers it was answered with there are
`seen`.
-/
inductive Moved (key : Bytes) (second m : Nat) (server : Server) : List Int → Choice → Prop where
  | same (choice : Choice) (hkey : FixedWindow.KeyCounts key second m server)
      : Moved key second m server [] choice
  | next (choice : Choice) (hkey : FixedWindow.KeyCounts key second (m + 1) server)
      : Moved key second m server [(m : Int) + 1] choice
  | lost (hkey : FixedWindow.KeyCounts key second (m + 1) server) : Moved key second m server [] .lost

theorem incr_of_ne {key' : Bytes} {count : Int} (hne : key' ≠ key)
    (hkey : FixedWindow.KeyCounts key second m server) (hincr : server.incr key' = some (count, server'))
    : server'.clock = server.clock ∧ FixedWindow.KeyCounts key second m server' := by
  unfold FixedWindow.Server.incr at hincr
  dsimp only at hincr
  split at hincr
  . rw [Option.some.injEq, Prod.mk.injEq] at hincr
    rw [← hincr.2]
    exact ⟨rfl, hkey.write hne _⟩
  . contradiction

theorem countsAt_incr (via : Member) (key' : Bytes) (count : Int)
    : countsAt key [⟨.command via (.incr key'), some (.integer count)⟩]
        =
      if key' = key then [count] else [] := by
  have hnumbers : numbers [⟨.command via (.incr key'), some (.integer count)⟩] = [(key', count)] := rfl
  unfold countsAt
  rw [hnumbers, List.filter_cons, List.filter_nil]
  by_cases heq : key' = key <;> simp [heq]

theorem countsAt_of_not_integer (via : Member) (hreply : ∀ n, reply ≠ some (.integer n))
    : countsAt key [⟨.command via cmd, reply⟩] = [] := by
  have hnumbers : numbers [⟨.command via cmd, reply⟩] = [] := by
    unfold numbers
    rw [List.filterMap_cons]
    split
    . rfl
    . next heq =>
      split at heq
      . next n heq' =>
        cases heq'
        exact absurd rfl (hreply n)
      . contradiction
  unfold countsAt
  rw [hnumbers]
  rfl

theorem countsAt_of_not_incr {o : ApiOp} {r : o.Reply} (ho : ∀ via key, o ≠ .command via (.incr key))
    : countsAt key [⟨o, r⟩] = [] := by
  have hnumbers : numbers [⟨o, r⟩] = [] := by
    apply List.eq_nil_iff_forall_not_mem.mpr
    intro kn hkn
    obtain ⟨via, heq⟩ := incr_of_mem_numbers hkn
    exact ho via _ heq
  unfold countsAt
  rw [hnumbers]
  rfl

theorem expire_keeps {key' : Bytes} (hkey : FixedWindow.KeyCounts key second m server)
    : FixedWindow.KeyCounts key second m (server.expire key' 2).2 := by
  by_cases heq : key' = key
  . rw [heq]
    exact hkey.expire
  . unfold FixedWindow.Server.expire
    split
    . exact hkey.write heq _
    . exact hkey

theorem moved_of_redisAnswer (via : Member) (hkey : FixedWindow.KeyCounts key second m server)
    (hincr : cmd = .incr key → 1000000000 * second ≤ server.clock ∧ server.clock < 1000000000 * (second + 2))
    (hexpire : ∀ key' seconds, cmd = .expire key' seconds → seconds = 2)
    (h : redisAnswer server cmd choice = some (reply, server'))
    : server'.clock = server.clock ∧
        Moved key second m server' (countsAt key [⟨.command via cmd, reply⟩]) choice := by
  unfold redisAnswer at h
  split at h
  . next key' =>
    obtain ⟨⟨count, _⟩, hcount, heq⟩ := Option.map_eq_some_iff.mp h
    cases heq
    rw [countsAt_incr]
    by_cases hsame : key' = key
    . subst hsame
      obtain ⟨hbegun, hlate⟩ := hincr rfl
      obtain ⟨rfl, hclock, hnext⟩ := hkey.incr hbegun hlate hcount
      rw [if_pos rfl]
      exact ⟨hclock, .next _ hnext⟩
    . obtain ⟨hclock, hkept⟩ := incr_of_ne hsame hkey hcount
      rw [if_neg hsame]
      exact ⟨hclock, .same _ hkept⟩
  . next key' =>
    obtain ⟨⟨count, _⟩, hcount, heq⟩ := Option.map_eq_some_iff.mp h
    cases heq
    rw [countsAt_of_not_integer via (by simp)]
    by_cases hsame : key' = key
    . subst hsame
      obtain ⟨hbegun, hlate⟩ := hincr rfl
      obtain ⟨_, hclock, hnext⟩ := hkey.incr hbegun hlate hcount
      exact ⟨hclock, .lost hnext⟩
    . obtain ⟨hclock, hkept⟩ := incr_of_ne hsame hkey hcount
      exact ⟨hclock, .same _ hkept⟩
  . split at h
    . next hunexecuted =>
      rw [Option.some.injEq, Prod.mk.injEq] at h
      obtain ⟨rfl, rfl⟩ := h
      rw [countsAt_of_not_integer via]
      . exact ⟨rfl, .same _ hkey⟩
      . rintro n rfl
        exact hunexecuted
    . contradiction
  . next key' seconds =>
    rw [hexpire key' seconds rfl, Option.some.injEq, Prod.mk.injEq] at h
    obtain ⟨rfl, rfl⟩ := h
    rw [countsAt_of_not_incr (by simp), FixedWindow.Server.expire_clock]
    exact ⟨rfl, .same _ (expire_keeps hkey)⟩
  . split at h
    . rw [Option.some.injEq, Prod.mk.injEq] at h
      obtain ⟨rfl, rfl⟩ := h
      rw [countsAt_of_not_incr (by simp)]
      exact ⟨rfl, .same _ hkey⟩
    . contradiction
  all_goals
    first
    | contradiction
    | rw [Option.some.injEq, Prod.mk.injEq] at h
      obtain ⟨rfl, rfl⟩ := h
      rw [countsAt_of_not_incr (by simp)]
      exact ⟨rfl, .same _ hkey⟩

theorem moved_of_outside {e : Outside} (hp : 0 ∉ p)
    (hkey : FixedWindow.KeyCounts (counterKey p second) second m server)
    (hwrite : ∀ key counter, e = .write key counter → ¬counterPrefix p <+: key)
    (h : outside server e = some server')
    : server.clock ≤ server'.clock ∧ FixedWindow.KeyCounts (counterKey p second) second m server' := by
  cases e with
  | tick ns =>
    rw [outside, Option.some.injEq] at h
    rw [← h]
    exact ⟨Nat.le_add_right _ _, hkey.tick ns⟩
  | removed key =>
    by_cases heq : key = counterKey p second
    . rw [outside, heq] at h
      exact hkey.outside h
    . rw [outside, FixedWindow.outside] at h
      split at h
      . split at h
        . rw [Option.some.injEq] at h
          rw [← h]
          exact ⟨le_refl _, hkey.write heq none⟩
        . contradiction
      . contradiction
  | expire key =>
    rw [outside, FixedWindow.outside, Option.some.injEq] at h
    rw [← h, FixedWindow.Server.expire_clock]
    exact ⟨le_refl _, expire_keeps hkey⟩
  | write key counter =>
    rw [outside, Option.some.injEq] at h
    rw [← h]
    exact ⟨le_refl _, hkey.write (ne_counterKey hp (hwrite key counter rfl)) counter⟩

end Server

section Runs

/--
The numbers of a second are 1, 2, 3 and so on, where those that were lost are `unseen`.
-/
structure Counting (p : Bytes) (second m : Nat) (unseen : List Int) (s : Requests) : Prop where
  perm : ((s.threads.flatMap fun t => countsAt (counterKey p second) t.history) ++ unseen).Perm
    (FixedWindow.firstCounts m)
  key : FixedWindow.KeyCounts (counterKey p second) second m s.shared

theorem countsAt_append (key : Bytes) (h h' : List ApiEvent)
    : countsAt key (h ++ h') = countsAt key h ++ countsAt key h' := by
  unfold countsAt
  rw [numbers_append, List.filter_append, List.map_append]

theorem Kept.moved (hkept : Kept rules_ start server.clock t) (hclean : ∀ r ∈ rules_, 0 ∉ r.pathPattern)
    (hp : 0 ∉ p) (htime : CallInTime server.clock t)
    (hkey : FixedWindow.KeyCounts (counterKey p second) second m server)
    (hstep : Threads.advance (answer rules_) server t choice = some (server', t'))
    : server'.clock = server.clock ∧ ∃ seen,
        countsAt (counterKey p second) t'.history = countsAt (counterKey p second) t.history ++ seen ∧
        Moved (counterKey p second) second m server' seen choice := by
  obtain ⟨o, next, r, hnow, hanswer, rfl⟩ := Threads.advance_eq_some hstep
  have happend := countsAt_append (counterKey p second) t.history [⟨o, r⟩]
  by_cases ho : ∃ via cmd, o = .command via cmd
  . obtain ⟨via, cmd, rfl⟩ := ho
    have hincr : cmd = .incr (counterKey p second) →
        1000000000 * second ≤ server.clock ∧ server.clock < 1000000000 * (second + 2) := by
      rintro rfl
      obtain ⟨rule, second', hrule, heq, _, hbegun, hlate⟩ := hkept.incr hnow htime
      obtain ⟨i, _, hrow⟩ := Option.bind_eq_some_iff.mp hrule
      obtain ⟨_, rfl⟩ := counterKey_injective hp (hclean rule (List.mem_of_getElem? hrow)) heq
      exact ⟨hbegun, hlate⟩
    have hexpire : ∀ key seconds, cmd = .expire key seconds → seconds = 2 := by
      rintro key seconds rfl
      have hdeadlines := hkept.deadlines
      rw [hnow] at hdeadlines
      obtain ⟨_, hallowed, _⟩ := hdeadlines none
      rw [Timed.deadlines, Option.ite_none_right_eq_some] at hallowed
      exact hallowed.1
    obtain ⟨hclock, hmoved⟩ := moved_of_redisAnswer via hkey hincr hexpire hanswer
    exact ⟨hclock, _, happend, hmoved⟩
  . rw [countsAt_of_not_incr (by
      rintro via key rfl
      exact ho ⟨via, _, rfl⟩)] at happend
    rw [answer_of_not_command (fun via cmd heq => ho ⟨via, cmd, heq⟩) hanswer]
    exact ⟨rfl, [], happend, .same _ hkey⟩

theorem Counting.step {l : Label} (h : Counting p second m unseen s)
    (hclean : ∀ r ∈ rules_, 0 ∉ r.pathPattern) (hp : 0 ∉ p)
    (hkept : ∀ t ∈ s.threads, Kept rules_ start s.shared.clock t) (htime : Timely p s l)
    (hl : Timed.step rules_ s l = some s')
    : ∃ m' unseen', Counting p second m' unseen' s' ∧ ((∀ i, l ≠ .step i .lost) → unseen' = unseen) := by
  cases l with
  | start raw =>
    rw [Threads.step_start hl]
    refine ⟨m, unseen, ⟨?_, h.key⟩, fun _ => rfl⟩
    have hnone (now : ApiProg (Except StdException Unit))
        : (([⟨raw, [], now⟩] : List Request).flatMap fun t => countsAt (counterKey p second) t.history)
            = [] := rfl
    rw [List.flatMap_append, hnone, List.append_nil]
    exact h.perm
  | step i choice =>
    obtain ⟨t, shared, t', ht, hadvance, rfl⟩ := Threads.step_step hl
    obtain ⟨_, seen, hseen, hmoved⟩ := (hkept t (List.mem_of_getElem? ht)).moved hclean hp (htime t ht)
      h.key hadvance
    have hset := flatMap_set_perm (fun t => countsAt (counterKey p second) t.history) ht (b := t')
    rw [hseen, ← List.append_assoc] at hset
    have hall : ((s.threads.set i t').flatMap fun t => countsAt (counterKey p second) t.history).Perm
        ((s.threads.flatMap fun t => countsAt (counterKey p second) t.history) ++ seen) := by
      rw [← List.perm_append_right_iff (countsAt (counterKey p second) t.history)]
      apply hset.trans
      rw [List.append_assoc, List.append_assoc]
      exact List.perm_append_comm.append_left _
    have hperm := hall.append_right unseen
    cases hmoved with
    | same _ hkey =>
      rw [List.append_nil] at hperm
      exact ⟨m, unseen, ⟨hperm.trans h.perm, hkey⟩, fun _ => rfl⟩
    | next _ hkey =>
      refine ⟨m + 1, unseen, ⟨hperm.trans ?_, hkey⟩, fun _ => rfl⟩
      rw [FixedWindow.firstCounts_succ, List.append_assoc]
      apply (List.perm_append_comm.append_left _).trans
      rw [← List.append_assoc]
      exact h.perm.append_right _
    | lost hkey =>
      refine ⟨m + 1, unseen ++ [(m : Int) + 1], ⟨?_, hkey⟩, fun hnone => absurd rfl (hnone i)⟩
      rw [List.append_nil] at hall
      rw [FixedWindow.firstCounts_succ, ← List.append_assoc]
      exact ((hall.append_right unseen).trans h.perm).append_right _
  | env e =>
    obtain ⟨shared, he, rfl⟩ := Threads.exists_of_step_env hl
    have hwrite : ∀ key counter, e = .write key counter → ¬counterPrefix p <+: key := by
      rintro key counter rfl
      exact htime
    exact ⟨m, unseen, ⟨h.perm, (moved_of_outside hp h.key hwrite he).2⟩, fun _ => rfl⟩

structure Law (rules_ : List RouteRule) (p : Bytes) (start : Nat) (lossless : Prop) (s : Requests) : Prop where
  begun : start ≤ s.shared.clock
  kept : ∀ t ∈ s.threads, Kept rules_ start s.shared.clock t
  counting : ∀ second, ∃ m unseen, Counting p second m unseen s ∧ (lossless → unseen = [])

variable {lossless : Prop}

theorem Law.step {l : Label} (h : Law rules_ p start lossless s) (hclean : ∀ r ∈ rules_, 0 ∉ r.pathPattern)
    (hp : 0 ∉ p) (htime : Timely p s l) (hlossless : lossless → ∀ i, l ≠ .step i .lost)
    (hl : Timed.step rules_ s l = some s') : Law rules_ p start lossless s' := by
  have hcounting : ∀ second, ∃ m unseen, Counting p second m unseen s' ∧ (lossless → unseen = []) := by
    intro second
    obtain ⟨m, unseen, hcounting, hnone⟩ := h.counting second
    obtain ⟨m', unseen', hcounting', hsame⟩ := hcounting.step hclean hp h.kept htime hl
    exact ⟨m', unseen', hcounting', fun hlossy => (hsame (hlossless hlossy)).trans (hnone hlossy)⟩
  obtain ⟨m, unseen, hfirst, _⟩ := h.counting 0
  cases l with
  | start raw =>
    refine ⟨?_, ?_, hcounting⟩ <;> rw [Threads.step_start hl]
    . exact h.begun
    . intro t ht
      rw [List.mem_append, List.mem_singleton] at ht
      cases ht with
      | inl hold => exact h.kept t hold
      | inr hnew =>
        rw [hnew]
        exact kept_arrived raw
  | step i choice =>
    obtain ⟨t, shared, t', ht, hadvance, rfl⟩ := Threads.step_step hl
    have hkept := h.kept t (List.mem_of_getElem? ht)
    obtain ⟨hclock, _⟩ := hkept.moved hclean hp (htime t ht) hfirst.key hadvance
    refine ⟨hclock ▸ h.begun, ?_, hcounting⟩
    intro t₁ ht₁
    rw [hclock]
    cases List.mem_or_eq_of_mem_set ht₁ with
    | inl hold => exact h.kept t₁ hold
    | inr hnew =>
      rw [hnew]
      exact hkept.advance h.begun (htime t ht) hadvance
  | env e =>
    obtain ⟨shared, he, rfl⟩ := Threads.exists_of_step_env hl
    have hwrite : ∀ key counter, e = .write key counter → ¬counterPrefix p <+: key := by
      rintro key counter rfl
      exact htime
    have hle := (moved_of_outside hp hfirst.key hwrite he).1
    exact ⟨h.begun.trans hle, fun t ht => (h.kept t ht).mono hle, hcounting⟩

theorem law_init {server : Server} (hmissing : ∀ second, server.counters (counterKey p second) = none)
    : Law rules_ p server.clock lossless ⟨server, []⟩ where
  begun := le_refl _
  kept := by simp
  counting := fun second => ⟨0, [], ⟨.refl _, .missing rfl (hmissing second)⟩, fun _ => rfl⟩

end Runs

section Outcomes

def isPass : Visible → Bool
  | .script (some (.integer 1)) => true
  | _ => false

/--
The script did not answer, and `DistributedRateLimiter::isAllowed` returns true.
-/
def isFailOpen : Visible → Bool
  | .script none => true
  | _ => false

def isUncounted : Visible → Bool
  | .count (some (.integer _)) => false
  | .count _ => true
  | _ => false

def passed (t : Request) : Bool := (visible t.history).any isPass

def failedOpen (t : Request) : Bool := (visible t.history).any isFailOpen

def uncounted (t : Request) : Bool := (visible t.history).any isUncounted

def countedIn (p : Bytes) (second : Nat) (t : Request) : Bool :=
  countsAt (counterKey p second) t.history ≠ []

def served (t : Request) : Bool := .answer (Bytes.ofNat 200) ∈ visible t.history

inductive Outcome (rule : RouteRule) : List Visible → Prop where
  | rejected : Outcome rule [.answer (Bytes.ofNat 401)]
  | passed (reply : Option RedisReply) (hpass : reply = none ∨ reply = some (.integer 1))
      : Outcome rule [.script reply, .answer (Bytes.ofNat 200)]
  | uncounted (reply reply' : Option RedisReply) (hdenied : ¬(reply = none ∨ reply = some (.integer 1)))
      (hreply' : ∀ n, reply' ≠ some (.integer n))
      : Outcome rule [.script reply, .count reply', .answer (Bytes.ofNat 200)]
  | counted (reply : Option RedisReply) (n : Int) (hdenied : ¬(reply = none ∨ reply = some (.integer 1)))
      : Outcome rule [.script reply, .count (some (.integer n)),
          .answer (if n ≤ rule.rateLimit then Bytes.ofNat 200 else Bytes.ofNat 429)]

theorem outcome_of_limited {seen : List Visible} {allowed : Bool} (hlimit : 0 < rule.rateLimit)
    (h : Limited rule seen allowed)
    : Outcome rule (seen ++ [.answer (if allowed then Bytes.ofNat 200 else Bytes.ofNat 429)]) := by
  obtain ⟨reply, h⟩ := h
  split at h
  . next hpass =>
    obtain ⟨rfl, rfl⟩ := h
    exact .passed reply hpass
  . next hdenied =>
    obtain ⟨reply', rfl, hallowed⟩ := h
    by_cases hinteger : ∃ n, reply' = some (.integer n)
    . obtain ⟨n, rfl⟩ := hinteger
      simp only [hallowed]
      exact .counted reply n hdenied
    . have hlost : RedisClient.countOf reply' = -1 := by
        unfold RedisClient.countOf
        split
        . next n => exact absurd ⟨n, rfl⟩ hinteger
        . rfl
      rw [if_pos (hallowed.mpr (by omega))]
      exact .uncounted reply reply' hdenied (not_exists.mp hinteger)

structure Tabled (rules_ : List RouteRule) (i : Nat) (rule : RouteRule) (h : List ApiEvent) : Prop where
  matched : ∀ path found, (⟨.routerMatch path, found⟩ : ApiEvent) ∈ h → found = Router.match 0 rules_ path
  reads : Reads ⟨0, i⟩ rule h

theorem outcome_of_returns {raw : Bytes} {x : Except StdException Unit} {i : Nat}
    (hr : Prog.Returns (processApiRequest raw) h x) (hi : ruleOf rules_ raw = some i)
    (htabled : Tabled rules_ i rule h) (hlimit : 0 < rule.rateLimit) : Outcome rule (visible h) := by
  obtain ⟨start, h', hvisible, hsub, hprocess⟩ := returns_of_ruleOf hi hr htabled.matched
  rw [hvisible]
  have hreads : Reads ⟨0, i⟩ rule h' := fun r' hmem => htabled.reads r' (hsub _ hmem)
  rcases visible_processMatched hprocess hreads hlimit with hrejected | ⟨seen, allowed, hlimited, hseen⟩
  . rw [hrejected]
    exact .rejected
  . rw [hseen]
    exact outcome_of_limited hlimit hlimited

theorem Outcome.notMem_dropLast {v : List Visible} (h : Outcome rule v) (code : Bytes)
    : .answer code ∉ v.dropLast := by
  cases h <;> simp

section Requests

variable {i : Nat}

theorem tabled_of_runs (hruns : Threads.Runs processApiRequest (Keyed.FromTable rules_) t)
    (hrow : rules_[i]? = some rule) : Tabled rules_ i rule t.history where
  matched := fun path found hmem => hruns.replies _ hmem
  reads := by
    intro r' hmem
    have hread : rules_[i]? = some r' := hruns.replies _ hmem
    rw [hrow, Option.some.injEq] at hread
    exact hread.symm

theorem outcome_of_finished (hruns : Threads.Runs processApiRequest (Keyed.FromTable rules_) t)
    (hrule : Keyed.ruleFor rules_ t.input = some rule) (hlimit : 0 < rule.rateLimit)
    (hfinished : Threads.Finished t) : Outcome rule (visible t.history) := by
  obtain ⟨i, hi, hrow⟩ := Option.bind_eq_some_iff.mp hrule
  obtain ⟨x, hx⟩ := hfinished
  have hdoes := hruns.does
  rw [hx] at hdoes
  exact outcome_of_returns hdoes hi (tabled_of_runs hruns hrow) hlimit

def tableReply (rules_ : List RouteRule) (rule : RouteRule) : (o : ApiOp) → o.Reply
  | .add _ _ | .send _ => ()
  | .steadyNow | .systemNow => (0 : Int)
  | .routerMatch path => Router.match 0 rules_ path
  | .readRule _ => rule
  | .command _ _ => (none : Option RedisReply)

theorem outcome_of_served (hruns : Threads.Runs processApiRequest (Keyed.FromTable rules_) t)
    (hrule : Keyed.ruleFor rules_ t.input = some rule) (hlimit : 0 < rule.rateLimit)
    (hserved : served t = true) : Outcome rule (visible t.history) := by
  obtain ⟨i, hi, hrow⟩ := Option.bind_eq_some_iff.mp hrule
  have htabled := tabled_of_runs hruns hrow
  have hrest := Prog.returns_play (tableReply rules_ rule) t.now
  have hreplies : ∀ e ∈ (t.now.play (tableReply rules_ rule)).1, e.reply = tableReply rules_ rule e.op :=
    fun e he => Prog.eq_of_mem_play (tableReply rules_ rule) he
  generalize (t.now.play (tableReply rules_ rule)).1 = h' at hrest hreplies
  have hall : Tabled rules_ i rule (t.history ++ h') := by
    constructor
    . intro path found hmem
      rw [List.mem_append] at hmem
      cases hmem with
      | inl hold => exact htabled.matched path found hold
      | inr hnew => exact hreplies _ hnew
    . intro r' hmem
      rw [List.mem_append] at hmem
      cases hmem with
      | inl hold => exact htabled.reads r' hold
      | inr hnew => exact hreplies _ hnew
  have houtcome := outcome_of_returns (hruns.does.trans hrest) hi hall hlimit
  rw [visible_append] at houtcome
  have hend : visible h' = [] := by
    by_contra hne
    have hlast := houtcome.notMem_dropLast (Bytes.ofNat 200)
    rw [List.dropLast_append_of_ne_nil hne, List.mem_append, not_or] at hlast
    exact hlast.1 (of_decide_eq_true hserved)
  rwa [hend, List.append_nil] at houtcome

end Requests

def numberOf : Visible → Option Int
  | .count (some (.integer n)) => some n
  | _ => none

section Seen

variable {reply : Option RedisReply}

theorem isPass_script (hdenied : ¬(reply = none ∨ reply = some (.integer 1)))
    : isPass (.script reply) = false ∧ isFailOpen (.script reply) = false := by
  rw [not_or] at hdenied
  constructor
  . unfold isPass
    split
    . next heq =>
      rw [Visible.script.injEq] at heq
      exact absurd heq hdenied.2
    . rfl
  . unfold isFailOpen
    split
    . next heq =>
      rw [Visible.script.injEq] at heq
      exact absurd heq hdenied.1
    . rfl

theorem isUncounted_count (hreply : ∀ n, reply ≠ some (.integer n))
    : isUncounted (.count reply) = true ∧ numberOf (.count reply) = none := by
  match reply with
  | some (.integer n) => exact absurd rfl (hreply n)
  | none | some (.string _) | some (.status _) | some .nil | some (.error _) => exact ⟨rfl, rfl⟩

end Seen

theorem filterMap_numberOf (h : List ApiEvent)
    : (visible h).filterMap numberOf = (numbers h).map Prod.snd := by
  induction h with
  | nil => rfl
  | cons e h ih =>
    have hvisible : visible ([e] ++ h) = visible [e] ++ visible h := visible_append
    have hnumbers : numbers ([e] ++ h) = numbers [e] ++ numbers h := numbers_append
    rw [← List.singleton_append, hvisible, hnumbers, List.filterMap_append, List.map_append, ih, List.append_cancel_right_eq]
    obtain ⟨o, r⟩ := e
    cases o with
    | command via cmd =>
      cases cmd with
      | incr key =>
        cases r with
        | none => rfl
        | some reply => cases reply <;> rfl
      | eval | get | expire | xadd => rfl
    | add | steadyNow | systemNow | routerMatch | readRule | send => rfl

/--
A request is answered 200 because the script let it pass or did not answer, because it was not counted,
or because it was counted within the limit.
-/
theorem served_of_outcome (h : Outcome rule (visible t.history))
    : (served t).toNat
        =
      (passed t).toNat + (failedOpen t).toNat + (uncounted t).toNat +
          (numbers t.history).countP (·.2 ≤ rule.rateLimit) ∧
        (numbers t.history).length ≤ 1 := by
  have hcount : (numbers t.history).countP (·.2 ≤ rule.rateLimit)
      = ((visible t.history).filterMap numberOf).countP (· ≤ rule.rateLimit) := by
    rw [filterMap_numberOf, List.countP_map]
    rfl
  have hlength : (numbers t.history).length = ((visible t.history).filterMap numberOf).length := by
    rw [filterMap_numberOf, List.length_map]
  rw [hcount, hlength]
  unfold served passed failedOpen uncounted
  generalize visible t.history = v at h ⊢
  have hunauthorized : Bytes.ofNat 200 ≠ Bytes.ofNat 401 := by decide
  have htooMany : Bytes.ofNat 200 ≠ Bytes.ofNat 429 := by decide
  cases h with
  | rejected => simp [List.filterMap_cons, numberOf, isPass, isFailOpen, isUncounted, hunauthorized]
  | passed reply hpass =>
    rcases hpass with rfl | rfl <;> simp [List.filterMap_cons, numberOf, isPass, isFailOpen, isUncounted]
  | uncounted reply reply' hdenied hreply' =>
    obtain ⟨huncounted, hnumber⟩ := isUncounted_count hreply'
    have hserved : decide (Visible.answer (Bytes.ofNat 200)
        ∈ [.script reply, .count reply', .answer (Bytes.ofNat 200)]) = true := by simp
    have hpassed : [.script reply, .count reply', .answer (Bytes.ofNat 200)].any isPass = false := by
      rw [List.any_cons, (isPass_script hdenied).1]
      rfl
    have hopen : [.script reply, .count reply', .answer (Bytes.ofNat 200)].any isFailOpen = false := by
      rw [List.any_cons, (isPass_script hdenied).2]
      rfl
    have hcounts : [.script reply, .count reply', .answer (Bytes.ofNat 200)].filterMap numberOf = [] := by
      rw [List.filterMap_cons_none rfl, List.filterMap_cons_none hnumber]
      rfl
    have huncounted : [.script reply, .count reply', .answer (Bytes.ofNat 200)].any isUncounted = true := by
      simp only [List.any_cons, huncounted, Bool.true_or, Bool.or_true]
    rw [hserved, hpassed, hopen, huncounted, hcounts]
    exact ⟨rfl, Nat.zero_le _⟩
  | counted reply n hdenied =>
    have hpassed : ∀ code, [.script reply, .count (some (.integer n)), .answer code].any isPass = false := by
      intro code
      rw [List.any_cons, (isPass_script hdenied).1]
      rfl
    have hopen : ∀ code, [.script reply, .count (some (.integer n)), .answer code].any isFailOpen
        = false := by
      intro code
      rw [List.any_cons, (isPass_script hdenied).2]
      rfl
    have hcounts : ∀ code, [.script reply, .count (some (.integer n)), .answer code].filterMap numberOf
        = [n] := fun code => rfl
    have huncounted : ∀ code, [.script reply, .count (some (.integer n)), .answer code].any isUncounted
        = false := fun code => rfl
    rw [hpassed, hopen, huncounted, hcounts, List.countP_singleton]
    split
    . next hle => simp [hle]
    . next hgt => simp [hgt, htooMany]

end Outcomes

section Sums

def requestsOf (rules_ : List RouteRule) (rule : RouteRule) (s : Requests) : List Request :=
  s.threads.filter fun t => Keyed.ruleFor rules_ t.input = some rule

abbrev seconds (start clock : Nat) : Finset Nat := Finset.Icc (start / 1000000000) (clock / 1000000000)

theorem Kept.sum_countP (h : Kept rules_ start clock t) (hclean : ∀ r ∈ rules_, 0 ∉ r.pathPattern)
    (hrule : Keyed.ruleFor rules_ t.input = some rule) (q : Int → Bool)
    : ∑ second ∈ seconds start clock, (countsAt (counterKey rule.pathPattern second) t.history).countP q
        =
      (numbers t.history).countP fun kn => q kn.2 := by
  obtain ⟨i, _, hrow⟩ := Option.bind_eq_some_iff.mp hrule
  have hp := hclean rule (List.mem_of_getElem? hrow)
  have hinj : Set.InjOn (counterKey rule.pathPattern) (seconds start clock) :=
    fun a _ b _ heq => (counterKey_injective hp hp heq).2
  rw [← sum_countP_filter hinj]
  . apply Finset.sum_congr rfl
    intro second _
    unfold countsAt
    rw [List.countP_map]
    rfl
  . intro kn hkn
    obtain ⟨rule', second, hrule', hkey, hfrom, hto⟩ := h.counted kn hkn
    rw [hrule, Option.some.injEq] at hrule'
    subst hrule'
    exact ⟨second, Finset.mem_Icc.mpr ⟨hfrom, hto⟩, hkey⟩

theorem sum_ways (ts : List Request) (p : Bytes) (S : Finset Nat) (q : Int → Bool)
    : (ts.map fun t => (passed t).toNat + (failedOpen t).toNat + (uncounted t).toNat +
          ∑ second ∈ S, (countsAt (counterKey p second) t.history).countP q).sum
        =
      ts.countP passed + ts.countP failedOpen + ts.countP uncounted +
        ∑ second ∈ S, (ts.flatMap fun t => countsAt (counterKey p second) t.history).countP q := by
  have hcounted : (ts.map fun t => ∑ second ∈ S, (countsAt (counterKey p second) t.history).countP q).sum
      = ∑ second ∈ S, (ts.flatMap fun t => countsAt (counterKey p second) t.history).countP q := by
    rw [sum_map_sum]
    apply Finset.sum_congr rfl
    intro second _
    rw [List.countP_flatMap]
    rfl
  rw [List.sum_map_add, List.sum_map_add, List.sum_map_add, hcounted, ← countP_eq_sum, ← countP_eq_sum,
    ← countP_eq_sum]

theorem countP_countedIn {ts : List Request} (h : ∀ t ∈ ts, (numbers t.history).length ≤ 1)
    : ts.countP (countedIn p second)
        =
      (ts.flatMap fun t => countsAt (counterKey p second) t.history).length := by
  rw [countP_eq_sum, List.length_flatMap]
  apply congrArg
  apply List.map_congr_left
  intro t ht
  have hlength : (countsAt (counterKey p second) t.history).length ≤ 1 := by
    unfold countsAt
    rw [List.length_map]
    exact (List.length_filter_le _ _).trans (h t ht)
  unfold countedIn
  generalize countsAt (counterKey p second) t.history = numbers at hlength ⊢
  match numbers with
  | [] => rfl
  | [n] => rfl
  | _ :: _ :: _ => simp at hlength

theorem Law.flatMap_requestsOf {lossless : Prop} (h : Law rules_ rule.pathPattern start lossless s)
    (hclean : ∀ r ∈ rules_, 0 ∉ r.pathPattern) (hsome : ∃ t, t ∈ requestsOf rules_ rule s)
    : ((requestsOf rules_ rule s).flatMap fun t => countsAt (counterKey rule.pathPattern second) t.history)
        =
      s.threads.flatMap fun t => countsAt (counterKey rule.pathPattern second) t.history := by
  obtain ⟨t₀, ht₀⟩ := hsome
  have hrule₀ := of_decide_eq_true (List.mem_filter.mp ht₀).2
  apply flatMap_filter_of_nil
  intro t ht hother
  rw [decide_eq_false_iff_not] at hother
  by_contra hne
  obtain ⟨n, hn⟩ := List.exists_mem_of_ne_nil _ hne
  obtain ⟨kn, hkn, _⟩ := List.mem_map.mp hn
  obtain ⟨hmem, hkey⟩ := List.mem_filter.mp hkn
  obtain ⟨rule', second', hrule', hkey', _⟩ := (h.kept t ht).counted kn hmem
  rw [hrule'] at hother
  rw [of_decide_eq_true hkey] at hkey'
  have hclean' : ∀ {raw : Bytes} {r : RouteRule}, Keyed.ruleFor rules_ raw = some r → 0 ∉ r.pathPattern := by
    intro raw r hr
    obtain ⟨i, _, hrow⟩ := Option.bind_eq_some_iff.mp hr
    exact hclean r (List.mem_of_getElem? hrow)
  obtain ⟨hpattern, _⟩ := counterKey_injective (hclean' hrule₀) (hclean' hrule') hkey'
  exact hother (by rw [ruleFor_eq_of_pattern hrule₀ hrule' hpattern])

end Sums

theorem countP_firstCounts (m : Nat) {limit : Int} (hlimit : 0 < limit)
    : (FixedWindow.firstCounts m).countP (· ≤ limit) = min m limit.toNat := by
  have h := FixedWindow.countP_firstCounts m hlimit.le
  omega

section Main

variable {initial : Server} {ls : List Label}

theorem runs_of_exec (hexec : exec (step rules_) ⟨initial, []⟩ ls = some s)
    : ∀ t ∈ s.threads, Threads.Runs processApiRequest (Keyed.FromTable rules_) t :=
  Threads.runs_exec (fun _ _ _ _ _ hanswer => fromTable_of_answer hanswer) hexec

theorem law_of_exec (lossless : Prop) (hclean : ∀ r ∈ rules_, 0 ∉ r.pathPattern) (hp : 0 ∉ p)
    (hmissing : ∀ second, initial.counters (counterKey p second) = none)
    (htime : Meets (step rules_) (Timely p) ⟨initial, []⟩ ls)
    (hlossless : lossless → ∀ i, .step i .lost ∉ ls)
    (hexec : exec (step rules_) ⟨initial, []⟩ ls = some s)
    : Law rules_ p initial.clock lossless s := by
  apply exec_invariant_of_meets (step rules_)
    (fun s l => Timely p s l ∧ (lossless → ∀ i, l ≠ .step i .lost)) _ (law_init hmissing) _ hexec
  . intro s l s' hlaw hC hl
    exact hlaw.step hclean hp hC.1 hC.2 hl
  . apply htime.and_of_forall_mem
    rintro l hl hlossy i rfl
    exact hlossless hlossy i hl

theorem notMem_of_requestsOf (hclean : ∀ r ∈ rules_, 0 ∉ r.pathPattern)
    (ht : t ∈ requestsOf rules_ rule s) : 0 ∉ rule.pathPattern := by
  obtain ⟨i, _, hrow⟩ := Option.bind_eq_some_iff.mp (of_decide_eq_true (List.mem_filter.mp ht).2)
  exact hclean rule (List.mem_of_getElem? hrow)

/--
At every moment of every run a rule has given no more answers 200 than the script let pass, than calls
of the script and `INCR`s that got no number, and its rate for every second. Any call may fail, but an
`INCR` is executed within a second of the reading of the clock, and no other client writes the counters.
-/
theorem served_le (hclean : ∀ r ∈ rules_, 0 ∉ r.pathPattern) (hlimit : 0 < rule.rateLimit)
    (hmissing : ∀ second, initial.counters (counterKey rule.pathPattern second) = none)
    (htime : Meets (step rules_) (Timely rule.pathPattern) ⟨initial, []⟩ ls)
    (hexec : exec (step rules_) ⟨initial, []⟩ ls = some s)
    : (requestsOf rules_ rule s).countP served
        ≤
      (requestsOf rules_ rule s).countP passed + (requestsOf rules_ rule s).countP failedOpen +
        (requestsOf rules_ rule s).countP uncounted +
        (seconds initial.clock s.shared.clock).card * rule.rateLimit.toNat := by
  by_cases hsome : ∃ t, t ∈ requestsOf rules_ rule s
  . have hp := notMem_of_requestsOf hclean hsome.choose_spec
    have hlaw := law_of_exec False hclean hp hmissing htime (by simp) hexec
    have hone : ∀ t ∈ requestsOf rules_ rule s, (served t).toNat ≤
        (passed t).toNat + (failedOpen t).toNat + (uncounted t).toNat + ∑ second ∈ seconds initial.clock s.shared.clock,
          (countsAt (counterKey rule.pathPattern second) t.history).countP (· ≤ rule.rateLimit) := by
      intro t ht
      obtain ⟨hmem, hrule⟩ := List.mem_filter.mp ht
      cases hserved : served t with
      | false => exact Nat.zero_le _
      | true =>
        have houtcome := outcome_of_served (runs_of_exec hexec t hmem) (of_decide_eq_true hrule) hlimit hserved
        rw [(hlaw.kept t hmem).sum_countP hclean (of_decide_eq_true hrule), ← hserved,
          (served_of_outcome houtcome).1]
    have hsecond : ∀ second ∈ seconds initial.clock s.shared.clock,
        ((requestsOf rules_ rule s).flatMap fun t =>
          countsAt (counterKey rule.pathPattern second) t.history).countP (· ≤ rule.rateLimit)
          ≤ rule.rateLimit.toNat := by
      intro second _
      obtain ⟨m, unseen, hcounting, _⟩ := hlaw.counting second
      have hcount := hcounting.perm.countP_eq (· ≤ rule.rateLimit)
      rw [List.countP_append, countP_firstCounts m hlimit] at hcount
      rw [hlaw.flatMap_requestsOf hclean hsome]
      omega
    calc
      _ = ((requestsOf rules_ rule s).map fun t => (served t).toNat).sum := countP_eq_sum _ _
      _ ≤ _ := List.sum_le_sum hone
      _ = _ := sum_ways _ _ _ _
      _ ≤ _ := Nat.add_le_add_left (Finset.sum_le_card_nsmul _ _ _ hsecond) _
  . have hnil : requestsOf rules_ rule s = [] :=
      List.eq_nil_iff_forall_not_mem.mpr (not_exists.mp hsome)
    rw [hnil]
    exact Nat.zero_le _

/--
Where every `INCR` that is executed is answered, a rule has answered 200 exactly to the requests that
the script let pass, those at which it did not answer, those that could not be counted, and of those
that were counted in a second to as many as its rate allows.
-/
theorem served_eq (hclean : ∀ r ∈ rules_, 0 ∉ r.pathPattern) (hlimit : 0 < rule.rateLimit)
    (hmissing : ∀ second, initial.counters (counterKey rule.pathPattern second) = none)
    (htime : Meets (step rules_) (Timely rule.pathPattern) ⟨initial, []⟩ ls)
    (hlossless : ∀ i, .step i .lost ∉ ls)
    (hexec : exec (step rules_) ⟨initial, []⟩ ls = some s)
    (hfinished : ∀ t ∈ s.threads, Threads.Finished t)
    : (requestsOf rules_ rule s).countP served
        =
      (requestsOf rules_ rule s).countP passed + (requestsOf rules_ rule s).countP failedOpen +
        (requestsOf rules_ rule s).countP uncounted +
        ∑ second ∈ seconds initial.clock s.shared.clock,
          min ((requestsOf rules_ rule s).countP (countedIn rule.pathPattern second)) rule.rateLimit.toNat := by
  by_cases hsome : ∃ t, t ∈ requestsOf rules_ rule s
  . have hp := notMem_of_requestsOf hclean hsome.choose_spec
    have hlaw := law_of_exec True hclean hp hmissing htime (fun _ => hlossless) hexec
    have houtcome : ∀ t ∈ requestsOf rules_ rule s, Outcome rule (visible t.history) := by
      intro t ht
      obtain ⟨hmem, hrule⟩ := List.mem_filter.mp ht
      exact outcome_of_finished (runs_of_exec hexec t hmem) (of_decide_eq_true hrule) hlimit
        (hfinished t hmem)
    have hone : ∀ t ∈ requestsOf rules_ rule s, (served t).toNat =
        (passed t).toNat + (failedOpen t).toNat + (uncounted t).toNat + ∑ second ∈ seconds initial.clock s.shared.clock,
          (countsAt (counterKey rule.pathPattern second) t.history).countP (· ≤ rule.rateLimit) := by
      intro t ht
      obtain ⟨hmem, hrule⟩ := List.mem_filter.mp ht
      rw [(hlaw.kept t hmem).sum_countP hclean (of_decide_eq_true hrule),
        (served_of_outcome (houtcome t ht)).1]
    have hsecond : ∀ second ∈ seconds initial.clock s.shared.clock,
        ((requestsOf rules_ rule s).flatMap fun t =>
          countsAt (counterKey rule.pathPattern second) t.history).countP (· ≤ rule.rateLimit)
          = min ((requestsOf rules_ rule s).countP (countedIn rule.pathPattern second))
              rule.rateLimit.toNat := by
      intro second _
      obtain ⟨m, unseen, hcounting, hnone⟩ := hlaw.counting second
      have hperm := hcounting.perm
      rw [hnone trivial, List.append_nil, ← hlaw.flatMap_requestsOf hclean hsome] at hperm
      have hlength : (requestsOf rules_ rule s).countP (countedIn rule.pathPattern second) = m := by
        rw [countP_countedIn fun t ht => (served_of_outcome (houtcome t ht)).2, hperm.length_eq]
        simp [FixedWindow.firstCounts]
      rw [hperm.countP_eq, countP_firstCounts m hlimit, hlength]
    calc
      _ = ((requestsOf rules_ rule s).map fun t => (served t).toNat).sum := countP_eq_sum _ _
      _ = _ := congrArg List.sum (List.map_congr_left hone)
      _ = _ := sum_ways _ _ _ _
      _ = _ := congrArg _ (Finset.sum_congr rfl hsecond)
  . have hnil : requestsOf rules_ rule s = [] :=
      List.eq_nil_iff_forall_not_mem.mpr (not_exists.mp hsome)
    rw [hnil]
    simp

end Main

section Witness

def untilScript (i : Nat) (reply : Int) : List Label :=
  .start getRootText ::
    [.go, .time 0, .go, .go, .go, .go, .go, .redis (some (.integer reply))].map (.step i)

def untilCount (i : Nat) : List Label := untilScript i 0 ++ [.step i .go, .step i .go]

def logged (i : Nat) : List Label := [.go, .time 0, .go, .redis none].map (.step i)

def untilSilence (i : Nat) : List Label :=
  .start getRootText :: [.go, .time 0, .go, .go, .go, .go, .go, .redis none].map (.step i)

/--
The script lets one request pass. Of the others one is counted within the limit and one beyond it, in
the next second one is counted, one gets no number and one no reply of the script.
-/
def twoSeconds : List Label :=
  untilScript 0 1 ++ logged 0 ++
    untilCount 1 ++ [.step 1 .go, .step 1 .go] ++ logged 1 ++
    untilCount 2 ++ [.step 2 .go, .step 2 .go, .step 2 .go] ++
    [.env (.tick 1000000000)] ++
    untilCount 3 ++ [.step 3 .go, .step 3 .go] ++ logged 3 ++
    untilCount 4 ++ [.step 4 (.redis none)] ++ logged 4 ++
    untilSilence 5 ++ logged 5

def atSecondFive : Server := ⟨5900000000, fun _ => none⟩

def rootRule : RouteRule := ⟨Bytes.ofAscii "/", false, 1⟩

def keepsReply : Label → Bool
  | .step _ .lost => false
  | _ => true

theorem served_eq_twoSeconds
    : ∃ s, exec (step limitedRoot) ⟨atSecondFive, []⟩ twoSeconds = some s ∧
        (requestsOf limitedRoot rootRule s).countP served = 5 ∧
        (requestsOf limitedRoot rootRule s).countP served
          =
        (requestsOf limitedRoot rootRule s).countP passed +
          (requestsOf limitedRoot rootRule s).countP failedOpen +
          (requestsOf limitedRoot rootRule s).countP uncounted +
          ∑ second ∈ seconds 5900000000 s.shared.clock,
            min ((requestsOf limitedRoot rootRule s).countP (countedIn (Bytes.ofAscii "/") second)) 1 := by
  have hend := Option.eq_some_of_isSome
    (o := exec (step limitedRoot) ⟨atSecondFive, []⟩ twoSeconds) (by decide +kernel)
  have hlossless : twoSeconds.all keepsReply = true := by decide +kernel
  refine ⟨_, hend, by decide +kernel, ?_⟩
  exact @served_eq limitedRoot rootRule _ _ _ (by decide) (by decide) (fun _ => rfl) (by decide +kernel)
    (fun i hi => absurd (List.all_eq_true.mp hlossless _ hi) (by simp [keepsReply])) hend (by decide +kernel)

/--
The number of an executed `INCR` is lost, its request is answered 200 like the one before it.
-/
def lostCount : List Label :=
  untilCount 0 ++ [.step 0 .go, .step 0 .go] ++ logged 0 ++ untilCount 1 ++ [.step 1 .lost] ++ logged 1

theorem served_le_lostCount
    : ∃ s, exec (step limitedRoot) ⟨atSecondFive, []⟩ lostCount = some s ∧
        (requestsOf limitedRoot rootRule s).countP served = 2 ∧
        (requestsOf limitedRoot rootRule s).countP served
          ≤
        (requestsOf limitedRoot rootRule s).countP passed +
          (requestsOf limitedRoot rootRule s).countP failedOpen +
          (requestsOf limitedRoot rootRule s).countP uncounted +
          (seconds 5900000000 s.shared.clock).card * 1 := by
  have hend := Option.eq_some_of_isSome
    (o := exec (step limitedRoot) ⟨atSecondFive, []⟩ lostCount) (by decide +kernel)
  refine ⟨_, hend, by decide +kernel, ?_⟩
  exact @served_le limitedRoot rootRule _ _ _ (by decide) (by decide) (fun _ => rfl) (by decide +kernel) hend

end Witness

end Timed
end Gateway
end LFGateway
