import LFGateway.Foundation.ListSet
import LFGateway.Gateway.Lemmas.Auth
import LFGateway.Pools.Lemmas.Holding

/-!
This module contains that `RedisPool` neither loses nor duplicates a context, and that whoever holds
one gives it back without waiting, whatever calls run at the same time.
-/

namespace LFGateway
namespace Pools

open Foundation

abbrev PoolEvent := Event PoolOp PoolOp.Reply

/--
The contexts that were acquired and not released yet.
-/
def heldBy (h : List PoolEvent) : List Context :=
  h.foldl (fun held e =>
    match e with
    | ⟨.redisAcquire, ctx⟩ => held ++ [ctx]
    | ⟨.redisRelease ctx, _⟩ => held.erase ctx
    | _ => held) []

/--
The connections of MySQL that were acquired and not released yet.
-/
def connsHeldBy (h : List PoolEvent) : List Conn :=
  h.foldl (fun held e =>
    match e with
    | ⟨.mysqlAcquire, conn⟩ => held ++ conn.toList
    | ⟨.mysqlRelease conn, _⟩ => held.erase conn
    | _ => held) []

/--
The program releases `ctx`, and acquires nothing before.
-/
def ReleasesFirst (ctx : Context) : PoolProg Unit → Prop
  | .ret _ => False
  | .op o next =>
    o = .redisRelease ctx ∨
      (o ≠ .redisAcquire ∧ o ≠ .mysqlAcquire ∧ ∀ r, ReleasesFirst ctx (next r))

def AsksFor (o : PoolOp) (p : PoolProg Unit) : Prop := ∃ next, p = .op o next

def WaitsFor (s : Calls) (t t' : Running) : Prop :=
  (AsksFor .redisAcquire t.now ∧ s.shared.redis.pool_ = [] ∧ heldBy t'.history ≠ []) ∨
    (AsksFor .mysqlAcquire t.now ∧ s.shared.mysql.pool_ = [] ∧ connsHeldBy t'.history ≠ [])

/--
Some calls wait for each other only.
-/
def Deadlocked (s : Calls) : Prop :=
  ∃ waiting : List Running, waiting ≠ [] ∧
    ∀ t ∈ waiting, t ∈ s.threads ∧ ∃ t' ∈ waiting, WaitsFor s t t'

section Phase

variable {φ φ' : Holding} {h : List PoolEvent} {e : PoolEvent}

theorem heldBy_append : heldBy (h ++ [e]) =
    match e with
    | ⟨.redisAcquire, ctx⟩ => heldBy h ++ [ctx]
    | ⟨.redisRelease ctx, _⟩ => (heldBy h).erase ctx
    | _ => heldBy h := by
  unfold heldBy
  rw [List.foldl_append]
  rfl

theorem connsHeldBy_append : connsHeldBy (h ++ [e]) =
    match e with
    | ⟨.mysqlAcquire, conn⟩ => connsHeldBy h ++ conn.toList
    | ⟨.mysqlRelease conn, _⟩ => (connsHeldBy h).erase conn
    | _ => connsHeldBy h := by
  unfold connsHeldBy
  rw [List.foldl_append]
  rfl

theorem held_step {o : PoolOp} {r : o.Reply} (hφ : holding φ o r = some φ')
    (hredis : heldBy h = φ.redis.toList) (hmysql : connsHeldBy h = φ.mysql.toList)
    : heldBy (h ++ [⟨o, r⟩]) = φ'.redis.toList ∧ connsHeldBy (h ++ [⟨o, r⟩]) = φ'.mysql.toList := by
  rw [heldBy_append, connsHeldBy_append, hredis, hmysql]
  obtain ⟨redis, mysql⟩ := φ
  cases redis with
  | some ctx =>
    rcases holding_of_redis hφ with ⟨rfl, rfl⟩ | ⟨cmd, rfl, rfl⟩
    . exact ⟨List.erase_cons_head ctx [], rfl⟩
    . exact ⟨rfl, rfl⟩
  | none =>
    cases o with
    | redisAcquire | swapRules | api =>
      rw [holding, Option.some.injEq] at hφ
      rw [← hφ]
      exact ⟨rfl, rfl⟩
    | mysqlAcquire =>
      cases mysql with
      | none =>
        rw [holding, Option.some.injEq] at hφ
        rw [← hφ]
        exact ⟨rfl, rfl⟩
      | some conn => contradiction
    | mysqlQuery conn | mysqlStoreResult conn =>
      cases mysql with
      | none => contradiction
      | some c =>
        simp only [holding, Option.ite_none_right_eq_some, Option.some.injEq] at hφ
        rw [← hφ.2]
        exact ⟨rfl, rfl⟩
    | mysqlRelease conn =>
      cases mysql with
      | none => contradiction
      | some c =>
        simp only [holding, Option.ite_none_right_eq_some, Option.some.injEq] at hφ
        obtain ⟨rfl, rfl⟩ := hφ
        exact ⟨rfl, List.erase_cons_head conn []⟩
    | redisCommand | redisRelease => simp [holding] at hφ

end Phase

def Phased (t : Running) : Prop :=
  ∃ φ, Returnable φ t.now ∧ heldBy t.history = φ.redis.toList ∧ connsHeldBy t.history = φ.mysql.toList

/--
No context is lost, and none is in two places.
-/
def Conserved (redisSize : Nat) (s : Calls) : Prop :=
  (s.shared.redis.pool_ ++ s.threads.flatMap fun t => heldBy t.history).Perm (List.range redisSize)

def Calls.started (s : Calls) (call : Call) : Calls :=
  { s with threads := s.threads ++ [⟨call, [], call.body⟩] }

theorem Calls.step_start (s : Calls) (call : Call)
    : Calls.step s (.start call) = some (s.started call) := rfl

theorem Calls.getElem?_started (s : Calls) (call : Call)
    : (s.started call).threads[s.threads.length]? = some ⟨call, [], call.body⟩ := by
  simp [started]

theorem Calls.step_of_answer {s : Calls} {i : Nat} {t : Running} {choice : Choice} {o : PoolOp}
    {next : o.Reply → PoolProg Unit} {r : o.Reply} {shared : Shared} (ht : s.threads[i]? = some t)
    (hnow : t.now = .op o next) (hanswer : answer s.shared o choice = some (r, shared))
    : Calls.step s (.step i choice)
        =
      some ⟨shared, s.threads.set i { t with history := t.history ++ [⟨o, r⟩], now := next r }⟩ :=
  Threads.step_of_answer ht hnow hanswer

section Step

variable {s s' : Calls} {t t' : Running} {shared shared' : Shared} {choice : Choice}

theorem phased_start (call : Call) : Phased ⟨call, [], call.body⟩ :=
  ⟨⟨none, none⟩, returnable_body call, rfl, rfl⟩

theorem Phased.advance (h : Phased t)
    (hadvance : Threads.advance answer shared t choice = some (shared', t')) : Phased t' := by
  obtain ⟨o, next, r, hnow, _, rfl⟩ := Threads.advance_eq_some hadvance
  obtain ⟨φ, hreturnable, hredis, hmysql⟩ := h
  rw [hnow] at hreturnable
  obtain ⟨φ', hφ', hnext⟩ := hreturnable r
  exact ⟨φ', hnext, held_step hφ' hredis hmysql⟩

@[simp]
theorem command_pool {redis : RedisPool} {ctx : Context} {α : Type} {reply : Option α}
    : (redis.command ctx reply).2.pool_ = redis.pool_ := by
  unfold RedisPool.command
  split
  . rfl
  . split <;> rfl

theorem pool_advance (h : Phased t)
    (hadvance : Threads.advance answer shared t choice = some (shared', t'))
    : (heldBy t'.history ++ shared'.redis.pool_).Perm (heldBy t.history ++ shared.redis.pool_) := by
  obtain ⟨o, next, r, hnow, hanswer, rfl⟩ := Threads.advance_eq_some hadvance
  dsimp only
  rw [heldBy_append]
  cases o with
  | redisAcquire =>
    simp only [answer] at hanswer
    split at hanswer
    . contradiction
    . next ctx rest hpool =>
      rw [Option.some.injEq, Prod.mk.injEq] at hanswer
      obtain ⟨rfl, rfl⟩ := hanswer
      simp [hpool]
  | redisRelease ctx =>
    simp only [answer, Option.some.injEq, Prod.mk.injEq] at hanswer
    obtain ⟨_, rfl⟩ := hanswer
    obtain ⟨⟨redis, mysql⟩, hreturnable, hredis, _⟩ := h
    rw [hnow] at hreturnable
    obtain ⟨φ', hφ', _⟩ := hreturnable r
    cases redis with
    | none => simp [holding] at hφ'
    | some c =>
      rcases holding_of_redis hφ' with ⟨heq, _⟩ | ⟨_, heq, _⟩
      . rw [PoolOp.redisRelease.injEq] at heq
        rw [hredis, heq]
        simp only [Option.toList_some, List.erase_cons_head, List.nil_append]
        exact List.perm_append_comm
      . contradiction
  | mysqlAcquire =>
    simp only [answer] at hanswer
    split at hanswer
    . rw [Option.some.injEq, Prod.mk.injEq] at hanswer
      rw [← hanswer.2]
    . contradiction
  | redisCommand | mysqlQuery | mysqlStoreResult | mysqlRelease | swapRules | api =>
    simp only [answer, Option.some.injEq, Prod.mk.injEq] at hanswer
    obtain ⟨_, rfl⟩ := hanswer
    simp

structure Inv (redisSize : Nat) (s : Calls) : Prop where
  phased : ∀ t ∈ s.threads, Phased t
  conserved : Conserved redisSize s

theorem inv_init (redisSize mysqlSize : Nat) : Inv redisSize (init redisSize mysqlSize) := by
  constructor
  . simp [init]
  . simp [Conserved, init]

theorem Inv.step {redisSize : Nat} (h : Inv redisSize s) {l : Calls.Label}
    (hl : Calls.step s l = some s') : Inv redisSize s' := by
  cases l with
  | start call =>
    rw [Threads.step_start hl]
    constructor
    . intro t ht
      rw [List.mem_append, List.mem_singleton] at ht
      cases ht with
      | inl hold => exact h.phased t hold
      | inr heq =>
        rw [heq]
        exact phased_start call
    . have hconserved := h.conserved
      unfold Conserved at hconserved ⊢
      simpa [heldBy] using hconserved
  | step i choice =>
    obtain ⟨t, shared, t', ht, hadvance, rfl⟩ := Threads.step_step hl
    have hphased := h.phased t (List.mem_of_getElem? ht)
    constructor
    . intro t₁ ht₁
      cases List.mem_or_eq_of_mem_set ht₁ with
      | inl hold => exact h.phased t₁ hold
      | inr heq =>
        rw [heq]
        exact hphased.advance hadvance
    . have hperm := flatMap_set_perm_of_perm (fun t => heldBy t.history) ht
        (pool_advance hphased hadvance)
      exact (List.perm_append_comm.trans hperm).trans (List.perm_append_comm.trans h.conserved)
  | env e => contradiction

theorem inv_exec {redisSize mysqlSize : Nat} {ls : List Calls.Label}
    (h : exec Calls.step (init redisSize mysqlSize) ls = some s) : Inv redisSize s :=
  exec_invariant Calls.step (fun _ _ _ hs hl => hs.step hl) (inv_init redisSize mysqlSize) h

end Step

section Waiting

variable {s : Calls} {t : Running}

theorem releasesFirst_of_returnable {ctx : Context} {m : Option Conn} {p : PoolProg Unit}
    (h : Returnable ⟨some ctx, m⟩ p) : ReleasesFirst ctx p := by
  induction p with
  | ret a => simp [Phases.Conforms] at h
  | op o next ih =>
    have hallowed : o = .redisRelease ctx ∨ ∃ cmd, o = .redisCommand ctx cmd := by
      obtain ⟨r⟩ : Nonempty o.Reply := inferInstance
      obtain ⟨φ, hφ, _⟩ := h r
      rcases holding_of_redis hφ with ⟨heq, _⟩ | ⟨cmd, heq, _⟩
      . exact .inl heq
      . exact .inr ⟨cmd, heq⟩
    rcases hallowed with hrelease | ⟨cmd, rfl⟩
    . exact .inl hrelease
    . refine .inr ⟨by simp, by simp, ?_⟩
      intro r
      obtain ⟨φ, hφ, hnext⟩ := h r
      rcases holding_of_redis hφ with ⟨heq, _⟩ | ⟨_, _, rfl⟩
      . contradiction
      . exact ih r hnext

theorem Phased.releasesFirst {ctx : Context} (h : Phased t) (hheld : ctx ∈ heldBy t.history)
    : ReleasesFirst ctx t.now := by
  obtain ⟨⟨redis, mysql⟩, hreturnable, hredis, _⟩ := h
  rw [hredis] at hheld
  have heq : redis = some ctx := by simpa using hheld
  subst heq
  exact releasesFirst_of_returnable hreturnable

theorem not_asksFor_of_redis {ctx : Context} {m : Option Conn} {o : PoolOp}
    (ho : o = .redisAcquire ∨ o = .mysqlAcquire) (h : Returnable ⟨some ctx, m⟩ t.now)
    : ¬AsksFor o t.now := by
  rintro ⟨next, hnow⟩
  have hfirst := releasesFirst_of_returnable h
  rw [hnow] at hfirst
  rcases hfirst with hrelease | ⟨hredis, hmysql, _⟩
  . rw [hrelease] at ho
    simp at ho
  . exact ho.elim hredis hmysql

/--
Who holds a context waits for nothing.
-/
theorem not_waitsFor_of_heldBy {t' : Running} (h : Phased t) (hheld : heldBy t.history ≠ [])
    : ¬WaitsFor s t t' := by
  obtain ⟨⟨redis, mysql⟩, hreturnable, hredis, _⟩ := h
  cases redis with
  | none => exact absurd hredis hheld
  | some ctx =>
    rintro (⟨hasks, _⟩ | ⟨hasks, _⟩)
    . exact not_asksFor_of_redis (.inl rfl) hreturnable hasks
    . exact not_asksFor_of_redis (.inr rfl) hreturnable hasks

theorem not_asksFor_mysqlAcquire (h : Phased t) (hheld : connsHeldBy t.history ≠ [])
    : ¬AsksFor .mysqlAcquire t.now := by
  rintro ⟨next, hnow⟩
  obtain ⟨⟨redis, mysql⟩, hreturnable, _, hmysql⟩ := h
  cases mysql with
  | none => exact absurd hmysql hheld
  | some conn =>
    rw [hnow] at hreturnable
    obtain ⟨φ, hφ, _⟩ := hreturnable none
    cases redis <;> simp [holding] at hφ

theorem Inv.not_deadlocked {redisSize : Nat} (h : Inv redisSize s) : ¬Deadlocked s := by
  rintro ⟨waiting, hne, hwaiting⟩
  have hphased : ∀ t ∈ waiting, Phased t := fun t ht => h.phased t (hwaiting t ht).1
  -- whom a call of the set waits for holds no context, so it is a connection of MySQL that is
  -- waited for, and this is no reason for its holder to wait
  have hconns : ∀ t ∈ waiting, ∀ t' ∈ waiting, WaitsFor s t t' →
      AsksFor .mysqlAcquire t.now ∧ connsHeldBy t'.history ≠ [] := by
    intro t _ t' ht' hwaits
    obtain ⟨t'', _, hwaits'⟩ := (hwaiting t' ht').2
    rcases hwaits with ⟨_, _, hheld⟩ | ⟨hasks, _, hheld⟩
    . exact absurd hwaits' (not_waitsFor_of_heldBy (hphased t' ht') hheld)
    . exact ⟨hasks, hheld⟩
  obtain ⟨t, ht⟩ := List.exists_mem_of_ne_nil waiting hne
  obtain ⟨t', ht', hwaits⟩ := (hwaiting t ht).2
  obtain ⟨t'', ht'', hwaits'⟩ := (hwaiting t' ht').2
  obtain ⟨_, hheld⟩ := hconns t ht t' ht' hwaits
  obtain ⟨hasks, _⟩ := hconns t' ht' t'' ht'' hwaits'
  exact not_asksFor_mysqlAcquire (hphased t' ht') hheld hasks

end Waiting

/--
Whatever runs at the same time, every context is in the pool or in the hands of one call; where the
pool is empty, each is with a call that releases it before it acquires anything; and no calls wait for
each other.
-/
theorem contexts_conserved_and_returned {redisSize mysqlSize : Nat} {ls : List Calls.Label} {s : Calls}
    (h : exec Calls.step (init redisSize mysqlSize) ls = some s)
    : Conserved redisSize s ∧
      (s.shared.redis.pool_ = [] → ∀ ctx < redisSize, ∃ t ∈ s.threads,
        ctx ∈ heldBy t.history ∧ ReleasesFirst ctx t.now) ∧
      ¬Deadlocked s := by
  have hinv := inv_exec h
  refine ⟨hinv.conserved, ?_, hinv.not_deadlocked⟩
  intro hempty ctx hctx
  have hmem : ctx ∈ s.shared.redis.pool_ ++ s.threads.flatMap fun t => heldBy t.history := by
    rw [hinv.conserved.mem_iff]
    exact List.mem_range.mpr hctx
  rw [hempty, List.nil_append, List.mem_flatMap] at hmem
  obtain ⟨t, ht, hheld⟩ := hmem
  exact ⟨t, ht, hheld, (hinv.phased t ht).releasesFirst hheld⟩

def silence : Choice where
  reply
    | .redisAcquire => 0
    | .redisCommand _ .xreadgroup => none
    | .redisCommand _ (.ofApi _) => none
    | .redisCommand _ .xgroupCreate => none
    | .redisCommand _ (.xack _) => none
    | .redisRelease _ => ()
    | .mysqlAcquire => none
    | .mysqlQuery _ _ => false
    | .mysqlStoreResult _ => none
    | .mysqlRelease _ => ()
    | .swapRules _ => ()
    | .api o => Gateway.openReply [] (fun _ => none) o
  ending := .timeout

def oneContext : List Calls.Label := [.start .beginRun, .start .iteration, .step 0 silence]

theorem contexts_conserved_and_returned_oneContext
    : ∃ s, exec Calls.step (init 1 1) oneContext = some s ∧ s.shared.redis.pool_ = [] ∧
        (∃ t ∈ s.threads, 0 ∈ heldBy t.history ∧ ReleasesFirst 0 t.now) ∧ ¬Deadlocked s := by
  have hend := Option.eq_some_of_isSome (o := exec Calls.step (init 1 1) oneContext) (by decide)
  obtain ⟨_, hreturned, hfree⟩ := contexts_conserved_and_returned hend
  exact ⟨_, hend, by decide, hreturned (by decide) 0 (by decide), hfree⟩

end Pools
end LFGateway
