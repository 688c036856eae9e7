import LFGateway.Pools.Lemmas.Conservation

/-!
This module contains what one lost connection does to `RedisPool`: the context goes back into the pool
with its `err` flag set, nobody reconnects it, and sooner or later it is handed out again.
-/

namespace LFGateway
namespace Pools

open Foundation

variable {s s' : Calls} {l : Calls.Label} {ls : List Calls.Label}

/--
If the step is an `acquire` of `RedisPool`, the context it hands out is not broken. No code between
`acquire` and the command reconnects one that is.
-/
def HandsOutClean (s : Calls) : Calls.Label → Prop
  | .step i _ => ∀ t ∈ s.threads[i]?, AsksFor .redisAcquire t.now →
      ∀ ctx ∈ s.shared.redis.pool_.head?, s.shared.redis.err ctx = false
  | _ => True

/--
The connection to Redis does not fail in the step: if a command is sent over a context that is not
broken, there is a reply.
-/
def Healthy (s : Calls) : Calls.Label → Prop
  | .step i choice => ∀ t ∈ s.threads[i]?, ∀ ctx cmd next, t.now = .op (.redisCommand ctx cmd) next →
      s.shared.redis.err ctx = false → choice.reply (.redisCommand ctx cmd) ≠ none
  | _ => True

section Flags

variable {redis : RedisPool} {ctx ctx' : Context} {α : Type} {reply : Option α}

theorem command_err : (redis.command ctx reply).2.err ctx' = true
    ↔
  redis.err ctx' = true ∨ (ctx' = ctx ∧ redis.err ctx = false ∧ reply = none) := by
  unfold RedisPool.command
  split
  . next hbroken =>
    rw [or_iff_left]
    simp [hbroken]
  . next hok =>
    cases reply with
    | some value => simp
    | none =>
      simp only [Function.update_apply]
      split
      . next heq =>
        subst heq
        simp [hok]
      . next hne => simp [hne]

theorem err_of_answer {shared shared' : Shared} {o : PoolOp} {choice : Choice} {r : o.Reply}
    (h : answer shared o choice = some (r, shared'))
    : shared'.redis.err ctx' = true
        ↔
      shared.redis.err ctx' = true ∨ ∃ cmd, o = .redisCommand ctx' cmd ∧
        shared.redis.err ctx' = false ∧ choice.reply (.redisCommand ctx' cmd) = none := by
  cases o with
  | redisCommand ctx cmd =>
    simp only [answer, Option.some.injEq, Prod.mk.injEq] at h
    obtain ⟨_, rfl⟩ := h
    dsimp only
    rw [command_err]
    constructor
    . rintro (hold | ⟨rfl, hok, hreply⟩)
      . exact .inl hold
      . exact .inr ⟨cmd, rfl, hok, hreply⟩
    . rintro (hold | ⟨cmd', heq, hok, hreply⟩)
      . exact .inl hold
      . rw [PoolOp.redisCommand.injEq] at heq
        obtain ⟨rfl, rfl⟩ := heq
        exact .inr ⟨rfl, hok, hreply⟩
  | redisAcquire =>
    simp only [answer] at h
    split at h
    . contradiction
    . rw [Option.some.injEq, Prod.mk.injEq] at h
      rw [← h.2]
      simp
  | mysqlAcquire =>
    simp only [answer] at h
    split at h
    . rw [Option.some.injEq, Prod.mk.injEq] at h
      rw [← h.2]
      simp
    . contradiction
  | redisRelease | mysqlQuery | mysqlStoreResult | mysqlRelease | swapRules | api =>
    simp only [answer, Option.some.injEq, Prod.mk.injEq] at h
    rw [← h.2]
    simp

end Flags

section Clean

def AllClean (s : Calls) : Prop := ∀ ctx, s.shared.redis.err ctx = false

theorem AllClean.step (h : AllClean s) (hhealthy : Healthy s l) (hl : Calls.step s l = some s')
    : AllClean s' := by
  cases l with
  | start call =>
    rw [Threads.step_start hl]
    exact h
  | step i choice =>
    obtain ⟨t, shared, t', ht, hadvance, rfl⟩ := Threads.step_step hl
    obtain ⟨o, next, r, hnow, hanswer, rfl⟩ := Threads.advance_eq_some hadvance
    intro ctx
    rw [Bool.eq_false_iff]
    intro hbroken
    dsimp only at hbroken
    rw [err_of_answer hanswer] at hbroken
    rcases hbroken with hold | ⟨cmd, rfl, hok, hreply⟩
    . rw [h ctx] at hold
      contradiction
    . exact hhealthy t ht ctx cmd next hnow hok hreply
  | env e => contradiction

theorem AllClean.handsOut (h : AllClean s) : HandsOutClean s l := by
  cases l with
  | start call => trivial
  | step i choice => exact fun _ _ _ ctx _ => h ctx
  | env e => trivial

theorem AllClean.meets (h : AllClean s) (hhealthy : Meets Calls.step Healthy s ls)
    : Meets Calls.step HandsOutClean s ls := by
  induction ls generalizing s with
  | nil => trivial
  | cons l ls ih =>
    refine ⟨h.handsOut, ?_⟩
    split
    . next s' hl =>
      obtain ⟨hfirst, hrest⟩ := hhealthy.cons _ _ hl
      exact ih (h.step hfirst hl) hrest
    . trivial

end Clean

section Broken

variable {ctx : Context} {redisSize : Nat} {t : Running} {i : Nat}

theorem err_step (h : s.shared.redis.err ctx = true) (hl : Calls.step s l = some s')
    : s'.shared.redis.err ctx = true := by
  cases l with
  | start call =>
    rw [Threads.step_start hl]
    exact h
  | step i choice =>
    obtain ⟨t, shared, t', _, hadvance, rfl⟩ := Threads.step_step hl
    obtain ⟨o, next, r, _, hanswer, _⟩ := Threads.advance_eq_some hadvance
    exact (err_of_answer hanswer).mpr (.inl h)
  | env e => contradiction

theorem lt_of_heldBy (hinv : Inv redisSize s) (ht : t ∈ s.threads) (hheld : ctx ∈ heldBy t.history)
    : ctx < redisSize := by
  have hmem : ctx ∈ s.shared.redis.pool_ ++ s.threads.flatMap fun t => heldBy t.history :=
    List.mem_append_right _ (List.mem_flatMap.mpr ⟨t, ht, hheld⟩)
  rw [hinv.conserved.mem_iff] at hmem
  exact List.mem_range.mp hmem

theorem exists_broken_of_step (hinv : Inv redisSize s) (hl : Calls.step s l = some s')
    (h : ¬Healthy s l) : ∃ ctx < redisSize, s'.shared.redis.err ctx = true := by
  cases l with
  | start call => exact absurd trivial h
  | step i choice =>
    simp only [Healthy, not_forall] at h
    obtain ⟨t, ht, ctx, cmd, next, hnow, hok, hreply⟩ := h
    rw [not_not] at hreply
    refine ⟨ctx, ?_, ?_⟩
    . have hmem := List.mem_of_getElem? ht
      obtain ⟨⟨redis, mysql⟩, hreturnable, hredis, _⟩ := hinv.phased t hmem
      rw [hnow] at hreturnable
      obtain ⟨φ, hφ, _⟩ := hreturnable none
      apply lt_of_heldBy hinv hmem
      rw [hredis]
      cases redis with
      | none => simp [holding] at hφ
      | some ctx' =>
        rcases holding_of_redis hφ with ⟨heq, _⟩ | ⟨_, heq, _⟩
        . contradiction
        . rw [PoolOp.redisCommand.injEq] at heq
          simp [heq.1]
    . obtain ⟨t', shared, t'', ht', hadvance, rfl⟩ := Threads.step_step hl
      obtain ⟨o, next', r, hnow', hanswer, _⟩ := Threads.advance_eq_some hadvance
      rw [Option.mem_def.mp ht, Option.some.injEq] at ht'
      subst ht'
      rw [hnow, Prog.op.injEq] at hnow'
      obtain ⟨rfl, _⟩ := hnow'
      exact (err_of_answer hanswer).mpr (.inr ⟨cmd, rfl, hok, hreply⟩)
  | env e => contradiction

theorem exists_broken (hinv : Inv redisSize s) (hexec : exec Calls.step s ls = some s')
    (h : ¬Meets Calls.step Healthy s ls) : ∃ ctx < redisSize, s'.shared.redis.err ctx = true := by
  induction ls generalizing s with
  | nil => exact absurd trivial h
  | cons l ls ih =>
    obtain ⟨t, hl, hls⟩ := (exec_cons_eq_some _).mp hexec
    rw [meets_cons_iff _ _ hl] at h
    by_cases hfirst : Healthy s l
    . exact ih (hinv.step hl) hls fun hrest => h ⟨hfirst, hrest⟩
    . obtain ⟨ctx, hctx, hbroken⟩ := exists_broken_of_step hinv hl hfirst
      refine ⟨ctx, hctx, ?_⟩
      exact exec_invariant Calls.step (P := fun s => s.shared.redis.err ctx = true)
        (fun _ _ _ hs hl => err_step hs hl) hbroken hls

/--
Even if no connection fails any more, a broken context may be handed out.
-/
def Poisoned (s : Calls) : Prop :=
  ∃ ls, Meets Calls.step Healthy s ls ∧ ¬Meets Calls.step HandsOutClean s ls

theorem Poisoned.of_step (hl : Calls.step s l = some s') (hhealthy : Healthy s l) (h : Poisoned s')
    : Poisoned s := by
  obtain ⟨ls, hrest, hnot⟩ := h
  refine ⟨l :: ls, (meets_cons_iff _ _ hl).mpr ⟨hhealthy, hrest⟩, ?_⟩
  rw [meets_cons_iff _ _ hl]
  exact fun hclean => hnot hclean.2

def hale : Choice where
  reply
    | .redisCommand _ .xreadgroup => some []
    | .redisCommand _ (.ofApi _) => some .nil
    | .redisCommand _ .xgroupCreate => some .nil
    | .redisCommand _ (.xack _) => some .nil
    | o => silence.reply o
  ending := .timeout

theorem healthy_hale : Healthy s (.step i hale) := by
  intro t _ ctx cmd next _ _
  cases cmd <;> simp [hale]

/--
Callers that come new take the contexts out of the pool one after the other, up to the broken one.
-/
theorem poisoned_of_pool {before after : List Context} (hbroken : s.shared.redis.err ctx = true)
    (hpool : s.shared.redis.pool_ = before ++ ctx :: after) : Poisoned s := by
  induction before generalizing s with
  | nil =>
    apply Poisoned.of_step (Calls.step_start s .beginRun) trivial
    refine ⟨[.step s.threads.length hale], ⟨healthy_hale, by split <;> trivial⟩, ?_⟩
    intro hclean
    have hnot := hclean.1 _ (Calls.getElem?_started s .beginRun) ⟨_, rfl⟩ ctx
      (by simp [Calls.started, hpool])
    exact Bool.false_ne_true (hnot.symm.trans hbroken)
  | cons first before ih =>
    apply Poisoned.of_step (Calls.step_start s .beginRun) trivial
    have hanswer : answer (s.started .beginRun).shared .redisAcquire hale = some (first,
        { s.shared with redis := { s.shared.redis with pool_ := before ++ ctx :: after } }) := by
      simp [answer, Calls.started, hpool]
    obtain ⟨next, hnow⟩ : AsksFor .redisAcquire Call.beginRun.body := ⟨_, rfl⟩
    have hl := Calls.step_of_answer (Calls.getElem?_started s .beginRun) hnow hanswer
    apply Poisoned.of_step hl healthy_hale
    exact ih hbroken rfl

theorem answer_total {shared : Shared} {choice : Choice} {o : PoolOp} (hredis : o ≠ .redisAcquire)
    (hmysql : o ≠ .mysqlAcquire) : ∃ r shared', answer shared o choice = some (r, shared') := by
  cases o with
  | redisAcquire => exact absurd rfl hredis
  | mysqlAcquire => exact absurd rfl hmysql
  | redisCommand | redisRelease | mysqlQuery | mysqlStoreResult | mysqlRelease | swapRules | api =>
    exact ⟨_, _, rfl⟩

/--
Its holder brings a broken context back to the pool.
-/
theorem poisoned_of_held (hbroken : s.shared.redis.err ctx = true) (ht : s.threads[i]? = some t)
    (hreleases : ReleasesFirst ctx t.now) : Poisoned s := by
  obtain ⟨call, history, now⟩ := t
  dsimp only at hreleases
  induction now generalizing s history with
  | ret a => exact absurd hreleases id
  | op o next ih =>
    rcases hreleases with rfl | ⟨hredis, hmysql, hnext⟩
    . apply Poisoned.of_step (Calls.step_of_answer ht rfl rfl) healthy_hale
      exact poisoned_of_pool hbroken rfl
    . obtain ⟨r, shared, hanswer⟩ := answer_total hredis hmysql
      have hl := Calls.step_of_answer ht rfl hanswer
      apply Poisoned.of_step hl healthy_hale
      apply ih r (err_step hbroken hl) (history ++ [⟨o, r⟩]) _ (hnext r)
      exact List.getElem?_set_self (List.getElem?_eq_some_iff.mp ht).1

theorem poisoned_of_broken (hinv : Inv redisSize s) (hctx : ctx < redisSize)
    (hbroken : s.shared.redis.err ctx = true) : Poisoned s := by
  have hmem : ctx ∈ s.shared.redis.pool_ ++ s.threads.flatMap fun t => heldBy t.history := by
    rw [hinv.conserved.mem_iff]
    exact List.mem_range.mpr hctx
  rw [List.mem_append] at hmem
  cases hmem with
  | inl hpool =>
    obtain ⟨before, after, hsplit⟩ := List.append_of_mem hpool
    exact poisoned_of_pool hbroken hsplit
  | inr hheld =>
    obtain ⟨t, ht, hheld⟩ := List.mem_flatMap.mp hheld
    obtain ⟨i, hi⟩ := List.getElem?_of_mem ht
    exact poisoned_of_held hbroken hi ((hinv.phased t ht).releasesFirst hheld)

end Broken

/--
After a run, with Redis back for good, the pool hands out working contexts only, exactly if no
connection failed in the run.
-/
theorem recovers_iff_healthy {redisSize mysqlSize : Nat}
    (h : exec Calls.step (init redisSize mysqlSize) ls = some s)
    : (∀ ls', Meets Calls.step Healthy s ls' →
        Meets Calls.step HandsOutClean (init redisSize mysqlSize) (ls ++ ls'))
        ↔
      Meets Calls.step Healthy (init redisSize mysqlSize) ls := by
  constructor
  . intro hrecovers
    by_contra hnot
    obtain ⟨ctx, hctx, hbroken⟩ := exists_broken (inv_init redisSize mysqlSize) h hnot
    obtain ⟨ls', hhealthy, hunclean⟩ := poisoned_of_broken (inv_exec h) hctx hbroken
    have hclean := hrecovers ls' hhealthy
    rw [meets_append_iff _ _ h] at hclean
    exact hunclean hclean.2
  . intro hhealthy ls' hhealthy'
    apply AllClean.meets
    . exact fun ctx => rfl
    . rw [meets_append_iff _ _ h]
      exact ⟨hhealthy, hhealthy'⟩

def oneCall (i : Nat) (choice : Choice) : List Calls.Label :=
  [.start .beginRun, .step i choice, .step i choice, .step i choice]

theorem recovers_iff_healthy_oneCall
    : ∃ s, exec Calls.step (init 1 1) (oneCall 0 hale) = some s ∧
        ∀ ls', Meets Calls.step Healthy s ls' →
          Meets Calls.step HandsOutClean (init 1 1) (oneCall 0 hale ++ ls') := by
  have hend := Option.eq_some_of_isSome (o := exec Calls.step (init 1 1) (oneCall 0 hale)) (by decide)
  refine ⟨_, hend, (recovers_iff_healthy hend).mpr ?_⟩
  exact ⟨trivial, healthy_hale, healthy_hale, healthy_hale, trivial⟩

/--
The connection is lost during the first call, the second call gets the broken context.
-/
theorem not_handsOutClean_secondCall
    : ¬Meets Calls.step HandsOutClean (init 1 1) (oneCall 0 silence ++ oneCall 1 hale) := by
  intro h
  have hsecond := h.2.2.2.2.2.1 _ rfl ⟨_, rfl⟩ 0 rfl
  exact absurd hsecond (by decide)

end Pools
end LFGateway
