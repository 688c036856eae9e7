import LFGateway.EventLoop.Progress
import LFGateway.Foundation.Runs
import LFGateway.Gateway.Lemmas.Wire
import LFGateway.ThreadPool.Drain

/-!
This module contains that the gateway comes to rest: its workers and its loop thread only have a limited
number of steps in front of them for every request that was read, and when none of them can go on
everything that was read is done.
-/

namespace LFGateway

open Foundation

section Bounds

variable {via : Member} {key : Bytes}

theorem RedisClient.atMost_get : (get via key).AtMost 1 := by
  unfold get
  apply Prog.atMost_perform_bind
  intro reply
  split <;> trivial

theorem RedisClient.atMost_xadd (fields : List (Bytes × Bytes)) : (xadd via key fields).AtMost 1 := by
  unfold xadd
  apply Prog.atMost_perform_bind
  intro reply
  split <;> trivial

theorem DistributedRateLimiter.atMost_isAllowed (path : Bytes) (rate capacity : Int)
    : (isAllowed path rate capacity).AtMost 2 := by
  have hacquire : ∀ key rate capacity, (acquireToken key rate capacity).AtMost 2 := by
    intro key rate capacity
    unfold acquireToken
    apply Prog.atMost_perform_bind
    intro now
    apply Prog.atMost_perform_bind
    intro reply
    split <;> trivial
  unfold isAllowed
  apply (hacquire _ _ _).bind 0 (by decide)
  intro result
  split <;> trivial

theorem RateLimitPlugin.atMost_isAllowed (keyPrefix : Bytes) (max : Int)
    : (isAllowed keyPrefix max).AtMost 3 := by
  unfold isAllowed RedisClient.incr RedisClient.expire
  split
  . trivial
  . apply Prog.atMost_perform_bind
    intro now
    dsimp only
    rw [bind_assoc]
    apply Prog.atMost_perform_bind
    intro reply
    rw [pure_bind]
    split
    . exact Prog.atMost_perform_bind fun _ => trivial
    . trivial

namespace Gateway

theorem atMost_checkAuth (rule : Handle) (req : HttpRequest) : (checkAuth rule req).AtMost 2 := by
  unfold checkAuth AuthPlugin.validate
  apply Prog.atMost_perform_bind
  intro r
  split
  . exact RedisClient.atMost_get.bind 0 (by decide) fun _ => trivial
  . trivial

theorem atMost_checkLimit (rule : Handle) : (checkLimit rule).AtMost 8 := by
  unfold checkLimit
  apply Prog.atMost_perform_bind
  intro r₁
  split
  . apply Prog.atMost_perform_bind
    intro r₂
    apply (DistributedRateLimiter.atMost_isAllowed _ _ _).bind 4 (by decide)
    intro allowed
    split
    . apply Prog.atMost_perform_bind
      intro r₃
      exact RateLimitPlugin.atMost_isAllowed _ _
    . trivial
  . trivial

theorem atMost_respond (req : HttpRequest) (start : Int) : (respond req start).AtMost 4 := by
  unfold respond LogConsumer.push
  apply Prog.atMost_perform_bind
  intro _
  apply Prog.atMost_perform_bind
  intro stop
  apply Prog.atMost_perform_bind
  intro _
  exact (RedisClient.atMost_xadd _).bind 0 (by decide) fun _ => trivial

/--
A request performs 17 operations at most: it is counted, its clock is read and it is matched, 2 are for
its token, 8 for the limiters and 4 for an answer 200.
-/
theorem atMost_processApiRequest (raw : Bytes) : (processApiRequest raw).AtMost 17 := by
  have hsend : ∀ code body, (sendResponse code body).AtMost 1 := fun _ _ => Prog.atMost_perform _
  have hreject : ∀ stat code body, (perform (.add stat 1) >>= fun _ => sendResponse code body).AtMost 2 :=
    fun _ _ _ => Prog.atMost_perform_bind fun _ => hsend _ _
  have hmatched : ∀ rule req start, (processMatched rule req start).AtMost 14 := by
    intro rule req start
    unfold processMatched
    apply (atMost_checkAuth _ _).bind 12 (by decide)
    intro authorized
    split
    . exact (hreject _ _ _).mono (by decide)
    . apply (atMost_checkLimit _).bind 4 (by decide)
      intro allowed
      split
      . exact (hreject _ _ _).mono (by decide)
      . exact atMost_respond _ _
  unfold processApiRequest
  apply Prog.atMost_perform_bind
  intro _
  apply Prog.atMost_perform_bind
  intro start
  dsimp only
  split
  . trivial
  . exact (hsend _ _).bind 0 (by decide) fun _ => trivial
  . apply Prog.atMost_perform_bind
    intro found
    split
    . exact (hsend _ _).bind 0 (by decide) fun _ => trivial
    . exact (hmatched _ _ _).bind 0 (by decide) fun _ => trivial

end Gateway

theorem ApiOp.nonempty_reply (o : ApiOp) : Nonempty o.Reply := by
  cases o with
  | add | send => exact ⟨()⟩
  | steadyNow | systemNow => exact ⟨(0 : Int)⟩
  | routerMatch | command => exact ⟨none⟩
  | readRule => exact ⟨(⟨[], false, 0⟩ : RouteRule)⟩

end Bounds

namespace Process

variable {s s' : Process} {l : Label}

/--
The steps of the gateway itself. An event of a connection, a batch without the eventfd, as after a timeout
of `epoll_wait`, a worker that wakes up for nothing and a signal are none of them.
-/
def Label.own : Label → Bool
  | .wake (.notifyOne _) | .wake .notifyNone => true
  | .check _ | .perform _ _ | .finish _ | .runFunctor => true
  | .loop l => l.advances
  | .wake _ | .event _ => false

/--
The steps that others bring: a worker that wakes up for nothing looks at the queue once more.
-/
def Label.brings : Label → Nat
  | .wake (.spurious _) => 1
  | .loop l => l.brings
  | _ => 0

/--
The step is one of `quit()` that stores the flag.
-/
def Label.quits : Label → Bool
  | .loop l => l.quits
  | _ => false

section Work

/--
A running worker has `k` operations of its program left at most.
-/
def weight : Worker Job × Nat → Nat
  | (.running _, k) => 2 + 9 * k
  | (.checking, _) => 1
  | (.waiting, _) | (.exited, _) => 0

structure Budget (s : Process) (workers : List (Worker Job × Nat)) : Prop where
  same : workers.map Prod.fst = s.pool.workers_
  programs : ∀ (w : Nat) (job : Job) (k : Nat), workers[w]? = some (.running job, k) →
    (s.program w).AtMost k

/--
What is left to do besides what the workers have at hand. A task takes 17 operations, of which each may
post a functor.
-/
def queued (s : Process) : Nat :=
  155 * s.pool.tasks_.waiting.length + 2 * s.pool.notifying + s.loop.work

def work (s : Process) (workers : List (Worker Job × Nat)) : Nat := (workers.map weight).sum + s.queued

variable {workers : List (Worker Job × Nat)}

theorem Budget.getElem? (h : Budget s workers) {w : Nat} {worker : Worker Job}
    (hw : s.pool.workers_[w]? = some worker) : ∃ k, workers[w]? = some (worker, k) := by
  rw [← h.same, List.getElem?_map, Option.map_eq_some_iff] at hw
  obtain ⟨⟨worker, k⟩, hw, rfl⟩ := hw
  exact ⟨k, hw⟩

def Budget.Pays (s s' : Process) (workers : List (Worker Job × Nat)) (a b : Nat) : Prop :=
  ∃ workers', Budget s' workers' ∧ work s' workers' + a ≤ work s workers + b

theorem Budget.Pays.mono {a b a' b' : Nat} (h : Budget.Pays s s' workers a b) (hle : a' + b ≤ a + b')
    : Budget.Pays s s' workers a' b' := by
  obtain ⟨workers', hbudget, hwork⟩ := h
  exact ⟨workers', hbudget, by omega⟩

theorem Budget.set (h : Budget s workers) {w k a b : Nat} {worker : Worker Job}
    (hw : workers[w]? = some (worker, k)) (worker' : Worker Job) (k' : Nat)
    (hworkers : s'.pool.workers_ = s.pool.workers_.set w worker')
    (hprograms : ∀ w', w' ≠ w → s'.program w' = s.program w')
    (hprogram : ∀ job, worker' = .running job → (s'.program w).AtMost k')
    (hpays : weight (worker', k') + s'.queued + a ≤ weight (worker, k) + s.queued + b)
    : Budget.Pays s s' workers a b := by
  refine ⟨workers.set w (worker', k'), ⟨?_, ?_⟩, ?_⟩
  . rw [hworkers, ← h.same, List.map_set]
  . intro w' job k₁ hw'
    rcases getElem?_set_cases hw' with ⟨rfl, heq⟩ | ⟨hne, hold⟩
    . rw [Prod.mk.injEq] at heq
      rw [heq.2]
      exact hprogram job heq.1.symm
    . rw [hprograms w' (Ne.symm hne)]
      exact h.programs w' job k₁ hold
  . have hsum := sum_map_set weight hw (b := (worker', k'))
    unfold work
    omega

theorem Budget.keep (h : Budget s workers) {a b : Nat} (hworkers : s'.pool.workers_ = s.pool.workers_)
    (hprogram : s'.program = s.program) (hpays : s'.queued + a ≤ s.queued + b)
    : Budget.Pays s s' workers a b := by
  refine ⟨workers, ⟨h.same.trans hworkers.symm, ?_⟩, ?_⟩
  . rw [hprogram]
    exact h.programs
  . unfold work
    omega

theorem wake_of_step {l : ThreadPool.Label Job} (h : Process.step s (.wake l) = some s')
    : ∃ pool, s.pool.step l = some pool ∧ s' = { s with pool } := by
  cases l with
  | notifyOne | notifyNone | spurious =>
    simp only [Process.step] at h
    split at h
    . next pool hpool =>
      rw [Option.some.injEq] at h
      exact ⟨pool, hpool, h.symm⟩
    . contradiction
  | enqueue | check | finish | setStop | notifyAll | join => contradiction

theorem Budget.wake (h : Budget s workers) {l : ThreadPool.Label Job}
    (hstep : Process.step s (.wake l) = some s')
    : Budget.Pays s s' workers (Label.wake l).own.toNat (Label.wake l).brings := by
  obtain ⟨pool, hpool, rfl⟩ := wake_of_step hstep
  cases l with
  | notifyOne i =>
    simp only [ThreadPool.step] at hpool
    split at hpool
    . next hi =>
      rw [Option.ite_none_right_eq_some, Option.some.injEq] at hpool
      obtain ⟨hpos, rfl⟩ := hpool
      obtain ⟨k, hk⟩ := h.getElem? hi
      apply h.set hk .checking k
      . rfl
      . exact fun _ _ => rfl
      . simp
      . simp only [weight, queued, Label.own, Label.brings, Bool.toNat_true]
        omega
    . contradiction
  | notifyNone =>
    simp only [ThreadPool.step] at hpool
    rw [Option.ite_none_right_eq_some, Option.some.injEq] at hpool
    obtain ⟨⟨hpos, _⟩, rfl⟩ := hpool
    apply h.keep
    . rfl
    . rfl
    . simp only [queued, Label.own, Label.brings, Bool.toNat_true]
      omega
  | spurious i =>
    simp only [ThreadPool.step] at hpool
    split at hpool
    . next hi =>
      rw [Option.some.injEq] at hpool
      rw [← hpool]
      obtain ⟨k, hk⟩ := h.getElem? hi
      apply h.set hk .checking k
      . rfl
      . exact fun _ _ => rfl
      . simp
      . simp only [weight, queued, Label.own, Label.brings, Bool.toNat_false]
        omega
    . contradiction
  | enqueue | check | finish | setStop | notifyAll | join => contradiction

theorem Budget.check (h : Budget s workers) (hinv : Inv s) {w : Nat}
    (hstep : Process.step s (.check w) = some s')
    : Budget.Pays s s' workers 1 0 := by
  simp only [Process.step, ThreadPool.step] at hstep
  cases hw : s.pool.workers_[w]? with
  | none => simp [hw] at hstep
  | some worker =>
    cases worker with
    | waiting | running | exited => simp [hw] at hstep
    | checking =>
      have hlength := (List.getElem?_eq_some_iff.mp hw).1
      obtain ⟨k, hk⟩ := h.getElem? hw
      simp only [hw, ThreadPool.check, hinv.stop] at hstep
      cases hpop : s.pool.tasks_.pop with
      | none =>
        simp [hpop, hlength] at hstep
        rw [← hstep]
        apply h.set hk .waiting k
        . rfl
        . exact fun _ _ => rfl
        . simp
        . simp only [weight, queued]
          omega
      | some popped =>
        obtain ⟨job, tasks_⟩ := popped
        simp [hpop, hlength] at hstep
        have hwaiting := congrArg List.length (Fifo.pop_eq_some hpop).1
        rw [List.length_cons] at hwaiting
        rw [← hstep]
        apply h.set hk (.running job) 17
        . rfl
        . intro w' hne
          exact Function.update_of_ne hne _ _
        . intro _ _
          dsimp only
          rw [Function.update_self]
          exact Gateway.atMost_processApiRequest _
        . simp only [weight, queued]
          omega

theorem perform_of_step {w : Nat} {e : ApiEvent} (h : Process.step s (.perform w e) = some s')
    : ∃ job rest loop, s.pool.workers_[w]? = some (.running job) ∧ (s.program w).resume e = some rest ∧
        s' = { s with program := Function.update s.program w rest, loop } ∧
        (loop = s.loop ∨ ∃ message, s.loop.step (.push w ⟨job.id, job.conn, message⟩) = some loop) := by
  simp only [Process.step] at h
  split at h
  . contradiction
  . split at h
    . next job rest hw hrest =>
      refine ⟨job, rest, s'.loop, hw, hrest, ?_⟩
      obtain ⟨o, r⟩ := e
      unfold afterEvent at h
      cases o with
      | send message =>
        dsimp only at h
        split at h
        . next loop hloop =>
          rw [Option.some.injEq] at h
          rw [← h]
          exact ⟨rfl, .inr ⟨message, hloop⟩⟩
        . contradiction
      | add | steadyNow | systemNow | routerMatch | readRule | command =>
        rw [Option.some.injEq] at h
        rw [← h]
        exact ⟨rfl, .inl rfl⟩
    . contradiction

theorem Budget.perform (h : Budget s workers) {w : Nat} {e : ApiEvent}
    (hstep : Process.step s (.perform w e) = some s')
    : Budget.Pays s s' workers 1 0 := by
  obtain ⟨job, rest, loop, hw, hrest, rfl, hloop⟩ := perform_of_step hstep
  obtain ⟨k, hk⟩ := h.getElem? hw
  obtain ⟨m, rfl, hm⟩ := (h.programs w job k hk).resume hrest
  apply h.set hk (.running job) m
  . obtain ⟨hlt, hget⟩ := List.getElem?_eq_some_iff.mp hw
    dsimp only
    rw [← hget, List.set_getElem_self]
  . exact fun w' hne => Function.update_of_ne hne _ _
  . intro _ _
    dsimp only
    rwa [Function.update_self]
  . cases hloop with
    | inl hsame =>
      simp only [weight, queued, hsame]
      omega
    | inr hpost =>
      obtain ⟨message, hpush⟩ := hpost
      simp only [weight, queued, EventLoop.work_push hpush]
      omega

theorem finish_of_step {w : Nat} (h : Process.step s (.finish w) = some s')
    : ∃ job pool, s.pool.workers_[w]? = some (.running job) ∧ s.pool.step (.finish w) = some pool ∧
        s' = { s with pool } := by
  simp only [Process.step] at h
  split at h
  . contradiction
  . split at h
    . split at h
      . next pool hpool =>
        rw [Option.some.injEq] at h
        cases hw : s.pool.workers_[w]? with
        | none => simp [ThreadPool.step, hw] at hpool
        | some worker =>
          cases worker with
          | running job => exact ⟨job, pool, rfl, hpool, h.symm⟩
          | checking | waiting | exited => simp [ThreadPool.step, hw] at hpool
      . contradiction
    . contradiction

theorem Budget.finish (h : Budget s workers) {w : Nat} (hstep : Process.step s (.finish w) = some s')
    : Budget.Pays s s' workers 1 0 := by
  obtain ⟨job, pool, hw, hpool, rfl⟩ := finish_of_step hstep
  simp only [ThreadPool.step, hw, Option.some.injEq] at hpool
  obtain ⟨k, hk⟩ := h.getElem? hw
  rw [← hpool]
  apply h.set hk .checking k
  . rfl
  . exact fun _ _ => rfl
  . simp
  . simp only [weight, queued]
    omega

theorem loop_of_step {l : EventLoop.Label Nat Response} (h : Process.step s (.loop l) = some s')
    : l ≠ .runFunctor ∧ ∃ loop, s.loop.step l = some loop ∧ s' = { s with loop } := by
  cases l with
  | push | runFunctor => simp [Process.step] at h
  | wakeup | quit | quitWakeup | quitInLoopThread | enter | test | pollReturn | handleWakeup
  | dispatched | swap | doneFunctors =>
    simp only [Process.step] at h
    split at h
    . next loop hloop =>
      rw [Option.some.injEq] at h
      exact ⟨by simp, loop, hloop, h.symm⟩
    . contradiction

theorem functor_of_step (h : Process.step s .runFunctor = some s')
    : ∃ response functors loop reactor appended, s.loop.pc = .running (response :: functors) ∧
        s.loop.step .runFunctor = some loop ∧
        s.reactor.step (.functor response.conn response.message) = some reactor ∧
        s' = { s with loop, reactor, appended } := by
  simp only [Process.step] at h
  split at h
  . next response functors hpc =>
    split at h
    . next loop reactor hloop hreactor =>
      rw [Option.some.injEq] at h
      exact ⟨response, functors, loop, reactor, _, hpc, hloop, hreactor, h.symm⟩
    . contradiction
  . contradiction

theorem onApiRequest_waiting {pool : ThreadPool Job} (hstop : pool.stop_ = false) (tasks : List (Nat × Bytes))
    : (onApiRequest pool tasks).tasks_.waiting.length = pool.tasks_.waiting.length + tasks.length ∧
        (onApiRequest pool tasks).notifying = pool.notifying + tasks.length := by
  induction tasks generalizing pool with
  | nil => exact ⟨rfl, rfl⟩
  | cons task tasks ih =>
    have hfirst : onApiRequest pool (task :: tasks)
        = onApiRequest { pool with
            tasks_ := pool.tasks_.push ⟨pool.tasks_.accepted.length, task.1, task.2⟩
            notifying := pool.notifying + 1 } tasks := by
      simp [onApiRequest, ThreadPool.enqueue, hstop]
    obtain ⟨hwaiting, hnotifying⟩ := @ih { pool with
      tasks_ := pool.tasks_.push ⟨pool.tasks_.accepted.length, task.1, task.2⟩
      notifying := pool.notifying + 1 } hstop
    rw [hfirst, hwaiting, hnotifying, List.length_cons]
    simp only [Fifo.push_waiting, List.length_append, List.length_singleton]
    omega

theorem Budget.event (h : Budget s workers) (hinv : Inv s) {l : Reactor.Label}
    (hstep : Process.step s (.event l) = some s')
    : Budget.Pays s s' workers (157 * s.reactor.tasks.length) (157 * s'.reactor.tasks.length) := by
  cases moves_of_step hstep with
  | rest _ lpool pool hl => simp at hl
  | event _ reactor hreactor =>
    obtain ⟨_, _, _, _, hworkers, _⟩ := onApiRequest_enqueues hinv.pool hinv.stop (newTasks s.reactor reactor)
    obtain ⟨hwaiting, hnotifying⟩ := onApiRequest_waiting hinv.stop (newTasks s.reactor reactor)
    apply h.keep
    . exact hworkers
    . rfl
    . have hgrown := (Reactor.tasks_step hreactor).length_le
      have hnew : (newTasks s.reactor reactor).length = reactor.tasks.length - s.reactor.tasks.length :=
        List.length_drop
      simp only [queued]
      omega

theorem Budget.step (h : Budget s workers) (hinv : Inv s) (hserving : s.loop.Serving)
    (hquits : l.quits = false) (hstep : Process.step s l = some s')
    : Budget.Pays s s' workers (l.own.toNat + 157 * s.reactor.tasks.length)
        (l.brings + 157 * s'.reactor.tasks.length) := by
  cases l with
  | event l => exact (h.event hinv hstep).mono (by simp [Label.own, Label.brings])
  | wake l =>
    have hpays := h.wake hstep
    obtain ⟨pool, _, rfl⟩ := wake_of_step hstep
    exact hpays.mono (by dsimp only; omega)
  | check w =>
    have hpays := h.check hinv hstep
    cases moves_of_step hstep with
    | rest | take => exact hpays.mono (by simp [Label.own, Label.brings])
  | perform w e =>
    have hpays := h.perform hstep
    obtain ⟨_, _, _, _, _, rfl, _⟩ := perform_of_step hstep
    exact hpays.mono (by simp [Label.own, Label.brings])
  | finish w =>
    have hpays := h.finish hstep
    obtain ⟨_, _, _, _, rfl⟩ := finish_of_step hstep
    exact hpays.mono (by simp [Label.own, Label.brings])
  | loop l =>
    obtain ⟨_, loop, hloop, rfl⟩ := loop_of_step hstep
    have hpush : ∀ t functor, l ≠ .push t functor := by
      rintro t functor rfl
      contradiction
    have hpays := hserving.work_step hquits hpush hloop
    apply h.keep
    . rfl
    . rfl
    . simp only [queued, Label.own, Label.brings]
      omega
  | runFunctor =>
    obtain ⟨_, _, loop, reactor, _, _, hloop, hreactor, rfl⟩ := functor_of_step hstep
    have hless := EventLoop.work_step rfl hloop
    have hgrown := (Reactor.tasks_step hreactor).length_le
    apply h.keep
    . rfl
    . rfl
    . simp only [queued, Label.own, Label.brings, Bool.toNat_true]
      omega

end Work

section Parts

theorem exec_onApiRequest (pool : ThreadPool Job) (tasks : List (Nat × Bytes))
    : ∃ ls, exec ThreadPool.step pool ls = some (onApiRequest pool tasks) := by
  induction tasks generalizing pool with
  | nil => exact ⟨[], rfl⟩
  | cons task tasks ih =>
    obtain ⟨ls, hls⟩ := ih (pool.enqueue .future ⟨pool.tasks_.accepted.length, task.1, task.2⟩).1
    exact ⟨.enqueue .future ⟨pool.tasks_.accepted.length, task.1, task.2⟩ :: ls,
      (exec_cons_eq_some ThreadPool.step).mpr ⟨_, rfl, hls⟩⟩

theorem pool_of_step (h : step s l = some s') : ∃ ls, exec ThreadPool.step s.pool ls = some s'.pool := by
  cases l with
  | event l =>
    cases moves_of_step h with
    | event => exact exec_onApiRequest _ _
    | rest l lpool pool hl => simp at hl
  | wake l =>
    obtain ⟨_, hpool, rfl⟩ := wake_of_step h
    exact ⟨_, exec_one hpool⟩
  | check w =>
    simp only [step] at h
    split at h
    . next pool hpool =>
      split at h
      . rw [Option.some.injEq] at h
        rw [← h]
        exact ⟨_, exec_one hpool⟩
      . rw [Option.some.injEq] at h
        rw [← h]
        exact ⟨_, exec_one hpool⟩
    . contradiction
  | perform w e =>
    obtain ⟨_, _, _, _, _, rfl, _⟩ := perform_of_step h
    exact ⟨[], rfl⟩
  | finish w =>
    obtain ⟨_, _, _, hpool, rfl⟩ := finish_of_step h
    exact ⟨_, exec_one hpool⟩
  | loop l =>
    obtain ⟨_, _, _, rfl⟩ := loop_of_step h
    exact ⟨[], rfl⟩
  | runFunctor =>
    obtain ⟨_, _, _, _, _, _, _, _, rfl⟩ := functor_of_step h
    exact ⟨[], rfl⟩

theorem serving_step (h : s.loop.Serving) (hquits : l.quits = false) (hstep : step s l = some s')
    : s'.loop.Serving := by
  cases l with
  | event l =>
    cases moves_of_step hstep with
    | event | rest => exact h
  | wake l =>
    obtain ⟨_, _, rfl⟩ := wake_of_step hstep
    exact h
  | check w =>
    cases moves_of_step hstep with
    | rest | take => exact h
  | finish w =>
    obtain ⟨_, _, _, _, rfl⟩ := finish_of_step hstep
    exact h
  | perform w e =>
    obtain ⟨_, _, loop, _, _, rfl, hloop⟩ := perform_of_step hstep
    cases hloop with
    | inl hsame =>
      rw [hsame]
      exact h
    | inr hpost =>
      obtain ⟨_, hpush⟩ := hpost
      exact h.step rfl hpush
  | loop l =>
    obtain ⟨_, loop, hloop, rfl⟩ := loop_of_step hstep
    exact h.step hquits hloop
  | runFunctor =>
    obtain ⟨_, _, loop, _, _, _, hloop, _, rfl⟩ := functor_of_step hstep
    exact h.step rfl hloop

theorem serving_exec {threadNum : Nat} {ls : List Label} (h : exec step (init threadNum) ls = some s)
    (hquits : ∀ l ∈ ls, l.quits = false) : s.loop.Serving := by
  apply exec_invariant_of_meets step (fun _ l => l.quits = false) (P := fun s => s.loop.Serving) _
    EventLoop.serving_init (meets_of_forall_mem step hquits) h
  intro s l s' hs hl hstep
  exact serving_step hs hl hstep

end Parts

section Stuck

/--
No step of the gateway itself is possible.
-/
def Stuck (s : Process) : Prop := ∀ l : Label, l.own = true → step s l = none

theorem Stuck.loop (h : Stuck s) {l : EventLoop.Label Nat Response} (hl : l.advances = true)
    (hfunctor : l ≠ .runFunctor) : s.loop.step l = none := by
  have hnone := h (.loop l) hl
  cases l with
  | push | quit | quitWakeup | quitInLoopThread | runFunctor => contradiction
  | wakeup | enter | test | pollReturn | handleWakeup | dispatched | swap | doneFunctors =>
    simp only [step] at hnone
    split at hnone
    . contradiction
    . assumption

theorem Wired.created_of_pushed (h : Wired s) (hinv : Inv s) {response : Response}
    (hmem : response ∈ s.pushed) : response.conn < s.reactor.created := by
  obtain ⟨job, htaken, _, hconn, _⟩ := h.posted response hmem
  have haccepted := mem_accepted_of_taken htaken
  rw [hinv.jobs] at haccepted
  have htask := getElem?_of_mem_numbered haccepted
  by_contra hlarge
  have hunborn := (h.reactor.unborn response.conn (Nat.le_of_not_lt hlarge)).tasks
  rw [Reactor.tasksOf, List.filterMap_eq_nil_iff] at hunborn
  have hnone := hunborn _ (List.mem_of_getElem? htask)
  simp [hconn] at hnone

theorem Stuck.functors (h : Stuck s) (hinv : Inv s) (hwired : Wired s) : s.loop.pc.functors = [] := by
  cases hpc : s.loop.pc with
  | entering | testing | polling | dispatching | swapping | returned => rfl
  | running functors =>
    cases functors with
    | nil => rfl
    | cons response functors =>
      have hmem : response ∈ s.pushed := by
        apply s.loop.pendingFunctors_.taken_prefix.subset
        rw [← hinv.loop.order, hpc]
        exact List.mem_append_right _ List.mem_cons_self
      have hcreated := hwired.created_of_pushed hinv hmem
      have hnone := h .runFunctor rfl
      simp [step, hpc, EventLoop.step, Reactor.step, hcreated] at hnone

theorem Stuck.asleep (h : Stuck s) (hposting : s.loop.posting = []) (hquitting : s.loop.quitting = [])
    {worker : Worker Job} (hmem : worker ∈ s.pool.workers_) : ThreadPool.isAwake worker = false := by
  obtain ⟨w, hw⟩ := List.mem_iff_getElem?.mp hmem
  cases worker with
  | waiting | exited => rfl
  | checking =>
    have hnone := h (.check w) rfl
    simp only [step, ThreadPool.step, hw] at hnone
    split at hnone <;> contradiction
  | running job =>
    cases hprogram : s.program w with
    | ret result =>
      have hnone := h (.finish w) rfl
      simp [step, ThreadPool.step, hw, hprogram, hposting] at hnone
    | op o next =>
      obtain ⟨r⟩ := ApiOp.nonempty_reply o
      have hnone := h (.perform w ⟨o, r⟩) rfl
      cases o with
      | send message =>
        simp [step, hw, hprogram, hposting, Prog.resume, afterEvent, EventLoop.step, hquitting] at hnone
      | add | steadyNow | systemNow | routerMatch | readRule | command =>
        simp [step, hw, hprogram, hposting, Prog.resume, afterEvent] at hnone

theorem Stuck.notifying (h : Stuck s) : s.pool.notifying = 0 := by
  by_contra hne
  have hpos : 0 < s.pool.notifying := Nat.pos_of_ne_zero hne
  by_cases hall : s.pool.workers_.all (!·.isWaiting) = true
  . have hnone := h (.wake .notifyNone) rfl
    simp [step, ThreadPool.step, hpos, hall] at hnone
  . rw [Bool.not_eq_true, List.all_eq_false] at hall
    obtain ⟨worker, hmem, hwaiting⟩ := hall
    obtain ⟨i, hi⟩ := List.mem_iff_getElem?.mp hmem
    cases worker with
    | checking | running | exited => simp [Worker.isWaiting] at hwaiting
    | waiting =>
      have hnone := h (.wake (.notifyOne i)) rfl
      simp [step, ThreadPool.step, hpos, hi] at hnone

theorem Stuck.idle (h : Stuck s) {threadNum : Nat} (hpos : 1 ≤ threadNum) {ls : List Label}
    (hexec : exec step (init threadNum) ls = some s) (hne : ∀ l ∈ ls, l.Nonempty)
    (hquits : ∀ l ∈ ls, l.quits = false) : Idle s := by
  obtain ⟨hinv, hwired⟩ := wired_exec hexec hne
  have hserving := serving_exec hexec hquits
  have hfunctors := h.functors hinv hwired
  obtain ⟨_, hpending, hposting⟩ :=
    hinv.loop.asleep hserving.returned hfunctors fun l hl hfunctor => h.loop hl hfunctor
  have hasleep : ∀ worker ∈ s.pool.workers_, ThreadPool.isAwake worker = false :=
    fun _ hmem => h.asleep hposting hserving.quitting hmem
  obtain ⟨_, hpool⟩ := exec_part Process.pool (fun _ _ _ hl => pool_of_step hl) hexec
  obtain ⟨_, _, hwakes⟩ := ThreadPool.wakes_exec hpos hpool
  refine ⟨hwakes.waiting_eq_nil hasleep h.notifying, ?_, hpending, hfunctors⟩
  rw [List.eq_nil_iff_forall_not_mem]
  intro job hjob
  obtain ⟨w, hw⟩ := ThreadPool.mem_running.mp hjob
  have hfalse := hasleep _ (List.mem_of_getElem? hw)
  contradiction

end Stuck

end Process

end LFGateway
