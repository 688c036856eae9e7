import LFGateway.Foundation.Runs
import LFGateway.ThreadPool.Drain

/-!
This module contains that `~ThreadPool` comes to its end, as long as every task does: once `stop_` is set,
the workers and the destructor only have a limited number of steps left, and one of them can always take
the next one.
-/

namespace LFGateway

variable {Task : Type u}

def Worker.remaining : Worker Task → Nat
  | checking => 1
  | waiting | running _ => 2
  | exited => 0

def PoolDestructor.remaining (workers : Nat) : PoolDestructor → Nat
  | notStarted => workers + 3
  | stopping => workers + 2
  | joining k => workers + 1 - k
  | joined => 0

namespace ThreadPool

open Foundation

variable {pool pool' : ThreadPool Task} {l : Label Task}

def remaining (pool : ThreadPool Task) : Nat :=
  (pool.workers_.map Worker.remaining).sum + 2 * pool.tasks_.waiting.length + pool.notifying +
    pool.destructor.remaining pool.workers_.length

/--
The steps of the pool itself, all but the calls of `enqueue`.
-/
def Label.works : Label Task → Bool
  | .enqueue _ _ => false
  | _ => true

theorem remaining_setWorker {i : Nat} {w w' : Worker Task} (notifying : Nat) (finished : List Task)
    (hi : pool.workers_[i]? = some w) (hless : w'.remaining + 1 ≤ w.remaining)
    (hnotifying : notifying ≤ pool.notifying)
    : remaining { pool with workers_ := pool.workers_.set i w', notifying, finished } + 1
        ≤
      pool.remaining := by
  have hsum := sum_map_set Worker.remaining (b := w') hi
  simp only [remaining, List.length_set]
  omega

theorem sum_remaining_wake (workers : List (Worker Task))
    : ((workers.map Worker.wake).map Worker.remaining).sum ≤ (workers.map Worker.remaining).sum := by
  induction workers with
  | nil => exact Nat.le_refl _
  | cons w workers ih =>
    have hw : w.wake.remaining ≤ w.remaining := by
      cases w <;> simp [Worker.wake, Worker.remaining]
    simp only [List.map_cons, List.sum_cons]
    omega

theorem Inv.joining_le (hinv : Inv pool) {k : Nat} (hk : pool.destructor = .joining k)
    : k ≤ pool.workers_.length := by
  by_contra hlt
  have hsome := hinv.joining k hk pool.workers_.length (by omega)
  rw [List.getElem?_eq_none (Nat.le_refl _)] at hsome
  contradiction

theorem remaining_step (hinv : Inv pool) (hstop : pool.stop_ = true) (h : step pool l = some pool')
    : pool'.remaining + l.works.toNat ≤ pool.remaining := by
  cases moves_of_step h with
  | accept overload task hrunning =>
    rw [hstop] at hrunning
    contradiction
  | refuse => exact Nat.le_refl _
  | notifyOne i hi => exact remaining_setWorker _ _ hi (Nat.le_refl _) (Nat.sub_le _ _)
  | notifyNone =>
    have hpending : 0 < pool.notifying := by
      simp only [step] at h
      split at h
      . next hnone => exact hnone.1
      . contradiction
    simp only [remaining, Label.works, Bool.toNat_true]
    omega
  | spurious i hi => exact remaining_setWorker _ _ hi (Nat.le_refl _) (Nat.le_refl _)
  | exit i hi => exact remaining_setWorker _ _ hi (Nat.le_refl _) (Nat.le_refl _)
  | wait i hi hempty hrunning =>
    rw [hstop] at hrunning
    contradiction
  | take i task tasks_ hi hpop =>
    have hlength : pool.tasks_.waiting.length = tasks_.waiting.length + 1 := by
      rw [(Fifo.pop_eq_some hpop).1, List.length_cons]
    have hsum := sum_map_set Worker.remaining (b := .running task) hi
    simp only [remaining, List.length_set, Label.works, Bool.toNat_true]
    simp only [Worker.remaining] at hsum
    omega
  | finish i task hi => exact remaining_setWorker _ _ hi (Nat.le_refl _) (Nat.le_refl _)
  | setStop =>
    have hdestructor : pool.destructor = .notStarted := by
      simp only [step] at h
      split at h
      . assumption
      . contradiction
    simp only [remaining, hdestructor, PoolDestructor.remaining, Label.works, Bool.toNat_true]
    omega
  | notifyAll =>
    have hdestructor : pool.destructor = .stopping := by
      simp only [step] at h
      split at h
      . assumption
      . contradiction
    have hsum := sum_remaining_wake pool.workers_
    simp only [remaining, hdestructor, PoolDestructor.remaining, List.length_map, Label.works, Bool.toNat_true]
    omega
  | joinNext k hk hexited =>
    have hlt := (List.getElem?_eq_some_iff.mp hexited).1
    simp only [remaining, hk, PoolDestructor.remaining, Label.works, Bool.toNat_true]
    omega
  | joinLast k hk =>
    have hle := hinv.joining_le hk
    simp only [remaining, hk, PoolDestructor.remaining, Label.works, Bool.toNat_true]
    omega

def StoppedByDestructor (pool : ThreadPool Task) : Prop := pool.stop_ = true → pool.destructor ≠ .notStarted

theorem stoppedByDestructor_step (h : StoppedByDestructor pool) (hstep : step pool l = some pool')
    : StoppedByDestructor pool' := by
  cases moves_of_step hstep with
  | setStop | notifyAll | joinNext | joinLast => simp [StoppedByDestructor]
  | accept | refuse | notifyOne | notifyNone | spurious | exit | wait | take | finish => exact h

theorem stop_step (hstop : pool.stop_ = true) (hstep : step pool l = some pool') : pool'.stop_ = true := by
  cases moves_of_step hstep with
  | setStop => rfl
  | accept | refuse | notifyOne | notifyNone | spurious | exit | wait | take | finish | notifyAll | joinNext
    | joinLast => exact hstop

/--
As long as not all workers are joined, the destructor can go on, or the worker that it waits for can.
-/
theorem exists_step_of_not_joined (hwakes : Wakes pool) (hstop : pool.stop_ = true)
    (hdestructor : StoppedByDestructor pool) (hjoined : pool.destructor ≠ .joined)
    : ∃ l : Label Task, l.works = true ∧ (step pool l).isSome = true := by
  cases hphase : pool.destructor with
  | notStarted => exact absurd hphase (hdestructor hstop)
  | stopping => exact ⟨.notifyAll, rfl, by simp [step, hphase]⟩
  | joined => contradiction
  | joining k =>
    cases hk : pool.workers_[k]? with
    | none => exact ⟨.join, rfl, by simp [step, hphase, hk]⟩
    | some w =>
      cases w with
      | checking => exact ⟨.check k, rfl, by simp [step, hk]⟩
      | running task => exact ⟨.finish k, rfl, by simp [step, hk]⟩
      | exited => exact ⟨.join, rfl, by simp [step, hphase, hk]⟩
      | waiting =>
        exact absurd (List.mem_of_getElem? hk) (hwakes.stop hstop (by simp [hphase]))

/--
From the moment `stop_` is set, whatever the threads do next: the pool has only so many steps left, and as
long as the destructor has not returned some thread can take one of them, so it returns. By then every
accepted task has run.
-/
theorem shutdown_terminates (num_threads : Nat) (hpos : 1 ≤ num_threads) (ls : List (Label Task))
    (pool : ThreadPool Task) (h : exec step (init num_threads) ls = some pool) (hstop : pool.stop_ = true)
    (ls' : List (Label Task)) (pool' : ThreadPool Task) (h' : exec step pool ls' = some pool')
    : ls'.countP Label.works ≤ pool.remaining ∧
      (pool'.destructor ≠ .joined → ∃ l : Label Task, l.works = true ∧ (step pool' l).isSome = true) ∧
      (pool'.destructor = .joined → pool'.finished.Perm pool'.tasks_.accepted) := by
  have hall : exec step (init num_threads) (ls ++ ls') = some pool' :=
    (exec_append_eq_some step).mpr ⟨pool, h, h'⟩
  obtain ⟨hinv, _, _⟩ := wakes_exec hpos h
  obtain ⟨hinv', hlength, hwakes⟩ := wakes_exec hpos hall
  have hsteps := countP_add_le_of_variant (I := fun pool => Inv pool ∧ pool.stop_ = true) Label.works remaining
    (fun pool l pool' hs hl => ⟨hs.1.step (moves_of_step hl), stop_step hs.2 hl⟩)
    (fun pool l pool' hs hl => remaining_step hs.1 hs.2 hl) ⟨hinv, hstop⟩ h'
  have hstop' : pool'.stop_ = true := exec_invariant step (fun _ _ _ hs hl => stop_step hs hl) hstop h'
  have hdestructor : StoppedByDestructor pool' :=
    exec_invariant step (fun _ _ _ hs hl => stoppedByDestructor_step hs hl)
      (by simp [StoppedByDestructor, init]) hall
  refine ⟨by omega, exists_step_of_not_joined hwakes hstop' hdestructor, ?_⟩
  exact hinv'.finished_of_joined (by omega)

def stopping : List (Label Nat) := [.enqueue .function 1, .enqueue .function 2, .check 0, .setStop]

theorem shutdown_terminates_stopping
    : ∃ pool, exec step (init 1) stopping = some pool ∧
        ∃ pool', exec step pool [.notifyAll, .notifyNone, .finish 0] = some pool' ∧
          3 ≤ pool.remaining ∧ ∃ l : Label Nat, l.works = true ∧ (step pool' l).isSome = true := by
  have hterminates := shutdown_terminates 1 (by decide) stopping _ rfl rfl
    [.notifyAll, .notifyNone, .finish 0] _ rfl
  exact ⟨_, rfl, _, rfl, hterminates.1, hterminates.2.1 (by simp)⟩

end ThreadPool
end LFGateway
