import LFGateway.Foundation.ListSet
import LFGateway.ThreadPool.Impl

/-!
This module contains the lemmas about `ThreadPool` that hold of every run: tasks leave the queue in
the order in which they were accepted, none runs twice, and when the destructor has joined every
worker all of them have run.
-/

namespace LFGateway
namespace ThreadPool

open Foundation

variable {Task : Type u} {pool pool' : ThreadPool Task}

inductive Moves (pool : ThreadPool Task) : Label Task → ThreadPool Task → Prop where
  | accept (overload : Overload) (task : Task) (hstop : pool.stop_ = false)
      : Moves pool (.enqueue overload task) { pool with
          tasks_ := pool.tasks_.push task
          notifying := pool.notifying + 1
        }
  | refuse (overload : Overload) (task : Task) (hstop : pool.stop_ = true)
      : Moves pool (.enqueue overload task) { pool with refused := pool.refused ++ [task] }
  | notifyOne (i : Nat) (hi : pool.workers_[i]? = some .waiting)
      : Moves pool (.notifyOne i) { pool with
          notifying := pool.notifying - 1
          workers_ := pool.workers_.set i .checking
        }
  | notifyNone (hnone : pool.workers_.all (!·.isWaiting) = true)
      : Moves pool .notifyNone { pool with notifying := pool.notifying - 1 }
  | spurious (i : Nat) (hi : pool.workers_[i]? = some .waiting)
      : Moves pool (.spurious i) { pool with workers_ := pool.workers_.set i .checking }
  | exit (i : Nat) (hi : pool.workers_[i]? = some .checking) (hempty : pool.tasks_.waiting = [])
      (hstop : pool.stop_ = true)
      : Moves pool (.check i) { pool with workers_ := pool.workers_.set i .exited }
  | wait (i : Nat) (hi : pool.workers_[i]? = some .checking) (hempty : pool.tasks_.waiting = [])
      (hstop : pool.stop_ = false)
      : Moves pool (.check i) { pool with workers_ := pool.workers_.set i .waiting }
  | take (i : Nat) (task : Task) (tasks_ : Fifo Task) (hi : pool.workers_[i]? = some .checking)
      (hpop : pool.tasks_.pop = some (task, tasks_))
      : Moves pool (.check i) { pool with workers_ := pool.workers_.set i (.running task), tasks_ }
  | finish (i : Nat) (task : Task) (hi : pool.workers_[i]? = some (.running task))
      : Moves pool (.finish i) { pool with
          workers_ := pool.workers_.set i .checking
          finished := pool.finished ++ [task]
        }
  | setStop : Moves pool .setStop { pool with stop_ := true, destructor := .stopping }
  | notifyAll : Moves pool .notifyAll { pool with
          workers_ := pool.workers_.map Worker.wake
          destructor := .joining 0
        }
  | joinNext (k : Nat) (hk : pool.destructor = .joining k) (hexited : pool.workers_[k]? = some .exited)
      : Moves pool .join { pool with destructor := .joining (k + 1) }
  | joinLast (k : Nat) (hk : pool.destructor = .joining k) (hend : pool.workers_[k]? = none)
      : Moves pool .join { pool with destructor := .joined }

theorem moves_of_step {l : Label Task} (hstep : step pool l = some pool') : Moves pool l pool' := by
  cases l with
  | enqueue overload task =>
    simp only [step, Option.some.injEq, enqueue] at hstep
    subst hstep
    split
    . next hstop => cases overload <;> exact .refuse _ task hstop
    . next hstop => exact .accept overload task (by simpa using hstop)
  | notifyOne i =>
    simp only [step] at hstep
    split at hstep
    . next hi =>
      split at hstep
      . rw [Option.some.injEq] at hstep
        subst hstep
        exact .notifyOne i hi
      . contradiction
    . contradiction
  | notifyNone =>
    simp only [step] at hstep
    split at hstep
    . next hnone =>
      rw [Option.some.injEq] at hstep
      subst hstep
      exact .notifyNone hnone.2
    . contradiction
  | spurious i =>
    simp only [step] at hstep
    split at hstep
    . next hi =>
      rw [Option.some.injEq] at hstep
      subst hstep
      exact .spurious i hi
    . contradiction
  | check i =>
    simp only [step] at hstep
    split at hstep
    . next hi =>
      rw [Option.some.injEq] at hstep
      subst hstep
      unfold check
      split
      . next hpop =>
        have hempty := Fifo.pop_eq_none hpop
        split
        . next hstop => exact .exit i hi hempty hstop
        . next hstop => exact .wait i hi hempty (by simpa using hstop)
      . next task tasks_ hpop => exact .take i task tasks_ hi hpop
    . contradiction
  | finish i =>
    simp only [step] at hstep
    split at hstep
    . next task hi =>
      rw [Option.some.injEq] at hstep
      subst hstep
      exact .finish i task hi
    . contradiction
  | setStop =>
    simp only [step] at hstep
    split at hstep
    . rw [Option.some.injEq] at hstep
      subst hstep
      exact .setStop
    . contradiction
  | notifyAll =>
    simp only [step] at hstep
    split at hstep
    . rw [Option.some.injEq] at hstep
      subst hstep
      exact .notifyAll
    . contradiction
  | join =>
    simp only [step] at hstep
    split at hstep
    . next k hk =>
      split at hstep
      . next hexited =>
        rw [Option.some.injEq] at hstep
        subst hstep
        exact .joinNext k hk hexited
      . contradiction
      . next hend =>
        rw [Option.some.injEq] at hstep
        subst hstep
        exact .joinLast k hk hend
    . contradiction

structure Inv (pool : ThreadPool Task) : Prop where
  /-- every task that left the queue is running or has run, once -/
  ran : (pool.finished ++ pool.running).Perm pool.tasks_.taken
  /-- workers only return once nothing can be accepted and nothing is left -/
  exited : .exited ∈ pool.workers_ → pool.stop_ = true ∧ pool.tasks_.waiting = []
  joining : ∀ k, pool.destructor = .joining k →
    ∀ i, i < k → pool.workers_[i]? = some .exited
  joined : pool.destructor = .joined → ∀ w ∈ pool.workers_, w = .exited

theorem running_init (num_threads : Nat) : (init num_threads : ThreadPool Task).running = [] := by
  simp [init, running, Worker.tasks]

theorem Inv.init (num_threads : Nat) : Inv (init num_threads : ThreadPool Task) where
  ran := by
    rw [running_init]
    exact List.Perm.refl _
  exited := by
    intro h
    have := List.eq_of_mem_replicate h
    contradiction
  joining := by
    intro k h
    contradiction
  joined := by
    intro h
    contradiction

theorem Inv.setWorker (h : Inv pool) {i : Nat} {w v : Worker Task} (notifying : Nat)
    (hi : pool.workers_[i]? = some w) (hw : w ≠ .exited) (htasks : v.tasks = w.tasks)
    (hexited : v = .exited → pool.stop_ = true ∧ pool.tasks_.waiting = [])
    : Inv { pool with workers_ := pool.workers_.set i v, notifying } where
  ran := by
    have hperm := flatMap_set_perm Worker.tasks (b := v) hi
    rw [htasks] at hperm
    rw [List.perm_append_right_iff] at hperm
    exact (hperm.append_left _).trans h.ran
  exited := by
    intro hmem
    cases List.mem_or_eq_of_mem_set hmem with
    | inl hold => exact h.exited hold
    | inr heq => exact hexited heq.symm
  joining := by
    intro k hk j hj
    have hold := h.joining k hk j hj
    rw [List.getElem?_set_ne]
    . exact hold
    . intro heq
      subst heq
      rw [hi, Option.some.injEq] at hold
      exact hw hold
  joined := by
    intro hk
    have hold := h.joined hk w (List.mem_of_getElem? hi)
    exact absurd hold hw

theorem Inv.take (h : Inv pool) {i : Nat} {task : Task} {tasks_ : Fifo Task}
    (hi : pool.workers_[i]? = some .checking) (hpop : pool.tasks_.pop = some (task, tasks_))
    : Inv { pool with workers_ := pool.workers_.set i (.running task), tasks_ } := by
  obtain ⟨hwaiting, htaken, _⟩ := Fifo.pop_eq_some hpop
  have hnotExited : .exited ∉ pool.workers_ := by
    intro hmem
    rw [(h.exited hmem).2] at hwaiting
    contradiction
  refine ⟨?_, ?_, ?_, ?_⟩
  . have hperm := flatMap_set_perm Worker.tasks (b := .running task) hi
    simp only [Worker.tasks, List.append_nil] at hperm
    simp only [htaken]
    calc
      List.Perm _ (pool.finished ++ (pool.running ++ [task])) := hperm.append_left _
      _ = pool.finished ++ pool.running ++ [task] := by rw [List.append_assoc]
      List.Perm _ (pool.tasks_.taken ++ [task]) := h.ran.append_right _
  . intro hmem
    cases List.mem_or_eq_of_mem_set hmem with
    | inl hold => exact absurd hold hnotExited
    | inr heq => contradiction
  . intro k hk j hj
    exact absurd (List.mem_of_getElem? (h.joining k hk j hj)) hnotExited
  . intro hk
    have := h.joined hk _ (List.mem_of_getElem? hi)
    contradiction

theorem Inv.finish (h : Inv pool) {i : Nat} {task : Task}
    (hi : pool.workers_[i]? = some (.running task))
    : Inv { pool with
        workers_ := pool.workers_.set i .checking
        finished := pool.finished ++ [task] } where
  ran := by
    have hperm := flatMap_set_perm Worker.tasks (b := .checking) hi
    simp only [Worker.tasks, List.append_nil] at hperm
    simp only [running]
    calc
      List.Perm _ (pool.finished ++ ((pool.workers_.set i .checking).flatMap Worker.tasks ++ [task])) := by
        rw [List.append_assoc]
        exact List.perm_append_comm.append_left _
      List.Perm _ (pool.finished ++ pool.running) := hperm.append_left _
      List.Perm _ pool.tasks_.taken := h.ran
  exited := by
    intro hmem
    cases List.mem_or_eq_of_mem_set hmem with
    | inl hold => exact h.exited hold
    | inr heq => contradiction
  joining := by
    intro k hk j hj
    have hold := h.joining k hk j hj
    rw [List.getElem?_set_ne]
    . exact hold
    . intro heq
      subst heq
      simp [hi] at hold
  joined := by
    intro hk
    have := h.joined hk _ (List.mem_of_getElem? hi)
    contradiction

theorem tasks_wake (w : Worker Task) : w.wake.tasks = w.tasks := by
  cases w <;> rfl

theorem wake_eq_exited {w : Worker Task} : w.wake = .exited ↔ w = .exited := by
  cases w <;> simp [Worker.wake]

theorem Inv.notifyAll (h : Inv pool)
    : Inv { pool with workers_ := pool.workers_.map Worker.wake, destructor := .joining 0 } where
  ran := by
    have hrunning : (pool.workers_.map Worker.wake).flatMap Worker.tasks = pool.running := by
      rw [List.flatMap_map]
      simp only [tasks_wake]
      rfl
    simp only [running, hrunning]
    exact h.ran
  exited := by
    intro hmem
    obtain ⟨w, hw, heq⟩ := List.mem_map.mp hmem
    rw [wake_eq_exited] at heq
    subst heq
    exact h.exited hw
  joining := by
    intro k hk i hi
    rw [PoolDestructor.joining.injEq] at hk
    omega
  joined := by
    intro hk
    contradiction

theorem Inv.joinNext (h : Inv pool) {k : Nat} (hk : pool.destructor = .joining k)
    (hexited : pool.workers_[k]? = some .exited)
    : Inv { pool with destructor := .joining (k + 1) } := by
  refine ⟨h.ran, h.exited, ?_, by simp⟩
  intro k' hk' i hi
  rw [PoolDestructor.joining.injEq] at hk'
  cases Nat.lt_succ_iff_lt_or_eq.mp (by omega : i < k + 1) with
  | inl hlt => exact h.joining k hk i hlt
  | inr heq =>
    rw [heq]
    exact hexited

theorem Inv.joinLast (h : Inv pool) {k : Nat} (hk : pool.destructor = .joining k)
    (hend : pool.workers_[k]? = none) : Inv { pool with destructor := .joined } := by
  refine ⟨h.ran, h.exited, by simp, ?_⟩
  intro _ w hw
  obtain ⟨i, hi⟩ := List.mem_iff_getElem?.mp hw
  have hlt : i < k := by
    have hlen : i < pool.workers_.length := (List.getElem?_eq_some_iff.mp hi).1
    have := List.getElem?_eq_none_iff.mp hend
    omega
  have hexited := h.joining k hk i hlt
  rw [hi, Option.some.injEq] at hexited
  exact hexited

theorem Inv.step (h : Inv pool) {l : Label Task} (hmoves : Moves pool l pool') : Inv pool' := by
  cases hmoves with
  | accept overload task hstop =>
    refine ⟨h.ran, ?_, h.joining, h.joined⟩
    intro hmem
    have hstopped := (h.exited hmem).1
    rw [hstop] at hstopped
    contradiction
  | refuse | notifyNone => exact ⟨h.ran, h.exited, h.joining, h.joined⟩
  | notifyOne i hi => exact h.setWorker _ hi (by simp) rfl (by simp)
  | spurious i hi => exact h.setWorker pool.notifying hi (by simp) rfl (by simp)
  | exit i hi hempty hstop =>
    exact h.setWorker pool.notifying hi (by simp) rfl fun _ => ⟨hstop, hempty⟩
  | wait i hi hempty hstop => exact h.setWorker pool.notifying hi (by simp) rfl (by simp)
  | take i task tasks_ hi hpop => exact h.take hi hpop
  | finish i task hi => exact h.finish hi
  | setStop =>
    refine ⟨h.ran, ?_, by simp, by simp⟩
    intro hmem
    exact ⟨rfl, (h.exited hmem).2⟩
  | notifyAll => exact h.notifyAll
  | joinNext k hk hexited => exact h.joinNext hk hexited
  | joinLast k hk hend => exact h.joinLast hk hend

theorem Inv.of_exec {num_threads : Nat} {ls : List (Label Task)}
    (h : exec ThreadPool.step (ThreadPool.init num_threads) ls = some pool) : Inv pool :=
  exec_invariant ThreadPool.step (fun _ _ _ hs hstep => hs.step (moves_of_step hstep)) (Inv.init num_threads) h

structure Keeps (pool pool' : ThreadPool Task) : Prop where
  tasks : pool'.tasks_ = pool.tasks_
  stop : pool'.stop_ = pool.stop_
  finished : pool'.finished = pool.finished
  running : ∀ (i : Nat) task,
    pool'.workers_[i]? = some (.running task) ↔ pool.workers_[i]? = some (.running task)

theorem keeps_setWorker {i : Nat} {w w' : Worker Task} (notifying : Nat)
    (hi : pool.workers_[i]? = some w) (hw : w.tasks = []) (hw' : w'.tasks = [])
    : Keeps pool { pool with workers_ := pool.workers_.set i w', notifying } where
  tasks := rfl
  stop := rfl
  finished := rfl
  running := by
    intro j task
    by_cases heq : i = j
    . subst heq
      have hlength := (List.getElem?_eq_some_iff.mp hi).1
      rw [hi, List.getElem?_set_self hlength, Option.some.injEq, Option.some.injEq]
      constructor
      . rintro rfl
        contradiction
      . rintro rfl
        contradiction
    . rw [List.getElem?_set_ne heq]

theorem keeps_of_wake {l : Label Task} (hl : (∃ i, l = .notifyOne i ∨ l = .spurious i) ∨ l = .notifyNone)
    (hmoves : Moves pool l pool') : Keeps pool pool' := by
  rcases hl with ⟨i, rfl | rfl⟩ | rfl
  . cases hmoves with
    | notifyOne _ hi => exact keeps_setWorker _ hi rfl rfl
  . cases hmoves with
    | spurious _ hi => exact keeps_setWorker pool.notifying hi rfl rfl
  . cases hmoves with
    | notifyNone => exact ⟨rfl, rfl, rfl, fun _ _ => Iff.rfl⟩

theorem mem_running {task : Task}
    : task ∈ pool.running ↔ ∃ i : Nat, pool.workers_[i]? = some (.running task) := by
  unfold running
  rw [List.mem_flatMap]
  constructor
  . rintro ⟨w, hw, htask⟩
    obtain ⟨i, hi⟩ := List.mem_iff_getElem?.mp hw
    cases w with
    | running task' =>
      simp only [Worker.tasks, List.mem_singleton] at htask
      rw [htask]
      exact ⟨i, hi⟩
    | checking | waiting | exited => simp [Worker.tasks] at htask
  . rintro ⟨i, hi⟩
    exact ⟨_, List.mem_of_getElem? hi, by simp [Worker.tasks]⟩

theorem Inv.running_ne (h : Inv pool) (hnodup : pool.tasks_.taken.Nodup) {i j : Nat} {a b : Task}
    (hi : pool.workers_[i]? = some (.running a)) (hj : pool.workers_[j]? = some (.running b))
    (hne : i ≠ j) : a ≠ b := by
  have hrunning := (List.nodup_append.mp (h.ran.nodup_iff.mpr hnodup)).2.1
  unfold running at hrunning
  rw [List.Nodup, List.pairwise_flatMap] at hrunning
  have hapart := List.pairwise_iff_getElem.mp hrunning.2
  obtain ⟨hi', hgeti⟩ := List.getElem?_eq_some_iff.mp hi
  obtain ⟨hj', hgetj⟩ := List.getElem?_eq_some_iff.mp hj
  cases Nat.lt_or_gt_of_ne hne with
  | inl hlt =>
    apply hapart i j hi' hj' hlt
    . simp [hgeti, Worker.tasks]
    . simp [hgetj, Worker.tasks]
  | inr hgt =>
    apply Ne.symm
    apply hapart j i hj' hi' hgt
    . simp [hgetj, Worker.tasks]
    . simp [hgeti, Worker.tasks]

end ThreadPool
end LFGateway
