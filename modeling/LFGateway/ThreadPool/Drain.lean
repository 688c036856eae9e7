import LFGateway.ThreadPool.Lemmas

/-!
This module contains what the users of `ThreadPool` rely on: accepted tasks run in order and exactly
once, and no worker sleeps through a task.
-/

namespace LFGateway
namespace ThreadPool

open Foundation

variable {Task : Type u} {pool pool' : ThreadPool Task}

theorem workers_length_step {l : Label Task} (h : Moves pool l pool')
    : pool'.workers_.length = pool.workers_.length := by
  cases h with
  | accept | refuse | notifyNone | setStop | joinNext | joinLast => rfl
  | notifyOne | spurious | exit | wait | take | finish => exact List.length_set
  | notifyAll => exact List.length_map _

/--
Once the destructor has joined the workers nothing is left and nothing is running.
-/
theorem Inv.finished_of_joined (h : Inv pool) (hpos : 1 ≤ pool.workers_.length)
    (hjoined : pool.destructor = .joined) : pool.finished.Perm pool.tasks_.accepted := by
  have hall := h.joined hjoined
  have hrunning : pool.running = [] := by
    rw [running, List.flatMap_eq_nil_iff]
    intro w hw
    rw [hall w hw]
    rfl
  have hwaiting : pool.tasks_.waiting = [] := by
    have hmem : pool.workers_[0] ∈ pool.workers_ := List.getElem_mem _
    rw [hall _ hmem] at hmem
    exact (h.exited hmem).2
  have hran := h.ran
  rw [hrunning, List.append_nil, Fifo.taken_eq_accepted hwaiting] at hran
  exact hran

def isAwake : Worker Task → Bool
  | .checking | .running _ => true
  | .waiting | .exited => false

/--
No worker sleeps through a task or through the shutdown.
-/
structure Wakes (pool : ThreadPool Task) : Prop where
  task : pool.tasks_.waiting ≠ [] → 0 < pool.notifying ∨ ∃ w ∈ pool.workers_, isAwake w = true
  stop : pool.stop_ = true → pool.destructor ≠ .stopping → .waiting ∉ pool.workers_

theorem exists_awake_set {workers : List (Worker Task)} {i : Nat} {w w' : Worker Task}
    (hi : workers[i]? = some w) (hw' : isAwake w' = true)
    : ∃ v ∈ workers.set i w', isAwake v = true := by
  have hlt := (List.getElem?_eq_some_iff.mp hi).1
  exact ⟨w', List.mem_set hlt _, hw'⟩

theorem waiting_notMem_set {workers : List (Worker Task)} {i : Nat} {w' : Worker Task}
    (h : .waiting ∉ workers) (hw' : w' ≠ .waiting) : .waiting ∉ workers.set i w' := by
  intro hmem
  cases List.mem_or_eq_of_mem_set hmem with
  | inl hold => exact h hold
  | inr heq => exact hw' heq.symm

theorem Wakes.setAwake (h : Wakes pool) {i : Nat} {w w' : Worker Task} (notifying : Nat)
    (tasks_ : Fifo Task) (finished : List Task) (hi : pool.workers_[i]? = some w)
    (hw' : isAwake w' = true)
    : Wakes { pool with workers_ := pool.workers_.set i w', notifying, tasks_, finished } where
  task := by
    intro _
    right
    exact exists_awake_set hi hw'
  stop := by
    intro hstop hdestructor
    apply waiting_notMem_set (h.stop hstop hdestructor)
    intro heq
    subst heq
    contradiction

theorem isAwake_wake {w : Worker Task} (h : isAwake w = true) : isAwake w.wake = true := by
  cases w <;> first | rfl | contradiction

theorem wake_ne_waiting (w : Worker Task) : w.wake ≠ .waiting := by
  cases w <;> simp [Worker.wake]

theorem Wakes.notifyAll (h : Wakes pool)
    : Wakes { pool with workers_ := pool.workers_.map Worker.wake, destructor := .joining 0 } where
  task := by
    intro hne
    cases h.task hne with
    | inl hpending => exact .inl hpending
    | inr hawake =>
      obtain ⟨w, hw, hawake⟩ := hawake
      exact .inr ⟨w.wake, List.mem_map_of_mem hw, isAwake_wake hawake⟩
  stop := by
    intro _ _ hmem
    obtain ⟨w, _, heq⟩ := List.mem_map.mp hmem
    exact wake_ne_waiting w heq

/--
A notification that finds no worker waiting is not lost: some worker is awake, as none returns while
a task is left.
-/
theorem Wakes.notifyNone (h : Wakes pool) (hinv : Inv pool) (hpos : 1 ≤ pool.workers_.length)
    (hnone : pool.workers_.all (!·.isWaiting) = true)
    : Wakes { pool with notifying := pool.notifying - 1 } where
  task := by
    intro hne
    right
    have hmem : pool.workers_[0] ∈ pool.workers_ := List.getElem_mem _
    refine ⟨_, hmem, ?_⟩
    have hnotWaiting := List.all_eq_true.mp hnone _ hmem
    cases hw : pool.workers_[0] with
    | checking => rfl
    | waiting =>
      rw [hw] at hnotWaiting
      contradiction
    | running task => rfl
    | exited =>
      rw [hw] at hmem
      exact absurd (hinv.exited hmem).2 hne
  stop := h.stop

theorem Wakes.step (h : Wakes pool) (hinv : Inv pool) (hpos : 1 ≤ pool.workers_.length)
    {l : Label Task} (hmoves : Moves pool l pool') : Wakes pool' := by
  cases hmoves with
  | accept => exact ⟨fun _ => .inl (Nat.succ_pos _), h.stop⟩
  | refuse => exact ⟨h.task, h.stop⟩
  | notifyOne i hi | spurious i hi | take i _ _ hi | finish i _ hi => exact h.setAwake _ _ _ hi rfl
  | notifyNone hnone => exact h.notifyNone hinv hpos hnone
  | exit i hi hempty hstop =>
    refine ⟨fun hne => absurd hempty hne, ?_⟩
    intro hstop hdestructor
    exact waiting_notMem_set (h.stop hstop hdestructor) (by simp)
  | wait i hi hempty hstop =>
    refine ⟨fun hne => absurd hempty hne, ?_⟩
    intro hstopped
    rw [hstop] at hstopped
    contradiction
  | setStop => exact ⟨h.task, by simp⟩
  | notifyAll => exact h.notifyAll
  | joinNext k hk | joinLast k hk => exact ⟨h.task, fun hstop _ => h.stop hstop (by simp [hk])⟩

theorem wakes_exec {num_threads : Nat} (hpos : 1 ≤ num_threads) {ls : List (Label Task)}
    (h : exec step (init num_threads) ls = some pool)
    : Inv pool ∧ pool.workers_.length = num_threads ∧ Wakes pool := by
  apply exec_invariant step (P := fun pool =>
    Inv pool ∧ pool.workers_.length = num_threads ∧ Wakes pool) _ _ h
  . rintro s l s' ⟨hinv, hlen, hwakes⟩ hstep
    have hmoves := moves_of_step hstep
    refine ⟨hinv.step hmoves, ?_, ?_⟩
    . rw [workers_length_step hmoves, hlen]
    . apply hwakes.step hinv _ hmoves
      omega
  . refine ⟨Inv.init num_threads, by simp [init], by simp [init], by simp [init]⟩

theorem Wakes.waiting_eq_nil (h : Wakes pool) (hasleep : ∀ w ∈ pool.workers_, isAwake w = false)
    (hnotified : pool.notifying = 0) : pool.tasks_.waiting = [] := by
  by_contra hne
  cases h.task hne with
  | inl hpending => omega
  | inr hawake =>
    obtain ⟨w, hw, hawake⟩ := hawake
    rw [hasleep w hw] at hawake
    contradiction

/--
Whenever no worker is awake and no notification is pending, no task is left in the queue, and the
workers of a stopped pool have all returned.
-/
theorem no_lost_wakeup (num_threads : Nat) (hpos : 1 ≤ num_threads) (ls : List (Label Task))
    (pool : ThreadPool Task) (h : exec step (init num_threads) ls = some pool)
    (hasleep : ∀ w ∈ pool.workers_, isAwake w = false) (hnotified : pool.notifying = 0)
    : pool.tasks_.waiting = [] ∧
      (pool.stop_ = true → pool.destructor ≠ .stopping → ∀ w ∈ pool.workers_, w = .exited) := by
  obtain ⟨_, _, hwakes⟩ := wakes_exec hpos h
  constructor
  . exact hwakes.waiting_eq_nil hasleep hnotified
  . intro hstopped hdestructor w hw
    have hnotWaiting := hwakes.stop hstopped hdestructor
    have hw' := hasleep w hw
    cases w with
    | checking => contradiction
    | waiting => contradiction
    | running task => contradiction
    | exited => rfl

def servedThenAsleep : List (Label Nat) :=
  [.check 0, .enqueue .function 1, .enqueue .function 2, .notifyOne 0, .check 0, .notifyNone, .finish 0,
    .check 0, .finish 0, .check 0]

theorem no_lost_wakeup_servedThenAsleep
    : ∃ pool, exec step (init 1) servedThenAsleep = some pool ∧ pool.finished = [1, 2] ∧
        pool.workers_ = [.waiting] ∧ pool.tasks_.waiting = [] :=
  ⟨_, rfl, rfl, rfl, (no_lost_wakeup 1 (by decide) servedThenAsleep _ rfl (by decide) rfl).1⟩

end ThreadPool
end LFGateway
