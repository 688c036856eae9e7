import LFGateway.EventLoop.Lemmas

/-!
This module contains that the loop thread comes to rest: a pass that somebody has asked for ends after a
limited number of steps, and the loop only stays in `epoll_wait` if nothing is pending.
-/

namespace LFGateway

variable {Tid : Type u} {Functor : Type v}

def LoopPc.ahead : LoopPc Functor → Nat
  | entering => 2
  | testing => 1
  | polling | returned => 0
  | dispatching true => 5
  | dispatching false => 4
  | swapping => 3
  | running functors => 2 + functors.length

namespace EventLoop

open Foundation

variable {loop loop' : EventLoop Tid Functor}

/--
The pass that a readable eventfd will cause. The one that the loop is about to read has begun.
-/
def signal (loop : EventLoop Tid Functor) : Nat :=
  match loop.pc with
  | .dispatching true => 0
  | _ => if 0 < loop.wakeups then 6 else 0

def work (loop : EventLoop Tid Functor) : Nat :=
  loop.pc.ahead + loop.pendingFunctors_.waiting.length + loop.signal + 7 * loop.posting.length

/--
The steps that get something done. A timeout of `epoll_wait` is none of them.
-/
def Label.advances : Label Tid Functor → Bool
  | .wakeup _ | .enter | .test | .pollReturn true | .handleWakeup | .dispatched | .swap | .runFunctor
  | .doneFunctors => true
  | .push _ _ | .quit _ | .quitWakeup _ | .quitInLoopThread | .pollReturn false => false

/--
A batch without the eventfd brings the rest of a pass.
-/
def Label.brings : Label Tid Functor → Nat
  | .pollReturn false => 4
  | _ => 0

def Label.quits : Label Tid Functor → Bool
  | .quit _ | .quitInLoopThread => true
  | _ => false

structure Serving (loop : EventLoop Tid Functor) : Prop where
  quit : loop.quit_ = false
  returned : loop.pc ≠ .returned
  quitting : loop.quitting = []

theorem serving_init : Serving (init : EventLoop Tid Functor) where
  quit := rfl
  returned := by simp [init]
  quitting := rfl

theorem signal_le (loop : EventLoop Tid Functor) : loop.signal ≤ 6 := by
  unfold signal
  split
  . exact Nat.zero_le _
  . split <;> decide

variable [DecidableEq Tid]

theorem work_step {l : Label Tid Functor} (hl : l.advances = true) (h : step loop l = some loop')
    : loop'.work < loop.work := by
  cases l with
  | push | quit | quitWakeup | quitInLoopThread => contradiction
  | wakeup t =>
    simp only [step] at h
    split at h
    . next hmem =>
      rw [Option.some.injEq] at h
      have hposting := List.length_erase_of_mem hmem
      have hpos := List.length_pos_of_mem hmem
      have hsignal := signal_le loop'
      rw [← h] at hsignal ⊢
      simp only [work]
      omega
    . contradiction
  | pollReturn wakeup =>
    cases wakeup with
    | false => contradiction
    | true =>
      simp only [step] at h
      split at h
      . next hpc =>
        split at h
        . next hwakeups =>
          have hpos : 0 < loop.wakeups := hwakeups trivial
          rw [Option.some.injEq] at h
          rw [← h]
          simp [work, signal, hpc, LoopPc.ahead, hpos]
          omega
        . contradiction
      . contradiction
  | test =>
    simp only [step] at h
    split at h
    . next hpc =>
      rw [Option.some.injEq] at h
      rw [← h]
      split <;> simp [work, signal, hpc, LoopPc.ahead]
    . contradiction
  | enter | handleWakeup | dispatched | doneFunctors =>
    simp only [step] at h
    split at h
    . next hpc =>
      rw [Option.some.injEq] at h
      rw [← h]
      simp [work, signal, hpc, LoopPc.ahead]
    . contradiction
  | swap =>
    simp only [step] at h
    split at h
    . next hpc =>
      rw [Option.some.injEq] at h
      rw [← h]
      simp [work, signal, hpc, LoopPc.ahead]
    . contradiction
  | runFunctor =>
    simp only [step] at h
    split at h
    . next functor functors hpc =>
      rw [Option.some.injEq] at h
      rw [← h]
      simp [work, signal, hpc, LoopPc.ahead]
    . contradiction

theorem Serving.step {l : Label Tid Functor} (h : Serving loop) (hl : l.quits = false)
    (hstep : EventLoop.step loop l = some loop') : Serving loop' := by
  obtain ⟨hquit, hreturned, hquitting⟩ := h
  cases l with
  | quit | quitInLoopThread => contradiction
  | push | wakeup =>
    simp only [EventLoop.step] at hstep
    split at hstep
    . rw [Option.some.injEq] at hstep
      rw [← hstep]
      exact ⟨hquit, hreturned, hquitting⟩
    . contradiction
  | quitWakeup t =>
    simp [EventLoop.step, hquitting] at hstep
  | enter =>
    simp only [EventLoop.step] at hstep
    split at hstep
    . rw [Option.some.injEq] at hstep
      rw [← hstep]
      exact ⟨rfl, by simp, hquitting⟩
    . contradiction
  | test | handleWakeup | dispatched | swap | runFunctor | doneFunctors =>
    simp only [EventLoop.step] at hstep
    split at hstep
    . rw [Option.some.injEq] at hstep
      rw [← hstep]
      exact ⟨hquit, by simp [hquit], hquitting⟩
    . contradiction
  | pollReturn wakeup =>
    simp only [EventLoop.step] at hstep
    split at hstep
    . split at hstep
      . rw [Option.some.injEq] at hstep
        rw [← hstep]
        exact ⟨hquit, by simp, hquitting⟩
      . contradiction
    . contradiction

theorem work_pollReturn (h : step loop (.pollReturn false) = some loop') : loop'.work = loop.work + 4 := by
  simp only [step] at h
  split at h
  . next hpc =>
    split at h
    . rw [Option.some.injEq] at h
      rw [← h]
      simp [work, signal, hpc, LoopPc.ahead]
      omega
    . contradiction
  . contradiction

theorem Serving.work_step {l : Label Tid Functor} (hserving : Serving loop) (hl : l.quits = false)
    (hpush : ∀ t functor, l ≠ .push t functor) (h : EventLoop.step loop l = some loop')
    : loop'.work + l.advances.toNat ≤ loop.work + l.brings := by
  cases l with
  | push t functor => exact absurd rfl (hpush t functor)
  | quit | quitInLoopThread => contradiction
  | quitWakeup t => simp [EventLoop.step, hserving.quitting] at h
  | pollReturn wakeup =>
    cases wakeup with
    | true => exact EventLoop.work_step rfl h
    | false => exact Nat.le_of_eq (work_pollReturn h)
  | wakeup | enter | test | handleWakeup | dispatched | swap | runFunctor | doneFunctors =>
    exact EventLoop.work_step rfl h

theorem work_push {t : Tid} {functor : Functor} (h : step loop (.push t functor) = some loop')
    : loop'.work = loop.work + 8 := by
  simp only [step] at h
  split at h
  . rw [Option.some.injEq] at h
    rw [← h]
    simp [work, signal]
    omega
  . contradiction

theorem Inv.asleep (hinv : Inv loop) (hreturned : loop.pc ≠ .returned)
    (hfunctors : loop.pc.functors = [])
    (hstuck : ∀ l : Label Tid Functor, l.advances = true → l ≠ .runFunctor → EventLoop.step loop l = none)
    : loop.pc = .polling ∧ loop.pendingFunctors_.waiting = [] ∧ loop.posting = [] := by
  have hpc : loop.pc = .polling := by
    cases hpc : loop.pc with
    | polling => rfl
    | returned => contradiction
    | entering =>
      have hnone := hstuck .enter rfl (by simp)
      simp [EventLoop.step, hpc] at hnone
    | testing =>
      have hnone := hstuck .test rfl (by simp)
      simp [EventLoop.step, hpc] at hnone
    | dispatching wakeup =>
      cases wakeup with
      | true =>
        have hnone := hstuck .handleWakeup rfl (by simp)
        simp [EventLoop.step, hpc] at hnone
      | false =>
        have hnone := hstuck .dispatched rfl (by simp)
        simp [EventLoop.step, hpc] at hnone
    | swapping =>
      have hnone := hstuck .swap rfl (by simp)
      simp [EventLoop.step, hpc] at hnone
    | running functors =>
      rw [hpc] at hfunctors
      change functors = [] at hfunctors
      have hnone := hstuck .doneFunctors rfl (by simp)
      simp [EventLoop.step, hpc, hfunctors] at hnone
  have hposting : loop.posting = [] := by
    rw [List.eq_nil_iff_forall_not_mem]
    intro t ht
    have hnone := hstuck (.wakeup t) rfl (by simp)
    simp [EventLoop.step, ht] at hnone
  have hwakeups : ¬0 < loop.wakeups := by
    intro hpos
    have hnone := hstuck (.pollReturn true) rfl (by simp)
    simp [EventLoop.step, hpc, hpos] at hnone
  refine ⟨hpc, ?_, hposting⟩
  by_contra hwaiting
  cases hinv.woken.resolve_left (by simp [BeforeSwap, hpc]) hwaiting with
  | inl hpos => exact hwakeups hpos
  | inr hsome => exact hsome hposting

end EventLoop
end LFGateway
