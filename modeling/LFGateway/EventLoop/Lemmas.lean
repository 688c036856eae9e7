import LFGateway.EventLoop.Impl

/-!
This module contains the lemmas about `EventLoop` that hold of every run: functors are called in the
order in which they were posted, none is lost or called twice, and the loop does not sleep on one.
-/

namespace LFGateway
namespace EventLoop

open Foundation

variable {Tid : Type u} {Functor : Type v} {loop loop' : EventLoop Tid Functor}

/--
The loop is on its way from `epoll_wait` to the swap, which takes all that is pending.
-/
def BeforeSwap (loop : EventLoop Tid Functor) : Prop :=
  (∃ wakeup, loop.pc = .dispatching wakeup) ∨ loop.pc = .swapping

/--
Somebody will make the eventfd readable or already has.
-/
def Signalled (loop : EventLoop Tid Functor) : Prop :=
  0 < loop.wakeups ∨ loop.posting ≠ []

structure Inv (loop : EventLoop Tid Functor) : Prop where
  order : loop.ran ++ loop.pc.functors = loop.pendingFunctors_.taken
  woken : BeforeSwap loop ∨ (loop.pendingFunctors_.waiting ≠ [] → Signalled loop)

theorem wakeup_pos (wakeups : Nat) : 0 < wakeup wakeups := by
  unfold wakeup
  split <;> omega

theorem Inv.init : Inv (init : EventLoop Tid Functor) where
  order := rfl
  woken := by
    right
    intro hne
    exact absurd rfl hne

/--
What a step does. The steps that move the loop thread within a pass leave the queue, the counter and
the functors at hand alone, and those of other threads leave the loop where it is.
-/
inductive Moves (loop : EventLoop Tid Functor) : Label Tid Functor → EventLoop Tid Functor → Prop where
  | push (t : Tid) (functor : Functor)
      : Moves loop (.push t functor) { loop with
          pendingFunctors_ := loop.pendingFunctors_.push functor
          posting := t :: loop.posting
        }
  | signal (l : Label Tid Functor) (quit_ : Bool) (wakeups : Nat) (posting quitting : List Tid)
      (hl : posted [l] = [] ∧ l ≠ .runFunctor)
      (hsignalled : Signalled loop → Signalled { loop with quit_, wakeups, posting, quitting })
      : Moves loop l { loop with quit_, wakeups, posting, quitting }
  | goto (l : Label Tid Functor) (pc : LoopPc Functor) (quit_ : Bool)
      (hl : posted [l] = [] ∧ l ≠ .runFunctor) (hfunctors : pc.functors = loop.pc.functors)
      (hpc : BeforeSwap { loop with pc, quit_ } ∨ ¬BeforeSwap loop)
      : Moves loop l { loop with pc, quit_ }
  | handleWakeup (hpc : loop.pc = .dispatching true)
      : Moves loop .handleWakeup { loop with wakeups := 0, pc := .dispatching false }
  | swap (hpc : loop.pc = .swapping)
      : Moves loop .swap { loop with
          pendingFunctors_ := loop.pendingFunctors_.drain.2
          pc := .running loop.pendingFunctors_.drain.1
        }
  | runFunctor (functor : Functor) (functors : List Functor) (hpc : loop.pc = .running (functor :: functors))
      : Moves loop .runFunctor { loop with ran := loop.ran ++ [functor], pc := .running functors }

theorem moves_of_step [DecidableEq Tid] {l : Label Tid Functor} (hstep : step loop l = some loop')
    : Moves loop l loop' := by
  cases l with
  | push t functor =>
    simp only [EventLoop.step] at hstep
    split at hstep
    . rw [Option.some.injEq] at hstep
      subst hstep
      exact .push t functor
    . contradiction
  | wakeup t | quitWakeup t =>
    simp only [EventLoop.step] at hstep
    split at hstep
    . rw [Option.some.injEq] at hstep
      subst hstep
      apply Moves.signal _ loop.quit_ _ _ _ ⟨rfl, by simp⟩
      intro _
      exact .inl (wakeup_pos _)
    . contradiction
  | quit t =>
    simp only [EventLoop.step] at hstep
    split at hstep
    . rw [Option.some.injEq] at hstep
      subst hstep
      exact .signal _ _ loop.wakeups loop.posting _ ⟨rfl, by simp⟩ id
    . contradiction
  | quitInLoopThread =>
    simp only [EventLoop.step, Option.some.injEq] at hstep
    subst hstep
    exact .signal _ _ loop.wakeups loop.posting loop.quitting ⟨rfl, by simp⟩ id
  | enter =>
    simp only [EventLoop.step] at hstep
    split at hstep
    . next hpc =>
      rw [Option.some.injEq] at hstep
      subst hstep
      apply Moves.goto _ _ _ ⟨rfl, by simp⟩
      . rw [hpc]
        rfl
      . right
        simp [BeforeSwap, hpc]
    . contradiction
  | test =>
    simp only [EventLoop.step] at hstep
    split at hstep
    . next hpc =>
      rw [Option.some.injEq] at hstep
      subst hstep
      apply Moves.goto _ _ loop.quit_ ⟨rfl, by simp⟩
      . rw [hpc]
        split <;> rfl
      . right
        simp [BeforeSwap, hpc]
    . contradiction
  | pollReturn wakeup =>
    simp only [EventLoop.step] at hstep
    split at hstep
    . next hpc =>
      split at hstep
      . rw [Option.some.injEq] at hstep
        subst hstep
        apply Moves.goto _ _ loop.quit_ ⟨rfl, by simp⟩
        . rw [hpc]
          rfl
        . left
          exact .inl ⟨wakeup, rfl⟩
      . contradiction
    . contradiction
  | handleWakeup =>
    simp only [EventLoop.step] at hstep
    split at hstep
    . next hpc =>
      rw [Option.some.injEq] at hstep
      subst hstep
      exact .handleWakeup hpc
    . contradiction
  | dispatched =>
    simp only [EventLoop.step] at hstep
    split at hstep
    . next hpc =>
      rw [Option.some.injEq] at hstep
      subst hstep
      apply Moves.goto _ _ loop.quit_ ⟨rfl, by simp⟩
      . rw [hpc]
        rfl
      . left
        exact .inr rfl
    . contradiction
  | swap =>
    simp only [EventLoop.step] at hstep
    split at hstep
    . next hpc =>
      rw [Option.some.injEq] at hstep
      subst hstep
      exact .swap hpc
    . contradiction
  | runFunctor =>
    simp only [EventLoop.step] at hstep
    split at hstep
    . next functor functors hpc =>
      rw [Option.some.injEq] at hstep
      subst hstep
      exact .runFunctor functor functors hpc
    . contradiction
  | doneFunctors =>
    simp only [EventLoop.step] at hstep
    split at hstep
    . next hpc =>
      rw [Option.some.injEq] at hstep
      subst hstep
      apply Moves.goto _ _ loop.quit_ ⟨rfl, by simp⟩
      . rw [hpc]
        rfl
      . right
        simp [BeforeSwap, hpc]
    . contradiction

theorem Inv.step (h : Inv loop) {l : Label Tid Functor} (hmoves : Moves loop l loop') : Inv loop' := by
  cases hmoves with
  | push t functor =>
    -- the poster is in `posting` now, so whatever was pending is signalled
    exact ⟨h.order, .inr (fun _ => .inr (by simp))⟩
  | signal _ _ _ _ _ _ hsignalled =>
    refine ⟨h.order, ?_⟩
    cases h.woken with
    | inl hbefore => exact .inl hbefore
    | inr hwoken => exact .inr (fun hne => hsignalled (hwoken hne))
  | goto _ pc quit_ _ hfunctors hpc =>
    constructor
    . simp only [hfunctors]
      exact h.order
    . cases hpc with
      | inl hbefore => exact .inl hbefore
      | inr hnot => exact .inr (h.woken.resolve_left hnot)
  | handleWakeup hpc =>
    -- the counter is 0 from here on, but the swap comes before the next `epoll_wait`
    refine ⟨?_, .inl (.inl ⟨false, rfl⟩)⟩
    have horder := h.order
    rw [hpc] at horder
    exact horder
  | swap hpc =>
    have horder := h.order
    rw [hpc] at horder
    simp only [LoopPc.functors, List.append_nil] at horder
    refine ⟨?_, .inr (fun hne => absurd (Fifo.drain_waiting _) hne)⟩
    simp [LoopPc.functors, horder]
  | runFunctor functor functors hpc =>
    have horder := h.order
    rw [hpc] at horder
    refine ⟨by simpa [LoopPc.functors] using horder, .inr ?_⟩
    exact h.woken.resolve_left (by simp [BeforeSwap, hpc])

theorem ran_step {l : Label Tid Functor} (hmoves : Moves loop l loop') (hl : l ≠ .runFunctor)
    : loop'.ran = loop.ran := by
  cases hmoves with
  | runFunctor => contradiction
  | push | signal | goto | handleWakeup | swap => rfl

theorem ran_runFunctor (hmoves : Moves loop .runFunctor loop')
    : ∃ functor functors, loop.pc = .running (functor :: functors) ∧
        loop'.ran = loop.ran ++ [functor] := by
  cases hmoves with
  | runFunctor functor functors hpc => exact ⟨functor, functors, hpc, rfl⟩
  | signal _ _ _ _ _ hl | goto _ _ _ hl => exact absurd rfl hl.2

theorem accepted_step {l : Label Tid Functor} (hmoves : Moves loop l loop')
    : loop'.pendingFunctors_.accepted = loop.pendingFunctors_.accepted ++ posted [l] := by
  cases hmoves with
  | push t functor => rfl
  | signal _ _ _ _ _ hl | goto _ _ _ hl =>
    rw [hl.1]
    simp
  | handleWakeup | swap | runFunctor => simp [posted]

variable [DecidableEq Tid]

theorem Inv.of_exec {ls : List (Label Tid Functor)} (h : exec EventLoop.step EventLoop.init ls = some loop)
    : Inv loop :=
  exec_invariant EventLoop.step (fun _ _ _ hs hstep => hs.step (moves_of_step hstep)) Inv.init h

theorem accepted_exec {ls : List (Label Tid Functor)} (h : exec step loop ls = some loop')
    : loop'.pendingFunctors_.accepted = loop.pendingFunctors_.accepted ++ posted ls := by
  induction ls generalizing loop with
  | nil =>
    rw [exec_nil, Option.some.injEq] at h
    simp [posted, h]
  | cons l ls ih =>
    obtain ⟨t, hl, hls⟩ := (exec_cons_eq_some _).mp h
    rw [ih hls, accepted_step (moves_of_step hl), List.append_assoc]
    simp [posted, List.filterMap_cons]
    split <;> rfl

/--
In every run the functors called, those swapped out and those pending are the posted ones in the
order in which they were pushed, and the loop never waits in `epoll_wait` with a pending functor, an
eventfd counter of 0 and no thread about to write to it.
-/
theorem no_lost_functor_or_wakeup (ls : List (Label Tid Functor)) (loop : EventLoop Tid Functor)
    (h : exec step init ls = some loop)
    : loop.ran ++ (loop.pc.functors ++ loop.pendingFunctors_.waiting) = posted ls ∧
      ¬(loop.pc = .polling ∧ loop.pendingFunctors_.waiting ≠ [] ∧ loop.wakeups = 0 ∧
          loop.posting = []) := by
  have hinv := Inv.of_exec h
  constructor
  . rw [← List.append_assoc, hinv.order, loop.pendingFunctors_.conserved]
    have haccepted := accepted_exec h
    simp only [init, Fifo.empty_accepted, List.nil_append] at haccepted
    exact haccepted
  . rintro ⟨hpc, hne, hwakeups, hposting⟩
    have hsignalled := hinv.woken.resolve_left (by simp [BeforeSwap, hpc]) hne
    cases hsignalled with
    | inl hpos => omega
    | inr hsome => exact hsome hposting

/--
A read of the eventfd that consumes the wakeup of a functor still leaves it to the swap that follows.
-/
def consumedWakeup : List (Label Nat Nat) :=
  [.push 0 10, .enter, .test, .wakeup 0, .pollReturn true, .push 1 11, .wakeup 1, .handleWakeup,
    .push 2 12, .dispatched, .swap, .wakeup 2, .runFunctor, .runFunctor, .runFunctor, .doneFunctors]

theorem no_lost_functor_or_wakeup_consumed
    : ∃ loop, exec step init consumedWakeup = some loop ∧ loop.ran = [10, 11, 12] ∧
        loop.ran ++ (loop.pc.functors ++ loop.pendingFunctors_.waiting) = posted consumedWakeup :=
  ⟨_, rfl, rfl, (no_lost_functor_or_wakeup consumedWakeup _ rfl).1⟩

end EventLoop
end LFGateway
