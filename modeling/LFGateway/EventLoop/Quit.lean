import Mathlib.Data.List.Induction
import Mathlib.Tactic.IntervalCases
import LFGateway.EventLoop.Impl

/-!
This module contains what becomes of a call of `quit`: `loop()` resets the flag when it is entered, so
a call is kept exactly if it, or another one, stores the flag behind that.
-/

namespace LFGateway
namespace EventLoop

open Foundation

variable {Tid : Type u} {Functor : Type v} {loop loop' : EventLoop Tid Functor}

namespace Label

def Stores : Label Tid Functor → Prop
  | .quit _ | .quitInLoopThread => True
  | _ => False

def Returns : Label Tid Functor → Prop
  | .quitWakeup _ | .quitInLoopThread => True
  | _ => False

end Label

def QuitReturned (ls : List (Label Tid Functor)) : Prop := ∃ l ∈ ls, l.Returns

/--
Some call of `quit` stores the flag when `loop()` has been entered.
-/
def StoredInLoop (ls : List (Label Tid Functor)) : Prop :=
  ∃ before l after, ls = before ++ l :: after ∧ .enter ∈ before ∧ l.Stores

/--
Once a call of `quit` has returned, no evaluation of `!quit_` lets the loop thread into the body.
-/
def QuitKept [DecidableEq Tid] (ls : List (Label Tid Functor)) : Prop :=
  ∀ before after loop loop', ls = before ++ .test :: after → QuitReturned before →
    exec step init before = some loop → step loop .test = some loop' → loop'.pc ≠ .polling

theorem storedInLoop_append {ls : List (Label Tid Functor)} {l : Label Tid Functor}
    : StoredInLoop (ls ++ [l]) ↔ StoredInLoop ls ∨ .enter ∈ ls ∧ l.Stores := by
  constructor
  . rintro ⟨before, l', after, heq, henter, hstores⟩
    induction after using List.reverseRecOn with
    | nil =>
      obtain ⟨rfl, hl⟩ := List.append_inj' heq rfl
      rw [List.singleton_inj] at hl
      exact .inr ⟨henter, hl ▸ hstores⟩
    | append_singleton after last _ =>
      rw [← List.cons_append, ← List.append_assoc] at heq
      exact .inl ⟨before, l', after, (List.append_inj' heq rfl).1, henter, hstores⟩
  . rintro (⟨before, l', after, rfl, henter, hstores⟩ | ⟨henter, hstores⟩)
    . exact ⟨before, l', after ++ [l], by simp, henter, hstores⟩
    . exact ⟨ls, l, [], rfl, henter, hstores⟩

inductive Flags (loop : EventLoop Tid Functor) : Label Tid Functor → EventLoop Tid Functor → Prop where
  | enter (hpc : loop.pc = .entering)
      : Flags loop .enter { loop with quit_ := false, pc := .testing }
  | stores {l : Label Tid Functor} {next : EventLoop Tid Functor} (hl : l.Stores)
      (hquit : next.quit_ = true) (hpc : next.pc = loop.pc) : Flags loop l next
  | other {l : Label Tid Functor} {next : EventLoop Tid Functor} (hl : l ≠ .enter ∧ ¬l.Stores)
      (hquit : next.quit_ = loop.quit_) (hpc : next.pc = .entering ↔ loop.pc = .entering)
      : Flags loop l next

theorem flags_of_step [DecidableEq Tid] {l : Label Tid Functor} (hstep : step loop l = some loop')
    : Flags loop l loop' := by
  cases l with
  | quit t =>
    simp only [EventLoop.step] at hstep
    split at hstep
    . rw [Option.some.injEq] at hstep
      subst hstep
      exact .stores trivial rfl rfl
    . contradiction
  | quitInLoopThread =>
    simp only [EventLoop.step, Option.some.injEq] at hstep
    subst hstep
    exact .stores trivial rfl rfl
  | enter =>
    simp only [EventLoop.step] at hstep
    split at hstep
    . next hpc =>
      rw [Option.some.injEq] at hstep
      subst hstep
      exact .enter hpc
    . contradiction
  | push t functor | wakeup t | quitWakeup t =>
    simp only [EventLoop.step] at hstep
    split at hstep
    . rw [Option.some.injEq] at hstep
      subst hstep
      exact .other ⟨by simp, id⟩ rfl Iff.rfl
    . contradiction
  | test =>
    simp only [EventLoop.step] at hstep
    split at hstep
    . next hpc =>
      rw [Option.some.injEq] at hstep
      subst hstep
      refine .other ⟨by simp, id⟩ rfl ?_
      rw [hpc]
      split <;> simp
    . contradiction
  | pollReturn wakeup =>
    simp only [EventLoop.step] at hstep
    split at hstep
    . next hpc =>
      split at hstep
      . rw [Option.some.injEq] at hstep
        subst hstep
        exact .other ⟨by simp, id⟩ rfl (by simp [hpc])
      . contradiction
    . contradiction
  | handleWakeup | dispatched | swap | runFunctor | doneFunctors =>
    simp only [EventLoop.step] at hstep
    split at hstep
    . next hpc =>
      rw [Option.some.injEq] at hstep
      subst hstep
      exact .other ⟨by simp, id⟩ rfl (by simp [hpc])
    . contradiction

/--
What the run says about the flag: `loop()` has been entered if `enter` is in it, and from then on the
flag is set if it was stored behind that.
-/
structure Recorded (ls : List (Label Tid Functor)) (loop : EventLoop Tid Functor) : Prop where
  entered : loop.pc = .entering ↔ .enter ∉ ls
  stored : loop.pc ≠ .entering → (loop.quit_ = true ↔ StoredInLoop ls)

theorem Recorded.step {ls : List (Label Tid Functor)} {l : Label Tid Functor} (h : Recorded ls loop)
    (hflags : Flags loop l loop') : Recorded (ls ++ [l]) loop' := by
  cases hflags with
  | enter hpc =>
    have hnone : .enter ∉ ls := h.entered.mp hpc
    constructor
    . simp
    . rw [storedInLoop_append]
      simp only [Label.Stores, and_false, or_false, Bool.false_eq_true, false_iff, ne_eq,
        reduceCtorEq, not_false_eq_true, forall_const]
      rintro ⟨before, l', after, rfl, henter, _⟩
      exact hnone (List.mem_append_left _ henter)
  | stores hl hquit hpc =>
    constructor
    . rw [hpc, h.entered]
      have hne : l ≠ .enter := by
        rintro rfl
        exact hl
      simp [hne.symm]
    . intro hentered
      rw [hpc, ne_eq, h.entered, not_not] at hentered
      rw [storedInLoop_append]
      simp [hquit, hentered, hl]
  | other hl hquit hpc =>
    constructor
    . rw [hpc, h.entered]
      simp [hl.1.symm]
    . intro hentered
      rw [hquit, h.stored (fun heq => hentered (hpc.mpr heq)), storedInLoop_append]
      simp [hl.2]

variable [DecidableEq Tid]

theorem Recorded.of_exec {ls : List (Label Tid Functor)}
    (h : exec EventLoop.step EventLoop.init ls = some loop)
    : Recorded ls loop := by
  induction ls using List.reverseRecOn generalizing loop with
  | nil =>
    rw [exec_nil, Option.some.injEq] at h
    subst h
    constructor
    . simp [init]
    . simp [init]
  | append_singleton ls l ih =>
    obtain ⟨mid, hls, hlast⟩ := (exec_append_eq_some _).mp h
    obtain ⟨_, hl, hnil⟩ := (exec_cons_eq_some _).mp hlast
    rw [exec_nil, Option.some.injEq] at hnil
    subst hnil
    exact (ih hls).step (flags_of_step hl)

theorem pc_of_test {ls : List (Label Tid Functor)} (h : exec step init ls = some loop)
    (htest : step loop .test = some loop') : loop'.pc ≠ .polling ↔ StoredInLoop ls := by
  have hrecorded := Recorded.of_exec h
  simp only [step] at htest
  split at htest
  . next hpc =>
    rw [Option.some.injEq] at htest
    subst htest
    rw [← hrecorded.stored (by simp [hpc])]
    cases loop.quit_ with
    | true => simp
    | false => simp
  . contradiction

/--
In a run no call of `quit` is lost exactly if, whenever the loop evaluates `!quit_` behind the return of
one, some call has stored the flag since `loop()` was entered.
-/
theorem quitKept_iff {ls : List (Label Tid Functor)} (h : exec step init ls = some loop)
    : QuitKept ls
        ↔
      ∀ before after, ls = before ++ .test :: after → QuitReturned before → StoredInLoop before := by
  constructor
  . rintro hkept before after rfl hreturned
    obtain ⟨mid, hbefore, hrest⟩ := (exec_append_eq_some step).mp h
    obtain ⟨next, htest, _⟩ := (exec_cons_eq_some step).mp hrest
    exact (pc_of_test hbefore htest).mp (hkept before after mid next rfl hreturned hbefore htest)
  . intro hstored before after mid next heq hreturned hbefore htest
    exact (pc_of_test hbefore htest).mpr (hstored before after heq hreturned)

def startup : List (Label Nat Nat) := [.quitInLoopThread, .enter, .test]

theorem not_quitKept_startup : (exec step init startup).isSome = true ∧ ¬QuitKept startup := by
  refine ⟨rfl, fun hkept => ?_⟩
  apply hkept [.quitInLoopThread, .enter] [] _ _ rfl ⟨_, List.mem_cons_self, trivial⟩ rfl rfl
  rfl

/--
The flag of the first call is reset, but the second one comes in time.
-/
def secondSignal : List (Label Nat Nat) :=
  [.quit 0, .enter, .test, .quitWakeup 0, .quitInLoopThread, .pollReturn true, .handleWakeup,
    .dispatched, .swap, .doneFunctors, .test]

theorem quitKept_iff_secondSignal : QuitKept secondSignal := by
  have hend := Option.eq_some_of_isSome (o := exec step init secondSignal) rfl
  apply (quitKept_iff hend).mpr
  intro before after heq hreturned
  have htest : secondSignal[before.length]? = some .test := by simp [heq]
  have hbefore : before = secondSignal.take before.length := by rw [heq, List.take_left]
  have hcases : before.length = 2 ∨ before.length = 10 := by
    have hlt := (List.getElem?_eq_some_iff.mp htest).1
    change before.length < 11 at hlt
    interval_cases before.length <;> simp [secondSignal] at htest ⊢
  rcases hcases with htwo | hten
  . rw [htwo] at hbefore
    rw [hbefore] at hreturned
    obtain ⟨l, hl, hlast⟩ := hreturned
    simp only [secondSignal, List.take, List.mem_cons, List.not_mem_nil, or_false] at hl
    rcases hl with rfl | rfl <;> contradiction
  . rw [hbefore, hten]
    exact ⟨secondSignal.take 4, .quitInLoopThread, (secondSignal.take 10).drop 5, rfl, by simp [secondSignal],
      trivial⟩

end EventLoop
end LFGateway
