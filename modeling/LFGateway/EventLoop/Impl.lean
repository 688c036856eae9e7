import Mathlib.Algebra.Group.Nat.Defs
import LFGateway.Foundation.Machine
import LFGateway.Foundation.Fifo

/-!
This module contains `EventLoop` as the threads see it that post functors to it: `runInLoop` and
`quit` on one side, the passes of `loop()` on the other, an eventfd in between. Every section that
the code runs with `mutex_` held and every system call is one step.
-/

namespace LFGateway

variable {Tid : Type u} {Functor : Type v}

/--
Where the loop thread is.
-/
inductive LoopPc (Functor : Type v) where
  /-- `loop()` has not been entered -/
  | entering
  /-- about to evaluate `!quit_` -/
  | testing
  /-- in `epoll_wait` -/
  | polling
  /-- handling the events of a batch, `wakeup` says that `wakeupChannel_` is still to come -/
  | dispatching (wakeup : Bool)
  /-- about to lock `mutex_` and swap in `doPendingFunctors` -/
  | swapping
  /-- running the swapped vector -/
  | running (functors : List Functor)
  | returned
  deriving DecidableEq, Repr

/--
The functors that were swapped out and have not run.
-/
def LoopPc.functors : LoopPc Functor → List Functor
  | running functors => functors
  | entering | testing | polling | dispatching _ | swapping | returned => []

/--
`posting` holds the threads between `push_back` and the write to the eventfd in `runInLoop`,
`quitting` those between the two steps of `quit`. `ran` records the functors that were called.
-/
structure EventLoop (Tid : Type u) (Functor : Type v) where
  pc : LoopPc Functor
  quit_ : Bool
  pendingFunctors_ : Foundation.Fifo Functor
  /-- the counter of the eventfd `wakeupFd_` -/
  wakeups : Nat
  posting : List Tid
  quitting : List Tid
  ran : List Functor

namespace EventLoop

def init : EventLoop Tid Functor := ⟨.entering, false, .empty, 0, [], [], []⟩

/--
`write` of 1 to the nonblocking eventfd: at its maximum the counter stays (`EAGAIN`).
-/
def wakeup (wakeups : Nat) : Nat := if wakeups + 1 ≤ 2 ^ 64 - 2 then wakeups + 1 else wakeups

inductive Label (Tid : Type u) (Functor : Type v) where
  /-- `runInLoop` on another thread: `push_back` with `mutex_` held -/
  | push (t : Tid) (functor : Functor)
  /-- `runInLoop` on another thread: `wakeup()` -/
  | wakeup (t : Tid)
  /-- `quit()` on another thread: the store and the `wakeup()` -/
  | quit (t : Tid)
  | quitWakeup (t : Tid)
  /-- `quit()` on the loop thread, as from a signal handler -/
  | quitInLoopThread
  /-- `loop()` up to the `while` -/
  | enter
  | test
  /-- `epoll_wait` returns: events, a timeout or an error -/
  | pollReturn (wakeup : Bool)
  | handleWakeup
  /-- the batch is done -/
  | dispatched
  | swap
  | runFunctor
  | doneFunctors

def posted (ls : List (Label Tid Functor)) : List Functor :=
  ls.filterMap fun
    | .push _ functor => some functor
    | _ => none

def step [DecidableEq Tid] (loop : EventLoop Tid Functor)
    : Label Tid Functor → Option (EventLoop Tid Functor)
  | .push t functor =>
    if t ∉ loop.posting ∧ t ∉ loop.quitting then
      some { loop with
        pendingFunctors_ := loop.pendingFunctors_.push functor
        posting := t :: loop.posting
      }
    else
      none
  | .wakeup t =>
    if t ∈ loop.posting then
      some { loop with wakeups := wakeup loop.wakeups, posting := loop.posting.erase t }
    else
      none
  | .quit t =>
    if t ∉ loop.posting ∧ t ∉ loop.quitting then
      some { loop with quit_ := true, quitting := t :: loop.quitting }
    else
      none
  | .quitWakeup t =>
    if t ∈ loop.quitting then
      some { loop with wakeups := wakeup loop.wakeups, quitting := loop.quitting.erase t }
    else
      none
  | .quitInLoopThread => some { loop with quit_ := true }
  | .enter =>
    match loop.pc with
    | .entering => some { loop with quit_ := false, pc := .testing }
    | _ => none
  | .test =>
    match loop.pc with
    | .testing => some { loop with pc := if loop.quit_ then .returned else .polling }
    | _ => none
  | .pollReturn wakeup =>
    match loop.pc with
    | .polling =>
      -- level triggered: the eventfd is readable while its counter is not 0
      if wakeup = true → 0 < loop.wakeups then
        some { loop with pc := .dispatching wakeup }
      else
        none
    | _ => none
  | .handleWakeup =>
    match loop.pc with
    | .dispatching true => some { loop with wakeups := 0, pc := .dispatching false }
    | _ => none
  | .dispatched =>
    match loop.pc with
    | .dispatching false => some { loop with pc := .swapping }
    | _ => none
  | .swap =>
    match loop.pc with
    | .swapping =>
      let (functors, pendingFunctors_) := loop.pendingFunctors_.drain
      some { loop with pendingFunctors_, pc := .running functors }
    | _ => none
  | .runFunctor =>
    match loop.pc with
    | .running (functor :: functors) =>
      some { loop with ran := loop.ran ++ [functor], pc := .running functors }
    | _ => none
  | .doneFunctors =>
    match loop.pc with
    | .running [] => some { loop with pc := .testing }
    | _ => none

end EventLoop
end LFGateway
