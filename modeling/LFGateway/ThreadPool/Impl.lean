import LFGateway.Foundation.Machine
import LFGateway.Foundation.Fifo

/-!
This module contains `ThreadPool`: its workers, the two `enqueue` overloads and the destructor as
one machine. Every section that the code runs with `mutex_` held is one step.
-/

namespace LFGateway

variable {Task : Type u}

/--
Where a worker thread is in `worker_loop`.
-/
inductive Worker (Task : Type u) where
  /-- about to lock `mutex_` and evaluate the predicate of `cv_.wait` -/
  | checking
  /-- blocked in `cv_.wait` -/
  | waiting
  | running (task : Task)
  /-- returned from `worker_loop` -/
  | exited
  deriving DecidableEq, Repr

def Worker.tasks : Worker Task → List Task
  | running task => [task]
  | checking | waiting | exited => []

def Worker.wake : Worker Task → Worker Task
  | waiting => checking
  | w => w

def Worker.isWaiting : Worker Task → Bool
  | waiting => true
  | checking | running _ | exited => false

/--
Where the thread that destroys the pool is in `~ThreadPool`.
-/
inductive PoolDestructor where
  | notStarted
  /-- `stop_` is set, `cv_.notify_all()` is next -/
  | stopping
  /-- joining worker `k` -/
  | joining (k : Nat)
  | joined
  deriving DecidableEq, Repr

/--
`refused` and `finished` record the tasks an `enqueue` turned away and the tasks that have run.
-/
structure ThreadPool (Task : Type u) where
  workers_ : List (Worker Task)
  tasks_ : Foundation.Fifo Task
  stop_ : Bool
  /-- calls of `enqueue` that have pushed and not yet called `cv_.notify_one()` -/
  notifying : Nat
  destructor : PoolDestructor
  refused : List Task
  finished : List Task

namespace ThreadPool

/--
The constructor: `num_threads` workers start their loops.
-/
def init (num_threads : Nat) : ThreadPool Task :=
  ⟨List.replicate num_threads .checking, .empty, false, 0, .notStarted, [], []⟩

def running (pool : ThreadPool Task) : List Task := pool.workers_.flatMap Worker.tasks

/--
What the two overloads of `enqueue` do to a task they turn away: `enqueue(std::function<void()>)`
drops it silently, the template throws.
-/
inductive Overload where
  | function
  | future
  deriving DecidableEq, Repr

inductive EnqueueResult where
  | accepted
  | dropped
  /-- `throw std::runtime_error("ThreadPool is stopped")` -/
  | threw
  deriving DecidableEq, Repr

def enqueue (pool : ThreadPool Task) (overload : Overload) (task : Task)
    : ThreadPool Task × EnqueueResult :=
  if pool.stop_ then
    let pool := { pool with refused := pool.refused ++ [task] }
    match overload with
    | .function => (pool, .dropped)
    | .future => (pool, .threw)
  else
    ({ pool with tasks_ := pool.tasks_.push task, notifying := pool.notifying + 1 }, .accepted)

/--
One round of `worker_loop` with `mutex_` held: wait, return or take a task.
-/
def check (pool : ThreadPool Task) (i : Nat) : ThreadPool Task :=
  match pool.tasks_.pop with
  | none =>
    if pool.stop_ then
      { pool with workers_ := pool.workers_.set i .exited }
    else
      { pool with workers_ := pool.workers_.set i .waiting }
  | some (task, tasks_) =>
    { pool with workers_ := pool.workers_.set i (.running task), tasks_ }

inductive Label (Task : Type u) where
  | enqueue (overload : Overload) (task : Task)
  /-- `cv_.notify_one()` wakes worker `i` -/
  | notifyOne (i : Nat)
  /-- `cv_.notify_one()` finds no worker waiting -/
  | notifyNone
  /-- `cv_.wait` may return without a notification -/
  | spurious (i : Nat)
  | check (i : Nat)
  | finish (i : Nat)
  /-- `~ThreadPool` sets `stop_` -/
  | setStop
  | notifyAll
  | join

def step (pool : ThreadPool Task) : Label Task → Option (ThreadPool Task)
  | .enqueue overload task => some (pool.enqueue overload task).1
  | .notifyOne i =>
    match pool.workers_[i]? with
    | some .waiting =>
      if 0 < pool.notifying then
        some { pool with
          notifying := pool.notifying - 1
          workers_ := pool.workers_.set i .checking
        }
      else
        none
    | _ => none
  | .notifyNone =>
    if 0 < pool.notifying ∧ pool.workers_.all (!·.isWaiting) then
      some { pool with notifying := pool.notifying - 1 }
    else
      none
  | .spurious i =>
    match pool.workers_[i]? with
    | some .waiting => some { pool with workers_ := pool.workers_.set i .checking }
    | _ => none
  | .check i =>
    match pool.workers_[i]? with
    | some .checking => some (pool.check i)
    | _ => none
  | .finish i =>
    match pool.workers_[i]? with
    | some (.running task) =>
      some { pool with
        workers_ := pool.workers_.set i .checking
        finished := pool.finished ++ [task]
      }
    | _ => none
  | .setStop =>
    match pool.destructor with
    | .notStarted => some { pool with stop_ := true, destructor := .stopping }
    | _ => none
  | .notifyAll =>
    match pool.destructor with
    | .stopping =>
      some { pool with
        workers_ := pool.workers_.map Worker.wake
        destructor := .joining 0
      }
    | _ => none
  | .join =>
    match pool.destructor with
    | .joining k =>
      match pool.workers_[k]? with
      | some .exited => some { pool with destructor := .joining (k + 1) }
      | some _ => none
      | none => some { pool with destructor := .joined }
    | _ => none

end ThreadPool
end LFGateway
