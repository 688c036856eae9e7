import LFGateway.EventLoop.Impl
import LFGateway.ThreadPool.Impl
import LFGateway.Net.Impl.TcpConnection
import LFGateway.Gateway.Impl.Api

/-!
This module contains the gateway while it serves: the loop thread with its connections, the pool that
runs `processApiRequest` for what was read, and the functors that carry the answers back. The parts
are the machines of their own modules, here they call each other.
-/

namespace LFGateway

open Foundation

/--
A task of the pool: `raw` is the buffer that the read number `id` of the API server left on connection
`conn`.
-/
structure Job where
  id : Nat
  conn : Nat
  raw : Bytes
  deriving DecidableEq, Repr

/--
What `TcpConnection::send` captures when a worker calls it. `id` is the job it answers.
-/
structure Response where
  id : Nat
  conn : Nat
  message : Bytes
  deriving DecidableEq, Repr

/--
`program w` is what worker `w` has left to do of the job it runs. `appended c` records the jobs whose
answers have come to `outputBuffer_` of connection `c`.
-/
structure Process where
  reactor : Reactor
  pool : ThreadPool Job
  loop : EventLoop Nat Response
  program : Nat → ApiProg (Except StdException Unit)
  appended : Nat → List Nat

namespace Process

def init (threadNum : Nat) : Process where
  reactor := .init
  pool := .init threadNum
  loop := .init
  program := fun _ => .ret (.ok ())
  appended := fun _ => []

/--
`Gateway::onApiRequest`, called for what was read since the tasks were last looked at. A lambda takes
the overload of `enqueue` that returns a future, and the future is dropped.
-/
def onApiRequest (pool : ThreadPool Job) (tasks : List (Nat × Bytes)) : ThreadPool Job :=
  tasks.foldl
    (fun pool task => (pool.enqueue .future ⟨pool.tasks_.accepted.length, task.1, task.2⟩).1) pool

def newTasks (before after : Reactor) : List (Nat × Bytes) := after.tasks.drop before.tasks.length

inductive Label where
  /-- the loop thread handles an event of its batch -/
  | event (l : Reactor.Label)
  /-- a notification or a spurious wakeup of the pool -/
  | wake (l : ThreadPool.Label Job)
  | check (w : Nat)
  | perform (w : Nat) (e : ApiEvent)
  | finish (w : Nat)
  /-- what the loop does besides the callbacks, and what others do to it besides `send` -/
  | loop (l : EventLoop.Label Nat Response)
  | runFunctor

/--
Worker `w` goes on with `rest`. A worker that sends posts a functor.
-/
def afterEvent (s : Process) (w : Nat) (job : Job) (o : ApiOp)
    (rest : ApiProg (Except StdException Unit)) : Option Process :=
  let s := { s with program := Function.update s.program w rest }
  match o with
  | .send message =>
    match s.loop.step (.push w ⟨job.id, job.conn, message⟩) with
    | some loop => some { s with loop }
    | none => none
  | _ => some s

def step (s : Process) : Label → Option Process
  | .event l =>
    match s.loop.pc, l with
    | .dispatching _, .event .. | .dispatching _, .accept .. =>
      match s.reactor.step l with
      | some reactor =>
        some { s with reactor, pool := onApiRequest s.pool (newTasks s.reactor reactor) }
      | none => none
    | _, _ => none
  | .wake l =>
    match l with
    | .notifyOne _ | .notifyNone | .spurious _ =>
      match s.pool.step l with
      | some pool => some { s with pool }
      | none => none
    | _ => none
  | .check w =>
    match s.pool.step (.check w) with
    | some pool =>
      match pool.workers_[w]? with
      | some (.running job) =>
        some { s with
          pool
          program := Function.update s.program w (Gateway.processApiRequest job.raw)
        }
      | _ => some { s with pool }
    | none => none
  | .perform w e =>
    -- a worker that has posted is in `wakeup()` until it has written to the eventfd
    if w ∈ s.loop.posting then
      none
    else
      match s.pool.workers_[w]?, (s.program w).resume e with
      | some (.running job), some rest => afterEvent s w job e.op rest
      | _, _ => none
  | .finish w =>
    if w ∈ s.loop.posting then
      none
    else
      match s.program w with
      -- the `packaged_task` keeps an exception for the future that was dropped
      | .ret _ =>
        match s.pool.step (.finish w) with
        | some pool => some { s with pool }
        | none => none
      | .op .. => none
  | .loop l =>
    match l with
    | .push _ _ | .runFunctor => none
    | l =>
      match s.loop.step l with
      | some loop => some { s with loop }
      | none => none
  | .runFunctor =>
    match s.loop.pc with
    | .running (response :: _) =>
      let c := response.conn
      match s.loop.step .runFunctor, s.reactor.step (.functor c response.message) with
      | some loop, some reactor =>
        let grown := (s.reactor.conn c).outputBuffer_ ++ response.message
        let ids :=
          if (reactor.conn c).outputBuffer_ = grown then
            s.appended c ++ [response.id]
          else
            s.appended c
        some { s with loop, reactor, appended := Function.update s.appended c ids }
      | _, _ => none
    | _ => none

def pushed (s : Process) : List Response := s.loop.pendingFunctors_.accepted

/--
The answers of connection `c` are in its output buffer in the order in which the requests were read.
-/
def InReadOrder (s : Process) (c : Nat) : Prop := (s.appended c).Pairwise (· < ·)

/--
The step posts an answer for connection `c` while another worker runs an earlier request of it that is
not answered.
-/
def Overtakes (s : Process) (c : Nat) : Label → Prop
  | .perform w ⟨.send _, _⟩ =>
    match s.pool.workers_[w]? with
    | some (.running job) =>
      job.conn = c ∧
        ∃ other ∈ s.pool.running,
          other.conn = c ∧ other.id < job.id ∧ other.id ∉ s.pushed.map Response.id
    | _ => False
  | _ => False

instance (s : Process) (c : Nat) (l : Label) : Decidable (Overtakes s c l) := by
  unfold Overtakes
  split
  . split <;> infer_instance
  . infer_instance

end Process
end LFGateway
