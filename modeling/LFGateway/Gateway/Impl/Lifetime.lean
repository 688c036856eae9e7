import LFGateway.Gateway.Impl.Process
import LFGateway.Stream.Impl

/-!
This module contains the end of a `Gateway`: the main thread leaves `loop()` and runs `~Gateway`, while
the workers of the pool and the thread of the stream writer go on. The members are destroyed in the
reverse order of their declaration.
-/

namespace LFGateway

open Foundation

def Member.declared : List Member := [
  .streamWriter_, .apiServer_, .mgmtServer_, .threadPool_, .mysqlPool_, .redisPool_, .redisClient_,
  .router_, .auth_, .rateLimiter_, .logConsumer_, .mgmtHandler_, .distributedLimiter_
]

/--
The members an operation of a request dereferences: every client of Redis goes through `redisClient_`
to `redisPool_`, and `rule` points into `router_`.
-/
def ApiOp.uses : ApiOp → List Member
  | .routerMatch _ | .readRule _ => [.router_]
  | .command via _ => [via, .redisClient_, .redisPool_]
  | .add _ _ | .steadyNow | .systemNow | .send _ => []

/--
The members the next call of `StreamWriter::run` dereferences. `mysql_query` works on a connection that
was taken out of the pool.
-/
def StreamWriter.Pc.uses : StreamWriter.Pc Entry → List Member
  | .create | .read | .ack _ (_ :: _) => [.redisClient_, .redisPool_]
  | .acquire _ | .release _ => [.mysqlPool_]
  | .stopped | .loop | .sleep | .query _ | .ack _ [] | .caught => []

inductive Main where
  /-- up to the return of `loop.loop()` -/
  | serving
  /-- `~Gateway` is about to call `stop()` -/
  | stopping
  /-- these members are still to be destroyed, in this order -/
  | destroying (members : List Member)
  deriving DecidableEq, Repr

structure Lifetime where
  process : Process
  stream : StreamWriter.State
  main : Main
  destroyed : List Member

namespace Lifetime

/--
The constructor is done: it has called `streamWriter_->start()`.
-/
def init (threadNum : Nat) (store : LogStore) : Lifetime where
  process := .init threadNum
  stream := ⟨store, ⟨.create, true⟩⟩
  main := .serving
  destroyed := []

inductive Label where
  /-- a step of a worker, or of the loop while it runs -/
  | process (l : Process.Label)
  /-- a step of the stream writer, or of others on the stream -/
  | stream (l : StreamWriter.Label)
  /-- `main` comes to the end of the block that holds the gateway -/
  | leave
  /-- `Gateway::stop`, which tells the log consumer to stop and nobody else -/
  | stop
  /-- a step of `~ThreadPool` -/
  | destroyPool (l : ThreadPool.Label Job)
  /-- `~StreamWriter` calls `stop()` -/
  | stopWriter
  /-- the destructor of the next member is done -/
  | destroyed

/--
The destructors of two members wait for their threads.
-/
def joined (s : Lifetime) : Member → Bool
  | .threadPool_ => s.process.pool.destructor = .joined
  | .streamWriter_ => s.stream.writer.pc = .stopped
  | _ => true

def step (s : Lifetime) : Label → Option Lifetime
  | .process l =>
    match s.process.step l with
    | some process => some { s with process }
    | none => none
  | .stream l =>
    match l with
    | .writer _ | .push .. | .trim _ =>
      match StreamWriter.step s.stream l with
      | some stream => some { s with stream }
      | none => none
    | .start | .stop | .crash => none
  | .leave =>
    match s.main, s.process.loop.pc with
    | .serving, .returned => some { s with main := .stopping }
    | _, _ => none
  | .stop =>
    match s.main with
    | .stopping => some { s with main := .destroying Member.declared.reverse }
    | _ => none
  | .destroyPool l =>
    match s.main, l with
    | .destroying (.threadPool_ :: _), .setStop
    | .destroying (.threadPool_ :: _), .notifyAll
    | .destroying (.threadPool_ :: _), .join =>
      match s.process.pool.step l with
      | some pool => some { s with process := { s.process with pool } }
      | none => none
    | _, _ => none
  | .stopWriter =>
    match s.main with
    | .destroying (.streamWriter_ :: _) =>
      match StreamWriter.step s.stream .stop with
      | some stream => some { s with stream }
      | none => none
    | _ => none
  | .destroyed =>
    match s.main with
    | .destroying (m :: members) =>
      if s.joined m then
        some { s with main := .destroying members, destroyed := s.destroyed ++ [m] }
      else
        none
    | _ => none

/--
The step belongs to a task or to the stream writer and uses a member that was destroyed.
-/
def UsesDestroyed (s : Lifetime) : Label → Prop
  | .process (.perform _ e) => ∃ m ∈ e.op.uses, m ∈ s.destroyed
  | .stream (.writer _) => ∃ m ∈ s.stream.writer.pc.uses, m ∈ s.destroyed
  | _ => False

/--
Whatever happens from `s` on, no task and not the stream writer uses a destroyed member.
-/
def OrderedShutdown (s : Lifetime) : Prop :=
  ∀ ls, (exec step s ls).isSome → Meets step (fun s l => ¬UsesDestroyed s l) s ls

end Lifetime
end LFGateway
