import LFGateway.Foundation.Threads
import LFGateway.Gateway.Impl.Requests
import LFGateway.Routes.Impl

/-!
This module contains everything in the gateway that takes connections from the two pools, and any
number of such calls that run at the same time.
-/

namespace LFGateway

open Foundation

namespace StreamWriter

/--
The part of `StreamWriter::run` in front of its loop.
-/
def beginRun : PoolProg Unit := do
  let _ ← Pools.execute .xgroupCreate

def ackAll : List Entry → PoolProg Unit
  | [] => return ()
  | msg :: rest => do
    let _ ← Pools.execute (.xack msg.id)
    ackAll rest

/--
One iteration of the loop in `StreamWriter::run`, which holds a connection of MySQL while it
acknowledges. It sleeps with no connection in its hands.
-/
def iteration : PoolProg Unit := do
  let messages := (← Pools.execute .xreadgroup).getD []
  if messages = [] then
    return ()
  else
    match ← Pools.perform .mysqlAcquire with
    | none => return ()
    | some conn =>
      if ← Pools.perform (.mysqlQuery conn (.insertLogs messages)) then
        ackAll messages
        Pools.perform (.mysqlRelease conn)
      else
        Pools.perform (.mysqlRelease conn)

end StreamWriter

namespace Pools

inductive Call where
  | execute (cmd : RedisCmd)
  | acquireToken (key : Bytes) (rate capacity : Int)
  | request (raw : Bytes)
  | beginRun
  | iteration
  | routeAdd (body : Bytes)
  | routeDelete (body : Bytes)
  | routeList
  | logQuery (body : Bytes)
  deriving DecidableEq, Repr

/--
A thread that calls something again and again is a sequence of such calls.
-/
def Call.body : Call → PoolProg Unit
  | .execute cmd => do let _ ← Pools.execute cmd
  | .acquireToken key rate capacity => do let _ ← Pools.acquireToken key rate capacity
  | .request raw => do let _ ← (Gateway.processApiRequest raw).lower lowerOp
  | .beginRun => StreamWriter.beginRun
  | .iteration => StreamWriter.iteration
  | .routeAdd body => MgmtHandler.handleRouteAdd body
  | .routeDelete body => MgmtHandler.handleRouteDelete body
  | .routeList => MgmtHandler.handleRouteList
  | .logQuery body => MgmtHandler.handleLogQuery body

/--
`RedisPool` with the `err` flags of its contexts.
-/
structure RedisPool where
  pool_ : List Context
  err : Context → Bool

structure Shared where
  redis : RedisPool
  mysql : MySQLPool

/--
What the surroundings choose: a reply to every operation that is up to them, and how an `acquire` of
MySQL ends.
-/
structure Choice where
  reply : (o : PoolOp) → o.Reply
  ending : MySQLPool.Ending

/--
A command on a context with `err` set returns a null pointer, and a null pointer sets `err`.
-/
def RedisPool.command (redis : RedisPool) (ctx : Context) {α : Type} (reply : Option α)
    : Option α × RedisPool :=
  if redis.err ctx then
    (none, redis)
  else
    match reply with
    | some value => (some value, redis)
    | none => (none, { redis with err := Function.update redis.err ctx true })

def answer (s : Shared) : (o : PoolOp) → Choice → Option (o.Reply × Shared)
  | .redisAcquire, _ =>
    match s.redis.pool_ with
    -- the caller waits
    | [] => none
    | ctx :: rest => some (ctx, { s with redis := { s.redis with pool_ := rest } })
  | .redisCommand ctx cmd, choice =>
    let (reply, redis) := s.redis.command ctx (choice.reply (.redisCommand ctx cmd))
    some (reply, { s with redis })
  | .redisRelease ctx, _ =>
    some ((), { s with redis := { s.redis with pool_ := s.redis.pool_ ++ [ctx] } })
  | .mysqlAcquire, choice =>
    match s.mysql.beginAcquire.acquire choice.ending with
    | some (conn, mysql) => some (conn, { s with mysql })
    | none => none
  | .mysqlRelease conn, _ => some ((), { s with mysql := s.mysql.release conn })
  | o, choice => some (choice.reply o, s)

abbrev Calls := Threads PoolOp PoolOp.Reply Unit Call Shared

abbrev Running := Thread PoolOp PoolOp.Reply Unit Call

abbrev Calls.Label := Threads.Label Call Choice Empty

def Calls.step : Calls → Calls.Label → Option Calls :=
  Threads.step Call.body answer fun _ e => nomatch e

/--
The pools behind their constructors, before the first call.
-/
def init (redisSize mysqlSize : Nat) : Calls :=
  ⟨⟨⟨List.range redisSize, fun _ => false⟩, MySQLPool.new mysqlSize⟩, []⟩

end Pools
end LFGateway
