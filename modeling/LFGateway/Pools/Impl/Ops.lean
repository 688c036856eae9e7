import LFGateway.Gateway.Impl.Api
import LFGateway.Pools.Impl.MySQLPool
import LFGateway.Stream.Impl

/-!
This module contains the operations of programs that take connections from `RedisPool` and
`MySQLPool`, and the two ways in which a command gets to Redis.
-/

namespace LFGateway

open Foundation

/--
A row of `api_routes` as the gateway keeps it.
-/
structure LoadedRule extends RouteRule where
  id : Int
  targetHost : Bytes
  targetPort : Int
  deriving DecidableEq, Repr

/--
A `MYSQL_ROW` is an array of C strings, where `NULL` is a null pointer.
-/
abbrev Row := List (Option Bytes)

abbrev Context := Nat

inductive RedisCmd where
  | ofApi (cmd : Command)
  /-- `XGROUP CREATE log_stream log_writers 0` -/
  | xgroupCreate
  /-- `XREADGROUP GROUP log_writers writer_1 COUNT 10 STREAMS log_stream >` -/
  | xreadgroup
  /-- `XACK log_stream log_writers id` -/
  | xack (id : Nat)
  deriving DecidableEq, Repr

/--
What is made of a reply that is not a null pointer: the reply itself, or the messages in it.
-/
abbrev RedisCmd.Value : RedisCmd → Type
  | xreadgroup => List Entry
  | _ => RedisReply

inductive Query where
  /-- `SELECT id, path_pattern, target_host, target_port, need_auth, rate_limit FROM api_routes` -/
  | selectRoutes
  /-- `DELETE FROM api_routes WHERE id = routeId` -/
  | deleteRoute (routeId : Int)
  /-- `SELECT path, user_id, status_code, latency_ms, created_at FROM api_call_logs ORDER BY id DESC
  LIMIT 20` -/
  | selectLogs
  /-- `INSERT INTO api_call_logs (path, user_id, status_code, latency_ms) VALUES ...` -/
  | insertLogs (messages : List Entry)
  deriving DecidableEq, Repr

inductive PoolOp where
  | redisAcquire
  /-- `redisCommand` and `redisvCommand` -/
  | redisCommand (ctx : Context) (cmd : RedisCmd)
  | redisRelease (ctx : Context)
  /-- `MySQLPool::acquire`, which may throw -/
  | mysqlAcquire
  /-- whether `mysql_query` returns 0 -/
  | mysqlQuery (conn : Conn) (query : Query)
  /-- `mysql_store_result` with all its rows, or a null pointer -/
  | mysqlStoreResult (conn : Conn)
  | mysqlRelease (conn : Conn)
  /-- the new `rules_` of the router -/
  | swapRules (rules_ : List LoadedRule)
  /-- an operation without a connection -/
  | api (o : ApiOp)
  deriving DecidableEq, Repr

abbrev PoolOp.Reply : PoolOp → Type
  | redisAcquire => Context
  | redisCommand _ cmd => Option cmd.Value
  | redisRelease _ => Unit
  | mysqlAcquire => Option Conn
  | mysqlQuery _ _ => Bool
  | mysqlStoreResult _ => Option (List Row)
  | mysqlRelease _ => Unit
  | swapRules _ => Unit
  | api o => o.Reply

abbrev PoolProg := Prog PoolOp PoolOp.Reply

namespace Pools

abbrev perform (o : PoolOp) : PoolProg o.Reply := Prog.perform o

/--
`RedisClient::execute`. The pool has no null pointers.
-/
def execute (cmd : RedisCmd) : PoolProg (Option cmd.Value) := do
  let ctx ← perform .redisAcquire
  let reply ← perform (.redisCommand ctx cmd)
  perform (.redisRelease ctx)
  return reply

/--
`DistributedRateLimiter::acquireToken`, `none` where it throws.
-/
def acquireToken (key : Bytes) (rate capacity : Int) : PoolProg (Option Bool) := do
  let now ← perform (.api .systemNow)
  let ctx ← perform .redisAcquire
  let reply ← perform
    (.redisCommand ctx (.ofApi (.eval key.cStr capacity rate (now.tdiv 1000000))))
  perform (.redisRelease ctx)
  match reply with
  | none => return none
  | some reply => return some (reply = .integer 1)

/--
A command of a request goes through a context of the pool.
-/
def lowerOp : (o : ApiOp) → PoolProg o.Reply
  | .command _ cmd => execute (.ofApi cmd)
  | .add stat n => perform (.api (.add stat n))
  | .steadyNow => perform (.api .steadyNow)
  | .systemNow => perform (.api .systemNow)
  | .routerMatch path => perform (.api (.routerMatch path))
  | .readRule rule => perform (.api (.readRule rule))
  | .send text => perform (.api (.send text))

end Pools
end LFGateway
