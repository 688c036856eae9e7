import LFGateway.Foundation.Significant
import LFGateway.Foundation.Surroundings
import LFGateway.Routes.Commands

/-!
This module contains `MgmtHandler::onMessage` with all its commands, and the tables it works on as long
as MySQL does what it is asked for.
-/

namespace LFGateway

open Foundation

inductive PoolCount where
  | active_count
  | idle_count
  | total_acquires
  | total_timeouts
  deriving DecidableEq, Repr

/--
What the handler does besides computing: it reads counters, and it does what its calls do.
-/
inductive MgmtOp where
  | load (stat : Stat)
  | count (number : PoolCount)
  | pool (o : PoolOp)
  deriving DecidableEq, Repr

abbrev MgmtOp.Reply : MgmtOp → Type
  | load _ => UInt64
  | count _ => UInt64
  | pool o => o.Reply

abbrev MgmtProg := Prog MgmtOp MgmtOp.Reply

abbrev MgmtEvent := Event MgmtOp MgmtOp.Reply

namespace Mgmt

abbrev perform (o : MgmtOp) : MgmtProg o.Reply := Prog.perform o

def call {α : Type} (p : PoolProg α) : MgmtProg α := p.lower fun o => perform (.pool o)

end Mgmt

namespace Gateway

def uint64 (n : UInt64) : Bytes := Bytes.ofNat n.toNat

def getStatsJson : MgmtProg Bytes := do
  let reqs ← Mgmt.perform (.load .totalRequests_)
  let latUs ← Mgmt.perform (.load .totalLatencyUs_)
  let avgMs := if 0 < reqs then Bytes.ofRatio latUs.toNat (1000 * reqs.toNat) else Bytes.ofNat 0
  let rejectedAuth ← Mgmt.perform (.load .rejectedAuth_)
  let rejectedLimit ← Mgmt.perform (.load .rejectedLimit_)
  return Bytes.ofAscii "\x7b\"totalRequests\":" ++ uint64 reqs ++
    Bytes.ofAscii ",\"avgLatencyMs\":" ++ avgMs ++
    Bytes.ofAscii ",\"rejectedAuth\":" ++ uint64 rejectedAuth ++
    Bytes.ofAscii ",\"rejectedLimit\":" ++ uint64 rejectedLimit ++ Bytes.ofAscii "\x7d"

/--
`apiServer_` is never null.
-/
def getHealthJson : MgmtProg Bytes := do
  let reqs ← Mgmt.perform (.load .totalRequests_)
  let active ← Mgmt.perform (.count .active_count)
  let idle ← Mgmt.perform (.count .idle_count)
  let acquires ← Mgmt.perform (.count .total_acquires)
  let timeouts ← Mgmt.perform (.count .total_timeouts)
  return Bytes.ofAscii "\x7b" ++
    Bytes.ofAscii "\"status\":\"running\"," ++
    Bytes.ofAscii "\"totalRequests\":" ++ uint64 reqs ++ Bytes.ofAscii "," ++
    Bytes.ofAscii "\"activeConnections\":" ++ Bytes.ofAscii "running" ++ Bytes.ofAscii "," ++
    Bytes.ofAscii "\"mysqlPool\":\x7b" ++
    Bytes.ofAscii "\"active\":" ++ uint64 active ++ Bytes.ofAscii "," ++
    Bytes.ofAscii "\"idle\":" ++ uint64 idle ++ Bytes.ofAscii "," ++
    Bytes.ofAscii "\"totalAcquires\":" ++ uint64 acquires ++ Bytes.ofAscii "," ++
    Bytes.ofAscii "\"totalTimeouts\":" ++ uint64 timeouts ++
    Bytes.ofAscii "\x7d," ++
    Bytes.ofAscii "\"redisPool\":\"connected\"" ++
    Bytes.ofAscii "\x7d"

end Gateway

namespace MgmtHandler

/--
`data.substr(pos)`, `none` where it throws.
-/
def substr (data : Bytes) (pos : Nat) : Option Bytes :=
  if data.length < pos then none else some (data.drop pos)

/--
A handler reports the result of its call. An exception leaves it, `none`.
-/
def handled {α : Type} (call : PoolProg (Option α)) (report : Option α → PoolProg Unit)
    : PoolProg (Option Unit) := do
  let result ← call
  report result
  return result.map fun _ => ()

def unknownCommand : Bytes := Bytes.ofAscii "\x7b\"error\": \"unknown command\"\x7d"

def STATS : Bytes := Bytes.ofAscii "STATS"

def HEALTH : Bytes := Bytes.ofAscii "HEALTH"

def ROUTE_LIST : Bytes := Bytes.ofAscii "ROUTE_LIST"

def ROUTE_ADD : Bytes := Bytes.ofAscii "ROUTE_ADD"

def ROUTE_DELETE : Bytes := Bytes.ofAscii "ROUTE_DELETE"

def LOG_QUERY : Bytes := Bytes.ofAscii "LOG_QUERY"

/--
`MgmtHandler::onMessage`, `none` where an exception leaves it.
-/
def onMessage (data : Bytes) : MgmtProg (Option Unit) := do
  if data.find STATS = some 0 then
    let json ← Gateway.getStatsJson
    Mgmt.call (sendLine (some json))
    return some ()
  else if data.find HEALTH = some 0 then
    let json ← Gateway.getHealthJson
    Mgmt.call (sendLine (some json))
    return some ()
  else if data.find ROUTE_LIST = some 0 then
    Mgmt.call (handled Gateway.getRouteListJson sendLine)
  else if data.find ROUTE_ADD = some 0 then
    match substr data 10 with
    | none => return none
    | some body => Mgmt.call (handled (Gateway.addRoute body) report)
  else if data.find ROUTE_DELETE = some 0 then
    match substr data 13 with
    | none => return none
    | some body => Mgmt.call (handled (Gateway.deleteRoute body) report)
  else if data.find LOG_QUERY = some 0 then
    match substr data 10 with
    | none => return none
    | some body => Mgmt.call (handled (Gateway.getLogsJson body) sendLine)
  else
    Mgmt.call (sendLine (some unknownCommand))
    return some ()

theorem handled_eq {α : Type} (call : PoolProg (Option α)) (report : Option α → PoolProg Unit)
    : (do let _ ← handled call report) = (do report (← call)) := by
  unfold handled
  simp only [bind_assoc, pure_bind]
  congr 1
  funext result
  exact bind_pure_unit

end MgmtHandler

/--
The tables, the query whose result a connection holds, and the answers that the management clients got.
A row of `api_call_logs` is what `SELECT path, user_id, status_code, latency_ms, created_at` returns, in
the order of the ids.
-/
structure Management where
  api_routes : List ApiRoute
  api_call_logs : List Row
  selected : Option Query
  sent : List Bytes

namespace Management

def execute (s : Management) : Query → Management
  | .selectRoutes => { s with selected := some .selectRoutes }
  | .deleteRoute routeId =>
    { s with
      api_routes := s.api_routes.filter fun route => route.id.toInt ≠ routeId
      selected := none
    }
  | .selectLogs => { s with selected := some .selectLogs }
  | .insertLogs _ => { s with selected := none }

def latest (s : Management) : List Row := s.api_call_logs.reverse.take 20

def Returns (s : Management) (rows : List Row) : Prop :=
  match s.selected with
  | some .selectRoutes =>
    ∃ routes : List ApiRoute, routes.Perm s.api_routes ∧ rows = routes.map ApiRoute.row
  | some .selectLogs => rows = s.latest
  | _ => False

def poolReplies : Surroundings PoolOp PoolOp.Reply Management
  | s, .mysqlAcquire, conn, s' => conn ≠ none ∧ s' = s
  | s, .mysqlQuery _ query, ok, s' => ok = true ∧ s' = s.execute query
  | s, .mysqlStoreResult _, rows, s' => (∃ rows', rows = some rows' ∧ s.Returns rows') ∧ s' = s
  | s, .api (.send text), _, s' => s' = { s with sent := s.sent ++ [text] }
  | s, _, _, s' => s' = s

def replies : Surroundings MgmtOp MgmtOp.Reply Management
  | s, .pool o, r, s' => poolReplies s o r s'
  | s, .load _, _, s' | s, .count _, _, s' => s' = s

end Management
end LFGateway
