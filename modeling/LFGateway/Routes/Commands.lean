import LFGateway.Routes.Impl

/-!
This module contains the management commands that change the route table, one after the other, over
`api_routes` in MySQL and the rules of the router. Each call to MySQL may end in every way it can.
-/

namespace LFGateway

open Foundation

/--
A row of `api_routes` with the types of its columns. `NULL` is `none`.
-/
structure ApiRoute where
  id : Int32
  path_pattern : Bytes
  target_host : Bytes
  target_port : Int32
  need_auth : Option Int8
  rate_limit : Option Int32
  deriving DecidableEq, Repr

namespace ApiRoute

/--
The row as `SELECT id, path_pattern, target_host, target_port, need_auth, rate_limit` returns it.
-/
def row (route : ApiRoute) : Row := [
  some (Bytes.ofInt route.id.toInt),
  some route.path_pattern,
  some route.target_host,
  some (Bytes.ofInt route.target_port.toInt),
  route.need_auth.map fun n => Bytes.ofInt n.toInt,
  route.rate_limit.map fun n => Bytes.ofInt n.toInt
]

def rule (route : ApiRoute) : LoadedRule where
  pathPattern := route.path_pattern.cStr
  needAuth := route.need_auth ≠ some 0
  rateLimit := (route.rate_limit.map Int32.toInt).getD 0
  id := route.id.toInt
  targetHost := route.target_host.cStr
  targetPort := route.target_port.toInt

end ApiRoute

inductive MgmtCommand where
  | routeAdd (body : Bytes)
  | routeDelete (body : Bytes)
  deriving DecidableEq, Repr

namespace MgmtCommand

def body : MgmtCommand → PoolProg Unit
  | .routeAdd body => MgmtHandler.handleRouteAdd body
  | .routeDelete body => MgmtHandler.handleRouteDelete body

def call : MgmtCommand → PoolProg (Option Bool)
  | .routeAdd body => Gateway.addRoute body
  | .routeDelete body => Gateway.deleteRoute body

/--
The id that the command deletes.
-/
def routeId : MgmtCommand → Option Int
  | .routeAdd _ => none
  | .routeDelete body => (Gateway.idText body).bind fun idStr => (stoi idStr).toOption

end MgmtCommand

inductive Outcome where
  | done
  | acquired (conn : Conn)
  | throws
  /-- `mysql_query` returns 0 -/
  | executed
  /-- with an error and no effect, or with a null pointer -/
  | failed
  /-- with an error, but MySQL has executed the statement -/
  | lost
  /-- the rows of the table in any order -/
  | rows (routes : List ApiRoute)
  deriving DecidableEq, Repr

/--
The table and what the router holds, and the answers that the management clients got.
-/
structure Routing where
  api_routes : List ApiRoute
  rules_ : List LoadedRule
  sent : List Bytes
  deriving DecidableEq, Repr

namespace Routing

/--
`DELETE FROM api_routes WHERE id = routeId`
-/
def delete (s : Routing) (routeId : Int) : Routing :=
  { s with api_routes := s.api_routes.filter fun route => route.id.toInt ≠ routeId }

def answer (s : Routing) : (o : PoolOp) → Outcome → Option (o.Reply × Routing)
  | .mysqlAcquire, .acquired conn => some (some conn, s)
  | .mysqlAcquire, .throws => some (none, s)
  | .mysqlQuery _ .selectRoutes, .executed => some (true, s)
  | .mysqlQuery _ .selectRoutes, .failed => some (false, s)
  | .mysqlQuery _ (.deleteRoute routeId), .executed => some (true, s.delete routeId)
  | .mysqlQuery _ (.deleteRoute _), .failed => some (false, s)
  | .mysqlQuery _ (.deleteRoute routeId), .lost => some (false, s.delete routeId)
  | .mysqlStoreResult _, .rows routes =>
    if routes.Perm s.api_routes then some (some (routes.map ApiRoute.row), s) else none
  | .mysqlStoreResult _, .failed => some (none, s)
  | .mysqlRelease _, .done => some ((), s)
  | .swapRules rules_, .done => some ((), { s with rules_ })
  | .api (.send text), .done => some ((), { s with sent := s.sent ++ [text] })
  | _, _ => none

abbrev Label := MgmtCommand × List Outcome

def step (s : Routing) (l : Label) : Option Routing := (l.1.body.run answer s l.2).map Prod.snd

def selected (outcomes : List Outcome) : Option (List ApiRoute) :=
  outcomes.findSome? fun
    | .rows routes => some routes
    | _ => none

end Routing
end LFGateway
