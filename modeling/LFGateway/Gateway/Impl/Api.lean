import LFGateway.Foundation.Prog
import LFGateway.Http.Impl

/-!
This module contains `Gateway::processApiRequest` and what it calls, as programs whose operations are
the steps other threads can come between: Redis commands, the atomic counters, clock readings, the
route table and `TcpConnection::send`.
-/

namespace LFGateway

open Foundation

inductive Member where
  | streamWriter_
  | apiServer_
  | mgmtServer_
  | threadPool_
  | mysqlPool_
  | redisPool_
  | redisClient_
  | router_
  | auth_
  | rateLimiter_
  | logConsumer_
  | mgmtHandler_
  | distributedLimiter_
  deriving DecidableEq, Repr

/--
What a request reads of a row of `api_routes`.
-/
structure RouteRule where
  pathPattern : Bytes
  needAuth : Bool
  rateLimit : Int
  deriving DecidableEq, Repr

def RouteRule.matches (rule : RouteRule) (path : Bytes) : Bool := rule.pathPattern.isPrefixOf path

/--
The commands a request sends to Redis, with the bytes that hiredis is given.
-/
inductive Command where
  | eval (key : Bytes) (capacity rate now : Int)
  | get (key : Bytes)
  | incr (key : Bytes)
  | expire (key : Bytes) (seconds : Int)
  /-- the format string of `XADD` -/
  | xadd (cmd : Bytes)
  deriving DecidableEq, Repr

def Command.key : Command → Bytes
  | .eval key _ _ _ => key
  | .get key => key
  | .incr key => key
  | .expire key _ => key
  -- the word behind "XADD "
  | .xadd cmd => (cmd.drop 5).takeWhile (· ≠ 32)

inductive RedisReply where
  | integer (n : Int)
  | string (s : Bytes)
  | status (s : Bytes)
  | nil
  | error (s : Bytes)
  deriving DecidableEq, Repr

inductive Stat where
  | totalRequests_
  | totalLatencyUs_
  | rejectedAuth_
  | rejectedLimit_
  deriving DecidableEq, Repr

/--
A `RouteRule*`: an index into the `rules_` that were loaded as table `generation`.
-/
structure Handle where
  generation : Nat
  index : Nat
  deriving DecidableEq, Repr

/--
What a request does besides computing. `via` is the member through which a command is sent.
-/
inductive ApiOp where
  | add (stat : Stat) (n : Nat)
  /-- `steady_clock::now()` in nanoseconds -/
  | steadyNow
  /-- `system_clock::now()` in nanoseconds since the epoch -/
  | systemNow
  | routerMatch (path : Bytes)
  /-- reading the rule behind the pointer -/
  | readRule (rule : Handle)
  /-- `redisCommand`, where no reply is a null pointer -/
  | command (via : Member) (cmd : Command)
  | send (text : Bytes)
  deriving DecidableEq, Repr

abbrev ApiOp.Reply : ApiOp → Type
  | add _ _ => Unit
  | steadyNow => Int
  | systemNow => Int
  | routerMatch _ => Option Handle
  | readRule _ => RouteRule
  | command _ _ => Option RedisReply
  | send _ => Unit

abbrev ApiProg := Prog ApiOp ApiOp.Reply

abbrev ApiEvent := Event ApiOp ApiOp.Reply

abbrev perform (o : ApiOp) : ApiProg o.Reply := Prog.perform o

namespace RedisClient

def get (via : Member) (key : Bytes) : ApiProg Bytes := do
  let reply ← perform (.command via (.get key.cStr))
  match reply with
  | some (.string s) => return s
  | _ => return []

def countOf : Option RedisReply → Int
  | some (.integer n) => n
  | _ => -1

def incr (via : Member) (key : Bytes) : ApiProg Int := do
  let reply ← perform (.command via (.incr key.cStr))
  return countOf reply

def expire (via : Member) (key : Bytes) (seconds : Int) : ApiProg Bool := do
  let reply ← perform (.command via (.expire key.cStr seconds))
  return reply = some (.integer 1)

/--
The text `RedisClient::xadd` gives to `execute` as its format.
-/
def xaddCmd (key : Bytes) (fields : List (Bytes × Bytes)) : Bytes :=
  Bytes.ofAscii "XADD " ++ key ++ Bytes.ofAscii " MAXLEN ~ 10000 * " ++
    fields.flatMap fun kv => kv.1 ++ Bytes.ofAscii " " ++ kv.2 ++ Bytes.ofAscii " "

def xadd (via : Member) (key : Bytes) (fields : List (Bytes × Bytes)) : ApiProg Bool := do
  let reply ← perform (.command via (.xadd (xaddCmd key fields).cStr))
  match reply with
  | some (.string _) => return true
  | _ => return false

end RedisClient

def AuthPlugin.validate (token : Bytes) : ApiProg Bool := do
  let val ← RedisClient.get .auth_ (Bytes.ofAscii "token:" ++ token)
  return val ≠ []

namespace DistributedRateLimiter

/--
`DistributedRateLimiter::acquireToken`, `none` where it throws.
-/
def acquireToken (key : Bytes) (rate capacity : Int) : ApiProg (Option Bool) := do
  let now ← perform .systemNow
  let reply ← perform
    (.command .distributedLimiter_ (.eval key.cStr capacity rate (now.tdiv 1000000)))
  match reply with
  | none => return none
  | some reply => return some (reply = .integer 1)

/--
`DistributedRateLimiter::isAllowed` with `key_prefix_` as the gateway sets it. It lets pass what it
cannot check.
-/
def isAllowed (api_path : Bytes) (rate capacity : Int) : ApiProg Bool := do
  let capacity := if capacity ≤ 0 then rate else capacity
  let key := Bytes.ofAscii "gateway:rate_limit" ++ Bytes.ofAscii ":" ++ api_path
  match ← acquireToken key rate capacity with
  | some result => return result
  | none => return true

end DistributedRateLimiter

def RateLimitPlugin.isAllowed (keyPrefix : Bytes) (maxPerSecond : Int) : ApiProg Bool := do
  if maxPerSecond ≤ 0 then
    return true
  else
    let now ← perform .systemNow
    let key := keyPrefix ++ Bytes.ofAscii ":" ++ Bytes.ofInt (now.tdiv 1000000000)
    let count ← RedisClient.incr .rateLimiter_ key
    if count = 1 then
      let _ ← RedisClient.expire .rateLimiter_ key 2
      return count ≤ maxPerSecond
    else
      return count ≤ maxPerSecond

namespace LogConsumer

/--
`std::to_string` of a `double` that holds `ns` nanoseconds as milliseconds.
-/
def latencyText (ns : Nat) : Bytes :=
  let fraction := Bytes.ofNat (ns % 1000000)
  Bytes.ofNat (ns / 1000000) ++ Bytes.ofAscii "." ++
    List.replicate (6 - fraction.length) (Bytes.digit 0) ++ fraction

/--
`LogConsumer::push` of an entry with `userId` 0 and status code 200; a map lists its keys in order.
-/
def push (path : Bytes) (latencyNs : Nat) : ApiProg Unit := do
  let fields := [
    (Bytes.ofAscii "latency_ms", latencyText latencyNs),
    (Bytes.ofAscii "path", path),
    (Bytes.ofAscii "status_code", Bytes.ofNat 200),
    (Bytes.ofAscii "user_id", Bytes.ofNat 0)
  ]
  let _ ← RedisClient.xadd .logConsumer_ (Bytes.ofAscii "log_stream") fields

end LogConsumer

namespace Gateway

def responseText (code : Nat) (body : Bytes) : Bytes :=
  Bytes.ofAscii "HTTP/1.1 " ++ Bytes.ofNat code ++ Bytes.ofAscii " OK\r\n" ++
    Bytes.ofAscii "Content-Type: application/json\r\n" ++
    Bytes.ofAscii "Content-Length: " ++ Bytes.ofNat body.length ++ Bytes.ofAscii "\r\n" ++
    Bytes.ofAscii "Connection: keep-alive\r\n" ++
    Bytes.ofAscii "Server: LFGateway/1.0\r\n\r\n" ++
    body

def sendResponse (code : Nat) (body : Bytes) : ApiProg Unit :=
  perform (.send (responseText code body))

def badRequest : Bytes := Bytes.ofAscii "\x7b\"error\": \"bad request\"\x7d"

def noRoute : Bytes := Bytes.ofAscii "\x7b\"error\": \"no route\"\x7d"

def unauthorized : Bytes := Bytes.ofAscii "\x7b\"error\": \"unauthorized\"\x7d"

def rateLimitExceeded : Bytes := Bytes.ofAscii "\x7b\"error\": \"rate limit exceeded\"\x7d"

def okBody (path : Bytes) : Bytes :=
  Bytes.ofAscii "\x7b\"message\": \"OK\", \"path\": \"" ++ path ++ Bytes.ofAscii "\"\x7d"

def bearer : Bytes := Bytes.ofAscii "Bearer "

def bearerToken (req : HttpRequest) : Bytes :=
  match req.headers (Bytes.ofAscii "Authorization") with
  | some value => if value ≠ [] ∧ value.find bearer = some 0 then value.drop 7 else []
  | none => []

/--
`rule->rateLimit * 2` on an `int`
-/
def twice (n : Int) : Int := (2 * n + 2 ^ 31) % 2 ^ 32 - 2 ^ 31

/--
The first block of `processApiRequest` that asks for the rule: may the request pass?
-/
def checkAuth (rule : Handle) (req : HttpRequest) : ApiProg Bool := do
  if (← perform (.readRule rule)).needAuth then
    AuthPlugin.validate (bearerToken req)
  else
    return true

/--
The block of `processApiRequest` that limits the rate. `distributedLimiter_` is never null, so the
second limiter is asked whenever the first one says no.
-/
def checkLimit (rule : Handle) : ApiProg Bool := do
  if (← perform (.readRule rule)).rateLimit > 0 then
    let r ← perform (.readRule rule)
    let allowed ← DistributedRateLimiter.isAllowed r.pathPattern r.rateLimit (twice r.rateLimit)
    if !allowed then
      let r ← perform (.readRule rule)
      RateLimitPlugin.isAllowed (Bytes.ofAscii "rate:" ++ r.pathPattern) r.rateLimit
    else
      return true
  else
    return true

/--
The integer nearest to `a / b`, the even one of two.
-/
def roundDiv (a b : Nat) : Nat :=
  if 2 * (a % b) < b ∨ 2 * (a % b) = b ∧ a / b % 2 = 0 then a / b else a / b + 1

/--
The double nearest to `a / b` as a fraction: a number of 53 bits, over or times a power of 2.
-/
def nearestDouble (a b : Nat) : Nat × Nat :=
  let e := a.log2
  let shift := (if a * 2 ^ b.log2 < b * 2 ^ e then 53 else 52) + b.log2
  (roundDiv (a * 2 ^ (shift - e)) (b * 2 ^ (e - shift)) * 2 ^ (e - shift), 2 ^ (shift - e))

/--
`static_cast<uint64_t>(latencyMs * 1000)`, where `latencyMs` is the quotient of two doubles.
-/
def latencyUs (latencyNs : Nat) : Nat :=
  let (a, b) := nearestDouble latencyNs 1
  let (a, b) := nearestDouble a (b * 1000000)
  let (a, b) := nearestDouble (a * 1000) b
  a / b

-- the quotient by 1000000 is rounded down, and the product stays below 1009
example : latencyUs 1009000 = 1008 := by decide +kernel

def respond (req : HttpRequest) (start : Int) : ApiProg Unit := do
  sendResponse 200 (okBody req.path)
  let stop ← perform .steadyNow
  let latencyNs := (stop - start).toNat
  perform (.add .totalLatencyUs_ (latencyUs latencyNs))
  LogConsumer.push req.path latencyNs

/--
What `processApiRequest` does with a request that was parsed and matched.
-/
def processMatched (rule : Handle) (req : HttpRequest) (start : Int) : ApiProg Unit := do
  if !(← checkAuth rule req) then
    perform (.add .rejectedAuth_ 1)
    sendResponse 401 unauthorized
  else if !(← checkLimit rule) then
    perform (.add .rejectedLimit_ 1)
    sendResponse 429 rateLimitExceeded
  else
    respond req start

/--
`Gateway::processApiRequest`. An exception of `HttpParser::parse` leaves it.
-/
def processApiRequest (raw : Bytes) : ApiProg (Except StdException Unit) := do
  perform (.add .totalRequests_ 1)
  let start ← perform .steadyNow
  let parsed := HttpParser.parse HttpParser.new raw HttpRequest.new
  match parsed.result with
  | .error e => return .error e
  | .ok false =>
    sendResponse 400 badRequest
    return .ok ()
  | .ok true =>
    match ← perform (.routerMatch parsed.req.path) with
    | none =>
      sendResponse 404 noRoute
      return .ok ()
    | some rule =>
      processMatched rule parsed.req start
      return .ok ()

end Gateway
end LFGateway
