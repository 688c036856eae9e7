import LFGateway.Foundation.Threads
import LFGateway.Gateway.Impl.Api

/-!
This module contains any number of `processApiRequest` calls that run at the same time against one
table of rules and one Redis. Redis answers every command; what it holds besides the counters of
`INCR` is not kept, any other reply of the right kind may come.
-/

namespace LFGateway

open Foundation

/--
`Router::match` over the table with number `generation`.
-/
def Router.match (generation : Nat) (rules_ : List RouteRule) (path : Bytes) : Option Handle :=
  (rules_.findIdx? fun rule => rule.matches path).map fun index => ⟨generation, index⟩

namespace Gateway

/--
The reply to an operation for which neither Redis nor a clock is asked.
-/
def localReply (rules_ : List RouteRule) : (o : ApiOp) → Option o.Reply
  | .add _ _ | .send _ => some ()
  | .routerMatch path => some (Router.match 0 rules_ path)
  | .readRule rule => rules_[rule.index]?
  | .steadyNow | .systemNow | .command _ _ => none

def answerLocally {σ : Type} (rules_ : List RouteRule) (s : σ) (o : ApiOp) : Option (o.Reply × σ) :=
  (localReply rules_ o).map fun r => (r, s)

theorem answerLocally_eq_some_iff {σ : Type} {rules_ : List RouteRule} {s s' : σ} {o : ApiOp} {r : o.Reply}
    : answerLocally rules_ s o = some (r, s') ↔ localReply rules_ o = some r ∧ s' = s := by
  simp [answerLocally, eq_comm]

/--
What the calls share: the numbers in Redis, 0 where a key is missing, and the counters of the
gateway.
-/
structure Shared where
  counters : Bytes → Int
  stats : Stat → UInt64

/--
What the surroundings choose for an operation: the time on a clock or the reply of Redis.
-/
inductive Choice where
  | go
  | time (ns : Int)
  | redis (reply : RedisReply)
  deriving DecidableEq, Repr

/--
A reply without error to a command, and the counters after it.
-/
def redisAnswer (counters : Bytes → Int) : Command → RedisReply → Option (Bytes → Int)
  | .eval _ _ _ _, .integer n => if n = 0 ∨ n = 1 then some counters else none
  | .get _, .string _ => some counters
  | .get _, .nil => some counters
  | .incr key, .integer n =>
    if n = counters key + 1 ∧ n < 2 ^ 63 then some (Function.update counters key n) else none
  | .expire _ _, .integer n => if n = 0 ∨ n = 1 then some counters else none
  | .xadd _, .string _ => some counters
  | _, _ => none

def answer (rules_ : List RouteRule) (s : Shared) : (o : ApiOp) → Choice → Option (o.Reply × Shared)
  | .add stat n, .go =>
    some ((), { s with stats := Function.update s.stats stat (s.stats stat + UInt64.ofNat n) })
  | .steadyNow, .time ns => some (ns, s)
  | .systemNow, .time ns => some (ns, s)
  | .command _ cmd, .redis reply =>
    match redisAnswer s.counters cmd reply with
    | some counters => some (some reply, { s with counters })
    | none => none
  | o, .go => answerLocally rules_ s o
  | _, _ => none

/--
A key expires or another client writes it.
-/
inductive Outside where
  | counter (key : Bytes) (n : Int)
  deriving DecidableEq, Repr

def outside (s : Shared) : Outside → Option Shared
  | .counter key n => some { s with counters := Function.update s.counters key n }

abbrev Requests := Threads ApiOp ApiOp.Reply (Except StdException Unit) Bytes Shared

abbrev Request := Thread ApiOp ApiOp.Reply (Except StdException Unit) Bytes

abbrev Requests.Label := Threads.Label Bytes Choice Outside

def Requests.step (rules_ : List RouteRule) : Requests → Requests.Label → Option Requests :=
  Threads.step processApiRequest (answer rules_) outside

def ruleOf (rules_ : List RouteRule) (raw : Bytes) : Option Nat :=
  let parsed := HttpParser.parse HttpParser.new raw HttpRequest.new
  match parsed.result with
  | .ok true => rules_.findIdx? fun rule => rule.matches parsed.req.path
  | _ => none

end Gateway
end LFGateway
