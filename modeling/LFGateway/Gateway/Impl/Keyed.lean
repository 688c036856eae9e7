import LFGateway.Foundation.Family
import LFGateway.Gateway.Impl.Requests

/-!
This module contains any number of `processApiRequest` calls over a Redis that keeps a value for every
key. What a command answers and writes depends on the value of its own key only.
-/

namespace LFGateway

open Foundation

/--
What a command does to the value of its key at a time of Redis's clock. A value may have a deadline in
it; `GET` writes nothing.
-/
structure KeyedRedis (V : Type) where
  apply : Command → Int → V → RedisReply × V
  get_keeps : ∀ key at' v, (apply (.get key) at' v).2 = v

namespace KeyedRedis

variable {V : Type}

abbrev Store (V : Type) := Bytes → V

def execute (redis : KeyedRedis V) (store : Store V) (cmd : Command) (at' : Int) : RedisReply × Store V :=
  let (reply, v) := redis.apply cmd at' (store cmd.key)
  (reply, Function.update store cmd.key v)

end KeyedRedis

namespace Gateway
namespace Keyed

/--
What the surroundings choose for an operation: the time on a clock, the time at which Redis executes a
command, or that the connection is lost before or after that.
-/
inductive Choice where
  | go
  | time (ns : Int)
  | redis (at' : Int)
  | lostBefore
  | lostAfter (at' : Int)
  deriving DecidableEq, Repr

variable {V : Type} {ι : Type} [DecidableEq ι]

def answer (redis : KeyedRedis V) (rules_ : List RouteRule) (store : KeyedRedis.Store V)
    : (o : ApiOp) → Choice → Option (o.Reply × KeyedRedis.Store V)
  | .steadyNow, .time ns => some (ns, store)
  | .systemNow, .time ns => some (ns, store)
  | .command _ cmd, .redis at' =>
    let (reply, store) := redis.execute store cmd at'
    some (some reply, store)
  | .command _ _, .lostBefore => some (none, store)
  | .command _ cmd, .lostAfter at' => some (none, (redis.execute store cmd at').2)
  | o, .go => answerLocally rules_ store o
  | _, _ => none

abbrev Requests (V ι : Type) := Family ι (KeyedRedis.Store V) Request

abbrev Label (ι : Type) := ι × Choice

def step (redis : KeyedRedis V) (rules_ : List RouteRule) : Requests V ι → Label ι → Option (Requests V ι) :=
  Family.step (Threads.advance (answer redis rules_))

def arrived (store : KeyedRedis.Store V) (raw : ι → Bytes) : Requests V ι :=
  ⟨store, fun name => ⟨raw name, [], processApiRequest (raw name)⟩⟩

end Keyed
end Gateway
end LFGateway
