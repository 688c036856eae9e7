import LFGateway.Foundation.Handles
import LFGateway.Pools.Impl.Calls

/-!
This module contains what the pools and their users do with the handles of hiredis and of the MySQL
client library, from the constructors of the pools to their destructors.
-/

namespace LFGateway

open Foundation

namespace Pools

/--
A `redisContext*` or a `MYSQL*`. The ones whose `mysql_real_connect` fails in `acquire` are numbered apart
from the ones that get into the pool.
-/
inductive Handle where
  | context (ctx : Context)
  | conn (conn : Conn)
  | failed (k : Nat)
  deriving DecidableEq, Repr

abbrev used (h : Handle) : Touch Handle := ⟨h, .used⟩

abbrev closed (h : Handle) : Touch Handle := ⟨h, .closed⟩

/--
How the library answers to one iteration of `initConnections`: with a handle that can be pushed, with a
null pointer, or with a handle that has an error.
-/
inductive Making where
  | made
  | null
  | error
  deriving DecidableEq, Repr

/--
The loop of an `initConnections` from connection `i` on. `uses` is how often a good handle is used before
it is pushed, and `errorUses` how often a bad one is before it is closed and the constructor throws.
-/
def initConnections (handle : Nat → Handle) (uses errorUses : Nat) (i : Nat)
    : List Making → List (Touch Handle)
  | [] => []
  | .made :: rest => opening (handle i) uses ++ initConnections handle uses errorUses (i + 1) rest
  | .null :: _ => []
  | .error :: _ => opening (handle i) errorUses ++ [closed (handle i)]

end Pools

/--
`mysql_real_connect`, `mysql_set_character_set` and `mysql_options` twice, and with an error
`mysql_real_connect` and `mysql_error`.
-/
def MySQLPool.initConnections (makings : List Pools.Making) : List (Touch Pools.Handle) :=
  Pools.initConnections .conn 4 2 0 makings

namespace Pools

/--
`redisSetTimeout`; an error is read from the context itself.
-/
def RedisPool.initConnections (makings : List Making) : List (Touch Handle) :=
  Pools.initConnections .context 1 0 0 makings

def constructed (redisSize mysqlSize : Nat) : List (Touch Handle) :=
  MySQLPool.initConnections (List.replicate mysqlSize .made) ++
    RedisPool.initConnections (List.replicate redisSize .made)

/--
What `MySQLPool::acquire` does with handles. The health check is a query and its result; a replacement
is connected and gets a character set.
-/
def acquiring (pool : MySQLPool) (failures : Nat) : MySQLPool.Ending → List (Touch Handle)
  | .timeout => []
  | .healthy => pool.pool_.head?.toList.flatMap fun c => [used (.conn c), used (.conn c)]
  | .reconnected =>
    pool.pool_.head?.toList.flatMap fun c =>
      used (.conn c) :: closed (.conn c) :: opening (.conn pool.made) 2
  | .initFailed => pool.pool_.head?.toList.flatMap fun c => [used (.conn c), closed (.conn c)]
  | .connectFailed =>
    pool.pool_.head?.toList.flatMap fun c =>
      used (.conn c) :: closed (.conn c) :: opening (.failed failures) 1

def touches (s : Shared) (failures : Nat) : PoolOp → Choice → List (Touch Handle)
  | .redisCommand ctx _, _ => [used (.context ctx)]
  | .mysqlAcquire, choice => acquiring s.mysql failures choice.ending
  | .mysqlQuery c _, _ => [used (.conn c)]
  | .mysqlStoreResult c, _ => [used (.conn c)]
  | _, _ => []

def destroyed (s : Shared) : List (Touch Handle) :=
  (s.redis.pool_.map Handle.context ++ s.mysql.pool_.map Handle.conn).map closed

structure Traced where
  calls : Calls
  failures : Nat
  log : List (Touch Handle)

namespace Traced

def init (redisSize mysqlSize : Nat) : Traced :=
  ⟨Pools.init redisSize mysqlSize, 0, constructed redisSize mysqlSize⟩

def operation (s : Calls) : Calls.Label → Option (PoolOp × Choice)
  | .step i choice =>
    match s.threads[i]? with
    | some ⟨_, _, .op o _⟩ => some (o, choice)
    | _ => none
  | _ => none

def touched (s : Traced) (l : Calls.Label) : List (Touch Handle) :=
  match operation s.calls l with
  | some (o, choice) => touches s.calls.shared s.failures o choice
  | none => []

def step (s : Traced) (l : Calls.Label) : Option Traced :=
  match Calls.step s.calls l with
  | some calls =>
    let log := s.touched l
    some ⟨calls, s.failures + log.countP (· = ⟨.failed s.failures, .opened⟩), s.log ++ log⟩
  | none => none

end Traced

end Pools
end LFGateway
