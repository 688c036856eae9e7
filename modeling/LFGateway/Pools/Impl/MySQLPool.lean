import LFGateway.Foundation.Machine

/-!
This module contains `MySQLPool`. What is done in one go under `mutex_` is one step: the start of an
`acquire`, what follows its wait, and a `release`.
-/

namespace LFGateway

open Foundation

/--
A `MYSQL*`. Connections are numbered in the order in which they were made.
-/
abbrev Conn := Nat

structure MySQLPool where
  pool_size_ : Nat
  pool_ : List Conn
  active_count_ : Nat
  total_acquires_ : Nat
  total_timeouts_ : Nat
  /-- how many connections were made so far -/
  made : Nat
  deriving DecidableEq, Repr

namespace MySQLPool

/--
The pool behind the constructor, if that does not throw.
-/
def new (pool_size : Nat) : MySQLPool := ⟨pool_size, List.range pool_size, 0, 0, 0, pool_size⟩

def idle_count (pool : MySQLPool) : Nat := pool.pool_.length

def active_count (pool : MySQLPool) : Nat := pool.active_count_

/--
How an `acquire` ends: no connection came in time, the one it took passed the health check or was
replaced, or `mysql_init` or `mysql_real_connect` failed on the replacement.
-/
inductive Ending where
  | timeout
  | healthy
  | reconnected
  | initFailed
  | connectFailed
  deriving DecidableEq, Repr

def Ending.throws : Ending → Bool
  | .timeout | .initFailed | .connectFailed => true
  | .healthy | .reconnected => false

def Ending.reconnectFails : Ending → Bool
  | .initFailed | .connectFailed => true
  | .timeout | .healthy | .reconnected => false

/--
`MySQLPool::acquire` up to its wait.
-/
def beginAcquire (pool : MySQLPool) : MySQLPool :=
  { pool with total_acquires_ := pool.total_acquires_ + 1 }

/--
`MySQLPool::acquire` from the end of its wait on, `none` in place of the connection where it throws.
-/
def acquire (pool : MySQLPool) (ending : Ending) : Option (Option Conn × MySQLPool) :=
  match pool.pool_, ending with
  -- `wait_for` only gives up while the pool is empty
  | [], .timeout => some (none, { pool with total_timeouts_ := pool.total_timeouts_ + 1 })
  | [], _ => none
  | _ :: _, .timeout => none
  | conn :: rest, .healthy =>
    some (some conn, { pool with pool_ := rest, active_count_ := pool.active_count_ + 1 })
  | _ :: rest, .reconnected =>
    some (some pool.made,
      { pool with pool_ := rest, active_count_ := pool.active_count_ + 1, made := pool.made + 1 })
  -- the connection that failed its check is closed, and nothing is put back in its place
  | _ :: rest, .initFailed => some (none, { pool with pool_ := rest })
  | _ :: rest, .connectFailed => some (none, { pool with pool_ := rest })

def release (pool : MySQLPool) (conn : Conn) : MySQLPool :=
  { pool with pool_ := pool.pool_ ++ [conn], active_count_ := pool.active_count_ - 1 }

structure System where
  pool : MySQLPool
  waiting : Nat
  held : List Conn
  deriving DecidableEq, Repr

def init (pool_size : Nat) : System := ⟨new pool_size, 0, []⟩

inductive Label where
  | call
  | wake (ending : Ending)
  | release (conn : Conn)
  deriving DecidableEq, Repr

def step (s : System) : Label → Option System
  | .call => some { s with pool := s.pool.beginAcquire, waiting := s.waiting + 1 }
  | .wake ending =>
    if 0 < s.waiting then
      match s.pool.acquire ending with
      | some (conn, pool) => some ⟨pool, s.waiting - 1, s.held ++ conn.toList⟩
      | none => none
    else
      none
  | .release conn =>
    if conn ∈ s.held then
      some { s with pool := s.pool.release conn, held := s.held.erase conn }
    else
      none

def Label.throws : Label → Bool
  | .wake ending => ending.throws
  | _ => false

def Label.reconnectFails : Label → Bool
  | .wake ending => ending.reconnectFails
  | _ => false

/--
No connection is missing, and what is active is what callers hold.
-/
def Conserved (s : System) : Prop :=
  s.pool.idle_count + s.pool.active_count = s.pool.pool_size_ ∧
    s.pool.active_count = s.held.length

instance (s : System) : Decidable (Conserved s) := inferInstanceAs (Decidable (_ ∧ _))

/--
If the step throws, it leaves the two counts as they were.
-/
def ThrowsClean (s : System) (l : Label) : Prop :=
  l.throws = true → ∀ s', step s l = some s' →
    s'.pool.idle_count = s.pool.idle_count ∧ s'.pool.active_count = s.pool.active_count

/--
Every state of the run conserves the connections, and every `acquire` of it that throws is clean.
-/
def ConservedRun (s : System) (ls : List Label) : Prop :=
  (∀ before after s', ls = before ++ after → exec step s before = some s' → Conserved s') ∧
    Meets step ThrowsClean s ls

end MySQLPool
end LFGateway
