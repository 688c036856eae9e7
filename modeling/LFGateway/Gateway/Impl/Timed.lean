import LFGateway.Gateway.Impl.Requests
import LFGateway.RateLimit.Impl.FixedWindow

/-!
This module contains any number of `processApiRequest` calls over a Redis whose numbers have deadlines.
Redis and the gateways read one clock, and any command may stay without an answer.
-/

namespace LFGateway

open Foundation

namespace Gateway
namespace Timed

abbrev Server := FixedWindow.Server

/--
What the surroundings choose for an operation. An `INCR` that is `lost` was executed, but its reply has
not come back; a command that gets a reply by `redis` has changed no number.
-/
inductive Choice where
  | go
  | time (ns : Int)
  | redis (reply : Option RedisReply)
  | lost
  deriving DecidableEq, Repr

/--
A reply of a command on a number that was not executed.
-/
def Unexecuted : Option RedisReply → Prop
  | none | some (.error _) => True
  | some _ => False

instance : DecidablePred Unexecuted := fun reply => by
  unfold Unexecuted
  split <;> infer_instance

def redisAnswer (s : Server) : Command → Choice → Option (Option RedisReply × Server)
  | .incr key, .go => (s.incr key).map fun (count, s) => (some (.integer count), s)
  | .incr key, .lost => (s.incr key).map fun (_, s) => (none, s)
  | .incr _, .redis reply => if Unexecuted reply then some (reply, s) else none
  | .expire key seconds, .go =>
    let (reply, s) := s.expire key seconds
    some (some (.integer reply), s)
  | .expire _ _, .redis reply => if Unexecuted reply then some (reply, s) else none
  | .eval _ _ _ _, .redis reply | .get _, .redis reply | .xadd _, .redis reply => some (reply, s)
  | _, _ => none

def answer (rules_ : List RouteRule) (s : Server) : (o : ApiOp) → Choice → Option (o.Reply × Server)
  | .steadyNow, .time ns => some (ns, s)
  | .systemNow, .go => some (s.clock, s)
  | .command _ cmd, choice => redisAnswer s cmd choice
  | o, .go => answerLocally rules_ s o
  | _, _ => none

/--
Time passes, Redis removes a key, it executes an `EXPIRE` that was sent before, or another client
writes a key.
-/
inductive Outside where
  | tick (ns : Nat)
  | removed (key : Bytes)
  | expire (key : Bytes)
  | write (key : Bytes) (counter : Option Counter)
  deriving DecidableEq, Repr

def outside (s : Server) : Outside → Option Server
  | .tick ns => some { s with clock := s.clock + ns }
  | .removed key => FixedWindow.outside key s .removed
  | .expire key => FixedWindow.outside key s .expire
  | .write key counter => some { s with counters := Function.update s.counters key counter }

abbrev Requests := Threads ApiOp ApiOp.Reply (Except StdException Unit) Bytes Server

abbrev Label := Threads.Label Bytes Choice Outside

def step (rules_ : List RouteRule) : Requests → Label → Option Requests :=
  Threads.step processApiRequest (answer rules_) outside

def counterKey (pathPattern : Bytes) (second : Nat) : Bytes :=
  FixedWindow.secondKey (Bytes.ofAscii "rate:" ++ pathPattern) second

def counterPrefix (pathPattern : Bytes) : Bytes := Bytes.ofAscii "rate:" ++ pathPattern ++ Bytes.ofAscii ":"

def lastReading (h : List ApiEvent) : Option Int := (FixedWindow.readings h).getLast?

def isIncr : ApiOp → Bool
  | .command _ (.incr _) => true
  | _ => false

/--
`INCR` is executed less than one second after the clock was read.
-/
def CallInTime (clock : Nat) (t : Request) : Prop :=
  match t.now with
  | .op o _ => isIncr o = true → ∀ ns ∈ lastReading t.history, clock < ns + 1000000000
  | .ret _ => True

/--
Every count is in time, and no other client writes a counter of the pattern.
-/
def Timely (pathPattern : Bytes) (s : Requests) : Label → Prop
  | .step i _ => ∀ t ∈ s.threads[i]?, CallInTime s.shared.clock t
  | .env (.write key _) => ¬counterPrefix pathPattern <+: key
  | _ => True

instance (clock : Nat) : DecidablePred (CallInTime clock)
  | ⟨_, history, .op o _⟩ =>
    inferInstanceAs (Decidable (isIncr o = true → ∀ ns ∈ lastReading history, clock < ns + 1000000000))
  | ⟨_, _, .ret _⟩ => inferInstanceAs (Decidable True)

instance (pathPattern : Bytes) (s : Requests) : DecidablePred (Timely pathPattern s) := by
  intro l
  unfold Timely
  split <;> infer_instance

def numbers (h : List ApiEvent) : List (Bytes × Int) :=
  h.filterMap fun
    | ⟨.command _ (.incr key), some (.integer n)⟩ => some (key, n)
    | _ => none

def countsAt (key : Bytes) (h : List ApiEvent) : List Int :=
  ((numbers h).filter fun kn => kn.1 = key).map Prod.snd

end Timed
end Gateway
end LFGateway
