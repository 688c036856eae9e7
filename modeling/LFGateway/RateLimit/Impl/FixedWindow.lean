import LFGateway.Foundation.Threads
import LFGateway.Gateway.Impl.Api

/-!
This module contains any number of `RateLimitPlugin::isAllowed` calls with one prefix and one maximum,
and the Redis they send their commands to. Redis and the gateways read one clock.
-/

namespace LFGateway

open Foundation

/--
A number in Redis and the millisecond from which on it may be removed.
-/
structure Counter where
  count : Int
  deadline : Option Nat
  deriving DecidableEq, Repr

namespace FixedWindow

structure Server where
  clock : Nat
  counters : Bytes → Option Counter

namespace Server

def milliseconds (s : Server) : Nat := s.clock / 1000000

/--
`INCR`, which is refused where the number would not fit in 64 bits.
-/
def incr (s : Server) (key : Bytes) : Option (Int × Server) :=
  let counter := (s.counters key).getD ⟨0, none⟩
  if counter.count + 1 < 2 ^ 63 then
    let counter := { counter with count := counter.count + 1 }
    some (counter.count, { s with counters := Function.update s.counters key (some counter) })
  else
    none

def expire (s : Server) (key : Bytes) (seconds : Int) : Int × Server :=
  match s.counters key with
  | some counter =>
    let counter := { counter with deadline := some (s.milliseconds + 1000 * seconds.toNat) }
    (1, { s with counters := Function.update s.counters key (some counter) })
  | none => (0, s)

end Server

/--
Redis answers, or the connection is lost and Redis has not executed the command so far.
-/
inductive Choice where
  | go
  | lost
  deriving DecidableEq, Repr

def answer (s : Server) : (o : ApiOp) → Choice → Option (o.Reply × Server)
  | .systemNow, .go => some (s.clock, s)
  | .command _ (.incr key), .go =>
    match s.incr key with
    | some (count, s) => some (some (.integer count), s)
    | none => none
  | .command _ (.expire key seconds), .go =>
    let (reply, s) := s.expire key seconds
    some (some (.integer reply), s)
  | .command _ (.expire _ _), .lost => some (none, s)
  | _, _ => none

/--
Time passes, Redis removes the key, it executes an `EXPIRE` that was sent before, or other clients do
something to another key.
-/
inductive Outside where
  | tick (ns : Nat)
  | removed
  | expire
  | write (key : Bytes) (counter : Option Counter)
  deriving DecidableEq, Repr

def outside (key : Bytes) (s : Server) : Outside → Option Server
  | .tick ns => some { s with clock := s.clock + ns }
  | .removed =>
    match s.counters key with
    | some ⟨_, some deadline⟩ =>
      if deadline ≤ s.milliseconds then
        some { s with counters := Function.update s.counters key none }
      else
        none
    | _ => none
  | .expire => some (s.expire key 2).2
  | .write key' counter =>
    if key' = key then none else some { s with counters := Function.update s.counters key' counter }

abbrev Calls := Threads ApiOp ApiOp.Reply Bool Unit Server

abbrev Call := Thread ApiOp ApiOp.Reply Bool Unit

abbrev Label := Threads.Label Unit Choice Outside

def secondKey (keyPrefix : Bytes) (second : Nat) : Bytes :=
  (keyPrefix ++ Bytes.ofAscii ":" ++ Bytes.ofInt second).cStr

def step (keyPrefix : Bytes) (max : Int) (second : Nat) : Calls → Label → Option Calls :=
  Threads.step (fun _ => RateLimitPlugin.isAllowed keyPrefix max) answer
    (outside (secondKey keyPrefix second))

def readings (history : List ApiEvent) : List Int :=
  history.filterMap fun
    | ⟨.systemNow, ns⟩ => some ns
    | _ => none

/--
The clock is read in the second, and `INCR` is executed less than one second after the clock was read.
-/
def CallInTime (second clock : Nat) (call : Call) : Prop :=
  match call.now with
  | .op .systemNow _ => clock / 1000000000 = second
  | .op (.command _ (.incr _)) _ => ∀ ns ∈ readings call.history, clock < ns + 1000000000
  | _ => True

def InTime (second : Nat) (s : Calls) : Label → Prop
  | .step i _ => ∀ call ∈ s.threads[i]?, CallInTime second s.shared.clock call
  | _ => True

def Allowed (call : Call) : Prop := call.now = .ret true

instance (second clock : Nat) : DecidablePred (CallInTime second clock) := by
  intro call
  unfold CallInTime
  split <;> infer_instance

instance (second : Nat) (s : Calls) : DecidablePred (InTime second s)
  | .step i _ => inferInstanceAs (Decidable (∀ call ∈ s.threads[i]?, CallInTime second s.shared.clock call))
  | .start _ => isTrue trivial
  | .env _ => isTrue trivial

instance : DecidablePred Allowed := fun call =>
  match h : call.now with
  | .ret a => decidable_of_iff (a = true) (by simp [Allowed, h])
  | .op _ _ => isFalse (by simp [Allowed, h])

end FixedWindow
end LFGateway
