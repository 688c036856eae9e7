import Mathlib.Data.Rat.Defs
import Mathlib.Algebra.Order.Field.Rat
import LFGateway.Foundation.Threads
import LFGateway.Gateway.Impl.Api

/-!
This module contains any number of `processApiRequest` calls with the counters that they share, and
what `getStatsJson` makes of the counters. The table, Redis and the clocks may reply anything.
-/

namespace LFGateway

open Foundation

namespace Gateway
namespace Statistics

abbrev Counters := Stat → UInt64

/--
What an operation does to the counters, `fetch_add` wraps around.
-/
def Counters.after (counters : Counters) : ApiOp → Counters
  | .add stat n => Function.update counters stat (counters stat + UInt64.ofNat n)
  | _ => counters

def answer (counters : Counters) (o : ApiOp) (e : ApiEvent) : Option (o.Reply × Counters) :=
  if h : e.op = o then some (h ▸ e.reply, counters.after o) else none

abbrev Calls := Threads ApiOp ApiOp.Reply (Except StdException Unit) Bytes Counters

abbrev Call := Thread ApiOp ApiOp.Reply (Except StdException Unit) Bytes

abbrev Label := Threads.Label Bytes ApiEvent Empty

def step : Calls → Label → Option Calls :=
  Threads.step processApiRequest answer fun _ (e : Empty) => nomatch e

def init : Calls := ⟨fun _ => 0, []⟩

def amounts (stat : Stat) (h : List ApiEvent) : List Nat :=
  h.filterMap fun e =>
    match e.op with
    | .add stat' n => if stat' = stat then some n else none
    | _ => none

def recorded (stat : Stat) (s : Calls) : List Nat := s.threads.flatMap fun t => amounts stat t.history

def latencies (s : Calls) : List Nat := recorded .totalLatencyUs_ s

/--
`avgMs` in `getStatsJson`, computed without rounding.
-/
def avgMs (reqs latUs : Nat) : ℚ := if 0 < reqs then latUs / 1000 / reqs else 0

/--
`avgLatencyMs` where no counter has wrapped around.
-/
def avgLatencyMs (s : Calls) : ℚ := avgMs (recorded .totalRequests_ s).sum (latencies s).sum

end Statistics
end Gateway
end LFGateway
