import LFGateway.Foundation.Outputs
import LFGateway.RateLimit.Impl.TokenBucket

/-!
This module contains what happens to one key of the distributed limiter: the script runs on it, every
time with limits of its own, and Redis removes it. It also contains the token bucket that the script
is measured against.
-/

namespace LFGateway

/--
One execution of the script, with times in milliseconds.
-/
structure ScriptCall where
  capacity : ℚ
  rate : ℚ
  now : ℚ
  deriving DecidableEq, Repr

inductive KeyEvent where
  | call (c : ScriptCall)
  | removed (at' : ℚ)
  deriving DecidableEq, Repr

namespace KeyEvent

def time : KeyEvent → ℚ
  | .call c => c.now
  | .removed at' => at'

/--
The time does not go back, and the key stays for the 3 s that `expire` is called with.
-/
def Precedes : KeyEvent → KeyEvent → Prop
  | .call c, .removed at' => c.now + 1000 * 3 ≤ at'
  | e, e' => e.time ≤ e'.time

def InOrder : KeyEvent → KeyEvent → Prop
  | .call c, .call c' => c.now ≤ c'.now
  | _, _ => True

def HasLimits (capacity rate : ℚ) : KeyEvent → Prop
  | .call c => c.capacity = capacity ∧ c.rate = rate
  | .removed _ => True

/--
A rate of at least 1, and a capacity that three seconds of it fill.
-/
def FillsInTime : KeyEvent → Prop
  | .call c => 1 ≤ c.rate ∧ 1 ≤ c.capacity ∧ c.capacity ≤ 3 * c.rate
  | .removed _ => True

instance : DecidableRel Precedes := by
  intro e e'
  unfold Precedes
  split <;> infer_instance

instance : DecidableRel InOrder := by
  intro e e'
  unfold InOrder
  split <;> infer_instance

instance (capacity rate : ℚ) : DecidablePred (HasLimits capacity rate) := by
  intro e
  unfold HasLimits
  split <;> infer_instance

instance : DecidablePred FillsInTime := by
  intro e
  unfold FillsInTime
  split <;> infer_instance

end KeyEvent

namespace TokenBucket

def scriptStep (key : Option Bucket) : KeyEvent → Option Int × Option Bucket
  | .call c =>
    let result := tokenBucketLuaScript c.capacity c.rate key c.now
    (some result.reply, some result.bucket)
  | .removed _ => (none, none)

/--
The script with a Redis that never removes the key.
-/
def keptStep (key : Option Bucket) : KeyEvent → Option Int × Option Bucket
  | .call c => scriptStep key (.call c)
  | .removed _ => (none, key)

/--
A token bucket that starts full at its first call and always records the time of the call.
-/
def referenceBucket (capacity rate : ℚ) (bucket : Option Bucket) (now : ℚ) : Int × Bucket :=
  let tokens :=
    match bucket with
    | none => capacity
    | some b => min capacity (b.tokens + (now - b.last_time) * (rate / 1000))
  if tokens ≥ 1 then (1, ⟨tokens - 1, now⟩) else (0, ⟨tokens, now⟩)

def referenceStep (bucket : Option Bucket) : KeyEvent → Option Int × Option Bucket
  | .call c =>
    let (reply, b) := referenceBucket c.capacity c.rate bucket c.now
    (some reply, some b)
  | .removed _ => (none, bucket)

def scriptAdmitted (events : List KeyEvent) : Nat := (Foundation.outputs scriptStep none events).count (some 1)

def referenceAdmitted (events : List KeyEvent) : Nat :=
  (Foundation.outputs referenceStep none events).count (some 1)

def decisions (step : Option Bucket → KeyEvent → Option Int × Option Bucket) (events : List KeyEvent)
    : List Int :=
  (Foundation.outputs step none events).reduceOption

end TokenBucket
end LFGateway
