import Mathlib.Data.Rat.Defs
import Mathlib.Algebra.Order.Field.Rat
import LFGateway.Foundation.Amortized

/-!
This module contains the token bucket script that the distributed rate limiter runs inside Redis.
Lua numbers are exact rationals here.
-/

namespace LFGateway

structure Bucket where
  tokens : ℚ
  last_time : ℚ
  deriving DecidableEq, Repr

/--
What one execution of the script does: the hash it writes, the seconds it passes to `expire` and
the integer it returns.
-/
structure ScriptResult where
  bucket : Bucket
  expire : Nat
  reply : Int
  deriving DecidableEq, Repr

/--
`TOKEN_BUCKET_LUA_SCRIPT`. The argument `bucket` is what `hmget` finds, `none` for a missing key.
-/
def tokenBucketLuaScript (capacity rate : ℚ) (bucket : Option Bucket) (now : ℚ) : ScriptResult :=
  let (tokens, last_time) :=
    match bucket with
    | none => (capacity, now)
    | some b =>
      let elapsed_ms := max 0 (now - b.last_time)
      let refill := elapsed_ms * (rate / 1000)
      (min capacity (b.tokens + refill), b.last_time)
  if tokens ≥ 1 then
    ⟨⟨tokens - 1, now⟩, 3, 1⟩
  else
    -- the refill is stored, `last_time` stays where it was
    ⟨⟨tokens, last_time⟩, 3, 0⟩

namespace TokenBucket

/--
One execution of the script on a key that does not expire, the call times are the labels.
-/
def step (capacity rate : ℚ) (key : Option Bucket) (now : ℚ) : Option (Option Bucket) :=
  some (some (tokenBucketLuaScript capacity rate key now).bucket)

def admits (capacity rate : ℚ) (key : Option Bucket) (now : ℚ) : ℚ :=
  if (tokenBucketLuaScript capacity rate key now).reply = 1 then 1 else 0

def admitted (capacity rate : ℚ) (key : Option Bucket) (nows : List ℚ) : ℚ :=
  Foundation.totalCost (step capacity rate) (admits capacity rate) key nows

/--
In every contiguous block of calls of a run that starts on a missing key, the calls that return 1
are at most the capacity and what the rate allows between the first and the last call.
-/
def RateBound (capacity rate : ℚ) (nows : List ℚ) : Prop :=
  ∀ before block after key (hne : block ≠ []),
    nows = before ++ block ++ after
      →
    Foundation.exec (step capacity rate) none before = some key
      →
    admitted capacity rate key block ≤ capacity + rate * (block.getLast hne - block.head hne) / 1000

/--
The call does not leave refill credited against an old `last_time`: the key is missing, no time has
passed since `last_time`, or the refill makes up a whole token.
-/
def SettlesRefill (rate : ℚ) (key : Option Bucket) (now : ℚ) : Prop :=
  match key with
  | none => True
  | some b => now = b.last_time ∨ 1 ≤ b.tokens + (now - b.last_time) * (rate / 1000)

instance (rate : ℚ) (key : Option Bucket) (now : ℚ) : Decidable (SettlesRefill rate key now) := by
  unfold SettlesRefill
  cases key with
  | none => exact inferInstanceAs (Decidable True)
  | some b => exact inferInstanceAs (Decidable (_ ∨ _))

end TokenBucket
end LFGateway
