import Mathlib.Logic.Function.Basic

/-!
This module contains `TimerWheel`. Readings of the clock are arguments, and an operation is `none`
where the code computes an `int` or `int64_t` that does not fit, divides by zero or reaches past the end
of `wheel_`: the behaviour is undefined from there on.
-/

namespace LFGateway

variable {Cb : Type u}

def InInt64 (x : Int) : Prop := -9223372036854775808 ≤ x ∧ x ≤ 9223372036854775807

instance (x : Int) : Decidable (InInt64 x) :=
  inferInstanceAs (Decidable (_ ∧ _))

def INT_MAX : Nat := 2147483647

structure TimerEntry (Cb : Type u) where
  expiration : Int
  cb : Cb
  deriving DecidableEq, Repr

/--
A wheel has a slot for every index that `current_index_` can take.
-/
structure TimerWheel (Cb : Type u) where
  tick_ms_ : Int
  wheel_size_ : Nat
  current_index_ : Nat
  wheel_ : List (List UInt64)
  timers_ : UInt64 → Option (TimerEntry Cb)
  next_id_ : UInt64
  resized : wheel_.length = wheel_size_
  index_lt : current_index_ < wheel_size_

namespace TimerWheel

def init (tick_ms : Int) (wheel_size : Nat) (h : 1 ≤ wheel_size) : TimerWheel Cb where
  tick_ms_ := tick_ms
  wheel_size_ := wheel_size
  current_index_ := 0
  wheel_ := List.replicate wheel_size []
  timers_ := fun _ => none
  next_id_ := 1
  resized := List.length_replicate
  index_lt := h

/--
The delay that `schedule` hashes, `delay < 0` being taken for 0.
-/
def delay (expires now : Int) : Int :=
  if expires - now < 0 then 0 else expires - now

/--
`none` where a sum of signed numbers overflows or `tick_ms_` is 0, which is undefined. The index is a
`size_t`, so a negative remainder is an index far past the end of `wheel_`.
-/
def schedule (wheel : TimerWheel Cb) (id : UInt64) (expires now : Int) : Option (TimerWheel Cb) :=
  if InInt64 (expires - now) ∧ wheel.tick_ms_ ≠ 0 then
    let sum := wheel.current_index_ + (delay expires now).tdiv wheel.tick_ms_
    let idx := sum.tmod wheel.wheel_size_
    if InInt64 sum ∧ 0 ≤ idx then
      some { wheel with
        wheel_ := wheel.wheel_.modify idx.toNat (· ++ [id])
        resized := by rw [List.length_modify, wheel.resized]
      }
    else
      none
  else
    none

/--
`now` and `now'` are the readings of the clock in `add_timer` and in `schedule`.
-/
def add_timer (wheel : TimerWheel Cb) (now delay_ms : Int) (cb : Cb) (now' : Int)
    : Option (UInt64 × TimerWheel Cb) :=
  let expires := now + delay_ms
  if InInt64 expires then
    let id := wheel.next_id_
    let wheel := { wheel with
      next_id_ := wheel.next_id_ + 1
      timers_ := Function.update wheel.timers_ id (some ⟨expires, cb⟩)
    }
    (wheel.schedule id expires now').map fun wheel => (id, wheel)
  else
    none

def cancel_timer (wheel : TimerWheel Cb) (id : UInt64) : TimerWheel Cb :=
  { wheel with timers_ := Function.update wheel.timers_ id none }

/--
The walk of `tick` through one slot: the ids that stay in it, the timers that are left and the
callbacks that have run.
-/
def visitSlot (now : Int) (timers_ : UInt64 → Option (TimerEntry Cb))
    : List UInt64 → List UInt64 × (UInt64 → Option (TimerEntry Cb)) × List (UInt64 × TimerEntry Cb)
  | [] => ([], timers_, [])
  | id :: rest =>
    match timers_ id with
    | none => visitSlot now timers_ rest
    | some entry =>
      if entry.expiration ≤ now then
        let (slot, timers_, ran) := visitSlot now (Function.update timers_ id none) rest
        (slot, timers_, (id, entry) :: ran)
      else
        let (slot, timers_, ran) := visitSlot now timers_ rest
        (id :: slot, timers_, ran)

/--
One round of the loop of `tick`.
-/
def visitRound (now : Int) (wheel : TimerWheel Cb) (i : Nat)
    : TimerWheel Cb × List (UInt64 × TimerEntry Cb) :=
  let idx := (wheel.current_index_ + i) % wheel.wheel_size_
  have hidx : idx < wheel.wheel_.length := by
    rw [wheel.resized]
    exact Nat.mod_lt _ (Nat.zero_lt_of_lt wheel.index_lt)
  let (slot, timers_, ran) := visitSlot now wheel.timers_ wheel.wheel_[idx]
  let wheel := { wheel with
    wheel_ := wheel.wheel_.set idx slot
    timers_
    resized := by rw [List.length_set, wheel.resized]
  }
  (wheel, ran)

/--
The rounds `i`, `i + 1`, ... of the loop of `tick`, `n` of them.
-/
def visitSlots (now : Int) (wheel : TimerWheel Cb) (i : Nat)
    : Nat → Option (TimerWheel Cb × List (UInt64 × TimerEntry Cb))
  | 0 => some (wheel, [])
  | n + 1 =>
    if wheel.current_index_ + i ≤ INT_MAX then
      let (wheel, ran) := visitRound now wheel i
      (visitSlots now wheel (i + 1) n).map fun (wheel, ran') => (wheel, ran ++ ran')
    else
      none

/--
`tick` and the timers whose callbacks it runs, in order.
-/
def tick (wheel : TimerWheel Cb) (now : Int)
    : Option (TimerWheel Cb × List (UInt64 × TimerEntry Cb)) :=
  (visitSlots now wheel 0 wheel.wheel_size_).map fun (wheel, ran) =>
    ({ wheel with
        current_index_ := (wheel.current_index_ + 1) % wheel.wheel_size_
        index_lt := Nat.mod_lt _ (Nat.zero_lt_of_lt wheel.index_lt)
      }, ran)

inductive Label (Cb : Type u) where
  | add_timer (now delay_ms : Int) (cb : Cb) (now' : Int)
  | cancel_timer (id : UInt64)
  | tick (now : Int)

def step (wheel : TimerWheel Cb) : Label Cb → Option (TimerWheel Cb × List (UInt64 × TimerEntry Cb))
  | .add_timer now delay_ms cb now' =>
    (wheel.add_timer now delay_ms cb now').map fun (_, wheel) => (wheel, [])
  | .cancel_timer id => some (wheel.cancel_timer id, [])
  | .tick now => wheel.tick now

end TimerWheel
end LFGateway
