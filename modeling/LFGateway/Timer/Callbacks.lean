import LFGateway.Foundation.Iterators
import LFGateway.Foundation.Machine
import LFGateway.Timer.Impl

/-!
This module contains `TimerWheel` step by step, with callbacks that use the wheel: while a callback
runs, it may add and cancel timers, call `tick` again, throw or return. `tick` keeps an iterator into
the slot that it walks through and one to the timer whose callback it has called.
-/

namespace LFGateway

open Foundation

/--
The `tick` that runs, if no callback of it does: it is about to test `i < wheel_size_`, or it is at
`pos` in slot `idx`.
-/
inductive Walk where
  | round (now : Int) (i : Nat)
  | slot (now : Int) (i idx pos : Nat)
  deriving DecidableEq, Repr

/--
A callback that runs, with the state of the `tick` that has called it. The target of `it` is a slot and
a position in it.
-/
structure Callback where
  now : Int
  i : Nat
  it : Iterator (Nat × Nat)
  timer_it : Iterator UInt64
  deriving DecidableEq, Repr

/--
`capacity idx` is that of slot `idx`, `size` and `bucket_count` are those of `timers_`. The innermost
callback is the first one. `undefined` says that `tick` has used an iterator that was invalid.
-/
structure Ticking (Cb : Type u) where
  wheel : TimerWheel Cb
  capacity : Nat → Nat
  size : Nat
  bucket_count : Nat
  walk : Option Walk
  callbacks : List Callback
  undefined : Bool

variable {Cb : Type u}

namespace TimerWheel

def slot (wheel : TimerWheel Cb) (idx : Nat) : List UInt64 := wheel.wheel_[idx]?.getD []

def slotIndex (wheel : TimerWheel Cb) (expires now : Int) : Nat :=
  ((wheel.current_index_ + (delay expires now).tdiv wheel.tick_ms_).tmod wheel.wheel_size_).toNat

def eraseAt (wheel : TimerWheel Cb) (idx pos : Nat) : TimerWheel Cb :=
  { wheel with
    wheel_ := wheel.wheel_.modify idx (·.eraseIdx pos)
    resized := by rw [List.length_modify, wheel.resized]
  }

theorem next_index_lt (wheel : TimerWheel Cb)
    : (wheel.current_index_ + 1) % wheel.wheel_size_ < wheel.wheel_size_ :=
  Nat.mod_lt _ (Nat.zero_lt_of_lt wheel.index_lt)

def advance (wheel : TimerWheel Cb) : TimerWheel Cb :=
  { wheel with
    current_index_ := (wheel.current_index_ + 1) % wheel.wheel_size_
    index_lt := wheel.next_index_lt
  }

end TimerWheel

namespace Ticking

def init (tick_ms : Int) (wheel_size : Nat) (h : 1 ≤ wheel_size) : Ticking Cb where
  wheel := .init tick_ms wheel_size h
  capacity := fun _ => 0
  size := 0
  bucket_count := 1
  walk := none
  callbacks := []
  undefined := false

/--
`capacity` and `bucket_count` of a call of `add_timer` are what it allocates if it has to.
-/
inductive Label (Cb : Type u) where
  | add_timer (now delay_ms : Int) (cb : Cb) (now' : Int) (capacity bucket_count : Nat)
  | cancel_timer (id : UInt64)
  | tick (now : Int)
  /-- `tick` goes on by itself -/
  | visit
  /-- the innermost callback returns or throws -/
  | returned
  | threw
  deriving DecidableEq

def invalidateIts (s : Ticking Cb) (p : Nat × Nat → Bool) : Ticking Cb :=
  { s with callbacks := s.callbacks.map fun c => { c with it := c.it.invalidate p } }

def invalidateTimerIts (s : Ticking Cb) (p : UInt64 → Bool) : Ticking Cb :=
  { s with callbacks := s.callbacks.map fun c => { c with timer_it := c.timer_it.invalidate p } }

/--
`timers_[id]`
-/
def insertKey (s : Ticking Cb) (id : UInt64) (bucket_count : Nat) : Option (Ticking Cb) :=
  if (s.wheel.timers_ id).isSome then
    some s
  else if rehashes s.size s.bucket_count then
    if s.size + 1 ≤ bucket_count then
      some { s.invalidateTimerIts (fun _ => true) with size := s.size + 1, bucket_count }
    else
      none
  else
    some { s with size := s.size + 1 }

/--
`wheel_[idx].push_back(id)`
-/
def pushBack (s : Ticking Cb) (idx capacity : Nat) : Option (Ticking Cb) :=
  if reallocates (s.wheel.slot idx).length (s.capacity idx) then
    if (s.wheel.slot idx).length + 1 ≤ capacity then
      some { s.invalidateIts (fun target => target.1 = idx) with
        capacity := Function.update s.capacity idx capacity
      }
    else
      none
  else
    some s

def add_timer (s : Ticking Cb) (now delay_ms : Int) (cb : Cb) (now' : Int) (capacity bucket_count : Nat)
    : Option (Ticking Cb) := do
  let (id, wheel) ← s.wheel.add_timer now delay_ms cb now'
  let s' ← s.insertKey id bucket_count
  let s' ← s'.pushBack (s.wheel.slotIndex (now + delay_ms) now') capacity
  return { s' with wheel }

/--
`timers_.erase` of an iterator to `id`
-/
def eraseKey (s : Ticking Cb) (id : UInt64) : Ticking Cb :=
  { s.invalidateTimerIts (· = id) with wheel := s.wheel.cancel_timer id, size := s.size - 1 }

/--
`slot.erase` of an iterator at `pos`
-/
def eraseAt (s : Ticking Cb) (idx pos : Nat) : Ticking Cb :=
  { s.invalidateIts (fun target => target.1 = idx ∧ erasedAt pos target.2) with
    wheel := s.wheel.eraseAt idx pos
  }

def cancel_timer (s : Ticking Cb) (id : UInt64) : Ticking Cb :=
  if (s.wheel.timers_ id).isSome then s.eraseKey id else s

def visit (s : Ticking Cb) : Walk → Option (Ticking Cb)
  | .round now i =>
    if i < s.wheel.wheel_size_ then
      if s.wheel.current_index_ + i ≤ INT_MAX then
        let idx := (s.wheel.current_index_ + i) % s.wheel.wheel_size_
        some { s with walk := some (.slot now i idx 0) }
      else
        none
    else
      some { s with wheel := s.wheel.advance, walk := none }
  | .slot now i idx pos =>
    match (s.wheel.slot idx)[pos]? with
    | none => some { s with walk := some (.round now (i + 1)) }
    | some id =>
      match s.wheel.timers_ id with
      | none => some (s.eraseAt idx pos)
      | some entry =>
        if entry.expiration ≤ now then
          some { s with
            walk := none
            callbacks := ⟨now, i, .fresh (idx, pos), .fresh id⟩ :: s.callbacks
          }
        else
          some { s with walk := some (.slot now i idx (pos + 1)) }

/--
What `tick` does when callback `c` has returned; `s` has the callbacks that are still running.
-/
def afterCallback (s : Ticking Cb) (c : Callback) : Ticking Cb :=
  if c.timer_it.valid then
    let s := s.eraseKey c.timer_it.target
    if c.it.valid then
      let (idx, pos) := c.it.target
      { s.eraseAt idx pos with walk := some (.slot c.now c.i idx pos) }
    else
      { s with undefined := true }
  else
    { s with undefined := true }

/--
Behind the use of an invalid iterator nothing is said any more.
-/
def step (s : Ticking Cb) (l : Label Cb) : Option (Ticking Cb) :=
  if s.undefined then
    none
  else
    match s.walk, l with
    | none, .add_timer now delay_ms cb now' capacity bucket_count =>
      s.add_timer now delay_ms cb now' capacity bucket_count
    | none, .cancel_timer id => some (s.cancel_timer id)
    | none, .tick now => some { s with walk := some (.round now 0) }
    | some walk, .visit => s.visit walk
    | none, .returned =>
      match s.callbacks with
      | [] => none
      | c :: callbacks => some ({ s with callbacks }.afterCallback c)
    | none, .threw =>
      match s.callbacks with
      | [] => none
      -- the `tick` that has called it ends with the exception
      | _ :: callbacks => some { s with callbacks }
    | _, _ => none

structure Idle (s : Ticking Cb) : Prop where
  walk : s.walk = none
  callbacks : s.callbacks = []
  defined : s.undefined = false

/--
The step leaves the iterators of the callbacks that run alone.
-/
def KeepsIterators (s : Ticking Cb) : Label Cb → Prop
  | .add_timer now delay_ms _ now' _ _ =>
    let idx := s.wheel.slotIndex (now + delay_ms) now'
    ∀ c ∈ s.callbacks,
      ((s.wheel.timers_ s.wheel.next_id_).isSome ∨ s.size + 1 ≤ s.bucket_count) ∧
        (c.it.target.1 = idx → (s.wheel.slot idx).length + 1 ≤ s.capacity idx)
  | .cancel_timer id => ∀ c ∈ s.callbacks, c.timer_it.target = id → s.wheel.timers_ id = none
  | .visit =>
    match s.walk with
    | some (.slot _ _ idx pos) =>
      ∀ id, (s.wheel.slot idx)[pos]? = some id → s.wheel.timers_ id = none →
        ∀ c ∈ s.callbacks, c.it.target.1 = idx → c.it.target.2 < pos
    | _ => True
  | .returned =>
    match s.callbacks with
    | c :: callbacks =>
      ∀ c' ∈ callbacks, c'.timer_it.target ≠ c.timer_it.target ∧
        (c'.it.target.1 = c.it.target.1 → c'.it.target.2 < c.it.target.2)
    | [] => True
  | .tick _ | .threw => True

end Ticking
end LFGateway
