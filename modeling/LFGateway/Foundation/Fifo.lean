import Mathlib.Data.List.Basic

/-!
This module contains first-in first-out queues that remember what went through them. A queue is
only built together with a proof that nothing was lost, duplicated or reordered on the way.
-/

namespace Foundation

/--
`waiting` is the queue itself, `accepted` everything ever pushed and `taken` everything ever popped,
each in order.
-/
structure Fifo (α : Type u) where
  accepted : List α
  taken : List α
  waiting : List α
  conserved : taken ++ waiting = accepted

namespace Fifo

variable {α : Type u}

def empty : Fifo α := ⟨[], [], [], rfl⟩

def push (q : Fifo α) (a : α) : Fifo α :=
  ⟨q.accepted ++ [a], q.taken, q.waiting ++ [a], by rw [← q.conserved, List.append_assoc]⟩

def pop (q : Fifo α) : Option (α × Fifo α) :=
  match h : q.waiting with
  | [] => none
  | a :: rest => some (a, ⟨q.accepted, q.taken ++ [a], rest, by rw [← q.conserved, h]; simp⟩)

def drain (q : Fifo α) : List α × Fifo α :=
  (q.waiting, ⟨q.accepted, q.taken ++ q.waiting, [], by rw [← q.conserved]; simp⟩)

section

variable (q : Fifo α)

@[simp]
theorem empty_accepted : (empty : Fifo α).accepted = [] := rfl

@[simp]
theorem empty_taken : (empty : Fifo α).taken = [] := rfl

@[simp]
theorem empty_waiting : (empty : Fifo α).waiting = [] := rfl

@[simp]
theorem push_accepted (a : α) : (q.push a).accepted = q.accepted ++ [a] := rfl

@[simp]
theorem push_taken (a : α) : (q.push a).taken = q.taken := rfl

@[simp]
theorem push_waiting (a : α) : (q.push a).waiting = q.waiting ++ [a] := rfl

@[simp]
theorem drain_fst : q.drain.1 = q.waiting := rfl

@[simp]
theorem drain_accepted : q.drain.2.accepted = q.accepted := rfl

@[simp]
theorem drain_taken : q.drain.2.taken = q.taken ++ q.waiting := rfl

@[simp]
theorem drain_waiting : q.drain.2.waiting = [] := rfl

end

variable {q q' : Fifo α}

theorem pop_eq_none (h : q.pop = none) : q.waiting = [] := by
  unfold pop at h
  split at h
  . assumption
  . contradiction

theorem pop_eq_some {a : α} (h : q.pop = some (a, q'))
    : q.waiting = a :: q'.waiting ∧ q'.taken = q.taken ++ [a] ∧ q'.accepted = q.accepted := by
  unfold pop at h
  split at h
  . contradiction
  . next b rest heq =>
    rw [Option.some.injEq, Prod.mk.injEq] at h
    obtain ⟨rfl, rfl⟩ := h
    exact ⟨heq, rfl, rfl⟩

theorem taken_prefix (q : Fifo α) : q.taken <+: q.accepted := ⟨q.waiting, q.conserved⟩

theorem taken_eq_accepted (h : q.waiting = []) : q.taken = q.accepted := by
  rw [← q.conserved, h, List.append_nil]

end Fifo
end Foundation
