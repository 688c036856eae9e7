import Mathlib.Data.List.Basic

/-!
This module contains iterators: what they refer to and whether they may still be used. The
operations of a `std::vector` and of a `std::unordered_map` with a maximum load factor of 1 invalidate
them as the C++ standard says.
-/

namespace Foundation

structure Iterator (α : Type u) where
  target : α
  valid : Bool
  deriving DecidableEq, Repr

namespace Iterator

variable {α : Type u} {p : α → Bool} {it : Iterator α}

def fresh (a : α) : Iterator α := ⟨a, true⟩

/--
An operation invalidates the iterators to what `p` says.
-/
def invalidate (p : α → Bool) (it : Iterator α) : Iterator α := ⟨it.target, it.valid && !p it.target⟩

@[simp]
theorem target_invalidate : (it.invalidate p).target = it.target := rfl

@[simp]
theorem valid_invalidate : (it.invalidate p).valid = true ↔ it.valid = true ∧ p it.target = false := by
  simp [invalidate]

@[simp]
theorem valid_fresh (a : α) : (fresh a).valid = true := rfl

end Iterator

/--
`push_back` on a vector of `length` elements allocates anew, which invalidates all iterators of it.
-/
def reallocates (length capacity : Nat) : Bool := capacity < length + 1

/--
The insertion of a new key into a map of `size` elements rehashes, which invalidates all iterators of
it.
-/
def rehashes (size bucket_count : Nat) : Bool := bucket_count < size + 1

/--
`erase` at position `pos` of a vector invalidates the iterators at and behind it.
-/
def erasedAt (pos pos' : Nat) : Bool := pos ≤ pos'

end Foundation
