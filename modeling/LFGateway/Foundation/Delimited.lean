import Mathlib.Data.List.Basic

/-!
This module contains messages on a stream without separators. A reader takes one message from the front
of the stream, and a writer whose messages say themselves where they end is read back message by message.
-/

namespace Foundation

variable {α : Type u} {β : Type v}

def readAll (read : List β → Option (α × List β)) (s : List β) : List α × List β :=
  match read s with
  | none => ([], s)
  | some (a, rest) =>
    if rest.length < s.length then
      let (as, left) := readAll read rest
      (a :: as, left)
    else
      ([], s)
termination_by s.length

/--
The reader stops where the message ends, whatever comes behind it.
-/
structure SelfDelimiting (write : α → List β) (read : List β → Option (α × List β)) : Prop where
  read_append : ∀ a s, read (write a ++ s) = some (a, s)
  read_nil : read [] = none

namespace SelfDelimiting

variable {write : α → List β} {read : List β → Option (α × List β)}

theorem write_ne_nil (h : SelfDelimiting write read) (a : α) : write a ≠ [] := by
  intro hnil
  have hread := h.read_append a []
  rw [hnil, List.append_nil, h.read_nil] at hread
  contradiction

theorem readAll_append (h : SelfDelimiting write read) (a : α) (s : List β)
    : readAll read (write a ++ s) = (a :: (readAll read s).1, (readAll read s).2) := by
  have hlength : s.length < (write a ++ s).length := by
    have := List.length_pos_of_ne_nil (h.write_ne_nil a)
    rw [List.length_append]
    omega
  rw [readAll, h.read_append]
  simp only [hlength, ↓reduceIte]

theorem readAll_flatMap (h : SelfDelimiting write read) (as : List α)
    : readAll read (as.flatMap write) = (as, []) := by
  induction as with
  | nil => rw [List.flatMap_nil, readAll, h.read_nil]
  | cons a as ih => rw [List.flatMap_cons, h.readAll_append, ih]

end SelfDelimiting
end Foundation
