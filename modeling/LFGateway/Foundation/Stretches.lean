import Mathlib.Algebra.Order.Field.Basic
import Mathlib.Algebra.BigOperators.Group.List.Basic
import Mathlib.Data.List.Perm.Basic
import Mathlib.Tactic.Linarith
import Mathlib.Tactic.Ring

/-!
This module contains stretches of time and the stretches that a list of clock readings rises across.
Where no two of these overlap, what is measured along the rises is at most the time between the
lowest and the highest reading.
-/

namespace Foundation

structure Stretch (K : Type u) [LT K] where
  first : K
  last : K
  ordered : first < last

section

variable {K : Type u} [LinearOrder K]

def Stretch.Apart (s t : Stretch K) : Prop := s.last ≤ t.first ∨ t.last ≤ s.first

instance (s t : Stretch K) : Decidable (s.Apart t) := inferInstanceAs (Decidable (_ ∨ _))

/--
The stretches between neighbours of the list where the second is the larger one.
-/
def rises : List K → List (Stretch K)
  | [] => []
  | [_] => []
  | a :: b :: rest => if h : a < b then ⟨a, b, h⟩ :: rises (b :: rest) else rises (b :: rest)

/--
The readings never rise across a moment twice.
-/
def RisesOnce (readings : List K) : Prop := (rises readings).Pairwise Stretch.Apart

instance (readings : List K) : Decidable (RisesOnce readings) :=
  inferInstanceAs (Decidable (List.Pairwise _ _))

theorem mem_of_mem_rises {readings : List K} {s : Stretch K} (h : s ∈ rises readings)
    : s.first ∈ readings ∧ s.last ∈ readings := by
  fun_induction rises readings with
  | case1 => simp at h
  | case2 a => simp at h
  | case3 a b rest hab ih =>
    rw [List.mem_cons] at h
    cases h with
    | inl heq =>
      subst heq
      exact ⟨List.mem_cons_self, List.mem_cons_of_mem a List.mem_cons_self⟩
    | inr hrest => exact (ih hrest).imp (List.mem_cons_of_mem a) (List.mem_cons_of_mem a)
  | case4 a b rest hab ih => exact (ih h).imp (List.mem_cons_of_mem a) (List.mem_cons_of_mem a)

theorem RisesOnce.tail {a : K} {rest : List K} (h : RisesOnce (a :: rest)) : RisesOnce rest := by
  cases rest with
  | nil => exact .nil
  | cons b rest =>
    unfold RisesOnce rises at h
    split at h
    . exact (List.pairwise_cons.mp h).2
    . exact h

theorem risesOnce_of_sorted {readings : List K} (h : readings.Pairwise (· ≤ ·))
    : RisesOnce readings := by
  unfold RisesOnce
  fun_induction rises readings with
  | case1 => exact .nil
  | case2 a => exact .nil
  | case3 a b rest hab ih =>
    rw [List.pairwise_cons] at h ⊢
    refine ⟨?_, ih h.2⟩
    intro s hs
    left
    have hfirst := (mem_of_mem_rises hs).1
    rw [List.mem_cons] at hfirst
    cases hfirst with
    | inl heq => exact heq.ge
    | inr hmem => exact (List.pairwise_cons.mp h.2).1 s.first hmem
  | case4 a b rest hab ih =>
    rw [List.pairwise_cons] at h
    exact ih h.2

end

section

variable {K : Type u} [Field K] [LinearOrder K]

def Stretch.length (s : Stretch K) : K := s.last - s.first

def totalLength (stretches : List (Stretch K)) : K := (stretches.map Stretch.length).sum

theorem totalLength_cons (s : Stretch K) (stretches : List (Stretch K))
    : totalLength (s :: stretches) = s.length + totalLength stretches := by
  simp [totalLength]

theorem totalLength_filter (p : Stretch K → Bool) (stretches : List (Stretch K))
    : totalLength (stretches.filter p) + totalLength (stretches.filter fun s => !p s)
        =
      totalLength stretches := by
  unfold totalLength
  rw [← List.sum_append, ← List.map_append]
  apply List.Perm.sum_eq
  apply List.Perm.map
  apply List.filter_append_perm

variable [IsStrictOrderedRing K]

theorem totalLength_le {lo hi : K} {stretches : List (Stretch K)} (hle : lo ≤ hi)
    (hapart : stretches.Pairwise Stretch.Apart)
    (hlo : ∀ s ∈ stretches, lo ≤ s.first) (hhi : ∀ s ∈ stretches, s.last ≤ hi)
    : totalLength stretches ≤ hi - lo := by
  -- the first one splits the others into those before and those behind it
  match stretches with
  | [] =>
    simp only [totalLength, List.map_nil, List.sum_nil]
    linarith
  | s :: rest =>
    rw [List.pairwise_cons] at hapart
    simp only [List.mem_cons, forall_eq_or_imp] at hlo hhi
    have hs := s.ordered
    have hbefore : totalLength (rest.filter fun t => decide (t.last ≤ s.first)) ≤ s.first - lo := by
      apply totalLength_le hlo.1 (hapart.2.filter _)
      . intro t ht
        exact hlo.2 t (List.mem_of_mem_filter ht)
      . intro t ht
        simpa using (List.mem_filter.mp ht).2
    have hbehind : totalLength (rest.filter fun t => !decide (t.last ≤ s.first)) ≤ hi - s.last := by
      apply totalLength_le hhi.1 (hapart.2.filter _)
      . intro t ht
        rw [List.mem_filter] at ht
        cases hapart.1 t ht.1 with
        | inl h => exact h
        | inr h => simp [h] at ht
      . intro t ht
        exact hhi.2 t (List.mem_of_mem_filter ht)
    rw [totalLength_cons]
    rw [← totalLength_filter (fun t => decide (t.last ≤ s.first)) rest]
    unfold Stretch.length
    linarith
termination_by stretches.length
decreasing_by
  . simp only [List.length_cons]
    exact Nat.lt_succ_of_le (List.length_filter_le _ _)
  . simp only [List.length_cons]
    exact Nat.lt_succ_of_le (List.length_filter_le _ _)

def risen (readings : List K) : K := totalLength (rises readings)

theorem risen_cons_cons (a b : K) (rest : List K)
    : risen (a :: b :: rest) = max 0 (b - a) + risen (b :: rest) := by
  unfold risen
  conv => lhs; unfold rises
  split
  . next hab =>
    rw [totalLength_cons, max_eq_right (by linarith)]
    rfl
  . next hab =>
    rw [max_eq_left (by linarith), zero_add]

theorem risen_le {lo hi : K} {readings : List K} (h : RisesOnce readings) (hle : lo ≤ hi)
    (hwithin : ∀ a ∈ readings, lo ≤ a ∧ a ≤ hi) : risen readings ≤ hi - lo := by
  apply totalLength_le hle h
  . intro s hs
    exact (hwithin _ (mem_of_mem_rises hs).1).1
  . intro s hs
    exact (hwithin _ (mem_of_mem_rises hs).2).2

end

end Foundation
