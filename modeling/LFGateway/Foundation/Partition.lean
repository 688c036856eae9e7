import Mathlib.Algebra.BigOperators.Group.Finset.Piecewise
import Mathlib.Algebra.BigOperators.Group.List.Basic
import Mathlib.Algebra.GroupWithZero.Nat

/-!
This module contains lists whose elements have keys: what is counted key by key is counted once, and
what is added up row by row may be added up column by column.
-/

namespace Foundation

variable {α : Type u} {κ : Type v} {ι : Type w}

theorem sum_countP_filter [DecidableEq κ] [DecidableEq ι] {S : Finset ι} {k : ι → κ} (hinj : Set.InjOn k S)
    (q : κ × α → Bool) {l : List (κ × α)} (hmem : ∀ a ∈ l, ∃ x ∈ S, a.1 = k x)
    : ∑ x ∈ S, (l.filter fun a => a.1 = k x).countP q = l.countP q := by
  induction l with
  | nil => simp
  | cons a l ih =>
    obtain ⟨ha, hl⟩ := List.forall_mem_cons.mp hmem
    obtain ⟨y, hy, hkey⟩ := ha
    have hcons : ∀ x ∈ S, ((a :: l).filter fun a => a.1 = k x).countP q
        = (l.filter fun a => a.1 = k x).countP q + if x = y then [a].countP q else 0 := by
      intro x hx
      rw [List.filter_cons]
      split
      . next heq =>
        rw [decide_eq_true_eq, hkey] at heq
        rw [if_pos (hinj hx hy heq.symm), ← List.singleton_append, List.countP_append, Nat.add_comm]
      . next hne =>
        rw [if_neg, Nat.add_zero]
        rintro rfl
        exact hne (decide_eq_true hkey)
    rw [Finset.sum_congr rfl hcons, Finset.sum_add_distrib, ih hl, Finset.sum_ite_eq', if_pos hy]
    calc
      l.countP q + [a].countP q = ([a] ++ l).countP q := by rw [List.countP_append, Nat.add_comm]
      _ = (a :: l).countP q := rfl

theorem sum_map_sum {S : Finset ι} {l : List α} (f : ι → α → Nat)
    : (l.map fun a => ∑ x ∈ S, f x a).sum = ∑ x ∈ S, (l.map (f x)).sum := by
  induction l with
  | nil => simp
  | cons a l ih => simp only [List.map_cons, List.sum_cons, ih, Finset.sum_add_distrib]

theorem countP_eq_sum (p : α → Bool) (l : List α) : l.countP p = (l.map fun a => (p a).toNat).sum := by
  induction l with
  | nil => rfl
  | cons a l ih =>
    rw [List.countP_cons, List.map_cons, List.sum_cons, ih, Nat.add_comm]
    cases p a <;> rfl

theorem flatMap_filter_of_nil {β : Type v} (f : α → List β) {p : α → Bool} {l : List α}
    (h : ∀ a ∈ l, p a = false → f a = []) : (l.filter p).flatMap f = l.flatMap f := by
  induction l with
  | nil => rfl
  | cons a l ih =>
    obtain ⟨ha, hl⟩ := List.forall_mem_cons.mp h
    rw [List.filter_cons, List.flatMap_cons]
    split
    . rw [List.flatMap_cons, ih hl]
    . next hp => rw [ih hl, ha (Bool.eq_false_iff.mpr hp), List.nil_append]

end Foundation
