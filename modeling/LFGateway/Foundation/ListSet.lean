import Mathlib.Data.List.Basic
import Mathlib.Data.List.Perm.Basic
import Mathlib.Data.List.Perm.Subperm

/-!
This module contains what replacing one element of a list does to the list of all that its elements
hold, as for threads kept in a list where one of them takes a step.
-/

namespace Foundation

variable {α : Type u} {β : Type v}

theorem getElem?_set_cases {l : List α} {i j : Nat} {a b : α} (h : (l.set i a)[j]? = some b)
    : (i = j ∧ b = a) ∨ (i ≠ j ∧ l[j]? = some b) := by
  rw [List.getElem?_set] at h
  split at h
  . next heq =>
    split at h
    . rw [Option.some.injEq] at h
      exact .inl ⟨heq, h.symm⟩
    . contradiction
  . next hne => exact .inr ⟨hne, h⟩

theorem flatMap_set_of_eq (f : α → List β) {l : List α} {i : Nat} {a b : α} (h : l[i]? = some a)
    (heq : f b = f a) : (l.set i b).flatMap f = l.flatMap f := by
  induction l generalizing i with
  | nil => rfl
  | cons x l ih =>
    cases i with
    | zero =>
      simp only [List.getElem?_cons_zero, Option.some.injEq] at h
      rw [List.set_cons_zero, List.flatMap_cons, List.flatMap_cons, heq, h]
    | succ i =>
      simp only [List.getElem?_cons_succ] at h
      rw [List.set_cons_succ, List.flatMap_cons, List.flatMap_cons, ih h]

theorem flatMap_set_perm (f : α → List β) {l : List α} {i : Nat} {a b : α} (h : l[i]? = some a)
    : ((l.set i b).flatMap f ++ f a).Perm (l.flatMap f ++ f b) := by
  induction l generalizing i with
  | nil => simp at h
  | cons x l ih =>
    cases i with
    | zero =>
      simp only [List.getElem?_cons_zero, Option.some.injEq] at h
      subst h
      simp only [List.set_cons_zero, List.flatMap_cons]
      calc
        (f b ++ l.flatMap f ++ f x).Perm (f x ++ (f b ++ l.flatMap f)) := List.perm_append_comm
        _ = f x ++ f b ++ l.flatMap f := by rw [List.append_assoc]
        List.Perm _ (f x ++ (l.flatMap f ++ f b)) := by
          rw [List.append_assoc]
          exact List.perm_append_comm.append_left (f x)
        _ = f x ++ l.flatMap f ++ f b := by rw [List.append_assoc]
    | succ i =>
      simp only [List.getElem?_cons_succ] at h
      simp only [List.set_cons_succ, List.flatMap_cons, List.append_assoc]
      exact (ih h).append_left (f x)

theorem flatMap_set_subperm (f : α → List β) {l : List α} {i : Nat} {a b : α} {rows rows' : List β}
    (h : l[i]? = some a) (hsub : (f b ++ rows').Subperm (f a ++ rows))
    : ((l.set i b).flatMap f ++ rows').Subperm (l.flatMap f ++ rows) := by
  rw [← List.subperm_append_right (f a)]
  have hset := (flatMap_set_perm f h (b := b)).append_right rows'
  have hleft : ((l.set i b).flatMap f ++ rows' ++ f a).Perm ((l.set i b).flatMap f ++ f a ++ rows') := by
    rw [List.append_assoc, List.append_assoc]
    exact List.perm_append_comm.append_left _
  have hright : (l.flatMap f ++ (f a ++ rows)).Perm (l.flatMap f ++ rows ++ f a) := by
    rw [List.append_assoc]
    exact List.perm_append_comm.append_left _
  apply (hleft.trans hset).subperm.trans
  rw [List.append_assoc]
  exact ((List.subperm_append_left _).mpr hsub).trans hright.subperm

theorem flatMap_set_perm_of_perm (f : α → List β) {l : List α} {i : Nat} {a b : α} {rows rows' : List β}
    (h : l[i]? = some a) (hperm : (f b ++ rows').Perm (f a ++ rows))
    : ((l.set i b).flatMap f ++ rows').Perm (l.flatMap f ++ rows) := by
  apply (flatMap_set_subperm f h hperm.subperm).antisymm
  have hb : (l.set i b)[i]? = some b := by
    rw [List.getElem?_set_self (List.getElem?_eq_some_iff.mp h).1]
  have hback : (l.set i b).set i a = l := by
    rw [List.set_set]
    obtain ⟨hi, rfl⟩ := List.getElem?_eq_some_iff.mp h
    exact List.set_getElem_self hi
  have hsub := flatMap_set_subperm f hb hperm.symm.subperm
  rw [hback] at hsub
  exact hsub

theorem forall_mem_set_iff {P : α → Prop} {C : Prop} {l : List α} {i : Nat} {a b : α}
    (h : l[i]? = some a) (hP : P b ↔ P a ∧ C)
    : (∀ x ∈ l.set i b, P x) ↔ (∀ x ∈ l, P x) ∧ C := by
  induction l generalizing i with
  | nil => simp at h
  | cons x l ih =>
    cases i with
    | zero =>
      simp only [List.getElem?_cons_zero, Option.some.injEq] at h
      subst h
      rw [List.set_cons_zero, List.forall_mem_cons, List.forall_mem_cons, hP]
      exact and_right_comm
    | succ i =>
      simp only [List.getElem?_cons_succ] at h
      rw [List.set_cons_succ, List.forall_mem_cons, List.forall_mem_cons, ih h]
      exact and_assoc.symm

end Foundation
