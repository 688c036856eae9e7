/-!
This module contains `while` loops whose body returns early: a body takes the loop state to the next
state or to the result. A measure that every iteration decreases bounds the iterations, so that the
loop is total.
-/

namespace Foundation

variable {σ : Type u} {ρ : Type v}

inductive Iter (σ : Type u) (ρ : Type v) where
  | next (s : σ)
  | done (r : ρ)
  deriving DecidableEq, Repr

def iterate (body : σ → Iter σ ρ) : Nat → σ → Option ρ
  | 0, _ => none
  | n + 1, s =>
    match body s with
    | .next s' => iterate body n s'
    | .done r => some r

def Decreases (body : σ → Iter σ ρ) (μ : σ → Nat) : Prop := ∀ s s', body s = .next s' → μ s' < μ s

theorem isSome_iterate {body : σ → Iter σ ρ} {μ : σ → Nat} (h : Decreases body μ) {n : Nat} {s : σ}
    (hn : μ s < n) : (iterate body n s).isSome := by
  induction n generalizing s with
  | zero => exact absurd hn (Nat.not_lt_zero _)
  | succ n ih =>
    unfold iterate
    split
    . next s' hbody =>
      have := h s s' hbody
      exact ih (by omega)
    . rfl

def loop (body : σ → Iter σ ρ) (μ : σ → Nat) (h : Decreases body μ) (s : σ) : ρ :=
  (iterate body (μ s + 1) s).get (isSome_iterate h (Nat.lt_succ_self _))

theorem iterate_mono {body : σ → Iter σ ρ} {n m : Nat} {s : σ} {r : ρ}
    (h : iterate body n s = some r) (hle : n ≤ m) : iterate body m s = some r := by
  induction n generalizing m s with
  | zero => contradiction
  | succ n ih =>
    cases m with
    | zero => omega
    | succ m =>
      unfold iterate at h ⊢
      split at h
      . exact ih h (by omega)
      . exact h

theorem iterate_eq_loop {body : σ → Iter σ ρ} {μ : σ → Nat} (h : Decreases body μ) {n : Nat} {s : σ}
    (hn : μ s < n) : iterate body n s = some (loop body μ h s) := by
  apply iterate_mono _ hn
  unfold loop
  rw [Option.some_get]

section Unfold

variable {body : σ → Iter σ ρ} {μ : σ → Nat} (h : Decreases body μ) {s : σ}

theorem loop_of_next {s' : σ} (hbody : body s = .next s') : loop body μ h s = loop body μ h s' := by
  have hlt := h s s' hbody
  have heq := iterate_eq_loop h (Nat.lt_succ_self (μ s))
  unfold iterate at heq
  rw [hbody] at heq
  dsimp only at heq
  rw [iterate_eq_loop h hlt, Option.some.injEq] at heq
  exact heq.symm

theorem loop_of_done {r : ρ} (hbody : body s = .done r) : loop body μ h s = r := by
  have heq := iterate_eq_loop h (Nat.lt_succ_self (μ s))
  unfold iterate at heq
  rw [hbody] at heq
  dsimp only at heq
  rw [Option.some.injEq] at heq
  exact heq.symm

theorem loop_induction {P : σ → ρ → Prop} (hdone : ∀ s r, body s = .done r → P s r)
    (hnext : ∀ s s', body s = .next s' → P s' (loop body μ h s') → P s (loop body μ h s')) (s : σ)
    : P s (loop body μ h s) := by
  induction hn : μ s using Nat.strongRecOn generalizing s with
  | ind n ih =>
    subst hn
    cases hbody : body s with
    | next s' =>
      rw [loop_of_next h hbody]
      exact hnext s s' hbody (ih (μ s') (h s s' hbody) s' rfl)
    | done r =>
      rw [loop_of_done h hbody]
      exact hdone s r hbody

end Unfold

end Foundation
