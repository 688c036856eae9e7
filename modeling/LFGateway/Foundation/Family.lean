import Mathlib.Logic.Function.Basic
import LFGateway.Foundation.Machine

/-!
This module contains any number of parties that act on a shared state in any order, and what becomes
of a run if some of them are left out: if what these did goes unnoticed and the others cannot tell two
states apart that are the same for them, the others go the same way.
-/

namespace Foundation

variable {ι : Type i} {σ : Type s} {τ : Type t} {χ : Type c}

structure Family (ι : Type i) (σ : Type s) (τ : Type t) where
  shared : σ
  party : ι → τ

namespace Family

variable [DecidableEq ι] (act : σ → τ → χ → Option (σ × τ))

/--
A label says which party acts and what its surroundings choose.
-/
def step (s : Family ι σ τ) (l : ι × χ) : Option (Family ι σ τ) :=
  match act s.shared (s.party l.1) l.2 with
  | none => none
  | some (shared, t) => some ⟨shared, Function.update s.party l.1 t⟩

variable {act} {s s' : Family ι σ τ} {l : ι × χ} {ls : List (ι × χ)}

theorem step_eq_some : step act s l = some s'
    ↔
  ∃ shared t, act s.shared (s.party l.1) l.2 = some (shared, t) ∧
    s' = ⟨shared, Function.update s.party l.1 t⟩ := by
  unfold step
  split
  . next hnone => simp [hnone]
  . next shared t hact =>
    rw [hact]
    constructor
    . intro h
      rw [Option.some.injEq] at h
      exact ⟨shared, t, rfl, h.symm⟩
    . rintro ⟨_, _, heq, rfl⟩
      rw [Option.some.injEq, Prod.mk.injEq] at heq
      rw [heq.1, heq.2]

theorem step_party_of_ne {i : ι} (h : step act s l = some s') (hne : i ≠ l.1)
    : s'.party i = s.party i := by
  obtain ⟨shared, t, _, rfl⟩ := step_eq_some.mp h
  exact Function.update_of_ne hne _ _

section Unwinding

variable (act) (keep : ι → Bool) (same : σ → σ → Prop) (alike : τ → τ → Prop)

/--
If the party that acts is left out, the step cannot be seen by the others.
-/
def Unnoticed (s : Family ι σ τ) (l : ι × χ) : Prop :=
  keep l.1 = false → ∀ s', step act s l = some s' → ∀ u, same s.shared u → same s'.shared u

/--
If the party that acts is kept, it acts alike wherever it cannot see a difference.
-/
def Consistent (s : Family ι σ τ) (l : ι × χ) : Prop :=
  keep l.1 = true → ∀ s', step act s l = some s' → ∀ u v, same s.shared u → alike (s.party l.1) v →
    ∃ u' v', act u v l.2 = some (u', v') ∧ same s'.shared u' ∧ alike (s'.party l.1) v'

/--
Two states that the kept parties cannot tell apart.
-/
def Alike (s u : Family ι σ τ) : Prop :=
  same s.shared u.shared ∧ ∀ i, keep i = true → alike (s.party i) (u.party i)

variable {act keep same alike} {u : Family ι σ τ}

theorem unnoticed_of_step (hl : step act s l = some s')
    (h : keep l.1 = false → ∀ u, same s.shared u → same s'.shared u) : Unnoticed act keep same s l := by
  intro hkeep t ht
  rw [hl, Option.some.injEq] at ht
  rw [← ht]
  exact h hkeep

theorem consistent_of_step (hl : step act s l = some s')
    (h : keep l.1 = true → ∀ u v, same s.shared u → alike (s.party l.1) v →
      ∃ u' v', act u v l.2 = some (u', v') ∧ same s'.shared u' ∧ alike (s'.party l.1) v')
    : Consistent act keep same alike s l := by
  intro hkeep t ht
  rw [hl, Option.some.injEq] at ht
  rw [← ht]
  exact h hkeep

theorem Alike.step_left (h : Alike keep same alike s u) (hkeep : keep l.1 = false)
    (hunnoticed : Unnoticed act keep same s l) (hl : step act s l = some s')
    : Alike keep same alike s' u := by
  refine ⟨hunnoticed hkeep s' hl u.shared h.1, ?_⟩
  intro i hi
  have hne : i ≠ l.1 := by
    rintro rfl
    rw [hkeep] at hi
    contradiction
  rw [step_party_of_ne hl hne]
  exact h.2 i hi

theorem Alike.step (h : Alike keep same alike s u) (hkeep : keep l.1 = true)
    (hconsistent : Consistent act keep same alike s l) (hl : step act s l = some s')
    : ∃ u', Family.step act u l = some u' ∧ Alike keep same alike s' u' := by
  obtain ⟨shared, t, hact, hsame, halike⟩ := hconsistent hkeep s' hl u.shared _ h.1 (h.2 l.1 hkeep)
  refine ⟨⟨shared, Function.update u.party l.1 t⟩, step_eq_some.mpr ⟨_, _, hact, rfl⟩, hsame, ?_⟩
  intro i hi
  by_cases hne : i = l.1
  . subst hne
    dsimp only
    rw [Function.update_self]
    exact halike
  . rw [step_party_of_ne hl hne]
    dsimp only
    rw [Function.update_of_ne hne]
    exact h.2 i hi

theorem exec_filter (halike : Alike keep same alike s u)
    (hmeets : Meets (step act) (fun s l => Unnoticed act keep same s l ∧
      Consistent act keep same alike s l) s ls)
    (h : exec (step act) s ls = some s')
    : ∃ u', exec (step act) u (ls.filter fun l => keep l.1) = some u' ∧
        Alike keep same alike s' u' := by
  induction ls generalizing s u with
  | nil =>
    rw [exec_nil, Option.some.injEq] at h
    rw [← h]
    exact ⟨u, rfl, halike⟩
  | cons l ls ih =>
    obtain ⟨t, hl, hls⟩ := (exec_cons_eq_some _).mp h
    rw [meets_cons_iff _ _ hl] at hmeets
    obtain ⟨⟨hunnoticed, hconsistent⟩, hrest⟩ := hmeets
    cases hkeep : keep l.1 with
    | false =>
      rw [List.filter_cons_of_neg (by simp [hkeep])]
      exact ih (halike.step_left hkeep hunnoticed hl) hrest hls
    | true =>
      rw [List.filter_cons_of_pos (by simp [hkeep])]
      obtain ⟨v, hv, halike⟩ := halike.step hkeep hconsistent hl
      obtain ⟨u', hu', hend⟩ := ih halike hrest hls
      exact ⟨u', (exec_cons_eq_some _).mpr ⟨v, hv, hu'⟩, hend⟩

end Unwinding

end Family
end Foundation
