import Mathlib.Data.List.Basic

/-!
This module contains machines that put out something in every step, and two ways to compare such
machines on the same labels. What relates their states may speak of the labels still to come.
-/

namespace Foundation

variable {σ : Type u} {τ : Type v} {ι : Type w} {ω : Type x}

def outputs (step : σ → ι → ω × σ) (s : σ) : List ι → List ω
  | [] => []
  | l :: ls => (step s l).1 :: outputs step (step s l).2 ls

def stateAfter (step : σ → ι → ω × σ) (s : σ) : List ι → σ
  | [] => s
  | l :: ls => stateAfter step (step s l).2 ls

theorem stateAfter_invariant {step : σ → ι → ω × σ} {P : σ → Prop} {s : σ} {ls : List ι}
    (hstep : ∀ s, ∀ l ∈ ls, P s → P (step s l).2) (h : P s) : P (stateAfter step s ls) := by
  induction ls generalizing s with
  | nil => exact h
  | cons l ls ih =>
    apply ih
    . exact fun s l hl => hstep s l (List.mem_cons_of_mem _ hl)
    . exact hstep s l List.mem_cons_self h

section

variable {step : σ → ι → ω × σ} {step' : τ → ι → ω × τ}

theorem outputs_eq_of_related {R : σ → τ → List ι → Prop}
    (hstep : ∀ s t l ls, R s t (l :: ls) →
      (step s l).1 = (step' t l).1 ∧ R (step s l).2 (step' t l).2 ls)
    {s : σ} {t : τ} {ls : List ι} (h : R s t ls) : outputs step s ls = outputs step' t ls := by
  induction ls generalizing s t with
  | nil => rfl
  | cons l ls ih =>
    obtain ⟨hout, hrest⟩ := hstep s t l ls h
    rw [outputs, outputs, hout, ih hrest]

/--
A machine that is `d` outputs `a` ahead of another one, and whose lead never falls below zero, has put
out at least as many `a` at any time.
-/
theorem count_outputs_le_of_lead [BEq ω] {a : ω} {R : Nat → σ → τ → List ι → Prop}
    (hstep : ∀ d s t l ls, R d s t (l :: ls) →
      ∃ d', d' + [(step' t l).1].count a = d + [(step s l).1].count a ∧
        R d' (step s l).2 (step' t l).2 ls)
    {d : Nat} {s : σ} {t : τ} {ls : List ι} (h : R d s t ls)
    : (outputs step' t ls).count a ≤ d + (outputs step s ls).count a := by
  induction ls generalizing d s t with
  | nil => exact Nat.zero_le _
  | cons l ls ih =>
    obtain ⟨d', hlead, hrest⟩ := hstep d s t l ls h
    have hlater := ih hrest
    rw [List.count_singleton, List.count_singleton] at hlead
    rw [outputs, outputs, List.count_cons, List.count_cons]
    omega

end

end Foundation
