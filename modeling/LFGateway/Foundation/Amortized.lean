import Mathlib.Algebra.Order.Field.Basic
import Mathlib.Tactic.Linarith
import Mathlib.Tactic.Ring
import LFGateway.Foundation.Machine

/-!
This module contains the amortised bound on what a run of a machine spends: if some potential pays
for every step out of what accrues at a fixed rate while a clock advances, and no step can leave
more than `cap` behind, then a run spends at most `cap` and what accrued between its first and its
last step.
-/

namespace Foundation

variable {σ : Type u} {ι : Type v} {K : Type w} [Field K]

def totalCost (step : σ → ι → Option σ) (cost : σ → ι → K) (s : σ) : List ι → K
  | [] => 0
  | l :: ls =>
    cost s l +
      match step s l with
      | some s' => totalCost step cost s' ls
      | none => 0

section

variable (step : σ → ι → Option σ) (cost : σ → ι → K)

theorem totalCost_cons {s t : σ} {l : ι} {ls : List ι} (h : step s l = some t)
    : totalCost step cost s (l :: ls) = cost s l + totalCost step cost t ls := by
  conv => lhs; unfold totalCost
  rw [h]

theorem totalCost_append {s s' : σ} {ls ls' : List ι} (h : exec step s ls = some s')
    : totalCost step cost s (ls ++ ls') = totalCost step cost s ls + totalCost step cost s' ls' := by
  induction ls generalizing s with
  | nil =>
    rw [exec_nil, Option.some.injEq] at h
    simp [totalCost, h]
  | cons l ls ih =>
    obtain ⟨t, hl, hls⟩ := (exec_cons_eq_some step).mp h
    rw [List.cons_append]
    rw [totalCost_cons step cost hl, totalCost_cons step cost hl]
    rw [ih hls]
    rw [add_assoc]

variable [LinearOrder K] [IsStrictOrderedRing K]
variable {I : σ → Prop} {C : σ → ι → Prop} {potential clock : σ → K} {rate cap : K}

/--
Every step that meets `C` in a state with `I` keeps `I` and is paid for by the potential.
-/
structure Amortizes (I : σ → Prop) (C : σ → ι → Prop) (potential clock : σ → K) (rate : K)
    : Prop where
  keeps : ∀ s l s', I s → C s l → step s l = some s' → I s'
  pays : ∀ s l s', I s → C s l → step s l = some s' →
    cost s l + potential s' ≤ potential s + rate * (clock s' - clock s)
  nonneg : ∀ s, I s → 0 ≤ potential s

variable {step cost}

theorem Amortizes.totalCost_le (h : Amortizes step cost I C potential clock rate)
    {s s' : σ} {ls : List ι} (hs : I s) (hC : Meets step C s ls) (hexec : exec step s ls = some s')
    : totalCost step cost s ls + potential s' ≤ potential s + rate * (clock s' - clock s) := by
  induction ls generalizing s with
  | nil =>
    rw [exec_nil, Option.some.injEq] at hexec
    simp [totalCost, hexec]
  | cons l ls ih =>
    obtain ⟨t, hl, hls⟩ := (exec_cons_eq_some step).mp hexec
    obtain ⟨hc, hrest⟩ := hC.cons step C hl
    have hfirst := h.pays s l t hs hc hl
    have hlast := ih (h.keeps s l t hs hc hl) hrest hls
    rw [totalCost_cons step cost hl]
    have hsplit : rate * (clock s' - clock s)
        = rate * (clock t - clock s) + rate * (clock s' - clock t) := by ring
    linarith

theorem Amortizes.totalCost_block_le (h : Amortizes step cost I C potential clock rate)
    {s t s' : σ} {l : ι} {ls : List ι} (hl : step s l = some t) (ht : I t)
    (hcap : cost s l + potential t ≤ cap) (hC : Meets step C t ls) (hexec : exec step t ls = some s')
    : totalCost step cost s (l :: ls) ≤ cap + rate * (clock s' - clock t) := by
  have hrest := h.totalCost_le ht hC hexec
  have hend : 0 ≤ potential s' :=
    h.nonneg s' (exec_invariant_of_meets step C h.keeps ht hC hexec)
  rw [totalCost_cons step cost hl]
  linarith

end

end Foundation
