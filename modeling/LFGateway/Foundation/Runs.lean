import Mathlib.Algebra.BigOperators.Group.List.Basic
import Mathlib.Algebra.GroupWithZero.Nat
import Mathlib.Order.Defs.LinearOrder
import Mathlib.Order.Lattice
import LFGateway.Foundation.Machine

/-!
This module contains rules for runs of machines: that machines made of others run as their parts do, that
a machine follows a specification step by step, that a run has only so many steps of a kind, and what the
largest value of a measure in a run is.
-/

namespace Foundation

section Parts

variable {σ : Type u} {ι : Type v} {τ : Type w} {κ : Type x}

theorem exec_part {step : σ → ι → Option σ} {step' : τ → κ → Option τ} (part : σ → τ)
    (hstep : ∀ s l s', step s l = some s' → ∃ ls', exec step' (part s) ls' = some (part s'))
    {s s' : σ} {ls : List ι} (h : exec step s ls = some s')
    : ∃ ls', exec step' (part s) ls' = some (part s') := by
  induction ls generalizing s with
  | nil =>
    rw [exec_nil, Option.some.injEq] at h
    exact ⟨[], by rw [exec_nil, h]⟩
  | cons l ls ih =>
    obtain ⟨t, hl, hls⟩ := (exec_cons_eq_some step).mp h
    obtain ⟨first, hfirst⟩ := hstep s l t hl
    obtain ⟨rest, hrest⟩ := ih hls
    exact ⟨first ++ rest, (exec_append_eq_some step').mpr ⟨part t, hfirst, hrest⟩⟩

theorem exec_one {step : τ → κ → Option τ} {t t' : τ} {l : κ} (h : step t l = some t')
    : exec step t [l] = some t' :=
  (exec_cons_eq_some step).mpr ⟨t', h, rfl⟩

end Parts

section Follows

variable {σ : Type u} {τ : Type v} {ι : Type w} {ω : Type x} {ω' : Type y}

/--
Along `ls` the machine `step` follows `spec`, states being related by `R` and outputs by `O`.
-/
def Follows (step : σ → ι → Option (σ × ω)) (spec : τ → ι → τ × ω') (R : σ → τ → Prop)
    (O : ω → ω' → Prop) (s : σ) (t : τ) : List ι → Prop
  | [] => R s t
  | l :: ls =>
    R s t ∧ ∃ s' o, step s l = some (s', o) ∧ O o (spec t l).2 ∧
      Follows step spec R O s' (spec t l).1 ls

variable {step : σ → ι → Option (σ × ω)} {spec : τ → ι → τ × ω'} {R : σ → τ → Prop}
variable {O : ω → ω' → Prop}

theorem Follows.related {s : σ} {t : τ} {ls : List ι} (h : Follows step spec R O s t ls) : R s t := by
  cases ls with
  | nil => exact h
  | cons l ls => exact h.1

theorem follows_iff_meets {I : σ → Prop} {C : σ → ι → Prop} {D : ι → Prop}
    (hI : ∀ s l s' o, I s → step s l = some (s', o) → I s')
    (hstep : ∀ s t l, I s → D l → R s t →
      (C s l ↔ ∃ s' o, step s l = some (s', o) ∧ O o (spec t l).2 ∧ R s' (spec t l).1))
    {s : σ} {t : τ} {ls : List ι} (hs : I s) (hD : ∀ l ∈ ls, D l) (hR : R s t)
    : Follows step spec R O s t ls
        ↔
      Meets (fun s l => (step s l).map Prod.fst) C s ls := by
  induction ls generalizing s t with
  | nil => exact iff_of_true hR trivial
  | cons l ls ih =>
    have hone := hstep s t l hs (hD l List.mem_cons_self) hR
    have hrest : ∀ l ∈ ls, D l := fun l hl => hD l (List.mem_cons_of_mem _ hl)
    constructor
    . intro ⟨_, s', o, hl, hO, hfollows⟩
      have hl' : (step s l).map Prod.fst = some s' := by rw [hl, Option.map_some]
      rw [meets_cons_iff _ C hl']
      have hR' := hfollows.related
      exact ⟨hone.mpr ⟨s', o, hl, hO, hR'⟩, (ih (hI s l s' o hs hl) hrest hR').mp hfollows⟩
    . intro hmeets
      obtain ⟨s', o, hl, hO, hR'⟩ := hone.mp hmeets.1
      have hl' : (step s l).map Prod.fst = some s' := by rw [hl, Option.map_some]
      rw [meets_cons_iff _ C hl'] at hmeets
      exact ⟨hR, s', o, hl, hO, (ih (hI s l s' o hs hl) hrest hR').mpr hmeets.2⟩

end Follows

section Variant

variable {σ : Type u} {ι : Type v} {α : Type w}

theorem countP_add_le_of_variant {step : σ → ι → Option σ} {I : σ → Prop} (p : ι → Bool) (variant : σ → Nat)
    (hI : ∀ s l s', I s → step s l = some s' → I s')
    (hfalls : ∀ s l s', I s → step s l = some s' → variant s' + (p l).toNat ≤ variant s)
    {s s' : σ} {ls : List ι} (hs : I s) (h : exec step s ls = some s')
    : ls.countP p + variant s' ≤ variant s := by
  induction ls generalizing s with
  | nil =>
    rw [exec_nil, Option.some.injEq] at h
    simp [h]
  | cons l ls ih =>
    obtain ⟨t, hl, hls⟩ := (exec_cons_eq_some step).mp h
    have hrest := ih (hI s l t hs hl) hls
    have hfirst := hfalls s l t hs hl
    rw [List.countP_cons]
    cases hp : p l with
    | false =>
      rw [hp] at hfirst
      simp at hfirst ⊢
      omega
    | true =>
      rw [hp] at hfirst
      simp at hfirst ⊢
      omega

theorem sum_map_set (f : α → Nat) {l : List α} {i : Nat} {a b : α} (h : l[i]? = some a)
    : ((l.set i b).map f).sum + f a = (l.map f).sum + f b := by
  induction l generalizing i with
  | nil => simp at h
  | cons x l ih =>
    cases i with
    | zero =>
      rw [List.getElem?_cons_zero, Option.some.injEq] at h
      simp [h]
      omega
    | succ i =>
      rw [List.getElem?_cons_succ] at h
      have hrest := ih h
      rw [List.set_cons_succ, List.map_cons, List.map_cons, List.sum_cons, List.sum_cons]
      omega

end Variant

section Peak

variable {σ : Type u} {ι : Type v} (step : σ → ι → Option σ) (f : σ → Nat)

def peak (s : σ) : List ι → Nat
  | [] => f s
  | l :: ls =>
    match step s l with
    | some s' => max (f s) (peak s' ls)
    | none => f s

variable {step f}

theorem peak_cons {s s' : σ} {l : ι} {ls : List ι} (hl : step s l = some s')
    : peak step f s (l :: ls) = max (f s) (peak step f s' ls) := by
  conv => lhs; unfold peak
  rw [hl]

theorem le_peak (s : σ) (ls : List ι) : f s ≤ peak step f s ls := by
  cases ls with
  | nil => exact le_refl _
  | cons l ls =>
    unfold peak
    split
    . exact le_max_left _ _
    . exact le_refl _

theorem exec_invariant_peak {P : σ → Nat → Prop}
    (hstep : ∀ s n l s', P s n → step s l = some s' → P s' (max n (f s'))) {s s' : σ} {ls : List ι}
    (hs : P s (f s)) (h : exec step s ls = some s') : P s' (peak step f s ls) := by
  have hrun : ∀ n, f s ≤ n → P s n → P s' (max n (peak step f s ls)) := by
    clear hs
    induction ls generalizing s with
    | nil =>
      intro n hle hP
      rw [exec_nil, Option.some.injEq] at h
      rw [← h]
      rwa [peak, max_eq_left hle]
    | cons l ls ih =>
      intro n hle hP
      obtain ⟨t, hl, hls⟩ := (exec_cons_eq_some step).mp h
      have hnext := ih hls (max n (f t)) (le_max_right _ _) (hstep s n l t hP hl)
      rwa [max_assoc, max_eq_right (le_peak t ls), ← max_eq_left hle, max_assoc, ← peak_cons hl] at hnext
  have hrest := hrun (f s) (le_refl _) hs
  rwa [max_eq_right (le_peak s ls)] at hrest

theorem le_peak_of_exec {s s' : σ} {ls : List ι} (h : exec step s ls = some s') : f s' ≤ peak step f s ls :=
  exec_invariant_peak (P := fun s n => f s ≤ n) (fun _ _ _ _ _ _ => le_max_right _ _) (le_refl _) h

end Peak

end Foundation
