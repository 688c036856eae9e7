import Mathlib.Data.List.Basic

/-!
This module contains machines whose steps are chosen by labels: a step function takes a state and a
label to the next state, or to `none` where the label is not enabled. A run is a list of labels, so
"every interleaving" is "every list of labels" and "every reachable state" is the end of some run.
-/

namespace Foundation

variable {σ : Type u} {ι : Type v} {τ : Type w}

/--
The state a run ends in, `none` if one of its labels was not enabled.
-/
def exec (step : σ → ι → Option σ) (s : σ) : List ι → Option σ
  | [] => some s
  | l :: ls =>
    match step s l with
    | some s' => exec step s' ls
    | none => none

def Meets (step : σ → ι → Option σ) (C : σ → ι → Prop) (s : σ) : List ι → Prop
  | [] => True
  | l :: ls =>
    C s l ∧
      match step s l with
      | some s' => Meets step C s' ls
      | none => True

instance Meets.decidable (step : σ → ι → Option σ) (C : σ → ι → Prop) [∀ s l, Decidable (C s l)]
    (s : σ) (ls : List ι) : Decidable (Meets step C s ls) :=
  match ls with
  | [] => inferInstanceAs (Decidable True)
  | l :: ls =>
    match h : step s l with
    | some s' =>
      have := Meets.decidable step C s' ls
      decidable_of_iff (C s l ∧ Meets step C s' ls) (by simp [Meets, h])
    | none => decidable_of_iff (C s l) (by simp [Meets, h])

section Exec

variable (step : σ → ι → Option σ)

@[simp]
theorem exec_nil (s : σ) : exec step s [] = some s := rfl

theorem exec_cons (s : σ) (l : ι) (ls : List ι)
    : exec step s (l :: ls) = (step s l).bind fun s' => exec step s' ls := by
  conv => lhs; unfold exec
  cases step s l <;> rfl

theorem exec_cons_eq_some {s s'' : σ} {l : ι} {ls : List ι}
    : exec step s (l :: ls) = some s''
        ↔
      ∃ s', step s l = some s' ∧ exec step s' ls = some s'' := by
  rw [exec_cons]
  rw [Option.bind_eq_some_iff]

theorem exec_append (s : σ) (ls ls' : List ι)
    : exec step s (ls ++ ls') = (exec step s ls).bind fun s' => exec step s' ls' := by
  induction ls generalizing s with
  | nil => rfl
  | cons l ls ih =>
    simp only [List.cons_append, exec_cons]
    cases step s l with
    | none => rfl
    | some s' => exact ih s'

theorem exec_append_eq_some {s s'' : σ} {ls ls' : List ι}
    : exec step s (ls ++ ls') = some s''
        ↔
      ∃ s', exec step s ls = some s' ∧ exec step s' ls' = some s'' := by
  rw [exec_append]
  rw [Option.bind_eq_some_iff]

/--
The invariant rule: what holds at the start of a run and is kept by every step holds at its end.
-/
theorem exec_invariant {P : σ → Prop} (hstep : ∀ s l s', P s → step s l = some s' → P s')
    {s s' : σ} {ls : List ι} (hs : P s) (h : exec step s ls = some s') : P s' := by
  induction ls generalizing s with
  | nil =>
    rw [exec_nil, Option.some.injEq] at h
    rw [← h]
    exact hs
  | cons l ls ih =>
    obtain ⟨t, hl, hls⟩ := (exec_cons_eq_some step).mp h
    exact ih (hstep s l t hs hl) hls

end Exec

section Meets

variable (step : σ → ι → Option σ) (C : σ → ι → Prop)

theorem Meets.cons {s t : σ} {l : ι} {ls : List ι} (h : Meets step C s (l :: ls))
    (hl : step s l = some t) : C s l ∧ Meets step C t ls := by
  unfold Meets at h
  rw [hl] at h
  exact h

theorem meets_cons_iff {s t : σ} {l : ι} {ls : List ι} (hl : step s l = some t)
    : Meets step C s (l :: ls) ↔ C s l ∧ Meets step C t ls := by
  conv => lhs; unfold Meets
  rw [hl]

theorem meets_append_iff {s s' : σ} {ls ls' : List ι} (h : exec step s ls = some s')
    : Meets step C s (ls ++ ls') ↔ Meets step C s ls ∧ Meets step C s' ls' := by
  induction ls generalizing s with
  | nil =>
    rw [exec_nil, Option.some.injEq] at h
    simp [Meets, h]
  | cons l ls ih =>
    obtain ⟨t, hl, hls⟩ := (exec_cons_eq_some step).mp h
    rw [List.cons_append]
    rw [meets_cons_iff step C hl, meets_cons_iff step C hl]
    rw [ih hls]
    rw [and_assoc]

/--
Where a step keeps `P` exactly if it meets `C`, a run keeps `P` exactly if all its steps meet `C`.
`I` is what may be relied on of the states of the run, and `p` of its labels.
-/
theorem iff_meets_of_step_on {I P : σ → Prop} {p : ι → Prop}
    (hI : ∀ s l s', I s → step s l = some s' → I s')
    (hstep : ∀ s l s', I s → p l → step s l = some s' → (P s' ↔ P s ∧ C s l))
    {s s' : σ} {ls : List ι} (hs : I s) (hls : ∀ l ∈ ls, p l) (h : exec step s ls = some s')
    : P s' ↔ P s ∧ Meets step C s ls := by
  induction ls generalizing s with
  | nil =>
    rw [exec_nil, Option.some.injEq] at h
    simp [Meets, h]
  | cons l ls ih =>
    obtain ⟨t, hl, hrest⟩ := (exec_cons_eq_some step).mp h
    obtain ⟨hp, hps⟩ := List.forall_mem_cons.mp hls
    rw [ih (hI s l t hs hl) hps hrest, hstep s l t hs hp hl, meets_cons_iff step C hl]
    exact and_assoc

theorem iff_meets_of_step_invariant {I P : σ → Prop}
    (hI : ∀ s l s', I s → step s l = some s' → I s')
    (hstep : ∀ s l s', I s → step s l = some s' → (P s' ↔ P s ∧ C s l))
    {s s' : σ} {ls : List ι} (hs : I s) (h : exec step s ls = some s')
    : P s' ↔ P s ∧ Meets step C s ls :=
  iff_meets_of_step_on step C (p := fun _ => True) hI (fun s l s' hs _ => hstep s l s' hs) hs
    (fun _ _ => trivial) h

theorem iff_meets_of_step {P : σ → Prop}
    (hstep : ∀ s l s', step s l = some s' → (P s' ↔ P s ∧ C s l))
    {s s' : σ} {ls : List ι} (h : exec step s ls = some s') : P s' ↔ P s ∧ Meets step C s ls :=
  iff_meets_of_step_invariant step C (I := fun _ => True) (fun _ _ _ _ _ => trivial)
    (fun s l s' _ => hstep s l s') trivial h

theorem meets_congr {D : σ → ι → Prop} (hstep : ∀ s l s', step s l = some s' → (C s l ↔ D s l))
    {s s' : σ} {ls : List ι} (h : exec step s ls = some s') : Meets step C s ls ↔ Meets step D s ls := by
  induction ls generalizing s with
  | nil => rfl
  | cons l ls ih =>
    obtain ⟨t, hl, hls⟩ := (exec_cons_eq_some step).mp h
    rw [meets_cons_iff step C hl, meets_cons_iff step D hl]
    rw [hstep s l t hl, ih hls]

theorem meets_of_forall_mem {p : ι → Prop} {s : σ} {ls : List ι} (h : ∀ l ∈ ls, p l)
    : Meets step (fun _ l => p l) s ls := by
  induction ls generalizing s with
  | nil => trivial
  | cons l ls ih =>
    refine ⟨h l List.mem_cons_self, ?_⟩
    split
    . exact ih fun l hl => h l (List.mem_cons_of_mem _ hl)
    . trivial

theorem Meets.and_of_forall_mem {p : ι → Prop} {s : σ} {ls : List ι} (hC : Meets step C s ls)
    (h : ∀ l ∈ ls, p l) : Meets step (fun s l => C s l ∧ p l) s ls := by
  induction ls generalizing s with
  | nil => trivial
  | cons l ls ih =>
    obtain ⟨hp, hrest⟩ := List.forall_mem_cons.mp h
    refine ⟨⟨hC.1, hp⟩, ?_⟩
    split
    . next s' hl => exact ih (hC.cons step C hl).2 hrest
    . trivial

theorem exec_invariant_of_meets {P : σ → Prop}
    (hstep : ∀ s l s', P s → C s l → step s l = some s' → P s')
    {s s' : σ} {ls : List ι} (hs : P s) (hC : Meets step C s ls) (h : exec step s ls = some s')
    : P s' := by
  induction ls generalizing s with
  | nil =>
    rw [exec_nil, Option.some.injEq] at h
    rw [← h]
    exact hs
  | cons l ls ih =>
    obtain ⟨t, hl, hls⟩ := (exec_cons_eq_some step).mp h
    obtain ⟨hc, hrest⟩ := hC.cons step C hl
    exact ih (hstep s l t hs hc hl) hrest hls

theorem meets_of_exec {P : σ → Prop} (hP : ∀ s l s', P s → step s l = some s' → P s')
    {s s' : σ} {ls : List ι} (hs : P s) (h : exec step s ls = some s')
    (hC : ∀ t l t' rest, P t → step t l = some t' → exec step t' rest = some s' → C t l)
    : Meets step C s ls := by
  induction ls generalizing s with
  | nil => trivial
  | cons l ls ih =>
    obtain ⟨t, hl, hls⟩ := (exec_cons_eq_some step).mp h
    rw [meets_cons_iff step C hl]
    exact ⟨hC s l t ls hs hl hls, ih (hP s l t hs hl) hls⟩

end Meets

end Foundation
