import LFGateway.Foundation.Machine
import LFGateway.Foundation.Prog

/-!
This module contains any number of programs that run at the same time over a shared state. A step
performs the next operation of one of them, in any order; what the surroundings choose is part of the
label.
-/

namespace Foundation

variable {Op : Type u} {Reply : Op → Type v} {α : Type w}
variable {ι : Type i} {σ : Type s} {χ : Type c} {ε : Type e}

structure Thread (Op : Type u) (Reply : Op → Type v) (α : Type w) (ι : Type i) where
  input : ι
  history : List (Event Op Reply)
  now : Prog Op Reply α

structure Threads (Op : Type u) (Reply : Op → Type v) (α : Type w) (ι : Type i) (σ : Type s) where
  shared : σ
  threads : List (Thread Op Reply α ι)

namespace Threads

inductive Label (ι : Type i) (χ : Type c) (ε : Type e) where
  | start (input : ι)
  | step (i : Nat) (choice : χ)
  | env (e : ε)
  deriving DecidableEq, Repr

variable (body : ι → Prog Op Reply α)
variable (answer : σ → (o : Op) → χ → Option (Reply o × σ)) (env : σ → ε → Option σ)

def advance (shared : σ) (t : Thread Op Reply α ι) (choice : χ)
    : Option (σ × Thread Op Reply α ι) :=
  match t.now with
  | .ret _ => none
  | .op o next =>
    match answer shared o choice with
    | none => none
    | some (r, shared) => some (shared, { t with history := t.history ++ [⟨o, r⟩], now := next r })

def step (s : Threads Op Reply α ι σ) : Label ι χ ε → Option (Threads Op Reply α ι σ)
  | .start input => some { s with threads := s.threads ++ [⟨input, [], body input⟩] }
  | .step i choice =>
    match s.threads[i]? with
    | none => none
    | some t =>
      match advance answer s.shared t choice with
      | none => none
      | some (shared, t) => some ⟨shared, s.threads.set i t⟩
  | .env e =>
    match env s.shared e with
    | none => none
    | some shared => some { s with shared }

def Finished (t : Thread Op Reply α ι) : Prop := ∃ a, t.now = .ret a

instance (t : Thread Op Reply α ι) : Decidable (Finished t) :=
  match h : t.now with
  | .ret a => isTrue ⟨a, h⟩
  | .op o next => isFalse fun ⟨a, ha⟩ => by
    rw [h] at ha
    contradiction

structure Runs (ok : Event Op Reply → Prop) (t : Thread Op Reply α ι) : Prop where
  does : Prog.Does (body t.input) t.history t.now
  replies : ∀ e ∈ t.history, ok e

variable {body answer env} {s s' : Threads Op Reply α ι σ}

theorem advance_eq_some {shared shared' : σ} {t t' : Thread Op Reply α ι} {choice : χ}
    (h : advance answer shared t choice = some (shared', t'))
    : ∃ o next r, t.now = .op o next ∧ answer shared o choice = some (r, shared') ∧
        t' = { t with history := t.history ++ [⟨o, r⟩], now := next r } := by
  unfold advance at h
  split at h
  . contradiction
  . next o next hnow =>
    split at h
    . contradiction
    . next r shared'' hanswer =>
      rw [Option.some.injEq, Prod.mk.injEq] at h
      obtain ⟨rfl, rfl⟩ := h
      exact ⟨o, next, r, hnow, hanswer, rfl⟩

theorem advance_of_answer {shared shared' : σ} {t : Thread Op Reply α ι} {choice : χ} {o : Op}
    {next : Reply o → Prog Op Reply α} {r : Reply o} (hnow : t.now = .op o next)
    (hanswer : answer shared o choice = some (r, shared'))
    : advance answer shared t choice
        =
      some (shared', { t with history := t.history ++ [⟨o, r⟩], now := next r }) := by
  unfold advance
  rw [hnow]
  simp only [hanswer]

theorem step_of_answer {i : Nat} {t : Thread Op Reply α ι} {choice : χ} {o : Op}
    {next : Reply o → Prog Op Reply α} {r : Reply o} {shared : σ} (ht : s.threads[i]? = some t)
    (hnow : t.now = .op o next) (hanswer : answer s.shared o choice = some (r, shared))
    : step body answer env s (.step i choice)
        =
      some ⟨shared, s.threads.set i { t with history := t.history ++ [⟨o, r⟩], now := next r }⟩ := by
  simp only [step, ht, advance_of_answer hnow hanswer]

theorem step_start {input : ι} (h : step body answer env s (.start input) = some s')
    : s' = { s with threads := s.threads ++ [⟨input, [], body input⟩] } := by
  simp only [step, Option.some.injEq] at h
  exact h.symm

theorem step_step {i : Nat} {choice : χ} (h : step body answer env s (.step i choice) = some s')
    : ∃ t shared t', s.threads[i]? = some t ∧ advance answer s.shared t choice = some (shared, t') ∧
        s' = ⟨shared, s.threads.set i t'⟩ := by
  simp only [step] at h
  split at h
  . contradiction
  . next t ht =>
    split at h
    . contradiction
    . next shared t' hadvance =>
      rw [Option.some.injEq] at h
      exact ⟨t, shared, t', ht, hadvance, h.symm⟩

theorem exists_of_step_env {e : ε} (h : step body answer env s (.env e) = some s')
    : ∃ shared, env s.shared e = some shared ∧ s' = { s with shared } := by
  simp only [step] at h
  split at h
  . contradiction
  . next shared henv =>
    rw [Option.some.injEq] at h
    exact ⟨shared, henv, h.symm⟩

theorem step_env {e : ε} (h : step body answer env s (.env e) = some s')
    : s'.threads = s.threads := by
  obtain ⟨shared, _, rfl⟩ := exists_of_step_env h
  rfl

section Runs

variable {ok : Event Op Reply → Prop}

theorem Runs.advance {shared shared' : σ} {t t' : Thread Op Reply α ι} {choice : χ}
    (h : Runs body ok t)
    (hok : ∀ shared o choice r shared', answer shared o choice = some (r, shared') → ok ⟨o, r⟩)
    (hstep : advance answer shared t choice = some (shared', t')) : Runs body ok t' := by
  obtain ⟨o, next, r, hnow, hanswer, rfl⟩ := advance_eq_some hstep
  constructor
  . have hdoes := h.does
    rw [hnow] at hdoes
    exact hdoes.snoc r
  . intro e he
    rw [List.mem_append, List.mem_singleton] at he
    cases he with
    | inl hold => exact h.replies e hold
    | inr heq =>
      rw [heq]
      exact hok _ _ _ _ _ hanswer

theorem runs_step (hok : ∀ shared o choice r shared', answer shared o choice = some (r, shared') →
      ok ⟨o, r⟩) {l : Label ι χ ε} (h : ∀ t ∈ s.threads, Runs body ok t)
    (hl : step body answer env s l = some s') : ∀ t ∈ s'.threads, Runs body ok t := by
  cases l with
  | start input =>
    rw [step_start hl]
    intro t ht
    rw [List.mem_append, List.mem_singleton] at ht
    cases ht with
    | inl hold => exact h t hold
    | inr heq =>
      rw [heq]
      exact ⟨.nil _, by simp⟩
  | step i choice =>
    obtain ⟨t, shared, t', ht, hadvance, rfl⟩ := step_step hl
    intro t₁ ht₁
    cases List.mem_or_eq_of_mem_set ht₁ with
    | inl hold => exact h t₁ hold
    | inr heq =>
      rw [heq]
      exact (h t (List.mem_of_getElem? ht)).advance hok hadvance
  | env e =>
    rw [step_env hl]
    exact h

theorem runs_exec (hok : ∀ shared o choice r shared', answer shared o choice = some (r, shared') →
      ok ⟨o, r⟩) {shared : σ} {ls : List (Label ι χ ε)}
    (h : exec (step body answer env) ⟨shared, []⟩ ls = some s)
    : ∀ t ∈ s.threads, Runs body ok t := by
  apply exec_invariant (step body answer env) (P := fun s => ∀ t ∈ s.threads, Runs body ok t) _ _ h
  . intro s l s' hs hl
    exact runs_step hok hs hl
  . intro t ht
    simp at ht

end Runs

end Threads
end Foundation
