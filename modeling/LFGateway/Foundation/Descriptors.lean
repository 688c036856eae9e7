import Mathlib.Logic.Function.Basic
import LFGateway.Foundation.Machine

/-!
This module contains the descriptors of a process together with one interest list, as the kernel
keeps them: a descriptor is opened and closed, and while it is open it can be added to the list,
changed in it and deleted from it. A call that is not allowed fails and leaves everything as it is.
-/

namespace Foundation

variable {F : Type u}

/--
What happens to a descriptor. `taken` says whether the kernel has room for a new entry.
-/
inductive Ctl (F : Type u) where
  | opened (fd : F)
  | closed (fd : F)
  | add (fd : F) (taken : Bool)
  | mod (fd : F)
  | del (fd : F)
  deriving DecidableEq, Repr

def Ctl.fd : Ctl F → F
  | .opened fd | .closed fd | .add fd _ | .mod fd | .del fd => fd

structure Descriptors (F : Type u) where
  isOpen : F → Bool
  registered : F → Bool

namespace Descriptors

def empty : Descriptors F := ⟨fun _ => false, fun _ => false⟩

/--
Only open descriptors are added, and only registered ones are changed or deleted.
-/
def Allowed (d : Descriptors F) : Ctl F → Prop
  | .opened _ | .closed _ => True
  | .add fd _ => d.isOpen fd ∧ ¬d.registered fd
  | .mod fd | .del fd => d.isOpen fd ∧ d.registered fd

instance (d : Descriptors F) (call : Ctl F) : Decidable (d.Allowed call) :=
  match call with
  | .opened _ | .closed _ => inferInstanceAs (Decidable True)
  | .add fd _ => inferInstanceAs (Decidable (d.isOpen fd ∧ ¬d.registered fd))
  | .mod fd | .del fd => inferInstanceAs (Decidable (d.isOpen fd ∧ d.registered fd))

def Consistent (d : Descriptors F) : Prop := ∀ fd, d.registered fd → d.isOpen fd

theorem consistent_empty : (empty : Descriptors F).Consistent := by
  intro fd h
  simp [empty] at h

variable [DecidableEq F]

def after (d : Descriptors F) : Ctl F → Descriptors F
  | .opened fd => { d with isOpen := Function.update d.isOpen fd true }
  | .closed fd => ⟨Function.update d.isOpen fd false, Function.update d.registered fd false⟩
  | .add fd taken =>
    { d with registered := Function.update d.registered fd (d.registered fd || d.isOpen fd && taken) }
  | .mod _ => d
  | .del fd => { d with registered := Function.update d.registered fd false }

def afterAll (d : Descriptors F) (calls : List (Ctl F)) : Descriptors F := calls.foldl after d

def Legal (d : Descriptors F) (calls : List (Ctl F)) : Prop :=
  Meets (fun d call => some (d.after call)) Allowed d calls

instance (d : Descriptors F) (calls : List (Ctl F)) : Decidable (d.Legal calls) :=
  inferInstanceAs (Decidable (Meets _ _ _ _))

variable {d : Descriptors F} {fd : F} {calls calls' : List (Ctl F)}

@[simp]
theorem legal_nil : d.Legal [] := trivial

@[simp]
theorem legal_cons {call : Ctl F}
    : d.Legal (call :: calls) ↔ d.Allowed call ∧ (d.after call).Legal calls := Iff.rfl

theorem exec_after (d : Descriptors F) (calls : List (Ctl F))
    : exec (fun d call => some (d.after call)) d calls = some (d.afterAll calls) := by
  induction calls generalizing d with
  | nil => rfl
  | cons call calls ih => exact ih (d.after call)

theorem legal_append : d.Legal (calls ++ calls') ↔ d.Legal calls ∧ (d.afterAll calls).Legal calls' :=
  meets_append_iff _ _ (exec_after d calls)

theorem afterAll_append (d : Descriptors F) (calls calls' : List (Ctl F))
    : d.afterAll (calls ++ calls') = (d.afterAll calls).afterAll calls' :=
  List.foldl_append

theorem not_legal_mod_of_closed : ¬(d.after (.closed fd)).Legal (.mod fd :: calls) := by
  simp [Allowed, after]

def SameAt (fd : F) (d d' : Descriptors F) : Prop :=
  d'.isOpen fd = d.isOpen fd ∧ d'.registered fd = d.registered fd

theorem sameAt_after {call : Ctl F} (hne : call.fd ≠ fd) : SameAt fd d (d.after call) := by
  cases call <;> simp_all [SameAt, after, Ctl.fd, Ne.symm]

theorem sameAt_afterAll (hne : ∀ call ∈ calls, call.fd ≠ fd) : SameAt fd d (d.afterAll calls) := by
  induction calls generalizing d with
  | nil => exact ⟨rfl, rfl⟩
  | cons call calls ih =>
    rw [List.forall_mem_cons] at hne
    have hcall : SameAt fd d (d.after call) := sameAt_after hne.1
    have hcalls : SameAt fd (d.after call) ((d.after call).afterAll calls) := ih hne.2
    exact ⟨hcalls.1.trans hcall.1, hcalls.2.trans hcall.2⟩

theorem legal_mods (hopen : d.isOpen fd) (hregistered : d.registered fd)
    (hmods : ∀ call ∈ calls, call = .mod fd) : d.Legal calls ∧ d.afterAll calls = d := by
  induction calls with
  | nil => exact ⟨trivial, rfl⟩
  | cons call calls ih =>
    rw [List.forall_mem_cons] at hmods
    obtain ⟨hlegal, hafter⟩ := ih hmods.2
    rw [hmods.1]
    exact ⟨⟨⟨hopen, hregistered⟩, hlegal⟩, hafter⟩

theorem legal_giveUp (hopen : d.isOpen fd) (hregistered : d.registered fd)
    (hmods : ∀ call ∈ calls, call = .mod fd)
    : d.Legal (calls ++ [.del fd, .closed fd]) ∧
        d.afterAll (calls ++ [.del fd, .closed fd]) = d.after (.closed fd) := by
  obtain ⟨hlegal, hafter⟩ := legal_mods hopen hregistered hmods
  rw [legal_append, afterAll_append, hafter]
  refine ⟨⟨hlegal, ⟨hopen, hregistered⟩, trivial, trivial⟩, ?_⟩
  simp [afterAll, after]

theorem Consistent.after (h : d.Consistent) (call : Ctl F) : (d.after call).Consistent := by
  intro fd
  have hfd := h fd
  cases call with
  | opened fd' => by_cases heq : fd = fd' <;> simp_all [Descriptors.after]
  | closed fd' => by_cases heq : fd = fd' <;> simp_all [Descriptors.after]
  | add fd' taken =>
    by_cases heq : fd = fd'
    . subst heq
      simp [Descriptors.after]
      tauto
    . simp_all [Descriptors.after]
  | mod fd' => exact hfd
  | del fd' => by_cases heq : fd = fd' <;> simp_all [Descriptors.after]

theorem Consistent.afterAll (h : d.Consistent) (calls : List (Ctl F))
    : (d.afterAll calls).Consistent := by
  induction calls generalizing d with
  | nil => exact h
  | cons call calls ih => exact ih (h.after call)

end Descriptors
end Foundation
