import Mathlib.Data.List.Basic
import Mathlib.Logic.Function.Basic
import LFGateway.Foundation.Machine

/-!
This module contains the lives of handles that a program gets from a library: a handle is opened, used
while it is open, and closed. What is done with all of them is kept in one log.
-/

namespace Foundation

variable {H : Type u}

inductive Access where
  | opened
  | used
  | closed
  deriving DecidableEq, Repr

structure Touch (H : Type u) where
  handle : H
  access : Access
  deriving DecidableEq, Repr

inductive Life where
  | fresh
  | live
  | over
  deriving DecidableEq, Repr

def Life.after : Life → Access → Option Life
  | .fresh, .opened => some .live
  | .live, .used => some .live
  | .live, .closed => some .over
  | _, _ => none

variable [DecidableEq H]

def accesses (h : H) (log : List (Touch H)) : List Access :=
  (log.filter fun touch => touch.handle = h).map Touch.access

/--
Every handle is opened before it is used, and not touched any more once it was closed.
-/
def Disciplined (log : List (Touch H)) : Prop :=
  ∀ h, ∃ n, accesses h log <+: .opened :: (List.replicate n .used ++ [.closed])

def IsOpen (log : List (Touch H)) (h : H) : Prop :=
  .opened ∈ accesses h log ∧ .closed ∉ accesses h log

def touch (lives : H → Life) (t : Touch H) : Option (H → Life) :=
  ((lives t.handle).after t.access).map (Function.update lives t.handle)

def Lived (log : List (Touch H)) (lives : H → Life) : Prop := exec touch (fun _ => .fresh) log = some lives

section Touch

variable {lives lives' : H → Life} {h : H} {log : List (Touch H)}

theorem touch_eq_some {t : Touch H} (ht : touch lives t = some lives')
    : ∃ life, (lives t.handle).after t.access = some life ∧ lives' = Function.update lives t.handle life := by
  obtain ⟨life, hlife, rfl⟩ := Option.map_eq_some_iff.mp ht
  exact ⟨life, hlife, rfl⟩

theorem touch_opened (hfresh : lives h = .fresh)
    : touch lives ⟨h, .opened⟩ = some (Function.update lives h .live) := by
  simp [touch, hfresh, Life.after]

theorem touch_closed (hlive : lives h = .live)
    : touch lives ⟨h, .closed⟩ = some (Function.update lives h .over) := by
  simp [touch, hlive, Life.after]

theorem touch_used (hlive : lives h = .live) : touch lives ⟨h, .used⟩ = some lives := by
  rw [touch, hlive, Life.after, Option.map_some, ← hlive, Function.update_eq_self]

theorem exec_used (hused : ∀ t ∈ log, t.access = .used ∧ lives t.handle = .live)
    : exec touch lives log = some lives := by
  induction log with
  | nil => rfl
  | cons t log ih =>
    rw [List.forall_mem_cons] at hused
    obtain ⟨⟨haccess, hlive⟩, hrest⟩ := hused
    obtain ⟨h, access⟩ := t
    dsimp only at haccess hlive
    subst haccess
    exact (exec_cons_eq_some touch).mpr ⟨lives, touch_used hlive, ih hrest⟩

theorem exec_after_of_exec (hexec : exec touch lives log = some lives') (h : H)
    : exec Life.after (lives h) (accesses h log) = some (lives' h) := by
  induction log generalizing lives with
  | nil =>
    rw [exec_nil, Option.some.injEq] at hexec
    rw [← hexec]
    rfl
  | cons t log ih =>
    obtain ⟨mid, ht, hrest⟩ := (exec_cons_eq_some touch).mp hexec
    obtain ⟨life, hlife, rfl⟩ := touch_eq_some ht
    have hih := ih hrest
    by_cases heq : t.handle = h
    . subst heq
      rw [Function.update_self] at hih
      rw [accesses, List.filter_cons_of_pos (by simp), List.map_cons]
      exact (exec_cons_eq_some Life.after).mpr ⟨life, hlife, hih⟩
    . rw [Function.update_of_ne (Ne.symm heq)] at hih
      rw [accesses, List.filter_cons_of_neg (by simpa using heq)]
      exact hih

end Touch

section Lives

variable {life : Life} {as : List Access} {lives : H → Life} {log : List (Touch H)}

theorem eq_nil_of_exec_over (h : exec Life.after .over as = some life) : as = [] ∧ life = .over := by
  cases as with
  | nil => exact ⟨rfl, (Option.some.inj h).symm⟩
  | cons a as =>
    obtain ⟨next, ha, _⟩ := (exec_cons_eq_some Life.after).mp h
    cases a <;> contradiction

theorem accesses_of_exec_live (h : exec Life.after .live as = some life)
    : ∃ n, (life = .live ∧ as = List.replicate n .used) ∨
        (life = .over ∧ as = List.replicate n .used ++ [.closed]) := by
  induction as with
  | nil => exact ⟨0, .inl ⟨(Option.some.inj h).symm, rfl⟩⟩
  | cons a as ih =>
    obtain ⟨next, ha, hrest⟩ := (exec_cons_eq_some Life.after).mp h
    cases a with
    | opened => contradiction
    | used =>
      rw [Life.after, Option.some.injEq] at ha
      subst ha
      obtain ⟨n, ⟨hlife, rfl⟩ | ⟨hlife, rfl⟩⟩ := ih hrest
      . exact ⟨n + 1, .inl ⟨hlife, rfl⟩⟩
      . exact ⟨n + 1, .inr ⟨hlife, rfl⟩⟩
    | closed =>
      rw [Life.after, Option.some.injEq] at ha
      subst ha
      obtain ⟨rfl, hlife⟩ := eq_nil_of_exec_over hrest
      exact ⟨0, .inr ⟨hlife, rfl⟩⟩

theorem accesses_of_exec_fresh (h : exec Life.after .fresh as = some life)
    : (life = .fresh ∧ as = []) ∨
        ∃ n, (life = .live ∧ as = .opened :: List.replicate n .used) ∨
          (life = .over ∧ as = .opened :: (List.replicate n .used ++ [.closed])) := by
  cases as with
  | nil => exact .inl ⟨(Option.some.inj h).symm, rfl⟩
  | cons a as =>
    obtain ⟨next, ha, hrest⟩ := (exec_cons_eq_some Life.after).mp h
    cases a with
    | used | closed => contradiction
    | opened =>
      rw [Life.after, Option.some.injEq] at ha
      subst ha
      obtain ⟨n, ⟨hlife, rfl⟩ | ⟨hlife, rfl⟩⟩ := accesses_of_exec_live hrest
      . exact .inr ⟨n, .inl ⟨hlife, rfl⟩⟩
      . exact .inr ⟨n, .inr ⟨hlife, rfl⟩⟩

theorem Lived.disciplined (h : Lived log lives) : Disciplined log := by
  intro x
  rcases accesses_of_exec_fresh (exec_after_of_exec h x) with ⟨_, hnil⟩ | ⟨n, ⟨_, hopen⟩ | ⟨_, hover⟩⟩
  . exact ⟨0, hnil ▸ List.nil_prefix⟩
  . refine ⟨n, ?_⟩
    rw [hopen, List.cons_prefix_cons]
    exact ⟨rfl, List.prefix_append _ _⟩
  . exact ⟨n, hover ▸ List.prefix_rfl⟩

theorem Lived.isOpen_iff (h : Lived log lives) (x : H) : IsOpen log x ↔ lives x = .live := by
  unfold IsOpen
  rcases accesses_of_exec_fresh (exec_after_of_exec h x) with ⟨hlife, has⟩ | ⟨n, ⟨hlife, has⟩ | ⟨hlife, has⟩⟩
  . simp [hlife, has]
  . simp [hlife, has]
  . simp [hlife, has]

theorem Lived.opened_iff (h : Lived log lives) (x : H) : .opened ∈ accesses x log ↔ lives x ≠ .fresh := by
  rcases accesses_of_exec_fresh (exec_after_of_exec h x) with ⟨hlife, has⟩ | ⟨n, ⟨hlife, has⟩ | ⟨hlife, has⟩⟩
  . simp [hlife, has]
  . simp [hlife, has]
  . simp [hlife, has]

theorem Lived.append {lives' : H → Life} {log' : List (Touch H)} (h : Lived log lives)
    (h' : exec touch lives log' = some lives') : Lived (log ++ log') lives' :=
  (exec_append_eq_some touch).mpr ⟨lives, h, h'⟩

end Lives

section Batches

variable {lives : H → Life}

theorem exec_closed {hs : List H} (hnodup : hs.Nodup) (hlive : ∀ h ∈ hs, lives h = .live)
    : exec touch lives (hs.map fun h => ⟨h, .closed⟩)
        =
      some fun h => if h ∈ hs then .over else lives h := by
  induction hs generalizing lives with
  | nil => simp
  | cons h hs ih =>
    obtain ⟨hnot, hrest⟩ := List.nodup_cons.mp hnodup
    rw [List.forall_mem_cons] at hlive
    have hupdate : ∀ h' ∈ hs, Function.update lives h .over h' = .live := by
      intro h' hmem
      rw [Function.update_of_ne (ne_of_mem_of_not_mem hmem hnot)]
      exact hlive.2 h' hmem
    refine (exec_cons_eq_some touch).mpr ⟨_, touch_closed hlive.1, ?_⟩
    rw [ih hrest hupdate, Option.some.injEq]
    funext h'
    by_cases heq : h' = h
    . subst heq
      simp [hnot]
    . simp [heq]

def opening (h : H) (uses : Nat) : List (Touch H) := ⟨h, .opened⟩ :: List.replicate uses ⟨h, .used⟩

theorem exec_opening {h : H} (hfresh : lives h = .fresh) (uses : Nat)
    : exec touch lives (opening h uses) = some (Function.update lives h .live) := by
  refine (exec_cons_eq_some touch).mpr ⟨_, touch_opened hfresh, ?_⟩
  apply exec_used
  intro t ht
  rw [List.eq_of_mem_replicate ht]
  exact ⟨rfl, Function.update_self _ _ _⟩

end Batches

end Foundation
