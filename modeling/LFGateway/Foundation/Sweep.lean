import Mathlib.Data.List.Nodup
import Mathlib.Logic.Function.Basic

/-!
This module contains sweeps over partial maps: keys are visited in some order, an entry that is due
leaves the map when its key is visited and is reported. A sweep that leaves nothing due has reported
exactly what was due, however often and in whatever order the keys were visited.
-/

namespace Foundation

variable {κ : Type u} {ε : Type v}

/--
From `m` to `m'` exactly the entries `gone` have left, each reported once and each of them due.
-/
structure Swept (due : ε → Prop) (m m' : κ → Option ε) (gone : List (κ × ε)) : Prop where
  split : ∀ k e, m k = some e ↔ m' k = some e ∨ (k, e) ∈ gone
  apart : ∀ k e, (k, e) ∈ gone → m' k = none
  nodup : gone.Nodup
  due : ∀ k e, (k, e) ∈ gone → due e

namespace Swept

variable {due : ε → Prop} {m m' m'' : κ → Option ε} {gone gone' : List (κ × ε)}

theorem refl (due : ε → Prop) (m : κ → Option ε) : Swept due m m [] where
  split := by simp
  apart := by simp
  nodup := List.nodup_nil
  due := by simp

theorem visit [DecidableEq κ] {k : κ} {e : ε} (hk : m k = some e) (he : due e)
    : Swept due m (Function.update m k none) [(k, e)] where
  split := by
    intro j d
    by_cases hj : j = k
    . subst hj
      simp [hk, eq_comm]
    . simp [hj]
  apart := by
    intro j d hmem
    have hj : j = k := (Prod.mk.inj (List.mem_singleton.mp hmem)).1
    rw [hj, Function.update_self]
  nodup := List.nodup_singleton _
  due := by
    intro j d hmem
    have hd : d = e := (Prod.mk.inj (List.mem_singleton.mp hmem)).2
    rwa [hd]

theorem of_mem (h : Swept due m m' gone) {k : κ} {e : ε} (hmem : (k, e) ∈ gone) : m k = some e :=
  (h.split k e).mpr (.inr hmem)

theorem of_some (h : Swept due m m' gone) {k : κ} {e : ε} (hk : m' k = some e) : m k = some e :=
  (h.split k e).mpr (.inl hk)

theorem trans (h : Swept due m m' gone) (h' : Swept due m' m'' gone')
    : Swept due m m'' (gone ++ gone') where
  split := by
    intro k e
    rw [h.split, h'.split, List.mem_append, or_assoc]
    exact or_congr_right or_comm
  apart := by
    intro k e hmem
    cases List.mem_append.mp hmem with
    | inl hgone =>
      by_contra hne
      obtain ⟨d, hd⟩ := Option.ne_none_iff_exists'.mp hne
      have hnone := h.apart k e hgone
      rw [h'.of_some hd] at hnone
      contradiction
    | inr hgone' => exact h'.apart k e hgone'
  nodup := by
    apply h.nodup.append h'.nodup
    intro ⟨k, e⟩ hgone hgone'
    have hnone := h.apart k e hgone
    rw [h'.of_mem hgone'] at hnone
    contradiction
  due := by
    intro k e hmem
    cases List.mem_append.mp hmem with
    | inl hgone => exact h.due k e hgone
    | inr hgone' => exact h'.due k e hgone'

theorem mem_iff_due (h : Swept due m m' gone) (hdone : ∀ k e, m' k = some e → ¬due e) (k : κ) (e : ε)
    : (k, e) ∈ gone ↔ m k = some e ∧ due e := by
  constructor
  . intro hmem
    exact ⟨h.of_mem hmem, h.due k e hmem⟩
  . intro ⟨hk, he⟩
    cases (h.split k e).mp hk with
    | inl hkept => exact absurd he (hdone k e hkept)
    | inr hmem => exact hmem

theorem eq_some_iff_not_due (h : Swept due m m' gone) (hdone : ∀ k e, m' k = some e → ¬due e) (k : κ)
    (e : ε) : m' k = some e ↔ m k = some e ∧ ¬due e := by
  constructor
  . intro hk
    exact ⟨h.of_some hk, hdone k e hk⟩
  . intro ⟨hk, he⟩
    cases (h.split k e).mp hk with
    | inl hkept => exact hkept
    | inr hmem => exact absurd (h.due k e hmem) he

end Swept
end Foundation
