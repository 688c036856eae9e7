import LFGateway.Timer.Callbacks

/-!
This module contains that `tick`, taken step by step, does what it does as one operation if no callback
uses the wheel.
-/

namespace LFGateway

open Foundation

variable {Cb : Type u}

namespace TimerWheel

variable {wheel : TimerWheel Cb} {idx : Nat} {slot : List UInt64} {timers_ : UInt64 → Option (TimerEntry Cb)}

def withSlot (wheel : TimerWheel Cb) (idx : Nat) (slot : List UInt64)
    (timers_ : UInt64 → Option (TimerEntry Cb)) : TimerWheel Cb :=
  { wheel with
    wheel_ := wheel.wheel_.set idx slot
    timers_
    resized := by rw [List.length_set, wheel.resized]
  }

theorem slot_withSlot (hidx : idx < wheel.wheel_.length)
    : (wheel.withSlot idx slot timers_).slot idx = slot := by
  simp [TimerWheel.slot, withSlot, hidx]

theorem eraseAt_withSlot (pos : Nat)
    : (wheel.withSlot idx slot timers_).eraseAt idx pos
        =
      wheel.withSlot idx (slot.eraseIdx pos) timers_ := by
  have hmodify : (wheel.wheel_.set idx slot).modify idx (·.eraseIdx pos)
      = wheel.wheel_.set idx (slot.eraseIdx pos) := by
    apply List.ext_getElem
    . simp
    . intro k _ _
      rw [List.getElem_modify, List.getElem_set, List.getElem_set]
      split <;> rfl
  simp only [eraseAt, withSlot, hmodify]

theorem withSlot_self (hidx : idx < wheel.wheel_.length)
    : wheel.withSlot idx wheel.wheel_[idx] wheel.timers_ = wheel := by
  simp only [withSlot, List.set_getElem_self]

end TimerWheel

namespace Ticking

variable {s : Ticking Cb} {wheel : TimerWheel Cb} {walk : Walk}

structure At (s : Ticking Cb) (walk : Walk) (wheel : TimerWheel Cb) : Prop where
  walk : s.walk = some walk
  callbacks : s.callbacks = []
  defined : s.undefined = false
  wheel : s.wheel = wheel

def Inert (l : Label Cb) : Prop := l = .visit ∨ l = .returned

def Reaches (s : Ticking Cb) (P : Ticking Cb → Prop) : Prop :=
  ∃ ls s', (∀ l ∈ ls, Inert l) ∧ exec step s ls = some s' ∧ P s'

variable {P Q : Ticking Cb → Prop} {now : Int} {i idx pos : Nat} {id : UInt64} {entry : TimerEntry Cb}

theorem Reaches.trans (h : Reaches s P) (hrest : ∀ t, P t → Reaches t Q) : Reaches s Q := by
  obtain ⟨ls, t, hls, hexec, ht⟩ := h
  obtain ⟨ls', s', hls', hexec', hs'⟩ := hrest t ht
  refine ⟨ls ++ ls', s', ?_, (exec_append_eq_some step).mpr ⟨t, hexec, hexec'⟩, hs'⟩
  exact List.forall_mem_append.mpr ⟨hls, hls'⟩

theorem At.reaches (h : At s walk wheel) {t : Ticking Cb} (hvisit : s.visit walk = some t) (ht : P t)
    : Reaches s P := by
  refine ⟨[.visit], t, by simp [Inert], ?_, ht⟩
  have hstep : step s .visit = s.visit walk := by simp [step, h.defined, h.walk]
  rw [exec_cons_eq_some]
  exact ⟨t, hstep.trans hvisit, rfl⟩

section Ids

variable (h : At s (.slot now i idx pos) wheel) (hid : (wheel.slot idx)[pos]? = some id)
include h hid

theorem At.visit_cancelled (hcancelled : wheel.timers_ id = none)
    : Reaches s (At · (.slot now i idx pos) (wheel.eraseAt idx pos)) := by
  have hwheel := h.wheel
  subst hwheel
  apply h.reaches (t := s.eraseAt idx pos)
  . simp only [visit, hid, hcancelled]
  . exact ⟨h.walk, by simp [eraseAt, invalidateIts, h.callbacks], h.defined, rfl⟩

theorem At.visit_due (hentry : wheel.timers_ id = some entry) (hdue : entry.expiration ≤ now)
    : Reaches s (At · (.slot now i idx pos) ((wheel.cancel_timer id).eraseAt idx pos)) := by
  have hwheel := h.wheel
  subst hwheel
  let c : Callback := ⟨now, i, .fresh (idx, pos), .fresh id⟩
  apply Reaches.trans (P := fun t => t = { s with walk := none, callbacks := c :: s.callbacks })
  . apply h.reaches (t := { s with walk := none, callbacks := c :: s.callbacks })
    . simp only [visit, hid, hentry, hdue, ↓reduceIte]
      rfl
    . rfl
  . rintro t rfl
    refine ⟨[.returned], { s with walk := none }.afterCallback c, by simp [Inert], ?_, ?_⟩
    . rw [exec_cons_eq_some]
      refine ⟨_, ?_, rfl⟩
      simp [step, h.defined]
    . refine ⟨rfl, ?_, h.defined, rfl⟩
      simp [afterCallback, c, eraseAt, eraseKey, invalidateIts, invalidateTimerIts, h.callbacks]

theorem At.visit_pending (hentry : wheel.timers_ id = some entry) (hdue : ¬entry.expiration ≤ now)
    : Reaches s (At · (.slot now i idx (pos + 1)) wheel) := by
  have hwheel := h.wheel
  subst hwheel
  apply h.reaches (t := { s with walk := some (.slot now i idx (pos + 1)) })
  . simp only [visit, hid, hentry, hdue, ↓reduceIte]
  . exact ⟨rfl, h.callbacks, h.defined, rfl⟩

end Ids

theorem At.visit_slot (kept : List UInt64) {rest : List UInt64} {timers_ : UInt64 → Option (TimerEntry Cb)}
    (hidx : idx < wheel.wheel_.length)
    (h : At s (.slot now i idx kept.length) (wheel.withSlot idx (kept ++ rest) timers_))
    : Reaches s (At · (.round now (i + 1))
        (wheel.withSlot idx (kept ++ (TimerWheel.visitSlot now timers_ rest).1)
          (TimerWheel.visitSlot now timers_ rest).2.1)) := by
  induction rest generalizing s kept timers_ with
  | nil =>
    have hend : (s.wheel.slot idx)[kept.length]? = none := by
      rw [h.wheel, TimerWheel.slot_withSlot hidx, List.append_nil]
      exact List.getElem?_eq_none (Nat.le_refl _)
    apply h.reaches (t := { s with walk := some (.round now (i + 1)) })
    . simp only [visit, hend]
    . exact ⟨rfl, h.callbacks, h.defined, h.wheel⟩
  | cons id rest ih =>
    have hid : ((wheel.withSlot idx (kept ++ id :: rest) timers_).slot idx)[kept.length]? = some id := by
      rw [TimerWheel.slot_withSlot hidx]
      simp
    have herase : (kept ++ id :: rest).eraseIdx kept.length = kept ++ rest := by
      rw [List.eraseIdx_append_of_length_le (Nat.le_refl _), Nat.sub_self, List.eraseIdx_cons_zero]
    unfold TimerWheel.visitSlot
    split
    . next hcancelled =>
      apply (h.visit_cancelled hid hcancelled).trans
      intro t ht
      rw [TimerWheel.eraseAt_withSlot, herase] at ht
      exact ih kept ht
    . next entry hentry =>
      split
      . next hdue =>
        apply (h.visit_due hid hentry hdue).trans
        intro t ht
        have hcancel : (wheel.withSlot idx (kept ++ id :: rest) timers_).cancel_timer id
            = wheel.withSlot idx (kept ++ id :: rest) (Function.update timers_ id none) := rfl
        rw [hcancel, TimerWheel.eraseAt_withSlot, herase] at ht
        exact ih kept ht
      . next hdue =>
        apply (h.visit_pending hid hentry hdue).trans
        intro t ht
        have hkept : kept.length + 1 = (kept ++ [id]).length := by simp
        have hslot : kept ++ id :: rest = kept ++ [id] ++ rest := by simp
        rw [hkept, hslot] at ht
        have hrest := ih (kept ++ [id]) ht
        rwa [List.append_assoc, List.singleton_append] at hrest

theorem At.visit_rounds {n : Nat} {wheel' : TimerWheel Cb} {ran : List (UInt64 × TimerEntry Cb)}
    (hn : i + n = wheel.wheel_size_) (h : At s (.round now i) wheel)
    (hvisit : TimerWheel.visitSlots now wheel i n = some (wheel', ran))
    : Reaches s (fun s' => Idle s' ∧ s'.wheel = wheel'.advance) := by
  induction n generalizing s i wheel ran with
  | zero =>
    simp only [TimerWheel.visitSlots, Option.some.injEq, Prod.mk.injEq] at hvisit
    obtain ⟨rfl, _⟩ := hvisit
    have hwheel := h.wheel
    subst hwheel
    apply h.reaches (t := { s with wheel := s.wheel.advance, walk := none })
    . simp only [visit]
      rw [if_neg (by omega)]
    . exact ⟨⟨rfl, h.callbacks, h.defined⟩, rfl⟩
  | succ n ih =>
    unfold TimerWheel.visitSlots at hvisit
    rw [Option.ite_none_right_eq_some] at hvisit
    obtain ⟨hint, hrest⟩ := hvisit
    rw [Option.map_eq_some_iff] at hrest
    obtain ⟨⟨wheel'', ran'⟩, hrest, heq⟩ := hrest
    rw [Prod.mk.injEq] at heq
    obtain ⟨rfl, _⟩ := heq
    have hidx : (wheel.current_index_ + i) % wheel.wheel_size_ < wheel.wheel_.length := by
      rw [wheel.resized]
      exact Nat.mod_lt _ (Nat.zero_lt_of_lt wheel.index_lt)
    have hwheel := h.wheel
    apply Reaches.trans (P := (At · (.slot now i ((wheel.current_index_ + i) % wheel.wheel_size_) 0) wheel))
    . subst hwheel
      apply h.reaches (t := { s with
        walk := some (.slot now i ((s.wheel.current_index_ + i) % s.wheel.wheel_size_) 0) })
      . simp only [visit]
        rw [if_pos (by omega), if_pos hint]
      . exact ⟨rfl, h.callbacks, h.defined, rfl⟩
    . intro t ht
      rw [← TimerWheel.withSlot_self hidx] at ht
      have hslot := At.visit_slot [] hidx ht
      apply hslot.trans
      intro t' ht'
      have hn' : i + 1 + n = (TimerWheel.visitRound now wheel i).1.wheel_size_ := by
        rw [Nat.add_right_comm, Nat.add_assoc]
        exact hn
      exact ih hn' ht' hrest

/--
If no callback uses the wheel, the steps of `tick` come to where `TimerWheel.tick` does, and no iterator
is lost on the way.
-/
theorem reaches_tick {wheel' : TimerWheel Cb} {ran : List (UInt64 × TimerEntry Cb)} (hidle : Idle s)
    (h : s.wheel.tick now = some (wheel', ran))
    : ∃ t, step s (.tick now) = some t ∧ Reaches t fun s' => Idle s' ∧ s'.wheel = wheel' := by
  unfold TimerWheel.tick at h
  rw [Option.map_eq_some_iff] at h
  obtain ⟨⟨wheel'', ran'⟩, hvisit, heq⟩ := h
  rw [Prod.mk.injEq] at heq
  obtain ⟨rfl, _⟩ := heq
  refine ⟨{ s with walk := some (.round now 0) }, by simp [step, hidle.defined, hidle.walk], ?_⟩
  have hat : At { s with walk := some (.round now 0) } (.round now 0) s.wheel :=
    ⟨rfl, hidle.callbacks, hidle.defined, rfl⟩
  exact hat.visit_rounds (Nat.zero_add _) hvisit

end Ticking
end LFGateway
