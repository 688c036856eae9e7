import LFGateway.Timer.Callbacks

/-!
This module contains when `tick` uses an iterator that a callback has invalidated: it does as soon as
the callback returns, so it never does exactly if every step leaves the iterators of the running
callbacks alone. What a valid iterator refers to is what it was obtained for.
-/

namespace LFGateway
namespace Ticking

open Foundation

variable {Cb : Type u} {s s' : Ticking Cb}

def Callback.Valid (c : Callback) : Prop := c.it.valid = true ∧ c.timer_it.valid = true

/--
No invalid iterator has been used, and none waits for its callback to return.
-/
structure Sound (s : Ticking Cb) : Prop where
  defined : s.undefined = false
  valid : ∀ c ∈ s.callbacks, Callback.Valid c

theorem sound_iff : Sound s ↔ s.undefined = false ∧ ∀ c ∈ s.callbacks, Callback.Valid c :=
  ⟨fun h => ⟨h.defined, h.valid⟩, fun h => ⟨h.1, h.2⟩⟩

theorem Idle.sound (h : Idle s) : Sound s := by
  rw [sound_iff, h.callbacks]
  exact ⟨h.defined, by simp⟩

theorem sound_congr (hcallbacks : s'.callbacks = s.callbacks) (hundefined : s'.undefined = s.undefined)
    : Sound s' ↔ Sound s := by
  rw [sound_iff, sound_iff, hcallbacks, hundefined]

theorem sound_invalidateIts {p : Nat × Nat → Bool}
    : Sound (s.invalidateIts p) ↔ Sound s ∧ ∀ c ∈ s.callbacks, p c.it.target = false := by
  simp only [sound_iff, invalidateIts, List.forall_mem_map, Callback.Valid, Iterator.valid_invalidate]
  constructor
  . rintro ⟨hdefined, h⟩
    exact ⟨⟨hdefined, fun c hc => ⟨(h c hc).1.1, (h c hc).2⟩⟩, fun c hc => (h c hc).1.2⟩
  . rintro ⟨⟨hdefined, h⟩, hp⟩
    exact ⟨hdefined, fun c hc => ⟨⟨(h c hc).1, hp c hc⟩, (h c hc).2⟩⟩

theorem sound_invalidateTimerIts {p : UInt64 → Bool}
    : Sound (s.invalidateTimerIts p) ↔ Sound s ∧ ∀ c ∈ s.callbacks, p c.timer_it.target = false := by
  simp only [sound_iff, invalidateTimerIts, List.forall_mem_map, Callback.Valid, Iterator.valid_invalidate]
  constructor
  . rintro ⟨hdefined, h⟩
    exact ⟨⟨hdefined, fun c hc => ⟨(h c hc).1, (h c hc).2.1⟩⟩, fun c hc => (h c hc).2.2⟩
  . rintro ⟨⟨hdefined, h⟩, hp⟩
    exact ⟨hdefined, fun c hc => ⟨(h c hc).1, (h c hc).2, hp c hc⟩⟩

section Operations

variable {id : UInt64} {idx pos : Nat}

theorem insertKey_spec {bucket_count : Nat} (h : s.insertKey id bucket_count = some s')
    : s'.wheel = s.wheel ∧ s'.capacity = s.capacity ∧
        s'.callbacks.map (·.it) = s.callbacks.map (·.it) ∧
        (Sound s'
            ↔
          Sound s ∧ ∀ c ∈ s.callbacks, (s.wheel.timers_ id).isSome ∨ s.size + 1 ≤ s.bucket_count) := by
  unfold insertKey at h
  split at h
  . next hfound =>
    rw [Option.some.injEq] at h
    subst h
    simp [hfound]
  . next hmissing =>
    split at h
    . next hrehashes =>
      rw [Option.ite_none_right_eq_some, Option.some.injEq] at h
      obtain ⟨_, rfl⟩ := h
      refine ⟨rfl, rfl, by simp [invalidateTimerIts], ?_⟩
      refine Iff.trans (b := Sound (s.invalidateTimerIts fun _ => true)) (sound_congr rfl rfl) ?_
      rw [sound_invalidateTimerIts]
      simp only [rehashes, decide_eq_true_eq] at hrehashes
      simp [hmissing, Nat.not_le.mpr hrehashes]
    . next hroom =>
      rw [Option.some.injEq] at h
      subst h
      refine ⟨rfl, rfl, rfl, ?_⟩
      refine Iff.trans (b := Sound s) (sound_congr rfl rfl) ?_
      simp only [rehashes, decide_eq_true_eq, Nat.not_lt] at hroom
      simp [hroom]

theorem pushBack_spec {capacity : Nat} (h : s.pushBack idx capacity = some s')
    : Sound s'
        ↔
      Sound s ∧ ∀ c ∈ s.callbacks, c.it.target.1 = idx →
        (s.wheel.slot idx).length + 1 ≤ s.capacity idx := by
  unfold pushBack at h
  split at h
  . next hreallocates =>
    rw [Option.ite_none_right_eq_some, Option.some.injEq] at h
    obtain ⟨_, rfl⟩ := h
    refine Iff.trans (b := Sound (s.invalidateIts fun target => target.1 = idx)) (sound_congr rfl rfl) ?_
    rw [sound_invalidateIts]
    simp only [reallocates, decide_eq_true_eq] at hreallocates
    simp [Nat.not_le.mpr hreallocates]
  . next hroom =>
    rw [Option.some.injEq] at h
    subst h
    simp only [reallocates, decide_eq_true_eq, Nat.not_lt] at hroom
    simp [hroom]

theorem sound_eraseKey
    : Sound (s.eraseKey id) ↔ Sound s ∧ ∀ c ∈ s.callbacks, c.timer_it.target ≠ id := by
  refine Iff.trans (b := Sound (s.invalidateTimerIts (· = id))) (sound_congr rfl rfl) ?_
  rw [sound_invalidateTimerIts]
  simp

theorem sound_eraseAt
    : Sound (s.eraseAt idx pos)
        ↔
      Sound s ∧ ∀ c ∈ s.callbacks, c.it.target.1 = idx → c.it.target.2 < pos := by
  refine Iff.trans (b := Sound (s.invalidateIts fun target => target.1 = idx ∧ erasedAt pos target.2))
    (sound_congr rfl rfl) ?_
  rw [sound_invalidateIts]
  simp [erasedAt]

end Operations

theorem id_of_add_timer {wheel wheel' : TimerWheel Cb} {now delay_ms now' : Int} {cb : Cb} {id : UInt64}
    (h : wheel.add_timer now delay_ms cb now' = some (id, wheel')) : id = wheel.next_id_ := by
  simp only [TimerWheel.add_timer, Option.ite_none_right_eq_some, Option.map_eq_some_iff,
    Prod.mk.injEq] at h
  obtain ⟨_, _, _, hid, _⟩ := h
  exact hid.symm

theorem sound_add_timer {now delay_ms now' : Int} {cb : Cb} {capacity bucket_count : Nat}
    (h : s.add_timer now delay_ms cb now' capacity bucket_count = some s')
    : Sound s' ↔ Sound s ∧ s.KeepsIterators (.add_timer now delay_ms cb now' capacity bucket_count) := by
  unfold add_timer at h
  simp only [Option.bind_eq_bind, Option.bind_eq_some_iff, Option.pure_def, Option.some.injEq] at h
  obtain ⟨⟨id, wheel⟩, hadd, t, hinsert, t', hpush, rfl⟩ := h
  have hid := id_of_add_timer hadd
  subst hid
  obtain ⟨hwheel, hcapacity, hits, hsound⟩ := insertKey_spec hinsert
  have hmem : ∀ P : Nat × Nat → Prop,
      (∀ c ∈ t.callbacks, P c.it.target) ↔ ∀ c ∈ s.callbacks, P c.it.target := by
    intro P
    rw [← List.forall_mem_map (f := Callback.it) (P := fun it => P it.target), hits, List.forall_mem_map]
  refine Iff.trans (b := Sound t') (sound_congr rfl rfl) ?_
  rw [pushBack_spec hpush, hsound, and_assoc, hwheel, hcapacity,
    hmem fun target => target.1 = s.wheel.slotIndex (now + delay_ms) now' → _]
  exact and_congr_right fun _ => forall₂_and.symm

theorem sound_cancel_timer {id : UInt64}
    : Sound (s.cancel_timer id) ↔ Sound s ∧ s.KeepsIterators (.cancel_timer id) := by
  unfold cancel_timer
  split
  . next hfound =>
    have hne : s.wheel.timers_ id ≠ none := Option.isSome_iff_ne_none.mp hfound
    rw [sound_eraseKey]
    simp [KeepsIterators, hne]
  . next hmissing =>
    rw [Option.not_isSome_iff_eq_none] at hmissing
    simp [KeepsIterators, hmissing]

/--
Walking on, `tick` only invalidates iterators where it erases a cancelled timer, and the callback that it
calls starts with iterators that are valid.
-/
theorem sound_visit {walk : Walk} (hwalk : s.walk = some walk) (h : s.visit walk = some s')
    : Sound s' ↔ Sound s ∧ s.KeepsIterators .visit := by
  cases walk with
  | round now i =>
    have hkeeps : s.KeepsIterators .visit := by simp [KeepsIterators, hwalk]
    have hsame : s'.callbacks = s.callbacks ∧ s'.undefined = s.undefined := by
      simp only [visit] at h
      split at h
      . rw [Option.ite_none_right_eq_some, Option.some.injEq] at h
        obtain ⟨_, rfl⟩ := h
        exact ⟨rfl, rfl⟩
      . rw [Option.some.injEq] at h
        subst h
        exact ⟨rfl, rfl⟩
    rw [sound_congr hsame.1 hsame.2, and_iff_left hkeeps]
  | slot now i idx pos =>
    simp only [visit] at h
    split at h
    . next hend =>
      rw [Option.some.injEq] at h
      subst h
      refine Iff.trans (b := Sound s) (sound_congr rfl rfl) ?_
      simp [KeepsIterators, hwalk, hend]
    . next id hid =>
      split at h
      . next hcancelled =>
        rw [Option.some.injEq] at h
        subst h
        rw [sound_eraseAt]
        simp [KeepsIterators, hwalk, hid, hcancelled]
      . next entry hentry =>
        have hkeeps : s.KeepsIterators .visit := by simp [KeepsIterators, hwalk, hid, hentry]
        rw [and_iff_left hkeeps]
        split at h
        . rw [Option.some.injEq] at h
          subst h
          simp [sound_iff, Callback.Valid]
        . rw [Option.some.injEq] at h
          subst h
          exact sound_congr rfl rfl

theorem sound_returned {c : Callback} {callbacks : List Callback} (hcallbacks : s.callbacks = c :: callbacks)
    : Sound ({ s with callbacks }.afterCallback c) ↔ Sound s ∧ s.KeepsIterators .returned := by
  have hsplit : Sound s ↔ Callback.Valid c ∧ Sound { s with callbacks } := by
    rw [sound_iff, sound_iff, hcallbacks, List.forall_mem_cons]
    exact and_left_comm
  have hkeeps : s.KeepsIterators .returned ↔
      (∀ c' ∈ callbacks, c'.timer_it.target ≠ c.timer_it.target) ∧
        ∀ c' ∈ callbacks, c'.it.target.1 = c.it.target.1 → c'.it.target.2 < c.it.target.2 := by
    simp only [KeepsIterators, hcallbacks]
    exact forall₂_and
  rw [hsplit, hkeeps]
  unfold afterCallback
  split
  . next htimer =>
    split
    . next hit =>
      have hvalid : Callback.Valid c := ⟨hit, htimer⟩
      have herased : (∀ c' ∈ ({ s with callbacks }.eraseKey c.timer_it.target).callbacks,
            c'.it.target.1 = c.it.target.1 → c'.it.target.2 < c.it.target.2)
          ↔ ∀ c' ∈ callbacks, c'.it.target.1 = c.it.target.1 → c'.it.target.2 < c.it.target.2 := by
        simp [eraseKey, invalidateTimerIts]
      refine Iff.trans (b := Sound (({ s with callbacks }.eraseKey c.timer_it.target).eraseAt
        c.it.target.1 c.it.target.2)) (sound_congr rfl rfl) ?_
      rw [sound_eraseAt, sound_eraseKey, herased, and_assoc, and_iff_right hvalid]
    . next hit =>
      simp [sound_iff, Callback.Valid, hit]
  . next htimer =>
    simp [sound_iff, Callback.Valid, htimer]

theorem sound_step {l : Label Cb} (hl : l ≠ .threw) (h : step s l = some s')
    : Sound s' ↔ Sound s ∧ s.KeepsIterators l := by
  unfold step at h
  rw [Option.ite_none_left_eq_some] at h
  obtain ⟨_, h⟩ := h
  split at h
  . exact sound_add_timer h
  . rw [Option.some.injEq] at h
    subst h
    exact sound_cancel_timer
  . rw [Option.some.injEq] at h
    subst h
    refine Iff.trans (b := Sound s) (sound_congr rfl rfl) ?_
    simp [KeepsIterators]
  . next walk hwalk => exact sound_visit hwalk h
  . split at h
    . contradiction
    . next c callbacks hcallbacks =>
      rw [Option.some.injEq] at h
      subst h
      exact sound_returned hcallbacks
  . exact absurd rfl hl
  . contradiction

theorem sound_threw (hs : Sound s) (h : step s .threw = some s') : Sound s' := by
  unfold step at h
  rw [Option.ite_none_left_eq_some] at h
  obtain ⟨_, h⟩ := h
  split at h
  case h_6 =>
    split at h
    . contradiction
    . next c callbacks hcallbacks =>
      rw [Option.some.injEq] at h
      subst h
      have hvalid := hs.valid
      rw [hcallbacks, List.forall_mem_cons] at hvalid
      exact ⟨hs.defined, hvalid.2⟩
  all_goals contradiction

/--
A run is over when no `tick` and no callback runs any more, or when an invalid iterator has been used.
-/
def Over (s : Ticking Cb) : Prop := s.undefined = true ∨ s.walk = none ∧ s.callbacks = []

theorem sound_of_over (hover : Over s) (h : s.undefined = false) : Sound s := by
  cases hover with
  | inl hundefined =>
    rw [h] at hundefined
    contradiction
  | inr hrest =>
    rw [sound_iff, hrest.2]
    exact ⟨h, by simp⟩

/--
From any state of the wheel: `tick` uses no invalid iterator while every step leaves the iterators of
the running callbacks alone. In runs without exceptions that come to their end it does so only then.
-/
theorem defined_iff {s₀ : Ticking Cb} {ls : List (Label Cb)} (hidle : Idle s₀)
    (h : exec step s₀ ls = some s)
    : (Meets step KeepsIterators s₀ ls → s.undefined = false) ∧
        ((∀ l ∈ ls, l ≠ .threw) → Over s →
          (s.undefined = false ↔ Meets step KeepsIterators s₀ ls)) := by
  have hkept (hmeets : Meets step KeepsIterators s₀ ls) : s.undefined = false := by
    have hsound := exec_invariant_of_meets step KeepsIterators (P := Sound) ?_ hidle.sound hmeets h
    . exact hsound.defined
    . intro t l t' ht hkeeps hstep
      by_cases hl : l = .threw
      . subst hl
        exact sound_threw ht hstep
      . exact (sound_step hl hstep).mpr ⟨ht, hkeeps⟩
  refine ⟨hkept, fun hthrows hover => ⟨fun hdefined => ?_, hkept⟩⟩
  have hiff := iff_meets_of_step_on step KeepsIterators (I := fun _ => True) (P := Sound)
    (p := (· ≠ .threw)) (fun _ _ _ _ _ => trivial) (fun _ _ _ _ hl hstep => sound_step hl hstep)
    trivial hthrows h
  exact (hiff.mp (sound_of_over hover hdefined)).2

section Referents

structure Callback.Refers (wheel : TimerWheel Cb) (c : Callback) : Prop where
  it : c.it.valid = true → (wheel.slot c.it.target.1)[c.it.target.2]? = some c.timer_it.target
  timer_it : c.timer_it.valid = true → (wheel.timers_ c.timer_it.target).isSome

def Refers (s : Ticking Cb) : Prop := ∀ c ∈ s.callbacks, Callback.Refers s.wheel c

theorem refers_invalidateIts {p : Nat × Nat → Bool} (hs : Refers s) : Refers (s.invalidateIts p) := by
  simp only [Refers, invalidateIts, List.forall_mem_map]
  intro c hc
  exact ⟨fun hvalid => (hs c hc).it (Iterator.valid_invalidate.mp hvalid).1, (hs c hc).timer_it⟩

theorem refers_invalidateTimerIts {p : UInt64 → Bool} (hs : Refers s)
    : Refers (s.invalidateTimerIts p) := by
  simp only [Refers, invalidateTimerIts, List.forall_mem_map]
  intro c hc
  exact ⟨(hs c hc).it, fun hvalid => (hs c hc).timer_it (Iterator.valid_invalidate.mp hvalid).1⟩

theorem refers_insertKey {id : UInt64} {bucket_count : Nat} (hs : Refers s)
    (h : s.insertKey id bucket_count = some s') : Refers s' := by
  unfold insertKey at h
  split at h
  . rw [Option.some.injEq] at h
    exact h ▸ hs
  . split at h
    . rw [Option.ite_none_right_eq_some, Option.some.injEq] at h
      obtain ⟨_, rfl⟩ := h
      exact refers_invalidateTimerIts (p := fun _ => true) hs
    . rw [Option.some.injEq] at h
      subst h
      exact hs

theorem refers_pushBack {idx capacity : Nat} (hs : Refers s) (h : s.pushBack idx capacity = some s')
    : s'.wheel = s.wheel ∧ Refers s' := by
  unfold pushBack at h
  split at h
  . rw [Option.ite_none_right_eq_some, Option.some.injEq] at h
    obtain ⟨_, rfl⟩ := h
    exact ⟨rfl, refers_invalidateIts (p := fun target => target.1 = idx) hs⟩
  . rw [Option.some.injEq] at h
    subst h
    exact ⟨rfl, hs⟩

theorem slot_add_timer {wheel wheel' : TimerWheel Cb} {now delay_ms now' : Int} {cb : Cb} {id : UInt64}
    (h : wheel.add_timer now delay_ms cb now' = some (id, wheel'))
    : (∀ idx, wheel.slot idx <+: wheel'.slot idx) ∧
        ∀ id', (wheel.timers_ id').isSome → (wheel'.timers_ id').isSome := by
  simp only [TimerWheel.add_timer, TimerWheel.schedule, Option.ite_none_right_eq_some,
    Option.map_eq_some_iff, Option.some.injEq, Prod.mk.injEq] at h
  obtain ⟨_, _, ⟨_, _, rfl⟩, _, rfl⟩ := h
  constructor
  . intro idx
    simp only [TimerWheel.slot, List.getElem?_modify]
    cases wheel.wheel_[idx]? with
    | none => simp
    | some slot =>
      simp only [Option.getD_some]
      split
      . exact List.prefix_append _ _
      . exact List.prefix_refl _
  . intro id' hid'
    simp only [Function.update_apply]
    split
    . rfl
    . exact hid'

theorem refers_add_timer {now delay_ms now' : Int} {cb : Cb} {capacity bucket_count : Nat}
    (hs : Refers s) (h : s.add_timer now delay_ms cb now' capacity bucket_count = some s')
    : Refers s' := by
  simp only [add_timer, Option.bind_eq_bind, Option.bind_eq_some_iff, Option.pure_def,
    Option.some.injEq] at h
  obtain ⟨⟨id, wheel⟩, hadd, t, hinsert, t', hpush, rfl⟩ := h
  obtain ⟨hwheel', hrefers⟩ := refers_pushBack (refers_insertKey hs hinsert) hpush
  have hwheel : t'.wheel = s.wheel := hwheel'.trans (insertKey_spec hinsert).1
  obtain ⟨hslot, htimers⟩ := slot_add_timer hadd
  intro c hc
  have hc' := hrefers c hc
  rw [hwheel] at hc'
  refine ⟨fun hvalid => ?_, fun hvalid => htimers _ (hc'.timer_it hvalid)⟩
  obtain ⟨hlt, hid⟩ := List.getElem?_eq_some_iff.mp (hc'.it hvalid)
  rw [← hid]
  exact List.prefix_iff_getElem?.mp (hslot _) _ hlt

theorem refers_eraseKey {id : UInt64} (hs : Refers s) : Refers (s.eraseKey id) := by
  simp only [Refers, eraseKey, invalidateTimerIts, List.forall_mem_map]
  intro c hc
  refine ⟨(hs c hc).it, fun hvalid => ?_⟩
  rw [Iterator.valid_invalidate, decide_eq_false_iff_not] at hvalid
  have hentry := (hs c hc).timer_it hvalid.1
  simp only [TimerWheel.cancel_timer, Iterator.target_invalidate]
  rwa [Function.update_of_ne hvalid.2]

theorem slot_eraseAt {wheel : TimerWheel Cb} {idx pos idx' : Nat}
    : (wheel.eraseAt idx pos).slot idx'
        =
      if idx = idx' then (wheel.slot idx').eraseIdx pos else wheel.slot idx' := by
  simp only [TimerWheel.slot, TimerWheel.eraseAt, List.getElem?_modify]
  cases wheel.wheel_[idx']? with
  | none => simp
  | some slot => split <;> simp

theorem refers_eraseAt {idx pos : Nat} (hs : Refers s) : Refers (s.eraseAt idx pos) := by
  simp only [Refers, eraseAt, invalidateIts, List.forall_mem_map]
  intro c hc
  refine ⟨fun hvalid => ?_, (hs c hc).timer_it⟩
  rw [Iterator.valid_invalidate, decide_eq_false_iff_not] at hvalid
  have hid := (hs c hc).it hvalid.1
  simp only [Iterator.target_invalidate]
  rw [slot_eraseAt]
  split
  . next heq =>
    have hlt : c.it.target.2 < pos := by
      simpa [erasedAt, heq.symm] using hvalid.2
    rwa [List.getElem?_eraseIdx_of_lt hlt]
  . exact hid

theorem refers_visit {walk : Walk} (hs : Refers s) (h : s.visit walk = some s') : Refers s' := by
  cases walk with
  | round now i =>
    simp only [visit] at h
    split at h
    . rw [Option.ite_none_right_eq_some, Option.some.injEq] at h
      obtain ⟨_, rfl⟩ := h
      exact hs
    . rw [Option.some.injEq] at h
      subst h
      exact fun c hc => ⟨(hs c hc).it, (hs c hc).timer_it⟩
  | slot now i idx pos =>
    simp only [visit] at h
    split at h
    . rw [Option.some.injEq] at h
      subst h
      exact hs
    . next id hid =>
      split at h
      . rw [Option.some.injEq] at h
        subst h
        exact refers_eraseAt hs
      . next entry hentry =>
        split at h
        . rw [Option.some.injEq] at h
          subst h
          have hcalled : Callback.Refers s.wheel ⟨now, i, .fresh (idx, pos), .fresh id⟩ :=
            ⟨fun _ => hid, fun _ => Option.isSome_of_eq_some hentry⟩
          exact List.forall_mem_cons.mpr ⟨hcalled, hs⟩
        . rw [Option.some.injEq] at h
          subst h
          exact hs

theorem refers_afterCallback {c : Callback} (hs : Refers s) : Refers (s.afterCallback c) := by
  unfold afterCallback
  split
  . split
    . exact refers_eraseAt (refers_eraseKey hs)
    . exact refers_eraseKey hs
  . exact hs

theorem refers_step {l : Label Cb} (hs : Refers s) (h : step s l = some s') : Refers s' := by
  unfold step at h
  rw [Option.ite_none_left_eq_some] at h
  obtain ⟨_, h⟩ := h
  split at h
  . exact refers_add_timer hs h
  . rw [Option.some.injEq] at h
    subst h
    unfold cancel_timer
    split
    . exact refers_eraseKey hs
    . exact hs
  . rw [Option.some.injEq] at h
    subst h
    exact hs
  . exact refers_visit hs h
  . split at h
    . contradiction
    . next c callbacks hcallbacks =>
      rw [Option.some.injEq] at h
      subst h
      refine refers_afterCallback fun c' hc' => hs c' ?_
      rw [hcallbacks]
      exact List.mem_cons_of_mem _ hc'
  . split at h
    . contradiction
    . next c callbacks hcallbacks =>
      rw [Option.some.injEq] at h
      subst h
      intro c' hc'
      apply hs c'
      rw [hcallbacks]
      exact List.mem_cons_of_mem _ hc'
  . contradiction

/--
In every run, a valid iterator refers to what `tick` obtained it for, so `tick` erases the timer whose
callback has returned, out of the slot as well.
-/
theorem refers_of_exec {s₀ : Ticking Cb} {ls : List (Label Cb)} (hidle : Idle s₀)
    (h : exec step s₀ ls = some s) : Refers s := by
  apply exec_invariant step (P := Refers) (fun _ _ _ => refers_step) _ h
  rw [Refers, hidle.callbacks]
  simp

end Referents

section Runs

def dueTimer : List (Label Nat) := [.add_timer 0 0 7 0 1 1, .tick 0, .visit, .visit]

def cancelsItself : List (Label Nat) := dueTimer ++ [.cancel_timer 1, .returned]

def addsAgain : List (Label Nat) := dueTimer ++ [.add_timer 0 1000 7 0 2 3, .returned]

def start : Ticking Nat := init 1000 1 (Nat.le_refl 1)

theorem idle_start : Idle start := ⟨rfl, rfl, rfl⟩

theorem undefined_cancelsItself
    : Idle start ∧
        (exec step start cancelsItself).map (·.undefined) = some true ∧
        (exec step start addsAgain).map (·.undefined) = some true :=
  ⟨idle_start, rfl, rfl⟩

/--
A callback with room for what it adds: the slot and the table have grown by earlier timers that were
cancelled.
-/
def addsWithRoom : List (Label Nat) := [
  .add_timer 0 0 7 0 4 13, .add_timer 0 0 8 0 4 13, .cancel_timer 2, .tick 0, .visit, .visit,
  .add_timer 0 1000 7 0 4 13, .returned, .visit, .visit, .visit, .visit
]

theorem defined_iff_addsWithRoom
    : ∃ s, exec step start addsWithRoom = some s ∧ Over s ∧ s.undefined = false ∧
        (s.undefined = false ↔ Meets step KeepsIterators start addsWithRoom) := by
  have hend := Option.eq_some_of_isSome (o := exec step start addsWithRoom) (by rfl)
  refine ⟨_, hend, .inr ⟨rfl, rfl⟩, rfl, ?_⟩
  exact (defined_iff idle_start hend).2 (by decide) (.inr ⟨rfl, rfl⟩)

end Runs

end Ticking
end LFGateway
