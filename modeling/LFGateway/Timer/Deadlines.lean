import LFGateway.Foundation.Runs
import LFGateway.Foundation.Sweep
import LFGateway.Timer.Impl

/-!
This module contains what `TimerWheel` is for, a set of deadlines, and the runs in which the wheel
is one: whatever slot an id was hashed to, a `tick` visits every slot and runs what is due.
-/

namespace LFGateway

open Foundation

variable {Cb : Type u}

/--
The timers that were added, have not been cancelled and have not fired.
-/
structure Deadlines (Cb : Type u) where
  pending : List (UInt64 × TimerEntry Cb)
  next_id : UInt64

namespace Deadlines

def init : Deadlines Cb := ⟨[], 1⟩

/--
A call and the timers that fire in it.
-/
def step (deadlines : Deadlines Cb)
    : TimerWheel.Label Cb → Deadlines Cb × List (UInt64 × TimerEntry Cb)
  | .add_timer now delay_ms cb _ =>
    ({ deadlines with
        pending := deadlines.pending ++ [(deadlines.next_id, ⟨now + delay_ms, cb⟩)]
        next_id := deadlines.next_id + 1
      }, [])
  | .cancel_timer id =>
    ({ deadlines with pending := deadlines.pending.filter fun timer => timer.1 ≠ id }, [])
  | .tick now =>
    ({ deadlines with pending := deadlines.pending.filter fun timer => now < timer.2.expiration },
      deadlines.pending.filter fun timer => timer.2.expiration ≤ now)

end Deadlines

namespace TimerWheel

variable {wheel wheel' : TimerWheel Cb}

/--
The wheel's entries are the pending timers.
-/
structure Refines (wheel : TimerWheel Cb) (deadlines : Deadlines Cb) : Prop where
  next_id : wheel.next_id_ = deadlines.next_id
  entries : ∀ id entry, (id, entry) ∈ deadlines.pending ↔ wheel.timers_ id = some entry
  nodup : deadlines.pending.Nodup

/--
What a caller may pass, and the readings of the clock: `int64_t` values whose sum is one as well.
-/
def Label.InDomain : Label Cb → Prop
  | .add_timer now delay_ms _ now' =>
    InInt64 now ∧ InInt64 delay_ms ∧ InInt64 (now + delay_ms) ∧ InInt64 now'
  | .cancel_timer _ => True
  | .tick now => InInt64 now

/--
No index is computed from numbers too large for it, and the new id is not the id of a timer that is
still pending.
-/
def InRange (wheel : TimerWheel Cb) : Label Cb → Prop
  | .add_timer now delay_ms _ now' =>
    InInt64 (now + delay_ms - now') ∧
      InInt64 (wheel.current_index_ + (delay (now + delay_ms) now').tdiv wheel.tick_ms_) ∧
      wheel.timers_ wheel.next_id_ = none
  | .cancel_timer _ => True
  | .tick _ => wheel.current_index_ + wheel.wheel_size_ ≤ INT_MAX + 1

instance (l : Label Cb) : Decidable l.InDomain :=
  match l with
  | .add_timer _ _ _ _ => inferInstanceAs (Decidable (_ ∧ _))
  | .cancel_timer _ => inferInstanceAs (Decidable True)
  | .tick now => inferInstanceAs (Decidable (InInt64 now))

instance (l : Label Cb) : Decidable (wheel.InRange l) :=
  match l with
  | .add_timer _ _ _ _ => inferInstanceAs (Decidable (_ ∧ _))
  | .cancel_timer _ => inferInstanceAs (Decidable True)
  | .tick _ => inferInstanceAs (Decidable (_ ≤ _))

def Due (now : Int) (entry : TimerEntry Cb) : Prop := entry.expiration ≤ now

theorem visitSlot_spec (now : Int) (slot : List UInt64) (timers_ : UInt64 → Option (TimerEntry Cb))
    {slot' : List UInt64} {timers' : UInt64 → Option (TimerEntry Cb)}
    {ran : List (UInt64 × TimerEntry Cb)} (h : visitSlot now timers_ slot = (slot', timers', ran))
    : Swept (Due now) timers_ timers' ran ∧
      ∀ id ∈ slot, ∀ entry, timers' id = some entry → id ∈ slot' ∧ ¬Due now entry := by
  induction slot generalizing timers_ slot' timers' ran with
  | nil =>
    simp only [visitSlot, Prod.mk.injEq] at h
    obtain ⟨rfl, rfl, rfl⟩ := h
    exact ⟨.refl _ _, by simp⟩
  | cons id rest ih =>
    unfold visitSlot at h
    split at h
    . next hnone =>
      obtain ⟨hswept, hslot⟩ := ih timers_ h
      refine ⟨hswept, ?_⟩
      intro j hj entry hentry
      cases List.mem_cons.mp hj with
      | inl heq =>
        rw [heq] at hentry
        rw [hswept.of_some hentry] at hnone
        contradiction
      | inr hmem => exact hslot j hmem entry hentry
    . next entry hsome =>
      split at h
      . next hdue =>
        rw [Prod.mk.injEq, Prod.mk.injEq] at h
        obtain ⟨rfl, rfl, rfl⟩ := h
        obtain ⟨hswept, hslot⟩ := ih (Function.update timers_ id none) rfl
        refine ⟨(Swept.visit hsome hdue).trans hswept, ?_⟩
        intro j hj entry' hentry
        cases List.mem_cons.mp hj with
        | inl heq =>
          have hold := hswept.of_some hentry
          rw [heq, Function.update_self] at hold
          contradiction
        | inr hmem => exact hslot j hmem entry' hentry
      . next hdue =>
        rw [Prod.mk.injEq, Prod.mk.injEq] at h
        obtain ⟨rfl, rfl, rfl⟩ := h
        obtain ⟨hswept, hslot⟩ := ih timers_ rfl
        refine ⟨hswept, ?_⟩
        intro j hj entry' hentry
        cases List.mem_cons.mp hj with
        | inl heq =>
          have hold := hswept.of_some hentry
          rw [heq, hsome, Option.some.injEq] at hold
          rw [heq, ← hold]
          exact ⟨List.mem_cons_self, hdue⟩
        | inr hmem =>
          obtain ⟨hin, hlate⟩ := hslot j hmem entry' hentry
          exact ⟨List.mem_cons_of_mem _ hin, hlate⟩

def Holds (wheel : TimerWheel Cb) (k : Nat) (id : UInt64) : Prop :=
  ∃ slot, wheel.wheel_[k]? = some slot ∧ id ∈ slot

def Covered (wheel : TimerWheel Cb) : Prop :=
  ∀ id entry, wheel.timers_ id = some entry → ∃ k, k < wheel.wheel_size_ ∧ wheel.Holds k id

structure SameShape (wheel wheel' : TimerWheel Cb) : Prop where
  tick_ms_ : wheel'.tick_ms_ = wheel.tick_ms_
  wheel_size_ : wheel'.wheel_size_ = wheel.wheel_size_
  current_index_ : wheel'.current_index_ = wheel.current_index_
  next_id_ : wheel'.next_id_ = wheel.next_id_

/--
The rounds `i`, ..., `i + n - 1` sweep the timers, leave no timer due in a slot they visit, and keep
the pending ids in their slots.
-/
structure Visited (now : Int) (i n : Nat) (wheel wheel' : TimerWheel Cb)
    (ran : List (UInt64 × TimerEntry Cb)) : Prop where
  shape : SameShape wheel wheel'
  swept : Swept (Due now) wheel.timers_ wheel'.timers_ ran
  kept : ∀ id entry, wheel'.timers_ id = some entry → ∀ k, wheel.Holds k id → wheel'.Holds k id
  late : ∀ j, i ≤ j → j < i + n → ∀ id entry, wheel'.timers_ id = some entry →
    wheel.Holds ((wheel.current_index_ + j) % wheel.wheel_size_) id → ¬Due now entry

theorem Visited.refl (now : Int) (i : Nat) (wheel : TimerWheel Cb) : Visited now i 0 wheel wheel [] where
  shape := ⟨rfl, rfl, rfl, rfl⟩
  swept := .refl _ _
  kept := fun _ _ _ _ h => h
  late := by
    intro j hij hj
    omega

theorem Visited.trans {now : Int} {i n m : Nat} {wheel'' : TimerWheel Cb}
    {ran ran' : List (UInt64 × TimerEntry Cb)} (h : Visited now i n wheel wheel' ran)
    (h' : Visited now (i + n) m wheel' wheel'' ran')
    : Visited now i (n + m) wheel wheel'' (ran ++ ran') where
  shape := {
    tick_ms_ := h'.shape.tick_ms_.trans h.shape.tick_ms_
    wheel_size_ := h'.shape.wheel_size_.trans h.shape.wheel_size_
    current_index_ := h'.shape.current_index_.trans h.shape.current_index_
    next_id_ := h'.shape.next_id_.trans h.shape.next_id_
  }
  swept := h.swept.trans h'.swept
  kept := by
    intro id entry hentry k hk
    have hbetween := h'.swept.of_some hentry
    exact h'.kept id entry hentry k (h.kept id entry hbetween k hk)
  late := by
    intro j hij hj id entry hentry hk
    have hbetween := h'.swept.of_some hentry
    by_cases hlt : j < i + n
    . exact h.late j hij hlt id entry hbetween hk
    . apply h'.late j (by omega) (by omega) id entry hentry
      rw [h.shape.current_index_, h.shape.wheel_size_]
      exact h.kept id entry hbetween _ hk

theorem visitRound_spec (now : Int) (wheel : TimerWheel Cb) (i : Nat)
    : Visited now i 1 wheel (visitRound now wheel i).1 (visitRound now wheel i).2 := by
  have hidx : (wheel.current_index_ + i) % wheel.wheel_size_ < wheel.wheel_.length := by
    rw [wheel.resized]
    exact Nat.mod_lt _ (Nat.zero_lt_of_lt wheel.index_lt)
  obtain ⟨hswept, hslot⟩ := visitSlot_spec now
    wheel.wheel_[(wheel.current_index_ + i) % wheel.wheel_size_] wheel.timers_ rfl
  refine ⟨⟨rfl, rfl, rfl, rfl⟩, hswept, ?_, ?_⟩
  . intro id entry hentry k ⟨slot, hk, hid⟩
    by_cases heq : k = (wheel.current_index_ + i) % wheel.wheel_size_
    . subst heq
      rw [List.getElem?_eq_getElem hidx, Option.some.injEq] at hk
      exact ⟨_, List.getElem?_set_self hidx, (hslot id (hk ▸ hid) entry hentry).1⟩
    . refine ⟨slot, ?_, hid⟩
      rw [← hk]
      exact List.getElem?_set_ne (Ne.symm heq)
  . intro j hij hj id entry hentry ⟨slot, hk, hid⟩
    have heq : j = i := by omega
    rw [heq, List.getElem?_eq_getElem hidx, Option.some.injEq] at hk
    exact (hslot id (hk ▸ hid) entry hentry).2

theorem visitSlots_spec {now : Int} {i n : Nat} {ran : List (UInt64 × TimerEntry Cb)}
    (h : visitSlots now wheel i n = some (wheel', ran)) : Visited now i n wheel wheel' ran := by
  induction n generalizing wheel i ran with
  | zero =>
    simp only [visitSlots, Option.some.injEq, Prod.mk.injEq] at h
    obtain ⟨rfl, rfl⟩ := h
    exact .refl now i wheel
  | succ n ih =>
    unfold visitSlots at h
    split at h
    . rw [Option.map_eq_some_iff] at h
      obtain ⟨⟨wheel'', ran'⟩, hrest, heq⟩ := h
      rw [Prod.mk.injEq] at heq
      obtain ⟨rfl, rfl⟩ := heq
      rw [Nat.add_comm n]
      exact (visitRound_spec now wheel i).trans (ih hrest)
    . contradiction

theorem isSome_visitSlots_iff {now : Int} {i n : Nat}
    : (visitSlots now wheel i (n + 1)).isSome ↔ wheel.current_index_ + (i + n) ≤ INT_MAX := by
  induction n generalizing wheel i with
  | zero =>
    unfold visitSlots
    split <;> simp_all [visitSlots]
  | succ n ih =>
    have hround := (visitRound_spec now wheel i).shape.current_index_
    unfold visitSlots
    split
    . rw [Option.isSome_map, ih, hround]
      omega
    . simp only [Option.isSome_none, Bool.false_eq_true, false_iff]
      omega

theorem exists_round (wheel : TimerWheel Cb) {k : Nat} (hk : k < wheel.wheel_size_)
    : ∃ j, j < wheel.wheel_size_ ∧ (wheel.current_index_ + j) % wheel.wheel_size_ = k := by
  have hlt := wheel.index_lt
  refine ⟨(k + wheel.wheel_size_ - wheel.current_index_) % wheel.wheel_size_, ?_, ?_⟩
  . exact Nat.mod_lt _ (Nat.zero_lt_of_lt hlt)
  . have hsum : wheel.current_index_ + (k + wheel.wheel_size_ - wheel.current_index_)
        = k + wheel.wheel_size_ := by omega
    rw [Nat.add_mod_mod, hsum, Nat.add_mod_right, Nat.mod_eq_of_lt hk]

theorem tick_spec {now : Int} {ran : List (UInt64 × TimerEntry Cb)} (hcovered : wheel.Covered)
    (h : wheel.tick now = some (wheel', ran))
    : Swept (Due now) wheel.timers_ wheel'.timers_ ran ∧
      (∀ id entry, wheel'.timers_ id = some entry → ¬Due now entry) ∧
      wheel'.next_id_ = wheel.next_id_ ∧ wheel'.Covered := by
  unfold tick at h
  rw [Option.map_eq_some_iff] at h
  obtain ⟨⟨wheel'', ran'⟩, hvisit, heq⟩ := h
  rw [Prod.mk.injEq] at heq
  obtain ⟨rfl, rfl⟩ := heq
  have hvisited := visitSlots_spec hvisit
  refine ⟨hvisited.swept, ?_, hvisited.shape.next_id_, ?_⟩
  . intro id entry hentry
    obtain ⟨k, hk, hholds⟩ := hcovered id entry (hvisited.swept.of_some hentry)
    obtain ⟨j, hj, heq⟩ := wheel.exists_round hk
    rw [← heq] at hholds
    exact hvisited.late j (Nat.zero_le j) (by omega) id entry hentry hholds
  . intro id entry hentry
    obtain ⟨k, hk, hholds⟩ := hcovered id entry (hvisited.swept.of_some hentry)
    refine ⟨k, ?_, hvisited.kept id entry hentry k hholds⟩
    rw [← hvisited.shape.wheel_size_] at hk
    exact hk

theorem isSome_tick_iff {now : Int}
    : (wheel.tick now).isSome ↔ wheel.current_index_ + wheel.wheel_size_ ≤ INT_MAX + 1 := by
  obtain ⟨n, hn⟩ := Nat.exists_eq_succ_of_ne_zero (Nat.ne_zero_of_lt wheel.index_lt)
  unfold tick
  rw [Option.isSome_map, hn, isSome_visitSlots_iff]
  omega

theorem Holds.modify {k j : Nat} {id id' : UInt64} (h : wheel.Holds k id)
    (hwheel : wheel'.wheel_ = wheel.wheel_.modify j (· ++ [id'])) : wheel'.Holds k id := by
  obtain ⟨slot, hk, hid⟩ := h
  unfold Holds
  rw [hwheel, List.getElem?_modify, hk]
  split
  . exact ⟨_, rfl, List.mem_append_left _ hid⟩
  . exact ⟨_, rfl, hid⟩

theorem schedule_index_nonneg (htick : 1 ≤ wheel.tick_ms_) (expires now : Int)
    : 0 ≤ (wheel.current_index_ + (delay expires now).tdiv wheel.tick_ms_).tmod wheel.wheel_size_ := by
  have hdelay : 0 ≤ delay expires now := by
    unfold delay
    split <;> omega
  have hquot := Int.tdiv_nonneg hdelay (Int.le_trans Int.one_nonneg htick)
  exact Int.tmod_nonneg _ (Int.add_nonneg (Int.natCast_nonneg _) hquot)

theorem isSome_schedule_iff {id : UInt64} {expires now : Int} (htick : 1 ≤ wheel.tick_ms_)
    : (wheel.schedule id expires now).isSome
        ↔
      InInt64 (expires - now) ∧
        InInt64 (wheel.current_index_ + (delay expires now).tdiv wheel.tick_ms_) := by
  have hindex := wheel.schedule_index_nonneg htick expires now
  have hne : wheel.tick_ms_ ≠ 0 := by omega
  unfold schedule
  dsimp only
  split
  . next hdelay =>
    split
    . next hsum => simp [hdelay.1, hsum.1]
    . next hsum => simpa [hdelay.1, hindex] using hsum
  . next hdelay =>
    have hdelay' : ¬InInt64 (expires - now) := fun h => hdelay ⟨h, hne⟩
    simp [hdelay']

theorem schedule_spec {id : UInt64} {expires now : Int}
    (h : wheel.schedule id expires now = some wheel')
    : wheel'.timers_ = wheel.timers_ ∧ wheel'.next_id_ = wheel.next_id_ ∧
      wheel'.wheel_size_ = wheel.wheel_size_ ∧ wheel'.tick_ms_ = wheel.tick_ms_ ∧
      (∃ k, k < wheel.wheel_size_ ∧ wheel'.Holds k id) ∧
      ∀ k id', wheel.Holds k id' → wheel'.Holds k id' := by
  unfold schedule at h
  dsimp only at h
  split at h
  . split at h
    . rw [Option.some.injEq] at h
      subst h
      refine ⟨rfl, rfl, rfl, rfl, ?_, fun k id' hholds => hholds.modify rfl⟩
      have hpos : (0 : Int) < wheel.wheel_size_ :=
        Int.natCast_pos.mpr (Nat.zero_lt_of_lt wheel.index_lt)
      have hmod := Int.tmod_lt_of_pos
        (wheel.current_index_ + (delay expires now).tdiv wheel.tick_ms_) hpos
      have hlt : ((wheel.current_index_ + (delay expires now).tdiv wheel.tick_ms_).tmod
          wheel.wheel_size_).toNat < wheel.wheel_size_ := by omega
      refine ⟨_, hlt, ?_⟩
      unfold Holds
      rw [List.getElem?_modify_eq, List.getElem?_eq_getElem (by rwa [wheel.resized])]
      exact ⟨_, rfl, List.mem_append_right _ (List.mem_singleton.mpr rfl)⟩
    . contradiction
  . contradiction

theorem isSome_add_timer_iff {now delay_ms now' : Int} {cb : Cb} (htick : 1 ≤ wheel.tick_ms_)
    (hexpires : InInt64 (now + delay_ms))
    : (wheel.add_timer now delay_ms cb now').isSome
        ↔
      InInt64 (now + delay_ms - now') ∧
        InInt64 (wheel.current_index_ + (delay (now + delay_ms) now').tdiv wheel.tick_ms_) := by
  unfold add_timer
  dsimp only
  rw [if_pos hexpires, Option.isSome_map]
  exact isSome_schedule_iff htick

theorem add_timer_spec {now delay_ms now' : Int} {cb : Cb} {id : UInt64} (hcovered : wheel.Covered)
    (h : wheel.add_timer now delay_ms cb now' = some (id, wheel'))
    : wheel'.timers_ = Function.update wheel.timers_ wheel.next_id_ (some ⟨now + delay_ms, cb⟩) ∧
      wheel'.next_id_ = wheel.next_id_ + 1 ∧ wheel'.Covered := by
  unfold add_timer at h
  dsimp only at h
  split at h
  . obtain ⟨wheel'', hschedule, heq⟩ := Option.map_eq_some_iff.mp h
    rw [Prod.mk.injEq] at heq
    obtain ⟨rfl, rfl⟩ := heq
    obtain ⟨htimers, hnext, hsize, _, hnew, hkept⟩ := schedule_spec hschedule
    refine ⟨htimers, hnext, ?_⟩
    intro id' entry hentry
    rw [hsize]
    by_cases hid : id' = wheel.next_id_
    . rw [hid]
      exact hnew
    . rw [htimers] at hentry
      dsimp only at hentry
      rw [Function.update_of_ne hid] at hentry
      obtain ⟨k, hk, hholds⟩ := hcovered id' entry hentry
      exact ⟨k, hk, hkept k id' hholds⟩
  . contradiction

theorem tick_ms_of_step {l : Label Cb} {ran : List (UInt64 × TimerEntry Cb)}
    (h : wheel.step l = some (wheel', ran)) : wheel'.tick_ms_ = wheel.tick_ms_ := by
  cases l with
  | add_timer now delay_ms cb now' =>
    obtain ⟨⟨id, _⟩, hadd, heq⟩ := Option.map_eq_some_iff.mp h
    rw [Prod.mk.injEq] at heq
    obtain ⟨rfl, rfl⟩ := heq
    unfold TimerWheel.add_timer at hadd
    dsimp only at hadd
    split at hadd
    . obtain ⟨wheel'', hschedule, heq⟩ := Option.map_eq_some_iff.mp hadd
      rw [Prod.mk.injEq] at heq
      obtain ⟨_, rfl⟩ := heq
      exact (schedule_spec hschedule).2.2.2.1
    . contradiction
  | cancel_timer id =>
    simp only [TimerWheel.step, Option.some.injEq, Prod.mk.injEq] at h
    rw [← h.1]
    rfl
  | tick now =>
    obtain ⟨⟨wheel'', ran'⟩, hvisit, heq⟩ := Option.map_eq_some_iff.mp h
    rw [Prod.mk.injEq] at heq
    obtain ⟨rfl, rfl⟩ := heq
    exact (visitSlots_spec hvisit).shape.tick_ms_

theorem Covered.cancel_timer (h : wheel.Covered) (id : UInt64) : (wheel.cancel_timer id).Covered := by
  intro id' entry hentry
  by_cases hid : id' = id
  . simp [TimerWheel.cancel_timer, hid] at hentry
  . unfold TimerWheel.cancel_timer at hentry
    dsimp only at hentry
    rw [Function.update_of_ne hid] at hentry
    exact h id' entry hentry

theorem Covered.step {l : Label Cb} {ran : List (UInt64 × TimerEntry Cb)} (hcovered : wheel.Covered)
    (h : wheel.step l = some (wheel', ran)) : wheel'.Covered := by
  cases l with
  | add_timer now delay_ms cb now' =>
    obtain ⟨⟨id, _⟩, hadd, heq⟩ := Option.map_eq_some_iff.mp h
    rw [Prod.mk.injEq] at heq
    obtain ⟨rfl, rfl⟩ := heq
    exact (add_timer_spec hcovered hadd).2.2
  | cancel_timer id =>
    simp only [TimerWheel.step, Option.some.injEq, Prod.mk.injEq] at h
    rw [← h.1]
    exact hcovered.cancel_timer id
  | tick now => exact (tick_spec hcovered h).2.2.2

variable {deadlines : Deadlines Cb}

theorem refines_add_iff {id : UInt64} {entry : TimerEntry Cb} (hrefines : Refines wheel deadlines)
    (hid : id = wheel.next_id_)
    (htimers : wheel'.timers_ = Function.update wheel.timers_ id (some entry))
    (hnext : wheel'.next_id_ = id + 1)
    : wheel.timers_ id = none
        ↔
      Refines wheel' ⟨deadlines.pending ++ [(id, entry)], id + 1⟩ := by
  constructor
  . intro hnone
    have hfresh : ∀ e, (id, e) ∉ deadlines.pending := by
      intro e hmem
      rw [hrefines.entries, hnone] at hmem
      contradiction
    refine ⟨hnext, ?_, ?_⟩
    . intro id' entry'
      rw [htimers, List.mem_append, List.mem_singleton, Prod.mk.injEq]
      by_cases heq : id' = id
      . subst heq
        simp [hfresh, eq_comm]
      . simp [heq, hrefines.entries]
    . apply hrefines.nodup.append (List.nodup_singleton _)
      rw [List.disjoint_singleton]
      exact hfresh entry
  . intro hrefines'
    by_contra hne
    obtain ⟨old, hold⟩ := Option.ne_none_iff_exists'.mp hne
    have hmem := (hrefines.entries id old).mpr hold
    have hboth := (hrefines'.entries id old).mp (List.mem_append_left _ hmem)
    rw [htimers, Function.update_self, Option.some.injEq] at hboth
    have hdisjoint := List.disjoint_of_nodup_append hrefines'.nodup
    rw [List.disjoint_singleton, hboth] at hdisjoint
    exact hdisjoint hmem

theorem refines_cancel (hrefines : Refines wheel deadlines) (id : UInt64)
    : Refines (wheel.cancel_timer id) (deadlines.step (.cancel_timer id)).1 where
  next_id := hrefines.next_id
  entries := by
    intro id' entry
    by_cases heq : id' = id
    . simp [Deadlines.step, TimerWheel.cancel_timer, heq]
    . simp [Deadlines.step, TimerWheel.cancel_timer, heq, hrefines.entries]
  nodup := hrefines.nodup.filter _

theorem refines_tick {now : Int} {ran : List (UInt64 × TimerEntry Cb)} (hcovered : wheel.Covered)
    (hrefines : Refines wheel deadlines) (h : wheel.tick now = some (wheel', ran))
    : ran.Perm (deadlines.step (.tick now)).2 ∧ Refines wheel' (deadlines.step (.tick now)).1 := by
  obtain ⟨hswept, hlate, hnext, _⟩ := tick_spec hcovered h
  constructor
  . apply (List.perm_ext_iff_of_nodup hswept.nodup (hrefines.nodup.filter _)).mpr
    intro ⟨id, entry⟩
    rw [hswept.mem_iff_due hlate, List.mem_filter, hrefines.entries, decide_eq_true_eq]
    rfl
  . refine ⟨hnext.trans hrefines.next_id, ?_, hrefines.nodup.filter _⟩
    intro id entry
    rw [hswept.eq_some_iff_not_due hlate, Deadlines.step, List.mem_filter, hrefines.entries]
    simp [Due]

theorem inRange_iff {l : Label Cb} (htick : 1 ≤ wheel.tick_ms_) (hcovered : wheel.Covered)
    (hdomain : l.InDomain) (hrefines : Refines wheel deadlines)
    : wheel.InRange l
        ↔
      ∃ wheel' ran, wheel.step l = some (wheel', ran) ∧ ran.Perm (deadlines.step l).2 ∧
        Refines wheel' (deadlines.step l).1 := by
  cases l with
  | add_timer now delay_ms cb now' =>
    have hsome : (wheel.add_timer now delay_ms cb now').isSome ↔ _ :=
      isSome_add_timer_iff htick hdomain.2.2.1
    constructor
    . rintro ⟨hdelay, hsum, hnone⟩
      obtain ⟨⟨id, wheel'⟩, hadd⟩ := Option.isSome_iff_exists.mp (hsome.mpr ⟨hdelay, hsum⟩)
      obtain ⟨htimers, hnext, _⟩ := add_timer_spec hcovered hadd
      refine ⟨wheel', [], ?_, .refl _, ?_⟩
      . rw [TimerWheel.step, hadd, Option.map_some]
      . have hrefines' := (refines_add_iff hrefines rfl htimers hnext).mp hnone
        rwa [hrefines.next_id] at hrefines'
    . rintro ⟨wheel', ran, hstep, _, hrefines'⟩
      obtain ⟨⟨id, _⟩, hadd, heq⟩ := Option.map_eq_some_iff.mp hstep
      rw [Prod.mk.injEq] at heq
      obtain ⟨rfl, rfl⟩ := heq
      obtain ⟨htimers, hnext, _⟩ := add_timer_spec hcovered hadd
      obtain ⟨hdelay, hsum⟩ := hsome.mp (Option.isSome_of_eq_some hadd)
      refine ⟨hdelay, hsum, ?_⟩
      rw [Deadlines.step, ← hrefines.next_id] at hrefines'
      exact (refines_add_iff hrefines rfl htimers hnext).mpr hrefines'
  | cancel_timer id =>
    exact iff_of_true trivial ⟨_, [], rfl, .refl _, refines_cancel hrefines id⟩
  | tick now =>
    constructor
    . intro hrange
      obtain ⟨⟨wheel', ran⟩, htick⟩ := Option.isSome_iff_exists.mp (isSome_tick_iff.mpr hrange)
      exact ⟨wheel', ran, htick, refines_tick hcovered hrefines htick⟩
    . rintro ⟨wheel', ran, htick, _⟩
      exact isSome_tick_iff.mp (Option.isSome_of_eq_some htick)

/--
Call for call the wheel is the set of deadlines: every call is defined and every `tick` runs the
callbacks of the timers that are due, each once, and no other.
-/
def IsDeadlineSet (tick_ms : Int) (wheel_size : Nat) (hsize : 1 ≤ wheel_size)
    (ls : List (Label Cb)) : Prop :=
  Follows step Deadlines.step Refines List.Perm (init tick_ms wheel_size hsize) Deadlines.init ls

/--
A wheel is a set of deadlines in exactly the runs in which no index is computed from a number out of
range and no id is given twice at a time.
-/
theorem isDeadlineSet_iff (tick_ms : Int) (htick : 1 ≤ tick_ms) (wheel_size : Nat)
    (hsize : 1 ≤ wheel_size) (ls : List (Label Cb)) (hdomain : ∀ l ∈ ls, l.InDomain)
    : IsDeadlineSet tick_ms wheel_size hsize ls
        ↔
      Meets (fun wheel l => (step wheel l).map Prod.fst) InRange (init tick_ms wheel_size hsize) ls := by
  apply follows_iff_meets (I := fun wheel => 1 ≤ wheel.tick_ms_ ∧ wheel.Covered) (D := Label.InDomain)
  . intro wheel l wheel' ran hwheel hstep
    rw [tick_ms_of_step hstep]
    exact ⟨hwheel.1, hwheel.2.step hstep⟩
  . intro wheel deadlines l hwheel hl hrefines
    exact inRange_iff hwheel.1 hwheel.2 hl hrefines
  . refine ⟨htick, ?_⟩
    intro id entry hentry
    simp [init] at hentry
  . exact hdomain
  . exact ⟨rfl, by simp [init, Deadlines.init], List.nodup_nil⟩

def threeTimers : List (Label Nat) :=
  [.add_timer 0 25 1 0, .add_timer 1 30 2 2, .add_timer 2 5 3 2, .tick 7, .cancel_timer 2, .tick 12,
    .tick 60]

theorem isDeadlineSet_threeTimers : IsDeadlineSet 10 2 (by decide) threeTimers :=
  (isDeadlineSet_iff 10 (by decide) 2 (by decide) threeTimers (by decide)).mpr (by decide)

/--
After one `tick` the sum of `current_index_` and the longest delay is not an `int64_t`. Where it wraps,
its remainder is -2, an index past the end of the three slots.
-/
def longestDelay : List (Label Nat) := [.tick 0, .add_timer 0 9223372036854775807 1 0]

theorem overflows_longestDelay
    : (∀ l ∈ longestDelay, l.InDomain) ∧ ¬IsDeadlineSet 1 3 (by decide) longestDelay := by
  have hdomain : ∀ l ∈ longestDelay, l.InDomain := by decide
  refine ⟨hdomain, ?_⟩
  intro ⟨_, wheel, _, htick, _, _, wheel', _, hadd, _⟩
  have hturned : (step (init 1 3 (by decide)) (.tick 0 : Label Nat)).map
      (fun out => (out.1.current_index_, out.1.tick_ms_)) = some (1, 1) := by decide
  rw [htick, Option.map_some, Option.some.injEq, Prod.mk.injEq] at hturned
  obtain ⟨⟨id, _⟩, hadd', _⟩ := Option.map_eq_some_iff.mp hadd
  have hone : 1 ≤ wheel.tick_ms_ := Int.le_of_eq hturned.2.symm
  have hsum := (isSome_add_timer_iff hone (by decide)).mp (Option.isSome_of_eq_some hadd')
  rw [hturned.1, hturned.2] at hsum
  exact absurd hsum.2 (by decide)

end TimerWheel
end LFGateway
