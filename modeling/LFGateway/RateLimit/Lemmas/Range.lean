import LFGateway.RateLimit.Lemmas.Expiry

/-!
This module contains what the script keeps true of the stored tokens, whatever clocks and limits its
calls come with and whenever Redis removes the key, and the bound of a burst: the calls of one instant
are admitted at most as often as the capacity says.
-/

namespace LFGateway
namespace TokenBucket

open Foundation

variable {key : Option Bucket} {c : ScriptCall}

def Limited : KeyEvent → Prop
  | .call c => 0 ≤ c.rate ∧ 1 ≤ c.capacity
  | .removed _ => True

def Nonneg (key : Option Bucket) : Prop := ∀ b, key = some b → 0 ≤ b.tokens

structure InRange (c : ScriptCall) (reply : Int) (b : Bucket) : Prop where
  nonneg : 0 ≤ b.tokens
  le_capacity : b.tokens ≤ c.capacity
  lt_one : reply = 0 → b.tokens < 1

def keyAfter (events : List KeyEvent) : Option Bucket := stateAfter scriptStep none events

/--
The calls of a burst that the script admits: they all come with one time and one pair of limits.
-/
def burstAdmitted (key : Option Bucket) (c : ScriptCall) (n : Nat) : Nat :=
  (outputs scriptStep key (List.replicate n (.call c))).count (some 1)

theorem burstAdmitted_succ (key : Option Bucket) (c : ScriptCall) (n : Nat)
    : burstAdmitted key c (n + 1)
        =
      burstAdmitted (scriptStep key (.call c)).2 c n
        + [(scriptStep key (.call c)).1].count (some 1) := by
  unfold burstAdmitted
  rw [List.replicate_succ, outputs, List.count_cons, List.count_singleton]

theorem scriptStep_available (h : 1 ≤ available c.capacity c.rate key c.now)
    : scriptStep key (.call c)
        =
      (some 1, some ⟨available c.capacity c.rate key c.now - 1, c.now⟩) := by
  simp only [scriptStep, script_of_available h]

theorem scriptStep_not_available (h : available c.capacity c.rate key c.now < 1)
    (hc : 1 ≤ c.capacity)
    : ∃ b, key = some b ∧
        scriptStep key (.call c)
          = (some 0, some ⟨available c.capacity c.rate key c.now, b.last_time⟩) := by
  obtain ⟨b, hb, hscript⟩ := script_of_not_available h hc
  refine ⟨b, hb, ?_⟩
  simp only [scriptStep, hscript]

theorem scriptStep_inRange (hl : Limited (.call c)) (h : Nonneg key)
    : ∃ reply b, scriptStep key (.call c) = (some reply, some b) ∧ InRange c reply b := by
  obtain ⟨hr, hc⟩ := hl
  have hpos : 0 ≤ available c.capacity c.rate key c.now := available_nonneg (by linarith) hr h c.now
  have hle : available c.capacity c.rate key c.now ≤ c.capacity := available_le key c.now
  cases le_or_gt 1 (available c.capacity c.rate key c.now) with
  | inl hfull =>
    refine ⟨_, _, scriptStep_available hfull, ?_⟩
    constructor
    . exact sub_nonneg.mpr hfull
    . simp only
      linarith
    . intro hreply
      exact absurd hreply (by decide)
  | inr hempty =>
    obtain ⟨b, _, hstep⟩ := scriptStep_not_available hempty hc
    exact ⟨_, _, hstep, hpos, hle, fun _ => hempty⟩

theorem scriptStep_nonneg {e : KeyEvent} (hl : Limited e) (h : Nonneg key)
    : Nonneg (scriptStep key e).2 := by
  cases e with
  | call c =>
    obtain ⟨reply, b, hstep, hrange⟩ := scriptStep_inRange hl h
    rw [hstep]
    rintro b' ⟨⟩
    exact hrange.nonneg
  | removed at' =>
    rintro b' ⟨⟩

theorem keyAfter_nonneg {events : List KeyEvent} (hl : ∀ e ∈ events, Limited e)
    : Nonneg (keyAfter events) :=
  stateAfter_invariant (fun _ e he h => scriptStep_nonneg (hl e he) h) (by rintro b ⟨⟩)

/--
Behind an admitted call of the burst `last_time` is the time of the burst, so there is no refill any
more: the stored tokens pay for all that is still admitted.
-/
theorem burstAdmitted_le_tokens (hc : 1 ≤ c.capacity) (n : Nat) {b : Bucket}
    (hlast : b.last_time = c.now) (hb : 0 ≤ b.tokens)
    : (burstAdmitted (some b) c n : ℚ) ≤ b.tokens := by
  induction n generalizing b with
  | zero => simpa [burstAdmitted, outputs] using hb
  | succ n ih =>
    have havail : available c.capacity c.rate (some b) c.now = min c.capacity b.tokens := by
      simp only [available, hlast, sub_self, max_self, zero_mul, add_zero]
    have hle : available c.capacity c.rate (some b) c.now ≤ b.tokens := havail ▸ min_le_right _ _
    have hpos : 0 ≤ available c.capacity c.rate (some b) c.now :=
      havail ▸ le_min (by linarith) hb
    rw [burstAdmitted_succ]
    cases le_or_gt 1 (available c.capacity c.rate (some b) c.now) with
    | inl hfull =>
      rw [scriptStep_available hfull]
      have hrest := ih (b := ⟨_, c.now⟩) rfl (sub_nonneg.mpr hfull)
      rw [List.count_singleton_self, Nat.cast_add, Nat.cast_one]
      simp only at hrest
      linarith
    | inr hempty =>
      obtain ⟨_, ⟨⟩, hstep⟩ := scriptStep_not_available hempty hc
      rw [hstep]
      have hrest := ih (b := ⟨available c.capacity c.rate (some b) c.now, b.last_time⟩) hlast hpos
      have hnone : [some (0 : Int)].count (some 1) = 0 := rfl
      rw [hnone, Nat.add_zero]
      simp only at hrest
      linarith

/--
Up to the first admitted call of the burst the refill may be credited again and again, as `last_time`
stays, but nothing is admitted.
-/
theorem burstAdmitted_le_capacity (hl : Limited (.call c)) (n : Nat) (h : Nonneg key)
    : (burstAdmitted key c n : ℚ) ≤ c.capacity := by
  induction n generalizing key with
  | zero =>
    have := hl.2
    simp only [burstAdmitted, List.replicate_zero, outputs, List.count_nil, Nat.cast_zero]
    linarith
  | succ n ih =>
    have hle : available c.capacity c.rate key c.now ≤ c.capacity := available_le key c.now
    rw [burstAdmitted_succ]
    cases le_or_gt 1 (available c.capacity c.rate key c.now) with
    | inl hfull =>
      rw [scriptStep_available hfull]
      have hrest := burstAdmitted_le_tokens hl.2 n (b := ⟨_, c.now⟩) rfl (sub_nonneg.mpr hfull)
      rw [List.count_singleton_self, Nat.cast_add, Nat.cast_one]
      simp only at hrest
      linarith
    | inr hempty =>
      have hrest := ih (scriptStep_nonneg hl h)
      obtain ⟨_, _, hstep⟩ := scriptStep_not_available hempty hl.2
      rw [hstep] at hrest ⊢
      exact hrest

/--
In a history with any times and any limits, each call stores a number of tokens in range, and a burst
is admitted at most as often as its capacity.
-/
theorem script_range {events : List KeyEvent} (hl : ∀ e ∈ events, Limited e)
    : (∀ before c after, events = before ++ .call c :: after →
        ∃ reply b, scriptStep (keyAfter before) (.call c) = (some reply, some b) ∧ InRange c reply b)
        ∧
      (∀ before c n after, events = before ++ List.replicate (n + 1) (.call c) ++ after →
        (burstAdmitted (keyAfter before) c (n + 1) : ℚ) ≤ c.capacity) := by
  constructor
  . rintro before c after rfl
    apply scriptStep_inRange
    . exact hl (.call c) (List.mem_append_right _ List.mem_cons_self)
    . exact keyAfter_nonneg fun e he => hl e (List.mem_append_left _ he)
  . rintro before c n after rfl
    have hmem : KeyEvent.call c ∈ List.replicate (n + 1) (.call c) := List.mem_cons_self
    apply burstAdmitted_le_capacity
    . exact hl _ (List.mem_append_left _ (List.mem_append_right _ hmem))
    . apply keyAfter_nonneg
      exact fun e he => hl e (List.mem_append_left _ (List.mem_append_left _ he))

/--
A denied call at 500 stores the refill of half a second and keeps `last_time`, so that the next call
of that instant credits it again. The clock goes back before the burst at 400.
-/
def regressing : List KeyEvent :=
  [.call ⟨1, 1, 0⟩, .call ⟨1, 1, 500⟩, .call ⟨1, 1, 500⟩, .removed 600, .call ⟨3, 0, 400⟩, .call ⟨3, 0, 400⟩]

example : decisions scriptStep regressing = [1, 0, 1, 1, 1] := by decide +kernel

theorem script_range_regressing
    : (∀ before c after, regressing = before ++ .call c :: after →
        ∃ reply b, scriptStep (keyAfter before) (.call c) = (some reply, some b) ∧ InRange c reply b)
        ∧
      (∀ before c n after, regressing = before ++ List.replicate (n + 1) (.call c) ++ after →
        (burstAdmitted (keyAfter before) c (n + 1) : ℚ) ≤ c.capacity) := by
  apply script_range
  simp only [regressing, List.forall_mem_cons, Limited]
  norm_num

end TokenBucket
end LFGateway
