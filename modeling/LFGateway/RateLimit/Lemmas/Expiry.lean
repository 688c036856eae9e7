import LFGateway.RateLimit.Impl.Expiry
import LFGateway.RateLimit.Lemmas.TokenBucket

/-!
This module contains two comparisons of the script with machines that run on the same history of a
key: it never falls behind the token bucket that records every call, and it does not notice that Redis
removes the key.
-/

namespace LFGateway
namespace TokenBucket

open Foundation

variable {capacity rate : ℚ} {key bucket : Option Bucket} {events : List KeyEvent}

section Reference

theorem referenceBucket_eq {now : ℚ} (h : ∀ b, bucket = some b → b.last_time ≤ now)
    : referenceBucket capacity rate bucket now
        =
      if 1 ≤ available capacity rate bucket now then
        (1, ⟨available capacity rate bucket now - 1, now⟩)
      else
        (0, ⟨available capacity rate bucket now, now⟩) := by
  cases bucket with
  | none => rfl
  | some b =>
    have helapsed : max 0 (now - b.last_time) = now - b.last_time :=
      max_eq_right (sub_nonneg.mpr (h b rfl))
    simp only [referenceBucket, available, helapsed, ge_iff_le]

structure Spends (a : ℚ) (n : Nat) (tokens : ℚ) : Prop where
  le_one : n ≤ 1
  iff : n = 1 ↔ 1 ≤ a
  tokens_eq : tokens = a - n

theorem spends_one {a : ℚ} (h : 1 ≤ a) : Spends a 1 (a - 1) :=
  ⟨le_rfl, iff_of_true rfl h, by rw [Nat.cast_one]⟩

theorem spends_zero {a : ℚ} (h : ¬1 ≤ a) : Spends a 0 a :=
  ⟨Nat.zero_le 1, iff_of_false (by decide) h, by rw [Nat.cast_zero, sub_zero]⟩

theorem scriptStep_call {c : ScriptCall} (hc : 1 ≤ c.capacity)
    (hkey : ∀ b, key = some b → b.last_time ≤ c.now)
    : ∃ b, (scriptStep key (.call c)).2 = some b ∧ b.last_time ≤ c.now ∧
        Spends (available c.capacity c.rate key c.now)
          ([(scriptStep key (.call c)).1].count (some 1)) b.tokens := by
  by_cases hfull : 1 ≤ available c.capacity c.rate key c.now
  . simp only [scriptStep, script_of_available hfull]
    exact ⟨_, rfl, le_refl c.now, spends_one hfull⟩
  . obtain ⟨b, hb, hscript⟩ := script_of_not_available (not_le.mp hfull) hc
    simp only [scriptStep, hscript]
    exact ⟨_, rfl, hkey b hb, spends_zero hfull⟩

theorem referenceStep_call {c : ScriptCall} (hbucket : ∀ r, bucket = some r → r.last_time ≤ c.now)
    : ∃ r, (referenceStep bucket (.call c)).2 = some r ∧ r.last_time = c.now ∧
        Spends (available c.capacity c.rate bucket c.now)
          ([(referenceStep bucket (.call c)).1].count (some 1)) r.tokens := by
  simp only [referenceStep, referenceBucket_eq hbucket]
  by_cases hfull : 1 ≤ available c.capacity c.rate bucket c.now
  . simp only [hfull, ↓reduceIte]
    exact ⟨_, rfl, rfl, spends_one hfull⟩
  . simp only [hfull, ↓reduceIte]
    exact ⟨_, rfl, rfl, spends_zero hfull⟩

/--
The script has admitted `d` calls more than the reference bucket. What the bucket has and the script
does not is made up for by `d`.
-/
structure Leads (capacity rate : ℚ) (d : Nat) (key bucket : Option Bucket) (events : List KeyEvent)
    : Prop where
  limits : ∀ e ∈ events, e.HasLimits capacity rate
  order : events.Pairwise KeyEvent.InOrder
  start : bucket = none → key = none
  past : ∀ r, bucket = some r → ∀ c, KeyEvent.call c ∈ events → r.last_time ≤ c.now
  tokens : ∀ r b, bucket = some r → key = some b →
    b.last_time ≤ r.last_time ∧ r.tokens ≤ b.tokens + d

theorem Leads.available_le {d : Nat} (h : Leads capacity rate d key bucket events) (hr : 0 ≤ rate)
    (now : ℚ) : available capacity rate bucket now ≤ available capacity rate key now + d := by
  have hd : (0 : ℚ) ≤ d := Nat.cast_nonneg d
  have hfull : available capacity rate bucket now ≤ capacity := TokenBucket.available_le bucket now
  cases key with
  | none =>
    simp only [available] at hfull ⊢
    linarith
  | some b =>
    cases bucket with
    | none => exact absurd (h.start rfl) (by simp)
    | some r =>
      obtain ⟨hlast, htokens⟩ := h.tokens r b rfl rfl
      have helapsed : max 0 (now - r.last_time) ≤ max 0 (now - b.last_time) :=
        max_le_max (le_refl 0) (by linarith)
      have hrefill := mul_le_mul_of_nonneg_right helapsed (by linarith : 0 ≤ rate / 1000)
      simp only [available]
      rw [← min_add_add_right]
      apply min_le_min
      . linarith
      . linarith

theorem Leads.call {d : Nat} {c : ScriptCall} (h : Leads capacity rate d key bucket (.call c :: events))
    (hc : 1 ≤ capacity) (hr : 0 ≤ rate)
    : ∃ d', d' + [(referenceStep bucket (.call c)).1].count (some 1)
              = d + [(scriptStep key (.call c)).1].count (some 1) ∧
        Leads capacity rate d' (scriptStep key (.call c)).2 (referenceStep bucket (.call c)).2 events := by
  obtain ⟨hcapacity, hrate⟩ := h.limits (.call c) List.mem_cons_self
  subst hcapacity hrate
  obtain ⟨hlater, horder⟩ := List.pairwise_cons.mp h.order
  have hbucket : ∀ r, bucket = some r → r.last_time ≤ c.now := fun r hr =>
    h.past r hr c List.mem_cons_self
  have hkey : ∀ b, key = some b → b.last_time ≤ c.now := by
    intro b hb
    cases hr : bucket with
    | none => exact absurd (h.start hr) (by simp [hb])
    | some r => exact (h.tokens r b hr hb).1.trans (hbucket r hr)
  have hlead := h.available_le hr c.now
  obtain ⟨b, hb, hblast, hspends⟩ := scriptStep_call hc hkey
  obtain ⟨r, hr, hrlast, hspends'⟩ := referenceStep_call hbucket
  rw [hb, hr]
  generalize [(scriptStep key (.call c)).1].count (some 1) = n at hspends
  generalize [(referenceStep bucket (.call c)).1].count (some 1) = n' at hspends'
  have hle : n' ≤ d + n := by
    by_contra hlt
    -- only a lead of zero could turn negative, and then the script has the tokens as well
    have hn' : n' = 1 := by have := hspends'.le_one; omega
    have hd : d = 0 := by omega
    have hn : n ≠ 1 := by omega
    rw [hd, Nat.cast_zero, add_zero] at hlead
    exact hn (hspends.iff.mpr ((hspends'.iff.mp hn').trans hlead))
  refine ⟨d + n - n', by omega, ?_⟩
  constructor
  . exact fun e he => h.limits e (List.mem_cons_of_mem _ he)
  . exact horder
  . simp
  . intro r' hr' c' hc'
    rw [Option.some.injEq] at hr'
    rw [← hr', hrlast]
    exact hlater (.call c') hc'
  . intro r' b' hr' hb'
    rw [Option.some.injEq] at hr' hb'
    rw [← hr', ← hb', hrlast]
    refine ⟨hblast, ?_⟩
    rw [hspends.tokens_eq, hspends'.tokens_eq, Nat.cast_sub hle, Nat.cast_add]
    linarith

theorem Leads.removed {d : Nat} {at' : ℚ} (h : Leads capacity rate d key bucket (.removed at' :: events))
    : Leads capacity rate d none bucket events where
  limits := fun e he => h.limits e (List.mem_cons_of_mem _ he)
  order := (List.pairwise_cons.mp h.order).2
  start := fun _ => rfl
  past := fun r hr c hc => h.past r hr c (List.mem_cons_of_mem _ hc)
  tokens := fun _ _ _ hb => absurd hb (by simp)

/--
Whenever Redis removes the key, the script has admitted at least as many calls as the reference bucket
after every part of a history whose call times do not go back.
-/
theorem referenceAdmitted_le {history : List KeyEvent} (hc : 1 ≤ capacity) (hr : 1 ≤ rate)
    (hlimits : ∀ e ∈ history, e.HasLimits capacity rate) (horder : history.Pairwise KeyEvent.InOrder)
    (hbegin : events <+: history) : referenceAdmitted events ≤ scriptAdmitted events := by
  have hstart : Leads capacity rate 0 none none events := by
    constructor
    . exact fun e he => hlimits e (hbegin.subset he)
    . exact horder.sublist hbegin.sublist
    . exact fun _ => rfl
    . simp
    . simp
  have hstep : ∀ d key bucket e events, Leads capacity rate d key bucket (e :: events) →
      ∃ d', d' + [(referenceStep bucket e).1].count (some 1) = d + [(scriptStep key e).1].count (some 1) ∧
        Leads capacity rate d' (scriptStep key e).2 (referenceStep bucket e).2 events := by
    intro d key bucket e events h
    cases e with
    | call c => exact h.call hc (by linarith)
    | removed at' => exact ⟨d, rfl, h.removed⟩
  have hcount := count_outputs_le_of_lead hstep hstart
  rwa [Nat.zero_add] at hcount

end Reference

section Removal

def Respects (last_time : ℚ) : KeyEvent → Prop
  | .call c => last_time ≤ c.now
  | .removed at' => last_time + 1000 * 3 ≤ at'

theorem respects_of_precedes {c : ScriptCall} {e : KeyEvent} (h : KeyEvent.Precedes (.call c) e)
    : Respects c.now e := by
  cases e with
  | call => exact h
  | removed => exact h

/--
The key as it would be if Redis never removed it: the tokens are not negative, and everything to come
keeps the distance from `last_time`.
-/
structure Kept (kept : Option Bucket) (events : List KeyEvent) : Prop where
  nonneg : ∀ b, kept = some b → 0 ≤ b.tokens
  respects : ∀ b, kept = some b → ∀ e ∈ events, Respects b.last_time e

/--
A key that was removed would have been filled up by the next call.
-/
structure Hidden (key kept : Option Bucket) (events : List KeyEvent) : Prop where
  fills : ∀ e ∈ events, e.FillsInTime
  order : events.Pairwise KeyEvent.Precedes
  sound : Kept kept events
  same : key = kept ∨ key = none ∧ ∀ b, kept = some b → ∀ e ∈ events, b.last_time + 1000 * 3 ≤ e.time

theorem available_of_removed {b : Bucket} {now : ℚ} (hfill : capacity ≤ 3 * rate) (hr : 1 ≤ rate)
    (hb : 0 ≤ b.tokens) (h : b.last_time + 1000 * 3 ≤ now)
    : available capacity rate (some b) now = available capacity rate none now := by
  have helapsed : 1000 * 3 ≤ max 0 (now - b.last_time) := le_max_of_le_right (by linarith)
  have hrefill := mul_le_mul_of_nonneg_right helapsed (by linarith : 0 ≤ rate / 1000)
  simp only [available]
  apply min_eq_left
  linarith

theorem Hidden.script_eq {c : ScriptCall} (h : Hidden key kept (.call c :: events))
    : scriptStep key (.call c) = scriptStep kept (.call c) := by
  cases h.same with
  | inl heq => rw [heq]
  | inr hlost =>
    obtain ⟨hnone, hlast⟩ := hlost
    cases hkept : kept with
    | none => rw [hnone]
    | some b =>
      obtain ⟨hr, hc, hfill⟩ := h.fills (.call c) List.mem_cons_self
      have hsame : available c.capacity c.rate (some b) c.now = available c.capacity c.rate none c.now :=
        available_of_removed hfill hr (h.sound.nonneg b hkept) (hlast b hkept (.call c) List.mem_cons_self)
      have hfull : 1 ≤ available c.capacity c.rate none c.now := hc
      rw [hnone]
      simp only [scriptStep]
      rw [script_of_available hfull, script_of_available (hsame ▸ hfull), hsame]

theorem available_nonneg (hc : 0 ≤ capacity) (hr : 0 ≤ rate) (h : ∀ b, key = some b → 0 ≤ b.tokens)
    (now : ℚ) : 0 ≤ available capacity rate key now := by
  cases key with
  | none => exact hc
  | some b =>
    have hrefill := mul_nonneg (le_max_left 0 (now - b.last_time)) (by linarith : 0 ≤ rate / 1000)
    have hb := h b rfl
    simp only [available]
    apply le_min hc
    linarith

theorem Hidden.call {c : ScriptCall} (h : Hidden key kept (.call c :: events))
    : Hidden (scriptStep key (.call c)).2 (keptStep kept (.call c)).2 events := by
  obtain ⟨hr, hc, _⟩ := h.fills (.call c) List.mem_cons_self
  obtain ⟨hlater, horder⟩ := List.pairwise_cons.mp h.order
  have hkept : ∀ b, kept = some b → b.last_time ≤ c.now := fun b hb =>
    h.sound.respects b hb (.call c) List.mem_cons_self
  constructor
  . exact fun e he => h.fills e (List.mem_cons_of_mem _ he)
  . exact horder
  . by_cases hfull : 1 ≤ available c.capacity c.rate kept c.now
    . simp only [keptStep, scriptStep, script_of_available hfull]
      constructor
      . rintro b ⟨⟩
        exact sub_nonneg.mpr hfull
      . rintro b ⟨⟩ e he
        exact respects_of_precedes (hlater e he)
    . obtain ⟨b, hb, hscript⟩ := script_of_not_available (not_le.mp hfull) hc
      simp only [keptStep, scriptStep, hscript]
      constructor
      . rintro b' ⟨⟩
        exact available_nonneg (by linarith) (by linarith) h.sound.nonneg c.now
      . rintro b' ⟨⟩ e he
        exact h.sound.respects b hb e (List.mem_cons_of_mem _ he)
  . left
    rw [h.script_eq]
    rfl

theorem Hidden.removed {at' : ℚ} (h : Hidden key kept (.removed at' :: events))
    : Hidden none kept events := by
  obtain ⟨hlater, horder⟩ := List.pairwise_cons.mp h.order
  constructor
  . exact fun e he => h.fills e (List.mem_cons_of_mem _ he)
  . exact horder
  . constructor
    . exact h.sound.nonneg
    . exact fun b hb e he => h.sound.respects b hb e (List.mem_cons_of_mem _ he)
  . right
    refine ⟨rfl, fun b hb e he => ?_⟩
    have hat : b.last_time + 1000 * 3 ≤ at' := h.sound.respects b hb (.removed at') List.mem_cons_self
    have htime : at' ≤ e.time := hlater e he
    exact hat.trans htime

/--
Where every call has a capacity that three seconds of its rate fill, the decisions are the same whether
Redis removes the key, three seconds behind a call at the earliest, or never does.
-/
theorem decisions_scriptStep (hfills : ∀ e ∈ events, e.FillsInTime)
    (horder : events.Pairwise KeyEvent.Precedes)
    : decisions scriptStep events = decisions keptStep events := by
  have hstart : Hidden none none events :=
    ⟨hfills, horder, ⟨by simp, by simp⟩, .inl rfl⟩
  unfold decisions
  rw [outputs_eq_of_related (R := Hidden) _ hstart]
  intro key kept e events h
  cases e with
  | call c => exact ⟨congrArg Prod.fst h.script_eq, h.call⟩
  | removed at' => exact ⟨rfl, h.removed⟩

def smallLimit (now : ℚ) : KeyEvent := .call ⟨2, 1, now⟩

/--
The script credits the fifth call with the half second that it has credited the third with. The key is
removed before the last call.
-/
def removedOnce : List KeyEvent :=
  [smallLimit 0, smallLimit 0, smallLimit 500, smallLimit 500, smallLimit 600, .removed 3600, smallLimit 3700]

theorem referenceAdmitted_le_removedOnce : referenceAdmitted removedOnce ≤ scriptAdmitted removedOnce :=
  referenceAdmitted_le (by norm_num : (1 : ℚ) ≤ 2) (by norm_num : (1 : ℚ) ≤ 1) (by decide +kernel)
    (by decide +kernel) (List.prefix_refl _)

theorem decisions_scriptStep_removedOnce
    : decisions scriptStep removedOnce = decisions keptStep removedOnce :=
  decisions_scriptStep (by decide +kernel) (by decide +kernel)

end Removal

end TokenBucket
end LFGateway
