import Mathlib.Algebra.Order.Archimedean.Basic
import Mathlib.Data.Rat.Floor
import Mathlib.Tactic.Linarith
import Mathlib.Tactic.Ring
import Mathlib.Tactic.NormNum
import LFGateway.RateLimit.Impl.TokenBucket

/-!
This module contains the rate bound of the token bucket script: it holds of a run as long as no
denied call leaves refill behind that the next call credits again, and it is lost from the first
such call on.
-/

namespace LFGateway
namespace TokenBucket

open Foundation

variable {capacity rate : ℚ}

/--
What `hmget` and the refill make of the stored tokens before the script compares them with 1.
-/
def refilled (capacity rate : ℚ) (b : Bucket) (now : ℚ) : ℚ :=
  min capacity (b.tokens + (now - b.last_time) * (rate / 1000))

theorem script_admits {b : Bucket} {now : ℚ} (hnow : b.last_time ≤ now)
    (h : 1 ≤ refilled capacity rate b now)
    : tokenBucketLuaScript capacity rate (some b) now
        =
      ⟨⟨refilled capacity rate b now - 1, now⟩, 3, 1⟩ := by
  have helapsed : max 0 (now - b.last_time) = now - b.last_time := max_eq_right (by linarith)
  unfold refilled at h ⊢
  simp only [tokenBucketLuaScript, helapsed, ge_iff_le, h, ↓reduceIte]

theorem script_denies {b : Bucket} {now : ℚ} (hnow : b.last_time ≤ now)
    (h : refilled capacity rate b now < 1)
    : tokenBucketLuaScript capacity rate (some b) now
        =
      ⟨⟨refilled capacity rate b now, b.last_time⟩, 3, 0⟩ := by
  have helapsed : max 0 (now - b.last_time) = now - b.last_time := max_eq_right (by linarith)
  unfold refilled at h ⊢
  simp only [tokenBucketLuaScript, helapsed, ge_iff_le, not_le.mpr h, ↓reduceIte]

theorem script_missing (hc : 1 ≤ capacity) (now : ℚ)
    : tokenBucketLuaScript capacity rate none now = ⟨⟨capacity - 1, now⟩, 3, 1⟩ := by
  simp only [tokenBucketLuaScript, ge_iff_le, hc, ↓reduceIte]

theorem step_eq_some {key key' : Option Bucket} {now : ℚ}
    (h : step capacity rate key now = some key')
    : key' = some (tokenBucketLuaScript capacity rate key now).bucket := by
  simpa [step] using h.symm

def available (capacity rate : ℚ) (key : Option Bucket) (now : ℚ) : ℚ :=
  match key with
  | none => capacity
  | some b => min capacity (b.tokens + max 0 (now - b.last_time) * (rate / 1000))

theorem available_le (key : Option Bucket) (now : ℚ) : available capacity rate key now ≤ capacity := by
  cases key with
  | none => exact le_refl capacity
  | some b => apply min_le_left

theorem script_of_available {key : Option Bucket} {now : ℚ}
    (h : 1 ≤ available capacity rate key now)
    : tokenBucketLuaScript capacity rate key now
        =
      ⟨⟨available capacity rate key now - 1, now⟩, 3, 1⟩ := by
  cases key with
  | none =>
    simp only [available] at h ⊢
    simp only [tokenBucketLuaScript, ge_iff_le, h, ↓reduceIte]
  | some b =>
    simp only [available] at h ⊢
    simp only [tokenBucketLuaScript, ge_iff_le, h, ↓reduceIte]

theorem script_of_not_available {key : Option Bucket} {now : ℚ}
    (h : available capacity rate key now < 1) (hc : 1 ≤ capacity)
    : ∃ b, key = some b ∧
        tokenBucketLuaScript capacity rate key now
          = ⟨⟨available capacity rate key now, b.last_time⟩, 3, 0⟩ := by
  cases key with
  | none => exact absurd hc (not_le.mpr h)
  | some b =>
    refine ⟨b, rfl, ?_⟩
    simp only [available] at h ⊢
    simp only [tokenBucketLuaScript, ge_iff_le, not_le.mpr h, ↓reduceIte]

theorem reply_eq_one {key : Option Bucket} {now : ℚ}
    : (tokenBucketLuaScript capacity rate key now).reply = 1
        ↔
      1 ≤ available capacity rate key now := by
  constructor
  . intro h
    by_contra hempty
    cases key with
    | none =>
      simp only [available] at hempty
      simp [tokenBucketLuaScript, hempty] at h
    | some b =>
      simp only [available] at hempty
      simp [tokenBucketLuaScript, hempty] at h
  . intro h
    rw [script_of_available h]

def Stored (capacity : ℚ) (key : Option Bucket) : Prop :=
  ∃ b, key = some b ∧ 0 ≤ b.tokens ∧ b.tokens ≤ capacity

def Settles (rate : ℚ) (key : Option Bucket) (now : ℚ) : Prop :=
  (∀ b, key = some b → b.last_time ≤ now) ∧ SettlesRefill rate key now

/--
The tokens left in the bucket, they pay for the calls to come.
-/
def potential (key : Option Bucket) : ℚ :=
  match key with
  | none => 0
  | some b => b.tokens

def clock (key : Option Bucket) : ℚ :=
  match key with
  | none => 0
  | some b => b.last_time

theorem settled_call {b : Bucket} {now : ℚ} (hc : 1 ≤ capacity) (hr : 1 ≤ rate)
    (h : Settles rate (some b) now) (hb : 0 ≤ b.tokens)
    : ∃ b', (tokenBucketLuaScript capacity rate (some b) now).bucket = b' ∧
        b'.last_time = now ∧
        admits capacity rate (some b) now + b'.tokens = refilled capacity rate b now ∧
        0 ≤ b'.tokens := by
  obtain ⟨hmono, hsettle⟩ := h
  have hnow : b.last_time ≤ now := hmono b rfl
  have hrefill : 0 ≤ (now - b.last_time) * (rate / 1000) := by
    apply mul_nonneg
    . linarith
    . linarith
  refine ⟨_, rfl, ?_⟩
  cases le_or_gt 1 (refilled capacity rate b now) with
  | inl hfull =>
    simp only [admits, script_admits hnow hfull, ↓reduceIte, true_and]
    refine ⟨by ring, by linarith⟩
  | inr hempty =>
    -- a denied call keeps the old `last_time`, so the refill can only be zero here
    have hlast : now = b.last_time := by
      cases hsettle with
      | inl heq => exact heq
      | inr hge =>
        exfalso
        have := le_min hc hge
        unfold refilled at hempty
        linarith
    simp only [admits, script_denies hnow hempty]
    refine ⟨hlast.symm, by simp, ?_⟩
    unfold refilled
    apply le_min
    . linarith
    . linarith

theorem refilled_le_capacity (b : Bucket) (now : ℚ) : refilled capacity rate b now ≤ capacity := by
  apply min_le_left

theorem refilled_le (b : Bucket) (now : ℚ)
    : refilled capacity rate b now ≤ b.tokens + rate / 1000 * (now - b.last_time) := by
  unfold refilled
  rw [mul_comm]
  apply min_le_right

theorem admits_nonneg (key : Option Bucket) (now : ℚ) : 0 ≤ admits capacity rate key now := by
  unfold admits
  split
  . norm_num
  . norm_num

/--
While every call settles the refill, the stored tokens pay for the calls that are let through.
-/
theorem amortizes (hc : 1 ≤ capacity) (hr : 1 ≤ rate)
    : Amortizes (step capacity rate) (admits capacity rate) (Stored capacity) (Settles rate)
        potential clock (rate / 1000) where
  keeps := by
    rintro _ now key' ⟨b, rfl, hb, _⟩ hC hstep
    obtain ⟨b', hb', _, hpaid, hpos⟩ := settled_call hc hr hC hb
    rw [step_eq_some hstep]
    refine ⟨b', by rw [hb'], hpos, ?_⟩
    have : refilled capacity rate b now ≤ capacity := refilled_le_capacity b now
    have : 0 ≤ admits capacity rate (some b) now := admits_nonneg (some b) now
    linarith
  pays := by
    rintro _ now key' ⟨b, rfl, hb, _⟩ hC hstep
    obtain ⟨b', hb', hlast, hpaid, _⟩ := settled_call hc hr hC hb
    rw [step_eq_some hstep, hb']
    simp only [potential, clock, hlast]
    rw [hpaid]
    apply refilled_le
  nonneg := by
    rintro _ ⟨b, rfl, hb, _⟩
    exact hb

theorem first_call_le {key key' : Option Bucket} {now : ℚ} (hc : 1 ≤ capacity) (hr : 1 ≤ rate)
    (hkey : key = none ∨ Stored capacity key) (hC : Settles rate key now)
    (hstep : step capacity rate key now = some key')
    : Stored capacity key' ∧ clock key' = now ∧
        admits capacity rate key now + potential key' ≤ capacity := by
  cases hkey with
  | inl hnone =>
    subst hnone
    rw [step_eq_some hstep]
    simp only [script_missing hc, admits, clock, potential, ↓reduceIte, true_and]
    refine ⟨⟨_, rfl, ?_, ?_⟩, ?_⟩
    . simp only
      linarith
    . simp
    . linarith
  | inr hstored =>
    obtain ⟨b, rfl, hb, hle⟩ := hstored
    have hnext := (amortizes hc hr).keeps (some b) now key' ⟨b, rfl, hb, hle⟩ hC hstep
    obtain ⟨b', hb', hlast, hpaid, _⟩ := settled_call hc hr hC hb
    rw [step_eq_some hstep, hb'] at hnext ⊢
    refine ⟨hnext, hlast, ?_⟩
    simp only [potential]
    rw [hpaid]
    apply refilled_le_capacity

theorem stored_of_settles {nows : List ℚ} {key key' : Option Bucket} (hc : 1 ≤ capacity)
    (hr : 1 ≤ rate) (hkey : key = none ∨ Stored capacity key)
    (hC : Meets (step capacity rate) (Settles rate) key nows)
    (hexec : exec (step capacity rate) key nows = some key')
    : key' = none ∨ Stored capacity key' := by
  apply exec_invariant_of_meets (step capacity rate) (Settles rate)
    (P := fun key => key = none ∨ Stored capacity key) _ hkey hC hexec
  intro s now s' hs hC hstep
  right
  exact (first_call_le hc hr hs hC hstep).1

theorem clock_of_settles {key : Option Bucket} {now : ℚ} (hc : 1 ≤ capacity) (hr : 1 ≤ rate)
    (hkey : key = none ∨ Stored capacity key) (hC : Settles rate key now)
    : (tokenBucketLuaScript capacity rate key now).bucket.last_time = now := by
  have hclock : clock (some (tokenBucketLuaScript capacity rate key now).bucket) = now :=
    (first_call_le hc hr hkey hC rfl).2.1
  exact hclock

theorem settles_of_sorted {nows : List ℚ} {key : Option Bucket} (hc : 1 ≤ capacity) (hr : 1 ≤ rate)
    (hkey : key = none ∨ Stored capacity key) (hsorted : nows.Pairwise (· ≤ ·))
    (hfirst : ∀ b, key = some b → ∀ now ∈ nows, b.last_time ≤ now)
    (h : Meets (step capacity rate) (SettlesRefill rate) key nows)
    : Meets (step capacity rate) (Settles rate) key nows := by
  induction nows generalizing key with
  | nil => trivial
  | cons now nows ih =>
    obtain ⟨hcall, hrest⟩ := h.cons (t := some _) _ _ rfl
    rw [List.pairwise_cons] at hsorted
    have hC : Settles rate key now := ⟨fun b hb => hfirst b hb now (by simp), hcall⟩
    rw [meets_cons_iff (t := some _) _ _ rfl]
    refine ⟨hC, ?_⟩
    apply ih
    . right
      exact (first_call_le hc hr hkey hC rfl).1
    . exact hsorted.2
    . intro b hb later hlater
      have hlast := clock_of_settles hc hr hkey hC
      rw [Option.some.injEq] at hb
      rw [← hb, hlast]
      exact hsorted.1 later hlater
    . exact hrest

theorem exec_total (capacity rate : ℚ) (key : Option Bucket) (nows : List ℚ)
    : ∃ key', exec (step capacity rate) key nows = some key' := by
  induction nows generalizing key with
  | nil => exact ⟨key, rfl⟩
  | cons now nows ih =>
    obtain ⟨key', h⟩ := ih (some (tokenBucketLuaScript capacity rate key now).bucket)
    exact ⟨key', (exec_cons_eq_some _).mpr ⟨_, rfl, h⟩⟩

theorem clock_getLast {nows : List ℚ} {key key' : Option Bucket} (hc : 1 ≤ capacity) (hr : 1 ≤ rate)
    (hkey : key = none ∨ Stored capacity key)
    (hC : Meets (step capacity rate) (Settles rate) key nows)
    (hexec : exec (step capacity rate) key nows = some key') (hne : nows ≠ [])
    : clock key' = nows.getLast hne := by
  induction nows generalizing key with
  | nil => contradiction
  | cons now nows ih =>
    obtain ⟨t, hl, hls⟩ := (exec_cons_eq_some _).mp hexec
    obtain ⟨hcall, hrest⟩ := hC.cons _ _ hl
    have hfirst := first_call_le hc hr hkey hcall hl
    cases nows with
    | nil =>
      rw [exec_nil, Option.some.injEq] at hls
      rw [← hls]
      exact hfirst.2.1
    | cons now' nows =>
      rw [List.getLast_cons (by simp)]
      exact ih (.inr hfirst.1) hrest hls (by simp)

theorem rateBound_of_settles {nows : List ℚ} (hc : 1 ≤ capacity) (hr : 1 ≤ rate)
    (hsorted : nows.Pairwise (· ≤ ·))
    (h : Meets (step capacity rate) (SettlesRefill rate) none nows)
    : RateBound capacity rate nows := by
  intro before block after key hne hnows hbefore
  have hC := settles_of_sorted hc hr (.inl rfl) hsorted (by simp) h
  rw [hnows, List.append_assoc, meets_append_iff _ _ hbefore] at hC
  obtain ⟨hCbefore, hCrest⟩ := hC
  obtain ⟨key', hblock⟩ := exec_total capacity rate key block
  rw [meets_append_iff _ _ hblock] at hCrest
  have hkey := stored_of_settles hc hr (.inl rfl) hCbefore hbefore
  have hend := clock_getLast hc hr hkey hCrest.1 hblock hne
  cases block with
  | nil => contradiction
  | cons first rest =>
    obtain ⟨t, hl, hls⟩ := (exec_cons_eq_some _).mp hblock
    obtain ⟨hcall, hCblock⟩ := hCrest.1.cons _ _ hl
    obtain ⟨hstored, hclock, hcap⟩ := first_call_le hc hr hkey hcall hl
    have hbound := (amortizes hc hr).totalCost_block_le hl hstored hcap hCblock hls
    rw [hclock, hend] at hbound
    simp only [admitted, List.head_cons]
    calc
      _ ≤ capacity + rate / 1000 * ((first :: rest).getLast hne - first) := hbound
      _ = _ := by ring

end TokenBucket
end LFGateway
