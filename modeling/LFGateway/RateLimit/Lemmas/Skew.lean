import LFGateway.Foundation.Stretches
import LFGateway.RateLimit.Lemmas.TokenBucket

/-!
This module contains what becomes of the rate bound when the call times come from several clocks. A
call whose time lies before `last_time` credits nothing, but it sets `last_time` back, and the next
call is credited for the way up again.
-/

namespace LFGateway
namespace TokenBucket

open Foundation

variable {capacity rate : ℚ}

def AllAdmitted (capacity rate : ℚ) (key : Option Bucket) (nows : List ℚ) : Prop :=
  Meets (step capacity rate) (fun key now => (tokenBucketLuaScript capacity rate key now).reply = 1)
    key nows

instance (capacity rate : ℚ) (key : Option Bucket) (nows : List ℚ)
    : Decidable (AllAdmitted capacity rate key nows) := inferInstanceAs (Decidable (Meets _ _ _ _))

/--
If all calls of the run return 1, they are at most the capacity and what the rate allows between the
smallest and the largest call time.
-/
def SkewBound (capacity rate : ℚ) (key : Option Bucket) (nows : List ℚ) : Prop :=
  AllAdmitted capacity rate key nows
    →
  ∀ lo ∈ nows, ∀ hi ∈ nows, (∀ now ∈ nows, lo ≤ now ∧ now ≤ hi)
    →
  (nows.length : ℚ) ≤ capacity + rate * (hi - lo) / 1000

theorem AllAdmitted.cons {key : Option Bucket} {now : ℚ} {nows : List ℚ}
    (h : AllAdmitted capacity rate key (now :: nows))
    : (tokenBucketLuaScript capacity rate key now).reply = 1 ∧
        AllAdmitted capacity rate (some (tokenBucketLuaScript capacity rate key now).bucket) nows :=
  Meets.cons (t := some _) _ _ h rfl

theorem AllAdmitted.cons_bucket {key : Option Bucket} {now : ℚ} {nows : List ℚ}
    (h : AllAdmitted capacity rate key (now :: nows))
    : 1 ≤ available capacity rate key now ∧
        AllAdmitted capacity rate (some ⟨available capacity rate key now - 1, now⟩) nows := by
  obtain ⟨hcall, hrest⟩ := h.cons
  have havailable := reply_eq_one.mp hcall
  rw [script_of_available havailable] at hrest
  exact ⟨havailable, hrest⟩

/--
What was in the bucket and what the rises of the call times credit pay for all calls.
-/
theorem length_le_of_allAdmitted {nows : List ℚ} {b : Bucket} (hb : 0 ≤ b.tokens)
    (h : AllAdmitted capacity rate (some b) nows)
    : (nows.length : ℚ) ≤ b.tokens + risen (b.last_time :: nows) * (rate / 1000) := by
  induction nows generalizing b with
  | nil => simpa [risen, rises, totalLength] using hb
  | cons now nows ih =>
    obtain ⟨hone, hrest⟩ := h.cons_bucket
    have hlater := ih (b := ⟨available capacity rate (some b) now - 1, now⟩) (by simpa using hone) hrest
    have hrefill : available capacity rate (some b) now
        ≤ b.tokens + max 0 (now - b.last_time) * (rate / 1000) := by apply min_le_right
    simp only [List.length_cons, Nat.cast_add, Nat.cast_one]
    rw [risen_cons_cons, add_mul]
    linarith

/--
Where the call times never rise across a moment twice, no moment is credited twice.
-/
theorem skewBound_of_risesOnce {key : Option Bucket} {nows : List ℚ} (hr : 1 ≤ rate)
    (h : RisesOnce nows) : SkewBound capacity rate key nows := by
  intro hadmitted lo hlo hi _ hwithin
  cases nows with
  | nil => simp at hlo
  | cons now nows =>
    obtain ⟨hone, hrest⟩ := hadmitted.cons_bucket
    have hlater := length_le_of_allAdmitted (by simpa using hone) hrest
    have hfull : available capacity rate key now ≤ capacity := available_le key now
    have hspan : risen (now :: nows) ≤ hi - lo := by
      apply risen_le h _ hwithin
      have hnow := hwithin now List.mem_cons_self
      linarith
    have hcredit : risen (now :: nows) * (rate / 1000) ≤ (hi - lo) * (rate / 1000) := by
      apply mul_le_mul_of_nonneg_right hspan
      linarith
    simp only [List.length_cons, Nat.cast_add, Nat.cast_one]
    calc
      (nows.length : ℚ) + 1 ≤ capacity + (hi - lo) * (rate / 1000) := by linarith
      _ = capacity + rate * (hi - lo) / 1000 := by ring

/--
With less than two tokens in a full bucket a call only returns 1 if its time is later than that of
the call before.
-/
theorem sorted_of_allAdmitted {nows : List ℚ} {b : Bucket} (hsmall : capacity < 2)
    (hb : b.tokens < 1) (h : AllAdmitted capacity rate (some b) nows)
    : (b.last_time :: nows).Pairwise (· < ·) := by
  induction nows generalizing b with
  | nil => simp
  | cons now nows ih =>
    obtain ⟨hone, hrest⟩ := h.cons_bucket
    have hlt : b.last_time < now := by
      by_contra hback
      have hrefill : max 0 (now - b.last_time) = 0 := max_eq_left (by linarith)
      have : available capacity rate (some b) now ≤ b.tokens + 0 * (rate / 1000) := by
        rw [← hrefill]
        apply min_le_right
      linarith
    have hle : available capacity rate (some b) now ≤ capacity := available_le (some b) now
    have hlater := ih (b := ⟨available capacity rate (some b) now - 1, now⟩)
      (by dsimp only; linarith) hrest
    rw [List.pairwise_cons]
    refine ⟨?_, hlater⟩
    intro later hmem
    rw [List.mem_cons] at hmem
    cases hmem with
    | inl heq =>
      rw [heq]
      exact hlt
    | inr hmem => exact lt_trans hlt ((List.pairwise_cons.mp hlater).1 later hmem)

theorem skewBound_of_capacity_lt_two {key : Option Bucket} {nows : List ℚ} (hr : 1 ≤ rate)
    (hsmall : capacity < 2) : SkewBound capacity rate key nows := by
  intro hadmitted
  apply skewBound_of_risesOnce hr _ hadmitted
  cases nows with
  | nil => exact .nil
  | cons now nows =>
    obtain ⟨_, hrest⟩ := hadmitted.cons_bucket
    have hle : available capacity rate key now ≤ capacity := available_le key now
    have hsorted := sorted_of_allAdmitted hsmall (by dsimp only; linarith) hrest
    exact risesOnce_of_sorted (hsorted.imp le_of_lt)

/--
The call times of two gateways that take turns and whose clocks differ by `skew`.
-/
def takeTurns (skew : ℤ) (n : Nat) : List ℤ := (List.replicate n [0, skew]).flatten

theorem takeTurns_succ (skew : ℤ) (n : Nat) : takeTurns skew (n + 1) = 0 :: skew :: takeTurns skew n := by
  simp [takeTurns, List.replicate_succ]

theorem length_takeTurns (skew : ℤ) (n : Nat) : (takeTurns skew n).length = 2 * n := by
  induction n with
  | zero => rfl
  | succ n ih =>
    rw [takeTurns_succ, List.length_cons, List.length_cons, ih]
    omega

theorem mem_takeTurns {skew now : ℤ} {n : Nat} (h : now ∈ takeTurns skew n) : now = 0 ∨ now = skew := by
  induction n with
  | zero => simp [takeTurns] at h
  | succ n ih =>
    rw [takeTurns_succ, List.mem_cons, List.mem_cons] at h
    obtain h | h | h := h
    . exact .inl h
    . exact .inr h
    . exact ih h

/--
A bucket for two calls is full again whenever the second gateway has called.
-/
theorem allAdmitted_takeTurns {key : Option Bucket} {skew : ℤ} (hc : 2 ≤ capacity)
    (hskew : 0 ≤ (skew : ℚ)) (hfull : capacity ≤ skew * (rate / 1000))
    (hkey : key = none ∨ key = some ⟨capacity - 1, skew⟩) (n : Nat)
    : AllAdmitted capacity rate key ((takeTurns skew n).map Int.cast) := by
  induction n generalizing key with
  | zero => trivial
  | succ n ih =>
    have hfirst : ∃ tokens, tokenBucketLuaScript capacity rate key 0 = ⟨⟨tokens, 0⟩, 3, 1⟩ ∧
        0 ≤ tokens := by
      cases hkey with
      | inl hnone =>
        subst hnone
        have hone : 1 ≤ available capacity rate none 0 := by
          simp only [available]
          linarith
        refine ⟨_, script_of_available hone, ?_⟩
        linarith
      | inr hsome =>
        subst hsome
        have hback : available capacity rate (some ⟨capacity - 1, skew⟩) 0 = capacity - 1 := by
          simp only [available]
          rw [max_eq_left (by linarith), zero_mul, add_zero]
          apply min_eq_right
          linarith
        refine ⟨_, script_of_available (by rw [hback]; linarith), ?_⟩
        rw [hback]
        linarith
    obtain ⟨tokens, hzero, htokens⟩ := hfirst
    have hrefill : available capacity rate (some ⟨tokens, 0⟩) skew = capacity := by
      simp only [available]
      rw [sub_zero, max_eq_right hskew]
      apply min_eq_left
      linarith
    have hsecond : tokenBucketLuaScript capacity rate (some ⟨tokens, 0⟩) skew
        = ⟨⟨capacity - 1, skew⟩, 3, 1⟩ := by
      rw [script_of_available (by rw [hrefill]; linarith), hrefill]
    rw [takeTurns_succ, List.map_cons, List.map_cons, Int.cast_zero]
    unfold AllAdmitted
    rw [meets_cons_iff (t := some ⟨tokens, 0⟩) _ _ (by rw [step, hzero])]
    refine ⟨by rw [hzero], ?_⟩
    rw [meets_cons_iff (t := some ⟨capacity - 1, skew⟩) _ _ (by rw [step, hsecond])]
    exact ⟨by rw [hsecond], ih (.inr rfl)⟩

theorem exists_not_skewBound (hc : 2 ≤ capacity) (hr : 1 ≤ rate)
    : ∃ nows : List ℤ, ¬SkewBound capacity rate none (nows.map Int.cast) := by
  obtain ⟨skew, hskew⟩ := exists_nat_ge (capacity * 1000)
  obtain ⟨n, hn⟩ := exists_nat_gt (capacity + rate * skew / 1000)
  have hskew' : capacity * 1000 ≤ ((skew : ℤ) : ℚ) := by exact_mod_cast hskew
  have hrate : 1 / 1000 ≤ rate / 1000 := by linarith
  have hfull : capacity ≤ ((skew : ℤ) : ℚ) * (rate / 1000) := by
    calc
      capacity = capacity * 1000 * (1 / 1000) := by ring
      _ ≤ ((skew : ℤ) : ℚ) * (rate / 1000) := by
        apply mul_le_mul hskew' hrate
        . norm_num
        . linarith
  refine ⟨takeTurns skew (n + 1), ?_⟩
  intro hbound
  have hadmitted := allAdmitted_takeTurns hc (by linarith) hfull (.inl rfl) (n + 1)
  have hlength := hbound hadmitted 0 (by simp [takeTurns_succ]) ((skew : ℤ) : ℚ)
    (by simp [takeTurns_succ]) (by
      intro now hnow
      rw [List.mem_map] at hnow
      obtain ⟨now, hnow, rfl⟩ := hnow
      cases mem_takeTurns hnow with
      | inl h => simp [h]
      | inr h => simp [h])
  rw [List.length_map, length_takeTurns] at hlength
  simp only [Int.cast_natCast, sub_zero] at hlength
  push_cast at hlength
  linarith

/--
The bound holds of every run whose call times never rise across a moment twice. On whatever call
times come, it holds only of buckets that are too small for two calls in a row.
-/
theorem skewBound_acrossClocks (capacity rate : ℚ) (hr : 1 ≤ rate)
    : (∀ key nows, RisesOnce nows → SkewBound capacity rate key nows)
        ∧
      ((∀ nows : List ℤ, SkewBound capacity rate none (nows.map Int.cast)) ↔ capacity < 2) := by
  refine ⟨fun key nows h => skewBound_of_risesOnce hr h, ?_⟩
  constructor
  . intro hbound
    by_contra hlarge
    obtain ⟨nows, hnot⟩ := exists_not_skewBound (not_lt.mp hlarge) hr
    exact hnot (hbound nows)
  . intro hsmall nows
    exact skewBound_of_capacity_lt_two hr hsmall

/--
A clock that is set back once: the way up is credited once.
-/
theorem skewBound_acrossClocks_setBack
    : SkewBound 2 1 none [1000, 0, 1000] ∧ ¬∀ nows : List ℤ, SkewBound 2 1 none (nows.map Int.cast) := by
  have h := skewBound_acrossClocks 2 1 (by norm_num)
  refine ⟨h.1 none _ (by decide +kernel), ?_⟩
  rw [h.2]
  norm_num

/--
Two gateways whose clocks are a second apart.
-/
theorem not_skewBound_twoGateways : ¬SkewBound 2 1 none [0, 1000, 0, 1000] := by
  intro h
  have hbound := h (by decide +kernel) 0 (by decide +kernel) 1000 (by decide +kernel) (by decide +kernel)
  norm_num at hbound

end TokenBucket
end LFGateway
