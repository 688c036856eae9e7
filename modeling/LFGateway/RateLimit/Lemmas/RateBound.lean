import Mathlib.Data.List.Induction
import LFGateway.RateLimit.Lemmas.TokenBucket

/-!
This module shows that settling the refill is exactly what the rate bound needs: once a denied call
leaves refill against an old `last_time`, repeating that call admits more than the rate allows.
-/

namespace LFGateway
namespace TokenBucket

open Foundation

variable {capacity rate : ℚ}

theorem admitted_append {key key' : Option Bucket} {nows nows' : List ℚ}
    (h : exec (step capacity rate) key nows = some key')
    : admitted capacity rate key (nows ++ nows')
        =
      admitted capacity rate key nows + admitted capacity rate key' nows' := by
  unfold admitted
  rw [totalCost_append _ _ h]

/--
Since the last call that found the bucket full, every token is accounted for.
-/
theorem exists_exact_block {nows : List ℚ} {b : Bucket} (hc : 1 ≤ capacity) (hr : 1 ≤ rate)
    (hne : nows ≠ []) (hC : Meets (step capacity rate) (Settles rate) none nows)
    (hexec : exec (step capacity rate) none nows = some (some b))
    : ∃ before block key, ∃ hblock : block ≠ [],
        nows = before ++ block ∧
        exec (step capacity rate) none before = some key ∧
        exec (step capacity rate) key block = some (some b) ∧
        admitted capacity rate key block + b.tokens
          =
        capacity + rate * (b.last_time - block.head hblock) / 1000 := by
  induction nows using List.reverseRecOn generalizing b with
  | nil => contradiction
  | append_singleton nows now ih =>
    obtain ⟨key, hkey, hlast⟩ := (exec_append_eq_some _).mp hexec
    obtain ⟨hCnows, hCnow⟩ := (meets_append_iff _ _ hkey).mp hC
    have hcall := (hCnow.cons (t := some _) _ _ rfl).1
    have hb : (tokenBucketLuaScript capacity rate key now).bucket = b := by
      simpa [exec, step] using hlast
    cases stored_of_settles hc hr (.inl rfl) hCnows hkey with
    | inl hnone =>
      subst hnone
      refine ⟨nows, [now], none, by simp, rfl, hkey, hlast, ?_⟩
      rw [script_missing hc] at hb
      simp [← hb, admitted, totalCost, step, admits, script_missing hc]
    | inr hstored =>
      obtain ⟨b0, rfl, hb0, _⟩ := hstored
      have hnows : nows ≠ [] := by
        intro hnil
        subst hnil
        simp at hkey
      obtain ⟨b', hb', hclock, hpaid, _⟩ := settled_call hc hr hcall hb0
      rw [hb] at hb'
      subst hb'
      have hone : admitted capacity rate (some b0) [now] = admits capacity rate (some b0) now := by
        simp [admitted, totalCost, step]
      have hcases := min_choice capacity (b0.tokens + (now - b0.last_time) * (rate / 1000))
      change refilled capacity rate b0 now = _ ∨ refilled capacity rate b0 now = _ at hcases
      cases hcases with
      | inl hfull =>
        refine ⟨nows, [now], some b0, by simp, rfl, hkey, hlast, ?_⟩
        rw [hone, hpaid, hfull, hclock]
        simp
      | inr hpartial =>
        obtain ⟨before, block, key, hblock, hsplit, hbefore, hrun, hexact⟩ := ih hnows hCnows hkey
        refine ⟨before, block ++ [now], key, by simp, ?_, hbefore, ?_, ?_⟩
        . rw [hsplit, List.append_assoc]
        . exact (exec_append_eq_some _).mpr ⟨some b0, hrun, hlast⟩
        . rw [admitted_append hrun, hone, add_assoc, hpaid, hpartial, hclock]
          rw [List.head_append_of_ne_nil hblock]
          calc
            _ = (admitted capacity rate key block + b0.tokens)
                  + (now - b0.last_time) * (rate / 1000) := by ring
            _ = _ := by
              rw [hexact]
              ring

/--
Repeating a call later than `last_time` is admitted in the end: every denied repetition credits the
same refill again.
-/
theorem exists_repeat_admitted {b : Bucket} {now : ℚ} (hc : 1 ≤ capacity) (hr : 1 ≤ rate)
    (hnow : b.last_time < now)
    : ∃ k, 1 ≤ admitted capacity rate (some b) (List.replicate (k + 1) now) := by
  have hpos : 0 < (now - b.last_time) * (rate / 1000) := by
    apply mul_pos
    . linarith
    . linarith
  obtain ⟨n, hn⟩ := Archimedean.arch (1 - b.tokens) hpos
  rw [nsmul_eq_mul] at hn
  -- `n` more refills make up a token, the induction is on how many are still missing
  induction n generalizing b with
  | zero =>
    refine ⟨0, ?_⟩
    have hfull : 1 ≤ refilled capacity rate b now := by
      apply le_min hc
      simp only [Nat.cast_zero, zero_mul] at hn
      linarith
    simp [admitted, totalCost, step, admits, script_admits hnow.le hfull]
  | succ n ih =>
    cases le_or_gt 1 (refilled capacity rate b now) with
    | inl hfull =>
      refine ⟨0, ?_⟩
      simp [admitted, totalCost, step, admits, script_admits hnow.le hfull]
    | inr hempty =>
      have hdeny := script_denies hnow.le hempty
      have htokens : refilled capacity rate b now
          = b.tokens + (now - b.last_time) * (rate / 1000) := by
        cases min_choice capacity (b.tokens + (now - b.last_time) * (rate / 1000)) with
        | inl hfull =>
          unfold refilled at hempty
          rw [hfull] at hempty
          linarith
        | inr h => exact h
      obtain ⟨k, hk⟩ := ih (b := ⟨refilled capacity rate b now, b.last_time⟩) hnow hpos (by
        simp only
        rw [htokens]
        push_cast at hn
        linarith)
      refine ⟨k + 1, ?_⟩
      rw [List.replicate_succ]
      unfold admitted at hk ⊢
      rw [totalCost_cons (t := some ⟨refilled capacity rate b now, b.last_time⟩)]
      . have : 0 ≤ admits capacity rate (some b) now := admits_nonneg (some b) now
        linarith
      . simp [step, hdeny]

/--
The first call that does not settle the refill breaks the rate bound once it is repeated.
-/
theorem not_rateBound_of_not_settles {earlier : List ℚ} {key : Option Bucket} {now : ℚ}
    (hc : 1 ≤ capacity) (hr : 1 ≤ rate)
    (hC : Meets (step capacity rate) (Settles rate) none earlier)
    (hexec : exec (step capacity rate) none earlier = some key)
    (hnow : ∀ b, key = some b → b.last_time ≤ now) (h : ¬SettlesRefill rate key now)
    : ∃ k, ¬RateBound capacity rate (earlier ++ List.replicate (k + 1) now) := by
  cases key with
  | none => exact absurd trivial h
  | some b =>
    simp only [SettlesRefill, not_or, not_le] at h
    obtain ⟨hne, hshort⟩ := h
    have hlt : b.last_time < now := lt_of_le_of_ne (hnow b rfl) (fun heq => hne heq.symm)
    have hearlier : earlier ≠ [] := by
      intro hnil
      subst hnil
      simp at hexec
    obtain ⟨before, block, key, hblock, hsplit, hbefore, hrun, hexact⟩ :=
      exists_exact_block hc hr hearlier hC hexec
    obtain ⟨k, hk⟩ := exists_repeat_admitted hc hr hlt
    refine ⟨k, ?_⟩
    intro hbound
    have hover := hbound before (block ++ List.replicate (k + 1) now) [] key (by simp)
      (by rw [hsplit]; simp) hbefore
    rw [admitted_append hrun] at hover
    rw [List.head_append_of_ne_nil hblock] at hover
    rw [List.getLast_append_of_ne_nil _ (by simp), List.getLast_replicate] at hover
    -- the repeated calls spend a token that neither the capacity nor the elapsed time pays for
    have hrest : rate * (now - block.head hblock) / 1000
        = rate * (b.last_time - block.head hblock) / 1000
          + (now - b.last_time) * (rate / 1000) := by ring
    linarith

theorem settlesRefill_repeated {key : Option Bucket} {now : ℚ} (hc : 1 ≤ capacity) (hr : 1 ≤ rate)
    (hkey : key = none ∨ Stored capacity key) (hC : Settles rate key now) (k : Nat)
    : Meets (step capacity rate) (SettlesRefill rate) key (List.replicate (k + 1) now) := by
  induction k generalizing key with
  | zero =>
    exact ⟨hC.2, trivial⟩
  | succ k ih =>
    rw [List.replicate_succ, meets_cons_iff (t := some _) _ _ rfl]
    refine ⟨hC.2, ih ?_ ?_⟩
    . right
      exact (first_call_le hc hr hkey hC rfl).1
    . have hlast := clock_of_settles hc hr hkey hC
      refine ⟨?_, .inl hlast.symm⟩
      intro b hb
      rw [Option.some.injEq] at hb
      rw [← hb]
      exact hlast.le

/--
The rate bound holds of every run whose calls all settle the refill. These are exactly the runs of
which it stays true when any of their calls is repeated at the same time.
-/
theorem rateBound_repeated_iff_settles (capacity rate : ℚ) (hc : 1 ≤ capacity) (hr : 1 ≤ rate)
    (nows : List ℚ) (hsorted : nows.Pairwise (· ≤ ·))
    : (Meets (step capacity rate) (SettlesRefill rate) none nows → RateBound capacity rate nows) ∧
      ((∀ earlier now, earlier ++ [now] <+: nows →
          ∀ k, RateBound capacity rate (earlier ++ List.replicate (k + 1) now))
          ↔
        Meets (step capacity rate) (SettlesRefill rate) none nows) := by
  refine ⟨rateBound_of_settles hc hr hsorted, ?_⟩
  constructor
  . intro h
    induction nows using List.reverseRecOn with
    | nil => trivial
    | append_singleton earlier now ih =>
      have hearlier := List.pairwise_append.mp hsorted
      have hmeets := ih hearlier.1 (fun e n hpre => h e n (hpre.trans (List.prefix_append _ _)))
      obtain ⟨key, hexec⟩ := exec_total capacity rate none earlier
      rw [meets_append_iff _ _ hexec]
      refine ⟨hmeets, ?_, trivial⟩
      by_contra hnot
      have hC := settles_of_sorted hc hr (.inl rfl) hearlier.1 (by simp) hmeets
      obtain ⟨k, hk⟩ := not_rateBound_of_not_settles hc hr hC hexec (by
        intro b hb
        subst hb
        have hne : earlier ≠ [] := by
          intro hnil
          subst hnil
          simp at hexec
        have hlast := clock_getLast hc hr (.inl rfl) hC hexec hne
        simp only [clock] at hlast
        rw [hlast]
        exact hearlier.2.2 _ (List.getLast_mem hne) now (by simp)) hnot
      exact hk (h earlier now (List.prefix_refl _) k)
  . intro h earlier now hpre k
    obtain ⟨later, hlater⟩ := hpre
    rw [← hlater] at h hsorted
    have hearlier := (List.pairwise_append.mp hsorted).1
    obtain ⟨key', hcalls⟩ := exec_total capacity rate none (earlier ++ [now])
    have hmeets := ((meets_append_iff _ _ hcalls).mp h).1
    obtain ⟨key, hexec⟩ := exec_total capacity rate none earlier
    have hC := settles_of_sorted hc hr (.inl rfl) hearlier (by simp) hmeets
    obtain ⟨hCearlier, hCnow⟩ := (meets_append_iff _ _ hexec).mp hC
    have hkey := stored_of_settles hc hr (.inl rfl) hCearlier hexec
    apply rateBound_of_settles hc hr
    . rw [List.pairwise_append] at hearlier ⊢
      refine ⟨hearlier.1, ?_, ?_⟩
      . simp [List.pairwise_replicate]
      . intro a ha n hn
        rw [List.eq_of_mem_replicate hn]
        exact hearlier.2.2 a ha now (by simp)
    . rw [meets_append_iff _ _ hexec] at hmeets ⊢
      refine ⟨hmeets.1, ?_⟩
      exact settlesRefill_repeated hc hr hkey (hCnow.cons (t := some _) _ _ rfl).1 k

theorem rateBound_repeated_iff_settles_drained
    : RateBound 2 1 [0, 0, 1000, 3000] ∧
        ∀ earlier now, earlier ++ [now] <+: [0, 0, 1000, 3000] →
          ∀ k, RateBound 2 1 (earlier ++ List.replicate (k + 1) now) := by
  have hiff := rateBound_repeated_iff_settles 2 1 (by norm_num) (by norm_num) [0, 0, 1000, 3000]
    (by norm_num)
  exact ⟨hiff.1 (by decide +kernel), hiff.2.mpr (by decide +kernel)⟩

/--
With one token a second and room for two, a third call is let through after half a second.
-/
theorem not_rateBound_polled
    : ([0, 0, 500, 500] : List ℚ).Pairwise (· ≤ ·) ∧ ¬RateBound 2 1 [0, 0, 500, 500] := by
  refine ⟨by simp, ?_⟩
  intro h
  have hover := h [] [0, 0, 500, 500] [] none (by simp) rfl rfl
  have hthree : admitted 2 1 none [0, 0, 500, 500] = 3 := by decide +kernel
  rw [hthree] at hover
  norm_num at hover

theorem exec_drain {capacity : ℤ} {n : Nat} (h : (n : ℤ) < capacity)
    : exec (step capacity rate) none (List.replicate (n + 1) 0)
        =
      some (some ⟨capacity - (n + 1), 0⟩) := by
  induction n with
  | zero =>
    have hc : (1 : ℚ) ≤ capacity := by
      norm_cast
    simp [exec, step, script_missing hc]
  | succ n ih =>
    rw [List.replicate_succ']
    rw [exec_append_eq_some]
    refine ⟨_, ih (by push_cast at h; omega), ?_⟩
    have hfull : 1 ≤ refilled capacity rate ⟨capacity - (n + 1), 0⟩ 0 := by
      unfold refilled
      have : (1 : ℚ) ≤ capacity - (n + 1) := by
        push_cast at h
        exact_mod_cast (by omega : (1 : ℤ) ≤ capacity - (n + 1))
      simp only [sub_self, zero_mul, add_zero]
      apply le_min
      . linarith [(Nat.cast_nonneg n : (0 : ℚ) ≤ n)]
      . exact this
    have hle : refilled capacity rate ⟨capacity - (n + 1), 0⟩ 0 = capacity - (n + 1) := by
      unfold refilled
      simp only [sub_self, zero_mul, add_zero]
      apply min_eq_right
      linarith [(Nat.cast_nonneg n : (0 : ℚ) ≤ n)]
    simp only [exec, step]
    rw [script_admits (le_refl _) hfull, hle]
    push_cast
    ring_nf

theorem settlesRefill_of_ms {capacity rate : ℚ} {nows : List ℤ} {key : Option Bucket}
    (hc : 1 ≤ capacity) (hr : 1000 ≤ rate) (hkey : key = none ∨ Stored capacity key)
    (hsorted : nows.Pairwise (· ≤ ·))
    (hlast : ∀ b, key = some b → ∃ t : ℤ, b.last_time = t ∧ ∀ now ∈ nows, t ≤ now)
    : Meets (step capacity rate) (SettlesRefill rate) key (nows.map Int.cast) := by
  induction nows generalizing key with
  | nil => trivial
  | cons now nows ih =>
    rw [List.pairwise_cons] at hsorted
    have hone : 1 ≤ rate := by linarith
    have hC : Settles rate key now := by
      cases key with
      | none => exact ⟨by simp, trivial⟩
      | some b =>
        obtain ⟨t, ht, hle⟩ := hlast b rfl
        obtain ⟨b', hb', hpos, _⟩ := hkey.resolve_left (by simp)
        rw [Option.some.injEq] at hb'
        subst hb'
        have hmono := hle now (by simp)
        refine ⟨?_, ?_⟩
        . intro b' hb'
          rw [Option.some.injEq] at hb'
          rw [← hb', ht]
          exact_mod_cast hmono
        . cases hmono.eq_or_lt with
          | inl heq =>
            left
            rw [ht, heq]
          | inr hlt =>
            right
            rw [ht]
            have hms : (1 : ℚ) ≤ now - t := by exact_mod_cast (by omega : 1 ≤ now - t)
            nlinarith
    rw [List.map_cons, meets_cons_iff (t := some _) _ _ rfl]
    refine ⟨hC.2, ?_⟩
    apply ih
    . right
      exact (first_call_le hc hone hkey hC rfl).1
    . exact hsorted.2
    . intro b hb
      rw [Option.some.injEq] at hb
      refine ⟨now, ?_, hsorted.1⟩
      rw [← hb]
      exact clock_of_settles hc hone hkey hC

theorem exists_ms_not_rateBound {capacity : ℤ} (hc : 1 ≤ capacity) (hr : 1 ≤ rate)
    (hslow : rate < 1000)
    : ∃ n k, ¬RateBound capacity rate (List.replicate (n + 1) 0 ++ List.replicate (k + 1) 1) := by
  have hcq : (1 : ℚ) ≤ capacity := by exact_mod_cast hc
  obtain ⟨n, hn⟩ := Int.eq_ofNat_of_zero_le (by omega : 0 ≤ capacity - 1)
  have hdrain : exec (step capacity rate) none (List.replicate (n + 1) 0)
      = some (some ⟨capacity - (n + 1), 0⟩) := exec_drain (by omega)
  have hempty : (capacity : ℚ) - (n + 1) = 0 := by
    have : (capacity : ℚ) = n + 1 := by exact_mod_cast (by omega : capacity = n + 1)
    linarith
  rw [hempty] at hdrain
  have hC : Settles rate none 0 := ⟨by simp, trivial⟩
  have hmeets := settles_of_sorted hcq hr (.inl rfl)
    (by simp [List.pairwise_replicate] : (List.replicate (n + 1) (0 : ℚ)).Pairwise (· ≤ ·)) (by simp)
    (settlesRefill_repeated hcq hr (.inl rfl) hC n)
  have hdenied : ¬SettlesRefill rate (some ⟨0, 0⟩) 1 := by
    simp only [SettlesRefill, not_or, not_le]
    constructor
    . norm_num
    . linarith
  obtain ⟨k, hk⟩ := not_rateBound_of_not_settles hcq hr hmeets hdrain (by simp) hdenied
  exact ⟨n, k, hk⟩

/--
With call times in whole milliseconds, as the gateway takes them, the rate bound holds of every run
exactly from 1000 tokens a second on.
-/
theorem rateBound_ms_iff (capacity rate : ℤ) (hc : 1 ≤ capacity) (hr : 1 ≤ rate)
    : (∀ nows : List ℤ, nows.Pairwise (· ≤ ·) → RateBound capacity rate (nows.map Int.cast))
        ↔
      1000 ≤ rate := by
  have hcq : (1 : ℚ) ≤ capacity := by exact_mod_cast hc
  have hrq : (1 : ℚ) ≤ rate := by exact_mod_cast hr
  constructor
  . intro h
    by_contra hslow
    have hslowq : (rate : ℚ) < 1000 := by exact_mod_cast not_le.mp hslow
    obtain ⟨n, k, hnot⟩ := exists_ms_not_rateBound hc hrq hslowq
    apply hnot
    have hbound := h (List.replicate (n + 1) 0 ++ List.replicate (k + 1) 1) (by
      simp [List.pairwise_append, List.pairwise_replicate])
    simpa using hbound
  . intro hfast nows hsorted
    have hfastq : (1000 : ℚ) ≤ rate := by exact_mod_cast hfast
    apply rateBound_of_settles hcq hrq
    . rw [List.pairwise_map]
      exact hsorted.imp (by intro a b hab; exact_mod_cast hab)
    . exact settlesRefill_of_ms hcq hfastq (.inl rfl) hsorted (by simp)

end TokenBucket
end LFGateway
