import LFGateway.Pools.Impl.MySQLPool

/-!
This module contains how many connections a run of `MySQLPool` has: one less than at the start for
every reconnect that failed.
-/

namespace LFGateway
namespace MySQLPool

open Foundation

variable {s s' : System} {l : Label} {ls : List Label}

theorem counts_acquire {pool pool' : MySQLPool} {ending : Ending} {conn : Option Conn}
    (h : pool.acquire ending = some (conn, pool'))
    : pool'.pool_size_ = pool.pool_size_ ∧
        pool'.active_count = pool.active_count + conn.toList.length ∧
        pool'.idle_count + conn.toList.length + ending.reconnectFails.toNat = pool.idle_count := by
  unfold acquire at h
  split at h
  all_goals first
    | contradiction
    | rw [Option.some.injEq, Prod.mk.injEq] at h
      obtain ⟨rfl, rfl⟩ := h
  . simp [active_count, idle_count, Ending.reconnectFails]
  all_goals
    next hpool => simp [active_count, idle_count, Ending.reconnectFails, hpool]

theorem throws_of_acquire {pool pool' : MySQLPool} {ending : Ending} {conn : Option Conn}
    (h : pool.acquire ending = some (conn, pool')) : ending.throws = true ↔ conn = none := by
  unfold acquire at h
  split at h
  all_goals first
    | contradiction
    | rw [Option.some.injEq, Prod.mk.injEq] at h
      obtain ⟨rfl, rfl⟩ := h
      simp [Ending.throws]

theorem step_wake {ending : Ending} (h : step s (.wake ending) = some s')
    : ∃ conn pool, s.pool.acquire ending = some (conn, pool) ∧
        s' = ⟨pool, s.waiting - 1, s.held ++ conn.toList⟩ := by
  simp only [step] at h
  split at h
  . split at h
    . next conn pool hacquire =>
      rw [Option.some.injEq] at h
      exact ⟨conn, pool, hacquire, h.symm⟩
    . contradiction
  . contradiction

theorem step_release {conn : Conn} (h : step s (.release conn) = some s')
    : conn ∈ s.held ∧ s' = { s with pool := s.pool.release conn, held := s.held.erase conn } := by
  simp only [step] at h
  split at h
  . next hheld =>
    rw [Option.some.injEq] at h
    exact ⟨hheld, h.symm⟩
  . contradiction

/--
What is active is held, and `lost` connections are neither active nor idle.
-/
structure Counted (lost : Nat) (s : System) : Prop where
  active : s.pool.active_count = s.held.length
  total : s.pool.idle_count + s.pool.active_count + lost = s.pool.pool_size_

theorem counted_init (pool_size : Nat) : Counted 0 (init pool_size) := by
  constructor <;> simp [init, new, active_count, idle_count]

theorem Counted.conserved_iff {lost : Nat} (h : Counted lost s) : Conserved s ↔ lost = 0 := by
  have htotal := h.total
  unfold Conserved
  rw [and_iff_left h.active]
  omega

theorem Counted.step {lost : Nat} (h : Counted lost s) (hl : step s l = some s')
    : Counted (lost + l.reconnectFails.toNat) s' := by
  have hactive := h.active
  have htotal := h.total
  cases l with
  | call =>
    simp only [MySQLPool.step, Option.some.injEq] at hl
    rw [← hl]
    exact ⟨hactive, htotal⟩
  | wake ending =>
    obtain ⟨conn, pool, hacquire, rfl⟩ := step_wake hl
    obtain ⟨hsize, hactive', hidle'⟩ := counts_acquire hacquire
    constructor
    . rw [List.length_append]
      dsimp only
      omega
    . simp only [Label.reconnectFails]
      omega
  | release conn =>
    obtain ⟨hheld, rfl⟩ := step_release hl
    have hpos := List.length_pos_of_mem hheld
    have hidle : (s.pool.release conn).idle_count = s.pool.idle_count + 1 := by
      simp [idle_count, release]
    have hless : (s.pool.release conn).active_count = s.pool.active_count - 1 := rfl
    have hsize : (s.pool.release conn).pool_size_ = s.pool.pool_size_ := rfl
    constructor
    . dsimp only
      rw [hless, List.length_erase_of_mem hheld]
      omega
    . simp only [Label.reconnectFails, Bool.toNat_false]
      omega

theorem counted_exec {lost : Nat} (h : Counted lost s) (hexec : exec step s ls = some s')
    : Counted (lost + ls.countP Label.reconnectFails) s' := by
  induction ls generalizing s lost with
  | nil =>
    rw [exec_nil, Option.some.injEq] at hexec
    rw [← hexec]
    exact h
  | cons l ls ih =>
    obtain ⟨t, hl, hls⟩ := (exec_cons_eq_some step).mp hexec
    have hsplit : (l :: ls).countP Label.reconnectFails
        = l.reconnectFails.toNat + ls.countP Label.reconnectFails := by
      rw [List.countP_cons]
      cases l.reconnectFails <;> simp [Nat.add_comm]
    rw [hsplit, ← Nat.add_assoc]
    exact ih (h.step hl) hls

theorem throwsClean_of_step (h : l.reconnectFails = false) : ThrowsClean s l := by
  intro hthrows s' hl
  cases l with
  | call => contradiction
  | wake ending =>
    obtain ⟨conn, pool, hacquire, rfl⟩ := step_wake hl
    obtain ⟨_, hactive, hidle⟩ := counts_acquire hacquire
    have hnone : conn = none := (throws_of_acquire hacquire).mp hthrows
    have hfails : ending.reconnectFails = false := h
    rw [hnone, hfails] at hidle
    rw [hnone] at hactive
    exact ⟨hidle, hactive⟩
  | release conn => contradiction

theorem meets_throwsClean (h : ∀ l ∈ ls, l.reconnectFails = false) : Meets step ThrowsClean s ls := by
  induction ls generalizing s with
  | nil => trivial
  | cons l ls ih =>
    rw [List.forall_mem_cons] at h
    refine ⟨throwsClean_of_step h.1, ?_⟩
    split
    . exact ih h.2
    . trivial

/--
A run conserves the connections exactly if no reconnect fails in it. Each one that fails is missing
from then on.
-/
theorem conservedRun_iff {pool_size : Nat} (h : exec step (init pool_size) ls = some s)
    : ConservedRun (init pool_size) ls ↔ ∀ l ∈ ls, l.reconnectFails = false := by
  constructor
  . intro hrun l hmem
    have hend := counted_exec (counted_init pool_size) h
    have hconserved := hrun.1 ls [] s (List.append_nil ls).symm h
    rw [hend.conserved_iff, Nat.zero_add, List.countP_eq_zero] at hconserved
    exact Bool.eq_false_iff.mpr (hconserved l hmem)
  . intro hclean
    refine ⟨?_, meets_throwsClean hclean⟩
    intro before after s' hls hexec
    have hcounted := counted_exec (counted_init pool_size) hexec
    rw [hcounted.conserved_iff, Nat.zero_add, List.countP_eq_zero]
    intro l hl
    have hfails := hclean l (by rw [hls]; exact List.mem_append_left _ hl)
    simp [hfails]

def busy : List Label := [
  .call, .wake .healthy, .call, .wake .reconnected, .call, .wake .timeout, .release 0, .release 2
]

theorem conservedRun_iff_busy : (exec step (init 2) busy).isSome ∧ ConservedRun (init 2) busy := by
  have hend := Option.eq_some_of_isSome (o := exec step (init 2) busy) (by decide)
  exact ⟨by decide, (conservedRun_iff hend).mpr (by decide)⟩

def deadServer : List Label := [.call, .wake .connectFailed]

theorem not_conservedRun_deadServer
    : ∃ s, exec step (init 1) deadServer = some s ∧ s.pool.idle_count = 0 ∧
        s.pool.active_count = 0 ∧ ¬ConservedRun (init 1) deadServer := by
  have hend := Option.eq_some_of_isSome (o := exec step (init 1) deadServer) (by decide)
  refine ⟨_, hend, by decide, by decide, ?_⟩
  intro hrun
  have hconserved := hrun.1 deadServer [] _ rfl hend
  exact absurd hconserved (by decide)

end MySQLPool
end LFGateway
