import LFGateway.Foundation.Runs
import LFGateway.MemoryPool.Invariant

/-!
This module contains how much memory `MemoryPool` holds: a size class has as many chunks as its largest
number of blocks in use at one time needed, for chunks are only added when all blocks are in use and
never given back.
-/

namespace LFGateway
namespace MemoryPool

open Foundation Memory

variable {heap heap' : MemoryPool} {pool pool' : FixedMemPool} {k n : Nat}

/--
The chunks of the pool are those that `n` blocks at one time need, and at least one.
-/
structure Fits (pool : FixedMemPool) (n : Nat) : Prop where
  count : pool.block_count_ = 1024
  chunks : pool.chunks_.length = max 1 ((n + 1023) / 1024)

/--
What is known of size class `k` after a run in which `n` blocks of it were in use at one time.
-/
structure Grown (k : Nat) (heap : MemoryPool) (n : Nat) : Prop extends heap.Inv where
  here : (heap.used k).length ≤ n
  unused : heap.pools_[k]? = none → n = 0
  fits : ∀ pool, heap.pools_[k]? = some pool → Fits pool n

theorem length_blocks (pool : FixedMemPool)
    : pool.blocks.length = pool.chunks_.length * pool.block_count_ := by
  unfold FixedMemPool.blocks tiles
  rw [List.length_flatMap]
  simp

theorem Inv.used_le (h : heap.Inv) (hk : heap.pools_[k]? = some pool)
    : (heap.used k).length ≤ pool.chunks_.length * pool.block_count_ := by
  obtain ⟨free, _, hblocks⟩ := h.owns k pool hk
  rw [← length_blocks, ← hblocks.length_eq, List.length_append]
  exact Nat.le_add_left _ _

theorem Inv.used_eq (h : heap.Inv) (hk : heap.pools_[k]? = some pool) (hempty : pool.free_list_ = 0)
    : (heap.used k).length = pool.chunks_.length * pool.block_count_ := by
  obtain ⟨free, hlinked, hblocks⟩ := h.owns k pool hk
  rw [hlinked.head_eq_zero_iff.mp hempty, List.nil_append] at hblocks
  rw [← length_blocks, hblocks.length_eq]

theorem Fits.mono {n' : Nat} (h : Fits pool n) (hcount : pool'.block_count_ = pool.block_count_)
    (hchunks : pool'.chunks_.length = pool.chunks_.length) (hle : n ≤ n')
    (hroom : n' ≤ pool'.chunks_.length * pool'.block_count_) : Fits pool' n' := by
  have hold := h.chunks
  rw [hcount, h.count] at hroom
  refine ⟨hcount.trans h.count, ?_⟩
  omega

theorem Fits.grow (h : Fits pool n) (hcount : pool'.block_count_ = pool.block_count_)
    (hchunks : pool'.chunks_.length = pool.chunks_.length + 1)
    : Fits pool' (pool.chunks_.length * pool.block_count_ + 1) ∧
        n ≤ pool.chunks_.length * pool.block_count_ := by
  have hold := h.chunks
  rw [h.count]
  refine ⟨⟨hcount.trans h.count, ?_⟩, ?_⟩ <;> omega

theorem Grown.keep (h : Grown k heap n) (hinv : heap'.Inv)
    (hnone : heap'.pools_[k]? = none → heap.pools_[k]? = none)
    (hsome : ∀ pool', heap'.pools_[k]? = some pool' → ∃ pool, heap.pools_[k]? = some pool ∧
      pool'.block_count_ = pool.block_count_ ∧ pool'.chunks_.length = pool.chunks_.length)
    : Grown k heap' (max n (heap'.used k).length) where
  toInv := hinv
  here := le_max_right _ _
  unused := by
    intro hnone'
    have hnil : heap'.used k = [] := by
      rw [List.eq_nil_iff_forall_not_mem]
      intro ptr hptr
      obtain ⟨block, hblock, hfrom, _⟩ := mem_used.mp hptr
      obtain ⟨hsmall, rfl⟩ := comesFrom_iff.mp hfrom
      exact absurd (hinv.drawn block hblock hsmall) (not_lt.mpr (List.getElem?_eq_none_iff.mp hnone'))
    rw [hnil, h.unused (hnone hnone')]
    rfl
  fits := by
    intro pool' hk'
    obtain ⟨pool, hk, hcount, hchunks⟩ := hsome pool' hk'
    have hfits := h.fits pool hk
    apply hfits.mono hcount hchunks (le_max_left _ _)
    apply max_le _ (hinv.used_le hk')
    have hold := hfits.chunks
    rw [hcount, hchunks, hfits.count]
    omega

theorem Grown.same (h : Grown k heap n) (hinv : heap'.Inv) (hpools : heap'.pools_ = heap.pools_)
    : Grown k heap' (max n (heap'.used k).length) := by
  apply h.keep hinv
  . rw [hpools]
    exact id
  . rw [hpools]
    exact fun pool hk => ⟨pool, hk, rfl, rfl⟩

theorem Grown.set {idx : Nat} (h : Grown k heap n) (hinv : heap'.Inv) (hidx : heap.pools_[idx]? = some pool)
    (hpools : heap'.pools_ = heap.pools_.set idx pool') (hcount : pool'.block_count_ = pool.block_count_)
    (hchunks : pool'.chunks_ = pool.chunks_) : Grown k heap' (max n (heap'.used k).length) := by
  apply h.keep hinv <;> rw [hpools]
  . intro hnone
    rwa [List.getElem?_eq_none_iff, List.length_set, ← List.getElem?_eq_none_iff] at hnone
  . intro pool₁ hk
    cases getElem?_set_cases hk with
    | inl heq =>
      obtain ⟨rfl, rfl⟩ := heq
      exact ⟨pool, hidx, hcount, by rw [hchunks]⟩
    | inr hne => exact ⟨pool₁, hne.2, rfl, rfl⟩

theorem Grown.grow {idx : Nat} (h : Grown k heap n) (hinv : heap'.Inv)
    (hidx : heap.pools_[idx]? = some pool) (hempty : pool.free_list_ = 0)
    (hpools : heap'.pools_ = heap.pools_.set idx pool') (hcount : pool'.block_count_ = pool.block_count_)
    (hchunks : pool'.chunks_.length = pool.chunks_.length + 1)
    (hused : (heap'.used idx).length = (heap.used idx).length + 1)
    : Grown k heap' (max n (heap'.used k).length) := by
  have hlt := (List.getElem?_eq_some_iff.mp hidx).1
  by_cases heq : k = idx
  . subst heq
    obtain ⟨hfits, hle⟩ := (h.fits pool hidx).grow hcount hchunks
    rw [h.used_eq hidx hempty] at hused
    rw [hused, max_eq_right (by omega)]
    refine ⟨hinv, hused.le, ?_, ?_⟩ <;> rw [hpools, List.getElem?_set_self hlt]
    . simp
    . intro pool₁ hk
      rw [Option.some.injEq] at hk
      rwa [← hk]
  . apply h.keep hinv <;> rw [hpools, List.getElem?_set_ne (Ne.symm heq)]
    . exact id
    . exact fun pool₁ hk => ⟨pool₁, hk, rfl, rfl⟩

theorem Grown.allocateFrom {size mem : Nat} (h : Grown k heap n) (hsize : size ≤ MAX_BLOCK_SIZE)
    (hinv : heap'.Inv) (hstep : heap.allocateFrom (find_pool size) size mem = some heap')
    : Grown k heap' (max n (heap'.used k).length) := by
  unfold MemoryPool.allocateFrom at hstep
  split at hstep
  . next pool hk =>
    split at hstep
    . next hempty =>
      split at hstep
      . rw [← Option.some.inj hstep] at hinv ⊢
        obtain ⟨free_list_, hgrown⟩ := FixedMemPool.allocate_chunk_pool heap.memory pool mem
        apply h.grow hinv hk hempty (List.set_set ..)
        . rw [FixedMemPool.take_block_count, FixedMemPool.allocate_chunk_block_count]
        . rw [hgrown]
          simp [FixedMemPool.take]
        . have hfrom : ∀ ptr, comesFrom (find_pool size) (ptr, size) = true :=
            fun ptr => comesFrom_iff.mpr ⟨not_large_iff.mpr hsize, rfl⟩
          simp [used, MemoryPool.takeFrom, MemoryPool.addChunk, List.filter_append, hfrom]
      . contradiction
    . rw [← Option.some.inj hstep] at hinv ⊢
      exact h.set hinv hk rfl rfl rfl
  . contradiction

theorem Grown.construct {mem : Nat} (h : Grown k heap n) (hinv : heap'.Inv)
    (hstep : heap.construct mem = some heap') : Grown k heap' (max n (heap'.used k).length) := by
  unfold MemoryPool.construct at hstep
  dsimp only at hstep
  split at hstep
  . rw [Option.some.injEq] at hstep
    let pool := FixedMemPool.empty (MIN_BLOCK_SIZE <<< heap.pools_.length)
    have hpools : heap'.pools_ = heap.pools_ ++ [(pool.allocate_chunk heap.memory mem).2] := by
      rw [← hstep]
      simp [addChunk, pool]
    have hused : heap'.used k = heap.used k := by
      rw [← hstep]
      simp only [used, addChunk]
    obtain ⟨free_list_, hnew⟩ := FixedMemPool.allocate_chunk_pool heap.memory pool mem
    cases Nat.lt_trichotomy k heap.pools_.length with
    | inl hlt =>
      apply h.keep hinv <;> rw [hpools, List.getElem?_append_left hlt]
      . exact id
      . exact fun pool₁ hk => ⟨pool₁, hk, rfl, rfl⟩
    | inr hge =>
      have hnone : n = 0 := h.unused (List.getElem?_eq_none_iff.mpr (by omega))
      have hhere := h.here
      subst hnone
      rw [hused, max_eq_left hhere]
      refine ⟨hinv, by rwa [hused], fun _ => rfl, ?_⟩
      intro pool₁ hk
      rw [hpools] at hk
      cases hge with
      | inl heq =>
        rw [heq, List.getElem?_concat_length, Option.some.injEq, hnew] at hk
        rw [← hk]
        constructor <;> simp [pool, FixedMemPool.empty]
      | inr hgt =>
        have hlength : (heap.pools_ ++ [(pool.allocate_chunk heap.memory mem).2]).length ≤ k := by
          rw [List.length_append, List.length_singleton]
          omega
        rw [List.getElem?_eq_none hlength] at hk
        simp at hk
  . contradiction

theorem Grown.step {l : Label} (h : Grown k heap n) (hstep : heap.step l = some heap')
    : Grown k heap' (max n (heap'.used k).length) := by
  have hinv := h.toInv.step hstep
  cases l with
  | construct mem => exact h.construct hinv hstep
  | allocate size mem =>
    unfold MemoryPool.step MemoryPool.allocate at hstep
    dsimp only at hstep
    split at hstep
    . split at hstep
      . split at hstep
        . rw [← Option.some.inj hstep] at hinv ⊢
          exact h.same hinv rfl
        . contradiction
      . next hsize =>
        exact h.allocateFrom (Nat.le_of_not_lt hsize) hinv hstep
    . contradiction
  | deallocate ptr size =>
    unfold MemoryPool.step MemoryPool.deallocate at hstep
    dsimp only at hstep
    split at hstep
    . split at hstep
      . rw [← Option.some.inj hstep] at hinv ⊢
        exact h.same hinv rfl
      . split at hstep
        . next pool hk =>
          rw [← Option.some.inj hstep] at hinv ⊢
          exact h.set hinv hk rfl rfl rfl
        . contradiction
    . contradiction
  | write ptr size i byte =>
    unfold MemoryPool.step at hstep
    dsimp only at hstep
    split at hstep
    . rw [← Option.some.inj hstep] at hinv ⊢
      exact h.same hinv rfl
    . contradiction
  | writeElsewhere x byte =>
    unfold MemoryPool.step at hstep
    dsimp only at hstep
    split at hstep
    . rw [← Option.some.inj hstep] at hinv ⊢
      exact h.same hinv rfl
    . contradiction

/--
After every run a size class has as many chunks as the largest number of its blocks that were in use at
one time needs, and at least one.
-/
theorem chunks_eq_peak {memory : Memory} {ls : List Label} (h : exec step (init memory) ls = some heap)
    (hk : heap.pools_[k]? = some pool)
    : pool.chunks_.length
        =
      max 1 ((peak step (fun heap => (heap.used k).length) (init memory) ls + 1023) / 1024) := by
  have hinit : Grown k (init memory) ((init memory).used k).length :=
    ⟨Inv.init memory, le_refl _, fun _ => rfl, by simp [init]⟩
  exact ((exec_invariant_peak (P := Grown k) (fun _ _ _ _ hgrown hl => hgrown.step hl) hinit h).fits
    pool hk).chunks

section Room

variable {size mem : Nat}

theorem used_takeFrom (hsize : size ≤ MAX_BLOCK_SIZE) (pool : FixedMemPool)
    : ((heap.takeFrom (find_pool size) size pool).used (find_pool size)).length
        =
      (heap.used (find_pool size)).length + 1 := by
  have hfrom : ∀ ptr, comesFrom (find_pool size) (ptr, size) = true :=
    fun ptr => comesFrom_iff.mpr ⟨not_large_iff.mpr hsize, rfl⟩
  simp [used, MemoryPool.takeFrom, List.filter_append, hfrom]

theorem regions_takeFrom (hsize : size ≤ MAX_BLOCK_SIZE) (hk : heap.pools_[k]? = some pool)
    : (heap.takeFrom k size pool).regions = heap.regions := by
  have hlarge : ∀ ptr, isLarge (ptr, size) = false := fun ptr => not_large_iff.mpr hsize
  have hpools : (heap.pools_.set k (pool.take heap.memory).2).flatMap FixedMemPool.regions
      = heap.pools_.flatMap FixedMemPool.regions := flatMap_set_of_eq FixedMemPool.regions hk rfl
  simp [regions, large, MemoryPool.takeFrom, List.filter_append, hlarge, hpools]

theorem exec_allocate (hsize : size ≤ MAX_BLOCK_SIZE) (hinv : heap.Inv) (hconstructed : heap.Constructed)
    (hk : heap.pools_[find_pool size]? = some pool)
    (hroom : (heap.used (find_pool size)).length + n ≤ pool.chunks_.length * pool.block_count_)
    : ∃ heap' pool', exec step heap (List.replicate n (.allocate size mem)) = some heap' ∧
        heap'.Constructed ∧ heap'.regions = heap.regions ∧
        heap'.pools_[find_pool size]? = some pool' ∧ pool'.chunkSize = pool.chunkSize ∧
        (heap'.used (find_pool size)).length = (heap.used (find_pool size)).length + n := by
  induction n generalizing heap pool with
  | zero => exact ⟨heap, pool, rfl, hconstructed, rfl, hk, rfl, rfl⟩
  | succ n ih =>
    have hne : pool.free_list_ ≠ 0 := by
      intro hempty
      have hused := hinv.used_eq hk hempty
      omega
    have hstep : heap.step (.allocate size mem) = some (heap.takeFrom (find_pool size) size pool) := by
      simp [MemoryPool.step, MemoryPool.allocate, MemoryPool.allocateFrom, hconstructed, hk, hne,
        Nat.not_lt.mpr hsize]
    have hlt := (List.getElem?_eq_some_iff.mp hk).1
    have hk' : (heap.takeFrom (find_pool size) size pool).pools_[find_pool size]?
        = some (pool.take heap.memory).2 := List.getElem?_set_self hlt
    have hconstructed' : (heap.takeFrom (find_pool size) size pool).Constructed := by
      unfold Constructed at hconstructed ⊢
      rwa [MemoryPool.takeFrom, List.length_set]
    have hused : ((heap.takeFrom (find_pool size) size pool).used (find_pool size)).length
        = (heap.used (find_pool size)).length + 1 := used_takeFrom hsize pool
    obtain ⟨heap', pool', hexec, hconstructed'', hregions, hk'', hchunk, hused'⟩ :=
      ih (hinv.step hstep) hconstructed' hk' (by
        rw [hused, FixedMemPool.take_block_count]
        change _ ≤ pool.chunks_.length * pool.block_count_
        omega)
    refine ⟨heap', pool', ?_, hconstructed'', hregions.trans (regions_takeFrom hsize hk), hk'', hchunk, ?_⟩
    . rw [List.replicate_succ]
      exact (exec_cons_eq_some step).mpr ⟨_, hstep, hexec⟩
    . omega

theorem exists_allocate (hsize : size ≤ MAX_BLOCK_SIZE) (hconstructed : heap.Constructed)
    (hk : heap.pools_[find_pool size]? = some pool) (hfresh : heap.Fresh mem pool.chunkSize)
    : ∃ heap', heap.step (.allocate size mem) = some heap' ∧ heap'.Constructed ∧
        (heap'.used (find_pool size)).length = (heap.used (find_pool size)).length + 1 := by
  by_cases hempty : pool.free_list_ = 0
  . refine ⟨((heap.addChunk (find_pool size) mem pool).takeFrom (find_pool size) size
      (pool.allocate_chunk heap.memory mem).2), ?_, ?_, used_takeFrom hsize _⟩
    . simp [MemoryPool.step, MemoryPool.allocate, MemoryPool.allocateFrom, hconstructed, hk, hempty, hfresh,
        Nat.not_lt.mpr hsize]
    . unfold Constructed at hconstructed ⊢
      rwa [MemoryPool.takeFrom, MemoryPool.addChunk, List.length_set, List.length_set]
  . refine ⟨heap.takeFrom (find_pool size) size pool, ?_, ?_, used_takeFrom hsize _⟩
    . simp [MemoryPool.step, MemoryPool.allocate, MemoryPool.allocateFrom, hconstructed, hk, hempty,
        Nat.not_lt.mpr hsize]
    . unfold Constructed at hconstructed ⊢
      rwa [MemoryPool.takeFrom, List.length_set]

end Room

def constructed : List Label := (List.range 10).map fun k => .construct ((k + 1) * 0x1000000)

/--
1025 blocks are in use at one time, and a chunk has 1024.
-/
def crowded : List Label := constructed ++ List.replicate 1024 (.allocate 8 0x10000000) ++ [.allocate 8 0x10000000]

theorem chunks_eq_peak_crowded
    : ∃ heap pool, exec step (init fun _ => 0) crowded = some heap ∧ heap.pools_[0]? = some pool ∧
        2 ≤ pool.chunks_.length := by
  have hfind : find_pool 8 = 0 := by decide
  have hany : (exec step (init fun _ => 0) constructed).any (fun heap =>
      heap.Constructed ∧ heap.Fresh 0x10000000 8192 ∧ heap.used 0 = [] ∧
        heap.pools_[0]?.any (fun pool => pool.chunks_.length = 1 ∧ pool.block_count_ = 1024 ∧
          pool.chunkSize = 8192)) = true := by
    decide +kernel
  obtain ⟨heap, hend, hheap⟩ := (Option.any_eq_true _ _).mp hany
  obtain ⟨hconstructed, hfresh, hused, hpool⟩ := of_decide_eq_true hheap
  obtain ⟨pool, hk, hfacts⟩ := (Option.any_eq_true _ _).mp hpool
  obtain ⟨hchunks, hcount, hsize⟩ := of_decide_eq_true hfacts
  have hinv : heap.Inv := exec_invariant step (fun _ _ _ hs hl => hs.step hl) (.init _) hend
  have hroom : (heap.used (find_pool 8)).length + 1024 ≤ pool.chunks_.length * pool.block_count_ := by
    rw [hfind, hused, hchunks, hcount]
    decide
  obtain ⟨full, pool', hfull, hconstructed', hregions, hk', hchunk, hused'⟩ :=
    @exec_allocate heap pool 1024 8 0x10000000 (by decide) hinv hconstructed (hfind ▸ hk) hroom
  have hfresh' : full.Fresh 0x10000000 pool'.chunkSize := by
    rwa [hchunk, hsize, Fresh, hregions]
  obtain ⟨last, hlast, hconstructed'', hused''⟩ := exists_allocate (by decide) hconstructed' hk' hfresh'
  have hexec : exec step (init fun _ => 0) crowded = some last := by
    rw [crowded, exec_append_eq_some]
    refine ⟨full, ?_, exec_one hlast⟩
    rw [exec_append_eq_some]
    exact ⟨heap, hend, hfull⟩
  -- from here on the labels do not matter
  generalize crowded = ls at hexec ⊢
  have hlt : 0 < last.pools_.length := Nat.lt_of_le_of_lt (Nat.zero_le 9) (lt_length_of_constructed hconstructed'')
  have hmany : (last.used 0).length ≤ peak step (fun heap => (heap.used 0).length) (init fun _ => 0) ls :=
    le_peak_of_exec (f := fun heap => (heap.used 0).length) hexec
  rw [hused', hfind, hused, List.length_nil] at hused''
  refine ⟨last, last.pools_[0], hexec, List.getElem?_eq_getElem hlt, ?_⟩
  rw [chunks_eq_peak hexec (List.getElem?_eq_getElem hlt)]
  omega

end MemoryPool
end LFGateway
