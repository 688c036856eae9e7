import LFGateway.MemoryPool.Lemmas

/-!
This module contains the invariant of `MemoryPool` over whole runs: blocks do not overlap, each is
free or outstanding, and it goes back to the pool it came from because its size class is the same on
the way back.
-/

namespace LFGateway
namespace MemoryPool

open Foundation Memory

variable {heap heap' : MemoryPool}

theorem find_pool_spec {size : Nat} (hsize : size ≤ MAX_BLOCK_SIZE)
    : find_pool size ≤ 9 ∧ size ≤ MIN_BLOCK_SIZE <<< find_pool size := by
  have hloop : 0 ≤ 9 → find_pool size ≤ 9 ∧ size ≤ MIN_BLOCK_SIZE <<< find_pool size := by
    apply loop_induction (find_pool.decreases size)
      (P := fun idx r => idx ≤ 9 → r ≤ 9 ∧ size ≤ MIN_BLOCK_SIZE <<< r)
    . intro idx r hbody hidx
      unfold find_pool.body at hbody
      dsimp only at hbody
      split at hbody
      . contradiction
      . next hdone =>
        rw [Iter.done.injEq] at hbody
        subst hbody
        exact ⟨hidx, by omega⟩
    . intro idx idx' hbody ih _
      unfold find_pool.body at hbody
      dsimp only at hbody
      split at hbody
      . next hsz =>
        rw [Iter.next.injEq] at hbody
        subst hbody
        apply ih
        -- `sz` has not reached `MAX_BLOCK_SIZE`, which is `MIN_BLOCK_SIZE` shifted nine times
        have hlt := Nat.lt_of_lt_of_le hsz.1 hsize
        rw [Nat.shiftLeft_eq, MIN_BLOCK_SIZE, MAX_BLOCK_SIZE] at hlt
        have hpow : 2 ^ idx < 2 ^ 9 := by omega
        exact (Nat.pow_lt_pow_iff_right (by decide)).mp hpow
      . contradiction
  exact hloop (by decide)

theorem size_class_le {k : Nat} (h : k ≤ 9) : MIN_BLOCK_SIZE <<< k ≤ MAX_BLOCK_SIZE := by
  rw [Nat.shiftLeft_eq, MIN_BLOCK_SIZE, MAX_BLOCK_SIZE]
  have hpow : 2 ^ k ≤ 2 ^ 9 := Nat.pow_le_pow_right (by decide) h
  omega

theorem size_class_inj {k k' : Nat} (h : MIN_BLOCK_SIZE <<< k = MIN_BLOCK_SIZE <<< k') : k = k' := by
  rw [Nat.shiftLeft_eq, Nat.shiftLeft_eq, MIN_BLOCK_SIZE] at h
  exact Nat.pow_right_inj (by decide) |>.mp (Nat.eq_of_mul_eq_mul_left (by decide) h)

theorem length_le_of_not_constructed (h : ¬heap.Constructed) : heap.pools_.length ≤ 9 := by
  unfold Constructed at h
  rw [Nat.shiftLeft_eq, MIN_BLOCK_SIZE, MAX_BLOCK_SIZE] at h
  have hpow : 2 ^ heap.pools_.length ≤ 2 ^ 9 := by omega
  exact (Nat.pow_le_pow_iff_right (by decide)).mp hpow

theorem lt_length_of_constructed (h : heap.Constructed) : 9 < heap.pools_.length := by
  unfold Constructed at h
  rw [Nat.shiftLeft_eq, MIN_BLOCK_SIZE, MAX_BLOCK_SIZE] at h
  have hpow : 2 ^ 9 < 2 ^ heap.pools_.length := by omega
  exact (Nat.pow_lt_pow_iff_right (by decide)).mp hpow

def comesFrom (k : Nat) (block : Region) : Bool := !isLarge block && find_pool block.2 == k

def used (heap : MemoryPool) (k : Nat) : List Nat :=
  (heap.outstanding.filter (comesFrom k)).map Prod.fst

/--
Every block: those of the pools, free or not, and the large ones.
-/
def cells (heap : MemoryPool) : List Region :=
  heap.pools_.flatMap FixedMemPool.cells ++ heap.large

/--
What an outstanding block really occupies.
-/
def extent (block : Region) : Region :=
  if isLarge block then block else (block.1, MIN_BLOCK_SIZE <<< find_pool block.2)

theorem inside_extent (block : Region) : Inside block (extent block) := by
  unfold extent
  split
  . exact .refl _
  . next hsmall =>
    rw [isLarge, decide_eq_true_eq, Nat.not_lt] at hsmall
    have hle := (find_pool_spec hsmall).2
    exact ⟨Nat.le_refl _, Nat.add_le_add_left hle _⟩

structure Layout (heap : MemoryPool) : Prop where
  sizes : ∀ k pool, heap.pools_[k]? = some pool →
    k ≤ 9 ∧ pool.block_size_ = MIN_BLOCK_SIZE <<< k ∧ 0 < pool.block_count_
  apart : heap.cells.Pairwise Apart
  bounded : ∀ cell ∈ heap.cells, cell.1 ≠ 0 ∧ cell.1 + cell.2 ≤ 2 ^ 64

/--
Every pool owns its blocks, and outstanding blocks were drawn from a pool that is there.
-/
structure Inv (heap : MemoryPool) : Prop extends heap.Layout where
  owns : ∀ k pool, heap.pools_[k]? = some pool → FixedMemPool.Owns heap.memory pool (heap.used k)
  drawn : ∀ block ∈ heap.outstanding, isLarge block = false → find_pool block.2 < heap.pools_.length

theorem mem_used {k ptr : Nat}
    : ptr ∈ heap.used k ↔ ∃ block ∈ heap.outstanding, comesFrom k block = true ∧ block.1 = ptr := by
  simp [used, and_assoc]

theorem comesFrom_find_pool {block : Region} (h : isLarge block = false)
    : comesFrom (find_pool block.2) block = true := by
  simp [comesFrom, h]

theorem comesFrom_iff {k : Nat} {block : Region}
    : comesFrom k block = true ↔ isLarge block = false ∧ find_pool block.2 = k := by
  simp [comesFrom]

theorem not_large_iff {block : Region} : isLarge block = false ↔ block.2 ≤ MAX_BLOCK_SIZE := by
  simp [isLarge]

theorem mem_cells_of_block {k b : Nat} {pool : FixedMemPool} (hk : heap.pools_[k]? = some pool)
    (hb : b ∈ pool.blocks) : (b, pool.block_size_) ∈ heap.cells := by
  apply List.mem_append_left
  exact List.mem_flatMap.mpr ⟨pool, List.mem_of_getElem? hk, List.mem_map_of_mem hb⟩

theorem exists_region {cell : Region} (h : cell ∈ heap.cells)
    : ∃ region ∈ heap.regions, Inside cell region := by
  cases List.mem_append.mp h with
  | inl hpools =>
    obtain ⟨pool, hpool, hcell⟩ := List.mem_flatMap.mp hpools
    obtain ⟨region, hregion, hinside⟩ := FixedMemPool.exists_region hcell
    exact ⟨region, List.mem_append_left _ (List.mem_flatMap.mpr ⟨pool, hpool, hregion⟩), hinside⟩
  | inr hlarge => exact ⟨cell, List.mem_append_right _ hlarge, .refl _⟩

theorem Fresh.apart {base len : Nat} (h : heap.Fresh base len) {cell : Region}
    (hcell : cell ∈ heap.cells) : Apart (base, len) cell := by
  obtain ⟨region, hregion, hinside⟩ := exists_region hcell
  exact (h.2.2 region hregion).mono (.refl _) hinside

variable {k : Nat} {pool : FixedMemPool}

theorem Layout.wellformed (h : heap.Layout) (hk : heap.pools_[k]? = some pool) : pool.Wellformed where
  holds := by
    rw [(h.sizes k pool hk).2.1, Nat.shiftLeft_eq]
    exact Nat.le_mul_of_pos_right _ (Nat.two_pow_pos k)
  apart := by
    have hpools := (List.pairwise_append.mp h.apart).1
    have hpool := (List.pairwise_flatMap.mp hpools).1 pool (List.mem_of_getElem? hk)
    exact List.pairwise_map.mp hpool
  bounded := fun b hb => h.bounded _ (mem_cells_of_block hk hb)

namespace Inv

theorem mem_blocks_of_used (h : heap.Inv) {block : Region} (hblock : block ∈ heap.outstanding)
    (hsmall : isLarge block = false)
    : ∃ pool, heap.pools_[find_pool block.2]? = some pool ∧ block.1 ∈ pool.blocks := by
  have hlt := h.drawn block hblock hsmall
  refine ⟨heap.pools_[find_pool block.2], List.getElem?_eq_getElem hlt, ?_⟩
  apply (h.owns _ _ (List.getElem?_eq_getElem hlt)).mem_blocks
  exact mem_used.mpr ⟨block, hblock, comesFrom_find_pool hsmall, rfl⟩

theorem extent_mem_cells (h : heap.Inv) {block : Region} (hblock : block ∈ heap.outstanding)
    : extent block ∈ heap.cells := by
  unfold extent
  split
  . next hlarge => exact List.mem_append_right _ (List.mem_filter.mpr ⟨hblock, hlarge⟩)
  . next hsmall =>
    rw [Bool.not_eq_true] at hsmall
    obtain ⟨pool, hpool, hmem⟩ := h.mem_blocks_of_used hblock hsmall
    rw [← (h.sizes _ pool hpool).2.1]
    exact mem_cells_of_block hpool hmem

theorem free_apart (h : heap.Inv) {block : Region} (hblock : block ∈ heap.outstanding)
    (hk : heap.pools_[k]? = some pool) {b : Nat} (hb : b ∈ pool.blocks) (hfree : b ∉ heap.used k)
    : Apart (b, pool.block_size_) (extent block) := by
  apply h.apart.forall (mem_cells_of_block hk hb) (h.extent_mem_cells hblock)
  intro heq
  obtain ⟨hle, hsize, _⟩ := h.sizes k pool hk
  unfold extent at heq
  split at heq
  . next hlarge =>
    have hclass := size_class_le hle
    rw [isLarge, decide_eq_true_eq, ← heq, hsize] at hlarge
    omega
  . next hsmall =>
    rw [Bool.not_eq_true] at hsmall
    rw [Prod.mk.injEq, hsize] at heq
    apply hfree
    rw [heq.1, size_class_inj heq.2]
    exact mem_used.mpr ⟨block, hblock, comesFrom_find_pool hsmall, rfl⟩

theorem outstanding_apart (h : heap.Inv)
    : heap.outstanding.Pairwise fun block block' => Apart (extent block) (extent block') := by
  rw [List.pairwise_iff_forall_sublist]
  intro block block' hsub
  have hblock : block ∈ heap.outstanding := hsub.subset (by simp)
  have hblock' : block' ∈ heap.outstanding := hsub.subset (by simp)
  have hcell := h.extent_mem_cells hblock
  have hcell' := h.extent_mem_cells hblock'
  cases hlarge : isLarge block with
  | true =>
    cases hlarge' : isLarge block' with
    | true =>
      have hfilter := hsub.filter isLarge
      rw [List.filter_cons_of_pos hlarge, List.filter_cons_of_pos hlarge', List.filter_nil] at hfilter
      have hpair := (List.pairwise_append.mp h.apart).2.1.sublist hfilter
      simp only [extent, hlarge, hlarge', ↓reduceIte]
      simpa using hpair
    | false =>
      apply h.apart.forall hcell hcell'
      intro heq
      have hclass := size_class_le (find_pool_spec (not_large_iff.mp hlarge')).1
      have hsize : block.2 = MIN_BLOCK_SIZE <<< find_pool block'.2 := by
        simpa [extent, hlarge, hlarge'] using congrArg Prod.snd heq
      rw [isLarge, decide_eq_true_eq] at hlarge
      omega
  | false =>
    have hclass := size_class_le (find_pool_spec (not_large_iff.mp hlarge)).1
    apply h.apart.forall hcell hcell'
    intro heq
    cases hlarge' : isLarge block' with
    | true =>
      have hsize : MIN_BLOCK_SIZE <<< find_pool block.2 = block'.2 := by
        simpa [extent, hlarge, hlarge'] using congrArg Prod.snd heq
      rw [isLarge, decide_eq_true_eq] at hlarge'
      omega
    | false =>
      -- both are in use in one pool, at different addresses
      have hsize : MIN_BLOCK_SIZE <<< find_pool block.2 = MIN_BLOCK_SIZE <<< find_pool block'.2 := by
        simpa [extent, hlarge, hlarge'] using congrArg Prod.snd heq
      have hptr : block.1 = block'.1 := by
        simpa [extent, hlarge, hlarge'] using congrArg Prod.fst heq
      have hfrom := comesFrom_find_pool hlarge
      have hfrom' := comesFrom_find_pool hlarge'
      rw [← size_class_inj hsize] at hfrom'
      have hfilter := hsub.filter (comesFrom (find_pool block.2))
      rw [List.filter_cons_of_pos hfrom, List.filter_cons_of_pos hfrom', List.filter_nil] at hfilter
      obtain ⟨pool, hpool, _⟩ := h.mem_blocks_of_used hblock hlarge
      have hnodup := (h.owns _ pool hpool).nodup (h.wellformed hpool)
      have hpair := hnodup.sublist (hfilter.map Prod.fst)
      simp [hptr] at hpair

theorem owns_frame (h : heap.Inv) {memory : Memory} (region : Region)
    (hk : heap.pools_[k]? = some pool)
    (hapart : ∀ b ∈ pool.blocks, b ∉ heap.used k → Apart (b, pool.block_size_) region)
    (hmemory : ∀ x, x < region.1 ∨ region.1 + region.2 ≤ x → heap.memory x = memory x)
    : FixedMemPool.Owns memory pool (heap.used k) :=
  (h.owns k pool hk).frame (h.wellformed hk) hapart hmemory

theorem write (h : heap.Inv) {memory : Memory} (region : Region)
    (hapart : ∀ k pool, heap.pools_[k]? = some pool → ∀ b ∈ pool.blocks, b ∉ heap.used k →
      Apart (b, pool.block_size_) region)
    (hmemory : ∀ x, x < region.1 ∨ region.1 + region.2 ≤ x → heap.memory x = memory x)
    : Inv { heap with memory } where
  sizes := h.sizes
  apart := h.apart
  bounded := h.bounded
  owns := fun k pool hk => h.owns_frame region hk (hapart k pool hk) hmemory
  drawn := h.drawn

theorem setPool (h : heap.Inv) {idx : Nat} {pool' : FixedMemPool} {memory : Memory}
    {outstanding : List Region} (hidx : heap.pools_[idx]? = some pool)
    (hblocks : pool'.blocks = pool.blocks) (hsize : pool'.block_size_ = pool.block_size_)
    (hcount : pool'.block_count_ = pool.block_count_)
    (hlarge : (outstanding.filter isLarge).Perm heap.large)
    (hdrawn : ∀ block ∈ outstanding, isLarge block = false → find_pool block.2 < heap.pools_.length)
    (howns : FixedMemPool.Owns memory pool' ((outstanding.filter (comesFrom idx)).map Prod.fst))
    (hothers : ∀ k pool, k ≠ idx → heap.pools_[k]? = some pool →
      FixedMemPool.Owns memory pool ((outstanding.filter (comesFrom k)).map Prod.fst))
    : Inv ⟨memory, heap.pools_.set idx pool', outstanding⟩ := by
  have hcells : (cells ⟨memory, heap.pools_.set idx pool', outstanding⟩).Perm heap.cells := by
    unfold cells
    dsimp only
    rw [flatMap_set_of_eq _ hidx (FixedMemPool.cells_congr hblocks hsize)]
    exact hlarge.append_left _
  refine ⟨⟨?_, ?_, ?_⟩, ?_, ?_⟩
  . intro k pool'' hk
    cases getElem?_set_cases hk with
    | inl heq =>
      obtain ⟨rfl, rfl⟩ := heq
      rw [hsize, hcount]
      exact h.sizes idx pool hidx
    | inr hne => exact h.sizes k pool'' hne.2
  . exact (hcells.pairwise_iff fun hapart => hapart.symm).mpr h.apart
  . intro cell hcell
    exact h.bounded cell (hcells.mem_iff.mp hcell)
  . intro k pool'' hk
    cases getElem?_set_cases hk with
    | inl heq =>
      obtain ⟨rfl, rfl⟩ := heq
      exact howns
    | inr hne => exact hothers k pool'' (Ne.symm hne.1) hne.2
  . intro block hblock hsmall
    dsimp only
    rw [List.length_set]
    exact hdrawn block hblock hsmall

theorem takeFrom (h : heap.Inv) {size : Nat} (hsize : size ≤ MAX_BLOCK_SIZE)
    (hk : heap.pools_[find_pool size]? = some pool) (hne : pool.free_list_ ≠ 0)
    : (heap.takeFrom (find_pool size) size pool).Inv := by
  have hsmall : ∀ ptr, isLarge (ptr, size) = false := fun ptr => not_large_iff.mpr hsize
  show Inv ⟨heap.memory, heap.pools_.set (find_pool size) (pool.take heap.memory).2,
    heap.outstanding ++ [((pool.take heap.memory).1, size)]⟩
  apply h.setPool hk FixedMemPool.take_blocks FixedMemPool.take_block_size
    FixedMemPool.take_block_count
  . rw [List.filter_append, List.filter_singleton, hsmall]
    simp [large]
  . intro block hblock hblocksmall
    cases List.mem_append.mp hblock with
    | inl hold => exact h.drawn block hold hblocksmall
    | inr hnew =>
      rw [List.mem_singleton.mp hnew]
      exact (List.getElem?_eq_some_iff.mp hk).1
  . rw [List.filter_append, List.filter_singleton, comesFrom_iff.mpr ⟨hsmall _, rfl⟩]
    simp only [cond_true, List.map_append]
    exact (h.owns _ pool hk).take hne
  . intro k pool' hkne hk'
    have hnot : comesFrom k ((pool.take heap.memory).1, size) = false := by
      rw [← Bool.not_eq_true, comesFrom_iff]
      exact fun hfrom => hkne hfrom.2.symm
    rw [List.filter_append, List.filter_singleton, hnot]
    simp only [cond_false, List.append_nil]
    exact h.owns k pool' hk'

theorem deallocateSmall (h : heap.Inv) {ptr size : Nat} (hblock : (ptr, size) ∈ heap.outstanding)
    (hsize : size ≤ MAX_BLOCK_SIZE) (hk : heap.pools_[find_pool size]? = some pool)
    : Inv ⟨(pool.deallocate heap.memory ptr).1,
        heap.pools_.set (find_pool size) (pool.deallocate heap.memory ptr).2,
        heap.outstanding.erase (ptr, size)⟩ := by
  have hsmall : isLarge (ptr, size) = false := not_large_iff.mpr hsize
  have hperm := List.perm_cons_erase hblock
  have hused : ∀ k, (heap.used k).Perm
      ((((ptr, size) :: heap.outstanding.erase (ptr, size)).filter (comesFrom k)).map Prod.fst) :=
    fun k => (hperm.filter _).map _
  apply h.setPool hk FixedMemPool.deallocate_blocks FixedMemPool.deallocate_block_size
    FixedMemPool.deallocate_block_count
  . have hfilter := hperm.filter isLarge
    rw [List.filter_cons_of_neg (by simp [hsmall])] at hfilter
    exact hfilter.symm
  . intro block hmem hblocksmall
    exact h.drawn block (List.mem_of_mem_erase hmem) hblocksmall
  . apply FixedMemPool.Owns.deallocate _ (h.wellformed hk)
    have hfrom := hused (find_pool size)
    rw [List.filter_cons_of_pos (comesFrom_iff.mpr ⟨hsmall, rfl⟩), List.map_cons] at hfrom
    exact (h.owns _ pool hk).perm hfrom
  . intro k pool' hkne hk'
    have hnot : ¬comesFrom k (ptr, size) = true := by
      rw [comesFrom_iff]
      exact fun hfrom => hkne hfrom.2.symm
    have hsame := hused k
    rw [List.filter_cons_of_neg hnot] at hsame
    apply FixedMemPool.Owns.perm _ hsame
    apply h.owns_frame (extent (ptr, size)) hk'
    . exact fun b hb hfree => h.free_apart hblock hk' hb hfree
    . intro x hx
      have hholds := (h.wellformed hk).holds
      rw [(h.sizes _ pool hk).2.1] at hholds
      rw [extent, hsmall] at hx
      simp only [Bool.false_eq_true, ↓reduceIte] at hx
      exact (store_of_lt_or_le (by omega)).symm

theorem allocateLarge (h : heap.Inv) {size mem : Nat} (hsize : MAX_BLOCK_SIZE < size)
    (hfresh : heap.Fresh mem size)
    : Inv { heap with outstanding := heap.outstanding ++ [(mem, size)] } := by
  have hlarge : isLarge (mem, size) = true := by simpa [isLarge] using hsize
  have hcells : cells { heap with outstanding := heap.outstanding ++ [(mem, size)] }
      = heap.cells ++ [(mem, size)] := by
    simp [cells, large, List.filter_append, hlarge]
  refine ⟨⟨h.sizes, ?_, ?_⟩, ?_, ?_⟩
  . rw [hcells, List.pairwise_append]
    refine ⟨h.apart, List.pairwise_singleton _ _, ?_⟩
    intro cell hcell cell' hcell'
    rw [List.mem_singleton.mp hcell']
    exact (hfresh.apart hcell).symm
  . intro cell hcell
    rw [hcells] at hcell
    cases List.mem_append.mp hcell with
    | inl hold => exact h.bounded cell hold
    | inr hnew =>
      rw [List.mem_singleton.mp hnew]
      exact ⟨hfresh.1, hfresh.2.1⟩
  . intro k pool hk
    have hsame : used { heap with outstanding := heap.outstanding ++ [(mem, size)] } k
        = heap.used k := by
      simp [used, List.filter_append, comesFrom, hlarge]
    rw [hsame]
    exact h.owns k pool hk
  . intro block hblock hsmall
    cases List.mem_append.mp hblock with
    | inl hold => exact h.drawn block hold hsmall
    | inr hnew =>
      rw [List.mem_singleton.mp hnew, hlarge] at hsmall
      contradiction

theorem deallocateLarge (h : heap.Inv) {ptr size : Nat} (hsize : MAX_BLOCK_SIZE < size)
    : Inv { heap with outstanding := heap.outstanding.erase (ptr, size) } := by
  have hlarge : isLarge (ptr, size) = true := by simpa [isLarge] using hsize
  have hsub : (cells { heap with outstanding := heap.outstanding.erase (ptr, size) }).Sublist
      heap.cells :=
    (List.erase_sublist.filter isLarge).append_left _
  have hlayout : Layout { heap with outstanding := heap.outstanding.erase (ptr, size) } :=
    ⟨h.sizes, h.apart.sublist hsub, fun cell hcell => h.bounded cell (hsub.subset hcell)⟩
  refine { hlayout with owns := ?_, drawn := ?_ }
  . intro k pool hk
    have hnot : (ptr, size) ∉ heap.outstanding.filter (comesFrom k) := by
      simp [comesFrom, hlarge]
    have hsame : used { heap with outstanding := heap.outstanding.erase (ptr, size) } k
        = heap.used k := by
      unfold used
      rw [← List.erase_filter, List.erase_of_not_mem hnot]
    rw [hsame]
    exact h.owns k pool hk
  . intro block hblock hsmall
    exact h.drawn block (List.mem_of_mem_erase hblock) hsmall

theorem addChunk (h : heap.Inv) {idx mem : Nat} (hidx : heap.pools_[idx]? = some pool)
    (hempty : pool.free_list_ = 0) (hfresh : heap.Fresh mem pool.chunkSize)
    : (heap.addChunk idx mem pool).Inv := by
  let new := (tiles mem pool.block_size_ pool.block_count_).map fun b => (b, pool.block_size_)
  have hinside : ∀ cell ∈ new, Inside cell (mem, pool.chunkSize) := by
    intro cell hcell
    obtain ⟨b, hb, rfl⟩ := List.mem_map.mp hcell
    exact inside_of_mem_tiles hb
  have hcells : (heap.addChunk idx mem pool).cells.Perm (new ++ heap.cells) := by
    have hpool : (pool.allocate_chunk heap.memory mem).2.cells ++ heap.large
        = pool.cells ++ (new ++ heap.large) := by
      simp [FixedMemPool.cells, new]
    have hperm := flatMap_set_perm_of_perm FixedMemPool.cells hidx (List.Perm.of_eq hpool)
    apply hperm.trans
    rw [← List.append_assoc, cells, ← List.append_assoc]
    exact List.perm_append_comm.append_right _
  have hlayout : (heap.addChunk idx mem pool).Layout := by
    refine ⟨?_, ?_, ?_⟩
    . intro k pool' hk
      cases getElem?_set_cases hk with
      | inl heq =>
        rw [heq.2, ← heq.1]
        rw [FixedMemPool.allocate_chunk_block_size, FixedMemPool.allocate_chunk_block_count]
        exact h.sizes idx pool hidx
      | inr hne => exact h.sizes k pool' hne.2
    . apply (hcells.pairwise_iff fun hapart => hapart.symm).mpr
      rw [List.pairwise_append]
      refine ⟨List.pairwise_map.mpr (pairwise_tiles _ _ _), h.apart, ?_⟩
      intro cell hcell cell' hcell'
      exact (hfresh.apart hcell').mono (hinside cell hcell) (.refl _)
    . intro cell hcell
      cases List.mem_append.mp (hcells.mem_iff.mp hcell) with
      | inl hnew =>
        have hin := hinside cell hnew
        have hbase := hfresh.1
        have hend := hfresh.2.1
        unfold Inside at hin
        dsimp only at hin
        exact ⟨by omega, by omega⟩
      | inr hold => exact h.bounded cell hold
  refine { hlayout with owns := ?_, drawn := ?_ }
  . intro k pool' hk
    cases getElem?_set_cases hk with
    | inl heq =>
      rw [heq.2, ← heq.1] at hk ⊢
      exact (h.owns idx pool hidx).allocate_chunk hempty (hlayout.wellformed hk)
    | inr hne =>
      apply h.owns_frame (mem, pool.chunkSize) hne.2
      . intro b hb _
        exact (hfresh.apart (mem_cells_of_block hne.2 hb)).symm
      . intro x hx
        exact (FixedMemPool.allocate_chunk_memory (h.wellformed hidx).holds hx).symm
  . intro block hblock hsmall
    unfold MemoryPool.addChunk
    dsimp only
    rw [List.length_set]
    exact h.drawn block hblock hsmall

theorem allocate_chunk_ne_zero (h : heap.Inv) {idx mem : Nat} (hidx : heap.pools_[idx]? = some pool)
    (hempty : pool.free_list_ = 0) (hinv : (heap.addChunk idx mem pool).Inv)
    : (pool.allocate_chunk heap.memory mem).2.free_list_ ≠ 0 := by
  have hlt := (List.getElem?_eq_some_iff.mp hidx).1
  obtain ⟨free, hlinked, hblocks⟩ := h.owns idx pool hidx
  rw [hlinked.head_eq_zero_iff.mp hempty, List.nil_append] at hblocks
  have hgrown : (heap.addChunk idx mem pool).pools_[idx]?
      = some (pool.allocate_chunk heap.memory mem).2 := List.getElem?_set_self hlt
  obtain ⟨free', hlinked', hblocks'⟩ := hinv.owns idx _ hgrown
  rw [ne_eq, hlinked'.head_eq_zero_iff]
  intro hnil
  have hlength := (h.sizes idx pool hidx).2.2
  have hold := hblocks.length_eq
  have hnew := hblocks'.length_eq
  rw [hnil, List.nil_append, FixedMemPool.allocate_chunk_blocks, List.length_append] at hnew
  have htiles : (tiles mem pool.block_size_ pool.block_count_).length = pool.block_count_ := by
    simp [tiles]
  have hused : ((heap.addChunk idx mem pool).used idx).length = (heap.used idx).length := rfl
  omega

theorem allocateFrom (h : heap.Inv) {size mem : Nat} (hsize : size ≤ MAX_BLOCK_SIZE)
    (hstep : heap.allocateFrom (find_pool size) size mem = some heap') : heap'.Inv := by
  unfold MemoryPool.allocateFrom at hstep
  split at hstep
  . next pool hk =>
    split at hstep
    . next hempty =>
      split at hstep
      . next hfresh =>
        rw [Option.some.injEq] at hstep
        rw [← hstep]
        have hinv := h.addChunk hk hempty hfresh
        have hlt := (List.getElem?_eq_some_iff.mp hk).1
        exact hinv.takeFrom hsize (List.getElem?_set_self hlt)
          (h.allocate_chunk_ne_zero hk hempty hinv)
      . contradiction
    . next hne =>
      rw [Option.some.injEq] at hstep
      rw [← hstep]
      exact h.takeFrom hsize hk hne
  . contradiction

theorem construct (h : heap.Inv) {mem : Nat} (hstep : heap.construct mem = some heap') : heap'.Inv := by
  unfold MemoryPool.construct at hstep
  dsimp only at hstep
  split at hstep
  . next hnext =>
    rw [Option.some.injEq] at hstep
    rw [← hstep]
    let pool := FixedMemPool.empty (MIN_BLOCK_SIZE <<< heap.pools_.length)
    have hlast : (heap.pools_ ++ [pool])[heap.pools_.length]? = some pool := by simp
    have hcells : cells { heap with pools_ := heap.pools_ ++ [pool] } = heap.cells := by
      simp [cells, large, pool, FixedMemPool.empty, FixedMemPool.cells, FixedMemPool.blocks]
    have hcases : ∀ k pool', (heap.pools_ ++ [pool])[k]? = some pool' →
        heap.pools_[k]? = some pool' ∨ k = heap.pools_.length ∧ pool' = pool := by
      intro k pool' hk
      rw [List.getElem?_append] at hk
      split at hk
      . exact .inl hk
      . next hge =>
        obtain ⟨hlt, heq⟩ := List.getElem?_eq_some_iff.mp hk
        rw [List.getElem_singleton] at heq
        rw [List.length_singleton] at hlt
        exact .inr ⟨by omega, heq.symm⟩
    have hinv : Inv { heap with pools_ := heap.pools_ ++ [pool] } := by
      refine ⟨⟨?_, ?_, ?_⟩, ?_, ?_⟩
      . intro k pool' hk
        cases hcases k pool' hk with
        | inl hold => exact h.sizes k pool' hold
        | inr hnew =>
          obtain ⟨rfl, rfl⟩ := hnew
          exact ⟨length_le_of_not_constructed hnext.1, rfl, Nat.succ_pos _⟩
      . rw [hcells]
        exact h.apart
      . rw [hcells]
        exact h.bounded
      . intro k pool' hk
        cases hcases k pool' hk with
        | inl hold => exact h.owns k pool' hold
        | inr hnew =>
          obtain ⟨rfl, rfl⟩ := hnew
          -- nothing was drawn from the pool that is being created
          have hnone : heap.used heap.pools_.length = [] := by
            rw [List.eq_nil_iff_forall_not_mem]
            intro ptr hptr
            obtain ⟨block, hblock, hfrom, _⟩ := mem_used.mp hptr
            obtain ⟨hsmall, heq⟩ := comesFrom_iff.mp hfrom
            have hlt := h.drawn block hblock hsmall
            omega
          refine ⟨[], rfl, ?_⟩
          rw [List.nil_append]
          exact List.Perm.of_eq hnone
      . intro block hblock hsmall
        have hlt := h.drawn block hblock hsmall
        dsimp only
        rw [List.length_append]
        exact Nat.lt_add_right _ hlt
    apply hinv.addChunk hlast rfl
    have hregions : regions { heap with pools_ := heap.pools_ ++ [pool] } = heap.regions := by
      simp [regions, large, pool, FixedMemPool.empty, FixedMemPool.regions]
    unfold Fresh
    rw [hregions]
    exact hnext.2
  . contradiction

theorem init (memory : Memory) : (MemoryPool.init memory).Inv where
  sizes := by simp [MemoryPool.init]
  apart := List.Pairwise.nil
  bounded := by simp [MemoryPool.init, cells, large]
  owns := by simp [MemoryPool.init]
  drawn := by simp [MemoryPool.init]

theorem step (h : heap.Inv) {l : Label} (hstep : heap.step l = some heap') : heap'.Inv := by
  cases l with
  | construct mem => exact h.construct hstep
  | allocate size mem =>
    unfold MemoryPool.step MemoryPool.allocate at hstep
    dsimp only at hstep
    split at hstep
    . split at hstep
      . next hsize =>
        split at hstep
        . next hfresh =>
          rw [← Option.some.inj hstep]
          exact h.allocateLarge hsize hfresh
        . contradiction
      . next hsize => exact h.allocateFrom (Nat.le_of_not_lt hsize) hstep
    . contradiction
  | deallocate ptr size =>
    unfold MemoryPool.step MemoryPool.deallocate at hstep
    dsimp only at hstep
    split at hstep
    . next hblock =>
      split at hstep
      . next hsize =>
        rw [← Option.some.inj hstep]
        exact h.deallocateLarge hsize
      . next hsize =>
        split at hstep
        . next pool hk =>
          rw [← Option.some.inj hstep]
          exact h.deallocateSmall hblock (Nat.le_of_not_lt hsize) hk
        . contradiction
    . contradiction
  | write ptr size i byte =>
    unfold MemoryPool.step at hstep
    dsimp only at hstep
    split at hstep
    . next hwrite =>
      rw [← Option.some.inj hstep]
      apply h.write (extent (ptr, size))
      . intro k pool hk b hb hfree
        exact h.free_apart hwrite.1 hk hb hfree
      . intro x hx
        have hinside := inside_extent (ptr, size)
        unfold Inside at hinside
        dsimp only at hinside
        rw [Function.update_of_ne (by omega)]
    . contradiction
  | writeElsewhere x byte =>
    unfold MemoryPool.step at hstep
    dsimp only at hstep
    split at hstep
    . next helse =>
      rw [← Option.some.inj hstep]
      apply h.write (x, 1)
      . intro k pool hk b hb _
        obtain ⟨region, hregion, hinside⟩ := exists_region (mem_cells_of_block hk hb)
        exact ((helse region hregion).mono (.refl _) hinside).symm
      . intro y hy
        dsimp only at hy
        rw [Function.update_of_ne (by omega)]
    . contradiction

end Inv

end MemoryPool
end LFGateway
