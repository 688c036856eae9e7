import LFGateway.MemoryPool.Invariant

/-!
This module contains what the users of `MemoryPool` rely on: whatever they write into their blocks,
blocks do not overlap, every call finds its pool, and the free lists are intact.
-/

namespace LFGateway
namespace MemoryPool

open Foundation Memory

variable {heap : MemoryPool}

/--
`allocate` is defined for every size: there is a pool for it, and `::operator new` is only asked for a
chunk.
-/
theorem isSome_allocate (hconstructed : heap.Constructed) (size mem : Nat)
    (hlarge : MAX_BLOCK_SIZE < size → heap.Fresh mem size)
    (hsmall : ∀ pool ∈ heap.pools_, heap.Fresh mem pool.chunkSize)
    : (heap.step (.allocate size mem)).isSome := by
  unfold step allocate
  dsimp only
  rw [if_pos hconstructed]
  split
  . next hsize =>
    rw [if_pos (hlarge hsize)]
    rfl
  . next hsize =>
    have hle := (find_pool_spec (Nat.le_of_not_lt hsize)).1
    have hlt := lt_length_of_constructed hconstructed
    have hidx : find_pool size < heap.pools_.length := by omega
    unfold allocateFrom
    rw [List.getElem?_eq_getElem hidx]
    dsimp only
    rw [if_pos (hsmall _ (List.getElem_mem hidx))]
    split <;> rfl

theorem Inv.isSome_deallocate (h : heap.Inv) {ptr size : Nat} (hblock : (ptr, size) ∈ heap.outstanding)
    : (heap.step (.deallocate ptr size)).isSome := by
  unfold MemoryPool.step MemoryPool.deallocate
  dsimp only
  rw [if_pos hblock]
  split
  . rfl
  . next hsize =>
    have hidx := h.drawn _ hblock (not_large_iff.mpr (Nat.le_of_not_lt hsize))
    rw [List.getElem?_eq_getElem hidx]
    rfl

/--
The free list of pool `k` is `free`: it ends, no node is on it twice, and its nodes are the blocks of
the pool that are not outstanding.
-/
structure IsFreeList (heap : MemoryPool) (pool : FixedMemPool) (free : List Nat) : Prop where
  linked : Linked POINTER_SIZE heap.memory pool.free_list_ free
  acyclic : free.Nodup
  mem_iff : ∀ b, b ∈ free ↔ b ∈ pool.blocks ∧ b ∉ heap.outstanding.map Prod.fst

/--
Outstanding blocks overlap neither each other nor a free block. A small one is a block, large enough,
of the pool that `deallocate` will choose for it, and that pool is the only one it is a block of. A
large one has a region of its own.
-/
structure Separated (heap : MemoryPool) : Prop where
  outstanding : heap.outstanding.Pairwise Apart
  free : ∀ pool ∈ heap.pools_, ∃ free, heap.IsFreeList pool free ∧
    ∀ b ∈ free, ∀ block ∈ heap.outstanding, Apart (b, pool.block_size_) block
  small : ∀ block ∈ heap.outstanding, block.2 ≤ MAX_BLOCK_SIZE →
    ∃ pool, heap.pools_[find_pool block.2]? = some pool ∧ block.1 ∈ pool.blocks ∧
      block.2 ≤ pool.block_size_ ∧
      ∀ k pool', heap.pools_[k]? = some pool' → block.1 ∈ pool'.blocks → k = find_pool block.2
  large : ∀ block ∈ heap.outstanding, MAX_BLOCK_SIZE < block.2 →
    ∀ cell ∈ heap.cells, cell ≠ block → Apart block cell

theorem Inv.pool_unique (h : heap.Inv) {k k' b : Nat} {pool pool' : FixedMemPool}
    (hk : heap.pools_[k]? = some pool) (hk' : heap.pools_[k']? = some pool')
    (hb : b ∈ pool.blocks) (hb' : b ∈ pool'.blocks) : k = k' := by
  by_contra hne
  have hsize := (h.sizes k pool hk).2.1
  have hsize' := (h.sizes k' pool' hk').2.1
  have hapart := h.apart.forall (mem_cells_of_block hk hb) (mem_cells_of_block hk' hb') (by
    intro heq
    rw [Prod.mk.injEq, hsize, hsize'] at heq
    exact hne (size_class_inj heq.2))
  have hpos := Nat.lt_of_lt_of_le (by decide : 0 < POINTER_SIZE) (h.wellformed hk).holds
  have hpos' := Nat.lt_of_lt_of_le (by decide : 0 < POINTER_SIZE) (h.wellformed hk').holds
  exact hapart.ne hpos hpos' rfl

theorem Inv.mem_used_iff (h : heap.Inv) {k b : Nat} {pool : FixedMemPool}
    (hk : heap.pools_[k]? = some pool) (hb : b ∈ pool.blocks)
    : b ∈ heap.used k ↔ b ∈ heap.outstanding.map Prod.fst := by
  constructor
  . intro hused
    obtain ⟨block, hblock, _, rfl⟩ := mem_used.mp hused
    exact List.mem_map_of_mem hblock
  . intro hmem
    obtain ⟨block, hblock, rfl⟩ := List.mem_map.mp hmem
    by_contra hfree
    have hapart := h.free_apart hblock hk hb hfree
    have hpos := Nat.lt_of_lt_of_le (by decide : 0 < POINTER_SIZE) (h.wellformed hk).holds
    cases hlarge : isLarge block with
    | true =>
      rw [extent, hlarge] at hapart
      rw [isLarge, decide_eq_true_eq, MAX_BLOCK_SIZE] at hlarge
      exact hapart.ne hpos (Nat.zero_lt_of_lt hlarge) rfl
    | false =>
      obtain ⟨pool', hpool', hmem'⟩ := h.mem_blocks_of_used hblock hlarge
      have hkey := h.pool_unique hk hpool' hb hmem'
      exact hfree (mem_used.mpr ⟨block, hblock, comesFrom_iff.mpr ⟨hlarge, hkey.symm⟩, rfl⟩)

theorem Inv.separated (h : heap.Inv) : heap.Separated where
  outstanding :=
    h.outstanding_apart.imp fun hapart => hapart.mono (inside_extent _) (inside_extent _)
  free := by
    intro pool hpool
    obtain ⟨k, hk⟩ := List.getElem?_of_mem hpool
    obtain ⟨free, hlinked, _, hnodup, hmem⟩ := (h.owns k pool hk).free_spec (h.wellformed hk)
    refine ⟨free, ⟨hlinked, hnodup, ?_⟩, ?_⟩
    . intro b
      rw [hmem]
      exact and_congr_right fun hb => not_congr (h.mem_used_iff hk hb)
    . intro b hb block hblock
      have hfree := (hmem b).mp hb
      exact (h.free_apart hblock hk hfree.1 hfree.2).mono (.refl _) (inside_extent _)
  small := by
    intro block hblock hsize
    obtain ⟨pool, hpool, hmem⟩ := h.mem_blocks_of_used hblock (not_large_iff.mpr hsize)
    refine ⟨pool, hpool, hmem, ?_, ?_⟩
    . rw [(h.sizes _ pool hpool).2.1]
      exact (find_pool_spec hsize).2
    . intro k pool' hk hmem'
      exact h.pool_unique hk hpool hmem' hmem
  large := by
    intro block hblock hsize cell hcell hne
    have hlarge : isLarge block = true := by simpa [isLarge] using hsize
    have hmem := h.extent_mem_cells hblock
    rw [extent, hlarge] at hmem
    exact h.apart.forall hmem hcell (Ne.symm hne)

/--
In every run, whatever the holders write into their blocks and wherever `::operator new` puts its
regions, the blocks stay separated and the free lists intact.
-/
theorem separated_of_exec (memory : Memory) (ls : List Label) (heap : MemoryPool)
    (h : exec step (init memory) ls = some heap) : heap.Separated := by
  have hinv : heap.Inv :=
    exec_invariant step (P := Inv) (fun _ _ _ hinv hstep => hinv.step hstep) (Inv.init memory) h
  exact hinv.separated

def twoClasses : List Label :=
  (List.range 10).map (fun k => .construct ((k + 1) * 0x1000000)) ++
    [.allocate 5 0, .allocate 5000 0x10000000, .write 0x1001ff8 5 4 7, .allocate 100 0,
      .deallocate 0x1001ff8 5, .deallocate 0x10000000 5000, .allocate 8 0, .deallocate 0x1001ff8 8]

theorem separated_twoClasses
    : ∃ heap, exec step (init fun _ => 0) twoClasses = some heap ∧ heap.Separated := by
  have hend := Option.eq_some_of_isSome
    (o := exec step (init fun _ => 0) twoClasses) (by decide +kernel)
  exact ⟨_, hend, separated_of_exec _ twoClasses _ hend⟩

end MemoryPool
end LFGateway
