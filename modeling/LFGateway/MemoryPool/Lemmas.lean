import LFGateway.Foundation.ListSet
import LFGateway.MemoryPool.Impl

/-!
This module contains what the operations of one `FixedMemPool` do: the blocks of its chunks are on
its free list or in use, and the free list is intact as long as nobody writes free blocks.
-/

namespace LFGateway

open Foundation Memory

namespace FixedMemPool

variable {memory memory' : Memory} {pool : FixedMemPool} {used : List Nat}

/--
The free list of the pool, stored in its nodes, and the blocks in use are together the blocks of its
chunks.
-/
def Owns (memory : Memory) (pool : FixedMemPool) (used : List Nat) : Prop :=
  ∃ free, Linked POINTER_SIZE memory pool.free_list_ free ∧ (free ++ used).Perm pool.blocks

/--
The blocks do not overlap, hold a pointer each and lie below the end of the address space.
-/
structure Wellformed (pool : FixedMemPool) : Prop where
  holds : POINTER_SIZE ≤ pool.block_size_
  apart : pool.blocks.Pairwise fun b c => Apart (b, pool.block_size_) (c, pool.block_size_)
  bounded : ∀ b ∈ pool.blocks, b ≠ 0 ∧ b + pool.block_size_ ≤ 2 ^ 64

theorem Wellformed.nodup (h : pool.Wellformed) : pool.blocks.Nodup := by
  apply h.apart.imp
  intro b c hbc
  have hpos : 0 < pool.block_size_ := Nat.lt_of_lt_of_le (by decide) h.holds
  exact hbc.ne hpos hpos

theorem Wellformed.words (h : pool.Wellformed)
    : pool.blocks.Pairwise fun b c => Apart (b, POINTER_SIZE) (c, POINTER_SIZE) := by
  apply h.apart.imp
  intro b c hbc
  have hle := h.holds
  exact hbc.mono ⟨Nat.le_refl _, by dsimp only; omega⟩ ⟨Nat.le_refl _, by dsimp only; omega⟩

theorem Owns.perm {used' : List Nat} (h : Owns memory pool used) (hperm : used.Perm used')
    : Owns memory pool used' := by
  obtain ⟨free, hlinked, hblocks⟩ := h
  exact ⟨free, hlinked, (hperm.symm.append_left free).trans hblocks⟩

theorem Owns.mem_blocks (h : Owns memory pool used) {b : Nat} (hb : b ∈ used) : b ∈ pool.blocks := by
  obtain ⟨free, _, hblocks⟩ := h
  exact hblocks.mem_iff.mp (List.mem_append_right _ hb)

theorem Owns.nodup (h : Owns memory pool used) (hwf : pool.Wellformed) : used.Nodup := by
  obtain ⟨free, _, hblocks⟩ := h
  exact (List.nodup_append.mp (hblocks.nodup_iff.mpr hwf.nodup)).2.1

theorem Owns.free_spec (h : Owns memory pool used) (hwf : pool.Wellformed)
    : ∃ free, Linked POINTER_SIZE memory pool.free_list_ free ∧ (free ++ used).Perm pool.blocks ∧
        free.Nodup ∧ ∀ b, b ∈ free ↔ b ∈ pool.blocks ∧ b ∉ used := by
  obtain ⟨free, hlinked, hblocks⟩ := h
  have hnodup := List.nodup_append.mp (hblocks.nodup_iff.mpr hwf.nodup)
  refine ⟨free, hlinked, hblocks, hnodup.1, ?_⟩
  intro b
  constructor
  . intro hb
    exact ⟨hblocks.mem_iff.mp (List.mem_append_left _ hb), fun hused => hnodup.2.2 b hb b hused rfl⟩
  . intro ⟨hb, hused⟩
    cases List.mem_append.mp (hblocks.mem_iff.mpr hb) with
    | inl hfree => exact hfree
    | inr hmem => exact absurd hmem hused

theorem Owns.frame (h : Owns memory pool used) (hwf : pool.Wellformed) {region : Region}
    (hapart : ∀ b ∈ pool.blocks, b ∉ used → Apart (b, pool.block_size_) region)
    (hmemory : ∀ x, x < region.1 ∨ region.1 + region.2 ≤ x → memory x = memory' x)
    : Owns memory' pool used := by
  obtain ⟨free, hlinked, hblocks, _, hfree⟩ := h.free_spec hwf
  refine ⟨free, hlinked.congr ?_, hblocks⟩
  intro b hb x hbx hx
  have hregion := hapart b ((hfree b).mp hb).1 ((hfree b).mp hb).2
  have hle := hwf.holds
  unfold Apart at hregion
  exact hmemory x (by dsimp only at hregion; omega)

theorem Owns.head_lt (h : Owns memory pool used) (hwf : pool.Wellformed)
    : pool.free_list_ < 256 ^ POINTER_SIZE := by
  obtain ⟨free, hlinked, hblocks⟩ := h
  cases free with
  | nil =>
    rw [show pool.free_list_ = 0 from hlinked]
    decide
  | cons b free =>
    have hbounded := (hwf.bounded b (hblocks.mem_iff.mp List.mem_cons_self)).2
    have hle := hwf.holds
    have hpow : 256 ^ POINTER_SIZE = 2 ^ 64 := by decide
    rw [hlinked.1, hpow]
    unfold POINTER_SIZE at hle
    omega

theorem Owns.deallocate {ptr : Nat} (h : Owns memory pool (ptr :: used)) (hwf : pool.Wellformed)
    : Owns (pool.deallocate memory ptr).1 (pool.deallocate memory ptr).2 used := by
  have hhead := h.head_lt hwf
  obtain ⟨free, hlinked, hblocks, _, hfree⟩ := h.free_spec hwf
  refine ⟨ptr :: free, ?_, ?_⟩
  . have hptr : ptr ∈ pool.blocks := h.mem_blocks List.mem_cons_self
    apply hlinked.push (hwf.bounded ptr hptr).1 hhead
    intro c hc
    have hmem := (hfree c).mp hc
    apply hwf.words.forall hptr hmem.1
    intro heq
    exact hmem.2 (heq ▸ List.mem_cons_self)
  . exact List.perm_middle.symm.trans hblocks

@[simp]
theorem take_block_size : (pool.take memory).2.block_size_ = pool.block_size_ := rfl

@[simp]
theorem take_block_count : (pool.take memory).2.block_count_ = pool.block_count_ := rfl

@[simp]
theorem take_blocks : (pool.take memory).2.blocks = pool.blocks := rfl

theorem Owns.take (h : Owns memory pool used) (hne : pool.free_list_ ≠ 0)
    : Owns memory (pool.take memory).2 (used ++ [(pool.take memory).1]) := by
  obtain ⟨free, hlinked, hblocks⟩ := h
  cases free with
  | nil => exact absurd hlinked hne
  | cons b free =>
    obtain ⟨hhead, _, hrest⟩ := hlinked
    refine ⟨free, ?_, ?_⟩
    . show Linked POINTER_SIZE memory (memory.load pool.free_list_ POINTER_SIZE) free
      rw [hhead]
      exact hrest
    . have htaken : (pool.take memory).1 = b := hhead
      rw [htaken, take_blocks, ← List.append_assoc]
      exact (List.perm_append_singleton b _).trans hblocks

section LinkBlocks

variable {blocks free : List Nat}

theorem linkBlocks_pool (memory : Memory) (pool : FixedMemPool) (blocks : List Nat)
    : ∃ free_list_, (linkBlocks memory pool blocks).2 = { pool with free_list_ } := by
  induction blocks generalizing memory pool with
  | nil => exact ⟨_, rfl⟩
  | cons b blocks ih =>
    obtain ⟨free_list_, heq⟩ := ih (pool.deallocate memory b).1 (pool.deallocate memory b).2
    exact ⟨free_list_, heq⟩

theorem linkBlocks_memory {x : Nat} (h : ∀ b ∈ blocks, x < b ∨ b + POINTER_SIZE ≤ x)
    : (linkBlocks memory pool blocks).1 x = memory x := by
  induction blocks generalizing memory pool with
  | nil => rfl
  | cons b blocks ih =>
    unfold linkBlocks
    rw [ih fun c hc => h c (List.mem_cons_of_mem _ hc)]
    exact store_of_lt_or_le (h b List.mem_cons_self)

/--
The loop of `allocate_chunk` threads the blocks in front of the free list, the last one first.
-/
theorem linkBlocks_linked (hlinked : Linked POINTER_SIZE memory pool.free_list_ free)
    (hhead : pool.free_list_ < 256 ^ POINTER_SIZE)
    (hbounded : ∀ b ∈ blocks, b ≠ 0 ∧ b < 256 ^ POINTER_SIZE)
    (hapart : (blocks ++ free).Pairwise fun b c => Apart (b, POINTER_SIZE) (c, POINTER_SIZE))
    : Linked POINTER_SIZE (linkBlocks memory pool blocks).1
        (linkBlocks memory pool blocks).2.free_list_ (blocks.reverse ++ free) := by
  induction blocks generalizing memory pool free with
  | nil => exact hlinked
  | cons b blocks ih =>
    rw [List.cons_append, List.pairwise_cons] at hapart
    have hb := hbounded b List.mem_cons_self
    have hpush := hlinked.push hb.1 hhead fun c hc => hapart.1 c (List.mem_append_right _ hc)
    rw [List.reverse_cons, List.append_assoc, List.singleton_append]
    have hpushed : Linked POINTER_SIZE (pool.deallocate memory b).1
        (pool.deallocate memory b).2.free_list_ (b :: free) := hpush
    apply ih hpushed hb.2
    . exact fun c hc => hbounded c (List.mem_cons_of_mem _ hc)
    . apply (List.perm_middle.pairwise_iff fun hbc => hbc.symm).mpr
      exact List.pairwise_cons.mpr hapart

end LinkBlocks

section AllocateChunk

variable {mem : Nat}

theorem allocate_chunk_pool (memory : Memory) (pool : FixedMemPool) (mem : Nat)
    : ∃ free_list_, (pool.allocate_chunk memory mem).2
        =
      { pool with chunks_ := pool.chunks_ ++ [mem], free_list_ } := linkBlocks_pool _ _ _

@[simp]
theorem allocate_chunk_block_size
    : (pool.allocate_chunk memory mem).2.block_size_ = pool.block_size_ := by
  obtain ⟨free_list_, heq⟩ := allocate_chunk_pool memory pool mem
  rw [heq]

@[simp]
theorem allocate_chunk_block_count
    : (pool.allocate_chunk memory mem).2.block_count_ = pool.block_count_ := by
  obtain ⟨free_list_, heq⟩ := allocate_chunk_pool memory pool mem
  rw [heq]

@[simp]
theorem allocate_chunk_blocks
    : (pool.allocate_chunk memory mem).2.blocks
        =
      pool.blocks ++ tiles mem pool.block_size_ pool.block_count_ := by
  obtain ⟨free_list_, heq⟩ := allocate_chunk_pool memory pool mem
  rw [heq]
  simp [blocks, List.flatMap_append]

theorem allocate_chunk_memory (hholds : POINTER_SIZE ≤ pool.block_size_) {x : Nat}
    (h : x < mem ∨ mem + pool.chunkSize ≤ x)
    : (pool.allocate_chunk memory mem).1 x = memory x := by
  apply linkBlocks_memory
  intro b hb
  have hinside := inside_of_mem_tiles hb
  unfold Inside at hinside
  unfold chunkSize at h
  dsimp only at hinside h
  omega

/--
`allocate_chunk` for an empty free list makes the free list of the new blocks.
-/
theorem Owns.allocate_chunk (h : Owns memory pool used) (hempty : pool.free_list_ = 0)
    (hwf : (pool.allocate_chunk memory mem).2.Wellformed)
    : Owns (pool.allocate_chunk memory mem).1 (pool.allocate_chunk memory mem).2 used := by
  obtain ⟨free, hlinked, hblocks⟩ := h
  rw [hlinked.head_eq_zero_iff.mp hempty, List.nil_append] at hblocks
  have hwords := hwf.words
  rw [allocate_chunk_blocks, List.pairwise_append] at hwords
  have hholds := hwf.holds
  rw [allocate_chunk_block_size] at hholds
  have hpow : 256 ^ POINTER_SIZE = 2 ^ 64 := by decide
  refine ⟨(tiles mem pool.block_size_ pool.block_count_).reverse ++ [], ?_, ?_⟩
  . apply linkBlocks_linked
    . exact hempty
    . rw [hempty]
      decide
    . intro b hb
      have hmem : b ∈ (pool.allocate_chunk memory mem).2.blocks := by
        rw [allocate_chunk_blocks]
        exact List.mem_append_right _ hb
      have hbounded := hwf.bounded b hmem
      rw [allocate_chunk_block_size] at hbounded
      unfold POINTER_SIZE at hholds
      rw [hpow]
      exact ⟨hbounded.1, by omega⟩
    . rw [List.append_nil]
      exact hwords.2.1
  . rw [allocate_chunk_blocks, List.append_nil]
    exact ((List.reverse_perm _).append hblocks).trans List.perm_append_comm

end AllocateChunk

@[simp]
theorem deallocate_block_size {ptr : Nat}
    : (pool.deallocate memory ptr).2.block_size_ = pool.block_size_ := rfl

@[simp]
theorem deallocate_block_count {ptr : Nat}
    : (pool.deallocate memory ptr).2.block_count_ = pool.block_count_ := rfl

@[simp]
theorem deallocate_blocks {ptr : Nat} : (pool.deallocate memory ptr).2.blocks = pool.blocks := rfl

theorem cells_congr {pool' : FixedMemPool} (hblocks : pool'.blocks = pool.blocks)
    (hsize : pool'.block_size_ = pool.block_size_) : pool'.cells = pool.cells := by
  unfold cells
  rw [hblocks, hsize]

theorem exists_region {cell : Region} (h : cell ∈ pool.cells)
    : ∃ region ∈ pool.regions, Inside cell region := by
  obtain ⟨b, hb, rfl⟩ := List.mem_map.mp h
  obtain ⟨chunk, hchunk, hb⟩ := List.mem_flatMap.mp hb
  exact ⟨_, List.mem_map_of_mem hchunk, inside_of_mem_tiles hb⟩

end FixedMemPool
end LFGateway
