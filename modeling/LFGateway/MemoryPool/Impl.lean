import LFGateway.Foundation.Loop
import LFGateway.Foundation.Machine
import LFGateway.Foundation.Memory

/-!
This module contains `FixedMemPool` and `MemoryPool` over a byte addressed memory, the free lists
being stored in the free blocks. What `::operator new` returns is part of a label, and a step is only
enabled if this is a fresh region.
-/

namespace LFGateway

open Foundation Memory

/--
`sizeof(void*)`
-/
def POINTER_SIZE : Nat := 8

structure FixedMemPool where
  block_size_ : Nat
  block_count_ : Nat
  free_list_ : Nat
  chunks_ : List Nat
  deriving DecidableEq, Repr

namespace FixedMemPool

def blocks (pool : FixedMemPool) : List Nat :=
  pool.chunks_.flatMap fun chunk => tiles chunk pool.block_size_ pool.block_count_

def cells (pool : FixedMemPool) : List Region := pool.blocks.map fun block => (block, pool.block_size_)

def chunkSize (pool : FixedMemPool) : Nat := pool.block_size_ * pool.block_count_

def regions (pool : FixedMemPool) : List Region :=
  pool.chunks_.map fun chunk => (chunk, pool.chunkSize)

/--
`deallocate`: the head of the free list is stored in the block, and the block is the new head.
-/
def deallocate (memory : Memory) (pool : FixedMemPool) (ptr : Nat) : Memory × FixedMemPool :=
  (memory.store ptr pool.free_list_ POINTER_SIZE, { pool with free_list_ := ptr })

/--
The loop of `allocate_chunk`, whose body does to a block what `deallocate` does.
-/
def linkBlocks (memory : Memory) (pool : FixedMemPool) : List Nat → Memory × FixedMemPool
  | [] => (memory, pool)
  | block :: blocks =>
    let (memory, pool) := pool.deallocate memory block
    linkBlocks memory pool blocks

/--
`mem` is what `::operator new` returns.
-/
def allocate_chunk (memory : Memory) (pool : FixedMemPool) (mem : Nat) : Memory × FixedMemPool :=
  let pool := { pool with chunks_ := pool.chunks_ ++ [mem] }
  linkBlocks memory pool (tiles mem pool.block_size_ pool.block_count_)

/--
`allocate` behind the test for an empty free list.
-/
def take (memory : Memory) (pool : FixedMemPool) : Nat × FixedMemPool :=
  (pool.free_list_, { pool with free_list_ := memory.load pool.free_list_ POINTER_SIZE })

/--
The pool before its constructor allocates the first chunk.
-/
def empty (block_size : Nat) : FixedMemPool := ⟨block_size, 1024, 0, []⟩

end FixedMemPool

/--
`memory` is the memory of the process, `outstanding` the blocks that were allocated and not yet
deallocated, with the sizes that were asked for.
-/
structure MemoryPool where
  memory : Memory
  pools_ : List FixedMemPool
  outstanding : List Region

namespace MemoryPool

def MIN_BLOCK_SIZE : Nat := 8

def MAX_BLOCK_SIZE : Nat := 4096

def isLarge (block : Region) : Bool := MAX_BLOCK_SIZE < block.2

def large (heap : MemoryPool) : List Region := heap.outstanding.filter isLarge

def regions (heap : MemoryPool) : List Region :=
  heap.pools_.flatMap FixedMemPool.regions ++ heap.large

/--
`::operator new(len)` may return `base`.
-/
def Fresh (heap : MemoryPool) (base len : Nat) : Prop :=
  base ≠ 0 ∧ base + len ≤ 2 ^ 64 ∧ ∀ region ∈ heap.regions, Apart (base, len) region

instance (heap : MemoryPool) (base len : Nat) : Decidable (heap.Fresh base len) :=
  inferInstanceAs (Decidable (_ ∧ _ ∧ _))

/--
One round of the loop of `find_pool`: `sz` is `MIN_BLOCK_SIZE` shifted `idx` times.
-/
def find_pool.body (size idx : Nat) : Iter Nat Nat :=
  let sz := MIN_BLOCK_SIZE <<< idx
  if sz < size ∧ sz ≤ MAX_BLOCK_SIZE then .next (idx + 1) else .done idx

theorem find_pool.decreases (size : Nat) : Decreases (find_pool.body size) (MAX_BLOCK_SIZE + 1 - ·) := by
  intro idx idx' h
  unfold body at h
  dsimp only at h
  split at h
  . next hsz =>
    have hlt := Nat.lt_two_pow_self (n := idx)
    have hle := hsz.2
    rw [Nat.shiftLeft_eq, MIN_BLOCK_SIZE] at hle
    rw [Iter.next.injEq] at h
    dsimp only
    omega
  . contradiction

/--
The index of the pool that `find_pool` returns.
-/
def find_pool (size : Nat) : Nat :=
  loop (find_pool.body size) (MAX_BLOCK_SIZE + 1 - ·) (find_pool.decreases size) 0

def Constructed (heap : MemoryPool) : Prop := MAX_BLOCK_SIZE < MIN_BLOCK_SIZE <<< heap.pools_.length

instance (heap : MemoryPool) : Decidable heap.Constructed :=
  inferInstanceAs (Decidable (_ < _))

/--
Before the constructor: `memory` has any contents.
-/
def init (memory : Memory) : MemoryPool := ⟨memory, [], []⟩

inductive Label where
  /-- the constructor creates its next pool, whose first chunk is at `mem` -/
  | construct (mem : Nat)
  /-- `mem` is what `::operator new` returns, if it is called -/
  | allocate (size mem : Nat)
  | deallocate (ptr size : Nat)
  /-- the holder of a block writes byte `i` of it -/
  | write (ptr size i : Nat) (byte : UInt8)
  /-- something else writes memory that is neither in a chunk nor in an outstanding block -/
  | writeElsewhere (x : Nat) (byte : UInt8)
  deriving DecidableEq, Repr

def takeFrom (heap : MemoryPool) (idx size : Nat) (pool : FixedMemPool) : MemoryPool :=
  let taken := pool.take heap.memory
  { heap with
    pools_ := heap.pools_.set idx taken.2
    outstanding := heap.outstanding ++ [(taken.1, size)]
  }

def addChunk (heap : MemoryPool) (idx mem : Nat) (pool : FixedMemPool) : MemoryPool :=
  let grown := pool.allocate_chunk heap.memory mem
  { heap with memory := grown.1, pools_ := heap.pools_.set idx grown.2 }

def construct (heap : MemoryPool) (mem : Nat) : Option MemoryPool :=
  let pool := FixedMemPool.empty (MIN_BLOCK_SIZE <<< heap.pools_.length)
  if ¬heap.Constructed ∧ heap.Fresh mem pool.chunkSize then
    let idx := heap.pools_.length
    some ({ heap with pools_ := heap.pools_ ++ [pool] }.addChunk idx mem pool)
  else
    none

def allocateFrom (heap : MemoryPool) (idx size mem : Nat) : Option MemoryPool :=
  match heap.pools_[idx]? with
  | some pool =>
    if pool.free_list_ = 0 then
      if heap.Fresh mem pool.chunkSize then
        let grown := pool.allocate_chunk heap.memory mem
        some ((heap.addChunk idx mem pool).takeFrom idx size grown.2)
      else
        none
    else
      some (heap.takeFrom idx size pool)
  | none => none

def allocate (heap : MemoryPool) (size mem : Nat) : Option MemoryPool :=
  if MAX_BLOCK_SIZE < size then
    if heap.Fresh mem size then
      some { heap with outstanding := heap.outstanding ++ [(mem, size)] }
    else
      none
  else
    heap.allocateFrom (find_pool size) size mem

def deallocate (heap : MemoryPool) (ptr size : Nat) : Option MemoryPool :=
  let outstanding := heap.outstanding.erase (ptr, size)
  if MAX_BLOCK_SIZE < size then
    some { heap with outstanding }
  else
    match heap.pools_[find_pool size]? with
    | some pool =>
      let freed := pool.deallocate heap.memory ptr
      some ⟨freed.1, heap.pools_.set (find_pool size) freed.2, outstanding⟩
    | none => none

def step (heap : MemoryPool) : Label → Option MemoryPool
  | .construct mem => heap.construct mem
  | .allocate size mem => if heap.Constructed then heap.allocate size mem else none
  | .deallocate ptr size =>
    if (ptr, size) ∈ heap.outstanding then heap.deallocate ptr size else none
  | .write ptr size i byte =>
    if (ptr, size) ∈ heap.outstanding ∧ i < size then
      some { heap with memory := Function.update heap.memory (ptr + i) byte }
    else
      none
  | .writeElsewhere x byte =>
    if ∀ region ∈ heap.regions, Apart (x, 1) region then
      some { heap with memory := Function.update heap.memory x byte }
    else
      none

end MemoryPool
end LFGateway
