import Mathlib
import Pixy.Found.Bytes
import Pixy.Found.CLayout
import Pixy.Found.Ring
import Pixy.Found.Runs

/-!
# The memory pool

`MemoryPool.c` as state passing. A chunk and a block are their addresses. The free list of a chunk
goes through the blocks themselves, so it is in `bytes`, where the user writes as well; the header
of a chunk is kept as fields of their own, and that no block reaches into a header is one of the
results.

An access to a chunk that is not the pool's, a `CONTAINER_OF` of the wrong list head and a `free` of
what was not allocated are `none`.

Three fields are no part of the program: `chunks` is what the pool has from `posix_memalign`,
`allocated` what the user has from the pool, and `released` what has been given to `free`, in order.
-/

namespace Pixy.Mem

open Pixy.Found

/-- Source: `MemoryPool.c`, the fields of `struct MemoryChunk`. -/
inductive ChunkField
  | listItem
  | prev
  | next
  | freeSlot
  | numberOfFreeSlots
  deriving DecidableEq

/-- Source: `MemoryPool.c`, `struct MemoryChunk`. -/
def memoryChunk : CType ChunkField :=
  .struct (.cons .listItem (.struct (.cons .prev (.scalar 8) (.cons .next (.scalar 8) .nil)))
    (.cons .freeSlot (.scalar 8) (.cons .numberOfFreeSlots (.scalar 4) .nil)))

/-- Source: `MemoryPool.c`, `MEMORY_CHUNK_SIZE`. -/
def memoryChunkSize : ℕ := 65536

/-- Source: `MemoryPool.c`, `MemoryChunkPayloadSize`. -/
def memoryChunkPayloadSize : ℕ := memoryChunkSize - memoryChunk.size

/-- What is linked, or is the head of a list. -/
inductive ChunkNode
  | usableChunkListHead
  | unusableChunkListHead
  | listItem (chunk : ℕ)
  deriving DecidableEq

/-- Source: `MemoryPool.h`, `struct MemoryPool`, with the headers of the chunks and the memory. -/
structure MemoryPool where
  /-- The size of a block. -/
  blockSize : ℕ
  /-- How many of them there are in a chunk. -/
  numberOfSlotsPerChunk : ℤ
  /-- The links of the two list heads and of all chunks. -/
  links : Links ChunkNode
  /-- The first block of the free list of a chunk. -/
  freeSlot : ℕ → ℕ
  /-- The length of the free list of a chunk. -/
  numberOfFreeSlots : ℕ → ℤ
  /-- The memory. -/
  bytes : Bytes
  /-- The chunks. -/
  chunks : Finset ℕ
  /-- The blocks in use. -/
  allocated : List ℕ
  /-- The chunks given back. -/
  released : List ℕ

namespace MemoryPool

/-- The memory is not initialized.
Source: `MemoryPool.c`, `MemoryPool_Initialize`. -/
def init (blockSize : ℕ) (links : Links ChunkNode) (freeSlot : ℕ → ℕ) (numberOfFreeSlots : ℕ → ℤ)
    (bytes : Bytes) : MemoryPool :=
  let blockSize := if blockSize < 8 then 8 else blockSize
  { blockSize := blockSize
    numberOfSlotsPerChunk := (memoryChunkPayloadSize / blockSize : ℕ)
    links := (links.makeEmpty .usableChunkListHead).makeEmpty .unusableChunkListHead
    freeSlot := freeSlot
    numberOfFreeSlots := numberOfFreeSlots
    bytes := bytes
    chunks := ∅
    allocated := []
    released := [] }

/-- Source: `MemoryPool.c`, `LocateMemoryChunk`. -/
def locateMemoryChunk (memoryBlock : ℕ) : ℕ :=
  (BitVec.ofNat 64 memoryBlock &&& ~~~BitVec.ofNat 64 (memoryChunkSize - 1)).toNat

/-! ## Chunks -/

/-- The loop that links the slots of a new chunk, from `slot` downwards.
Source: `MemoryPool.c`, `MemoryPool_IncreaseChunks`. -/
def carve (blockSize chunk : ℕ) : ℕ → Bytes → ℕ → Option Bytes
  | 0, _, _ => none
  | fuel + 1, bytes, slot =>
    let block := slot - blockSize
    if block < chunk + memoryChunk.size then some (bytes.store slot 0)
    else carve blockSize chunk fuel (bytes.store slot block) block

/-- `memalign` is what `posix_memalign` returns, with what is in the memory there.
Source: `MemoryPool.c`, `MemoryPool_IncreaseChunks`. -/
def increaseChunks (self : MemoryPool) (memalign : Option (ℕ × Bytes)) :
    Option (MemoryPool × Bool) :=
  match memalign with
  | none => some (self, false)
  | some (chunk, contents) => do
    let bytes : Bytes := fun a =>
      if chunk ≤ a ∧ a < chunk + memoryChunkSize then contents a else self.bytes a
    let slot := chunk + memoryChunkSize - self.blockSize
    let bytes ← carve self.blockSize chunk memoryChunkSize bytes slot
    return ({ self with
      bytes := bytes
      chunks := insert chunk self.chunks
      freeSlot := Function.update self.freeSlot chunk slot
      numberOfFreeSlots := Function.update self.numberOfFreeSlots chunk self.numberOfSlotsPerChunk
      links := self.links.insertFront .usableChunkListHead (.listItem chunk) }, true)

/-! ## Blocks -/

/-- Take the first slot of a chunk. Source: `MemoryPool.c`, `MemoryPool_AllocateBlock`. -/
def takeSlot (self : MemoryPool) (chunk : ℕ) : MemoryPool × ℕ :=
  let slot := self.freeSlot chunk
  let numberOfFreeSlots := self.numberOfFreeSlots chunk - 1
  let self := { self with
    freeSlot := Function.update self.freeSlot chunk (self.bytes.load slot)
    numberOfFreeSlots := Function.update self.numberOfFreeSlots chunk numberOfFreeSlots
    allocated := self.allocated ++ [slot] }
  if numberOfFreeSlots = 0 then
    ({ self with
      links := (self.links.remove (.listItem chunk)).insertBack .unusableChunkListHead
        (.listItem chunk) }, slot)
  else (self, slot)

/-- Source: `MemoryPool.c`, `MemoryPool_AllocateBlock`. -/
def allocateBlock (self : MemoryPool) (memalign : Option (ℕ × Bytes)) :
    Option (MemoryPool × Option ℕ) := do
  let (self, ok) ← (if self.links.IsEmpty .usableChunkListHead then self.increaseChunks memalign
    else some (self, true))
  if ok then
    match self.links.prev .usableChunkListHead with
    | .listItem chunk =>
      if chunk ∈ self.chunks then
        let (self, slot) := self.takeSlot chunk
        return (self, some slot)
      else none
    | _ => none
  else return (self, none)

/-- Source: `MemoryPool.c`, `MemoryPool_FreeBlock`. -/
def freeBlock (self : MemoryPool) (block : ℕ) : Option MemoryPool :=
  let chunk := locateMemoryChunk block
  if chunk ∈ self.chunks then
    let numberOfFreeSlots := self.numberOfFreeSlots chunk + 1
    let self := { self with
      bytes := self.bytes.store block (self.freeSlot chunk)
      freeSlot := Function.update self.freeSlot chunk block
      numberOfFreeSlots := Function.update self.numberOfFreeSlots chunk numberOfFreeSlots
      allocated := self.allocated.erase block }
    if numberOfFreeSlots = 1 then
      some { self with
        links := (self.links.remove (.listItem chunk)).insertBack .usableChunkListHead
          (.listItem chunk) }
    else if numberOfFreeSlots < self.numberOfSlotsPerChunk then some self
    else
      match self.links.prev (.listItem chunk) with
      | .usableChunkListHead => some self
      | .unusableChunkListHead => none
      | .listItem chunkPrev =>
        if chunkPrev ∈ self.chunks then
          if self.numberOfFreeSlots chunkPrev = self.numberOfSlotsPerChunk then some self
          else
            some { self with
              links := (self.links.remove (.listItem chunk)).insertFront .usableChunkListHead
                (.listItem chunk) }
        else none
  else none

/-! ## Giving chunks back -/

/-- The loop; the next item is read before the item is removed.
Source: `MemoryPool.c`, `MemoryPool_ShrinkToFit`. -/
def shrinkLoop : ℕ → MemoryPool → ChunkNode → Option MemoryPool
  | _, self, .usableChunkListHead => some self
  | fuel + 1, self, .listItem chunk =>
    let temp := self.links.next (.listItem chunk)
    if chunk ∈ self.chunks then
      if self.numberOfFreeSlots chunk < self.numberOfSlotsPerChunk then some self
      else
        let self := { self with
          links := self.links.remove (.listItem chunk)
          chunks := self.chunks.erase chunk
          released := self.released ++ [chunk] }
        shrinkLoop fuel self temp
    else none
  | _, _, _ => none

/-- Source: `MemoryPool.c`, `MemoryPool_ShrinkToFit`. -/
def shrinkToFit (self : MemoryPool) : Option MemoryPool :=
  shrinkLoop self.chunks.card self (self.links.next .usableChunkListHead)

/-- The user writes a byte. -/
def write (self : MemoryPool) (address : ℕ) (value : BitVec 8) : MemoryPool :=
  { self with bytes := Function.update self.bytes address value }

end MemoryPool

/-! ## The system -/

/-- What is done with a pool, with the environment's choices. -/
inductive PoolAction
  /-- A call of `MemoryPool_AllocateBlock`. -/
  | allocateBlock (memalign : Option (ℕ × Bytes))
  /-- A call of `MemoryPool_FreeBlock`. -/
  | freeBlock (block : ℕ)
  /-- A call of `MemoryPool_ShrinkToFit`. -/
  | shrinkToFit
  /-- The user writes into his memory. -/
  | write (address : ℕ) (value : BitVec 8)

namespace PoolAction

/-- What `posix_memalign` returns: a chunk that is aligned and apart from those that the pool
has. -/
def Fresh (pool : MemoryPool) (chunk : ℕ) : Prop :=
  memoryChunkSize ∣ chunk ∧ 0 < chunk ∧ chunk + memoryChunkSize ≤ 2 ^ 64 ∧
    ∀ other ∈ pool.chunks, other + memoryChunkSize ≤ chunk ∨ chunk + memoryChunkSize ≤ other

/-- What the callers and the C library see to: only blocks in use are freed and written to. -/
def Allowed (pool : MemoryPool) : PoolAction → Prop
  | allocateBlock memalign => ∀ fresh ∈ memalign, Fresh pool fresh.1
  | freeBlock block => block ∈ pool.allocated
  | shrinkToFit => True
  | write address _ => ∃ block ∈ pool.allocated, block ≤ address ∧ address < block + pool.blockSize

/-- The action itself. -/
def perform (pool : MemoryPool) : PoolAction → Option MemoryPool
  | allocateBlock memalign => (pool.allocateBlock memalign).map (·.1)
  | freeBlock block => pool.freeBlock block
  | shrinkToFit => pool.shrinkToFit
  | write address value => some (pool.write address value)

instance (pool : MemoryPool) (chunk : ℕ) : Decidable (Fresh pool chunk) := by
  unfold Fresh
  infer_instance

instance (pool : MemoryPool) (action : PoolAction) : Decidable (action.Allowed pool) := by
  cases action with
  | allocateBlock memalign =>
      cases memalign with
      | none => exact .isTrue (by simp [Allowed])
      | some fresh => exact decidable_of_iff (Fresh pool fresh.1) (by simp [Allowed])
  | freeBlock block => exact inferInstanceAs (Decidable (block ∈ pool.allocated))
  | shrinkToFit => exact .isTrue trivial
  | write address value =>
      exact inferInstanceAs (Decidable (∃ block ∈ pool.allocated,
        block ≤ address ∧ address < block + pool.blockSize))

end PoolAction

/-- **The pool under any sequence of actions.** -/
def memoryPoolSystem : StepSystem MemoryPool PoolAction where
  init pool := ∃ blockSize links freeSlot numberOfFreeSlots bytes,
    blockSize ≤ memoryChunkPayloadSize ∧
      pool = .init blockSize links freeSlot numberOfFreeSlots bytes
  step pool action := if action.Allowed pool then action.perform pool else none

end Pixy.Mem
