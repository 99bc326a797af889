import Pixy.Mem.Calls

/-!
# The pool over all runs

* `shape_of_reachable`: the invariant;
* `pool_blocks`: blocks in use never overlap and none is lost;
* `shrink_complete`: the chunks that are wholly free are a prefix of the usable list, and shrinking
  releases exactly these.
-/

namespace Pixy.Mem

open Pixy.Found

namespace MemoryPool

variable {p p' : MemoryPool} {free : ℕ → List ℕ} {usable unusable : List ℕ}

/-! ## The invariant -/

/-- A pool that has just been initialized has the shape of one without chunks, whatever its memory
holds, for every block size that fits into a chunk. -/
theorem shape_init {blockSize : ℕ} (hsize : blockSize ≤ memoryChunkPayloadSize)
    (links : Links ChunkNode) (freeSlot : ℕ → ℕ) (numberOfFreeSlots : ℕ → ℤ) (bytes : Bytes) :
    (MemoryPool.init blockSize links freeSlot numberOfFreeSlots bytes).Shape
      (fun _ => []) [] [] := by
  have hsmall : 8 ≤ (if blockSize < 8 then 8 else blockSize) ∧
      (if blockSize < 8 then 8 else blockSize) ≤ memoryChunkPayloadSize := by
    rw [memoryChunkPayloadSize_eq] at hsize ⊢
    split_ifs <;> omega
  have husable : ((links.makeEmpty .usableChunkListHead).makeEmpty .unusableChunkListHead).Ring
      .usableChunkListHead [] :=
    (Links.ring_makeEmpty links _).congr fun y hy => Links.makeEmpty_other (by
      rw [List.mem_singleton.mp hy]
      simp)
  refine ⟨⟨hsmall, rfl, ?_, ?_, ?_, ?_, ?_⟩, husable, Links.ring_makeEmpty _ _, ?_, ?_, .nil⟩
  all_goals simp [MemoryPool.init]

/-- **Shrinking** takes the chunks that are wholly free from the front of the usable list. -/
theorem Shape.shrinkToFit (h : p.Shape free usable unusable) :
    ∃ p', p.shrinkToFit = some p' ∧
      p'.Shape free
        (usable.dropWhile fun c => p.numberOfFreeSlots c = p.numberOfSlotsPerChunk) unusable ∧
      p'.released = p.released ++
        usable.takeWhile (fun c => p.numberOfFreeSlots c = p.numberOfSlotsPerChunk) ∧
      (∀ c, c ∈ p'.chunks ↔ c ∈ p.chunks ∧
        c ∉ usable.takeWhile fun c => p.numberOfFreeSlots c = p.numberOfSlotsPerChunk) ∧
      p'.allocated = p.allocated ∧ p'.numberOfFreeSlots = p.numberOfFreeSlots ∧
      p'.numberOfSlotsPerChunk = p.numberOfSlotsPerChunk := by
  refine h.shrinkLoop ?_
  rw [← List.toFinset_card_of_nodup h.listed.usable_nodup]
  refine Finset.card_le_card fun c hc => ?_
  exact ((h.listed.mem_usable c).mp (List.mem_toFinset.mp hc)).1

/-- **Every action succeeds and keeps the invariant**, also one whose `posix_memalign` fails: the
pool is then as it was, and no block is returned. -/
theorem Shape.perform (h : p.Shape free usable unusable) {action : PoolAction}
    (hallowed : action.Allowed p) :
    ∃ p' free' usable' unusable', action.perform p = some p' ∧
      p'.Shape free' usable' unusable' := by
  cases action with
  | allocateBlock memalign =>
      obtain ⟨-, -, hnone⟩ | ⟨p', block, free', usable', unusable', hcall, hshape, -⟩ :=
        h.allocateBlock hallowed
      · exact ⟨p, free, usable, unusable, by simp [PoolAction.perform, hnone], h⟩
      · exact ⟨p', free', usable', unusable', by simp [PoolAction.perform, hcall], hshape⟩
  | freeBlock block =>
      obtain ⟨p', free', usable', unusable', hcall, hshape, -⟩ := h.freeBlock hallowed
      exact ⟨p', free', usable', unusable', hcall, hshape⟩
  | shrinkToFit =>
      obtain ⟨p', hcall, hshape, -⟩ := h.shrinkToFit
      exact ⟨p', free, _, unusable, hcall, hshape⟩
  | write address value =>
      obtain ⟨block, hblock, haddress⟩ := hallowed
      have hlisted := h.listed
      exact ⟨_, free, usable, unusable, rfl, h.stored.write hblock haddress value,
        hlisted.1, hlisted.2, hlisted.3, hlisted.4, hlisted.5⟩

/-- **The invariant over all runs**: every pool that can be reached has two lists and chains of free
slots that fit its chunks. -/
theorem shape_of_reachable (h : memoryPoolSystem.Reachable p) :
    ∃ free usable unusable, p.Shape free usable unusable := by
  refine StepSystem.ReachableWhen.induct
    (I := fun p => ∃ free usable unusable, p.Shape free usable unusable) ?_ ?_ h
  · rintro p ⟨blockSize, links, freeSlot, numberOfFreeSlots, bytes, hsize, rfl⟩
    exact ⟨_, _, _, shape_init hsize links freeSlot numberOfFreeSlots bytes⟩
  · rintro p action p' - ⟨free, usable, unusable, hshape⟩ - hstep
    simp only [memoryPoolSystem, Option.ite_none_right_eq_some] at hstep
    obtain ⟨q, free', usable', unusable', hperform, hshape'⟩ := hshape.perform hstep.1
    obtain rfl : q = p' := Option.some.inj (hperform.symm.trans hstep.2)
    exact ⟨free', usable', unusable', hshape'⟩

/-! ## Blocks -/

/-- Where the blocks in use are, and what else there is in a chunk. -/
structure Sound (p : MemoryPool) : Prop where
  /-- No two blocks in use have a byte in common. -/
  apart : p.allocated.Pairwise (Apart p.blockSize)
  /-- A block in use is in the payload of a chunk that is the pool's. -/
  payload : ∀ b ∈ p.allocated, ∃ c ∈ p.chunks, c = locateMemoryChunk b ∧
    c + memoryChunk.size ≤ b ∧ b + p.blockSize ≤ c + memoryChunkSize
  /-- And reaches into no header. -/
  headers : ∀ b ∈ p.allocated, ∀ c ∈ p.chunks, b + p.blockSize ≤ c ∨ c + memoryChunk.size ≤ b
  /-- The free list of a chunk and the blocks in use there are its slots, each once. -/
  slots : ∀ c ∈ p.chunks, ∃ free, p.bytes.Chain (p.freeSlot c) free ∧ free.Nodup ∧
    (free.length : ℤ) = p.numberOfFreeSlots c ∧ (free ++ p.held c).Perm (slotsOf p.blockSize c) ∧
    ((slotsOf p.blockSize c).length : ℤ) = p.numberOfSlotsPerChunk
  /-- A chunk is in one list, once. -/
  lists : ∃ usable unusable : List ℕ,
    p.links.Ring .usableChunkListHead (usable.map .listItem) ∧
    p.links.Ring .unusableChunkListHead (unusable.map .listItem) ∧
    usable.Nodup ∧ unusable.Nodup ∧
    (∀ c, c ∈ usable ↔ c ∈ p.chunks ∧ 0 < p.numberOfFreeSlots c) ∧
    ∀ c, c ∈ unusable ↔ c ∈ p.chunks ∧ ¬0 < p.numberOfFreeSlots c

/-- A pool of the right shape is sound for its user: the blocks in use are apart, inside their
chunks, and not among the free slots. -/
theorem Shape.sound (h : p.Shape free usable unusable) : p.Sound where
  apart := h.stored.allocated_apart
  payload b hb := ⟨_, h.stored.owned b hb, rfl, slot_bounds (h.stored.held_slot hb)⟩
  headers b hb c hc := by
    have hbounds := slot_bounds (h.stored.held_slot hb)
    by_cases hsame : locateMemoryChunk b = c
    · exact .inr (hsame ▸ hbounds.1)
    · have hchunks := chunks_apart (h.stored.aligned _ (h.stored.owned b hb)).1
        (h.stored.aligned c hc).1 hsame
      rw [memoryChunk_size, memoryChunkSize_eq] at *
      omega
  slots c hc := ⟨free c, h.stored.chain c hc, (List.nodup_append.mp (h.stored.nodup hc)).1,
    (h.stored.count c hc).symm, h.stored.slots c hc, by rw [length_slotsOf, h.stored.perChunk]⟩
  lists := by
    refine ⟨usable, unusable, h.listed.usableRing, h.listed.unusableRing, h.listed.usable_nodup,
      h.listed.unusable_nodup, h.listed.mem_usable, fun c => ?_⟩
    rw [h.listed.mem_unusable c]
    refine and_congr_right fun hc => ?_
    have hcount := h.stored.count c hc
    omega

end MemoryPool

open MemoryPool

variable {p : MemoryPool}

/-- **Pool blocks never overlap and are never lost.** In every reachable state the blocks in use,
the free lists and the lists of chunks are as `Sound` says, and every call that may be made
succeeds. Allocation returns nothing only if there is no usable chunk and none can be had, and then
nothing has changed. Shrinking keeps the chunk of every block in use. -/
theorem pool_blocks (h : memoryPoolSystem.Reachable p) :
    p.Sound ∧
    (∀ action : PoolAction, action.Allowed p → (action.perform p).isSome) ∧
    (∀ memalign p', (∀ fresh ∈ memalign, PoolAction.Fresh p fresh.1) →
      p.allocateBlock memalign = some (p', none) →
        p.links.IsEmpty .usableChunkListHead ∧ memalign = none ∧ p' = p) ∧
    ∀ p', p.shrinkToFit = some p' →
      p'.allocated = p.allocated ∧ ∀ b ∈ p.allocated, locateMemoryChunk b ∈ p'.chunks := by
  obtain ⟨free, usable, unusable, hshape⟩ := shape_of_reachable h
  refine ⟨hshape.sound, fun action hallowed => ?_, fun memalign p' hfresh hcall => ?_,
    fun p' hcall => ?_⟩
  · obtain ⟨p', -, -, -, hperform, -⟩ := hshape.perform hallowed
    simp [hperform]
  · obtain ⟨hempty, hnone, hsame⟩ | ⟨q, block, -, -, -, hsome, -⟩ := hshape.allocateBlock hfresh
    · rw [hcall] at hsame
      simp only [Option.some.injEq, Prod.mk.injEq, and_true] at hsame
      exact ⟨hshape.listed.isEmpty_iff.mpr hempty, hnone, hsame⟩
    · rw [hcall] at hsome
      simp at hsome
  · obtain ⟨q, hq, hshape', -, -, hallocated, -⟩ := hshape.shrinkToFit
    obtain rfl : q = p' := Option.some.inj (hq.symm.trans hcall)
    exact ⟨hallocated, fun b hb => hshape'.stored.owned b (hallocated ▸ hb)⟩

/-- Memory in which nothing has been written. -/
def blank : MemoryPool := .init 20000 ⟨id, id⟩ (fun _ => 0) (fun _ => 0) fun _ => 0

/-- A chunk has three slots; one is used up, a fourth block is in another, the second block comes
back, and the user writes over the first word of the third. -/
def twoChunks : List PoolAction :=
  [.allocateBlock (some (65536, fun _ => 7)), .allocateBlock none, .allocateBlock none,
    .allocateBlock (some (196608, fun _ => 9)), .freeBlock 91072, .write 71072 255]

/-- Two chunks with blocks of 20000 bytes, one of which has come back while the user writes over
another: the blocks in use are those expected, and the pool is sound. -/
theorem pool_blocks_twoChunks :
    ∃ p, memoryPoolSystem.run blank twoChunks = some p ∧ p.allocated = [111072, 71072, 242144] ∧
      p.freeSlot 65536 = 91072 ∧ p.numberOfFreeSlots 65536 = 1 ∧ p.numberOfFreeSlots 196608 = 2 ∧
      p.Sound := by
  have hend : (memoryPoolSystem.run blank twoChunks).map (fun p => (p.allocated, p.freeSlot 65536,
      p.numberOfFreeSlots 65536, p.numberOfFreeSlots 196608)) =
      some ([111072, 71072, 242144], 91072, 1, 2) := by decide +kernel
  obtain ⟨p, hrun, hp⟩ := Option.map_eq_some_iff.mp hend
  simp only [Prod.mk.injEq] at hp
  exact ⟨p, hrun, hp.1, hp.2.1, hp.2.2.1, hp.2.2.2,
    (pool_blocks (StepSystem.reachable_of_run ⟨_, _, _, _, _, by decide, rfl⟩ hrun)).1⟩

/-- **Shrinking is complete.** In the usable list no chunk that is wholly free comes after one that
is not; so shrinking, which stops at the first one that is not, releases all that are, once each,
and leaves the others in their order. -/
theorem shrink_complete (h : memoryPoolSystem.Reachable p) :
    ∃ usable unusable : List ℕ, p.links.Ring .usableChunkListHead (usable.map .listItem) ∧
      p.links.Ring .unusableChunkListHead (unusable.map .listItem) ∧
      usable.Pairwise (fun a b => p.numberOfFreeSlots b = p.numberOfSlotsPerChunk →
        p.numberOfFreeSlots a = p.numberOfSlotsPerChunk) ∧
      ∃ p' whole rest, p.shrinkToFit = some p' ∧ usable = whole ++ rest ∧
        (∀ c, c ∈ whole ↔ c ∈ p.chunks ∧ p.numberOfFreeSlots c = p.numberOfSlotsPerChunk) ∧
        whole.Nodup ∧ p'.released = p.released ++ whole ∧
        (∀ c, c ∈ p'.chunks ↔ c ∈ p.chunks ∧ p.numberOfFreeSlots c ≠ p.numberOfSlotsPerChunk) ∧
        p'.links.Ring .usableChunkListHead (rest.map .listItem) ∧
        p'.links.Ring .unusableChunkListHead (unusable.map .listItem) := by
  obtain ⟨free, usable, unusable, hshape⟩ := shape_of_reachable h
  obtain ⟨p', hcall, hshape', hreleased, hchunks, -⟩ := hshape.shrinkToFit
  let whole := usable.takeWhile fun c => p.numberOfFreeSlots c = p.numberOfSlotsPerChunk
  let rest := usable.dropWhile fun c => p.numberOfFreeSlots c = p.numberOfSlotsPerChunk
  have hsplit : whole ++ rest = usable := List.takeWhile_append_dropWhile
  have hone := hshape.stored.one_le_perChunk
  -- behind the first chunk that is not wholly free there is none that is
  have hrest : ∀ c ∈ rest, p.numberOfFreeSlots c ≠ p.numberOfSlotsPerChunk := by
    intro c hc hvalue
    have hordered : Ordered p.numberOfSlotsPerChunk p.numberOfFreeSlots (whole ++ rest) :=
      hsplit.symm ▸ hshape.listed.ordered
    have hright := (List.pairwise_append.mp hordered).2.1
    rcases hcons : rest with _ | ⟨d, rest'⟩
    · rw [hcons] at hc
      cases hc
    · have hd : ¬p.numberOfFreeSlots d = p.numberOfSlotsPerChunk := by
        have hhead := List.head_dropWhile_not
          (fun c => decide (p.numberOfFreeSlots c = p.numberOfSlotsPerChunk))
          (by show rest ≠ []; simp [hcons])
        simpa [show usable.dropWhile _ = d :: rest' from hcons] using hhead
      rw [hcons] at hc hright
      rcases List.mem_cons.mp hc with rfl | hc
      · exact hd hvalue
      · exact hd ((List.pairwise_cons.mp hright).1 c hc hvalue)
  have hwhole : ∀ c, c ∈ whole ↔
      c ∈ p.chunks ∧ p.numberOfFreeSlots c = p.numberOfSlotsPerChunk := by
    intro c
    constructor
    · intro hc
      have hin : c ∈ usable := hsplit ▸ List.mem_append_left rest hc
      exact ⟨((hshape.listed.mem_usable c).mp hin).1, by simpa using List.mem_takeWhile_imp hc⟩
    · rintro ⟨hc, hvalue⟩
      have hin : c ∈ whole ++ rest :=
        hsplit.symm ▸ (hshape.listed.mem_usable c).mpr ⟨hc, by omega⟩
      exact (List.mem_append.mp hin).resolve_right fun hin => hrest c hin hvalue
  refine ⟨usable, unusable, hshape.listed.usableRing, hshape.listed.unusableRing,
    hshape.listed.ordered, p', whole, rest, hcall, hsplit.symm, hwhole, ?_, hreleased, fun c => ?_,
    hshape'.listed.usableRing, hshape'.listed.unusableRing⟩
  · exact (hshape.listed.usable_nodup.sublist (List.takeWhile_sublist _))
  · rw [hchunks]
    refine and_congr_right fun hc => ?_
    have hiff := hwhole c
    simp only [hc, true_and] at hiff
    exact not_congr hiff

/-- When the last blocks of the first chunk have come back, shrinking the pool releases this chunk
and keeps the other one. -/
theorem shrink_complete_twoChunks :
    ∃ p p',
      memoryPoolSystem.run blank (twoChunks ++ [.freeBlock 111072, .freeBlock 71072]) = some p ∧
      p.links.prev .usableChunkListHead = .listItem 196608 ∧ p.shrinkToFit = some p' ∧
      p'.released = [65536] ∧ (∀ c, c ∈ p'.chunks ↔ c ∈ p.chunks ∧ p.numberOfFreeSlots c ≠ 3) := by
  have hend : (memoryPoolSystem.run blank
      (twoChunks ++ [.freeBlock 111072, .freeBlock 71072])).bind (fun p =>
        p.shrinkToFit.map fun p' => (p.links.prev .usableChunkListHead, p.numberOfSlotsPerChunk,
          p'.released)) = some (.listItem 196608, 3, [65536]) := by decide +kernel
  simp only [Option.bind_eq_some_iff, Option.map_eq_some_iff, Prod.mk.injEq] at hend
  obtain ⟨p, hrun, p', hshrink, hlast, hslots, hreleased⟩ := hend
  obtain ⟨-, -, -, -, -, q, -, -, hq, -, -, -, -, hchunks, -⟩ :=
    shrink_complete (StepSystem.reachable_of_run ⟨_, _, _, _, _, by decide, rfl⟩ hrun)
  obtain rfl : q = p' := Option.some.inj (hq.symm.trans hshrink)
  exact ⟨p, q, hrun, hlast, hshrink, hreleased, hslots ▸ hchunks⟩

end Pixy.Mem
