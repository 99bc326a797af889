import Pixy.Mem.MemoryPool

/-!
# Slots

Where the slots of a chunk are, and that they are apart from each other and from the headers. The
chunk of a slot is found by clearing the low bits of its address.

* `carve_slots`: the loop of a new chunk, which walks down to the header, links just these slots;
* `increaseChunks_exact`: as many of them as the pool has computed by a division.
-/

namespace Pixy.Mem

open Pixy.Found

/-- The header of a chunk, as the compiler lays it out: a list item, a pointer and a number with its
padding. -/
theorem memoryChunk_size : memoryChunk.size = 32 := rfl

/-- What is left of the 64 KiB of a chunk behind its header. -/
theorem memoryChunkPayloadSize_eq : memoryChunkPayloadSize = 65504 := rfl

/-- A chunk has 64 KiB, header included, to which it is also aligned. -/
theorem memoryChunkSize_eq : memoryChunkSize = 65536 := rfl

/-- A slot of a chunk, counted from the end of the chunk. -/
def slotAt (blockSize chunk i : ℕ) : ℕ := chunk + memoryChunkSize - (i + 1) * blockSize

/-- The slots of a chunk. -/
def slotsOf (blockSize chunk : ℕ) : List ℕ :=
  (List.range (memoryChunkPayloadSize / blockSize)).map (slotAt blockSize chunk)

/-- Two blocks have no byte in common. -/
def Apart (blockSize block block' : ℕ) : Prop :=
  block + blockSize ≤ block' ∨ block' + blockSize ≤ block

section Geometry

variable {blockSize chunk chunk' slot slot' : ℕ}

/-- Clearing the low bits of an address, as the source does with a mask, is going back to the last
multiple of the size of a chunk. -/
theorem locateMemoryChunk_eq (h : slot < 2 ^ 64) :
    MemoryPool.locateMemoryChunk slot = slot - slot % memoryChunkSize := by
  let low : BitVec 64 := BitVec.ofNat 64 (memoryChunkSize - 1)
  have hdisjoint : (BitVec.ofNat 64 slot &&& ~~~low) &&& (BitVec.ofNat 64 slot &&& low) = 0 := by
    ext i hi
    simp only [BitVec.getElem_and, BitVec.getElem_not]
    cases low[i] <;> simp
  have hsplit : (BitVec.ofNat 64 slot &&& ~~~low) + (BitVec.ofNat 64 slot &&& low) =
      BitVec.ofNat 64 slot := by
    rw [BitVec.add_eq_or_of_and_eq_zero _ _ hdisjoint, ← BitVec.and_or_distrib_left, BitVec.or_comm,
      BitVec.or_not_self, BitVec.and_allOnes]
  have hlow : (BitVec.ofNat 64 slot &&& low).toNat = slot % memoryChunkSize := by
    rw [BitVec.toNat_and, BitVec.toNat_ofNat, Nat.mod_eq_of_lt h]
    exact Nat.and_two_pow_sub_one_eq_mod slot 16
  have hsum := congrArg BitVec.toNat hsplit
  rw [BitVec.toNat_add_of_and_eq_zero hdisjoint, hlow, BitVec.toNat_ofNat, Nat.mod_eq_of_lt h]
    at hsum
  exact Nat.eq_sub_of_add_eq hsum

/-- Every slot lies behind the header of its chunk and ends within the chunk. -/
theorem slotAt_bounds {i : ℕ} (hi : i < memoryChunkPayloadSize / blockSize) :
    chunk + memoryChunk.size ≤ slotAt blockSize chunk i ∧
      slotAt blockSize chunk i + blockSize ≤ chunk + memoryChunkSize := by
  have hfits : (i + 1) * blockSize ≤ memoryChunkPayloadSize :=
    (Nat.mul_le_mul_right blockSize hi).trans (Nat.div_mul_le_self _ _)
  have hstep : (i + 1) * blockSize = i * blockSize + blockSize := Nat.succ_mul i blockSize
  rw [memoryChunkPayloadSize_eq] at hfits
  rw [memoryChunk_size, slotAt, memoryChunkSize_eq]
  omega

/-- A slot lies in the payload of its chunk, behind the chunk's own fields and before its end. -/
theorem slot_bounds (h : slot ∈ slotsOf blockSize chunk) :
    chunk + memoryChunk.size ≤ slot ∧ slot + blockSize ≤ chunk + memoryChunkSize := by
  obtain ⟨i, hi, rfl⟩ := List.mem_map.mp h
  exact slotAt_bounds (List.mem_range.mp hi)

/-- Two slots of a chunk are apart, because any two of them are a whole number of block sizes from
each other. -/
theorem slots_apart (h : slot ∈ slotsOf blockSize chunk) (h' : slot' ∈ slotsOf blockSize chunk)
    (hne : slot ≠ slot') : Apart blockSize slot slot' := by
  have hbounds := slot_bounds h
  have hbounds' := slot_bounds h'
  obtain ⟨i, hi, rfl⟩ := List.mem_map.mp h
  obtain ⟨j, hj, rfl⟩ := List.mem_map.mp h'
  rw [slotAt, memoryChunk_size, memoryChunkSize_eq] at hbounds hbounds'
  have hstep : (i + 1) * blockSize = i * blockSize + blockSize := Nat.succ_mul i blockSize
  have hstep' : (j + 1) * blockSize = j * blockSize + blockSize := Nat.succ_mul j blockSize
  rw [slotAt, slotAt, memoryChunkSize_eq] at hne
  rw [slotAt, slotAt, memoryChunkSize_eq, Apart]
  rcases Nat.lt_trichotomy i j with hlt | rfl | hlt
  · have hle : (i + 1) * blockSize ≤ j * blockSize := Nat.mul_le_mul_right blockSize hlt
    omega
  · exact absurd rfl hne
  · have hle : (j + 1) * blockSize ≤ i * blockSize := Nat.mul_le_mul_right blockSize hlt
    omega

/-- Two aligned chunks are apart: both begin at multiples of the size of a chunk, so one of them
ends before the other begins. -/
theorem chunks_apart (h : memoryChunkSize ∣ chunk) (h' : memoryChunkSize ∣ chunk')
    (hne : chunk ≠ chunk') :
    chunk + memoryChunkSize ≤ chunk' ∨ chunk' + memoryChunkSize ≤ chunk := by
  obtain ⟨i, rfl⟩ := h
  obtain ⟨j, rfl⟩ := h'
  rw [memoryChunkSize_eq] at hne ⊢
  omega

/-- The slots of a chunk differ, as blocks are not empty. -/
theorem nodup_slotsOf (h : 0 < blockSize) : (slotsOf blockSize chunk).Nodup := by
  refine List.Nodup.map_on ?_ List.nodup_range
  intro i hi j hj heq
  have hi' : _ ∧ slotAt blockSize chunk i + _ ≤ _ := slotAt_bounds (List.mem_range.mp hi)
  have hj' : _ ∧ slotAt blockSize chunk j + _ ≤ _ := slotAt_bounds (List.mem_range.mp hj)
  rw [slotAt, memoryChunk_size, memoryChunkSize_eq] at hi' hj'
  rw [slotAt, slotAt, memoryChunkSize_eq] at heq
  have hmul : (i + 1) * blockSize = (j + 1) * blockSize := by omega
  have := Nat.eq_of_mul_eq_mul_right h hmul
  omega

/-- The chunk of a slot is found from the address of the slot, since the slots of an aligned chunk
lie within its size. -/
theorem locate_slot (haligned : memoryChunkSize ∣ chunk) (hend : chunk + memoryChunkSize ≤ 2 ^ 64)
    (hpos : 0 < blockSize) (h : slot ∈ slotsOf blockSize chunk) :
    MemoryPool.locateMemoryChunk slot = chunk := by
  have hbounds := slot_bounds h
  obtain ⟨k, rfl⟩ := haligned
  rw [memoryChunk_size, memoryChunkSize_eq] at hbounds
  rw [memoryChunkSize_eq] at hend
  rw [locateMemoryChunk_eq (by omega), memoryChunkSize_eq]
  omega

/-- A chunk has as many slots as blocks fit behind its header. -/
theorem length_slotsOf : (slotsOf blockSize chunk).length = memoryChunkPayloadSize / blockSize := by
  simp [slotsOf]

/-- The next slot is one block below, as the slots are counted from the end of the chunk. -/
theorem slotAt_succ (i : ℕ) :
    slotAt blockSize chunk (i + 1) = slotAt blockSize chunk i - blockSize := by
  have hstep : (i + 1 + 1) * blockSize = (i + 1) * blockSize + blockSize := Nat.succ_mul _ _
  simp only [slotAt]
  omega

/-- The payload ends where the slots do: only the last slot has no room for another one between it
and the chunk's own fields. -/
theorem slotAt_lt_iff (hchunk : memoryChunkSize ≤ chunk) (hpos : 0 < blockSize) {i : ℕ}
    (hi : i < memoryChunkPayloadSize / blockSize) :
    slotAt blockSize chunk (i + 1) < chunk + memoryChunk.size ↔
      i + 1 = memoryChunkPayloadSize / blockSize := by
  have hfits : i + 1 < memoryChunkPayloadSize / blockSize ↔
      (i + 1 + 1) * blockSize ≤ memoryChunkPayloadSize := Nat.le_div_iff_mul_le hpos
  have hlow : (i + 1) * blockSize ≤ memoryChunkPayloadSize :=
    (Nat.mul_le_mul_right blockSize hi).trans (Nat.div_mul_le_self _ _)
  have hstep : (i + 1 + 1) * blockSize = (i + 1) * blockSize + blockSize := Nat.succ_mul _ _
  have hblock : blockSize ≤ memoryChunkPayloadSize :=
    le_trans (Nat.le_mul_of_pos_left blockSize (Nat.succ_pos i)) hlow
  rw [memoryChunkPayloadSize_eq] at hfits hlow hblock hi ⊢
  rw [memoryChunkSize_eq] at hchunk
  rw [slotAt, memoryChunk_size, memoryChunkSize_eq]
  omega

/-- **A new chunk**: the slots from one of them on are linked, and nothing above is touched. -/
theorem carve_spec (hsmall : 8 ≤ blockSize) (hchunk : memoryChunkSize ≤ chunk)
    (hend : chunk + memoryChunkSize ≤ 2 ^ 64) {i k fuel : ℕ}
    (hk : i + k + 1 = memoryChunkPayloadSize / blockSize) (hfuel : k < fuel) (bytes : Bytes) :
    ∃ bytes', MemoryPool.carve blockSize chunk fuel bytes (slotAt blockSize chunk i) = some bytes' ∧
      bytes'.Chain (slotAt blockSize chunk i)
        ((List.range' i (k + 1)).map (slotAt blockSize chunk)) ∧
      ∀ x, x < chunk + memoryChunk.size ∨ slotAt blockSize chunk i + blockSize ≤ x →
        bytes' x = bytes x := by
  induction k generalizing i fuel bytes with
  | zero =>
      obtain ⟨fuel, rfl⟩ : ∃ j, fuel = j + 1 := ⟨fuel - 1, by omega⟩
      have hlast := (slotAt_lt_iff hchunk (by omega) (by omega)).mpr hk
      have hbounds : chunk + _ ≤ slotAt blockSize chunk i ∧ _ := slotAt_bounds (by omega)
      rw [memoryChunk_size] at hbounds
      refine ⟨_, by rw [MemoryPool.carve, ← slotAt_succ, if_pos hlast], ⟨rfl, ?_⟩, fun x hx => ?_⟩
      · exact Bytes.load_store (by norm_num)
      · refine Bytes.store_other ?_
        rw [memoryChunk_size] at hx
        omega
  | succ k ih =>
      obtain ⟨fuel, rfl⟩ : ∃ j, fuel = j + 1 := ⟨fuel - 1, by omega⟩
      have hmore : ¬slotAt blockSize chunk (i + 1) < chunk + memoryChunk.size := by
        rw [slotAt_lt_iff hchunk (by omega) (by omega)]
        omega
      have hbounds : chunk + _ ≤ slotAt blockSize chunk i ∧ _ := slotAt_bounds (by omega)
      have hbounds' : chunk + _ ≤ slotAt blockSize chunk (i + 1) ∧ _ := slotAt_bounds (by omega)
      have hnext : slotAt blockSize chunk (i + 1) = slotAt blockSize chunk i - blockSize :=
        slotAt_succ i
      rw [memoryChunk_size, memoryChunkSize_eq] at hbounds hbounds'
      rw [memoryChunkSize_eq] at hend
      obtain ⟨bytes', hcarve, hchain, hsame⟩ := ih (by omega : i + 1 + k + 1 = _)
        (by omega : k < fuel)
        (bytes.store (slotAt blockSize chunk i) (slotAt blockSize chunk (i + 1)))
      rw [memoryChunk_size] at hsame
      refine ⟨bytes', by rw [MemoryPool.carve, ← slotAt_succ, if_neg hmore, hcarve], ⟨rfl, ?_⟩,
        fun x hx => ?_⟩
      · have hkept : ∀ x, slotAt blockSize chunk i ≤ x → x < slotAt blockSize chunk i + 8 →
            bytes' x = bytes.store (slotAt blockSize chunk i) (slotAt blockSize chunk (i + 1)) x :=
          fun x hx _ => hsame x (.inr (by omega))
        have hload : bytes'.load (slotAt blockSize chunk i) = slotAt blockSize chunk (i + 1) := by
          rw [Bytes.load_congr hkept, Bytes.load_store (by norm_num; omega)]
        rwa [hload]
      · rw [memoryChunk_size] at hx
        rw [hsame x (by omega)]
        exact Bytes.store_other (by omega)

/-- **All slots of a new chunk** are linked, from the last one down, and nothing but them is
touched. -/
theorem carve_slots (hsmall : 8 ≤ blockSize) (hone : blockSize ≤ memoryChunkPayloadSize)
    (hchunk : memoryChunkSize ≤ chunk) (hend : chunk + memoryChunkSize ≤ 2 ^ 64) (bytes : Bytes) :
    ∃ bytes', MemoryPool.carve blockSize chunk memoryChunkSize bytes
        (chunk + memoryChunkSize - blockSize) = some bytes' ∧
      bytes'.Chain (chunk + memoryChunkSize - blockSize) (slotsOf blockSize chunk) ∧
      ∀ x, x < chunk + memoryChunk.size ∨ chunk + memoryChunkSize ≤ x → bytes' x = bytes x := by
  have hcount : 0 < memoryChunkPayloadSize / blockSize := Nat.div_pos hone (by omega)
  have hslots : 0 + (memoryChunkPayloadSize / blockSize - 1) + 1 =
      memoryChunkPayloadSize / blockSize := by omega
  have hfuel : memoryChunkPayloadSize / blockSize - 1 < memoryChunkSize := by
    have hle := Nat.div_le_self memoryChunkPayloadSize blockSize
    rw [memoryChunkSize_eq]
    rw [memoryChunkPayloadSize_eq] at hle ⊢
    omega
  obtain ⟨bytes', hcarve, hchain, hsame⟩ := carve_spec hsmall hchunk hend hslots hfuel bytes
  have hfirst : slotAt blockSize chunk 0 = chunk + memoryChunkSize - blockSize := by simp [slotAt]
  rw [← List.range_eq_range', Nat.sub_add_cancel hcount] at hchain
  rw [hfirst] at hcarve hchain hsame
  refine ⟨bytes', hcarve, hchain, fun x hx => hsame x ?_⟩
  rw [memoryChunkPayloadSize_eq] at hone
  rw [memoryChunkSize_eq] at hx hchunk ⊢
  omega

/-- `MemoryPool_IncreaseChunks` puts the chunk that has been carved into slots at the front of the
usable list, with the count of its slots. -/
theorem increaseChunks_eq {self : MemoryPool} {contents bytes : Bytes}
    (hcarve : MemoryPool.carve self.blockSize chunk memoryChunkSize
      (fun a => if chunk ≤ a ∧ a < chunk + memoryChunkSize then contents a else self.bytes a)
      (chunk + memoryChunkSize - self.blockSize) = some bytes) :
    self.increaseChunks (some (chunk, contents)) = some ({ self with
      bytes := bytes
      chunks := insert chunk self.chunks
      freeSlot := Function.update self.freeSlot chunk (chunk + memoryChunkSize - self.blockSize)
      numberOfFreeSlots := Function.update self.numberOfFreeSlots chunk self.numberOfSlotsPerChunk
      links := self.links.insertFront .usableChunkListHead (.listItem chunk) }, true) := by
  simp only [MemoryPool.increaseChunks, Option.bind_eq_bind, hcarve, Option.bind_some,
    Option.pure_def]

/-- The slots of a chunk are aligned as their size is. -/
theorem slot_aligned (hchunk : memoryChunkSize ∣ chunk) (hsize : 8 ∣ blockSize)
    (h : slot ∈ slotsOf blockSize chunk) : 8 ∣ slot := by
  obtain ⟨i, -, rfl⟩ := List.mem_map.mp h
  have hend : 8 ∣ chunk + memoryChunkSize :=
    ((by decide : 8 ∣ memoryChunkSize).trans hchunk).add (by decide)
  exact Nat.dvd_sub hend (hsize.mul_left (i + 1))

/-- **A new chunk is carved exactly.** Whatever size was asked for when the pool was initialized,
and wherever the chunk is, the loop ends and links each slot once, as many as the pool has counted;
they are in the payload, apart from each other, and lead back to the chunk. -/
theorem increaseChunks_exact (self : MemoryPool) (contents : Bytes) {requested : ℕ}
    {links : Links ChunkNode} {freeSlot : ℕ → ℕ} {numberOfFreeSlots : ℕ → ℤ} {bytes : Bytes}
    (hrequested : requested ≤ memoryChunkPayloadSize)
    (hblock : self.blockSize =
      (MemoryPool.init requested links freeSlot numberOfFreeSlots bytes).blockSize)
    (hcount : self.numberOfSlotsPerChunk =
      (MemoryPool.init requested links freeSlot numberOfFreeSlots bytes).numberOfSlotsPerChunk)
    (haligned : memoryChunkSize ∣ chunk) (hpos : 0 < chunk) (hlt : chunk < 2 ^ 64) :
    ∃ self' slots, self.increaseChunks (some (chunk, contents)) = some (self', true) ∧
      self'.bytes.Chain (self'.freeSlot chunk) slots ∧ slots.Nodup ∧
      slots.length = memoryChunkPayloadSize / self.blockSize ∧
      (slots.length : ℤ) = self.numberOfSlotsPerChunk ∧
      self'.numberOfFreeSlots chunk = slots.length ∧
      (∀ slot ∈ slots, chunk + memoryChunk.size ≤ slot ∧
        slot + self.blockSize ≤ chunk + memoryChunkSize ∧
        MemoryPool.locateMemoryChunk slot = chunk ∧ (8 ∣ self.blockSize → 8 ∣ slot)) ∧
      ∀ slot ∈ slots, ∀ slot' ∈ slots, slot ≠ slot' → Apart self.blockSize slot slot' := by
  have hsmall : 8 ≤ self.blockSize := by
    rw [hblock]
    unfold MemoryPool.init
    dsimp only
    split_ifs <;> omega
  have hone : self.blockSize ≤ memoryChunkPayloadSize := by
    rw [hblock]
    unfold MemoryPool.init
    dsimp only
    split_ifs
    · decide
    · exact hrequested
  have hperChunk : self.numberOfSlotsPerChunk = (memoryChunkPayloadSize / self.blockSize : ℕ) := by
    rw [hcount, hblock]
    rfl
  have hend : chunk + memoryChunkSize ≤ 2 ^ 64 := by
    obtain ⟨k, rfl⟩ := haligned
    rw [memoryChunkSize_eq] at hlt ⊢
    omega
  obtain ⟨bytes', hcarve, hchain, -⟩ := carve_slots hsmall hone (Nat.le_of_dvd hpos haligned) hend
    fun a => if chunk ≤ a ∧ a < chunk + memoryChunkSize then contents a else self.bytes a
  refine ⟨_, slotsOf self.blockSize chunk, increaseChunks_eq hcarve, ?_, nodup_slotsOf (by omega),
    length_slotsOf, ?_, ?_, ?_, ?_⟩
  · simpa using hchain
  · rw [length_slotsOf, hperChunk]
  · simp [length_slotsOf, hperChunk]
  · intro slot hslot
    obtain ⟨hlow, hhigh⟩ := slot_bounds hslot
    exact ⟨hlow, hhigh, locate_slot haligned hend (by omega) hslot,
      fun hsize => slot_aligned haligned hsize hslot⟩
  · intro slot hslot slot' hslot' hne
    exact slots_apart hslot hslot' hne

end Geometry

/-- A block size so large that a chunk has room for one slot: the chain of the new chunk holds this
slot alone. -/
theorem increaseChunks_exact_single :
    ∃ self' slots,
      (MemoryPool.init 40000 ⟨id, id⟩ (fun _ => 0) (fun _ => 0) fun _ => 0).increaseChunks
        (some (65536, fun _ => 0)) = some (self', true) ∧
      self'.bytes.Chain (self'.freeSlot 65536) slots ∧ slots.length = 1 ∧
      self'.numberOfFreeSlots 65536 = 1 := by
  obtain ⟨self', slots, hcall, hchain, -, hlength, -, hcount, -⟩ :=
    increaseChunks_exact (.init 40000 ⟨id, id⟩ (fun _ => 0) (fun _ => 0) fun _ => 0) (fun _ => 0)
      (show 40000 ≤ memoryChunkPayloadSize by decide) rfl rfl
      (show memoryChunkSize ∣ 65536 by decide) (by decide) (by decide)
  have hone : slots.length = 1 := by
    rw [hlength]
    rfl
  exact ⟨self', slots, hcall, hchain, hone, by rw [hcount, hone]; rfl⟩

end Pixy.Mem
