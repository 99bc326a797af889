import Pixy.Mem.Slots

/-!
# Free lists and blocks in use

`Stored` says of every chunk of the pool that its free list and the blocks in use make up its slots.
It has to do with the memory and not with the links, and each thing that can happen to a slot or a
chunk keeps it:

* `Stored.take` and `Stored.give`: a slot is handed out and comes back;
* `Stored.write`: the user writes into a block in use;
* `Stored.grow` and `Stored.drop`: a chunk comes, and one without blocks in use goes.
-/

namespace Pixy.Mem

open Pixy.Found

namespace MemoryPool

/-- The blocks in use that are in a chunk. -/
def held (p : MemoryPool) (c : ℕ) : List ℕ := p.allocated.filter fun b => locateMemoryChunk b = c

/-- **The slots of a pool**, with the free list of every chunk. -/
structure Stored (p : MemoryPool) (free : ℕ → List ℕ) : Prop where
  small : 8 ≤ p.blockSize ∧ p.blockSize ≤ memoryChunkPayloadSize
  perChunk : p.numberOfSlotsPerChunk = (memoryChunkPayloadSize / p.blockSize : ℕ)
  aligned : ∀ c ∈ p.chunks, memoryChunkSize ∣ c ∧ 0 < c ∧ c + memoryChunkSize ≤ 2 ^ 64
  /-- The free list leads through the slots that are free. -/
  chain : ∀ c ∈ p.chunks, p.bytes.Chain (p.freeSlot c) (free c)
  count : ∀ c ∈ p.chunks, p.numberOfFreeSlots c = (free c).length
  /-- The other slots are in use. -/
  slots : ∀ c ∈ p.chunks, (free c ++ p.held c).Perm (slotsOf p.blockSize c)
  /-- A block in use is in a chunk of the pool. -/
  owned : ∀ b ∈ p.allocated, locateMemoryChunk b ∈ p.chunks

variable {p : MemoryPool} {free : ℕ → List ℕ} {rest : List ℕ} {b c s : ℕ}

/-- A block is held by a chunk if it is in use and its address, rounded down to the size of a chunk,
is that chunk's. -/
theorem mem_held : b ∈ p.held c ↔ b ∈ p.allocated ∧ locateMemoryChunk b = c := by
  simp [held]

namespace Stored

/-! ## Where the blocks are -/

/-- A block has at least the size of the pointer to the next free slot that it has to hold, so its
size is not zero. -/
theorem pos (h : p.Stored free) : 0 < p.blockSize := by
  have := h.small.1
  omega

/-- What is in the free list of a chunk is a slot of that chunk. -/
theorem free_slot (h : p.Stored free) (hc : c ∈ p.chunks) (hs : s ∈ free c) :
    s ∈ slotsOf p.blockSize c :=
  (h.slots c hc).mem_iff.mp (List.mem_append_left _ hs)

/-- A block in use is a slot of the chunk that its address is rounded down to. -/
theorem held_slot (h : p.Stored free) (hb : b ∈ p.allocated) :
    b ∈ slotsOf p.blockSize (locateMemoryChunk b) :=
  (h.slots _ (h.owned b hb)).mem_iff.mp (List.mem_append_right _ (mem_held.mpr ⟨hb, rfl⟩))

/-- The chunk of a free slot is found again from the address of the slot alone, by clearing its low
bits. -/
theorem locate_free (h : p.Stored free) (hc : c ∈ p.chunks) (hs : s ∈ free c) :
    locateMemoryChunk s = c :=
  locate_slot (h.aligned c hc).1 (h.aligned c hc).2.2 h.pos (h.free_slot hc hs)

/-- The free list of a chunk and its blocks in use have no slot twice, and none in common. -/
theorem nodup (h : p.Stored free) (hc : c ∈ p.chunks) : (free c ++ p.held c).Nodup :=
  (h.slots c hc).nodup_iff.mpr (nodup_slotsOf h.pos)

/-- Slots of the pool are apart, be they in one chunk or in two. -/
theorem apart {c' s' : ℕ} (h : p.Stored free) (hc : c ∈ p.chunks) (hc' : c' ∈ p.chunks)
    (hs : s ∈ slotsOf p.blockSize c) (hs' : s' ∈ slotsOf p.blockSize c') (hne : s ≠ s') :
    Apart p.blockSize s s' := by
  by_cases hsame : c = c'
  · subst hsame
    exact slots_apart hs hs' hne
  · have hbounds := slot_bounds hs
    have hbounds' := slot_bounds hs'
    have hchunks := chunks_apart (h.aligned c hc).1 (h.aligned c' hc').1 hsame
    rw [Apart]
    omega

/-- A block in use is apart from all free slots, so what the user writes there reaches no link
between them. -/
theorem apart_free (h : p.Stored free) (hb : b ∈ p.allocated) (hc : c ∈ p.chunks)
    (hs : s ∈ free c) :
    Apart p.blockSize b s := by
  refine h.apart (h.owned b hb) hc (h.held_slot hb) (h.free_slot hc hs) ?_
  rintro rfl
  have hheld : b ∈ p.held c := mem_held.mpr ⟨hb, h.locate_free hc hs⟩
  exact List.disjoint_of_nodup_append (h.nodup hc) hs hheld

/-- No block is handed out twice at a time: within a chunk the blocks in use differ, and those of
different chunks are apart. -/
theorem allocated_nodup (h : p.Stored free) : p.allocated.Nodup := by
  rw [List.nodup_iff_count_le_one]
  intro b
  by_cases hb : b ∈ p.allocated
  · have hheld : (p.held (locateMemoryChunk b)).Nodup :=
      (List.nodup_append.mp (h.nodup (h.owned b hb))).2.1
    have hcount := List.nodup_iff_count_le_one.mp hheld b
    rwa [held, List.count_filter (by simp)] at hcount
  · rw [List.count_eq_zero_of_not_mem hb]
    exact Nat.zero_le 1

/-- **The blocks in use are apart.** Any two of them have no byte in common, since they are
different slots. -/
theorem allocated_apart (h : p.Stored free) : p.allocated.Pairwise (Apart p.blockSize) := by
  refine h.allocated_nodup.imp_of_mem fun {b b'} hb hb' hne => ?_
  exact h.apart (h.owned b hb) (h.owned b' hb') (h.held_slot hb) (h.held_slot hb') hne

/-- The free slots of a chunk and its blocks in use are together as many as the slots that a chunk
has. -/
theorem length_eq (h : p.Stored free) (hc : c ∈ p.chunks) :
    p.numberOfFreeSlots c + (p.held c).length = p.numberOfSlotsPerChunk := by
  have hlength := (h.slots c hc).length_eq
  rw [List.length_append, length_slotsOf] at hlength
  rw [h.count c hc, h.perChunk]
  exact_mod_cast hlength

/-- A chunk has one slot at least, because a block is no larger than the room that a chunk has for
slots. -/
theorem one_le_perChunk (h : p.Stored free) : 1 ≤ p.numberOfSlotsPerChunk := by
  have hone : 1 ≤ memoryChunkPayloadSize / p.blockSize :=
    (Nat.le_div_iff_mul_le h.pos).mpr (by have := h.small.2; omega)
  rw [h.perChunk]
  exact_mod_cast hone

/-- The first free slot of a chunk is an address of eight bytes, so it can be stored in a slot and
read again. -/
theorem freeSlot_lt (h : p.Stored free) (hc : c ∈ p.chunks) : p.freeSlot c < 256 ^ 8 := by
  have hfirst := (h.chain c hc).first_eq
  rcases hlist : free c with _ | ⟨s, rest⟩
  · rw [hfirst, hlist]
    norm_num
  · have hbounds := slot_bounds (h.free_slot hc (hlist ▸ List.mem_cons_self : s ∈ free c))
    have hend := (h.aligned c hc).2.2
    have hpos := h.pos
    rw [hfirst, hlist, List.headD_cons]
    norm_num
    omega

/-! ## What happens to them -/

/-- What is written apart from the free slots of the pool does not change their chains. -/
theorem chain_congr {bytes : Bytes} (h : p.Stored free) (hc : c ∈ p.chunks)
    (hsame : ∀ s ∈ free c, ∀ x, s ≤ x → x < s + p.blockSize → bytes x = p.bytes x) :
    bytes.Chain (p.freeSlot c) (free c) := by
  refine (h.chain c hc).congr fun s hs => Bytes.load_congr fun x hx hx' => hsame s hs x hx ?_
  have := h.small.1
  omega

/-- **A slot is handed out.** The first free slot of a chunk becomes a block in use, and the chain
of the free slots begins with the next one. -/
theorem take (h : p.Stored free) (hc : c ∈ p.chunks) (hfree : free c = s :: rest)
    (links : Links ChunkNode) :
    Stored { p with
      links := links
      freeSlot := Function.update p.freeSlot c (p.bytes.load s)
      numberOfFreeSlots := Function.update p.numberOfFreeSlots c (p.numberOfFreeSlots c - 1)
      allocated := p.allocated ++ [s] } (Function.update free c rest) := by
  have hs : s ∈ free c := hfree ▸ List.mem_cons_self
  have hlocate := h.locate_free hc hs
  refine ⟨h.small, h.perChunk, h.aligned, fun x hx => ?_, fun x hx => ?_, fun x hx => ?_,
    fun x hx => ?_⟩
  · by_cases hxc : x = c
    · subst hxc
      have hchain := h.chain x hx
      rw [hfree] at hchain
      simpa using hchain.2
    · simpa [hxc] using h.chain x hx
  · by_cases hxc : x = c
    · subst hxc
      simp [h.count x hx, hfree]
    · simpa [hxc] using h.count x hx
  · by_cases hxc : x = c
    · subst hxc
      have hslots := h.slots x hx
      rw [hfree] at hslots
      refine List.Perm.trans ?_ hslots
      simp only [held, Function.update_self, List.filter_append, hlocate, List.filter_cons_of_pos,
        decide_true, List.filter_nil, List.cons_append, ← List.append_assoc]
      exact List.perm_append_singleton s _
    · have hne : c ≠ x := Ne.symm hxc
      simpa [held, hxc, hlocate, hne] using h.slots x hx
  · rcases List.mem_append.mp hx with hx | hx
    · exact h.owned x hx
    · rw [List.mem_singleton.mp hx, hlocate]
      exact hc

/-- **A block comes back**: its first word is the link to the slot that was the first. -/
theorem give (h : p.Stored free) (hb : b ∈ p.allocated) (hc : locateMemoryChunk b = c)
    (links : Links ChunkNode) :
    Stored { p with
      links := links
      bytes := p.bytes.store b (p.freeSlot c)
      freeSlot := Function.update p.freeSlot c b
      numberOfFreeSlots := Function.update p.numberOfFreeSlots c (p.numberOfFreeSlots c + 1)
      allocated := p.allocated.erase b } (Function.update free c (b :: free c)) := by
  have hcin : c ∈ p.chunks := hc ▸ h.owned b hb
  have hsmall := h.small.1
  have hchain : ∀ x ∈ p.chunks, (p.bytes.store b (p.freeSlot c)).Chain (p.freeSlot x) (free x) := by
    refine fun x hx => h.chain_congr hx fun s hs y hy hy' => Bytes.store_other ?_
    have hapart := h.apart_free hb hx hs
    rw [Apart] at hapart
    omega
  have hperm := List.perm_cons_erase hb
  have hheld : ∀ x, (p.held x).Perm
      ((b :: p.allocated.erase b).filter fun b => locateMemoryChunk b = x) :=
    fun x => hperm.filter _
  refine ⟨h.small, h.perChunk, h.aligned, fun x hx => ?_, fun x hx => ?_, fun x hx => ?_,
    fun x hx => h.owned x (List.mem_of_mem_erase hx)⟩
  · by_cases hxc : x = c
    · subst hxc
      have hload : (p.bytes.store b (p.freeSlot x)).load b = p.freeSlot x :=
        Bytes.load_store (h.freeSlot_lt hx)
      simp only [Function.update_self]
      exact ⟨rfl, hload.symm ▸ hchain x hx⟩
    · simpa [hxc] using hchain x hx
  · by_cases hxc : x = c
    · subst hxc
      simp [h.count x hx]
    · simpa [hxc] using h.count x hx
  · by_cases hxc : x = c
    · subst hxc
      have hthis := hheld x
      rw [List.filter_cons_of_pos (by simpa using hc)] at hthis
      rw [Function.update_self]
      refine List.Perm.trans ?_ (h.slots x hx)
      exact (List.perm_middle.symm.trans (hthis.symm.append_left (free x)))
    · have hthis := hheld x
      rw [List.filter_cons_of_neg (by simpa [hc] using Ne.symm hxc)] at hthis
      rw [Function.update_of_ne hxc]
      exact (hthis.symm.append_left (free x)).trans (h.slots x hx)

/-- **The user writes** into a block in use, which touches no free slot, so the chains of the free
slots stay what they are. -/
theorem write (h : p.Stored free) (hb : b ∈ p.allocated) {address : ℕ}
    (haddress : b ≤ address ∧ address < b + p.blockSize) (value : BitVec 8) :
    (p.write address value).Stored free := by
  refine ⟨h.small, h.perChunk, h.aligned, fun x hx => h.chain_congr hx fun s hs y hy hy' => ?_,
    h.count, h.slots, h.owned⟩
  have hapart := h.apart_free hb hx hs
  rw [Apart] at hapart
  exact Function.update_of_ne (by omega) _ _

/-- **A chunk comes**, with all its slots linked into one chain; it lies outside the other chunks,
so nothing changes for them. -/
theorem grow (h : p.Stored free) (hnew : c ∉ p.chunks)
    (haligned : memoryChunkSize ∣ c ∧ 0 < c ∧ c + memoryChunkSize ≤ 2 ^ 64) {bytes : Bytes}
    {first : ℕ} (hchain : bytes.Chain first (slotsOf p.blockSize c))
    (hsame : ∀ x, x < c ∨ c + memoryChunkSize ≤ x → bytes x = p.bytes x) (links : Links ChunkNode) :
    Stored { p with
      links := links
      bytes := bytes
      chunks := insert c p.chunks
      freeSlot := Function.update p.freeSlot c first
      numberOfFreeSlots := Function.update p.numberOfFreeSlots c p.numberOfSlotsPerChunk }
      (Function.update free c (slotsOf p.blockSize c)) := by
  have hmem : ∀ x ∈ insert c p.chunks, x ≠ c → x ∈ p.chunks := fun x hx hxc =>
    (Finset.mem_insert.mp hx).resolve_left hxc
  refine ⟨h.small, h.perChunk, fun x hx => ?_, fun x hx => ?_, fun x hx => ?_, fun x hx => ?_,
    fun x hx => Finset.mem_insert_of_mem (h.owned x hx)⟩
  · by_cases hxc : x = c
    · exact hxc ▸ haligned
    · exact h.aligned x (hmem x hx hxc)
  · by_cases hxc : x = c
    · subst hxc
      simpa using hchain
    · have hx := hmem x hx hxc
      have hapart := chunks_apart (h.aligned x hx).1 haligned.1 hxc
      simp only [Function.update_of_ne hxc]
      refine h.chain_congr hx fun s hs y hy hy' => hsame y ?_
      have hbounds := slot_bounds (h.free_slot hx hs)
      omega
  · by_cases hxc : x = c
    · subst hxc
      simp [h.perChunk, length_slotsOf]
    · simpa [hxc] using h.count x (hmem x hx hxc)
  · by_cases hxc : x = c
    · subst hxc
      have hnone : p.held x = [] := by
        rw [List.eq_nil_iff_forall_not_mem]
        intro b hb
        obtain ⟨hb, hlocate⟩ := mem_held.mp hb
        exact hnew (hlocate ▸ h.owned b hb)
      simp only [held] at hnone
      simp [held, hnone]
    · simpa [held, hxc] using h.slots x (hmem x hx hxc)

/-- **A chunk goes**, all of whose slots are free, so no block in use is lost with it. -/
theorem drop (h : p.Stored free) (hc : c ∈ p.chunks)
    (hwhole : p.numberOfFreeSlots c = p.numberOfSlotsPerChunk) (links : Links ChunkNode) :
    Stored { p with
      links := links
      chunks := p.chunks.erase c
      released := p.released ++ [c] } free := by
  have hnone : p.held c = [] := by
    have hlength := h.length_eq hc
    exact List.length_eq_zero_iff.mp (by omega)
  refine ⟨h.small, h.perChunk, fun x hx => h.aligned x (Finset.mem_of_mem_erase hx),
    fun x hx => h.chain x (Finset.mem_of_mem_erase hx),
    fun x hx => h.count x (Finset.mem_of_mem_erase hx),
    fun x hx => h.slots x (Finset.mem_of_mem_erase hx), fun b hb => ?_⟩
  refine Finset.mem_erase.mpr ⟨fun hbc => ?_, h.owned b hb⟩
  have hin : b ∈ p.held c := mem_held.mpr ⟨hb, hbc⟩
  rw [hnone] at hin
  cases hin

end Stored

end MemoryPool

end Pixy.Mem
