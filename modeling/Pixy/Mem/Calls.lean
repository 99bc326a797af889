import Pixy.Mem.Lists

/-!
# The calls

What each function of the pool does to the invariant, and that it succeeds.

* `Shape.allocateBlock`: a block, or nothing if there was none and no chunk could be had;
* `Shape.freeBlock`, with its four ways to put the chunk;
* `Shape.shrinkToFit`: the chunks that go are those at the front that are wholly free.
-/

namespace Pixy.Mem

open Pixy.Found

namespace MemoryPool

variable {p : MemoryPool} {free : ℕ → List ℕ} {usable unusable l l' : List ℕ} {b c : ℕ}

/-! ## Allocation -/

/-- **A new chunk** is put at the front of the usable list with all its slots free, and the blocks
in use stay as they are. -/
theorem Shape.increaseChunks (h : p.Shape free usable unusable) (contents : Bytes)
    (hfresh : PoolAction.Fresh p c) :
    ∃ p' free', p.increaseChunks (some (c, contents)) = some (p', true) ∧
      p'.Shape free' (c :: usable) unusable ∧ p'.allocated = p.allocated := by
  obtain ⟨haligned, hpos, hend, hapart⟩ := hfresh
  have hnew : c ∉ p.chunks := fun hin => by
    have := hapart c hin
    rw [memoryChunkSize_eq] at this
    omega
  have hsmall := h.stored.small
  have hone := h.stored.one_le_perChunk
  rw [h.stored.perChunk] at hone
  obtain ⟨bytes, hcarve, hchain, hsame⟩ := carve_slots hsmall.1 hsmall.2
    (Nat.le_of_dvd hpos haligned) hend
    (fun a => if c ≤ a ∧ a < c + memoryChunkSize then contents a else p.bytes a)
  have hkept : ∀ x, x < c ∨ c + memoryChunkSize ≤ x → bytes x = p.bytes x := by
    intro x hx
    have hout : ¬(c ≤ x ∧ x < c + memoryChunkSize) := by omega
    rw [hsame x (hx.imp_left fun hlow => by omega), if_neg hout]
  exact ⟨_, _, increaseChunks_eq hcarve, ⟨h.stored.grow hnew ⟨haligned, hpos, hend⟩ hchain hkept _,
    h.listed.grow hnew (by rw [h.stored.perChunk]; omega)⟩, rfl⟩

/-- **The first slot of the last usable chunk** becomes a block in use; if it was the only free one
left, the chunk moves to the list of the full ones. -/
theorem Shape.takeSlot (h : p.Shape free (l ++ [c]) unusable) :
    ∃ free' usable' unusable', (p.takeSlot c).1.Shape free' usable' unusable' ∧
      (p.takeSlot c).1.allocated = p.allocated ++ [(p.takeSlot c).2] := by
  obtain ⟨hc, hpos⟩ := (h.listed.mem_usable c).mp (by simp)
  have hcount := h.stored.count c hc
  have hfull := h.stored.length_eq hc
  obtain ⟨s, rest, hfree⟩ : ∃ s rest, free c = s :: rest := by
    refine List.exists_cons_of_ne_nil fun hnil => ?_
    rw [hnil] at hcount
    simp only [List.length_nil, Nat.cast_zero] at hcount
    omega
  have hfirst : p.freeSlot c = s := by
    have hchain := h.stored.chain c hc
    rw [hfree] at hchain
    exact hchain.1
  unfold MemoryPool.takeSlot
  simp only [hfirst]
  by_cases hlast : p.numberOfFreeSlots c - 1 = 0
  · rw [if_pos hlast]
    refine ⟨_, l, unusable ++ [c], ⟨h.stored.take hc hfree _, ?_⟩, rfl⟩
    rw [hlast]
    exact h.listed.fillUp
  · rw [if_neg hlast]
    refine ⟨_, l ++ [c], unusable, ⟨h.stored.take hc hfree p.links,
      h.listed.recount (by simp) (by omega) ?_⟩, rfl⟩
    -- the chunk is the last one, and it is not wholly free
    have hcl : c ∉ l := fun hin =>
      List.disjoint_of_nodup_append h.listed.usable_nodup hin (by simp)
    have hleft : Ordered p.numberOfSlotsPerChunk p.numberOfFreeSlots l :=
      (List.pairwise_append.mp h.listed.ordered).1
    refine (hleft.update hcl).append fun hvalue => ?_
    rw [Function.update_self] at hvalue
    omega

/-- **Allocation** gives a block, unless there is no usable chunk and none can be had. -/
theorem Shape.allocateBlock (h : p.Shape free usable unusable) {memalign : Option (ℕ × Bytes)}
    (hfresh : ∀ fresh ∈ memalign, PoolAction.Fresh p fresh.1) :
    (usable = [] ∧ memalign = none ∧ p.allocateBlock memalign = some (p, none)) ∨
      ∃ p' block free' usable' unusable', p.allocateBlock memalign = some (p', some block) ∧
        p'.Shape free' usable' unusable' ∧ p'.allocated = p.allocated ++ [block] := by
  have htake : ∀ (q : MemoryPool) (free : ℕ → List ℕ) (l : List ℕ) (c : ℕ),
      q.Shape free (l ++ [c]) unusable → q.allocated = p.allocated →
      (p.links.IsEmpty .usableChunkListHead → p.increaseChunks memalign = some (q, true)) →
      (¬p.links.IsEmpty .usableChunkListHead → q = p) →
      ∃ p' block free' usable' unusable', p.allocateBlock memalign = some (p', some block) ∧
        p'.Shape free' usable' unusable' ∧ p'.allocated = p.allocated ++ [block] := by
    intro q free l c hq hallocated hincrease hsame
    obtain ⟨free', usable', unusable', hshape, htaken⟩ := hq.takeSlot
    refine ⟨_, _, free', usable', unusable', ?_, hshape, by rw [htaken, hallocated]⟩
    have hback : q.links.prev .usableChunkListHead = .listItem c := by
      rw [hq.listed.usableRing.prev_head]
      simp
    have hc := ((hq.listed.mem_usable c).mp (by simp)).1
    have hopen : (if p.links.IsEmpty .usableChunkListHead then p.increaseChunks memalign
        else some (p, true)) = some (q, true) := by
      split_ifs with hempty
      · exact hincrease hempty
      · rw [hsame hempty]
    simp [MemoryPool.allocateBlock, hopen, hback, hc]
  rcases List.eq_nil_or_concat' usable with rfl | ⟨l, c, rfl⟩
  · have hempty := h.listed.isEmpty_iff.mpr rfl
    rcases memalign with _ | ⟨c, contents⟩
    · exact .inl ⟨rfl, rfl, by simp [MemoryPool.allocateBlock, hempty, MemoryPool.increaseChunks]⟩
    · obtain ⟨q, free', hincrease, hq, hallocated⟩ :=
        h.increaseChunks contents (hfresh (c, contents) rfl)
      exact .inr (htake q free' [] c hq hallocated (fun _ => hincrease) fun hne =>
        absurd hempty hne)
  · have hne : ¬p.links.IsEmpty .usableChunkListHead := by
      rw [h.listed.isEmpty_iff]
      simp
    exact .inr (htake p free l c h rfl (fun hempty => absurd hempty hne) fun _ => rfl)

/-! ## Freeing -/

/-- A chunk with a block in use is not wholly free. -/
theorem Stored.lt_perChunk (h : p.Stored free) (hb : b ∈ p.allocated) :
    0 ≤ p.numberOfFreeSlots (locateMemoryChunk b) ∧
      p.numberOfFreeSlots (locateMemoryChunk b) < p.numberOfSlotsPerChunk := by
  have hc := h.owned b hb
  have hlength := h.length_eq hc
  have hheld := List.length_pos_of_mem (mem_held.mpr ⟨hb, rfl⟩)
  have hcount := h.count _ hc
  omega

/-- The chunk before one in the usable list, as the code finds it. -/
theorem Listed.prev_eq (h : p.Listed (l ++ c :: l') unusable) :
    (l = [] ∧ p.links.prev (.listItem c) = .usableChunkListHead) ∨
      ∃ l₀ q, l = l₀ ++ [q] ∧ p.links.prev (.listItem c) = .listItem q := by
  have hring := h.usableRing
  rw [List.map_append, List.map_cons] at hring
  have hprev := hring.neighbours.1
  rcases List.eq_nil_or_concat' l with rfl | ⟨l₀, q, rfl⟩
  · exact .inl ⟨rfl, hprev⟩
  · exact .inr ⟨l₀, q, rfl, by rw [hprev]; simp⟩

/-- If a chunk is wholly free, then so are those before it. -/
theorem Listed.whole_before {q : ℕ} (h : p.Listed (l ++ q :: l') unusable)
    (hq : p.numberOfFreeSlots q = p.numberOfSlotsPerChunk) :
    ∀ a ∈ l ++ [q], p.numberOfFreeSlots a = p.numberOfSlotsPerChunk := by
  intro a ha
  rcases List.mem_append.mp ha with ha | ha
  · exact (List.pairwise_append.mp h.ordered).2.2 a ha q List.mem_cons_self hq
  · rw [List.mem_singleton.mp ha, hq]

/-- **Freeing** a block in use succeeds, and takes just this block from those in use; the chunk
moves between the lists as its count of free slots demands. -/
theorem Shape.freeBlock (h : p.Shape free usable unusable) (hb : b ∈ p.allocated) :
    ∃ p' free' usable' unusable', p.freeBlock b = some p' ∧ p'.Shape free' usable' unusable' ∧
      p'.allocated = p.allocated.erase b := by
  obtain ⟨hnonneg, hlt⟩ := h.stored.lt_perChunk hb
  obtain ⟨c, hlocate⟩ : ∃ c, locateMemoryChunk b = c := ⟨_, rfl⟩
  have hc : c ∈ p.chunks := hlocate ▸ h.stored.owned b hb
  rw [hlocate] at hnonneg hlt
  have hgive := fun links => h.stored.give hb hlocate links
  unfold MemoryPool.freeBlock
  simp only [hlocate, hc, if_true]
  by_cases hzero : p.numberOfFreeSlots c = 0
  · -- the chunk was full
    obtain ⟨l, l', rfl⟩ := List.mem_iff_append.mp ((h.listed.mem_unusable c).mpr ⟨hc, hzero⟩)
    refine ⟨_, _, usable ++ [c], l ++ l', if_pos (by omega), ⟨hgive _, ?_⟩, rfl⟩
    rw [hzero, zero_add]
    refine h.listed.reopen fun hone a ha => ?_
    obtain ⟨hain, hapos⟩ := (h.listed.mem_usable a).mp ha
    have halength := h.stored.length_eq hain
    omega
  · have hcu : c ∈ usable := (h.listed.mem_usable c).mpr ⟨hc, by omega⟩
    rw [if_neg (by omega)]
    by_cases hpart : p.numberOfFreeSlots c + 1 < p.numberOfSlotsPerChunk
    · -- other slots of the chunk are in use
      rw [if_pos hpart]
      exact ⟨_, _, usable, unusable, rfl, ⟨hgive p.links, h.listed.recount hcu (by omega)
        (h.listed.ordered.change (by omega) (by omega))⟩, rfl⟩
    · have hwhole : p.numberOfFreeSlots c + 1 = p.numberOfSlotsPerChunk := by omega
      rw [if_neg hpart]
      obtain ⟨l, l', rfl⟩ := List.mem_iff_append.mp hcu
      obtain ⟨rfl, hprev⟩ | ⟨l₀, q, rfl, hprev⟩ := h.listed.prev_eq
      · -- it is the first one
        rw [hprev]
        refine ⟨_, _, [] ++ c :: l', unusable, rfl, ⟨hgive p.links,
          h.listed.recount (by simp) (by omega) ?_⟩, rfl⟩
        rw [hwhole]
        exact h.listed.ordered.fill h.listed.usable_nodup (by simp)
      · have hqc : q ≠ c := by
          rintro rfl
          have hnodup := h.listed.usable_nodup
          simp [List.nodup_append] at hnodup
        have hq := ((h.listed.mem_usable q).mp (by simp)).1
        rw [hprev]
        simp only [hq, if_true, Function.update_of_ne hqc]
        by_cases hqwhole : p.numberOfFreeSlots q = p.numberOfSlotsPerChunk
        · -- the one before it is wholly free
          rw [if_pos hqwhole]
          have hlisted : p.Listed (l₀ ++ q :: (c :: l')) unusable := by simpa using h.listed
          refine ⟨_, _, l₀ ++ [q] ++ c :: l', unusable, rfl, ⟨hgive p.links,
            h.listed.recount (by simp) (by omega) ?_⟩, rfl⟩
          rw [hwhole]
          exact h.listed.ordered.fill h.listed.usable_nodup (hlisted.whole_before hqwhole)
        · rw [if_neg hqwhole]
          exact ⟨_, _, c :: (l₀ ++ [q] ++ l'), unusable, rfl, ⟨hgive _,
            h.listed.moveToFront hwhole (by omega)⟩, rfl⟩

/-! ## Shrinking -/

/-- **The loop** takes the chunks that are wholly free from the front. -/
theorem Shape.shrinkLoop (h : p.Shape free usable unusable) {fuel : ℕ}
    (hfuel : usable.length ≤ fuel) :
    ∃ p', MemoryPool.shrinkLoop fuel p (p.links.next .usableChunkListHead) = some p' ∧
      p'.Shape free
        (usable.dropWhile fun c => p.numberOfFreeSlots c = p.numberOfSlotsPerChunk) unusable ∧
      p'.released = p.released ++
        usable.takeWhile (fun c => p.numberOfFreeSlots c = p.numberOfSlotsPerChunk) ∧
      (∀ c, c ∈ p'.chunks ↔ c ∈ p.chunks ∧
        c ∉ usable.takeWhile fun c => p.numberOfFreeSlots c = p.numberOfSlotsPerChunk) ∧
      p'.allocated = p.allocated ∧ p'.numberOfFreeSlots = p.numberOfFreeSlots ∧
      p'.numberOfSlotsPerChunk = p.numberOfSlotsPerChunk := by
  induction usable generalizing p fuel with
  | nil =>
      have hnext : p.links.next .usableChunkListHead = .usableChunkListHead :=
        h.listed.usableRing.1.1
      refine ⟨p, by rw [hnext]; cases fuel <;> rfl, h, by simp, by simp, rfl, rfl, rfl⟩
  | cons c usable ih =>
      obtain ⟨fuel, rfl⟩ : ∃ k, fuel = k + 1 := ⟨fuel - 1, by simp at hfuel; omega⟩
      have hnext : p.links.next .usableChunkListHead = .listItem c := h.listed.usableRing.1.1
      have hc := ((h.listed.mem_usable c).mp (by simp)).1
      have hlength := h.stored.length_eq hc
      rw [hnext]
      simp only [MemoryPool.shrinkLoop, hc, if_true]
      by_cases hwhole : p.numberOfFreeSlots c = p.numberOfSlotsPerChunk
      · have hstored := h.stored.drop hc hwhole (p.links.remove (.listItem c))
        have hlisted := h.listed.drop
        obtain ⟨p', hloop, hshape, hreleased, hchunks, hrest⟩ :=
          ih ⟨hstored, hlisted⟩ (by simpa using hfuel)
        -- the item read before the removal is the first one after it
        have htemp : p.links.next (.listItem c) =
            (p.links.remove (.listItem c)).next .usableChunkListHead := by
          have hring : p.links.Ring .usableChunkListHead
            ([] ++ .listItem c :: usable.map .listItem) :=
            h.listed.usableRing
          have hremoved : (p.links.remove (.listItem c)).Ring .usableChunkListHead
              ([] ++ usable.map .listItem) := hring.remove
          rw [hring.neighbours.2]
          exact hremoved.next_getLast.symm
        rw [if_neg (by omega), htemp]
        refine ⟨p', hloop, by simpa [hwhole] using hshape, ?_, fun x => ?_, hrest⟩
        · simpa [hwhole] using hreleased
        · rw [hchunks]
          simp [hwhole, and_assoc, and_left_comm]
      · rw [if_pos (by omega)]
        exact ⟨p, rfl, by simpa [hwhole] using h, by simp [hwhole], by simp [hwhole], rfl, rfl, rfl⟩

end MemoryPool

end Pixy.Mem
