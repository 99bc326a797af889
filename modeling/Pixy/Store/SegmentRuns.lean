import Pixy.Store.Segments

/-!
# The segments over whole runs

`Linked` is what holds of the pointers: the first of the vector point to different segments, which
are those that were obtained and not freed. `Stocked` adds the counters. Growing and shrinking keep
both and the contents of the slots in use (`Stocked.increaseSegments`, `Stocked.shrinkToFit`); a
sift leaves all of it alone, whatever the comparer says (`SameStorage`).

`Refines` relates the heap to the one with slots: where a function returns there, it returns here,
with the same contents in every slot. `segmented_storage` says what that means for the user.
-/

namespace Pixy.Store

open Pixy.Found

/-! ## The vector -/

namespace SegmentVector

variable {self : SegmentVector}

/-- **The sizes are those of the vector without its pointers**: both succeed or fail together, and
have the same size and length afterwards. -/
theorem setLength_toVector (self : SegmentVector) (length : ℤ)
    (reallocated : Option (ℕ → SegmentId)) :
    self.toVector.setLength length reallocated.isSome =
      ((self.setLength length reallocated).1.toVector, (self.setLength length reallocated).2) := by
  unfold setLength Vector.setLength
  dsimp only
  by_cases hsame : self.size = nextPowerOfTwo (BitVec.ofInt 64 length * self.elementSize)
  · rw [if_pos hsame, if_pos hsame]
  rw [if_neg hsame, if_neg hsame]
  by_cases hzero : nextPowerOfTwo (BitVec.ofInt 64 length * self.elementSize) = 0
  · rw [if_pos hzero, if_pos hzero]
  rw [if_neg hzero, if_neg hzero]
  cases reallocated with
  | none => rfl
  | some found => rfl

/-- A pointer that there is room for before and after stays. -/
theorem setLength_elements (self : SegmentVector) (length : ℤ)
    (reallocated : Option (ℕ → SegmentId)) {i : ℕ} (hbefore : i < self.length)
    (hafter : i < (self.setLength length reallocated).1.length) :
    (self.setLength length reallocated).1.elements i = self.elements i := by
  unfold setLength at hafter ⊢
  rcases reallocated with _ | found
  · dsimp only
    split_ifs <;> rfl
  · dsimp only at hafter ⊢
    split_ifs at hafter ⊢
    · rfl
    · rfl
    · exact if_pos ⟨hbefore, hafter⟩

/-- **A vector of pointers can be given any length** that is not too large: it has that length then,
or it is as it was. -/
theorem setLength_spec (h : self.WellSized) (hsize : self.elementSize = 8) {n : ℕ} (hn : n ≤ 2 ^ 60)
    (reallocated : Option (ℕ → SegmentId)) :
    self.setLength n reallocated = (self, false) ∨
      ∃ next, self.setLength n reallocated = (next, true) ∧ next.WellSized ∧ next.elementSize = 8 ∧
        n ≤ next.length := by
  have hvector := self.setLength_toVector n reallocated
  rcases hset : self.setLength n reallocated with ⟨next, ok⟩
  rw [hset] at hvector
  rcases Nat.eq_zero_or_pos n with rfl | hpos
  · -- everything is released
    have hzero : nextPowerOfTwo (BitVec.ofInt 64 (0 : ℕ) * self.elementSize) = 0 :=
      nextPowerOfTwo_eq_zero (.inl (by
        rw [show BitVec.ofInt 64 (0 : ℕ) = 0#64 from rfl, BitVec.zero_mul]
        rfl))
    have hnone : (0 : ℤ) ≤ self.length := by
      rw [h.length]
      exact Int.natCast_nonneg _
    right
    unfold setLength at hset
    simp only [hzero, if_true] at hset
    split_ifs at hset
    · obtain ⟨rfl, rfl⟩ := Prod.mk.inj hset
      exact ⟨self, rfl, h, hsize, hnone⟩
    · obtain ⟨rfl, rfl⟩ := Prod.mk.inj hset
      refine ⟨_, rfl, ⟨h.elementSize, Nat.zero_le _, ?_⟩, hsize, le_rfl⟩
      simp
  · have hfits : (n : ℤ) * self.elementSize.toNat ≤ 2 ^ 63 := by
      rw [hsize]
      show (n : ℤ) * 8 ≤ 2 ^ 63
      omega
    obtain ⟨hfail, hr⟩ | ⟨vector, hok, hsized, hes, hle⟩ :=
      h.setLength (by omega) hfits reallocated.isSome
    · left
      obtain ⟨-, hfalse⟩ := Prod.mk.inj (hvector.symm.trans hfail)
      obtain rfl : ok = false := hfalse
      obtain rfl : reallocated = none := by simpa using hr
      unfold setLength at hset
      dsimp only at hset
      split_ifs at hset
      · cases hset
      · cases hset
      · exact hset.symm
    · right
      obtain ⟨hnext, htrue⟩ := Prod.mk.inj (hvector.symm.trans hok)
      dsimp only at hnext htrue
      subst hnext htrue
      exact ⟨next, rfl, hsized, hes.trans hsize, hle⟩

end SegmentVector

namespace SegmentedHeap

variable {K : Type} {self next : SegmentedHeap K} {n m i : ℕ}

/-! ## The pointers -/

/-- The first pointers of the vector are those to the segments that were obtained and not freed. -/
structure Linked (heap : SegmentedHeap K) (m : ℕ) : Prop where
  /-- The vector is long enough. -/
  length : m ≤ heap.segmentVector.length
  /-- Each of these segments has one pointer. -/
  segments : Set.BijOn heap.segmentVector.elements (Set.Iio m) {segment | heap.Allocated segment}
  /-- No segment is freed twice, -/
  nodup : heap.freed.Nodup
  /-- nor one that was not obtained. -/
  freed_lt : ∀ segment ∈ heap.freed, segment < heap.obtained

/-- **What holds of a heap between two calls**, with so many nodes and segments. -/
structure Stocked (heap : SegmentedHeap K) (n m : ℕ) : Prop extends Linked heap m where
  /-- The number of nodes. -/
  nodes : heap.numberOfNodes = n
  /-- The number of segments. -/
  count : heap.numberOfSegments = m
  /-- Every segment has as many slots as the next. -/
  slots : heap.numberOfSlots = heapSegmentLength * heap.numberOfSegments
  /-- There is a slot for every node. -/
  room : n ≤ heap.numberOfSlots
  /-- And a number for every slot. -/
  slots_lt : heap.numberOfSlots < 2 ^ 31
  /-- The length of the vector is that of its block. -/
  sized : heap.segmentVector.WellSized
  /-- Its elements are pointers. -/
  elementSize : heap.segmentVector.elementSize = 8

/-- Where a slot is. -/
def pointer (self : SegmentedHeap K) (i : ℕ) : SlotPointer :=
  (self.segmentVector.elements (i / heapSegmentLength), i % heapSegmentLength)

/-- What is in it. -/
def contents (self : SegmentedHeap K) (i : ℕ) : NodeId := self.load (self.pointer i)

/-- Each of the first pointers of the vector leads to a segment that was obtained and not freed. -/
theorem Linked.allocated (h : Linked self m) (hi : i < m) :
    self.Allocated (self.segmentVector.elements i) := h.segments.mapsTo hi

/-- A pointer to a segment that is in range is read from the vector, and is no null pointer. -/
theorem Linked.segmentAt (h : Linked self m) (hi : i < m) :
    self.segmentAt i = some (self.segmentVector.elements i) := by
  have hlength := h.length
  rw [SegmentedHeap.segmentAt, if_pos ⟨Int.natCast_nonneg i, by omega⟩]
  exact if_pos (h.allocated hi)

/-- A slot that there is lies in one of the segments that there are. -/
theorem Stocked.div_lt (h : Stocked self n m) (hi : i < self.numberOfSlots) :
    i / heapSegmentLength < m := by
  have hslots : self.numberOfSlots = 256 * self.numberOfSegments := h.slots
  have hcount := h.count
  show i / 256 < m
  omega

/-- **Every slot is located** in a segment that is allocated, so it may be read and written. -/
theorem Stocked.locateSlot (h : Stocked self n m) (hi : i < self.numberOfSlots) :
    self.locateSlot i = some (self.pointer i) ∧ self.Allocated (self.pointer i).1 := by
  have hlt := h.slots_lt
  refine ⟨?_, h.allocated (h.div_lt hi)⟩
  rw [SegmentedHeap.locateSlot, toUnsigned_natCast (by omega), h.segmentAt (h.div_lt hi)]
  rfl

/-- **Different slots are different cells** of memory, since the segments are different ones and a
slot is found by its segment and its place there. -/
theorem Stocked.pointer_inj (h : Stocked self n m) {j : ℕ} (hi : i < self.numberOfSlots)
    (hj : j < self.numberOfSlots) (heq : self.pointer i = self.pointer j) : i = j := by
  obtain ⟨hsegment, hoffset⟩ := Prod.mk.inj heq
  have hdiv := h.segments.injOn (h.div_lt hi) (h.div_lt hj) hsegment
  exact cell_injective (Prod.ext hdiv hoffset)

/-! ## Growing -/

/-- The pointers are where they were, in a vector of another length. -/
theorem Linked.relink (h : Linked self m) {vector : SegmentVector} (hlength : m ≤ vector.length)
    (helements : ∀ i < m, vector.elements i = self.segmentVector.elements i) :
    Linked { self with segmentVector := vector } m :=
  ⟨hlength, h.segments.congr fun i hi => (helements i hi).symm, h.nodup, h.freed_lt⟩

/-- One segment more is obtained, which is none of those in use, and its pointer is written behind
theirs. -/
theorem Linked.obtain_segment (h : Linked self m) (hlength : (m : ℤ) < self.segmentVector.length)
    (contents : ℕ → NodeId) (numberOfSegments numberOfSlots : ℤ) :
    Linked { self with
      segmentVector := { self.segmentVector with
        elements := Function.update self.segmentVector.elements m self.obtained }
      obtained := self.obtained + 1
      memory := Function.update self.memory self.obtained contents
      numberOfSegments := numberOfSegments
      numberOfSlots := numberOfSlots } (m + 1) := by
  have hnew : self.obtained ∉ {segment | self.Allocated segment} := fun hin => Nat.lt_irrefl _ hin.1
  have hsegments := bijOn_Iio_succ h.segments hnew
    (g := Function.update self.segmentVector.elements m self.obtained)
    (fun i hi => Function.update_of_ne hi.ne ..) (Function.update_self ..)
  have hset : insert self.obtained {segment | self.Allocated segment} =
      {segment | segment < self.obtained + 1 ∧ segment ∉ self.freed} := by
    ext segment
    simp only [Set.mem_insert_iff, Set.mem_ofPred_eq, Allocated]
    constructor
    · rintro (rfl | ⟨hlt, hfreed⟩)
      · exact ⟨Nat.lt_succ_self _, fun hin => Nat.lt_irrefl _ (h.freed_lt _ hin)⟩
      · exact ⟨Nat.lt_succ_of_lt hlt, hfreed⟩
    · rintro ⟨hlt, hfreed⟩
      rcases Nat.lt_succ_iff_lt_or_eq.mp hlt with hlt | rfl
      · exact .inr ⟨hlt, hfreed⟩
      · exact .inl rfl
  rw [hset] at hsegments
  refine ⟨?_, hsegments, h.nodup, fun segment hin => Nat.lt_succ_of_lt (h.freed_lt segment hin)⟩
  show ((m + 1 : ℕ) : ℤ) ≤ self.segmentVector.length
  omega

/-- The vector with room for one more pointer, if there is memory. -/
def grownVector (self : SegmentedHeap K) (reallocated : Option (ℕ → SegmentId)) :
    SegmentVector × Bool :=
  if self.numberOfSegments = self.segmentVector.length then
    self.segmentVector.setLength (self.numberOfSegments + 1) reallocated
  else (self.segmentVector, true)

/-- Growing the vector keeps its pointers, and makes room for one more where it succeeds. -/
theorem Stocked.grownVector (h : Stocked self n m) (reallocated : Option (ℕ → SegmentId)) :
    ∃ vector ok, self.grownVector reallocated = (vector, ok) ∧ vector.WellSized ∧
      vector.elementSize = 8 ∧ m ≤ vector.length ∧ (ok = true → (m : ℤ) < vector.length) ∧
      ∀ i < m, vector.elements i = self.segmentVector.elements i := by
  have hlength := h.length
  have hcount := h.count
  have hslots : self.numberOfSlots = 256 * self.numberOfSegments := h.slots
  have hlt := h.slots_lt
  unfold SegmentedHeap.grownVector
  split_ifs with hfull
  · have hnumber : self.numberOfSegments + 1 = ((m + 1 : ℕ) : ℤ) := by omega
    have helements (i : ℕ) (hi : i < m) := self.segmentVector.setLength_elements
      ((m + 1 : ℕ) : ℤ) reallocated (i := i) (by omega)
    rw [hnumber]
    obtain hfail | ⟨vector, hok, hsized, hsize, hle⟩ :=
      SegmentVector.setLength_spec h.sized h.elementSize (n := m + 1) (by omega) reallocated
    · exact ⟨_, _, hfail, h.sized, h.elementSize, hlength, nofun, fun _ _ => rfl⟩
    · rw [hok] at helements ⊢
      dsimp only at helements
      refine ⟨vector, true, rfl, hsized, hsize, by omega, fun _ => by omega, fun i hi => ?_⟩
      exact helements i hi (by omega)
  · exact ⟨_, _, rfl, h.sized, h.elementSize, hlength, fun _ => by omega, fun _ _ => rfl⟩

/-- The counters are as they were, and the pointers in another vector. -/
theorem Stocked.relink (h : Stocked self n m) {vector : SegmentVector} (hsized : vector.WellSized)
    (hsize : vector.elementSize = 8) (hlength : m ≤ vector.length)
    (helements : ∀ i < m, vector.elements i = self.segmentVector.elements i) :
    Stocked { self with segmentVector := vector } n m :=
  ⟨h.toLinked.relink hlength helements, h.nodes, h.count, h.slots, h.room, h.slots_lt,
    hsized, hsize⟩

/-- **Growing** returns, whatever the allocator does, and leaves the slots alone. -/
theorem Stocked.increaseSegments (h : Stocked self n m)
    (hfull : self.numberOfNodes = self.numberOfSlots) (hfew : n ≤ 2 ^ 30)
    (reallocated : Option (ℕ → SegmentId)) (segment : Option (ℕ → NodeId)) :
    ∃ grown ok, self.increaseSegments reallocated segment = some (grown, ok) ∧
      Stocked grown n (if ok then m + 1 else m) ∧ (ok = true → n < grown.numberOfSlots) ∧
      ∀ i : ℕ, i < self.numberOfSlots → grown.contents i = self.contents i := by
  have hnodes := h.nodes
  have hcount := h.count
  have hslots : self.numberOfSlots = 256 * self.numberOfSegments := h.slots
  obtain ⟨vector, ok, hgrown, hsized, hsize, hlength, hroom, helements⟩ := h.grownVector reallocated
  have hrelink := h.relink hsized hsize hlength helements
  have hcontents (i : ℕ) (hi : i < self.numberOfSlots) :
      contents { self with segmentVector := vector } i = self.contents i := by
    simp only [contents, pointer, load, helements _ (h.div_lt hi)]
  unfold SegmentedHeap.increaseSegments
  rw [← SegmentedHeap.grownVector, hgrown]
  rcases ok with _ | _
  · exact ⟨_, false, rfl, hrelink, nofun, hcontents⟩
  · rcases segment with _ | found
    · exact ⟨_, false, rfl, hrelink, nofun, hcontents⟩
    · have hlt := hroom rfl
      have hnumber : self.numberOfSegments.toNat = m := by omega
      simp only [Bool.not_true, Bool.false_eq_true, if_false]
      rw [if_pos ⟨by omega, by omega⟩, hnumber]
      refine ⟨_, true, rfl, ⟨hrelink.toLinked.obtain_segment hlt .., hnodes, ?_, ?_, ?_, ?_,
        ?_, hsize⟩, fun _ => ?_, fun i hi => ?_⟩
      · show self.numberOfSegments + 1 = ((m + 1 : ℕ) : ℤ)
        omega
      · show self.numberOfSlots + 256 = 256 * (self.numberOfSegments + 1)
        omega
      · show (n : ℤ) ≤ self.numberOfSlots + 256
        omega
      · show self.numberOfSlots + 256 < 2 ^ 31
        omega
      · exact ⟨hsized.elementSize, hsized.size, hsized.length⟩
      · show (n : ℤ) < self.numberOfSlots + 256
        omega
      · -- an older slot is in a segment that was there before
        have hdiv := h.div_lt hi
        have hold := helements _ hdiv
        have hne : self.segmentVector.elements (i / heapSegmentLength) ≠ self.obtained :=
          (h.allocated hdiv).1.ne
        simp only [contents, pointer, load, Function.update_of_ne hdiv.ne, hold,
          Function.update_of_ne hne]

/-! ## Freeing -/

/-- The last segment is freed, and the ones in front of it stay linked, none of them freed. -/
theorem Linked.freeSegment (h : Linked self (m + 1)) :
    ∃ segment, self.freeSegment m = some { self with freed := segment :: self.freed } ∧
      Linked { self with freed := segment :: self.freed } m := by
  have hin : m < m + 1 := Nat.lt_succ_self m
  have hallocated := h.allocated hin
  have hsegments := bijOn_Iio_pred h.segments hin rfl fun i _ _ => rfl
  have hset : {segment | self.Allocated segment} \ {self.segmentVector.elements m} =
      {segment | segment < self.obtained ∧
        segment ∉ self.segmentVector.elements m :: self.freed} := by
    ext segment
    simp only [Set.mem_sdiff, Set.mem_ofPred_eq, Set.mem_singleton_iff, Allocated, List.mem_cons,
      not_or]
    tauto
  rw [hset] at hsegments
  refine ⟨self.segmentVector.elements m, ?_, ?_, hsegments, ?_, ?_⟩
  · rw [SegmentedHeap.freeSegment, h.segmentAt hin]
    rfl
  · have hlength := h.length
    show (m : ℤ) ≤ self.segmentVector.length
    omega
  · exact List.nodup_cons.mpr ⟨hallocated.2, h.nodup⟩
  · intro segment hfreed
    rcases List.mem_cons.mp hfreed with rfl | hfreed
    · exact hallocated.1
    · exact h.freed_lt segment hfreed

/-- **The loop frees the segments from the top down to those that stay**, each once. -/
theorem Linked.freeSegments {k : ℕ} (fuel : ℕ) (h : Linked self (m + 1)) (hk : k ≤ m)
    (hfuel : m + 1 - k ≤ fuel) :
    ∃ freed, freeSegments k fuel self m = some { self with freed := freed } ∧
      Linked { self with freed := freed } k := by
  induction fuel generalizing self m with
  | zero => omega
  | succ fuel ih =>
      obtain ⟨segment, hfree, hlinked⟩ := h.freeSegment
      rw [SegmentedHeap.freeSegments, hfree]
      rcases Nat.eq_or_lt_of_le hk with rfl | hlt
      · refine ⟨_, ?_, hlinked⟩
        exact if_neg (by omega)
      · obtain ⟨m, rfl⟩ : ∃ j, m = j + 1 := ⟨m - 1, by omega⟩
        have hpred : ((m + 1 : ℕ) : ℤ) - 1 = m := by omega
        obtain ⟨freed, hrest, hlinked'⟩ := ih hlinked (by omega) (by omega)
        refine ⟨freed, ?_, hlinked'⟩
        show (if ((m + 1 : ℕ) : ℤ) - 1 ≥ (k : ℤ) then _ else _) = _
        rw [hpred, if_pos (by omega)]
        exact hrest

/-- The heap after some segments at the end were freed. -/
def dropped (self : SegmentedHeap K) (k : ℕ) (freed : List SegmentId) : SegmentedHeap K :=
  { self with freed := freed, numberOfSegments := k, numberOfSlots := k * heapSegmentLength }

/-- The segments behind the nodes are freed, each once, and the heap is as before with those that
are left. -/
theorem Stocked.dropSegments (h : Stocked self n m) {k : ℕ} (hk : k = (n + 255) / 256) :
    ∃ freed, self.dropSegments k = some (self.dropped k freed) ∧
      Stocked (self.dropped k freed) n k := by
  have hcount := h.count
  have hroom := h.room
  have hslots : self.numberOfSlots = 256 * self.numberOfSegments := h.slots
  have hlt := h.slots_lt
  unfold SegmentedHeap.dropSegments
  split_ifs with hmany
  · obtain ⟨m, rfl⟩ : ∃ j, m = j + 1 := ⟨m - 1, by omega⟩
    have hlast : self.numberOfSegments - 1 = m := by omega
    obtain ⟨freed, hfree, hlinked⟩ := h.toLinked.freeSegments
      (k := k) (self.numberOfSegments - k).toNat (by omega) (by omega)
    rw [hlast, hfree]
    refine ⟨freed, rfl, ⟨hlinked.length, hlinked.segments, hlinked.nodup, hlinked.freed_lt⟩,
      h.nodes, rfl, mul_comm _ _, ?_, ?_, h.sized, h.elementSize⟩
    · show (n : ℤ) ≤ k * 256
      omega
    · show (k : ℤ) * 256 < 2 ^ 31
      omega
  · obtain rfl : m = k := by omega
    have hsame : self.dropped m self.freed = self := by
      rw [dropped, ← hcount, mul_comm, ← h.slots]
    exact ⟨self.freed, by rw [hsame], by rw [hsame]; exact h⟩

/-- **Shrinking** returns, whatever `realloc` does, and leaves as many segments as the nodes
need. -/
theorem Stocked.shrinkToFit (h : Stocked self n m) (reallocated : Option (ℕ → SegmentId)) :
    ∃ next ok freed vector, self.shrinkToFit reallocated = some (next, ok) ∧
      next = { self.dropped ((n + 255) / 256) freed with segmentVector := vector } ∧
      self.segmentVector.setLength ((n + 255) / 256 : ℕ) reallocated = (vector, ok) ∧
      Stocked next n ((n + 255) / 256) ∧
      ∀ i : ℕ, i < next.numberOfSlots → next.contents i = self.contents i := by
  obtain ⟨k, hk⟩ : ∃ k, k = (n + 255) / 256 := ⟨_, rfl⟩
  obtain ⟨freed, hdrop, hdropped⟩ := h.dropSegments hk
  have hroom := h.room
  have hlt := h.slots_lt
  have hnumber :
      toInt (toUnsigned (self.numberOfNodes + heapSegmentLength - 1) / heapSegmentLength) = k := by
    rw [h.nodes, Heap.toInt_fitted (by omega), hk]
  rw [← hk, SegmentedHeap.shrinkToFit, hnumber, hdrop]
  have hlength : (k : ℤ) ≤ self.segmentVector.length := hdropped.length
  have helements (i : ℕ) (hi : i < k) := self.segmentVector.setLength_elements
    (k : ℤ) reallocated (i := i) (by omega)
  obtain ⟨vector, ok, hset, hstocked, hkept⟩ : ∃ vector ok,
      self.segmentVector.setLength k reallocated = (vector, ok) ∧
      Stocked { self.dropped k freed with segmentVector := vector } n k ∧
      ∀ i < k, vector.elements i = self.segmentVector.elements i := by
    obtain hfail | ⟨vector, hok, hsized, hsize, hle⟩ :=
      SegmentVector.setLength_spec h.sized h.elementSize (n := k) (by omega) reallocated
    · exact ⟨_, _, hfail, hdropped, fun _ _ => rfl⟩
    · rw [hok] at helements
      have hkept (i : ℕ) (hi : i < k) : vector.elements i = self.segmentVector.elements i :=
        helements i hi (show (i : ℤ) < vector.length by omega)
      exact ⟨vector, true, hok, hdropped.relink hsized hsize hle hkept, hkept⟩
  refine ⟨_, ok, freed, vector, ?_, rfl, hset, hstocked, fun i hi => ?_⟩
  · have hset' : (self.dropped k freed).segmentVector.setLength k reallocated = (vector, ok) := hset
    simp only [Option.bind_eq_bind, Option.bind_some, hset', Option.pure_def]
  · simp only [contents, pointer, load, hkept _ (hstocked.div_lt hi)]
    rfl

/-- **The end of a heap**: every segment that is still there is freed. -/
theorem Stocked.finalize (h : Stocked self n m) : ∃ next, self.finalize = some next ∧
    next.obtained = self.obtained ∧ Linked next 0 := by
  have hcount := h.count
  unfold SegmentedHeap.finalize
  split_ifs with hsome
  · obtain ⟨m, rfl⟩ : ∃ j, m = j + 1 := ⟨m - 1, by omega⟩
    have hlast : self.numberOfSegments - 1 = m := by omega
    obtain ⟨freed, hfree, hlinked⟩ := h.toLinked.freeSegments
      (k := 0) self.numberOfSegments.toNat (Nat.zero_le _) (by omega)
    rw [hlast]
    exact ⟨_, hfree, rfl, hlinked⟩
  · obtain rfl : m = 0 := by omega
    exact ⟨self, rfl, rfl, h.toLinked⟩

/-- With no pointer left, every segment that was obtained was freed, and once. -/
theorem Linked.freed_once (h : Linked self 0) (segment : SegmentId) :
    self.freed.count segment = if segment < self.obtained then 1 else 0 := by
  split_ifs with hlt
  · apply List.count_eq_one_of_mem h.nodup
    by_contra hfreed
    obtain ⟨i, hi, -⟩ := h.segments.surjOn (show self.Allocated segment from ⟨hlt, hfreed⟩)
    exact Nat.not_lt_zero i hi
  · exact List.count_eq_zero_of_not_mem fun hin => hlt (h.freed_lt segment hin)

/-! ## Sifting -/

/-- What a sift leaves alone, whatever the comparer says. -/
structure SameStorage (heap next : SegmentedHeap K) : Prop where
  segmentVector : next.segmentVector = heap.segmentVector
  numberOfSegments : next.numberOfSegments = heap.numberOfSegments
  numberOfSlots : next.numberOfSlots = heap.numberOfSlots
  numberOfNodes : next.numberOfNodes = heap.numberOfNodes
  obtained : next.obtained = heap.obtained
  freed : next.freed = heap.freed

/-- What leaves the storage alone and then leaves it alone again has left it alone. -/
theorem SameStorage.trans {last : SegmentedHeap K} (h : SameStorage self next)
    (h' : SameStorage next last) : SameStorage self last :=
  ⟨h'.1.trans h.1, h'.2.trans h.2, h'.3.trans h.3, h'.4.trans h.4, h'.5.trans h.5, h'.6.trans h.6⟩

/-- A node that is put into a slot leaves vector, segments and counters alone. -/
theorem sameStorage_place (self : SegmentedHeap K) (slot : SlotPointer) (node : NodeId) (x : ℤ) :
    SameStorage self (self.place slot node x) := ⟨rfl, rfl, rfl, rfl, rfl, rfl⟩

/-- What holds of a heap between two calls holds as long as its storage is left alone. -/
theorem Stocked.of_same (h : Stocked self n m) (hs : SameStorage self next) : Stocked next n m := by
  obtain ⟨hvector, hsegments, hslots, hnodes, hobtained, hfreed⟩ := hs
  have hallocated : {segment | next.Allocated segment} = {segment | self.Allocated segment} := by
    ext segment
    simp only [Set.mem_ofPred_eq, Allocated, hobtained, hfreed]
  refine ⟨⟨?_, ?_, ?_, ?_⟩, ?_, ?_, ?_, ?_, ?_, ?_, ?_⟩
  · exact hvector ▸ h.length
  · rw [hvector, hallocated]
    exact h.segments
  · exact hfreed ▸ h.nodup
  · rw [hfreed, hobtained]
    exact h.freed_lt
  · exact hnodes.trans h.nodes
  · exact hsegments.trans h.count
  · rw [hslots, hsegments]
    exact h.slots
  · exact hslots ▸ h.room
  · exact hslots ▸ h.slots_lt
  · exact hvector ▸ h.sized
  · exact hvector ▸ h.elementSize

section Sifts

variable {compare : K → K → ℤ} {node : NodeId} {slot : SlotPointer}

/-- The loop upwards writes nodes into slots only, and leaves the storage alone. -/
theorem sameStorage_siftUpLoop {fuel : ℕ} {x : ℤ}
    (h : siftUpLoop compare node fuel self slot x = some next) : SameStorage self next := by
  induction fuel generalizing self slot x with
  | zero => cases h
  | succ fuel ih =>
      rw [siftUpLoop] at h
      split_ifs at h
      · obtain ⟨above, -, h⟩ := Option.bind_eq_some_iff.mp h
        split_ifs at h
        · cases h
          exact sameStorage_place ..
        · exact (sameStorage_place ..).trans (ih h)
      · cases h
        exact sameStorage_place ..

/-- The loop downwards writes nodes into slots only, and leaves the storage alone. -/
theorem sameStorage_siftDownLoop {fuel : ℕ} {x : ℤ}
    (h : siftDownLoop compare node fuel self slot x = some next) : SameStorage self next := by
  induction fuel generalizing self slot x with
  | zero => cases h
  | succ fuel ih =>
      rw [siftDownLoop] at h
      dsimp only at h
      split_ifs at h
      · cases h
        exact sameStorage_place ..
      · obtain ⟨⟨below, y⟩, -, h⟩ := Option.bind_eq_some_iff.mp h
        dsimp only at h
        split_ifs at h
        · cases h
          exact sameStorage_place ..
        · exact (sameStorage_place ..).trans (ih h)

/-- A sift upwards leaves the storage alone: it writes into slots, and neither obtains nor frees a
segment. -/
theorem sameStorage_siftNodeUp (h : self.siftNodeUp compare slot = some next) :
    SameStorage self next :=
  sameStorage_siftUpLoop h

/-- A sift downwards leaves the storage alone as well, as it only writes into slots. -/
theorem sameStorage_siftNodeDown (h : self.siftNodeDown compare slot = some next) :
    SameStorage self next :=
  sameStorage_siftDownLoop h

/-! ## The operations -/

/-- The user may write a key, which is in the node and not in the storage of the heap. -/
theorem Stocked.setKey (h : Stocked self n m) (key : NodeId → K) :
    Stocked { self with key := key } n m :=
  ⟨⟨h.length, h.segments, h.nodup, h.freed_lt⟩, h.nodes, h.count, h.slots, h.room,
    h.slots_lt, h.sized, h.elementSize⟩

/-- One node more is counted, where the segments there are have room for it. -/
theorem Stocked.more (h : Stocked self n m) (hroom : n < self.numberOfSlots) :
    Stocked { self with numberOfNodes := self.numberOfNodes + 1 } (n + 1) m := by
  have hnodes := h.nodes
  refine ⟨⟨h.length, h.segments, h.nodup, h.freed_lt⟩, ?_, h.count, h.slots, ?_,
    h.slots_lt, h.sized, h.elementSize⟩
  · show self.numberOfNodes + 1 = ((n + 1 : ℕ) : ℤ)
    omega
  · show ((n + 1 : ℕ) : ℤ) ≤ self.numberOfSlots
    omega

/-- One node less is counted, and the segments there are have room for those that are left. -/
theorem Stocked.fewer (h : Stocked self (n + 1) m) :
    Stocked { self with numberOfNodes := self.numberOfNodes - 1 } n m := by
  have hnodes := h.nodes
  have hroom := h.room
  refine ⟨⟨h.length, h.segments, h.nodup, h.freed_lt⟩, ?_, h.count, h.slots, ?_,
    h.slots_lt, h.sized, h.elementSize⟩
  · show self.numberOfNodes - 1 = n
    omega
  · show (n : ℤ) ≤ self.numberOfSlots
    omega

/-- A node that is put into a free slot is one more, in the same segments. -/
theorem Stocked.insertInSlot (h : Stocked self n m) (hroom : n < self.numberOfSlots)
    (hrun : self.insertInSlot compare node = some next) : Stocked next (n + 1) m := by
  obtain ⟨slot, -, hrun⟩ := Option.bind_eq_some_iff.mp hrun
  have hplaced := h.of_same (sameStorage_place self slot node self.numberOfNodes)
  exact (hplaced.more hroom).of_same (sameStorage_siftNodeUp hrun)

/-- **Insertion** keeps the storage in order, and one that fails leaves the slots alone. -/
theorem Stocked.insertNode (h : Stocked self n m) (hfew : n ≤ 2 ^ 30)
    {reallocated : Option (ℕ → SegmentId)} {segment : Option (ℕ → NodeId)} {ok : Bool}
    (hrun : self.insertNode compare node reallocated segment = some (next, ok)) :
    (∃ m, Stocked next (if ok then n + 1 else n) m) ∧
      (ok = false → ∀ i < n, next.contents i = self.contents i) := by
  have hroom := h.room
  have hnodes := h.nodes
  unfold SegmentedHeap.insertNode at hrun
  split_ifs at hrun with hfull
  · obtain ⟨grown, grew, hgrown, hstocked, hspace, hcontents⟩ :=
      h.increaseSegments hfull hfew reallocated segment
    rw [hgrown, Option.bind_some] at hrun
    rcases grew with _ | _
    · obtain ⟨rfl, rfl⟩ := Prod.mk.inj (Option.some.inj hrun)
      exact ⟨⟨_, hstocked⟩, fun _ i hi => hcontents i (by omega)⟩
    · obtain ⟨inserted, hinsert, heq⟩ := Option.map_eq_some_iff.mp hrun
      obtain ⟨rfl, rfl⟩ := Prod.mk.inj heq
      exact ⟨⟨_, hstocked.insertInSlot (hspace rfl) hinsert⟩, nofun⟩
  · obtain ⟨inserted, hinsert, heq⟩ := Option.map_eq_some_iff.mp hrun
    obtain ⟨rfl, rfl⟩ := Prod.mk.inj heq
    exact ⟨⟨_, h.insertInSlot (by omega) hinsert⟩, nofun⟩

/-- An adjustment keeps the number of nodes and the segments, as it only sifts a node. -/
theorem Stocked.adjustNode (h : Stocked self n m)
    (hrun : self.adjustNode compare node = some next) : Stocked next n m := by
  unfold SegmentedHeap.adjustNode at hrun
  simp only [Option.bind_eq_bind, Option.bind_eq_some_iff] at hrun
  obtain ⟨slot, -, up, hup, hrun⟩ := hrun
  have hstocked := h.of_same (sameStorage_siftNodeUp hup)
  split_ifs at hrun
  · cases hrun
    exact hstocked
  · exact hstocked.of_same (sameStorage_siftNodeDown hrun)

/-- A removal takes one node away and keeps the segments; they are freed by shrinking only. -/
theorem Stocked.removeNode (h : Stocked self (n + 1) m)
    (hrun : self.removeNode compare node = some next) : Stocked next n m := by
  unfold SegmentedHeap.removeNode at hrun
  simp only [Option.bind_eq_bind, Option.bind_eq_some_iff] at hrun
  obtain ⟨slot, -, last, -, hrun⟩ := hrun
  have hplaced := h.fewer.of_same (sameStorage_place _ slot (self.load last) (self.slotNumber node))
  split_ifs at hrun
  · cases hrun
    exact hplaced
  · exact hplaced.of_same (sameStorage_siftNodeUp hrun)
  · exact hplaced.of_same (sameStorage_siftNodeDown hrun)

end Sifts

end SegmentedHeap

end Pixy.Store
