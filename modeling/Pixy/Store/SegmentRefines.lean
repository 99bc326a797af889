import Pixy.Store.SegmentRuns

/-!
# The segmented heap refines the heap with slots

`Refines` says that the two have the same counters and the same node in every slot. Where a function
of the heap with slots returns, its counterpart returns, and they are related again; so what was
proved of the one over whole runs holds of the other (`simulates_heapSystem`). `segmented_storage`
says what the segments are in every reachable state, whatever the comparer and the allocator do.
-/

namespace Pixy.Store

open Pixy.Found

namespace SegmentedHeap

variable {K : Type} {compare : K → K → ℤ} {self next : SegmentedHeap K} {heap heap' : Heap K}
  {n m x : ℕ} {node : NodeId} {z : ℤ}

/-- **The heap with slots has the same counters and the same node in every slot.** -/
structure Refines (storage : SegmentedHeap K) (heap : Heap K) : Prop where
  segmentVector : heap.segmentVector = storage.segmentVector.toVector
  numberOfSegments : heap.numberOfSegments = storage.numberOfSegments
  numberOfSlots : heap.numberOfSlots = storage.numberOfSlots
  numberOfNodes : heap.numberOfNodes = storage.numberOfNodes
  slotNumber : heap.slotNumber = storage.slotNumber
  key : heap.key = storage.key
  contents : ∀ i : ℕ, i < storage.numberOfSlots → heap.nodeAt i = storage.contents i

/-! ## Slots -/

/-- A slot that is located there is located here, and holds the same node. -/
theorem Refines.locateSlot (hs : Stocked self n m) (hr : Refines self heap) {cell' : Cell}
    (hlocate : heap.locateSlot z = some cell') :
    ∃ i : ℕ, z = i ∧ i < self.numberOfSlots ∧ cell' = cell i ∧
      self.locateSlot z = some (self.pointer i) ∧
      heap.slots cell' = self.load (self.pointer i) := by
  have hslots := hs.slots_lt
  have hcount := hr.numberOfSlots
  unfold Heap.locateSlot at hlocate
  split_ifs at hlocate with hin
  obtain ⟨i, rfl⟩ := Int.eq_ofNat_of_zero_le hin.1
  rw [toUnsigned_natCast (by omega)] at hlocate
  obtain rfl : cell i = cell' := Option.some.inj hlocate
  have hlt : (i : ℤ) < self.numberOfSlots := by omega
  exact ⟨i, rfl, hlt, rfl, (hs.locateSlot hlt).1, hr.contents i hlt⟩

/-- What is in the slots after a node has been put into one of them: that node there, and the same
everywhere else, since no two slots share a place. -/
theorem contents_place (hs : Stocked self n m) (hx : x < self.numberOfSlots) (node : NodeId) (z : ℤ)
    {i : ℕ} (hi : i < self.numberOfSlots) :
    (self.place (self.pointer x) node z).contents i = if i = x then node else self.contents i := by
  have hpointer : (self.place (self.pointer x) node z).pointer i = self.pointer i := rfl
  have hmemory : (self.place (self.pointer x) node z).memory =
    Function.update self.memory (self.pointer x).1
      (Function.update (self.memory (self.pointer x).1) (self.pointer x).2 node) := rfl
  rw [contents, hpointer, load, hmemory]
  by_cases hsegment : (self.pointer i).1 = (self.pointer x).1
  · rw [hsegment, Function.update_self]
    by_cases hoffset : (self.pointer i).2 = (self.pointer x).2
    · rw [hoffset, Function.update_self, if_pos (hs.pointer_inj hi hx (Prod.ext hsegment hoffset))]
    · rw [Function.update_of_ne hoffset, if_neg fun heq => hoffset (by rw [heq]), contents, load,
        hsegment]
  · rw [Function.update_of_ne hsegment, if_neg fun heq => hsegment (by rw [heq]), contents, load]

/-- A node is written into the same slot of both heaps, with the same number, and they agree as
before. -/
theorem Refines.place (hs : Stocked self n m) (hr : Refines self heap) (hx : x < self.numberOfSlots)
    {node' : NodeId} {z' : ℤ} (hnode : node' = node) (hz : z' = z) :
    Refines (self.place (self.pointer x) node z) (heap.place (cell x) node' z') := by
  subst hnode hz
  refine ⟨hr.segmentVector, hr.numberOfSegments, hr.numberOfSlots, hr.numberOfNodes, ?_, hr.key,
    fun i hi => ?_⟩
  · exact congrArg (Function.update · node' z') hr.slotNumber
  · rw [contents_place hs hx node' z' hi, Heap.nodeAt_place, Heap.filled, Function.update_apply]
    split_ifs
    · rfl
    · exact hr.contents i hi

/-! ## Sifting -/

/-- The loop upwards does in the segments what it does in the slots, round by round. -/
theorem Refines.siftUpLoop (fuel : ℕ) (hs : Stocked self n m) (hr : Refines self heap)
    (hx : x < self.numberOfSlots)
    (hrun : Heap.siftUpLoop compare node fuel heap (cell x) z = some heap') :
    ∃ next, siftUpLoop compare node fuel self (self.pointer x) z = some next ∧
      Refines next heap' := by
  induction fuel generalizing self heap x z with
  | zero => cases hrun
  | succ fuel ih =>
      rw [Heap.siftUpLoop] at hrun
      rw [SegmentedHeap.siftUpLoop]
      split_ifs at hrun ⊢ with hpos
      · obtain ⟨above, hlocate, hrun⟩ := Option.bind_eq_some_iff.mp hrun
        obtain ⟨y, -, hy, rfl, hlocate', hload⟩ := hr.locateSlot hs hlocate
        dsimp only
        rw [hlocate', Option.bind_eq_bind, Option.bind_some]
        rw [hload, hr.key] at hrun
        split_ifs at hrun ⊢
        · cases hrun
          exact ⟨_, rfl, hr.place hs hx rfl rfl⟩
        · have hplaced := hs.of_same (sameStorage_place self (self.pointer x)
            (self.load (self.pointer y)) z)
          exact ih hplaced (hr.place hs hx rfl rfl) hy hrun
      · cases hrun
        exact ⟨_, rfl, hr.place hs hx rfl rfl⟩

/-- The sift upwards does in the segments what it does in the slots. -/
theorem Refines.siftNodeUp (hs : Stocked self n m) (hr : Refines self heap)
    (hx : x < self.numberOfSlots) (hrun : heap.siftNodeUp compare (cell x) = some heap') :
    ∃ next, self.siftNodeUp compare (self.pointer x) = some next ∧ Refines next heap' := by
  have hload : heap.slots (cell x) = self.load (self.pointer x) := hr.contents x hx
  rw [Heap.siftNodeUp, hload, hr.slotNumber] at hrun
  exact hr.siftUpLoop _ hs hx hrun

/-- The child to compare with is the same in the segments, and is read from its place there. -/
theorem Refines.firstChild (hs : Stocked self n m) (hr : Refines self heap) {below : Cell × ℤ}
    (hrun : heap.firstChild compare z = some below) :
    ∃ i : ℕ, i < self.numberOfSlots ∧ below.1 = cell i ∧
      self.firstChild compare z = some (self.pointer i, below.2) ∧
      heap.slots below.1 = self.load (self.pointer i) := by
  obtain ⟨slotY, hlocate, hrun⟩ := Option.bind_eq_some_iff.mp hrun
  obtain ⟨i, -, hi, rfl, hlocate', hload⟩ := hr.locateSlot hs hlocate
  dsimp only at hrun
  rw [SegmentedHeap.firstChild, hlocate', Option.bind_eq_bind, Option.bind_some]
  dsimp only
  rw [hr.numberOfNodes] at hrun
  split_ifs at hrun ⊢
  · obtain ⟨slotZ, hlocateZ, hrun⟩ := Option.bind_eq_some_iff.mp hrun
    obtain ⟨j, -, hj, rfl, hlocateZ', hloadZ⟩ := hr.locateSlot hs hlocateZ
    rw [hload, hloadZ, hr.key] at hrun
    rw [hlocateZ', Option.bind_some]
    split_ifs at hrun ⊢
    · cases hrun
      exact ⟨j, hj, rfl, rfl, hloadZ⟩
    · cases hrun
      exact ⟨i, hi, rfl, rfl, hload⟩
  · cases hrun
    exact ⟨i, hi, rfl, rfl, hload⟩

/-- The loop downwards does in the segments what it does in the slots, round by round. -/
theorem Refines.siftDownLoop (fuel : ℕ) (hs : Stocked self n m) (hr : Refines self heap)
    (hx : x < self.numberOfSlots)
    (hrun : Heap.siftDownLoop compare node fuel heap (cell x) z = some heap') :
    ∃ next, siftDownLoop compare node fuel self (self.pointer x) z = some next ∧
      Refines next heap' := by
  induction fuel generalizing self heap x z with
  | zero => cases hrun
  | succ fuel ih =>
      rw [Heap.siftDownLoop] at hrun
      rw [SegmentedHeap.siftDownLoop]
      dsimp only at hrun ⊢
      rw [hr.numberOfNodes] at hrun
      split_ifs at hrun ⊢
      · cases hrun
        exact ⟨_, rfl, hr.place hs hx rfl rfl⟩
      · obtain ⟨⟨slotY, y⟩, hchild, hrun⟩ := Option.bind_eq_some_iff.mp hrun
        obtain ⟨i, hi, rfl, hchild', hload⟩ := hr.firstChild hs hchild
        rw [hchild', Option.bind_eq_bind, Option.bind_some]
        dsimp only at hrun hload ⊢
        rw [hload, hr.key] at hrun
        split_ifs at hrun ⊢
        · cases hrun
          exact ⟨_, rfl, hr.place hs hx rfl rfl⟩
        · have hplaced := hs.of_same (sameStorage_place self (self.pointer x)
            (self.load (self.pointer i)) z)
          exact ih hplaced (hr.place hs hx rfl rfl) hi hrun

/-- The sift downwards does in the segments what it does in the slots. -/
theorem Refines.siftNodeDown (hs : Stocked self n m) (hr : Refines self heap)
    (hx : x < self.numberOfSlots) (hrun : heap.siftNodeDown compare (cell x) = some heap') :
    ∃ next, self.siftNodeDown compare (self.pointer x) = some next ∧ Refines next heap' := by
  have hload : heap.slots (cell x) = self.load (self.pointer x) := hr.contents x hx
  rw [Heap.siftNodeDown, hload, hr.slotNumber, hr.numberOfNodes] at hrun
  exact hr.siftDownLoop _ hs hx hrun

/-! ## The operations -/

/-- Both heaps grow by a segment, or neither does, whichever of the allocations fail. -/
theorem Refines.increaseSegments (hs : Stocked self n m) (hr : Refines self heap)
    (reallocated : Option (ℕ → SegmentId)) (segment : Option (ℕ → NodeId)) {grown : SegmentedHeap K}
    {ok : Bool} (hgrown : self.increaseSegments reallocated segment = some (grown, ok)) :
    ∃ heap', heap.increaseSegments reallocated.isSome segment = (heap', ok) ∧
      Refines grown heap' := by
  have hslots : self.numberOfSlots = 256 * self.numberOfSegments := hs.slots
  have hcount := hs.count
  obtain ⟨vector, grew, hvector, -, -, -, hroom, helements⟩ := hs.grownVector reallocated
  have hflat : (if heap.numberOfSegments = heap.segmentVector.length then
      heap.segmentVector.setLength (heap.numberOfSegments + 1) reallocated.isSome
      else (heap.segmentVector, true)) = (vector.toVector, grew) := by
    rw [hr.numberOfSegments, hr.segmentVector, SegmentVector.setLength_toVector]
    unfold SegmentedHeap.grownVector at hvector
    split_ifs at hvector ⊢
    · rw [hvector]
    · obtain ⟨rfl, rfl⟩ := Prod.mk.inj hvector
      rfl
  have hold (i : ℕ) (hi : i < self.numberOfSlots) :
      heap.nodeAt i = SegmentedHeap.contents { self with segmentVector := vector } i := by
    rw [hr.contents i hi]
    simp only [SegmentedHeap.contents, pointer, load, helements _ (hs.div_lt hi)]
  unfold SegmentedHeap.increaseSegments at hgrown
  unfold Heap.increaseSegments
  rw [← SegmentedHeap.grownVector, hvector] at hgrown
  rw [hflat]
  have hrelated : Refines { self with segmentVector := vector }
      { heap with segmentVector := vector.toVector } :=
    ⟨rfl, hr.numberOfSegments, hr.numberOfSlots, hr.numberOfNodes, hr.slotNumber, hr.key, hold⟩
  rcases grew with _ | _
  · cases hgrown
    exact ⟨_, rfl, hrelated⟩
  · rcases segment with _ | found
    · cases hgrown
      exact ⟨_, rfl, hrelated⟩
    · have hlt := hroom rfl
      simp only [Bool.not_true, Bool.false_eq_true, if_false] at hgrown
      rw [if_pos ⟨by omega, by omega⟩] at hgrown
      cases hgrown
      refine ⟨_, rfl, rfl, ?_, ?_, hr.numberOfNodes, hr.slotNumber, hr.key, fun i hi => ?_⟩
      · exact congrArg (· + 1) hr.numberOfSegments
      · exact congrArg (· + (heapSegmentLength : ℤ)) hr.numberOfSlots
      · have hnumber : self.numberOfSegments.toNat = m := by omega
        have hlast : i < self.numberOfSlots + 256 := hi
        simp only [Heap.nodeAt, SegmentedHeap.contents, pointer, load, cell, hr.numberOfSegments,
          hnumber]
        by_cases hnew : i / heapSegmentLength = m
        · rw [if_pos hnew, hnew, Function.update_self, Function.update_self]
        · have hdiv : i / heapSegmentLength < m := by
            have hle : i / 256 ≠ m := hnew
            show i / 256 < m
            omega
          have hin : (i : ℤ) < self.numberOfSlots := by
            have hle : i / 256 < m := hdiv
            omega
          have hne : vector.elements (i / heapSegmentLength) ≠ self.obtained := by
            rw [helements _ hdiv]
            exact (hs.allocated hdiv).1.ne
          rw [if_neg hnew, Function.update_of_ne hnew, Function.update_of_ne hne]
          exact hold i hin

/-- Both heaps count their nodes alike, so they agree when both counts are set to one value. -/
theorem Refines.recount (hr : Refines self heap) {k : ℤ} :
    Refines { self with numberOfNodes := k } { heap with numberOfNodes := k } :=
  ⟨hr.segmentVector, hr.numberOfSegments, hr.numberOfSlots, rfl, hr.slotNumber, hr.key, hr.contents⟩

/-- Putting a node into a free slot and sifting it up does in the segments what it does in the
slots. -/
theorem Refines.insertInSlot (hs : Stocked self n m) (hr : Refines self heap)
    (hrun : heap.insertInSlot compare node = some heap') :
    ∃ next, self.insertInSlot compare node = some next ∧ Refines next heap' := by
  obtain ⟨slot, hlocate, hrun⟩ := Option.bind_eq_some_iff.mp hrun
  obtain ⟨i, hnumber, hi, rfl, hlocate', -⟩ := hr.locateSlot hs hlocate
  rw [hr.numberOfNodes] at hnumber hlocate' hrun
  rw [SegmentedHeap.insertInSlot, hlocate', Option.bind_eq_bind, Option.bind_some]
  have hroom : (n : ℤ) < self.numberOfSlots := by
    rw [← hs.nodes, hnumber]
    exact hi
  have hplaced := hs.of_same (sameStorage_place self (self.pointer i) node self.numberOfNodes)
  have hrelated :=
    (hr.place hs hi (Eq.refl node) (Eq.refl self.numberOfNodes)).recount
      (k := self.numberOfNodes + 1)
  exact hrelated.siftNodeUp (hplaced.more hroom) hi hrun

/-- **Insertion** into the heap in segments succeeds or fails as it does for the slots, and the two
agree afterwards. -/
theorem Refines.insertNode (hs : Stocked self n m) (hfew : n ≤ 2 ^ 30) (hr : Refines self heap)
    {reallocated : Option (ℕ → SegmentId)} {segment : Option (ℕ → NodeId)} {ok : Bool}
    (hrun : heap.insertNode compare node reallocated.isSome segment = some (heap', ok)) :
    ∃ next, self.insertNode compare node reallocated segment = some (next, ok) ∧
      Refines next heap' := by
  unfold Heap.insertNode at hrun
  unfold SegmentedHeap.insertNode
  rw [hr.numberOfNodes, hr.numberOfSlots] at hrun
  split_ifs at hrun ⊢ with hfull
  · obtain ⟨grown, grew, hgrown, hstocked, -⟩ := hs.increaseSegments hfull hfew reallocated segment
    obtain ⟨flat, hflat, hrelated⟩ := hr.increaseSegments hs reallocated segment hgrown
    rw [hflat] at hrun
    rw [hgrown, Option.bind_some]
    rcases grew with _ | _
    · obtain ⟨rfl, rfl⟩ := Prod.mk.inj (Option.some.inj hrun)
      exact ⟨grown, rfl, hrelated⟩
    · obtain ⟨inserted, hinsert, heq⟩ := Option.map_eq_some_iff.mp hrun
      obtain ⟨rfl, rfl⟩ := Prod.mk.inj heq
      obtain ⟨next, hnext, hrelated'⟩ := hrelated.insertInSlot hstocked hinsert
      exact ⟨next, by simp only [hnext, Option.map_some], hrelated'⟩
  · obtain ⟨inserted, hinsert, heq⟩ := Option.map_eq_some_iff.mp hrun
    obtain ⟨rfl, rfl⟩ := Prod.mk.inj heq
    obtain ⟨next, hnext, hrelated⟩ := hr.insertInSlot hs hinsert
    exact ⟨next, by rw [hnext]; rfl, hrelated⟩

/-- **Adjustment** of a node whose key has changed sifts it to the same slot in both heaps. -/
theorem Refines.adjustNode (hs : Stocked self n m) (hr : Refines self heap)
    (hrun : heap.adjustNode compare node = some heap') :
    ∃ next, self.adjustNode compare node = some next ∧ Refines next heap' := by
  unfold Heap.adjustNode at hrun
  simp only [Option.bind_eq_bind, Option.bind_eq_some_iff] at hrun
  obtain ⟨slot, hlocate, up, hup, hrun⟩ := hrun
  obtain ⟨i, -, hi, rfl, hlocate', -⟩ := hr.locateSlot hs hlocate
  obtain ⟨sifted, hsift, hrelated⟩ := hr.siftNodeUp hs hi hup
  have hsame := sameStorage_siftNodeUp hsift
  have hstocked := hs.of_same hsame
  have hin : (i : ℤ) < sifted.numberOfSlots := hsame.numberOfSlots ▸ hi
  have hpointer : sifted.pointer i = self.pointer i := by
    rw [pointer, pointer, hsame.segmentVector]
  have hload : up.slots (cell i) = sifted.load (self.pointer i) := by
    rw [← hpointer]
    exact hrelated.contents i hin
  rw [hr.slotNumber] at hlocate'
  unfold SegmentedHeap.adjustNode
  simp only [Option.bind_eq_bind, hlocate', Option.bind_some, hsift]
  rw [hload] at hrun
  split_ifs at hrun ⊢
  · cases hrun
    exact ⟨sifted, rfl, hrelated⟩
  · rw [← hpointer]
    exact hrelated.siftNodeDown hstocked hin hrun

/-- The sift after a removal, upwards or downwards, or none if the keys are level, is the same in
both heaps. -/
theorem Refines.settle (hs : Stocked self n m) (hr : Refines self heap)
    (hx : x < self.numberOfSlots)
    (hrun : (if compare (heap.key (heap.slots (cell x))) (heap.key node) = 0 then some heap
      else if compare (heap.key (heap.slots (cell x))) (heap.key node) < 0 then
        heap.siftNodeUp compare (cell x)
      else heap.siftNodeDown compare (cell x)) = some heap') :
    ∃ next, (if compare (self.key (self.load (self.pointer x))) (self.key node) = 0 then some self
      else if compare (self.key (self.load (self.pointer x))) (self.key node) < 0 then
        self.siftNodeUp compare (self.pointer x)
      else self.siftNodeDown compare (self.pointer x)) = some next ∧ Refines next heap' := by
  have hload : heap.slots (cell x) = self.load (self.pointer x) := hr.contents x hx
  rw [hload, hr.key] at hrun
  split_ifs at hrun ⊢
  · cases hrun
    exact ⟨self, rfl, hr⟩
  · exact hr.siftNodeUp hs hx hrun
  · exact hr.siftNodeDown hs hx hrun

/-- **Removal** of a node moves the last one into its slot and sifts it the same way in both heaps.
-/
theorem Refines.removeNode (hs : Stocked self (n + 1) m) (hr : Refines self heap)
    (hrun : heap.removeNode compare node = some heap') :
    ∃ next, self.removeNode compare node = some next ∧ Refines next heap' := by
  unfold Heap.removeNode at hrun
  simp only [Option.bind_eq_bind, Option.bind_eq_some_iff] at hrun
  obtain ⟨slot, hlocate, last, hlast, hrun⟩ := hrun
  obtain ⟨i, -, hi, rfl, hlocate', -⟩ := hr.locateSlot hs hlocate
  have hfewer := hr.recount (k := heap.numberOfNodes - 1)
  have hstocked := hs.fewer
  rw [← hr.numberOfNodes] at hstocked
  obtain ⟨j, -, hj, rfl, hlast', hload⟩ := hfewer.locateSlot hstocked hlast
  have hplaced :=
    hstocked.of_same (sameStorage_place _ (self.pointer i) (self.load (self.pointer j))
    (self.slotNumber node))
  have hrelated := hfewer.place hstocked hi hload (congrFun hr.slotNumber node)
  rw [hr.slotNumber] at hlocate'
  rw [hr.numberOfNodes] at hlast'
  unfold SegmentedHeap.removeNode
  simp only [Option.bind_eq_bind, hlocate', Option.bind_some, hlast']
  rw [← hr.numberOfNodes]
  exact hrelated.settle hplaced hi hrun

/-- **Shrinking** frees the segments that no node needs, and leaves the two in agreement, also where
`realloc` fails. -/
theorem Refines.shrinkToFit (hs : Stocked self n m) (hr : Refines self heap)
    {reallocated : Option (ℕ → SegmentId)} {ok : Bool}
    (hrun : self.shrinkToFit reallocated = some (next, ok)) :
    Refines next (heap.shrinkToFit reallocated.isSome).1 := by
  obtain ⟨next', ok', freed, vector, hrun', rfl, hset, hstocked, hcontents⟩ :=
    hs.shrinkToFit reallocated
  obtain ⟨rfl, rfl⟩ := Prod.mk.inj (Option.some.inj (hrun.symm.trans hrun'))
  obtain ⟨k, hk⟩ : ∃ k, k = (n + 255) / 256 := ⟨_, rfl⟩
  rw [← hk] at hset hstocked hcontents ⊢
  have hcount := hs.count
  have hroom := hs.room
  have hslots : self.numberOfSlots = 256 * self.numberOfSegments := hs.slots
  have hlt := hs.slots_lt
  have hnumber :
      toInt (toUnsigned (heap.numberOfNodes + heapSegmentLength - 1) / heapSegmentLength) = k := by
    rw [hr.numberOfNodes, hs.nodes, Heap.toInt_fitted (by omega), hk]
  have hvector : heap.segmentVector.setLength k reallocated.isSome = (vector.toVector, ok) := by
    rw [hr.segmentVector, SegmentVector.setLength_toVector, hset]
  have hkept (i : ℕ) (hi : i < ({ self.dropped k freed with segmentVector := vector } :
      SegmentedHeap K).numberOfSlots) : heap.nodeAt i =
      SegmentedHeap.contents { self.dropped k freed with segmentVector := vector } i := by
    rw [hcontents i hi]
    have hle : (i : ℤ) < k * 256 := hi
    exact hr.contents i (by omega)
  unfold Heap.shrinkToFit
  simp only [hnumber, hr.numberOfSegments]
  split_ifs with hmany
  · rw [hvector]
    exact ⟨rfl, rfl, rfl, hr.numberOfNodes, hr.slotNumber, hr.key, hkept⟩
  · rw [hvector]
    obtain rfl : m = k := by omega
    refine ⟨rfl, hr.numberOfSegments.trans hcount, ?_, hr.numberOfNodes, hr.slotNumber,
      hr.key, hkept⟩
    show heap.numberOfSlots = m * 256
    rw [hr.numberOfSlots]
    omega

end SegmentedHeap

/-! ## Whole runs -/

namespace SegmentedState

variable {K : Type} {compare : K → K → ℤ} {s next : SegmentedState K}

open SegmentedHeap

/-- **The invariant**, whatever the comparer says. -/
structure Sound (s : SegmentedState K) : Prop where
  stocked : ∃ m, Stocked s.heap s.held.card m
  few : s.held.card ≤ 2 ^ 30

/-- Every call that may be made keeps the storage sound, also one that fails for lack of memory. -/
theorem Sound.apply (h : s.Sound) {action : SegmentedAction K} (hen : s.Enabled action)
    (hrun : s.apply compare action = some next) : next.Sound := by
  obtain ⟨m, hs⟩ := h.stocked
  have hfew := h.few
  cases action with
  | insertNode node key reallocated segment =>
      obtain ⟨hnew, hroom⟩ := hen
      obtain ⟨⟨heap, ok⟩, hinsert, rfl⟩ := Option.map_eq_some_iff.mp hrun
      have hset : Stocked (s.setKey node key) s.held.card m := hs.setKey _
      have hstocked := (hset.insertNode hfew hinsert).1
      rcases ok with _ | _
      · exact ⟨hstocked, hfew⟩
      · have hcard : (insert node s.held).card = s.held.card + 1 :=
          Finset.card_insert_of_notMem hnew
        refine ⟨?_, hcard.trans_le hroom⟩
        show ∃ m, Stocked heap (insert node s.held).card m
        rw [hcard]
        exact hstocked
  | removeNode node =>
      obtain ⟨heap, hremove, rfl⟩ := Option.map_eq_some_iff.mp hrun
      have hpred : (s.held.erase node).card + 1 = s.held.card := Finset.card_erase_add_one hen
      rw [← hpred] at hs
      exact ⟨⟨m, hs.removeNode hremove⟩, Finset.card_erase_le.trans hfew⟩
  | adjustNode node key =>
      obtain ⟨heap, hadjust, rfl⟩ := Option.map_eq_some_iff.mp hrun
      have hset : Stocked (s.setKey node key) s.held.card m := hs.setKey _
      exact ⟨⟨m, hset.adjustNode hadjust⟩, hfew⟩
  | shrinkToFit reallocated =>
      obtain ⟨⟨heap, ok⟩, hshrink, rfl⟩ := Option.map_eq_some_iff.mp hrun
      obtain ⟨heap', ok', freed, vector, hrun', -, -, hstocked, -⟩ := hs.shrinkToFit reallocated
      obtain ⟨rfl, rfl⟩ := Prod.mk.inj (Option.some.inj (hshrink.symm.trans hrun'))
      exact ⟨⟨_, hstocked⟩, hfew⟩

/-- The storage is sound in every state that a run of calls can reach, those that fail included. -/
theorem sound_of_reachable (h : (segmentedSystem compare).Reachable s) : s.Sound := by
  refine h.induct (I := Sound) ?_ ?_
  · rintro ⟨heap, held⟩ ⟨⟨memory, slotNumber, key, rfl⟩, rfl⟩
    refine ⟨⟨0, ⟨le_rfl, ?_, .nil, nofun⟩, rfl, rfl, rfl, le_rfl, (by decide : (0 : ℤ) < 2 ^ 31),
      Vector.wellSized_init (by decide), rfl⟩, Nat.zero_le _⟩
    refine ⟨fun i hi => absurd hi (Nat.not_lt_zero i), fun i hi =>
      absurd hi (Nat.not_lt_zero i), ?_⟩
    exact fun segment hin => absurd hin.1 (Nat.not_lt_zero segment)
  · intro s action next _ hs _ hstep
    simp only [segmentedSystem, Option.ite_none_right_eq_some] at hstep
    exact hs.apply hstep.1 hstep.2

/-- A call of the heap with slots that returns does so here, and the two are related again. -/
theorem apply_of_refines (hs : s.Sound) {t t' : HeapState K} (hr : Refines s.heap t.heap)
    (hheld : t.held = s.held) {action : SegmentedAction K} (hen : s.Enabled action)
    (hrun : t.apply compare action.flat = some t') :
    ∃ next, s.apply compare action = some next ∧ t'.held = next.held ∧
      Refines next.heap t'.heap := by
  obtain ⟨m, hstocked⟩ := hs.stocked
  have hset (node : NodeId) (key : K) : Refines (s.setKey node key) (t.setKey node key) := by
    refine ⟨hr.segmentVector, hr.numberOfSegments, hr.numberOfSlots, hr.numberOfNodes,
      hr.slotNumber, ?_, hr.contents⟩
    show Function.update t.heap.key node key = Function.update s.heap.key node key
    rw [hr.key]
  have hstocked' (node : NodeId) (key : K) : Stocked (s.setKey node key) s.held.card m :=
    hstocked.setKey _
  cases action with
  | insertNode node key reallocated segment =>
      obtain ⟨⟨heap, ok⟩, hinsert, rfl⟩ := Option.map_eq_some_iff.mp hrun
      obtain ⟨next, hnext, hrelated⟩ :=
        (hset node key).insertNode (hstocked' node key) hs.few hinsert
      exact ⟨_, by rw [SegmentedState.apply, hnext]; rfl, by rw [hheld], hrelated⟩
  | removeNode node =>
      obtain ⟨heap, hremove, rfl⟩ := Option.map_eq_some_iff.mp hrun
      have hpred : (s.held.erase node).card + 1 = s.held.card := Finset.card_erase_add_one hen
      rw [← hpred] at hstocked
      obtain ⟨next, hnext, hrelated⟩ := hr.removeNode hstocked hremove
      exact ⟨_, by rw [SegmentedState.apply, hnext]; rfl, by rw [hheld], hrelated⟩
  | adjustNode node key =>
      obtain ⟨heap, hadjust, rfl⟩ := Option.map_eq_some_iff.mp hrun
      obtain ⟨next, hnext, hrelated⟩ := (hset node key).adjustNode (hstocked' node key) hadjust
      exact ⟨⟨next, s.held⟩, by rw [SegmentedState.apply, hnext]; rfl, hheld, hrelated⟩
  | shrinkToFit reallocated =>
      obtain ⟨next, ok, -, -, hnext, -⟩ := hstocked.shrinkToFit reallocated
      obtain rfl : _ = t' := Option.some.inj hrun
      refine ⟨⟨next, s.held⟩, ?_, hheld, hr.shrinkToFit hstocked hnext⟩
      rw [SegmentedState.apply, hnext]
      rfl

/-- What relates the two systems. -/
structure Related (compare : K → K → ℤ) (s : SegmentedState K) (t : HeapState K) : Prop where
  sound : s.Sound
  flat : t.Sound compare
  held : t.held = s.held
  refines : Refines s.heap t.heap

/-- A call that may be made returns in both heaps, and the states that it leads to are related. -/
theorem Related.step (hc : TotalPreorder compare) {t : HeapState K} (h : Related compare s t)
    {action : SegmentedAction K} (hen : s.Enabled action) :
    ∃ next t', (segmentedSystem compare).step s action = some next ∧
      (heapSystem compare).step t action.flat = some t' ∧ Related compare next t' := by
  have hen' : t.Enabled action.flat := by
    cases action with
    | insertNode node key reallocated segment =>
        obtain ⟨hnew, hroom⟩ := hen
        exact ⟨h.held ▸ hnew, h.held ▸ hroom⟩
    | removeNode node =>
        show node ∈ t.held
        rw [h.held]
        exact hen
    | adjustNode node key =>
        show node ∈ t.held
        rw [h.held]
        exact hen
    | shrinkToFit reallocated => trivial
  obtain ⟨t', hrun', hsound'⟩ := h.flat.apply hc hen'
  obtain ⟨next, hrun, hheld, hrelated⟩ := apply_of_refines h.sound h.refines h.held hen hrun'
  refine ⟨next, t', ?_, ?_, h.sound.apply hen hrun, hsound', hheld, hrelated⟩
  · simp only [segmentedSystem, if_pos hen, hrun]
  · simp only [heapSystem, if_pos hen', hrun']

/-- **The segmented heap refines the heap with slots**: every call of the one is a call of the
other, and related states stay related. -/
theorem simulates_heapSystem (hc : TotalPreorder compare) :
    (segmentedSystem compare).Simulates (heapSystem compare) (Related compare) := by
  constructor
  · rintro ⟨heap, held⟩ ⟨⟨memory, slotNumber, key, rfl⟩, rfl⟩
    have hinit : (segmentedSystem compare).Reachable ⟨.init memory slotNumber key, ∅⟩ :=
      .init ⟨⟨_, _, _, rfl⟩, rfl⟩
    refine ⟨⟨.init (fun _ => 0) slotNumber key, ∅⟩, ⟨⟨_, _, _, rfl⟩, rfl⟩, sound_of_reachable hinit,
      ⟨init_correct _ slotNumber key, Nat.zero_le _⟩, rfl, rfl, rfl, rfl, rfl, rfl, rfl,
        fun i hi => ?_⟩
    exact absurd hi (not_lt.mpr (Int.natCast_nonneg i))
  · intro s t action s' hrelated hstep
    have hen : s.Enabled action := by
      simp only [segmentedSystem, Option.ite_none_right_eq_some] at hstep
      exact hstep.1
    obtain ⟨next, t', hnext, hflat, hrelated'⟩ := hrelated.step hc hen
    obtain rfl : next = s' := Option.some.inj (hnext.symm.trans hstep)
    exact ⟨[action.flat], t', by simp [StepSystem.run, hflat], hrelated'⟩

end SegmentedState

open SegmentedHeap

/-- **What the segments of a heap are**, and what growing, shrinking and finalizing do to them. -/
structure StorageCorrect {K : Type} (compare : K → K → ℤ) (s : SegmentedState K) : Prop where
  /-- Every segment has 256 slots. -/
  slots : s.heap.numberOfSlots = 256 * s.heap.numberOfSegments
  /-- There is a slot for every node. -/
  nodes : s.heap.numberOfNodes ≤ s.heap.numberOfSlots
  /-- There is a pointer to every segment. -/
  segments : s.heap.numberOfSegments ≤ s.heap.segmentVector.length
  /-- Every slot is located in a segment that is allocated and not freed. -/
  located : ∀ i : ℕ, i < s.heap.numberOfSlots → s.heap.locateSlot i = some (s.heap.pointer i) ∧
    s.heap.Allocated (s.heap.pointer i).1 ∧ (s.heap.pointer i).2 < 256
  /-- Different slots are different cells. -/
  injective : ∀ i j : ℕ, i < s.heap.numberOfSlots → j < s.heap.numberOfSlots →
    s.heap.locateSlot i = s.heap.locateSlot j → i = j
  /-- A full heap may grow, and the slots in use hold what they held. -/
  grow : s.heap.numberOfNodes = s.heap.numberOfSlots → ∀ reallocated segment,
    ∃ grown ok, s.heap.increaseSegments reallocated segment = some (grown, ok) ∧
      ∀ i : ℕ, i < s.heap.numberOfNodes → grown.contents i = s.heap.contents i
  /-- An insertion that fails leaves the number of nodes and the slots in use alone. -/
  failed : ∀ node key reallocated segment next,
    (s.setKey node key).insertNode compare node reallocated segment = some (next, false) →
    next.numberOfNodes = s.heap.numberOfNodes ∧
      ∀ i : ℕ, i < s.heap.numberOfNodes → next.contents i = s.heap.contents i
  /-- Shrinking leaves the slots in use alone and as many segments as they need, even if it
  fails. -/
  shrink : ∀ reallocated, ∃ next ok, s.heap.shrinkToFit reallocated = some (next, ok) ∧
    next.numberOfNodes = s.heap.numberOfNodes ∧
    next.numberOfSegments = (s.heap.numberOfNodes + 255) / 256 ∧
    ∀ i : ℕ, i < s.heap.numberOfNodes → next.contents i = s.heap.contents i
  /-- No segment is freed twice while the heap is in use. -/
  freed : s.heap.freed.Nodup
  /-- In the end every segment that was obtained has been freed, and once. -/
  finalize : ∃ last, s.heap.finalize = some last ∧ ∀ segment,
    last.freed.count segment = if segment < s.heap.obtained then 1 else 0

/-- **The storage of the heap over whole runs**, whatever the comparer says and whichever allocation
fails. With a comparer that is a total preorder the heap refines the one with slots, and every call
that may be made of it returns. -/
theorem segmented_storage {K : Type} {compare : K → K → ℤ} {s : SegmentedState K}
    (h : (segmentedSystem compare).Reachable s) :
    StorageCorrect compare s ∧ (TotalPreorder compare →
      (∃ t, (heapSystem compare).Reachable t ∧ t.held = s.held ∧ Refines s.heap t.heap) ∧
      ∀ action, s.Enabled action → ((segmentedSystem compare).step s action).isSome) := by
  have hsound := SegmentedState.sound_of_reachable h
  obtain ⟨m, hs⟩ := hsound.stocked
  have hnodes := hs.nodes
  have hroom := hs.room
  constructor
  · refine ⟨hs.slots, by omega, by rw [hs.count]; exact hs.length, fun i hi => ?_,
      fun i j hi hj heq => ?_,
      fun hfull reallocated segment => ?_, fun node key reallocated segment next hrun => ?_,
      fun reallocated => ?_, hs.nodup, ?_⟩
    · obtain ⟨hlocate, hallocated⟩ := hs.locateSlot hi
      exact ⟨hlocate, hallocated, Nat.mod_lt i (by decide)⟩
    · rw [(hs.locateSlot hi).1, (hs.locateSlot hj).1] at heq
      exact hs.pointer_inj hi hj (Option.some.inj heq)
    · obtain ⟨grown, ok, hrun, -, -, hcontents⟩ :=
        hs.increaseSegments hfull hsound.few reallocated segment
      exact ⟨grown, ok, hrun, fun i hi => hcontents i (by omega)⟩
    · have hset : Stocked (s.setKey node key) s.held.card m := hs.setKey _
      obtain ⟨⟨m', hstocked⟩, hcontents⟩ := hset.insertNode hsound.few hrun
      exact ⟨hstocked.nodes.trans hnodes.symm, fun i hi => hcontents rfl i (by omega)⟩
    · obtain ⟨next, ok, -, -, hrun, -, -, hstocked, hcontents⟩ := hs.shrinkToFit reallocated
      have hcount := hstocked.count
      have hnext := hstocked.nodes
      have hspace := hstocked.room
      exact ⟨next, ok, hrun, by omega, by omega, fun i hi => hcontents i (by omega)⟩
    · obtain ⟨last, hrun, hobtained, hlinked⟩ := hs.finalize
      exact ⟨last, hrun, fun segment => hobtained ▸ hlinked.freed_once segment⟩
  · intro hc
    obtain ⟨t, ht, hrelated⟩ := (SegmentedState.simulates_heapSystem hc).reachable h
    refine ⟨⟨t, ht, hrelated.held, hrelated.refines⟩, fun action hen => ?_⟩
    obtain ⟨next, -, hstep, -⟩ := hrelated.step hc hen
    rw [hstep]
    rfl

/-- The vector cannot grow at first, then there is no segment; two nodes come and go, their segment
is freed, and another is obtained. -/
def shrunkToZero : List (SegmentedAction ℤ) :=
  [.insertNode 1 5 none none, .insertNode 1 5 (some fun _ => 9) none,
    .insertNode 1 5 none (some fun _ => 0), .insertNode 2 3 none none, .removeNode 1, .removeNode 2,
    .shrinkToFit none, .insertNode 3 1 (some fun _ => 7) (some fun _ => 0)]

/-- The vector or a segment cannot be had at first, then all nodes go and their segment is freed,
and another is obtained: no segment is lost and none freed twice. -/
theorem segmented_storage_shrunkToZero :
    ∃ s, (segmentedSystem fun a b : ℤ => a - b).run
        ⟨.init (fun _ _ => 0) (fun _ => 0) (fun _ => 0), ∅⟩ shrunkToZero = some s ∧
      s.heap.obtained = 2 ∧ s.heap.freed = [0] ∧ StorageCorrect (fun a b => a - b) s := by
  have hend : ((segmentedSystem fun a b : ℤ => a - b).run
      ⟨.init (fun _ _ => 0) (fun _ => 0) (fun _ => 0), ∅⟩ shrunkToZero).map
        (fun s => (s.heap.obtained, s.heap.freed)) = some (2, [0]) := by decide +kernel
  obtain ⟨s, hrun, hs⟩ := Option.map_eq_some_iff.mp hend
  obtain ⟨hobtained, hfreed⟩ := Prod.mk.inj hs
  exact ⟨s, hrun, hobtained, hfreed,
    (segmented_storage (StepSystem.reachable_of_run ⟨⟨_, _, _, rfl⟩, rfl⟩ hrun)).1⟩

end Pixy.Store
