import Pixy.Store.HeapRuns

/-!
# A heap with too many nodes

A sift downwards multiplies the number of the slot by two and reads the product as an `int`. With
`2 ^ 30 + 1` nodes left by a removal it can come to slot `2 ^ 30`, and then the product is negative.

`Appended` is the heap of nodes that were inserted without being sifted anywhere, so that the nodes
are numbered as their slots are. `Appended.insertNode` adds one more, and
`Appended.removeNode_stuck` removes the first of `2 ^ 30 + 2`: the heap reads a slot that is not
there.
-/

namespace Pixy.Store

open Pixy.Found TotalPreorder

namespace Heap

variable {K : Type} {compare : K → K → ℤ} {self : Heap K} {first n x : ℕ} {key : ℕ → K}
  {node : NodeId}

/-- The nodes are numbered as their slots are, from the first on. -/
structure Appended (heap : Heap K) (first n : ℕ) (key : ℕ → K) : Prop where
  shaped : Shaped heap n
  nodeAt : ∀ i < n, heap.nodeAt i = i + first
  back : ∀ i < n, heap.slotNumber (i + first) = i
  key : ∀ i < n, heap.key (i + first) = key i

/-- The key of a node that is not held may be written. -/
theorem Appended.setKey (h : Appended self first n key) (value : K) :
    Appended { self with key := Function.update self.key (n + first) value } first n key := by
  refine ⟨h.shaped.congr rfl rfl rfl, h.nodeAt, h.back, fun i hi => ?_⟩
  rw [← h.key i hi]
  exact Function.update_of_ne (show i + first ≠ n + first by omega) ..

/-! ## Insertion -/

/-- With memory a heap can have one segment more, and so room for one more node. -/
theorem increaseSegments_of_memory (self : Heap K) (contents : ℕ → NodeId) :
    ∃ grown, self.increaseSegments true (some contents) = (grown, true) := by
  have hgrown : (if self.numberOfSegments = self.segmentVector.length then
      self.segmentVector.setLength (self.numberOfSegments + 1) true
      else (self.segmentVector, true)).2 = true := by
    split_ifs
    · exact Vector.setLength_of_memory _ _
    · rfl
  simp only [increaseSegments, hgrown]
  exact ⟨_, rfl⟩

/-- A node that does not precede its parent stays where it is put. -/
theorem Appended.insertInSlot (h : Appended self first n key) (hmany : n ≤ 2 ^ 30 + 1)
    (hroom : (n : ℤ) < self.numberOfSlots) (hnode : self.key (n + first) = key n)
    (hparent : 0 < n → 0 ≤ compare (key n) (key (parent n))) :
    ∃ next, self.insertInSlot compare (n + first) = some next ∧
      Appended next first (n + 1) key := by
  have hshape := h.shaped
  let placed : Heap K := { self.place (cell n) (n + first) n with numberOfNodes := n + 1 }
  have hat : placed.nodeAt = self.filled n (n + first) := nodeAt_place self n (n + first) n
  have hshaped : Shaped placed (n + 1) :=
    ⟨rfl, hshape.segments, by have := hroom; simp only [placed, place]; omega, by omega,
      hshape.slots_le⟩
  have hold : ∀ i < n, placed.nodeAt i = i + first := fun i hi => by
    rw [hat, filled_of_ne (by omega), h.nodeAt i hi]
  have hlast : placed.nodeAt n = n + first := by rw [hat, filled_self]
  have hback : placed.slotNumber (n + first) = n := by simp [placed, place]
  -- the sift writes the node where it is
  have hsift : placed.siftNodeUp compare (cell n) = some (placed.place (cell n) (n + first) n) := by
    have hslots : placed.slots (cell n) = n + first := hlast
    simp only [siftNodeUp, hslots, hback, Int.toNat_natCast]
    rcases Nat.eq_zero_or_pos n with rfl | hpos
    · exact siftUpLoop_zero 0
    · have hp := parent_lt hpos
      have hcmp : compare (placed.key (n + first)) (placed.keyAt (parent n)) ≥ 0 := by
        rw [keyAt, hold _ hp]
        have hkey : placed.key (parent n + first) = key (parent n) := h.key _ hp
        rw [hkey, show placed.key (n + first) = key n from hnode]
        exact hparent hpos
      rw [hshaped.laid.siftUpLoop_succ (Nat.lt_succ_self n) hpos, if_pos hcmp]
  refine ⟨placed.place (cell n) (n + first) n, ?_, hshaped.of_same (same_place ..), ?_, ?_, ?_⟩
  · rw [Heap.insertInSlot, hshape.nodes, hshape.laid.locateSlot hroom]
    exact hsift
  · intro i hi
    rw [nodeAt_place]
    by_cases hin : i = n
    · rw [hin, filled_self]
    · rw [filled_of_ne hin, hold i (by omega)]
  · intro i hi
    by_cases hin : i = n
    · simp [hin, place]
    · have hne : (i + first : NodeId) ≠ n + first := by omega
      simp only [placed, place, Function.update_of_ne hne]
      exact h.back i (by omega)
  · intro i hi
    by_cases hin : i = n
    · rw [hin]
      exact hnode
    · exact h.key i (by omega)

/-- **One more node** that comes after its parent is put at the end and stays there, so the nodes
are in the slots in the order in which they came. -/
theorem Appended.insertNode (h : Appended self first n key) (hmany : n ≤ 2 ^ 30 + 1)
    (hnode : self.key (n + first) = key n) (hparent : 0 < n → 0 ≤ compare (key n) (key (parent n)))
    (contents : ℕ → NodeId) :
    ∃ next, self.insertNode compare (n + first) true (some contents) = some (next, true) ∧
      Appended next first (n + 1) key := by
  unfold Heap.insertNode
  split_ifs with hfull
  · obtain ⟨grown, hgrown⟩ := increaseSegments_of_memory self contents
    obtain ⟨grown', ok, hgrown', hlaid, hroom, hmax, hslots, hback, hkey⟩ :=
      h.shaped.laid.increaseSegments hfull true (some contents) fun _ => by omega
    obtain ⟨rfl, rfl⟩ := Prod.mk.inj (hgrown'.symm.trans hgrown)
    have hshaped : Shaped grown' n :=
      ⟨hlaid.nodes, hlaid.segments, hlaid.room, h.shaped.nodes_le, by omega⟩
    have happended : Appended grown' first n key :=
      ⟨hshaped, fun i hi => (hslots i hi).trans (h.nodeAt i hi),
        fun i hi => hback ▸ h.back i hi, fun i hi => hkey ▸ h.key i hi⟩
    obtain ⟨next, hrun, hnext⟩ :=
      happended.insertInSlot hmany (hroom rfl) (hkey ▸ hnode) hparent
    exact ⟨next, by rw [hgrown]; simp [hrun], hnext⟩
  · have hroom : (n : ℤ) < self.numberOfSlots := by
      have := h.shaped.room
      have := h.shaped.nodes
      omega
    obtain ⟨next, hrun, hnext⟩ := h.insertInSlot hmany hroom hnode hparent
    exact ⟨next, by simp [hrun], hnext⟩

/-! ## Removal -/

/-- The way down to slot `2 ^ 30`: by first children, but for the last step. -/
theorem sinks_path {lead : K} (k : ℕ) (hk : k ≤ 29)
    (hpath : ∀ j, k < j → j < 30 → ¬compare (self.keyAt (2 ^ j)) (self.keyAt (2 ^ j - 1)) < 0)
    (hlast : compare (self.keyAt (2 ^ 30)) (self.keyAt (2 ^ 30 - 1)) < 0)
    (hlarge : ∀ i, 2 ^ k ≤ i → i ≤ 2 ^ 30 → 0 < compare lead (self.keyAt i)) :
    Sinks compare self (2 ^ 30 + 1) lead (2 ^ k - 1) (2 ^ 30) := by
  induction hsteps : 29 - k generalizing k with
  | zero =>
      obtain rfl : k = 29 := by omega
      have hchild : child compare self (2 ^ 30 + 1) (2 ^ 29 - 1) = 2 ^ 30 :=
        if_pos ⟨by omega, hlast⟩
      refine .sink (by omega) ?_ ?_
      · rw [hchild]
        exact hlarge (2 ^ 30) (by omega) le_rfl
      · rw [hchild]
        exact .stay _
  | succ steps ih =>
      have hpos : 0 < 2 ^ k := Nat.two_pow_pos k
      have hsucc : 2 ^ (k + 1) = 2 * 2 ^ k := pow_succ' 2 k
      have hle : 2 ^ (k + 1) ≤ 2 ^ 30 := Nat.pow_le_pow_right (by omega) (by omega)
      have hfirst : 2 * (2 ^ k - 1) + 1 = 2 ^ (k + 1) - 1 := by omega
      have hsecond : 2 * (2 ^ k - 1) + 2 = 2 ^ (k + 1) := by omega
      have hchild : child compare self (2 ^ 30 + 1) (2 ^ k - 1) = 2 ^ (k + 1) - 1 := by
        rw [child, hfirst, hsecond]
        exact if_neg fun h => hpath (k + 1) (by omega) (by omega) h.2
      refine .sink (by omega) ?_ ?_
      · rw [hchild]
        exact hlarge _ (by omega) (by omega)
      · rw [hchild]
        apply ih (k + 1) (by omega)
        · exact fun j hj hj' => hpath j (by omega) hj'
        · exact fun i hi hi' => hlarge i (by omega) hi'
        · omega

/-- **The removal of the first of `2 ^ 30 + 2` nodes** reads a slot that is not there, if the last
node comes after all others and the one before it comes before its sibling. -/
theorem Appended.removeNode_stuck (h : Appended self first (2 ^ 30 + 2) key)
    (hpath : ∀ j, 0 < j → j < 30 → ¬compare (key (2 ^ j)) (key (2 ^ j - 1)) < 0)
    (hlast : compare (key (2 ^ 30)) (key (2 ^ 30 - 1)) < 0)
    (hlarge : ∀ i ≤ 2 ^ 30, 0 < compare (key (2 ^ 30 + 1)) (key i)) :
    self.removeNode compare first = none := by
  have hshape : Shaped self (2 ^ 30 + 1 + 1) := h.shaped
  have hback : self.slotNumber (self.nodeAt 0) = ((0 : ℕ) : ℤ) := by
    rw [h.nodeAt 0 (by omega)]
    exact h.back 0 (by omega)
  have hmoved : self.nodeAt (2 ^ 30 + 1) = 2 ^ 30 + 1 + first := h.nodeAt _ (by omega)
  have hkeyAt : ∀ i ≤ 2 ^ 30 + 1, self.keyAt i = key i := fun i hi => by
    rw [keyAt, h.nodeAt i (by omega)]
    exact h.key i (by omega)
  have hkeys : ∀ i, 0 < i → i ≤ 2 ^ 30 → (self.replaceByLast 0 (2 ^ 30 + 1)).keyAt i = key i :=
    fun i hpos hi => by
      rw [replaceByLast_keyAt_of_ne self _ (by omega), hkeyAt i (by omega)]
  have hkey : (self.replaceByLast 0 (2 ^ 30 + 1)).key (2 ^ 30 + 1 + first) = key (2 ^ 30 + 1) :=
    h.key _ (by omega)
  have hslots : (self.replaceByLast 0 (2 ^ 30 + 1)).slots (cell 0) = 2 ^ 30 + 1 + first := by
    have hfirst := congrFun (replaceByLast_nodeAt self 0 (2 ^ 30 + 1)) 0
    rw [filled_self, hmoved] at hfirst
    exact hfirst
  have hstuck : (self.replaceByLast 0 (2 ^ 30 + 1)).siftNodeDown compare (cell 0) = none := by
    have hnumber : (self.replaceByLast 0 (2 ^ 30 + 1)).slotNumber (2 ^ 30 + 1 + first) =
        ((0 : ℕ) : ℤ) := by
      show Function.update self.slotNumber (self.nodeAt (2 ^ 30 + 1)) ((0 : ℕ) : ℤ) _ = _
      rw [hmoved, Function.update_self]
    have hroom := hshape.room
    rw [siftNodeDown, hslots, hnumber]
    apply (hshape.laid.replaceByLast 0).siftDownLoop_deep
    · show ((0 : ℕ) : ℤ) < self.numberOfSlots
      omega
    intro hshallow
    apply Nat.lt_irrefl (2 ^ 30) (hshallow _ (sinks_path 0 (by omega) ?_ ?_ ?_))
    · intro j hj hj'
      have hle : 2 ^ 1 ≤ 2 ^ j := Nat.pow_le_pow_right (by omega) hj
      have hlt : 2 ^ j ≤ 2 ^ 29 := Nat.pow_le_pow_right (by omega) (by omega)
      rw [hkeys _ (by omega) (by omega), hkeys _ (by omega) (by omega)]
      exact hpath j hj hj'
    · rw [hkeys _ (by omega) (by omega), hkeys _ (by omega) (by omega)]
      exact hlast
    · intro i hi hi'
      rw [hkeys i hi hi', hkey]
      exact hlarge i hi'
  have hcmp : 0 < compare (self.keyAt (2 ^ 30 + 1)) (self.keyAt 0) := by
    rw [hkeyAt _ (by omega), hkeyAt 0 (by omega)]
    exact hlarge 0 (by omega)
  have hrun : self.removeNode compare (self.nodeAt 0) = _ :=
    hshape.laid.removeNode_eq (by omega) hback
  rw [h.nodeAt 0 (by omega), Nat.zero_add] at hrun
  rw [hrun, if_neg hcmp.ne', if_neg hcmp.not_gt, hstuck]

end Heap

end Pixy.Store
