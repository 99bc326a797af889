import Pixy.Store.Sift

/-!
# The heap over whole runs

`Valid` is what holds between two calls: the heap has as many nodes as are held, they are stored,
and their keys are in order. Each operation keeps it, and returns, whatever the allocator does
(`Valid.insertNode`, `.removeNode`, `.adjustNode`, `.shrinkToFit`), as long as its numbers are in
range. In a heap with no more than `2 ^ 30` nodes (`Correct`) they are. `heap_correct` says what
that means for the user.
-/

namespace Pixy.Store

open Pixy.Found TotalPreorder

namespace Heap

variable {K : Type} {self next : Heap K} {n x : ℕ} {node : NodeId} {held : Finset NodeId}
  {compare : K → K → ℤ}

/-- Everything there is to know about a heap between two calls. -/
structure Correct (compare : K → K → ℤ) (heap : Heap K) (held : Finset NodeId) : Prop where
  /-- The counters agree. -/
  shaped : Shaped heap held.card
  /-- The nodes are stored. -/
  stored : Stored heap held.card held
  /-- No node's key precedes its parent's. -/
  ordered : Ordered (Le compare) held.card heap.keyAt

/-- The same of a heap of any size. -/
structure Valid (compare : K → K → ℤ) (heap : Heap K) (held : Finset NodeId) : Prop where
  /-- The counters agree. -/
  laid : Laid heap held.card
  /-- The nodes are stored. -/
  stored : Stored heap held.card held
  /-- No node's key precedes its parent's. -/
  ordered : Ordered (Le compare) held.card heap.keyAt

/-- A heap of which all is known that there is to know is valid: the bound on the number of nodes is
forgotten. -/
theorem Correct.valid (h : Correct compare self held) : Valid compare self held :=
  ⟨h.shaped.laid, h.stored, h.ordered⟩

/-- A valid heap with few enough nodes and slots is correct. -/
theorem Valid.correct (h : Valid compare self held) (hcard : held.card ≤ 2 ^ 30 + 2)
    (hslots : self.numberOfSlots ≤ 2 ^ 30 + 2 + heapSegmentLength) : Correct compare self held :=
  ⟨⟨h.laid.nodes, h.laid.segments, h.laid.room, hcard, hslots⟩, h.stored, h.ordered⟩

/-- What is stored is found in a slot, which the node knows. -/
theorem Stored.exists_slot (h : Stored self n held) (hnode : node ∈ held) :
    ∃ x < n, self.nodeAt x = node ∧ self.slotNumber node = x := by
  obtain ⟨x, hx, rfl⟩ := h.holds.surjOn (Finset.mem_coe.mpr hnode)
  exact ⟨x, hx, rfl, h.back x hx⟩

/-- A heap is read through the first slots, the back-pointers and the keys alone. -/
theorem Stored.congr (h : Stored self n held) (hslots : ∀ i < n, next.nodeAt i = self.nodeAt i)
    (hback : next.slotNumber = self.slotNumber) : Stored next n held where
  back i hi := by rw [hslots i hi, hback, h.back i hi]
  holds := h.holds.congr fun i hi => (hslots i hi).symm

/-- The order of a heap depends only on the keys in the slots that are in use. -/
theorem ordered_congr (h : Ordered (Le compare) n self.keyAt)
    (hkeys : ∀ i < n, next.keyAt i = self.keyAt i) : Ordered (Le compare) n next.keyAt := by
  intro i hi hn
  rw [hkeys i hn, hkeys _ ((parent_lt hi).trans hn)]
  exact h i hi hn

/-- Writing the key of a node does not move it, and the keys in all other slots stay. -/
theorem setKey_keyAt (h : Stored self n held) (hx : x < n) (key : K) {i : ℕ} (hi : i < n)
    (hne : i ≠ x) :
    keyAt { self with key := Function.update self.key (self.nodeAt x) key } i = self.keyAt i := by
  have : self.nodeAt i ≠ self.nodeAt x := fun he => hne (h.holds.injOn hi hx he)
  exact Function.update_of_ne this _ _

/-! ## Insertion -/

/-- Where there is room, the new node goes behind the others and is sifted up. -/
theorem Valid.insertInSlot (hc : TotalPreorder compare) (h : Valid compare self held)
    (hnew : node ∉ held) (hroom : (held.card : ℤ) < self.numberOfSlots) :
    ∃ next, self.insertInSlot compare node = some next ∧
      Valid compare next (insert node held) ∧ next.numberOfSlots = self.numberOfSlots := by
  have hsucc : (insert node held).card = held.card + 1 := Finset.card_insert_of_notMem hnew
  obtain ⟨hshape, hstore, hordered⟩ := h
  generalize held.card = n at *
  -- the node in its slot, before the sift
  let placed : Heap K := { self.place (cell n) node n with numberOfNodes := n + 1 }
  have hat : placed.nodeAt = self.filled n node := nodeAt_place self n node n
  have hshaped : Laid placed (n + 1) :=
    ⟨rfl, hshape.segments, by show ((n + 1 : ℕ) : ℤ) ≤ self.numberOfSlots; omega, hshape.slots_lt⟩
  have hold : ∀ i < n, placed.nodeAt i = self.nodeAt i := fun i hi => by
    rw [hat, filled_of_ne (by omega)]
  have hlast : placed.nodeAt n = node := by rw [hat, filled_self]
  have hstored : Stored placed (n + 1) (insert node held) := by
    constructor
    · intro i hi
      by_cases hin : i = n
      · rw [hin, hlast]
        simp [placed, place]
      · have hlt : i < n := by omega
        have hne : self.nodeAt i ≠ node := fun he => hnew (he ▸ hstore.holds.mapsTo hlt)
        rw [hold i hlt]
        exact (slotNumber_place_of_ne hne (cell n) n).trans (hstore.back i hlt)
    · rw [Finset.coe_insert]
      exact bijOn_Iio_succ hstore.holds hnew hold hlast
  have hkey : ∀ i < n, placed.keyAt i = self.keyAt i := fun i hi => congrArg self.key (hold i hi)
  have hup : Up (Le compare) (n + 1) placed.keyAt n := by
    refine ⟨⟨fun i hi hin hne _ => ?_, fun i hi hin hp => ?_⟩, fun i hi hin hp => ?_⟩
    · have hp := parent_lt hi
      rw [hkey i (by omega), hkey _ (by omega)]
      exact hordered i hi (by omega)
    all_goals
      have := parent_lt hi
      omega
  obtain ⟨next, hrun, hsame, hstored', hord⟩ :=
    hshaped.siftNodeUp_up hc hstored (Nat.lt_succ_self n) hup
  refine ⟨next, ?_, ⟨hsucc ▸ hshaped.of_same hsame, hsucc ▸ hstored', hsucc ▸ hord⟩,
    hsame.numberOfSlots⟩
  rw [Heap.insertInSlot, hshape.nodes, hshape.locateSlot hroom]
  exact hrun

/-- The allocations of `Heap_IncreaseSegments` succeed. -/
def MemoryAllows (self : Heap K) (reallocated : Bool) (segment : Option (ℕ → NodeId)) : Prop :=
  (self.numberOfSegments = self.segmentVector.length →
    (self.segmentVector.setLength (self.numberOfSegments + 1) reallocated).2 = true) ∧
      segment ≠ none

/-- What a failed or successful growth does: nothing below the old number of slots. -/
theorem Laid.increaseSegments (h : Laid self n) (hfull : self.numberOfNodes = self.numberOfSlots)
    (reallocated : Bool) (segment : Option (ℕ → NodeId))
    (hlimit : MemoryAllows self reallocated segment → n ≠ 2 ^ 31 - 256) :
    ∃ grown ok, self.increaseSegments reallocated segment = (grown, ok) ∧ Laid grown n ∧
      (ok = true → n < grown.numberOfSlots) ∧ grown.numberOfSlots ≤ n + heapSegmentLength ∧
      (∀ i < n, grown.nodeAt i = self.nodeAt i) ∧ grown.slotNumber = self.slotNumber ∧
      grown.key = self.key := by
  have hsame : ∀ vector, Laid { self with segmentVector := vector } n := fun vector =>
    h.congr rfl rfl rfl
  have hnodes := h.nodes
  have hle := h.slots_le
  have hL : heapSegmentLength = 256 := rfl
  have hslots : self.numberOfSlots ≤ n + heapSegmentLength := by omega
  unfold MemoryAllows at hlimit
  unfold Heap.increaseSegments
  rcases hgrown : (if self.numberOfSegments = self.segmentVector.length then
    self.segmentVector.setLength (self.numberOfSegments + 1) reallocated
    else (self.segmentVector, true)) with ⟨vector, _ | _⟩
  · exact ⟨_, _, rfl, hsame vector, nofun, hslots, fun _ _ => rfl, rfl, rfl⟩
  · rcases segment with _ | contents
    · exact ⟨_, _, rfl, hsame vector, nofun, hslots, fun _ _ => rfl, rfl, rfl⟩
    · have hseg : self.numberOfSlots = 256 * self.numberOfSegments := h.segments
      have hne := hlimit ⟨fun hfull => by rw [if_pos hfull] at hgrown; rw [hgrown], by simp⟩
      refine ⟨_, _, rfl, ⟨h.nodes, ?_, ?_, ?_⟩, fun _ => ?_, ?_, fun i hi => ?_, rfl, rfl⟩
      · show self.numberOfSlots + 256 = 256 * (self.numberOfSegments + 1)
        omega
      · show (n : ℤ) ≤ self.numberOfSlots + 256
        omega
      · show self.numberOfSlots + 256 < 2 ^ 31
        omega
      · show (n : ℤ) < self.numberOfSlots + 256
        omega
      · show self.numberOfSlots + 256 ≤ n + 256
        omega
      · -- the slots in use belong to older segments
        have hcell : (cell i).1 ≠ self.numberOfSegments.toNat := by
          simp only [cell, hL]
          omega
        simp only [nodeAt, if_neg hcell]

/-- **Insertion.** It fails and changes nothing that counts, or the node is held too. -/
theorem Valid.insertNode (hc : TotalPreorder compare) (h : Valid compare self held)
    (hnew : node ∉ held) (reallocated : Bool) (segment : Option (ℕ → NodeId))
    (hlimit : MemoryAllows self reallocated segment → held.card ≠ 2 ^ 31 - 256) :
    ∃ next ok, self.insertNode compare node reallocated segment = some (next, ok) ∧
      Valid compare next (if ok then insert node held else held) ∧
      next.numberOfSlots ≤ max self.numberOfSlots (held.card + heapSegmentLength) := by
  unfold Heap.insertNode
  split_ifs with hfull
  · obtain ⟨grown, ok, hgrown, hlaid, hroom, hmax, hslots, hback, hkey⟩ :=
      h.laid.increaseSegments hfull reallocated segment hlimit
    have hgrownValid : Valid compare grown held :=
      ⟨hlaid, h.stored.congr hslots hback, ordered_congr h.ordered fun i hi => by
        rw [keyAt, hkey, hslots i hi]
        rfl⟩
    rcases ok with _ | _
    · exact ⟨grown, false, by rw [hgrown], hgrownValid, hmax.trans (le_max_right _ _)⟩
    · obtain ⟨next, hrun, hvalid, hsame⟩ := hgrownValid.insertInSlot hc hnew (hroom rfl)
      exact ⟨next, true, by rw [hgrown]; simp [hrun], hvalid,
        hsame.trans_le (hmax.trans (le_max_right _ _))⟩
  · have hroom : (held.card : ℤ) < self.numberOfSlots := by
      have := h.laid.room
      have := h.laid.nodes
      omega
    obtain ⟨next, hrun, hvalid, hsame⟩ := h.insertInSlot hc hnew hroom
    exact ⟨next, true, by simp [hrun], hvalid, hsame.trans_le (le_max_left _ _)⟩

/-! ## Adjustment -/

/-- **Adjustment**, after the key of a held node was changed, where the sift downwards stays among
the slots whose children have numbers. -/
theorem Valid.adjustNode (hc : TotalPreorder compare) (h : Valid compare self held)
    (hnode : node ∈ held) (key : K)
    (hshallow : ∀ changed : Heap K, changed =
      { self with key := Function.update self.key node key } →
      ∀ x : ℕ, self.slotNumber node = x →
      ¬(0 < x ∧ compare key (changed.keyAt (parent x)) < 0) →
      Shallow compare changed held.card key x) :
    ∃ next, adjustNode compare { self with key := Function.update self.key node key } node =
      some next ∧ Valid compare next held ∧ next.numberOfSlots = self.numberOfSlots := by
  have := hc.isTrans
  obtain ⟨x, hx, rfl, hback⟩ := h.stored.exists_slot hnode
  let changed : Heap K := { self with key := Function.update self.key (self.nodeAt x) key }
  have hlaid : Laid changed held.card := h.laid.congr rfl rfl rfl
  have hkey : changed.keyAt x = key := Function.update_self ..
  have hstored : Stored changed held.card held := ⟨h.stored.back, h.stored.holds⟩
  -- the heap as it would be had only the entry at `x` changed
  have hweak : Weak (Le compare) held.card changed.keyAt x := by
    have hedge : ∀ i, i < held.card → i ≠ x → changed.keyAt i = self.keyAt i := fun i hi hne =>
      setKey_keyAt h.stored hx key hi hne
    have hw := h.ordered.weak (x := x) (g := fun i => if i = x then changed.keyAt x
      else self.keyAt i) fun i hi => if_neg hi
    have hcongr : ∀ i, i < held.card →
        (if i = x then changed.keyAt x else self.keyAt i) = changed.keyAt i := fun i hi => by
      split_ifs with he
      · rw [he]
      · exact (hedge i hi he).symm
    refine ⟨fun i hi hin hne hp => ?_, fun i hi hin hp hpos => ?_⟩
    · have := hw.edge i hi hin hne hp
      rwa [hcongr i hin, hcongr _ ((parent_lt hi).trans hin)] at this
    · have := hw.across i hi hin hp hpos
      rwa [hcongr i hin, hcongr _ ((parent_lt hpos).trans hx)] at this
  obtain ⟨up, hrun, hsame, hstoredUp, hcase⟩ :=
    hlaid.siftNodeUp_weak hc hstored hx (rfl : changed.nodeAt x = self.nodeAt x) hweak
  have hlaidUp := hlaid.of_same hsame
  have hbegin : Heap.adjustNode compare changed (self.nodeAt x) =
      if up.slots (cell x) ≠ self.nodeAt x then some up else up.siftNodeDown compare (cell x) := by
    have hloc := hlaid.locateSlot (hlaid.lt_slots hx)
    have hback' : changed.slotNumber (self.nodeAt x) = x := hback
    simp only [Heap.adjustNode, hback', hloc, Option.bind_eq_bind, Option.bind_some, hrun]
  rcases hcase with ⟨hmoved, hord⟩ | ⟨hplaced, hdown⟩
  · refine ⟨up, ?_, ⟨hlaidUp, hstoredUp, hord⟩, hsame.numberOfSlots⟩
    rw [hbegin]
    exact if_pos hmoved
  · have hkeys : up.keyAt = changed.keyAt := by
      rw [hplaced, keyAt_place, filled_nodeAt]
      rfl
    have hstays : ¬(0 < x ∧ compare key (changed.keyAt (parent x)) < 0) := by
      rintro ⟨hpos, hlt⟩
      have habove := hdown.above hpos
      rw [hkeys, hkey] at habove
      exact hc.not_lt habove hlt
    have hsinks : Shallow compare up held.card (up.keyAt x) x := by
      rw [hkeys, hkey]
      exact (hshallow changed rfl x hback hstays).congr fun i _ => congrFun hkeys i
    have hstayed : up.slots (cell x) = self.nodeAt x := by
      have hat := congrFun (nodeAt_place changed x (changed.nodeAt x) x) x
      rw [← hplaced, filled_self] at hat
      exact hat
    obtain ⟨next, hrun', hsame', hstored', hord⟩ :=
      hlaidUp.siftNodeDown_down hc hstoredUp hx hdown hsinks
    refine ⟨next, ?_, ⟨hlaidUp.of_same hsame', hstored', hord⟩,
      hsame'.numberOfSlots.trans hsame.numberOfSlots⟩
    rw [hbegin]
    exact (if_neg fun hne => hne hstayed).trans hrun'

/-! ## Removal -/

/-- The heap before the sift of a removal: the last node is in the removed one's slot. -/
def replaceByLast (self : Heap K) (x n : ℕ) : Heap K :=
  { self.place (cell x) (self.nodeAt n) x with numberOfNodes := n }

/-- Before the sift of a removal the last node is in the removed one's slot, and the others are
where they were. -/
theorem replaceByLast_nodeAt (self : Heap K) (x n : ℕ) :
    (self.replaceByLast x n).nodeAt = self.filled x (self.nodeAt n) :=
  nodeAt_place self x (self.nodeAt n) x

/-- Before the sift of a removal the keys in all other slots are as they were. -/
theorem replaceByLast_keyAt_of_ne (self : Heap K) {x i : ℕ} (n : ℕ) (hne : i ≠ x) :
    (self.replaceByLast x n).keyAt i = self.keyAt i :=
  congrArg self.key ((congrFun (replaceByLast_nodeAt self x n) i).trans (filled_of_ne hne))

/-- Before the sift of a removal the removed node's slot has the key of the last node. -/
theorem replaceByLast_keyAt_self (self : Heap K) (x n : ℕ) :
    (self.replaceByLast x n).keyAt x = self.keyAt n :=
  congrArg self.key ((congrFun (replaceByLast_nodeAt self x n) x).trans (filled_self self x _))

/-- The comparison that the source makes after a removal is that of the last node with the removed
one. -/
theorem compare_replaceByLast (compare : K → K → ℤ) (self : Heap K) (x n : ℕ) :
    compare ((self.replaceByLast x n).key ((self.replaceByLast x n).slots (cell x)))
      ((self.replaceByLast x n).key (self.nodeAt x)) = compare (self.keyAt n) (self.keyAt x) :=
  congrArg (compare · (self.keyAt x)) (replaceByLast_keyAt_self self x n)

/-- One node less is counted before the last node is moved, and the heap is laid out as before for
the nodes that are left. -/
theorem Laid.pred (h : Laid self (n + 1)) : self.numberOfNodes - 1 = n ∧
    Laid { self with numberOfNodes := (n : ℤ) } n := by
  have hnodes := h.nodes
  have hroom := h.room
  exact ⟨by omega, rfl, h.segments, by show (n : ℤ) ≤ self.numberOfSlots; omega, h.slots_lt⟩

/-- The counters agree before the sift of a removal: there is one node less, in as many slots. -/
theorem Laid.replaceByLast (h : Laid self (n + 1)) (x : ℕ) : Laid (self.replaceByLast x n) n :=
  h.pred.2.congr rfl rfl rfl

/-- Before the sift of a removal the slots hold all nodes but the removed one, and each knows its
slot. -/
theorem Stored.replaceByLast (h : Stored self (n + 1) held) (hx : x < n + 1) :
    Stored (self.replaceByLast x n) n (held.erase (self.nodeAt x)) := by
  constructor
  · intro i hi
    rw [replaceByLast_nodeAt]
    by_cases hix : i = x
    · simp [hix, Heap.replaceByLast, place]
    · have hne : self.nodeAt i ≠ self.nodeAt n := fun he => by
        have := h.holds.injOn (show i < n + 1 by omega) (Nat.lt_succ_self n) he
        omega
      rw [filled_of_ne hix]
      exact (slotNumber_place_of_ne hne (cell x) x).trans (h.back i (by omega))
  · rw [Finset.coe_erase, replaceByLast_nodeAt]
    refine bijOn_Iio_pred h.holds hx ?_ fun i _ hne => ?_
    · rw [filled_self]
    · rw [filled_of_ne hne]

/-- **A removal** compares the last key to the removed one and sifts as it has to. -/
theorem Laid.removeNode_eq (h : Laid self (n + 1)) (hx : x < n + 1)
    (hback : self.slotNumber (self.nodeAt x) = x) : self.removeNode compare (self.nodeAt x) =
      if compare (self.keyAt n) (self.keyAt x) = 0 then some (self.replaceByLast x n)
      else if compare (self.keyAt n) (self.keyAt x) < 0 then
        (self.replaceByLast x n).siftNodeUp compare (cell x)
      else (self.replaceByLast x n).siftNodeDown compare (cell x) := by
  have hroom := h.room
  obtain ⟨hnodes, hbefore⟩ := h.pred
  have hlast := hbefore.locateSlot (i := n) (by show (n : ℤ) < self.numberOfSlots; omega)
  have hcmp := compare_replaceByLast compare self x n
  simp only [Heap.removeNode, hback, h.locateSlot (h.lt_slots hx), Option.bind_eq_bind,
    Option.bind_some, hnodes, hlast]
  simp only [← hcmp]
  rfl

section Orders

variable [IsTrans K (Le compare)]

/-- Only the slot of the removed node can be out of order. -/
theorem weak_replaceByLast (h : Ordered (Le compare) (n + 1) self.keyAt) :
    Weak (Le compare) n (self.replaceByLast x n).keyAt x := by
  have hw := h.weak (x := x) fun i hne => replaceByLast_keyAt_of_ne self n hne
  exact ⟨fun i hi hin => hw.edge i hi (by omega), fun i hi hin => hw.across i hi (by omega)⟩

/-- A last key that does not follow the removed one is right for the slots below. -/
theorem up_replaceByLast (h : Ordered (Le compare) (n + 1) self.keyAt)
    (hle : Le compare (self.keyAt n) (self.keyAt x)) :
    Up (Le compare) n (self.replaceByLast x n).keyAt x := by
  refine ⟨weak_replaceByLast h, fun i hi hin hp => ?_⟩
  have hne : i ≠ x := by
    have := parent_lt hi
    omega
  rw [replaceByLast_keyAt_self, replaceByLast_keyAt_of_ne self n hne]
  have hbelow := h i hi (by omega)
  rw [hp] at hbelow
  exact trans_of (Le compare) hle hbelow

/-- A last key that does not precede the removed one is right for the slot above. -/
theorem above_replaceByLast (h : Ordered (Le compare) (n + 1) self.keyAt) (hx : x < n + 1)
    (hle : Le compare (self.keyAt x) (self.keyAt n)) (hpos : 0 < x) :
    Le compare ((self.replaceByLast x n).keyAt (parent x)) ((self.replaceByLast x n).keyAt x) := by
  rw [replaceByLast_keyAt_self, replaceByLast_keyAt_of_ne self n (parent_lt hpos).ne]
  exact trans_of (Le compare) (h x hpos hx) hle

end Orders

/-- **Removal**, where the sift downwards stays among the slots whose children have numbers. -/
theorem Valid.removeNode (hc : TotalPreorder compare) (h : Valid compare self held)
    (hnode : node ∈ held)
    (hshallow : ∀ n x : ℕ, held.card = n + 1 → self.slotNumber node = x →
      0 < compare (self.keyAt n) (self.key node) →
        Shallow compare self n (self.keyAt n) x) :
    ∃ next, self.removeNode compare node = some next ∧ Valid compare next (held.erase node) ∧
      next.numberOfSlots = self.numberOfSlots := by
  have := hc.isTrans
  obtain ⟨x, hx, rfl, hback⟩ := h.stored.exists_slot hnode
  have hpred := Finset.card_erase_of_mem hnode
  obtain ⟨n, hn⟩ : ∃ n, held.card = n + 1 := ⟨held.card - 1, by omega⟩
  have hlaid := h.laid
  have hstored := h.stored
  have hordered := h.ordered
  have hsinks := hshallow n x hn hback
  rw [hn] at hlaid hstored hordered hx
  have hcard : (held.erase (self.nodeAt x)).card = n := by omega
  have hlaidLast := hlaid.replaceByLast x
  have hstoredLast := hstored.replaceByLast hx
  rw [hlaid.removeNode_eq hx hback]
  by_cases hlast : x = n
  · -- the last node itself is removed
    refine ⟨_, if_pos ?_, ⟨hcard ▸ hlaidLast, hcard ▸ hstoredLast, ?_⟩, rfl⟩
    · have := hc.swap (self.keyAt n) (self.keyAt n)
      rw [hlast]
      omega
    · rw [hcard]
      exact ordered_congr (fun i hi hin => hordered i hi (by omega)) fun i hi =>
        replaceByLast_keyAt_of_ne self n (by omega)
  · have hxn : x < n := by omega
    rcases lt_trichotomy (compare (self.keyAt n) (self.keyAt x)) 0 with hlt | heq | hgt
    · -- its key precedes: only the edge above may be wrong
      obtain ⟨next, hrun, hsame, hstored', hord⟩ :=
        hlaidLast.siftNodeUp_up hc hstoredLast hxn (up_replaceByLast hordered hlt.le)
      refine ⟨next, ?_, ⟨hcard ▸ hlaidLast.of_same hsame, hcard ▸ hstored', hcard ▸ hord⟩,
        hsame.numberOfSlots⟩
      rw [if_neg hlt.ne, if_pos hlt, hrun]
    · -- its key is as good: all is in order
      refine ⟨_, if_pos heq, ⟨hcard ▸ hlaidLast, hcard ▸ hstoredLast, ?_⟩, rfl⟩
      rw [hcard]
      exact Up.ordered (up_replaceByLast hordered heq.le)
        (above_replaceByLast hordered hx (hc.le_of_nonneg heq.ge))
    · -- its key follows: only the edges below may be wrong
      have hkeys : Shallow compare (self.replaceByLast x n) n
          ((self.replaceByLast x n).keyAt x) x := by
        rw [replaceByLast_keyAt_self]
        exact (hsinks hgt).congr fun i hi => replaceByLast_keyAt_of_ne self n hi.ne'
      obtain ⟨next, hrun, hsame, hstored', hord⟩ :=
        hlaidLast.siftNodeDown_down hc hstoredLast hxn
          ⟨weak_replaceByLast hordered, above_replaceByLast hordered hx (hc.le_of_nonneg hgt.le)⟩
          hkeys
      refine ⟨next, ?_, ⟨hcard ▸ hlaidLast.of_same hsame, hcard ▸ hstored', hcard ▸ hord⟩,
        hsame.numberOfSlots⟩
      rw [if_neg hgt.ne', if_neg (not_lt_of_gt hgt), hrun]

/-- **A removal that returns** has sifted downwards among such slots only. -/
theorem Valid.of_removeNode (hc : TotalPreorder compare) (h : Valid compare self held)
    (hnode : node ∈ held) (hrun : self.removeNode compare node = some next) :
    Valid compare next (held.erase node) := by
  obtain ⟨next', hrun', hvalid, -⟩ := h.removeNode hc hnode fun n x hn hback hgt => by
    obtain ⟨y, hy, rfl, hback'⟩ := h.stored.exists_slot hnode
    obtain rfl : x = y := by omega
    have hlaid := h.laid
    rw [hn] at hlaid hy
    by_contra hdeep
    have hnumber :
        (self.replaceByLast x n).slotNumber ((self.replaceByLast x n).slots (cell x)) = x := by
      have hat := congrFun (replaceByLast_nodeAt self x n) x
      rw [filled_self] at hat
      exact (congrArg _ hat).trans (Function.update_self ..)
    have hkey := replaceByLast_keyAt_self self x n
    have hnone : (self.replaceByLast x n).siftNodeDown compare (cell x) = none := by
      rw [siftNodeDown, hnumber]
      apply (hlaid.replaceByLast x).siftDownLoop_deep _ (hlaid.lt_slots hy)
      intro hshallow
      apply hdeep
      rw [← hkey]
      exact hshallow.congr fun i hi => (replaceByLast_keyAt_of_ne self n hi.ne').symm
    have hgt' : 0 < compare (self.keyAt n) (self.keyAt x) := hgt
    rw [hlaid.removeNode_eq hy hback, if_neg hgt'.ne', if_neg hgt'.not_gt, hnone] at hrun
    cases hrun
  obtain rfl : next' = next := Option.some.inj (hrun'.symm.trans hrun)
  exact hvalid

/-! ## Shrinking -/

/-- The number of segments that so many nodes need, as the source computes it with unsigned numbers,
is the quotient rounded up. -/
theorem toInt_fitted (hlt : n < 2 ^ 31) :
    toInt (toUnsigned ((n : ℤ) + heapSegmentLength - 1) / heapSegmentLength) =
      ((n + 255) / 256 : ℕ) := by
  have hL : heapSegmentLength = 256 := rfl
  have hcast : (n : ℤ) + heapSegmentLength - 1 = ((n + 255 : ℕ) : ℤ) := by omega
  rw [hcast, toUnsigned_natCast (by omega), hL]
  exact toInt_natCast (by omega)

/-- The number of segments that `Heap_ShrinkToFit` computes is that of the segments needed, rounded
up; no conversion on the way loses anything. -/
theorem Laid.fitted (h : Laid self n) :
    toInt (toUnsigned (self.numberOfNodes + heapSegmentLength - 1) / heapSegmentLength) =
      ((n + 255) / 256 : ℕ) := by
  have hroom := h.room
  have hslots := h.slots_lt
  rw [h.nodes]
  exact toInt_fitted (by omega)

/-- **Shrinking** keeps a slot for every node, whether or not `realloc` succeeds, and never adds
one. -/
theorem Valid.shrinkToFit (h : Valid compare self held) (reallocated : Bool) :
    Valid compare (self.shrinkToFit reallocated).1 held ∧
      (self.shrinkToFit reallocated).1.numberOfSlots ≤ self.numberOfSlots := by
  have hL : heapSegmentLength = 256 := rfl
  obtain ⟨hnodes, hseg, hroom, hslots⟩ := h.laid
  have hseg' : self.numberOfSlots = 256 * self.numberOfSegments := hseg
  unfold Heap.shrinkToFit
  simp only [h.laid.fitted]
  refine ⟨⟨?_, ?_, ?_⟩, ?_⟩
  · split_ifs with hmany
    · refine ⟨hnodes, ?_, ?_, ?_⟩ <;> simp only [hL] <;> omega
    · exact ⟨hnodes, hseg, hroom, hslots⟩
  · refine h.stored.congr (fun i _ => ?_) ?_ <;> split_ifs <;> rfl
  · refine ordered_congr h.ordered fun i _ => ?_
    split_ifs <;> rfl
  · split_ifs with hmany
    · simp only [hL]
      omega
    · exact le_rfl

/-! ## Keys -/

/-- The user may write the key of a node that is not in the heap. -/
theorem Valid.setKey (h : Valid compare self held) (hnew : node ∉ held) (key : K) :
    Valid compare { self with key := Function.update self.key node key } held := by
  refine ⟨h.laid.congr rfl rfl rfl, ⟨h.stored.back, h.stored.holds⟩,
    ordered_congr h.ordered fun i hi => ?_⟩
  exact Function.update_of_ne (ne_of_mem_of_not_mem (h.stored.holds.mapsTo hi) hnew) _ _

/-- The loop upwards moves nodes between slots and leaves counters, storage and keys alone. -/
theorem same_siftUpLoop {fuel : ℕ} {slot : Cell} {i : ℤ}
    (h : siftUpLoop compare node fuel self slot i = some next) : Same self next := by
  induction fuel generalizing self slot i with
  | zero => cases h
  | succ fuel ih =>
      rw [siftUpLoop] at h
      split_ifs at h
      · obtain ⟨above, -, h⟩ := Option.bind_eq_some_iff.mp h
        split_ifs at h
        · cases h
          exact same_place ..
        · exact (same_place ..).trans (ih h)
      · cases h
        exact same_place ..

/-- The loop downwards moves nodes between slots and leaves counters, storage and keys alone. -/
theorem same_siftDownLoop {fuel : ℕ} {slot : Cell} {i : ℤ}
    (h : siftDownLoop compare node fuel self slot i = some next) : Same self next := by
  induction fuel generalizing self slot i with
  | zero => cases h
  | succ fuel ih =>
      rw [siftDownLoop] at h
      dsimp only at h
      split_ifs at h
      · cases h
        exact same_place ..
      · obtain ⟨⟨below, j⟩, -, h⟩ := Option.bind_eq_some_iff.mp h
        dsimp only at h
        split_ifs at h
        · cases h
          exact same_place ..
        · exact (same_place ..).trans (ih h)

/-- A sift upwards leaves counters, storage and keys alone, and only moves nodes between slots. -/
theorem same_siftNodeUp {slot : Cell} (h : self.siftNodeUp compare slot = some next) :
    Same self next := same_siftUpLoop h

/-- A sift downwards leaves counters, storage and keys alone, and only moves nodes between slots. -/
theorem same_siftNodeDown {slot : Cell} (h : self.siftNodeDown compare slot = some next) :
    Same self next := same_siftDownLoop h

/-- An insertion into a free slot leaves the number of slots and all keys alone. -/
theorem same_insertInSlot (h : self.insertInSlot compare node = some next) :
    next.numberOfSlots = self.numberOfSlots ∧ next.key = self.key := by
  obtain ⟨slot, -, h⟩ := Option.bind_eq_some_iff.mp h
  have hsame := same_siftNodeUp h
  exact ⟨hsame.numberOfSlots, hsame.key⟩

/-- **The heap writes no key** when a node is inserted: the keys are the user's, and the heap only
compares them. -/
theorem key_insertNode {reallocated : Bool} {segment : Option (ℕ → NodeId)} {ok : Bool}
    (h : self.insertNode compare node reallocated segment = some (next, ok)) :
    next.key = self.key := by
  have hgrown : (self.increaseSegments reallocated segment).1.key = self.key := by
    unfold increaseSegments
    dsimp only
    split_ifs <;> try rfl
    all_goals split <;> rfl
  unfold Heap.insertNode at h
  split_ifs at h
  · rcases hres : self.increaseSegments reallocated segment with ⟨grown, _ | _⟩ <;>
      rw [hres] at h hgrown
    · cases h
      exact hgrown
    · obtain ⟨inserted, hinsert, heq⟩ := Option.map_eq_some_iff.mp h
      cases heq
      exact (same_insertInSlot hinsert).2.trans hgrown
  · obtain ⟨inserted, hinsert, heq⟩ := Option.map_eq_some_iff.mp h
    cases heq
    exact (same_insertInSlot hinsert).2

/-- And when a node is removed, the keys stay what they are, also its own. -/
theorem key_removeNode (h : self.removeNode compare node = some next) : next.key = self.key := by
  unfold Heap.removeNode at h
  simp only [Option.bind_eq_bind, Option.bind_eq_some_iff] at h
  obtain ⟨slot, -, last, -, h⟩ := h
  split_ifs at h
  · cases h
    rfl
  · have hsame := same_siftNodeUp h
    exact hsame.key
  · have hsame := same_siftNodeDown h
    exact hsame.key

/-! ## The top -/

/-- **The top** is a node that no other one precedes, and there is one exactly if the heap holds
anything. -/
theorem Valid.getTop (hc : TotalPreorder compare) (h : Valid compare self held) :
    (self.getTop = none ↔ held = ∅) ∧
    ∀ top, self.getTop = some top →
      top ∈ held ∧ ∀ other ∈ held, ¬ compare (self.key other) (self.key top) < 0 := by
  have := hc.isTrans
  have hn := h.laid.nodes
  unfold Heap.getTop
  split_ifs with hzero
  · have : held.card = 0 := by omega
    simp [Finset.card_eq_zero.mp this]
  · have hpos : 0 < held.card := by omega
    refine ⟨by simp [Finset.card_pos.mp hpos |>.ne_empty], ?_⟩
    rintro _ ⟨⟩
    refine ⟨h.stored.holds.mapsTo hpos, fun other hother => ?_⟩
    obtain ⟨i, hi, rfl, -⟩ := h.stored.exists_slot hother
    exact hc.not_lt (h.ordered.root hc.refl i hi)

/-- **An insertion that leaves a number of slots** has had room for them. -/
theorem Valid.of_insertNode (hc : TotalPreorder compare) (h : Valid compare self held)
    (hnew : node ∉ held) {reallocated : Bool} {segment : Option (ℕ → NodeId)} {ok : Bool}
    (hrun : self.insertNode compare node reallocated segment = some (next, ok))
    (hslots : next.numberOfSlots < 2 ^ 31) :
    Valid compare next (if ok then insert node held else held) := by
  obtain ⟨next', ok', hrun', hvalid, -⟩ :=
    h.insertNode hc hnew reallocated segment fun hmemory hcard => by
      -- every slot is in use, and there would be 256 more
      have hroom := h.laid.room
      have hle := h.laid.slots_le
      have hnodes := h.laid.nodes
      have hfull : self.numberOfNodes = self.numberOfSlots := by omega
      obtain ⟨hvector, hsegment⟩ := hmemory
      obtain ⟨contents, rfl⟩ := Option.ne_none_iff_exists'.mp hsegment
      have hgrown : (if self.numberOfSegments = self.segmentVector.length then
          self.segmentVector.setLength (self.numberOfSegments + 1) reallocated
          else (self.segmentVector, true)).2 = true := by
        split_ifs with hlength
        · exact hvector hlength
        · rfl
      unfold Heap.insertNode at hrun
      rw [if_pos hfull] at hrun
      unfold Heap.increaseSegments at hrun
      simp only [hgrown, Bool.not_true, Bool.false_eq_true, if_false] at hrun
      obtain ⟨inserted, hinsert, heq⟩ := Option.map_eq_some_iff.mp hrun
      obtain ⟨rfl, rfl⟩ := Prod.mk.inj heq
      have hcount : inserted.numberOfSlots = self.numberOfSlots + 256 :=
        (same_insertInSlot hinsert).1
      omega
  obtain ⟨rfl, rfl⟩ := Prod.mk.inj (Option.some.inj (hrun'.symm.trans hrun))
  exact hvalid

/-! ## Heaps that are not too large -/

/-- One more node at most, and no more slots than it takes. -/
theorem Correct.insertNode (hc : TotalPreorder compare) (h : Correct compare self held)
    (hnew : node ∉ held) (hcard : held.card ≤ 2 ^ 30 + 1) (reallocated : Bool)
    (segment : Option (ℕ → NodeId)) :
    ∃ next ok, self.insertNode compare node reallocated segment = some (next, ok) ∧
      Correct compare next (if ok then insert node held else held) := by
  obtain ⟨next, ok, hrun, hvalid, hmax⟩ :=
    h.valid.insertNode hc hnew reallocated segment fun _ => by omega
  have hslots := h.shaped.slots_le
  have hcard' : (if ok then insert node held else held).card ≤ held.card + 1 := by
    rcases ok with _ | _
    · exact Nat.le_succ _
    · exact Finset.card_insert_le node held
  exact ⟨next, ok, hrun, hvalid.correct (hcard'.trans (by omega)) (hmax.trans (by omega))⟩

/-- **Adjustment.** A node's key may be changed to any other; the adjustment sifts it to where it
belongs. -/
theorem Correct.adjustNode (hc : TotalPreorder compare) (h : Correct compare self held)
    (hcard : held.card ≤ 2 ^ 30) (hnode : node ∈ held) (key : K) :
    ∃ next, adjustNode compare { self with key := Function.update self.key node key } node =
      some next ∧ Correct compare next held := by
  obtain ⟨x, hx, -, hback⟩ := h.stored.exists_slot hnode
  obtain ⟨next, hrun, hvalid, hslots⟩ :=
    h.valid.adjustNode hc hnode key fun changed _ y hback' _ => shallow_of_le (by omega) hcard
  exact ⟨next, hrun, hvalid.correct (by omega) (hslots.trans_le h.shaped.slots_le)⟩

/-- After a removal no more nodes are left than a sift downwards is made for. -/
theorem Valid.removeNode_of_card (hc : TotalPreorder compare) (h : Valid compare self held)
    (hmany : held.card ≤ 2 ^ 30 + 1) (hnode : node ∈ held) :
    ∃ next, self.removeNode compare node = some next ∧ Valid compare next (held.erase node) ∧
      next.numberOfSlots = self.numberOfSlots := by
  refine h.removeNode hc hnode fun n x hn hback hgt => ?_
  obtain ⟨y, hy, rfl, hback'⟩ := h.stored.exists_slot hnode
  obtain rfl : x = y := by omega
  have hne : x ≠ n := by
    rintro rfl
    have := hc.swap (self.keyAt x) (self.keyAt x)
    exact absurd hgt (by show ¬0 < compare (self.keyAt x) (self.keyAt x); omega)
  exact shallow_of_le (by omega) (by omega)

/-- **Removal.** Any node of the heap can be removed, through the slot number that it knows, and the
others stay. -/
theorem Correct.removeNode (hc : TotalPreorder compare) (h : Correct compare self held)
    (hmany : held.card ≤ 2 ^ 30 + 1) (hnode : node ∈ held) :
    ∃ next, self.removeNode compare node = some next ∧
      Correct compare next (held.erase node) := by
  obtain ⟨next, hrun, hvalid, hslots⟩ := h.valid.removeNode_of_card hc hmany hnode
  have hle := Finset.card_erase_le (s := held) (a := node)
  exact ⟨next, hrun, hvalid.correct (by omega) (hslots.trans_le h.shaped.slots_le)⟩

/-- **Shrinking** frees whole segments behind the nodes, and keeps the heap correct whether the
vector can be reallocated or not. -/
theorem Correct.shrinkToFit (h : Correct compare self held) (reallocated : Bool) :
    Correct compare (self.shrinkToFit reallocated).1 held := by
  obtain ⟨hvalid, hslots⟩ := h.valid.shrinkToFit reallocated
  exact hvalid.correct h.shaped.nodes_le (hslots.trans h.shaped.slots_le)

/-- The key of a node that is not in the heap may be anything. -/
theorem Correct.setKey (h : Correct compare self held) (hnew : node ∉ held) (key : K) :
    Correct compare { self with key := Function.update self.key node key } held :=
  (h.valid.setKey hnew key).correct h.shaped.nodes_le h.shaped.slots_le

end Heap

/-! ## Every reachable heap -/

variable {K : Type} {compare : K → K → ℤ}

/-- A heap that has just been initialized is correct and holds nothing, whatever its memory
holds. -/
theorem init_correct (slots : Cell → NodeId) (slotNumber : NodeId → ℤ) (key : NodeId → K) :
    (Heap.init slots slotNumber key).Correct compare ∅ where
  shaped := ⟨rfl, rfl, le_refl _, Nat.zero_le _, by simp [Heap.init, heapSegmentLength]⟩
  stored := ⟨nofun, fun i hi => absurd hi (Nat.not_lt_zero i),
    fun i hi => absurd hi (Nat.not_lt_zero i), fun _ h => by simp at h⟩
  ordered := nofun

/-- **The invariant of a heap in use**: it is correct, and no more nodes are held than every
operation is made for. -/
structure HeapState.Sound (compare : K → K → ℤ) (s : HeapState K) : Prop where
  correct : s.heap.Correct compare s.held
  few : s.held.card ≤ 2 ^ 30

/-- Every possible call returns and keeps the invariant, also one whose allocations fail. -/
theorem HeapState.Sound.apply (hc : TotalPreorder compare) {s : HeapState K} (h : s.Sound compare)
    {action : HeapAction K} (hen : s.Enabled action) :
    ∃ next, s.apply compare action = some next ∧ next.Sound compare := by
  cases action with
  | insertNode node key reallocated segment =>
      obtain ⟨hnew, hroom⟩ := hen
      have hset : (s.setKey node key).Correct compare s.held := h.correct.setKey hnew key
      obtain ⟨next, ok, hrun, hcorrect⟩ :=
        hset.insertNode hc hnew (by omega) reallocated segment
      refine ⟨_, by rw [HeapState.apply, hrun]; rfl, hcorrect, ?_⟩
      rcases ok with _ | _
      · exact h.few
      · exact (Finset.card_insert_of_notMem hnew).trans_le hroom
  | removeNode node =>
      obtain ⟨next, hrun, hcorrect⟩ := h.correct.removeNode hc (Nat.le_succ_of_le h.few) hen
      exact ⟨_, by rw [HeapState.apply, hrun]; rfl, hcorrect, Finset.card_erase_le.trans h.few⟩
  | adjustNode node key =>
      obtain ⟨next, hrun, hcorrect⟩ := h.correct.adjustNode hc h.few hen key
      exact ⟨⟨next, s.held⟩, by rw [HeapState.apply, HeapState.setKey, hrun]; rfl, hcorrect, h.few⟩
  | shrinkToFit reallocated => exact ⟨_, rfl, h.correct.shrinkToFit reallocated, h.few⟩

/-- The heap is sound in every state that a run of calls can reach, those that fail included. -/
theorem sound_of_reachable (hc : TotalPreorder compare) {s : HeapState K}
    (h : (heapSystem compare).Reachable s) : s.Sound compare := by
  refine StepSystem.ReachableWhen.induct ?_ ?_ h
  · rintro ⟨heap, held⟩ ⟨⟨slots, slotNumber, key, rfl⟩, rfl⟩
    exact ⟨init_correct slots slotNumber key, Nat.zero_le _⟩
  · intro s action next _ hs _ hstep
    simp only [heapSystem] at hstep
    split_ifs at hstep with hen
    obtain ⟨next', hrun, hsound⟩ := hs.apply hc hen
    cases hrun.symm.trans hstep
    exact hsound

/-- What the user sees of a heap. -/
structure HeapCorrect (compare : K → K → ℤ) (s : HeapState K) : Prop where
  /-- No node compares less than its parent. -/
  ordered : ∀ i : ℕ, 0 < i → i < s.heap.numberOfNodes →
    ¬ compare (s.heap.keyAt i) (s.heap.keyAt ((i - 1) / 2)) < 0
  /-- Every stored node's `slotNumber` is the slot that holds it. -/
  slotNumber : ∀ i : ℕ, i < s.heap.numberOfNodes → s.heap.slotNumber (s.heap.nodeAt i) = i
  /-- The stored nodes are those inserted and not removed, each once. -/
  stored : ∀ node, node ∈ s.held ↔
    ∃! i : ℕ, i < s.heap.numberOfNodes ∧ s.heap.nodeAt i = node
  /-- There is no top exactly when there is no node. -/
  top_none : s.heap.getTop = none ↔ s.held = ∅
  /-- The top is held and no held node compares less. -/
  top_some : ∀ top, s.heap.getTop = some top →
    top ∈ s.held ∧ ∀ other ∈ s.held, ¬ compare (s.heap.key other) (s.heap.key top) < 0

/-- **What the invariant tells a user**: the order of the keys, the slots of the nodes, which nodes
are stored, and what is at the top. -/
theorem Heap.Correct.heapCorrect (hc : TotalPreorder compare) {s : HeapState K}
    (h : s.heap.Correct compare s.held) : HeapCorrect compare s := by
  have hn := h.shaped.nodes
  refine ⟨fun i hi hlt => ?_, fun i hlt => ?_, fun node => ⟨fun hnode => ?_, ?_⟩,
    (h.valid.getTop hc).1, (h.valid.getTop hc).2⟩
  · exact hc.not_lt (h.ordered i hi (by omega))
  · exact h.stored.back i (by omega)
  · obtain ⟨i, hi, hat, -⟩ := h.stored.exists_slot hnode
    refine ⟨i, ⟨by omega, hat⟩, fun j ⟨hj, hatj⟩ => ?_⟩
    exact h.stored.holds.injOn (show j < s.held.card by omega) hi (hatj.trans hat.symm)
  · rintro ⟨i, ⟨hi, rfl⟩, -⟩
    exact h.stored.holds.mapsTo (show i < s.held.card by omega)

/-- **Heap correctness over whole runs.** For every comparer that is a total preorder, every
reachable heap is correct, and every call its user may make of it returns. -/
theorem heap_correct (hc : TotalPreorder compare) {s : HeapState K}
    (h : (heapSystem compare).Reachable s) :
    HeapCorrect compare s ∧ ∀ action, s.Enabled action →
      ((heapSystem compare).step s action).isSome := by
  have hs := sound_of_reachable hc h
  refine ⟨hs.correct.heapCorrect hc, fun action hen => ?_⟩
  obtain ⟨next, hrun, -⟩ := hs.apply hc hen
  simp [heapSystem, hen, hrun]

/-- Keys compared by subtraction are in a total preorder, as long as the difference is one of
integers and does not wrap. -/
theorem totalPreorder_sub : TotalPreorder fun a b : ℤ => a - b :=
  ⟨fun a b => by omega, fun a b c => by omega⟩

/-- An insertion that fails for lack of memory, three that do not, the removal of the top, and an
adjustment that brings another node there. -/
def removedTop : List (HeapAction ℤ) :=
  [.insertNode 1 5 true none, .insertNode 1 5 true (some fun _ => 0),
    .insertNode 2 3 true none, .insertNode 3 4 true none, .removeNode 2, .adjustNode 1 1]

/-- An insertion fails, the top is removed, and an adjustment brings another node there: the heap is
correct and has that node at its top. -/
theorem heap_correct_removedTop :
    ∃ s, (heapSystem fun a b : ℤ => a - b).run
        ⟨.init (fun _ => 0) (fun _ => 0) (fun _ => 0), ∅⟩ removedTop = some s ∧
      s.heap.getTop = some 1 ∧ HeapCorrect (fun a b : ℤ => a - b) s := by
  have htop : ((heapSystem fun a b : ℤ => a - b).run
      ⟨.init (fun _ => 0) (fun _ => 0) (fun _ => 0), ∅⟩ removedTop).map (·.heap.getTop) =
      some (some 1) := by decide +kernel
  obtain ⟨s, hrun, hs⟩ := Option.map_eq_some_iff.mp htop
  exact ⟨s, hrun, hs,
    (heap_correct totalPreorder_sub (StepSystem.reachable_of_run ⟨⟨_, _, _, rfl⟩, rfl⟩ hrun)).1⟩

end Pixy.Store
