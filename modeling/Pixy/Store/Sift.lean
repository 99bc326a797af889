import Pixy.Store.Heap

/-!
# The two sifts

While a sift runs one slot `x` is to be overwritten and the node to be written there is held in a
local variable (`Sifting`). A step moves a neighbour's node into `x` and goes on at the neighbour
(`Sifting.move`); read with the node filled in, that is an exchange of two entries, so the order
conditions of `HeapOrder.lean` apply to it. The end of a sift writes the node (`Sifting.fill`).

`siftNodeUp_up`, `siftNodeUp_weak` and `siftNodeDown_down` say what the functions do: they return,
and leave the nodes stored and in order. A sift downwards multiplies the number of the slot by two,
so it returns as long as it stays above slot `2 ^ 30` (`Shallow`), and does not where it comes there
(`Laid.siftDownLoop_deep`).
-/

namespace Pixy.Store

open Pixy.Found TotalPreorder

/-! ## Slots -/

/-- The cell of a slot number. -/
def cell (i : ℕ) : Cell := (i / heapSegmentLength, i % heapSegmentLength)

/-- Different slots are in different places: a number determines its segment and its place there,
and is determined by them. -/
theorem cell_injective : Function.Injective cell := by
  intro i j h
  obtain ⟨hd, hm⟩ := Prod.mk.inj h
  have hi := Nat.div_add_mod i heapSegmentLength
  have hj := Nat.div_add_mod j heapSegmentLength
  rw [← hi, ← hj, hd, hm]

/-- A number below `2 ^ 32` is not changed by the conversion to `unsigned int`. -/
theorem toUnsigned_natCast {i : ℕ} (h : i < 2 ^ 32) : toUnsigned i = i := by
  unfold toUnsigned
  omega

/-- A number below `2 ^ 31` is not changed by the conversion to `int`. -/
theorem toInt_natCast {i : ℕ} (h : i < 2 ^ 31) : toInt i = i :=
  Int.bmod_eq_of_le (by omega) (by omega)

namespace Heap

variable {K : Type}

/-- The node in a slot. -/
def nodeAt (self : Heap K) (i : ℕ) : NodeId := self.slots (cell i)

/-- The key of the node in a slot. -/
def keyAt (self : Heap K) (i : ℕ) : K := self.key (self.nodeAt i)

/-- The node in a slot, with the one held in the local variable filled in. -/
def filled (self : Heap K) (x : ℕ) (node : NodeId) : ℕ → NodeId :=
  Function.update self.nodeAt x node

/-- The heap has that many nodes and room for them. -/
structure Shaped (heap : Heap K) (n : ℕ) : Prop where
  /-- The number of nodes. -/
  nodes : heap.numberOfNodes = n
  /-- Every segment has as many slots as the next. -/
  segments : heap.numberOfSlots = heapSegmentLength * heap.numberOfSegments
  /-- There is a slot for every node. -/
  room : n ≤ heap.numberOfSlots
  /-- The bound on the number of nodes. -/
  nodes_le : n ≤ 2 ^ 30 + 2
  /-- And so on the number of slots. -/
  slots_le : heap.numberOfSlots ≤ 2 ^ 30 + 2 + heapSegmentLength

/-- The heap has that many nodes, room for them, and numbers that are `int`s. -/
structure Laid (heap : Heap K) (n : ℕ) : Prop where
  /-- The number of nodes. -/
  nodes : heap.numberOfNodes = n
  /-- Every segment has as many slots as the next. -/
  segments : heap.numberOfSlots = heapSegmentLength * heap.numberOfSegments
  /-- There is a slot for every node. -/
  room : n ≤ heap.numberOfSlots
  /-- And a number for every slot. -/
  slots_lt : heap.numberOfSlots < 2 ^ 31

/-- The first `n` slots hold the nodes of the set, each of which knows its slot. -/
structure Stored (heap : Heap K) (n : ℕ) (held : Finset NodeId) : Prop where
  /-- Every node knows its slot. -/
  back : ∀ i < n, heap.slotNumber (heap.nodeAt i) = i
  /-- The slots hold exactly these nodes, each once. -/
  holds : Set.BijOn heap.nodeAt (Set.Iio n) held

/-- The same with the node that belongs in slot `x` held elsewhere. -/
structure Sifting (heap : Heap K) (n x : ℕ) (node : NodeId) (held : Finset NodeId) : Prop where
  /-- The slot is in use. -/
  lt : x < n
  /-- Every other node knows its slot. -/
  back : ∀ i < n, i ≠ x → heap.slotNumber (heap.nodeAt i) = i
  /-- With the node filled in, the slots hold exactly these nodes. -/
  holds : Set.BijOn (heap.filled x node) (Set.Iio n) held

/-- What a sift leaves alone. -/
structure Same (heap next : Heap K) : Prop where
  /-- The vector. -/
  segmentVector : next.segmentVector = heap.segmentVector
  /-- The segments. -/
  numberOfSegments : next.numberOfSegments = heap.numberOfSegments
  /-- The slots. -/
  numberOfSlots : next.numberOfSlots = heap.numberOfSlots
  /-- The number of nodes. -/
  numberOfNodes : next.numberOfNodes = heap.numberOfNodes
  /-- The keys. -/
  key : next.key = heap.key

variable {self next last : Heap K} {n x y : ℕ} {node : NodeId} {held : Finset NodeId}

/-- What leaves counters, storage and keys alone and then does so again has left them alone. -/
theorem Same.trans (h : Same self next) (h' : Same next last) : Same self last :=
  ⟨h'.1.trans h.1, h'.2.trans h.2, h'.3.trans h.3, h'.4.trans h.4, h'.5.trans h.5⟩

/-- A node that is put into a slot leaves counters, storage and keys alone. -/
theorem same_place (self : Heap K) (slot : Cell) (node : NodeId) (x : ℤ) :
    Same self (self.place slot node x) :=
  ⟨rfl, rfl, rfl, rfl, rfl⟩

/-- A heap within the bound has numbers for all its slots. -/
theorem Shaped.laid (h : Shaped self n) : Laid self n := by
  have hle := h.slots_le
  have hL : heapSegmentLength = 256 := rfl
  exact ⟨h.nodes, h.segments, h.room, by omega⟩

/-- The counters are all that the layout is about, so heaps that agree on them are laid out alike.
-/
theorem Laid.congr (h : Laid self n) (hnodes : next.numberOfNodes = self.numberOfNodes)
    (hsegments : next.numberOfSegments = self.numberOfSegments)
    (hslots : next.numberOfSlots = self.numberOfSlots) : Laid next n :=
  ⟨hnodes.trans h.nodes, by rw [hslots, hsegments, h.segments], hslots ▸ h.room,
    hslots ▸ h.slots_lt⟩

/-- The shape of a heap depends on its three counters only. -/
theorem Shaped.congr (h : Shaped self n) (hnodes : next.numberOfNodes = self.numberOfNodes)
    (hsegments : next.numberOfSegments = self.numberOfSegments)
    (hslots : next.numberOfSlots = self.numberOfSlots) : Shaped next n :=
  ⟨hnodes.trans h.nodes, by rw [hslots, hsegments, h.segments], hslots ▸ h.room, h.nodes_le,
    hslots ▸ h.slots_le⟩

/-- A sift keeps the shape of a heap, which is about its counters and its segments and not about who
is in which slot. -/
theorem Shaped.of_same (h : Shaped self n) (hs : Same self next) : Shaped next n := by
  obtain ⟨-, hseg, hslots, hnodes, -⟩ := hs
  exact h.congr hnodes hseg hslots

/-- A sift keeps the counters in agreement with each other and with the number of nodes. -/
theorem Laid.of_same (h : Laid self n) (hs : Same self next) : Laid next n := by
  obtain ⟨-, hseg, hslots, hnodes, -⟩ := hs
  exact h.congr hnodes hseg hslots

/-- The number of slots is a multiple of 256 below `2 ^ 31`, so the last segment ends 256 slots
before that at the latest. -/
theorem Laid.slots_le (h : Laid self n) : self.numberOfSlots ≤ 2 ^ 31 - 256 := by
  have hsegments : self.numberOfSlots = 256 * self.numberOfSegments := h.segments
  have hlt := h.slots_lt
  omega

/-- A slot number in range is located in the cell of that slot: the division and the remainder of
the source give its segment and its place. -/
theorem Laid.locateSlot (h : Laid self n) {i : ℕ} (hi : i < self.numberOfSlots) :
    self.locateSlot i = some (cell i) := by
  have hlt := h.slots_lt
  simp only [Heap.locateSlot, toUnsigned_natCast (show i < 2 ^ 32 by omega)]
  exact if_pos ⟨by omega, hi⟩

/-- The slot of every node is among those that there are. -/
theorem Laid.lt_slots (h : Laid self n) {i : ℕ} (hi : i < n) : i < self.numberOfSlots := by
  have := h.room
  omega

/-! ## One assignment -/

/-- After a node has been put into a slot the slots are as before with that one filled. -/
theorem nodeAt_place (self : Heap K) (x : ℕ) (node : NodeId) (z : ℤ) :
    (self.place (cell x) node z).nodeAt = self.filled x node := by
  funext i
  simp only [nodeAt, filled, place, Function.update_apply, cell_injective.eq_iff]

/-- The slot that is filled has the node. -/
@[simp] theorem filled_self (self : Heap K) (x : ℕ) (node : NodeId) :
    self.filled x node x = node := by
  simp [filled]

/-- Filling a slot leaves what all other slots have as it was. -/
theorem filled_of_ne {i : ℕ} (h : i ≠ x) : self.filled x node i = self.nodeAt i := by
  simp [filled, h]

/-- After a node has been put into a slot the keys are those of the filled slots. -/
theorem keyAt_place (self : Heap K) (x : ℕ) (node : NodeId) (z : ℤ) :
    (self.place (cell x) node z).keyAt = self.key ∘ self.filled x node := by
  funext i
  rw [keyAt, nodeAt_place]
  rfl

/-- Putting a node into a slot tells it its slot number, and no other node. -/
theorem slotNumber_place_of_ne {other : NodeId} (h : other ≠ node) (slot : Cell) (z : ℤ) :
    (self.place slot node z).slotNumber other = self.slotNumber other := by
  simp [place, h]

/-- Filling a slot with the node that it has already changes nothing. -/
theorem filled_nodeAt (self : Heap K) (x : ℕ) : self.filled x (self.nodeAt x) = self.nodeAt :=
  Function.update_eq_self x self.nodeAt

/-- No slot but `x` is to hold the node that is being sifted, so none of the others has it. -/
theorem Sifting.nodeAt_ne (h : Sifting self n x node held) {i : ℕ} (hi : i < n) (hx : i ≠ x) :
    self.nodeAt i ≠ node := by
  intro he
  refine hx (h.holds.injOn (Set.mem_Iio.mpr hi) (Set.mem_Iio.mpr h.lt) ?_)
  rw [filled_of_ne hx, filled_self, he]

/-- A node in its slot may be taken out of it. -/
theorem Stored.sifting (h : Stored self n held) (hx : x < n) (hnode : self.nodeAt x = node) :
    Sifting self n x node held := by
  subst hnode
  exact ⟨hx, fun i hi _ => h.back i hi, by rw [filled_nodeAt]; exact h.holds⟩

/-- **A step of a sift.** The node of another slot moves into `x`. -/
theorem Sifting.move (h : Sifting self n x node held) (hy : y < n) (hxy : y ≠ x) :
    Sifting (self.place (cell x) (self.nodeAt y) x) n y node held ∧
      (self.place (cell x) (self.nodeAt y) x).filled y node =
        self.filled x node ∘ Equiv.swap x y := by
  have hswap : (self.place (cell x) (self.nodeAt y) x).filled y node =
      self.filled x node ∘ Equiv.swap x y := by
    funext i
    rw [filled, nodeAt_place]
    by_cases hiy : i = y
    · simp [hiy]
    · by_cases hix : i = x
      · simp [hix, Ne.symm hxy, filled_of_ne hxy]
      · rw [Function.update_of_ne hiy, Function.comp, Equiv.swap_apply_of_ne_of_ne hix hiy,
          filled_of_ne hix, filled_of_ne hix]
  refine ⟨⟨hy, fun i hi hiy => ?_, hswap ▸ bijOn_comp_swap h.holds h.lt hy⟩, hswap⟩
  rw [nodeAt_place]
  by_cases hix : i = x
  · simp [hix, place]
  · have hne : self.nodeAt i ≠ self.nodeAt y := by
      intro he
      refine hiy (h.holds.injOn (Set.mem_Iio.mpr hi) (Set.mem_Iio.mpr hy) ?_)
      rw [filled_of_ne hix, filled_of_ne hxy, he]
    rw [filled_of_ne hix, slotNumber_place_of_ne hne]
    exact h.back i hi hix

/-- **The end of a sift.** The node is written into the slot. -/
theorem Sifting.fill (h : Sifting self n x node held) :
    Stored (self.place (cell x) node x) n held where
  back i hi := by
    rw [nodeAt_place]
    by_cases hix : i = x
    · simp [hix, place]
    · rw [filled_of_ne hix, slotNumber_place_of_ne (h.nodeAt_ne hi hix)]
      exact h.back i hi hix
  holds := by
    rw [nodeAt_place]
    exact h.holds

/-! ## Upwards -/

section Up

variable {compare : K → K → ℤ}

/-- At the root the loop upwards ends, and the node is placed there. -/
theorem siftUpLoop_zero (fuel : ℕ) :
    siftUpLoop compare node (fuel + 1) self (cell 0) (0 : ℕ) =
      some (self.place (cell 0) node (0 : ℕ)) := by
  simp [siftUpLoop]

/-- The number of the parent is computed without loss, although the source computes it with unsigned
numbers. -/
theorem toInt_parent (hpos : 0 < x) (hlt : x < 2 ^ 31) :
    toInt (toUnsigned ((x : ℤ) - 1) / 2) = (parent x : ℤ) := by
  have hp := parent_lt hpos
  have hcast : ((x : ℤ) - 1) = ((x - 1 : ℕ) : ℤ) := by omega
  rw [hcast, toUnsigned_natCast (by omega)]
  exact toInt_natCast (hp.trans hlt)

/-- Below the root, one comparison with the parent decides whether the node is placed or the parent
moves down. -/
theorem Laid.siftUpLoop_succ (hs : Laid self n) (hx : x < n) (hpos : 0 < x) (fuel : ℕ) :
    siftUpLoop compare node (fuel + 1) self (cell x) x =
      if compare (self.key node) (self.keyAt (parent x)) ≥ 0 then
        some (self.place (cell x) node x)
      else
        siftUpLoop compare node fuel (self.place (cell x) (self.nodeAt (parent x)) x)
          (cell (parent x)) (parent x) := by
  have hslots := hs.slots_lt
  have hroom := hs.lt_slots hx
  have hp := parent_lt hpos
  have hy := toInt_parent hpos (show x < 2 ^ 31 by omega)
  have hge : (x : ℤ) ≥ 1 := by omega
  simp only [siftUpLoop, if_pos hge, hy, hs.locateSlot (hs.lt_slots (hp.trans hx)),
    Option.bind_eq_bind, Option.bind_some]
  rfl

/-- A sift upwards from where only the edge above may be wrong. -/
theorem Laid.siftUpLoop_up (hc : TotalPreorder compare) (fuel : ℕ) (hs : Laid self n)
    (h : Sifting self n x node held)
    (hup : Up (Le compare) n (self.key ∘ self.filled x node) x) (hfuel : x < fuel) :
    ∃ next, siftUpLoop compare node fuel self (cell x) x = some next ∧ Same self next ∧
      Stored next n held ∧ Ordered (Le compare) n next.keyAt ∧ next.slotNumber node ≤ x := by
  have := hc.isTrans
  induction fuel generalizing self x with
  | zero => exact absurd hfuel (Nat.not_lt_zero x)
  | succ fuel ih =>
      -- where the sift ends, the node is written
      have hend : (0 < x → Le compare (self.keyAt (parent x)) (self.key node)) →
          ∃ next, some (self.place (cell x) node x) = some next ∧ Same self next ∧
            Stored next n held ∧ Ordered (Le compare) n next.keyAt ∧ next.slotNumber node ≤ x := by
        intro habove
        refine ⟨_, rfl, same_place .., h.fill, ?_, by simp [place]⟩
        rw [keyAt_place]
        refine hup.ordered fun hpos => ?_
        simp only [Function.comp, filled_self, filled_of_ne (parent_lt hpos).ne]
        exact habove hpos
      rcases Nat.eq_zero_or_pos x with rfl | hpos
      · rw [siftUpLoop_zero]
        exact hend fun h => absurd h (Nat.lt_irrefl 0)
      · have hp := parent_lt hpos
        rw [hs.siftUpLoop_succ h.lt hpos]
        split_ifs with hcmp
        · exact hend fun _ => hc.le_of_nonneg hcmp
        · obtain ⟨hmove, hswap⟩ := h.move (hp.trans h.lt) hp.ne
          have hstep := hup.toWeak.swap_parent hpos h.lt (by
            simp only [Function.comp, filled_self, filled_of_ne hp.ne]
            exact (Int.not_le.mp hcmp).le)
          have hsame := same_place self (cell x) (self.nodeAt (parent x)) x
          obtain ⟨next, hrun, hsame', hstored, hord, hle⟩ :=
            ih (hs.of_same hsame) hmove (by rw [hswap]; exact hstep) (by omega)
          exact ⟨next, hrun, hsame.trans hsame', hstored, hord, by omega⟩

/-- A sift upwards from where either kind of edge may be wrong: it moves, and all is in order, or
the node is written where it was, and the edge above is right. -/
theorem Laid.siftUpLoop_weak (hc : TotalPreorder compare) (fuel : ℕ) (hs : Laid self n)
    (h : Sifting self n x node held)
    (hweak : Weak (Le compare) n (self.key ∘ self.filled x node) x) (hfuel : x < fuel) :
    ∃ next, siftUpLoop compare node fuel self (cell x) x = some next ∧ Same self next ∧
      Stored next n held ∧
      ((next.nodeAt x ≠ node ∧ Ordered (Le compare) n next.keyAt) ∨
        (next = self.place (cell x) node x ∧ Down (Le compare) n next.keyAt x)) := by
  have := hc.isTrans
  obtain ⟨fuel, rfl⟩ : ∃ k, fuel = k + 1 := ⟨fuel - 1, by omega⟩
  have hend : (0 < x → Le compare (self.keyAt (parent x)) (self.key node)) →
      ∃ next, some (self.place (cell x) node x) = some next ∧ Same self next ∧
        Stored next n held ∧
        ((next.nodeAt x ≠ node ∧ Ordered (Le compare) n next.keyAt) ∨
          (next = self.place (cell x) node x ∧ Down (Le compare) n next.keyAt x)) := by
    intro habove
    refine ⟨_, rfl, same_place .., h.fill, .inr ⟨rfl, ?_⟩⟩
    rw [keyAt_place]
    refine ⟨hweak, fun hpos => ?_⟩
    simp only [Function.comp, filled_self, filled_of_ne (parent_lt hpos).ne]
    exact habove hpos
  rcases Nat.eq_zero_or_pos x with rfl | hpos
  · rw [siftUpLoop_zero]
    exact hend fun h => absurd h (Nat.lt_irrefl 0)
  · have hp := parent_lt hpos
    rw [hs.siftUpLoop_succ h.lt hpos]
    split_ifs with hcmp
    · exact hend fun _ => hc.le_of_nonneg hcmp
    · obtain ⟨hmove, hswap⟩ := h.move (hp.trans h.lt) hp.ne
      have hstep := hweak.swap_parent hpos h.lt (by
        simp only [Function.comp, filled_self, filled_of_ne hp.ne]
        exact (Int.not_le.mp hcmp).le)
      have hsame := same_place self (cell x) (self.nodeAt (parent x)) x
      obtain ⟨next, hrun, hsame', hstored, hord, hle⟩ :=
        (hs.of_same hsame).siftUpLoop_up hc fuel hmove (by rw [hswap]; exact hstep) (by omega)
      refine ⟨next, hrun, hsame.trans hsame', hstored, .inl ⟨fun he => ?_, hord⟩⟩
      -- the node knows its slot, and that is above
      have := hstored.back x h.lt
      rw [he] at this
      omega

/-- **`Heap_SiftNodeUp`**, where only the edge above the node may be wrong, puts the heap in order.
-/
theorem Laid.siftNodeUp_up (hc : TotalPreorder compare) (hs : Laid self n)
    (h : Stored self n held) (hx : x < n) (hup : Up (Le compare) n self.keyAt x) :
    ∃ next, self.siftNodeUp compare (cell x) = some next ∧ Same self next ∧ Stored next n held ∧
      Ordered (Le compare) n next.keyAt := by
  have hback : self.slotNumber (self.slots (cell x)) = x := h.back x hx
  have hup' : Up (Le compare) n (self.key ∘ self.filled x (self.nodeAt x)) x := by
    rw [filled_nodeAt]
    exact hup
  obtain ⟨next, hrun, hsame, hstored, hord, -⟩ :=
    hs.siftUpLoop_up hc (x + 1) (h.sifting hx rfl) hup' (Nat.lt_succ_self x)
  refine ⟨next, ?_, hsame, hstored, hord⟩
  rw [siftNodeUp, hback]
  exact hrun

/-- **`Heap_SiftNodeUp`**, where the edges below the node may be wrong too, moves the node and puts
the heap in order, or leaves the node where it is, with only those edges wrong. -/
theorem Laid.siftNodeUp_weak (hc : TotalPreorder compare) (hs : Laid self n)
    (h : Stored self n held) (hx : x < n) (hnode : self.nodeAt x = node)
    (hweak : Weak (Le compare) n self.keyAt x) :
    ∃ next, self.siftNodeUp compare (cell x) = some next ∧ Same self next ∧ Stored next n held ∧
      ((next.nodeAt x ≠ node ∧ Ordered (Le compare) n next.keyAt) ∨
        (next = self.place (cell x) node x ∧ Down (Le compare) n next.keyAt x)) := by
  subst hnode
  have hback : self.slotNumber (self.slots (cell x)) = x := h.back x hx
  have hweak' : Weak (Le compare) n (self.key ∘ self.filled x (self.nodeAt x)) x := by
    rw [filled_nodeAt]
    exact hweak
  obtain ⟨next, hrun, hsame, hstored, hor⟩ :=
    hs.siftUpLoop_weak hc (x + 1) (h.sifting hx rfl) hweak' (Nat.lt_succ_self x)
  refine ⟨next, ?_, hsame, hstored, hor⟩
  rw [siftNodeUp, hback]
  exact hrun

end Up

/-! ## Downwards -/

section Down

variable {compare : K → K → ℤ}

/-- The number of the slot a sift downwards looks at. -/
def child (compare : K → K → ℤ) (self : Heap K) (n x : ℕ) : ℕ :=
  if 2 * x + 2 < n ∧ compare (self.keyAt (2 * x + 2)) (self.keyAt (2 * x + 1)) < 0 then 2 * x + 2
  else 2 * x + 1

/-- The slot chosen is a child's, and the key of no other child of the same parent precedes its own.
-/
theorem child_spec (self : Heap K) (hc : TotalPreorder compare) (h : 2 * x + 1 < n) :
    0 < child compare self n x ∧ child compare self n x < n ∧ parent (child compare self n x) = x ∧
      ∀ i, 0 < i → i < n → parent i = x →
        Le compare (self.keyAt (child compare self n x)) (self.keyAt i) := by
  unfold child
  split_ifs with hsecond
  · refine ⟨by omega, hsecond.1, by unfold parent; omega, fun i hi hin hp => ?_⟩
    rcases (parent_eq_iff hi).mp hp with rfl | rfl
    · exact hsecond.2.le
    · exact hc.refl _
  · refine ⟨by omega, h, by unfold parent; omega, fun i hi hin hp => ?_⟩
    rcases (parent_eq_iff hi).mp hp with rfl | rfl
    · exact hc.refl _
    · exact hc.le_of_nonneg (Int.not_lt.mp fun hlt => hsecond ⟨hin, hlt⟩)

/-- A child lies behind its parent, whichever of the two is chosen. -/
theorem lt_child (compare : K → K → ℤ) (self : Heap K) (n x : ℕ) : x < child compare self n x := by
  unfold child
  split_ifs <;> omega

/-- The chosen child is in use if the first one is. -/
theorem child_lt (compare : K → K → ℤ) (self : Heap K) (hin : 2 * x + 1 < n) :
    child compare self n x < n := by
  unfold child
  split_ifs with hsecond
  · exact hsecond.1
  · exact hin

/-- The keys below the slot that is overwritten are as they were. -/
theorem keyAt_place_of_lt (self : Heap K) (node : NodeId) {i : ℕ} (hi : x < i) :
    (self.place (cell x) node x).keyAt i = self.keyAt i := by
  rw [keyAt_place]
  exact congrArg self.key (filled_of_ne hi.ne')

/-! ### The slots it comes to -/

/-- **A sift downwards of a node with that key comes from one slot to another**: from child to
child, as long as the key follows the child's. -/
inductive Sinks (compare : K → K → ℤ) (self : Heap K) (n : ℕ) (key : K) : ℕ → ℕ → Prop
  /-- It is there already. -/
  | stay (x : ℕ) : Sinks compare self n key x x
  /-- One level further down. -/
  | sink {x y : ℕ} (hin : 2 * x + 1 < n)
      (hfollows : 0 < compare key (self.keyAt (child compare self n x)))
      (hrest : Sinks compare self n key (child compare self n x) y) : Sinks compare self n key x y

section Sinks

variable {key : K}

/-- Only the slots below matter for the way that a key takes downwards, so a change elsewhere leaves
the way as it is. -/
theorem Sinks.congr (h : Sinks compare self n key x y)
    (hkeys : ∀ i, x < i → next.keyAt i = self.keyAt i) : Sinks compare next n key x y := by
  induction h with
  | stay x => exact .stay x
  | @sink x y hin hfollows hrest ih =>
      have hchild : child compare next n x = child compare self n x := by
        unfold child
        rw [hkeys _ (by omega), hkeys _ (by omega)]
      have hlt := lt_child compare self n x
      refine .sink hin ?_ ?_
      · rwa [hchild, hkeys _ hlt]
      · rw [hchild]
        exact ih fun i hi => hkeys i (hlt.trans hi)

/-- The way downwards stays in the heap: where it comes to is the slot of a node. -/
theorem Sinks.lt (h : Sinks compare self n key x y) (hx : x < n) : y < n := by
  induction h with
  | stay x => exact hx
  | sink hin _ _ ih => exact ih (child_lt compare self hin)

/-- The slots it comes to have children with numbers. -/
def Shallow (compare : K → K → ℤ) (self : Heap K) (n : ℕ) (key : K) (x : ℕ) : Prop :=
  ∀ y, Sinks compare self n key x y → y < 2 ^ 30

/-- As they do in a heap that is not too large. -/
theorem shallow_of_le (hx : x < n) (hle : n ≤ 2 ^ 30) : Shallow compare self n key x :=
  fun _ hy => (hy.lt hx).trans_le hle

/-- Through which slots a key sinks depends only on the keys behind the slot it starts from. -/
theorem Shallow.congr (h : Shallow compare self n key x)
    (hkeys : ∀ i, x < i → next.keyAt i = self.keyAt i) : Shallow compare next n key x :=
  fun y hy => h y (hy.congr fun i hi => (hkeys i hi).symm)

/-- If a key sinks only through slots whose children have numbers, so does it from the child on that
it has changed places with. -/
theorem Shallow.sink (h : Shallow compare self n key x) (hin : 2 * x + 1 < n)
    (hfollows : 0 < compare key (self.keyAt (child compare self n x))) (node : NodeId) :
    Shallow compare (self.place (cell x) node x) n key (child compare self n x) := by
  intro y hy
  apply h y
  refine .sink hin hfollows (hy.congr fun i hi => (keyAt_place_of_lt self node ?_).symm)
  exact (lt_child compare self n x).trans hi

/-- A sift that comes to slot `2 ^ 30` is there or goes on. -/
theorem not_shallow_cases (h : ¬Shallow compare self n key x) : 2 ^ 30 ≤ x ∨
    (2 * x + 1 < n ∧ 0 < compare key (self.keyAt (child compare self n x)) ∧
      ∀ node, ¬Shallow compare (self.place (cell x) node x) n key (child compare self n x)) := by
  obtain ⟨y, hy⟩ := not_forall.mp h
  obtain ⟨hsinks, hdeep⟩ := Classical.not_imp.mp hy
  rcases hsinks with _ | ⟨hin, hfollows, hrest⟩
  · exact .inl (not_lt.mp hdeep)
  · refine .inr ⟨hin, hfollows, fun node hshallow =>
      hdeep (hshallow y (hrest.congr fun i hi => ?_))⟩
    exact keyAt_place_of_lt self node ((lt_child compare self n x).trans hi)

end Sinks

/-! ### The loop -/

/-- `firstChild` finds the chosen child and its number, if the first one is in use. -/
theorem Laid.firstChild (hs : Laid self n) (h : 2 * x + 1 < n) :
    self.firstChild compare ((2 * x + 1 : ℕ) : ℤ) =
      some (cell (child compare self n x), (child compare self n x : ℤ)) := by
  have hz : ((2 * x + 1 : ℕ) : ℤ) + 1 = ((2 * x + 2 : ℕ) : ℤ) := by omega
  simp only [Heap.firstChild, hs.locateSlot (hs.lt_slots h), Option.bind_eq_bind, Option.bind_some,
    hz, hs.nodes, Int.ofNat_lt, child]
  by_cases hlt : 2 * x + 2 < n
  · by_cases hcmp : compare (self.keyAt (2 * x + 2)) (self.keyAt (2 * x + 1)) < 0
    · rw [if_pos hlt, hs.locateSlot (hs.lt_slots hlt), if_pos ⟨hlt, hcmp⟩]
      exact if_pos hcmp
    · rw [if_pos hlt, hs.locateSlot (hs.lt_slots hlt), if_neg fun h => hcmp h.2]
      exact if_neg hcmp
  · rw [if_neg hlt, if_neg fun h => hlt h.1]

/-- The number of the first child is an `int` up to slot `2 ^ 30`, -/
theorem toInt_child (hx : x < 2 ^ 30) :
    toInt ((2 * toUnsigned (x : ℤ) + 1) % 2 ^ 32) = ((2 * x + 1 : ℕ) : ℤ) := by
  rw [toUnsigned_natCast (by omega), Nat.mod_eq_of_lt (by omega)]
  exact toInt_natCast (by omega)

/-- From there on the product of the source wraps, and as a signed number it is negative. -/
theorem toInt_child_neg (hx : 2 ^ 30 ≤ x) (hlt : x < 2 ^ 31) :
    toInt ((2 * toUnsigned (x : ℤ) + 1) % 2 ^ 32) < 0 := by
  have hnumber : (2 * toUnsigned (x : ℤ) + 1) % 2 ^ 32 = 2 * x + 1 := by
    rw [toUnsigned_natCast (by omega), Nat.mod_eq_of_lt (by omega)]
  rw [hnumber]
  unfold toInt
  rw [Int.bmod_def]
  omega

/-- Where a slot has no children the loop downwards ends, and the node is placed there. -/
theorem Laid.siftDownLoop_leaf (hs : Laid self n) (hx : x < 2 ^ 30) (h : n ≤ 2 * x + 1) (fuel : ℕ) :
    siftDownLoop compare node (fuel + 1) self (cell x) x = some (self.place (cell x) node x) := by
  simp only [siftDownLoop, toInt_child hx, hs.nodes]
  exact if_pos (by omega)

/-- Where a slot has children, one comparison with the smaller of them decides whether the node is
placed or the child moves up. -/
theorem Laid.siftDownLoop_inner (hs : Laid self n) (h : 2 * x + 1 < n) (fuel : ℕ) :
    siftDownLoop compare node (fuel + 1) self (cell x) x =
      if compare (self.key node) (self.keyAt (child compare self n x)) ≤ 0 then
        some (self.place (cell x) node x)
      else
        siftDownLoop compare node fuel
          (self.place (cell x) (self.nodeAt (child compare self n x)) x)
          (cell (child compare self n x)) (child compare self n x) := by
  have hroom := hs.lt_slots h
  have hslots := hs.slots_lt
  have hlt : ¬ ((2 * x + 1 : ℕ) : ℤ) ≥ (n : ℤ) := by omega
  simp only [siftDownLoop, toInt_child (show x < 2 ^ 30 by omega), hs.nodes, if_neg hlt,
    hs.firstChild h, Option.bind_eq_bind, Option.bind_some]
  rfl

/-- **A sift that comes to slot `2 ^ 30`** looks for a slot with a negative number. -/
theorem Laid.siftDownLoop_deep (fuel : ℕ) (hs : Laid self n) (hx : x < self.numberOfSlots)
    (hdeep : ¬Shallow compare self n (self.key node) x) :
    siftDownLoop compare node fuel self (cell x) x = none := by
  induction fuel generalizing self x with
  | zero => rfl
  | succ fuel ih =>
      have hslots := hs.slots_lt
      rcases Nat.lt_or_ge x (2 ^ 30) with hlow | hhigh
      · obtain hthere | ⟨hin, hfollows, hrest⟩ := not_shallow_cases hdeep
        · exact (not_le.mpr hlow hthere).elim
        · rw [hs.siftDownLoop_inner hin, if_neg (not_le.mpr hfollows)]
          apply ih (hs.of_same (same_place ..)) _ (hrest _)
          exact hs.lt_slots (child_lt compare self hin)
      · have hneg := toInt_child_neg hhigh (by omega : x < 2 ^ 31)
        have hnodes := hs.nodes
        rw [siftDownLoop]
        generalize toInt ((2 * toUnsigned (x : ℤ) + 1) % 2 ^ 32) = number at hneg
        have hlocate : self.locateSlot number = none := if_neg (by omega)
        rw [if_neg (by omega), Heap.firstChild, hlocate]
        rfl

/-- A sift downwards from where only the edges below may be wrong. -/
theorem Laid.siftDownLoop_down (hc : TotalPreorder compare) (fuel : ℕ) (hs : Laid self n)
    (h : Sifting self n x node held)
    (hdown : Down (Le compare) n (self.key ∘ self.filled x node) x)
    (hshallow : Shallow compare self n (self.key node) x) (hfuel : n < x + fuel) :
    ∃ next, siftDownLoop compare node fuel self (cell x) x = some next ∧ Same self next ∧
      Stored next n held ∧ Ordered (Le compare) n next.keyAt := by
  induction fuel generalizing self x with
  | zero => exact absurd h.lt (by omega)
  | succ fuel ih =>
      have hend : (∀ i, 0 < i → i < n → parent i = x → Le compare (self.key node) (self.keyAt i)) →
          ∃ next, some (self.place (cell x) node x) = some next ∧ Same self next ∧
            Stored next n held ∧ Ordered (Le compare) n next.keyAt := by
        intro hbelow
        refine ⟨_, rfl, same_place .., h.fill, ?_⟩
        rw [keyAt_place]
        refine hdown.ordered fun i hi hin hp => ?_
        have hne : i ≠ x := fun he => (parent_lt hi).ne (he ▸ hp)
        simp only [Function.comp, filled_self, filled_of_ne hne]
        exact hbelow i hi hin hp
      by_cases hleaf : n ≤ 2 * x + 1
      · rw [hs.siftDownLoop_leaf (hshallow x (.stay x)) hleaf]
        exact hend fun i hi hin hp => by
          rcases (parent_eq_iff hi).mp hp with rfl | rfl <;> omega
      · have hin := Nat.not_le.mp hleaf
        have := hc.isTrans
        obtain ⟨hpos, hlt, hp, hfirst⟩ := child_spec self hc hin
        have hsink (hfollows) := hshallow.sink hin hfollows (self.nodeAt (child compare self n x))
        rw [hs.siftDownLoop_inner hin]
        generalize child compare self n x = y at *
        have hxy : x < y := hp ▸ parent_lt hpos
        split_ifs with hcmp
        · exact hend fun i hi hin hpi => trans_of (Le compare) hcmp (hfirst i hi hin hpi)
        · obtain ⟨hmove, hswap⟩ := h.move hlt hxy.ne'
          have hstep := hdown.swap_child hpos hlt hp
            (by
              simp only [Function.comp, filled_self, filled_of_ne hxy.ne']
              exact hc.le_of_nonneg (Int.not_le.mp hcmp).le)
            (fun i hi hin hpi => by
              have hne : i ≠ x := fun he => (parent_lt hi).ne (he ▸ hpi)
              simp only [Function.comp, filled_of_ne hxy.ne', filled_of_ne hne]
              exact hfirst i hi hin hpi)
          have hsame := same_place self (cell x) (self.nodeAt y) x
          obtain ⟨next, hrun, hsame', hstored, hord⟩ :=
            ih (hs.of_same hsame) hmove (by rw [hswap]; exact hstep)
              (hsink (Int.not_le.mp hcmp)) (by omega)
          exact ⟨next, hrun, hsame.trans hsame', hstored, hord⟩

/-- **`Heap_SiftNodeDown`**, where only the edges below the node may be wrong, puts the heap in
order. -/
theorem Laid.siftNodeDown_down (hc : TotalPreorder compare) (hs : Laid self n)
    (h : Stored self n held) (hx : x < n) (hdown : Down (Le compare) n self.keyAt x)
    (hshallow : Shallow compare self n (self.keyAt x) x) :
    ∃ next, self.siftNodeDown compare (cell x) = some next ∧ Same self next ∧
      Stored next n held ∧ Ordered (Le compare) n next.keyAt := by
  have hback : self.slotNumber (self.slots (cell x)) = x := h.back x hx
  have hdown' : Down (Le compare) n (self.key ∘ self.filled x (self.nodeAt x)) x := by
    rw [filled_nodeAt]
    exact hdown
  obtain ⟨next, hrun, hrest⟩ :=
    hs.siftDownLoop_down hc (n + 1) (h.sifting hx rfl) hdown' hshallow (by omega)
  refine ⟨next, ?_, hrest⟩
  rw [siftNodeDown, hback, hs.nodes]
  exact hrun

end Down

end Heap

end Pixy.Store
