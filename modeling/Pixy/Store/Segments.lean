import Pixy.Store.HeapRuns

/-!
# The segments of the heap

`Heap.c` once more, with its storage as it is: the vector holds pointers to segments, a slot is
reached through such a pointer, and segments come from `malloc` and go back by `free`. A segment is
named by the number of segments that were obtained before it, so one that was freed is never met
again under its name. Reading the vector beyond its length, and reaching into or freeing a segment
that is not there, is `none`.

* `obtained` and `freed` are ghosts: how many segments `malloc` has given, and which were freed, the
  latest first.
* `Refines` relates such a heap to the heap with slots, and each function does what its counterpart
  does (`SegmentRuns.lean`).
-/

namespace Pixy.Store

/-- A segment, by the number of those obtained before it. -/
abbrev SegmentId := ℕ

/-- A `struct HeapNode **`: a segment and an offset in it. -/
abbrev SlotPointer := SegmentId × ℕ

/-- A vector of pointers to segments. Source: `Vector.h`, `struct Vector`. -/
structure SegmentVector extends Vector where
  /-- The pointers from `elements` on. -/
  elements : ℕ → SegmentId

/-- `reallocated` is what `realloc` finds in the block, `none` where it fails; it keeps the pointers
that fit into both blocks. Source: `Vector.c`, `Vector_SetLength`. -/
def SegmentVector.setLength (self : SegmentVector) (length : ℤ)
    (reallocated : Option (ℕ → SegmentId)) :
    SegmentVector × Bool :=
  let size := nextPowerOfTwo (BitVec.ofInt 64 length * self.elementSize)
  if self.size = size then (self, true)
  else if size = 0 then ({ self with size := 0, length := 0 }, true)
  else
    match reallocated with
    | none => (self, false)
    | some found =>
      let length := (size / self.elementSize).toInt
      ({ self with
          elements := fun i => if i < self.length ∧ i < length then self.elements i else found i
          size := size
          length := length }, true)

/-- A heap, with the memory its segments and nodes live in.
Source: `Heap.h`, `struct Heap` and `struct HeapNode`. -/
structure SegmentedHeap (K : Type) where
  /-- The vector of segments. -/
  segmentVector : SegmentVector
  /-- The number of segments. -/
  numberOfSegments : ℤ
  /-- The number of slots there is room for. -/
  numberOfSlots : ℤ
  /-- The number of nodes held. -/
  numberOfNodes : ℤ
  /-- How many segments were obtained. -/
  obtained : ℕ
  /-- Those that were freed. -/
  freed : List SegmentId
  /-- The contents of the segments. -/
  memory : SegmentId → ℕ → NodeId
  /-- The `slotNumber` field of every node. -/
  slotNumber : NodeId → ℤ
  /-- What the comparer looks at in a node. -/
  key : NodeId → K

namespace SegmentedHeap

variable {K : Type}

/-- Source: `Heap.c`, `Heap_Initialize`. -/
def init (memory : SegmentId → ℕ → NodeId) (slotNumber : NodeId → ℤ) (key : NodeId → K) :
    SegmentedHeap K where
  segmentVector := { Vector.init 8 with elements := fun _ => 0 }
  numberOfSegments := 0
  numberOfSlots := 0
  numberOfNodes := 0
  obtained := 0
  freed := []
  memory := memory
  slotNumber := slotNumber
  key := key

/-- The segment was obtained and not freed. -/
def Allocated (self : SegmentedHeap K) (segment : SegmentId) : Prop :=
  segment < self.obtained ∧ segment ∉ self.freed

instance (self : SegmentedHeap K) (segment : SegmentId) : Decidable (self.Allocated segment) :=
  inferInstanceAs (Decidable (_ ∧ _))

/-- A pointer to a segment, as the vector has it. -/
def segmentAt (self : SegmentedHeap K) (i : ℤ) : Option SegmentId :=
  if 0 ≤ i ∧ i < self.segmentVector.length then
    let segment := self.segmentVector.elements i.toNat
    if self.Allocated segment then some segment else none
  else none

/-- Source: `Heap.c`, `Heap_LocateSlot`. -/
def locateSlot (self : SegmentedHeap K) (slotNumber : ℤ) : Option SlotPointer := do
  let segment ← self.segmentAt (toUnsigned slotNumber / heapSegmentLength : ℕ)
  return (segment, toUnsigned slotNumber % heapSegmentLength)

/-- `*slot`. -/
def load (self : SegmentedHeap K) (slot : SlotPointer) : NodeId := self.memory slot.1 slot.2

/-- `(*slot = node)->slotNumber = x`. -/
def place (self : SegmentedHeap K) (slot : SlotPointer) (node : NodeId) (x : ℤ) : SegmentedHeap K :=
  { self with
    memory := Function.update self.memory slot.1 (Function.update (self.memory slot.1) slot.2 node)
    slotNumber := Function.update self.slotNumber node x }

/-- `segment` is the new segment's contents, or `none` where `malloc` fails.
Source: `Heap.c`, `Heap_IncreaseSegments`. -/
def increaseSegments (self : SegmentedHeap K) (reallocated : Option (ℕ → SegmentId))
    (segment : Option (ℕ → NodeId)) : Option (SegmentedHeap K × Bool) :=
  let (segmentVector, grown) :=
    if self.numberOfSegments = self.segmentVector.length then
      self.segmentVector.setLength (self.numberOfSegments + 1) reallocated
    else (self.segmentVector, true)
  if !grown then some ({ self with segmentVector := segmentVector }, false)
  else
    match segment with
    | none => some ({ self with segmentVector := segmentVector }, false)
    | some contents =>
      if 0 ≤ self.numberOfSegments ∧ self.numberOfSegments < segmentVector.length then
        some ({ self with
            segmentVector := { segmentVector with
              elements := Function.update segmentVector.elements self.numberOfSegments.toNat
                self.obtained }
            obtained := self.obtained + 1
            memory := Function.update self.memory self.obtained contents
            numberOfSegments := self.numberOfSegments + 1
            numberOfSlots := self.numberOfSlots + heapSegmentLength }, true)
      else none

section Sifts

variable (compare : K → K → ℤ)

/-- The loop of `Heap_SiftNodeUp` and the assignment after it. -/
def siftUpLoop (node : NodeId) : ℕ → SegmentedHeap K → SlotPointer → ℤ → Option (SegmentedHeap K)
  | 0, _, _, _ => none
  | fuel + 1, self, slotX, x =>
    if x ≥ 1 then do
      let y := toInt (toUnsigned (x - 1) / 2)
      let slotY ← self.locateSlot y
      if compare (self.key node) (self.key (self.load slotY)) ≥ 0 then
        some (self.place slotX node x)
      else siftUpLoop node fuel (self.place slotX (self.load slotY) x) slotY y
    else some (self.place slotX node x)

/-- Source: `Heap.c`, `Heap_SiftNodeUp`. -/
def siftNodeUp (self : SegmentedHeap K) (slotX : SlotPointer) : Option (SegmentedHeap K) :=
  let node := self.load slotX
  let x := self.slotNumber node
  siftUpLoop compare node (x.toNat + 1) self slotX x

/-- Source: `Heap.c`, `Heap_SiftNodeDown`, the choice of a child. -/
def firstChild (self : SegmentedHeap K) (y : ℤ) : Option (SlotPointer × ℤ) := do
  let slotY ← self.locateSlot y
  let z := y + 1
  if z < self.numberOfNodes then
    let slotZ ← self.locateSlot z
    if compare (self.key (self.load slotZ)) (self.key (self.load slotY)) < 0 then some (slotZ, z)
    else some (slotY, y)
  else some (slotY, y)

/-- The loop of `Heap_SiftNodeDown` and the assignment after it. -/
def siftDownLoop (node : NodeId) : ℕ → SegmentedHeap K → SlotPointer → ℤ → Option (SegmentedHeap K)
  | 0, _, _, _ => none
  | fuel + 1, self, slotX, x =>
    let y := toInt ((2 * toUnsigned x + 1) % 2 ^ 32)
    if y ≥ self.numberOfNodes then some (self.place slotX node x)
    else do
      let (slotY, y) ← self.firstChild compare y
      if compare (self.key node) (self.key (self.load slotY)) ≤ 0 then
        some (self.place slotX node x)
      else siftDownLoop node fuel (self.place slotX (self.load slotY) x) slotY y

/-- Source: `Heap.c`, `Heap_SiftNodeDown`. -/
def siftNodeDown (self : SegmentedHeap K) (slotX : SlotPointer) : Option (SegmentedHeap K) :=
  let node := self.load slotX
  siftDownLoop compare node (self.numberOfNodes.toNat + 1) self slotX (self.slotNumber node)

/-! ## The operations -/

/-- Source: `Heap.c`, `Heap_InsertNode`, after the slot is there. -/
def insertInSlot (self : SegmentedHeap K) (node : NodeId) : Option (SegmentedHeap K) := do
  let slot ← self.locateSlot self.numberOfNodes
  let self := { self.place slot node self.numberOfNodes with
    numberOfNodes := self.numberOfNodes + 1 }
  self.siftNodeUp compare slot

/-- Source: `Heap.c`, `Heap_InsertNode`. -/
def insertNode (self : SegmentedHeap K) (node : NodeId) (reallocated : Option (ℕ → SegmentId))
    (segment : Option (ℕ → NodeId)) : Option (SegmentedHeap K × Bool) :=
  if self.numberOfNodes = self.numberOfSlots then
    (self.increaseSegments reallocated segment).bind fun
      | (self, false) => some (self, false)
      | (self, true) => (self.insertInSlot compare node).map (·, true)
  else (self.insertInSlot compare node).map (·, true)

/-- Source: `Heap.c`, `Heap_AdjustNode`. -/
def adjustNode (self : SegmentedHeap K) (node : NodeId) : Option (SegmentedHeap K) := do
  let slot ← self.locateSlot (self.slotNumber node)
  let self ← self.siftNodeUp compare slot
  if self.load slot ≠ node then some self else self.siftNodeDown compare slot

/-- Source: `Heap.c`, `Heap_RemoveNode`. -/
def removeNode (self : SegmentedHeap K) (node : NodeId) : Option (SegmentedHeap K) := do
  let slot ← self.locateSlot (self.slotNumber node)
  let self := { self with numberOfNodes := self.numberOfNodes - 1 }
  let last ← self.locateSlot self.numberOfNodes
  let self := self.place slot (self.load last) (self.slotNumber node)
  let delta := compare (self.key (self.load slot)) (self.key node)
  if delta = 0 then some self
  else if delta < 0 then self.siftNodeUp compare slot
  else self.siftNodeDown compare slot

end Sifts

/-- `free(segments[i])`. -/
def freeSegment (self : SegmentedHeap K) (i : ℤ) : Option (SegmentedHeap K) := do
  let segment ← self.segmentAt i
  return { self with freed := segment :: self.freed }

/-- The loop that frees the segments from `i` down to the number of those that stay.
Source: `Heap.c`, `Heap_ShrinkToFit` and `Heap_Finalize`. -/
def freeSegments (numberOfSegments : ℤ) : ℕ → SegmentedHeap K → ℤ → Option (SegmentedHeap K)
  | 0, _, _ => none
  | fuel + 1, self, i => do
    let self ← self.freeSegment i
    let i := i - 1
    if i ≥ numberOfSegments then freeSegments numberOfSegments fuel self i else some self

/-- Source: `Heap.c`, `Heap_ShrinkToFit`, the segments that go. -/
def dropSegments (self : SegmentedHeap K) (numberOfSegments : ℤ) : Option (SegmentedHeap K) :=
  if self.numberOfSegments > numberOfSegments then do
    let self ← freeSegments numberOfSegments (self.numberOfSegments - numberOfSegments).toNat self
      (self.numberOfSegments - 1)
    return { self with
      numberOfSegments := numberOfSegments
      numberOfSlots := numberOfSegments * heapSegmentLength }
  else some self

/-- Source: `Heap.c`, `Heap_ShrinkToFit`. -/
def shrinkToFit (self : SegmentedHeap K) (reallocated : Option (ℕ → SegmentId)) :
    Option (SegmentedHeap K × Bool) := do
  let numberOfSegments :=
    toInt (toUnsigned (self.numberOfNodes + heapSegmentLength - 1) / heapSegmentLength)
  let self ← self.dropSegments numberOfSegments
  let (segmentVector, fitted) := self.segmentVector.setLength numberOfSegments reallocated
  return ({ self with segmentVector := segmentVector }, fitted)

/-- Source: `Heap.c`, `Heap_Finalize`; the block of the vector is freed too. -/
def finalize (self : SegmentedHeap K) : Option (SegmentedHeap K) :=
  if self.numberOfSegments ≥ 1 then
    freeSegments 0 self.numberOfSegments.toNat self (self.numberOfSegments - 1)
  else some self

end SegmentedHeap

/-! ## A heap in use -/

/-- A heap and, as a ghost, the nodes inserted and not yet removed. -/
structure SegmentedState (K : Type) where
  /-- The heap. -/
  heap : SegmentedHeap K
  /-- The nodes it is to hold. -/
  held : Finset NodeId

/-- A call of a heap operation, with what the user writes into a node's key just before it and the
outcome of the allocations it may make. -/
inductive SegmentedAction (K : Type)
  /-- `Heap_InsertNode` of a node with that key. -/
  | insertNode (node : NodeId) (key : K) (reallocated : Option (ℕ → SegmentId))
    (segment : Option (ℕ → NodeId))
  /-- `Heap_RemoveNode`. -/
  | removeNode (node : NodeId)
  /-- `Heap_AdjustNode` of a node whose key was changed to that. -/
  | adjustNode (node : NodeId) (key : K)
  /-- `Heap_ShrinkToFit`. -/
  | shrinkToFit (reallocated : Option (ℕ → SegmentId))

/-- The same call of the heap with slots. -/
def SegmentedAction.flat {K : Type} : SegmentedAction K → HeapAction K
  | .insertNode node key reallocated segment => .insertNode node key reallocated.isSome segment
  | .removeNode node => .removeNode node
  | .adjustNode node key => .adjustNode node key
  | .shrinkToFit reallocated => .shrinkToFit reallocated.isSome

namespace SegmentedState

variable {K : Type}

/-- What the callers promise: a node is inserted when it is not in the heap, removed and adjusted
when it is, and at most `2 ^ 30` nodes are held. -/
def Enabled (s : SegmentedState K) : SegmentedAction K → Prop
  | .insertNode node _ _ _ => node ∉ s.held ∧ s.held.card < 2 ^ 30
  | .removeNode node | .adjustNode node _ => node ∈ s.held
  | .shrinkToFit _ => True

instance (s : SegmentedState K) : (action : SegmentedAction K) → Decidable (s.Enabled action)
  | .insertNode node _ _ _ => inferInstanceAs (Decidable (node ∉ s.held ∧ s.held.card < 2 ^ 30))
  | .removeNode node | .adjustNode node _ => inferInstanceAs (Decidable (node ∈ s.held))
  | .shrinkToFit _ => isTrue trivial

/-- The heap after the user has written a key. -/
def setKey (s : SegmentedState K) (node : NodeId) (key : K) : SegmentedHeap K :=
  { s.heap with key := Function.update s.heap.key node key }

/-- The state an operation leaves. -/
def apply (compare : K → K → ℤ) (s : SegmentedState K) :
    SegmentedAction K → Option (SegmentedState K)
  | .insertNode node key reallocated segment =>
    ((s.setKey node key).insertNode compare node reallocated segment).map fun (heap, ok) =>
      { heap := heap, held := if ok then insert node s.held else s.held }
  | .removeNode node =>
    (s.heap.removeNode compare node).map fun heap => { heap := heap, held := s.held.erase node }
  | .adjustNode node key =>
    ((s.setKey node key).adjustNode compare node).map fun heap => { heap := heap, held := s.held }
  | .shrinkToFit reallocated =>
    (s.heap.shrinkToFit reallocated).map fun (heap, _) => { s with heap := heap }

end SegmentedState

/-- **A heap under any sequence of calls**, with its segments. -/
def segmentedSystem {K : Type} (compare : K → K → ℤ) :
    Pixy.Found.StepSystem (SegmentedState K) (SegmentedAction K) where
  init s := (∃ memory slotNumber key, s.heap = .init memory slotNumber key) ∧ s.held = ∅
  step s action := if s.Enabled action then s.apply compare action else none

end Pixy.Store
