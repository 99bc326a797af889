import Mathlib
import Pixy.Found.HeapOrder
import Pixy.Found.Runs
import Pixy.Store.Vector

/-!
# The intrusive heap

`Heap.c` as state passing. A node is named by its address; its `slotNumber` and the key the comparer
looks at are functions of that address. The slots are cells: the number of a segment and an offset
in it. A new segment comes from `malloc` with whatever contents it has; a slot number for which
there is no segment is out of bounds, and reading or writing there is `none`.

`int` is `ℤ`, with the conversions to and from `unsigned int` where the code makes them
(`toUnsigned`, `toInt`). The two sifts are loops on fuel; the fuel they are called with is enough
for every heap (`HeapRuns.lean`).

`heapSystem` is a heap under any sequence of calls, each allocation failing or not.
-/

namespace Pixy.Store

open Pixy.Found

/-- A node, by the address of its `struct HeapNode`. -/
abbrev NodeId := ℕ

/-- A slot, as segment and offset. -/
abbrev Cell := ℕ × ℕ

/-- Source: `Heap.c`, `HEAP_SEGMENT_LENGTH`. -/
def heapSegmentLength : ℕ := 256

/-- The conversion of an `int` to `unsigned int`. -/
def toUnsigned (x : ℤ) : ℕ := (x % 2 ^ 32).toNat

/-- The conversion of an `unsigned int` to `int`. -/
def toInt (x : ℕ) : ℤ := Int.bmod x (2 ^ 32)

/-- A heap, with the memory its nodes live in.
Source: `Heap.h`, `struct Heap` and `struct HeapNode`. -/
structure Heap (K : Type) where
  /-- The vector of segments. -/
  segmentVector : Vector
  /-- The number of segments. -/
  numberOfSegments : ℤ
  /-- The number of slots there is room for. -/
  numberOfSlots : ℤ
  /-- The number of nodes held. -/
  numberOfNodes : ℤ
  /-- The contents of the slots. -/
  slots : Cell → NodeId
  /-- The `slotNumber` field of every node. -/
  slotNumber : NodeId → ℤ
  /-- What the comparer looks at in a node. -/
  key : NodeId → K

namespace Heap

variable {K : Type}

/-- Source: `Heap.c`, `Heap_Initialize`. -/
def init (slots : Cell → NodeId) (slotNumber : NodeId → ℤ) (key : NodeId → K) : Heap K where
  segmentVector := .init 8
  numberOfSegments := 0
  numberOfSlots := 0
  numberOfNodes := 0
  slots := slots
  slotNumber := slotNumber
  key := key

/-- Source: `Heap.c`, `Heap_LocateSlot`; `none` where the slot number is out of bounds. -/
def locateSlot (self : Heap K) (slotNumber : ℤ) : Option Cell :=
  if 0 ≤ slotNumber ∧ slotNumber < self.numberOfSlots then
    some (toUnsigned slotNumber / heapSegmentLength, toUnsigned slotNumber % heapSegmentLength)
  else none

/-- `(*slot = node)->slotNumber = x`. -/
def place (self : Heap K) (slot : Cell) (node : NodeId) (x : ℤ) : Heap K :=
  { self with
    slots := Function.update self.slots slot node
    slotNumber := Function.update self.slotNumber node x }

/-- `segment` is the new segment's contents, or `none` where `malloc` fails.
Source: `Heap.c`, `Heap_IncreaseSegments`. -/
def increaseSegments (self : Heap K) (reallocated : Bool) (segment : Option (ℕ → NodeId)) :
    Heap K × Bool :=
  let (segmentVector, grown) :=
    if self.numberOfSegments = self.segmentVector.length then
      self.segmentVector.setLength (self.numberOfSegments + 1) reallocated
    else (self.segmentVector, true)
  if !grown then ({ self with segmentVector := segmentVector }, false)
  else
    match segment with
    | none => ({ self with segmentVector := segmentVector }, false)
    | some contents =>
      ({ self with
          segmentVector := segmentVector
          slots := fun cell =>
            if cell.1 = self.numberOfSegments.toNat then contents cell.2 else self.slots cell
          numberOfSegments := self.numberOfSegments + 1
          numberOfSlots := self.numberOfSlots + heapSegmentLength }, true)

section Sifts

variable (compare : K → K → ℤ)

/-- The loop of `Heap_SiftNodeUp` and the assignment after it. -/
def siftUpLoop (node : NodeId) : ℕ → Heap K → Cell → ℤ → Option (Heap K)
  | 0, _, _, _ => none
  | fuel + 1, self, slotX, x =>
    if x ≥ 1 then do
      let y := toInt (toUnsigned (x - 1) / 2)
      let slotY ← self.locateSlot y
      if compare (self.key node) (self.key (self.slots slotY)) ≥ 0 then
        some (self.place slotX node x)
      else siftUpLoop node fuel (self.place slotX (self.slots slotY) x) slotY y
    else some (self.place slotX node x)

/-- Source: `Heap.c`, `Heap_SiftNodeUp`. -/
def siftNodeUp (self : Heap K) (slotX : Cell) : Option (Heap K) :=
  let node := self.slots slotX
  let x := self.slotNumber node
  siftUpLoop compare node (x.toNat + 1) self slotX x

/-- The child slot a sift downwards looks at: the first, or the second where there is one and its
node comes before the first's. -/
def firstChild (self : Heap K) (y : ℤ) : Option (Cell × ℤ) := do
  let slotY ← self.locateSlot y
  let z := y + 1
  if z < self.numberOfNodes then
    let slotZ ← self.locateSlot z
    if compare (self.key (self.slots slotZ)) (self.key (self.slots slotY)) < 0 then some (slotZ, z)
    else some (slotY, y)
  else some (slotY, y)

/-- The loop of `Heap_SiftNodeDown` and the assignment after it. -/
def siftDownLoop (node : NodeId) : ℕ → Heap K → Cell → ℤ → Option (Heap K)
  | 0, _, _, _ => none
  | fuel + 1, self, slotX, x =>
    let y := toInt ((2 * toUnsigned x + 1) % 2 ^ 32)
    if y ≥ self.numberOfNodes then some (self.place slotX node x)
    else do
      let (slotY, y) ← self.firstChild compare y
      if compare (self.key node) (self.key (self.slots slotY)) ≤ 0 then
        some (self.place slotX node x)
      else siftDownLoop node fuel (self.place slotX (self.slots slotY) x) slotY y

/-- Source: `Heap.c`, `Heap_SiftNodeDown`. -/
def siftNodeDown (self : Heap K) (slotX : Cell) : Option (Heap K) :=
  let node := self.slots slotX
  siftDownLoop compare node (self.numberOfNodes.toNat + 1) self slotX (self.slotNumber node)

/-! ## The operations -/

/-- Source: `Heap.c`, `Heap_InsertNode`, after the slot is there. -/
def insertInSlot (self : Heap K) (node : NodeId) : Option (Heap K) := do
  let slot ← self.locateSlot self.numberOfNodes
  let self := { self.place slot node self.numberOfNodes with
    numberOfNodes := self.numberOfNodes + 1 }
  self.siftNodeUp compare slot

/-- Source: `Heap.c`, `Heap_InsertNode`. -/
def insertNode (self : Heap K) (node : NodeId) (reallocated : Bool)
    (segment : Option (ℕ → NodeId)) : Option (Heap K × Bool) :=
  if self.numberOfNodes = self.numberOfSlots then
    match self.increaseSegments reallocated segment with
    | (self, false) => some (self, false)
    | (self, true) => (self.insertInSlot compare node).map (·, true)
  else (self.insertInSlot compare node).map (·, true)

/-- Source: `Heap.c`, `Heap_AdjustNode`. -/
def adjustNode (self : Heap K) (node : NodeId) : Option (Heap K) := do
  let slot ← self.locateSlot (self.slotNumber node)
  let self ← self.siftNodeUp compare slot
  if self.slots slot ≠ node then some self else self.siftNodeDown compare slot

/-- Source: `Heap.c`, `Heap_RemoveNode`. -/
def removeNode (self : Heap K) (node : NodeId) : Option (Heap K) := do
  let slot ← self.locateSlot (self.slotNumber node)
  let self := { self with numberOfNodes := self.numberOfNodes - 1 }
  let last ← self.locateSlot self.numberOfNodes
  let self := self.place slot (self.slots last) (self.slotNumber node)
  let delta := compare (self.key (self.slots slot)) (self.key node)
  if delta = 0 then some self
  else if delta < 0 then self.siftNodeUp compare slot
  else self.siftNodeDown compare slot

end Sifts

/-- Source: `Heap.c`, `Heap_ShrinkToFit`. -/
def shrinkToFit (self : Heap K) (reallocated : Bool) : Heap K × Bool :=
  let numberOfSegments :=
    toInt (toUnsigned (self.numberOfNodes + heapSegmentLength - 1) / heapSegmentLength)
  let self :=
    if self.numberOfSegments > numberOfSegments then
      { self with
        numberOfSegments := numberOfSegments
        numberOfSlots := numberOfSegments * heapSegmentLength }
    else self
  let (segmentVector, fitted) := self.segmentVector.setLength numberOfSegments reallocated
  ({ self with segmentVector := segmentVector }, fitted)

/-- `none` for `NULL`.
Source: `Heap.h`, `Heap_GetTop`. -/
def getTop (self : Heap K) : Option NodeId :=
  if self.numberOfNodes = 0 then none else some (self.slots (0, 0))

end Heap

/-! ## A heap in use -/

/-- A heap and, as a ghost, the nodes inserted and not yet removed. -/
structure HeapState (K : Type) where
  /-- The heap. -/
  heap : Heap K
  /-- The nodes it is to hold. -/
  held : Finset NodeId

/-- A call of a heap operation, with what the user writes into a node's key just before it and the
outcome of the allocations it may make. -/
inductive HeapAction (K : Type)
  /-- `Heap_InsertNode` of a node with that key. -/
  | insertNode (node : NodeId) (key : K) (reallocated : Bool) (segment : Option (ℕ → NodeId))
  /-- `Heap_RemoveNode`. -/
  | removeNode (node : NodeId)
  /-- `Heap_AdjustNode` of a node whose key was changed to that. -/
  | adjustNode (node : NodeId) (key : K)
  /-- `Heap_ShrinkToFit`. -/
  | shrinkToFit (reallocated : Bool)

namespace HeapState

variable {K : Type}

/-- What the callers promise: a node is inserted when it is not in the heap, removed and adjusted
when it is, and at most `2 ^ 30` nodes are held. -/
def Enabled (s : HeapState K) : HeapAction K → Prop
  | .insertNode node _ _ _ => node ∉ s.held ∧ s.held.card < 2 ^ 30
  | .removeNode node | .adjustNode node _ => node ∈ s.held
  | .shrinkToFit _ => True

instance (s : HeapState K) : (action : HeapAction K) → Decidable (s.Enabled action)
  | .insertNode node _ _ _ => inferInstanceAs (Decidable (node ∉ s.held ∧ s.held.card < 2 ^ 30))
  | .removeNode node | .adjustNode node _ => inferInstanceAs (Decidable (node ∈ s.held))
  | .shrinkToFit _ => isTrue trivial

/-- The heap after the user has written a key. -/
def setKey (s : HeapState K) (node : NodeId) (key : K) : Heap K :=
  { s.heap with key := Function.update s.heap.key node key }

/-- The state an operation leaves. -/
def apply (compare : K → K → ℤ) (s : HeapState K) : HeapAction K → Option (HeapState K)
  | .insertNode node key reallocated segment =>
    ((s.setKey node key).insertNode compare node reallocated segment).map fun (heap, ok) =>
      { heap := heap, held := if ok then insert node s.held else s.held }
  | .removeNode node =>
    (s.heap.removeNode compare node).map fun heap => { heap := heap, held := s.held.erase node }
  | .adjustNode node key =>
    ((s.setKey node key).adjustNode compare node).map fun heap => { heap := heap, held := s.held }
  | .shrinkToFit reallocated => some { s with heap := (s.heap.shrinkToFit reallocated).1 }

end HeapState

/-- **A heap under any sequence of calls.** -/
def heapSystem {K : Type} (compare : K → K → ℤ) : StepSystem (HeapState K) (HeapAction K) where
  init s := (∃ slots slotNumber key, s.heap = .init slots slotNumber key) ∧ s.held = ∅
  step s action := if s.Enabled action then s.apply compare action else none

end Pixy.Store
