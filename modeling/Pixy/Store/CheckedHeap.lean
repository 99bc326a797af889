import Pixy.Found.Process
import Pixy.Store.Heap

/-!
# The heap's arithmetic, listed

`Heap.c` once more, with a list of what its arithmetic has to meet: the values of the signed
expressions, the numbers of children that are compared with the number of nodes, and the slot
numbers that are located (`IndexCheck`). Without the list the functions are those of `Heap.lean`
(`Follows`).
-/

namespace Pixy.Store

open Pixy.Found Pixy.Found.Process

/-- What the arithmetic has to meet. -/
inductive IndexCheck
  /-- The value of a signed expression. -/
  | signed (value : ℤ)
  /-- The number of a child, as it is compared with the number of nodes, and as it should be. -/
  | child (number exact : ℤ)
  /-- A slot number that is located, and the number of slots. -/
  | slot (slotNumber numberOfSlots : ℤ)
  deriving DecidableEq

/-- It is met. -/
def IndexCheck.Ok : IndexCheck → Prop
  | .signed value => -2 ^ 31 ≤ value ∧ value < 2 ^ 31
  | .child number exact => number = exact
  | .slot slotNumber numberOfSlots => 0 ≤ slotNumber ∧ slotNumber < numberOfSlots

/-- Code that lists what it has to meet, newest first, and stops where it is undefined. -/
abbrev Checked (α : Type) := Process (List IndexCheck) Unit α

namespace Heap.Checked

variable {K : Type}

/-- One more thing to meet. -/
def check (item : IndexCheck) : Checked Unit := modify (item :: ·)

/-- A signed expression. -/
def signed (value : ℤ) : Checked ℤ := do
  check (.signed value)
  return value

/-- Source: `Heap.c`, `Heap_LocateSlot`. -/
def locateSlot (self : Heap K) (slotNumber : ℤ) : Checked Cell := do
  check (.slot slotNumber self.numberOfSlots)
  match self.locateSlot slotNumber with
  | some slot => pure slot
  | none => throw ()

/-- Source: `Heap.c`, `Heap_IncreaseSegments`, the first half. -/
def growVector (self : Heap K) (reallocated : Bool) : Checked (Vector × Bool) :=
  if self.numberOfSegments = self.segmentVector.length then do
    let length ← signed (self.numberOfSegments + 1)
    return self.segmentVector.setLength length reallocated
  else pure (self.segmentVector, true)

/-- Source: `Heap.c`, `Heap_IncreaseSegments`. -/
def increaseSegments (self : Heap K) (reallocated : Bool) (segment : Option (ℕ → NodeId)) :
    Checked (Heap K × Bool) := do
  let (segmentVector, grown) ← growVector self reallocated
  if !grown then pure ({ self with segmentVector := segmentVector }, false)
  else
    match segment with
    | none => pure ({ self with segmentVector := segmentVector }, false)
    | some contents => do
      let numberOfSegments ← signed (self.numberOfSegments + 1)
      let numberOfSlots ← signed (self.numberOfSlots + heapSegmentLength)
      return ({ self with
          segmentVector := segmentVector
          slots := fun cell =>
            if cell.1 = self.numberOfSegments.toNat then contents cell.2 else self.slots cell
          numberOfSegments := numberOfSegments
          numberOfSlots := numberOfSlots }, true)

section Sifts

variable (compare : K → K → ℤ)

/-- Source: `Heap.c`, `Heap_SiftNodeUp`. -/
def siftUpLoop (node : NodeId) : ℕ → Heap K → Cell → ℤ → Checked (Heap K)
  | 0, _, _, _ => throw ()
  | fuel + 1, self, slotX, x =>
    if x ≥ 1 then do
      let before ← signed (x - 1)
      let y := toInt (toUnsigned before / 2)
      let slotY ← locateSlot self y
      if compare (self.key node) (self.key (self.slots slotY)) ≥ 0 then
        pure (self.place slotX node x)
      else siftUpLoop node fuel (self.place slotX (self.slots slotY) x) slotY y
    else pure (self.place slotX node x)

/-- Source: `Heap.c`, `Heap_SiftNodeUp`. -/
def siftNodeUp (self : Heap K) (slotX : Cell) : Checked (Heap K) :=
  let node := self.slots slotX
  let x := self.slotNumber node
  siftUpLoop compare node (x.toNat + 1) self slotX x

/-- Source: `Heap.c`, `Heap_SiftNodeDown`, the choice of a child. -/
def firstChild (self : Heap K) (x y : ℤ) : Checked (Cell × ℤ) := do
  let slotY ← locateSlot self y
  let z ← signed (y + 1)
  check (.child z (2 * x + 2))
  if z < self.numberOfNodes then do
    let slotZ ← locateSlot self z
    if compare (self.key (self.slots slotZ)) (self.key (self.slots slotY)) < 0 then pure (slotZ, z)
    else pure (slotY, y)
  else pure (slotY, y)

/-- Source: `Heap.c`, `Heap_SiftNodeDown`. -/
def siftDownLoop (node : NodeId) : ℕ → Heap K → Cell → ℤ → Checked (Heap K)
  | 0, _, _, _ => throw ()
  | fuel + 1, self, slotX, x => do
    let y := toInt ((2 * toUnsigned x + 1) % 2 ^ 32)
    check (.child y (2 * x + 1))
    if y ≥ self.numberOfNodes then pure (self.place slotX node x)
    else do
      let (slotY, y) ← firstChild compare self x y
      if compare (self.key node) (self.key (self.slots slotY)) ≤ 0 then
        pure (self.place slotX node x)
      else siftDownLoop node fuel (self.place slotX (self.slots slotY) x) slotY y

/-- Source: `Heap.c`, `Heap_SiftNodeDown`. -/
def siftNodeDown (self : Heap K) (slotX : Cell) : Checked (Heap K) :=
  let node := self.slots slotX
  siftDownLoop compare node (self.numberOfNodes.toNat + 1) self slotX (self.slotNumber node)

/-- Source: `Heap.c`, `Heap_InsertNode`, after the slot is there. -/
def insertInSlot (self : Heap K) (node : NodeId) : Checked (Heap K) := do
  let slot ← locateSlot self self.numberOfNodes
  let numberOfNodes ← signed (self.numberOfNodes + 1)
  let self := { self.place slot node self.numberOfNodes with numberOfNodes := numberOfNodes }
  siftNodeUp compare self slot

/-- Source: `Heap.c`, `Heap_InsertNode`, the beginning. -/
def makeRoom (self : Heap K) (reallocated : Bool) (segment : Option (ℕ → NodeId)) :
    Checked (Heap K × Bool) :=
  if self.numberOfNodes = self.numberOfSlots then increaseSegments self reallocated segment
  else pure (self, true)

/-- Source: `Heap.c`, `Heap_InsertNode`. -/
def insertNode (self : Heap K) (node : NodeId) (reallocated : Bool)
    (segment : Option (ℕ → NodeId)) : Checked (Heap K × Bool) := do
  let (self, grown) ← makeRoom self reallocated segment
  if grown then do
    let self ← insertInSlot compare self node
    return (self, true)
  else pure (self, false)

/-- Source: `Heap.c`, `Heap_AdjustNode`. -/
def adjustNode (self : Heap K) (node : NodeId) : Checked (Heap K) := do
  let slot ← locateSlot self (self.slotNumber node)
  let self ← siftNodeUp compare self slot
  if self.slots slot ≠ node then pure self else siftNodeDown compare self slot

/-- Source: `Heap.c`, `Heap_RemoveNode`. -/
def removeNode (self : Heap K) (node : NodeId) : Checked (Heap K) := do
  let slot ← locateSlot self (self.slotNumber node)
  let numberOfNodes ← signed (self.numberOfNodes - 1)
  let self := { self with numberOfNodes := numberOfNodes }
  let last ← locateSlot self self.numberOfNodes
  let self := self.place slot (self.slots last) (self.slotNumber node)
  let delta := compare (self.key (self.slots slot)) (self.key node)
  if delta = 0 then pure self
  else if delta < 0 then siftNodeUp compare self slot
  else siftNodeDown compare self slot

end Sifts

/-- The loop over the segments that are freed: `i` counts down as long as it is not below the number
of those that stay.
Source: `Heap.c`, `Heap_ShrinkToFit`. -/
def freeSegments (numberOfSegments : ℤ) : ℕ → ℤ → Checked Unit
  | 0, _ => pure ()
  | fuel + 1, i => do
    let i ← signed (i - 1)
    if i ≥ numberOfSegments then freeSegments numberOfSegments fuel i else pure ()

/-- Source: `Heap.c`, `Heap_ShrinkToFit`, the segments that go. -/
def dropSegments (self : Heap K) (numberOfSegments : ℤ) : Checked Unit :=
  if self.numberOfSegments > numberOfSegments then do
    let i ← signed (self.numberOfSegments - 1)
    freeSegments numberOfSegments (self.numberOfSegments - numberOfSegments).toNat i
  else pure ()

/-- Source: `Heap.c`, `Heap_ShrinkToFit`. -/
def shrinkToFit (self : Heap K) (reallocated : Bool) : Checked (Heap K × Bool) := do
  let sum ← signed (self.numberOfNodes + heapSegmentLength)
  let sum ← signed (sum - 1)
  dropSegments self (toInt (toUnsigned sum / heapSegmentLength))
  return self.shrinkToFit reallocated

/-! ## Without the list -/

/-- Without the list it is the function of the model. -/
def Follows {α : Type} (p : Checked α) (result : Option α) : Prop :=
  ∀ items, (p.exec items).1 = match result with
    | some value => .ok value
    | none => .error ()

section Follows

variable {α β : Type} {p : Checked α} {result : Option α} {compare : K → K → ℤ} {self : Heap K}

/-- Returning a value lists nothing, and is what the function of the model returns. -/
theorem follows_pure (value : α) : Follows (pure value) (some value) := fun _ => rfl

/-- Stopping stands for the case in which the function of the model has no value. -/
theorem follows_throw : Follows (throw () : Checked α) none := fun _ => rfl

/-- Two pieces of code in sequence: if each follows its function, both follow the two in
sequence. -/
theorem Follows.bind {f : α → Checked β} {g : α → Option β} (hp : Follows p result)
    (hf : ∀ value, Follows (f value) (g value)) : Follows (p >>= f) (result.bind g) := by
  intro items
  have hfirst := hp items
  rw [exec_bind]
  rcases hresult : p.exec items with ⟨ending, items'⟩
  rw [hresult] at hfirst
  rcases result with _ | value
  · obtain rfl : ending = .error () := hfirst
    rfl
  · obtain rfl : ending = .ok value := hfirst
    exact hf value items'

/-- The same where the first function is total, so that the second is reached with its value. -/
theorem Follows.bind_some {f : α → Checked β} {value : α} {result' : Option β}
    (hp : Follows p (some value)) (hf : Follows (f value) result') : Follows (p >>= f) result' := by
  intro items
  have hfirst := hp items
  rw [exec_bind]
  rcases hresult : p.exec items with ⟨ending, items'⟩
  rw [hresult] at hfirst
  obtain rfl : ending = .ok value := hfirst
  exact hf items'

/-- One more thing to meet does not change what the code computes. -/
theorem Follows.check (item : IndexCheck) (hp : Follows p result) :
    Follows (do check item; p) result :=
  fun items => hp (item :: items)

/-- Listing a signed expression does not change its value: the integers of the model do not
overflow. -/
theorem Follows.signed {value : ℤ} {f : ℤ → Checked α} (hf : Follows (f value) result) :
    Follows (signed value >>= f) result :=
  fun items => hf (.signed value :: items)

/-- The two sides of a test follow theirs, each under what the test has told. -/
theorem Follows.ite {c : Prop} [Decidable c] {p' : Checked α} {result' : Option α}
    (hp : c → Follows p result) (hp' : ¬c → Follows p' result') :
    Follows (if c then p else p') (if c then result else result') := by
  split_ifs with hc
  · exact hp hc
  · exact hp' hc

/-- Locating a slot lists its number and finds what the model finds, or stops where that has
nothing. -/
theorem follows_locateSlot (self : Heap K) (slotNumber : ℤ) :
    Follows (locateSlot self slotNumber) (self.locateSlot slotNumber) := by
  apply Follows.check
  rcases self.locateSlot slotNumber with _ | slot
  · exact follows_throw
  · exact follows_pure slot

/-- The loop upwards follows the model's, round by round, by induction on the fuel. -/
theorem follows_siftUpLoop (node : NodeId) (fuel : ℕ) (self : Heap K) (slotX : Cell) (x : ℤ) :
    Follows (siftUpLoop compare node fuel self slotX x)
      (Heap.siftUpLoop compare node fuel self slotX x) := by
  induction fuel generalizing self slotX x with
  | zero => exact follows_throw
  | succ fuel ih =>
      refine .ite (fun _ => .signed ?_) fun _ => follows_pure _
      refine .bind (follows_locateSlot self _) fun slotY => ?_
      exact .ite (fun _ => follows_pure _) fun _ => ih _ _ _

/-- The sift upwards follows the model's: it is the loop with the fuel that the node's slot number
allows. -/
theorem follows_siftNodeUp (self : Heap K) (slotX : Cell) :
    Follows (siftNodeUp compare self slotX) (self.siftNodeUp compare slotX) :=
  follows_siftUpLoop _ _ _ _ _

/-- Choosing the child to compare with follows the model's, with the number of the second child
listed. -/
theorem follows_firstChild (self : Heap K) (x y : ℤ) :
    Follows (firstChild compare self x y) (self.firstChild compare y) := by
  refine .bind (follows_locateSlot self y) fun slotY => .signed (.check _ ?_)
  refine .ite (fun _ => ?_) fun _ => follows_pure _
  refine .bind (follows_locateSlot self _) fun slotZ => ?_
  exact .ite (fun _ => follows_pure _) fun _ => follows_pure _

/-- The loop downwards follows the model's, round by round, by induction on the fuel. -/
theorem follows_siftDownLoop (node : NodeId) (fuel : ℕ) (self : Heap K) (slotX : Cell) (x : ℤ) :
    Follows (siftDownLoop compare node fuel self slotX x)
      (Heap.siftDownLoop compare node fuel self slotX x) := by
  induction fuel generalizing self slotX x with
  | zero => exact follows_throw
  | succ fuel ih =>
      rw [siftDownLoop, Heap.siftDownLoop]
      generalize toInt ((2 * toUnsigned x + 1) % 2 ^ 32) = y
      refine .check _ (.ite (fun _ => follows_pure _) fun _ => ?_)
      refine .bind (follows_firstChild self x y) fun next => ?_
      exact .ite (fun _ => follows_pure _) fun _ => ih _ _ _

/-- The sift downwards follows the model's: it is the loop with the fuel that the number of nodes
allows. -/
theorem follows_siftNodeDown (self : Heap K) (slotX : Cell) :
    Follows (siftNodeDown compare self slotX) (self.siftNodeDown compare slotX) :=
  follows_siftDownLoop _ _ _ _ _

/-- Growing the vector of segments follows what the model writes in place: it is grown only where it
is full. -/
theorem follows_growVector (self : Heap K) (reallocated : Bool) :
    Follows (growVector self reallocated) (some
      (if self.numberOfSegments = self.segmentVector.length then
        self.segmentVector.setLength (self.numberOfSegments + 1) reallocated
      else (self.segmentVector, true))) := by
  unfold growVector
  split_ifs
  · exact .signed (follows_pure _)
  · exact follows_pure _

/-- A new segment is added as in the model, and not where the vector or the segment cannot be
allocated. -/
theorem follows_increaseSegments (self : Heap K) (reallocated : Bool)
    (segment : Option (ℕ → NodeId)) : Follows (increaseSegments self reallocated segment)
      (some (self.increaseSegments reallocated segment)) := by
  refine .bind_some (follows_growVector self reallocated) ?_
  unfold Heap.increaseSegments
  rcases (if self.numberOfSegments = self.segmentVector.length then
    self.segmentVector.setLength (self.numberOfSegments + 1) reallocated
    else (self.segmentVector, true)) with ⟨segmentVector, _ | _⟩
  · exact follows_pure _
  · rcases segment with _ | contents
    · exact follows_pure _
    · exact .signed (.signed (follows_pure _))

/-- Putting a node into the slot behind the last one and sifting it up follows the model's. -/
theorem follows_insertInSlot (self : Heap K) (node : NodeId) :
    Follows (insertInSlot compare self node) (self.insertInSlot compare node) :=
  .bind (follows_locateSlot self _) fun _ => .signed (follows_siftNodeUp _ _)

/-- **Insertion** with the list follows insertion without it: it fails in the same cases and stores
the same otherwise. -/
theorem follows_insertNode (self : Heap K) (node : NodeId) (reallocated : Bool)
    (segment : Option (ℕ → NodeId)) : Follows (insertNode compare self node reallocated segment)
      (self.insertNode compare node reallocated segment) := by
  have hslot (self : Heap K) : Follows (do return (← insertInSlot compare self node, true))
      ((self.insertInSlot compare node).map (·, true)) := by
    rw [Option.map_eq_bind]
    exact .bind (follows_insertInSlot self node) fun _ => follows_pure _
  unfold insertNode makeRoom Heap.insertNode
  split_ifs
  · refine .bind_some (follows_increaseSegments self reallocated segment) ?_
    rcases self.increaseSegments reallocated segment with ⟨grown, _ | _⟩
    · exact follows_pure _
    · exact hslot grown
  · exact .bind_some (follows_pure (self, true)) (hslot self)

/-- **Adjustment** with the list follows adjustment without it, whichever way the node is sifted. -/
theorem follows_adjustNode (self : Heap K) (node : NodeId) :
    Follows (adjustNode compare self node) (self.adjustNode compare node) := by
  refine .bind (follows_locateSlot self _) fun slot => ?_
  refine .bind (follows_siftNodeUp self slot) fun self => ?_
  exact .ite (fun _ => follows_pure _) fun _ => follows_siftNodeDown _ _

/-- **Removal** with the list follows removal without it, also where the removed node is the last
one. -/
theorem follows_removeNode (self : Heap K) (node : NodeId) :
    Follows (removeNode compare self node) (self.removeNode compare node) := by
  refine .bind (follows_locateSlot self _) fun slot => .signed ?_
  refine .bind (follows_locateSlot _ _) fun last => ?_
  refine .ite (fun _ => follows_pure _) fun _ => ?_
  exact .ite (fun _ => follows_siftNodeUp _ _) fun _ => follows_siftNodeDown _ _

/-- The loop that frees the segments lists its numbers and returns; the model has no such loop, as
segments are not told apart there. -/
theorem follows_freeSegments (numberOfSegments : ℤ) (fuel : ℕ) (i : ℤ) :
    Follows (freeSegments numberOfSegments fuel i) (some ()) := by
  induction fuel generalizing i with
  | zero => exact follows_pure ()
  | succ fuel ih =>
      apply Follows.signed
      split_ifs
      · exact ih _
      · exact follows_pure ()

/-- **Shrinking** with the list follows shrinking without it, whether the vector can be reallocated
or not. -/
theorem follows_shrinkToFit (self : Heap K) (reallocated : Bool) :
    Follows (shrinkToFit self reallocated) (some (self.shrinkToFit reallocated)) := by
  refine .signed (.signed (.bind_some (?_ : Follows _ (some ())) (follows_pure _)))
  unfold dropSegments
  split_ifs
  · exact .signed (follows_freeSegments _ _ _)
  · exact follows_pure ()

end Follows

end Heap.Checked

end Pixy.Store
