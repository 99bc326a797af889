import Pixy.Store.CheckedHeap
import Pixy.Store.FullHeap

/-!
# The range of the heap's numbers

When a call meets what its arithmetic has to meet (`indexChecks_iff`), for any heap that is laid out
as the code lays it out (`Laid`) and any comparer. Calls that do lead to no other heaps
(`valid_of_reachable`).

* A sift downwards comes to the slots that `Sinks` relates its start to. From slot `2 ^ 30` on the
  number of a child is no `int`.
* The last segment there is room for ends at slot `2 ^ 31 - 257`. Where every slot of it is in use
  the number of slots cannot grow by 256, nor can 256 be added to the number of nodes.
-/

namespace Pixy.Store

open Pixy.Found Pixy.Found.Process

namespace Heap

variable {K : Type} {compare : K → K → ℤ} {self next : Heap K} {n x y : ℕ} {node : NodeId}
  {held : Finset NodeId} {key : K}

/-! ## Contracts -/

/-- Every check is met. -/
def AllOk (items : List IndexCheck) : Prop := ∀ item ∈ items, item.Ok

/-- With one more check that is met, all the checks made so far are met. -/
theorem AllOk.cons {item : IndexCheck} {items : List IndexCheck} (hitems : AllOk items)
    (hitem : item.Ok) : AllOk (item :: items) :=
  List.forall_mem_cons.mpr ⟨hitem, hitems⟩

namespace Checked

variable {α : Type} {E : Unit → List IndexCheck → Prop}
  {Q : α → List IndexCheck → Prop}

/-- A check that is met, when it is made, keeps all of them met, and the computation goes on. -/
theorem ensures_check {item : IndexCheck} (hitem : item.Ok) :
    Ensures AllOk (check item) (fun _ => AllOk) E :=
  .modify fun _ hitems => hitems.cons hitem

/-- A signed expression whose value is an `int` keeps all checks met, and the code goes on with the
value. -/
theorem ensures_signed {value : ℤ} (hvalue : -2 ^ 31 ≤ value ∧ value < 2 ^ 31)
    {f : ℤ → Checked α} (hf : Ensures AllOk (f value) Q E) :
    Ensures AllOk (signed value >>= f) Q E :=
  ⟨fun _ hitems => hf.outcome _ (AllOk.cons hitems hvalue)⟩

/-- Locating a slot that there is keeps all checks met, and the code goes on with its cell. -/
theorem ensures_locateSlot (h : Laid self n) {i : ℕ} (hi : i < self.numberOfSlots)
    {f : Cell → Checked α} (hf : Ensures AllOk (f (cell i)) Q E) :
    Ensures AllOk (locateSlot self i >>= f) Q E := by
  have hslot : IndexCheck.Ok (.slot i self.numberOfSlots) := ⟨by omega, hi⟩
  have heq : locateSlot self (i : ℤ) =
      check (.slot i self.numberOfSlots) >>= fun _ => pure (cell i) := by
    rw [locateSlot, h.locateSlot hi]
  rw [heq]
  exact ⟨fun items hitems => hf.outcome _ (AllOk.cons hitems hslot)⟩

/-- A check that is not met is in the list for good. -/
theorem ensures_of_not_ok {P : List IndexCheck → Prop} {item : IndexCheck} (hitem : ¬item.Ok)
    {p : Checked α} (hp : Ensures (fun items => ¬AllOk items) p Q E) :
    Ensures P (do check item; p) Q E :=
  ⟨fun _ _ => hp.outcome _ fun hall => hitem (hall item List.mem_cons_self)⟩

/-- A signed expression whose value is no `int` leaves a check that is not met, whatever was listed
before. -/
theorem ensures_signed_not_ok {value : ℤ} (hvalue : ¬(-2 ^ 31 ≤ value ∧ value < 2 ^ 31))
    {P : List IndexCheck → Prop} :
    Ensures P (signed value) (fun _ items => ¬AllOk items) E :=
  ensures_of_not_ok (show ¬IndexCheck.Ok (.signed value) from hvalue) (.pure fun _ => id)

/-! ### Upwards -/

/-- **A sift upwards meets everything**, and leaves the slots after its start alone. -/
theorem siftUpLoop_ok (fuel : ℕ) (h : Laid self n) (hx : x < self.numberOfSlots) :
    Ensures AllOk (siftUpLoop compare node fuel self (cell x) x)
      (fun next items => AllOk items ∧ Laid next n ∧ ∀ i, x < i → next.nodeAt i = self.nodeAt i)
      (fun _ => AllOk) := by
  induction fuel generalizing self x with
  | zero => exact .throw fun _ => id
  | succ fuel ih =>
      have hslots := h.slots_lt
      have hlaid (other : NodeId) : Laid (self.place (cell x) other x) n := h.congr rfl rfl rfl
      have hplaced (other : NodeId) (i : ℕ) (hi : x < i) :
          (self.place (cell x) other x).nodeAt i = self.nodeAt i := by
        rw [nodeAt_place, filled_of_ne hi.ne']
      refine .ite (fun hpos => ?_) fun _ => .pure fun items hitems =>
        ⟨hitems, hlaid node, hplaced node⟩
      have hp : parent x < x := parent_lt (by omega)
      refine ensures_signed (by omega) ?_
      rw [toInt_parent (by omega) (by omega)]
      refine ensures_locateSlot h (by omega) (.ite (fun _ => ?_) fun _ => ?_)
      · exact .pure fun items hitems => ⟨hitems, hlaid node, hplaced node⟩
      · refine (ih (hlaid _) (by show (parent x : ℤ) < self.numberOfSlots; omega)).weaken
          (fun _ => id)
          (fun next items hend => ⟨hend.1, hend.2.1, fun i hi => ?_⟩) fun _ _ => id
        rw [hend.2.2 i (hp.trans hi), hplaced _ i hi]

/-- `Heap_SiftNodeUp` on a node that knows its slot computes nothing that does not fit, and leaves
all slots behind that one alone. -/
theorem siftNodeUp_ok (h : Laid self n) (hx : x < self.numberOfSlots)
    (hback : self.slotNumber (self.nodeAt x) = x) :
    Ensures AllOk (siftNodeUp compare self (cell x))
      (fun next items => AllOk items ∧ Laid next n ∧ ∀ i, x < i → next.nodeAt i = self.nodeAt i)
      (fun _ => AllOk) := by
  have hnumber : self.slotNumber (self.slots (cell x)) = x := hback
  rw [siftNodeUp, hnumber]
  exact siftUpLoop_ok _ h hx

/-! ### Downwards -/

/-- Where the first child is in use, choosing one of the two meets all checks: the number of the
second child is an `int`, too. -/
theorem firstChild_ok (h : Laid self n) (hin : 2 * x + 1 < n) :
    Ensures AllOk (firstChild compare self x ((2 * x + 1 : ℕ) : ℤ))
      (fun next items => next = (cell (child compare self n x), (child compare self n x : ℤ)) ∧
        AllOk items)
      E := by
  have hroom := h.room
  have hslots := h.slots_lt
  have hz : ((2 * x + 1 : ℕ) : ℤ) + 1 = ((2 * x + 2 : ℕ) : ℤ) := by omega
  refine ensures_locateSlot h (by omega) (ensures_signed (by omega) ?_)
  refine .bind (ensures_check (by show _ = _; omega)) fun _ => ?_
  rw [hz, h.nodes]
  refine .ite (fun hlt => ?_) fun hge => ?_
  · have hlt' : 2 * x + 2 < n := by exact_mod_cast hlt
    refine ensures_locateSlot h (by omega) (.ite (fun hcmp => ?_) fun hcmp => ?_)
    · have hchild : child compare self n x = 2 * x + 2 := if_pos ⟨hlt', hcmp⟩
      rw [hchild]
      exact .pure fun items hitems => ⟨rfl, hitems⟩
    · have hchild : child compare self n x = 2 * x + 1 := if_neg fun hboth => hcmp hboth.2
      rw [hchild]
      exact .pure fun items hitems => ⟨rfl, hitems⟩
  · have hchild : child compare self n x = 2 * x + 1 :=
      if_neg fun hboth => hge (by exact_mod_cast hboth.1)
    rw [hchild]
    exact .pure fun items hitems => ⟨rfl, hitems⟩

/-- **A sift downwards that stays above slot `2 ^ 30` meets everything.** -/
theorem siftDownLoop_ok (fuel : ℕ) (h : Laid self n) (hx : x < self.numberOfSlots)
    (hshallow : Shallow compare self n (self.key node) x) :
    Keeps AllOk (siftDownLoop compare node fuel self (cell x) x) := by
  induction fuel generalizing self x with
  | zero => exact .throw fun _ => id
  | succ fuel ih =>
      have hroom := h.room
      rw [siftDownLoop, toInt_child (hshallow x (.stay x)), h.nodes]
      refine .bind (ensures_check (by show _ = _; omega)) fun _ => ?_
      refine .ite (fun _ => .pure fun _ => id) fun hge => ?_
      have hin : 2 * x + 1 < n := by omega
      refine .bind_eq (firstChild_ok h hin) (.ite (fun _ => .pure fun _ => id) fun hcmp => ?_)
      have hlt := child_lt compare self hin
      exact ih (h.congr rfl rfl rfl)
        (by show (child compare self n x : ℤ) < self.numberOfSlots; omega)
        (hshallow.sink hin (not_le.mp hcmp) _)

/-- **A sift downwards that comes to slot `2 ^ 30` does not.** -/
theorem siftDownLoop_not_ok (fuel : ℕ) (h : Laid self n) (hx : x < self.numberOfSlots)
    (hpos : 0 < fuel) (hfuel : n < x + fuel) (hdeep : ¬Shallow compare self n (self.key node) x) :
    Ensures AllOk (siftDownLoop compare node fuel self (cell x) x) (fun _ items => ¬AllOk items)
      (fun _ items => ¬AllOk items) := by
  induction fuel generalizing self x with
  | zero => cases hpos
  | succ fuel ih =>
      have hroom := h.room
      have hslots := h.slots_lt
      rcases Nat.lt_or_ge x (2 ^ 30) with hlow | hhigh
      · obtain hthere | ⟨hin, hfollows, hrest⟩ := not_shallow_cases hdeep
        · exact (not_le.mpr hlow hthere).elim
        · have hlt := child_lt compare self hin
          have hchild := lt_child compare self n x
          rw [siftDownLoop, toInt_child hlow, h.nodes]
          refine .bind (ensures_check (by show _ = _; omega)) fun _ => ?_
          refine .ite (fun hge => by omega) fun _ => ?_
          refine .bind_eq (firstChild_ok h hin) (.ite (fun hcmp => ?_) fun _ => ?_)
          · exact absurd hfollows (not_lt.mpr hcmp)
          · exact ih (h.congr rfl rfl rfl)
              (by show (child compare self n x : ℤ) < self.numberOfSlots; omega)
              (by omega) (by omega) (hrest _)
      · have hneg := toInt_child_neg hhigh (by omega : x < 2 ^ 31)
        rw [siftDownLoop, h.nodes]
        generalize toInt ((2 * toUnsigned (x : ℤ) + 1) % 2 ^ 32) = number at hneg
        refine ensures_of_not_ok (by show ¬_ = _; omega) ?_
        refine .ite (fun hge => by omega) fun _ => ?_
        -- the slot is not there
        have hslot : self.locateSlot number = none := if_neg (by omega)
        have heq : firstChild compare self x number =
            check (.slot number self.numberOfSlots) >>= fun _ => throw () := by
          rw [firstChild, locateSlot, hslot]
          rfl
        rw [heq]
        exact ensures_of_not_ok (fun hok => by have := hok.1; omega) (.throw fun _ => id)

/-- `Heap_SiftNodeDown` on a node that knows its slot: the loop, with fuel to spare. -/
theorem siftNodeDown_eq (h : Laid self n) (hback : self.slotNumber (self.nodeAt x) = x) :
    siftNodeDown compare self (cell x) =
      siftDownLoop compare (self.nodeAt x) (n + 1) self (cell x) x := by
  have hnumber : self.slotNumber (self.slots (cell x)) = x := hback
  rw [siftNodeDown, hnumber, h.nodes]
  rfl

/-! ### What is listed stays -/

/-- A predicate that no further item ends. -/
def Sticky (A : List IndexCheck → Prop) : Prop := ∀ item items, A items → A (item :: items)

/-- A check that is not met stays in the list, whatever else is listed. -/
theorem sticky_not_allOk : Sticky fun items => ¬AllOk items := by
  intro item items hitems hall
  exact hitems fun other hother => hall other (List.mem_cons_of_mem item hother)

variable {A : List IndexCheck → Prop}

/-- An assertion about the checks that further ones cannot make false is kept by a check. -/
theorem Sticky.check (hA : Sticky A) (item : IndexCheck) : Keeps A (check item) :=
  .modify fun items => hA item items

/-- What no further item ends is kept by a signed expression, whatever its value. -/
theorem Sticky.signed (hA : Sticky A) (value : ℤ) : Keeps A (signed value) :=
  .bind (hA.check _) fun _ => .pure fun _ => id

/-- What no further item ends is kept when a slot is located, also where there is none of that
number. -/
theorem Sticky.locateSlot (hA : Sticky A) (self : Heap K) (slotNumber : ℤ) :
    Keeps A (locateSlot self slotNumber) := by
  refine .bind (hA.check _) fun _ => ?_
  rcases self.locateSlot slotNumber with _ | slot
  · exact .throw fun _ => id
  · exact .pure fun _ => id

/-- What no further item ends is kept by the loop upwards, which may stop in any round. -/
theorem Sticky.siftUpLoop (hA : Sticky A) (fuel : ℕ) (self : Heap K) (slotX : Cell) (x : ℤ) :
    Keeps A (siftUpLoop compare node fuel self slotX x) := by
  induction fuel generalizing self slotX x with
  | zero => exact .throw fun _ => id
  | succ fuel ih =>
      refine .ite (fun _ => .bind (hA.signed _) fun before => ?_) fun _ => .pure fun _ => id
      refine .bind (hA.locateSlot self _) fun slotY => .ite (fun _ => .pure fun _ => id) fun _ => ?_
      exact ih _ _ _

/-- What no further item ends is kept when a node is put into a slot and sifted up. -/
theorem Sticky.insertInSlot (hA : Sticky A) (self : Heap K) (node : NodeId) :
    Keeps A (insertInSlot compare self node) :=
  .bind (hA.locateSlot self _) fun _ => .bind (hA.signed _) fun _ => hA.siftUpLoop _ _ _ _

/-- What no further item ends is kept by the loop that frees the segments. -/
theorem Sticky.freeSegments (hA : Sticky A) (numberOfSegments : ℤ) (fuel : ℕ) (i : ℤ) :
    Keeps A (freeSegments numberOfSegments fuel i) := by
  induction fuel generalizing i with
  | zero => exact .pure fun _ => id
  | succ fuel ih =>
      exact .bind (hA.signed _) fun _ => .ite (fun _ => ih _) fun _ => .pure fun _ => id

/-- What no further item ends is kept when the segments at the end are dropped. -/
theorem Sticky.dropSegments (hA : Sticky A) (self : Heap K) (numberOfSegments : ℤ) :
    Keeps A (dropSegments self numberOfSegments) :=
  .ite (fun _ => .bind (hA.signed _) fun _ => hA.freeSegments _ _ _) fun _ => .pure fun _ => id

/-! ### Insertion -/

/-- What is known of the value, if the checks are met. -/
theorem Follows.ensures {p : Checked α} {value : α} (h : Follows p (some value))
    (hkeeps : Ensures AllOk p (fun _ => AllOk) E) :
    Ensures AllOk p (fun value' items => value' = value ∧ AllOk items) E := by
  refine ⟨fun items hitems => ?_⟩
  have hend := hkeeps.outcome items hitems
  have hvalue := h items
  revert hend hvalue
  rcases p.exec items with ⟨_ | value', items'⟩
  · exact fun _ hvalue => nomatch hvalue
  · intro hend hvalue
    exact ⟨Except.ok.inj hvalue, hend⟩

/-- Growing the vector meets its check: the number of segments is far from the largest `int` in a
heap whose slots have numbers. -/
theorem growVector_ok (h : Laid self n) (reallocated : Bool) :
    Ensures AllOk (growVector self reallocated) (fun _ => AllOk) E := by
  have hle := h.slots_le
  have hroom := h.room
  have hsegments : self.numberOfSlots = 256 * self.numberOfSegments := h.segments
  refine .ite (fun _ => ensures_signed (by omega) (.pure fun _ => id)) fun _ => .pure fun _ => id

/-- **Growing** computes nothing that does not fit, as long as the number of slots stays an `int`.
-/
theorem increaseSegments_ok (h : Laid self n) (reallocated : Bool)
    (segment : Option (ℕ → NodeId))
    (hslots : MemoryAllows self reallocated segment → self.numberOfSlots + 256 < 2 ^ 31) :
    Ensures AllOk (increaseSegments self reallocated segment) (fun _ => AllOk) E := by
  have hroom := h.room
  have hle := h.slots_le
  have hsegments : self.numberOfSlots = 256 * self.numberOfSegments := h.segments
  refine .bind_eq ((follows_growVector self reallocated).ensures (growVector_ok h reallocated)) ?_
  unfold MemoryAllows at hslots
  rcases hgrown : (if self.numberOfSegments = self.segmentVector.length then
    self.segmentVector.setLength (self.numberOfSegments + 1) reallocated
    else (self.segmentVector, true)) with ⟨segmentVector, _ | _⟩
  · exact .pure fun _ => id
  · rcases segment with _ | contents
    · exact .pure fun _ => id
    · have hlt := hslots ⟨fun hfull => by rw [if_pos hfull] at hgrown; rw [hgrown], by simp⟩
      refine ensures_signed (by omega) (ensures_signed ?_ (.pure fun _ => id))
      show -2 ^ 31 ≤ self.numberOfSlots + 256 ∧ self.numberOfSlots + 256 < 2 ^ 31
      omega

/-- Putting a node into a free slot and sifting it up meets all checks, for any comparer: on the way
up the numbers only get smaller. -/
theorem insertInSlot_ok (h : Laid self n) (hroom : n < self.numberOfSlots) :
    Keeps AllOk (insertInSlot compare self node) := by
  have hlt := h.slots_lt
  let placed : Heap K := { self.place (cell n) node n with numberOfNodes := n + 1 }
  have hlaid : Laid placed (n + 1) :=
    ⟨rfl, h.segments, by show ((n + 1 : ℕ) : ℤ) ≤ self.numberOfSlots; omega, h.slots_lt⟩
  have hback : placed.slotNumber (placed.nodeAt n) = n := by
    have hnode : placed.nodeAt n = node := (congrFun (nodeAt_place self n node n) n).trans (by simp)
    rw [hnode]
    exact Function.update_self ..
  rw [insertInSlot, h.nodes]
  refine ensures_locateSlot h hroom (ensures_signed (by omega) ?_)
  exact (siftNodeUp_ok hlaid hroom hback).weaken (fun _ => id) (fun _ _ hend => hend.1)
    fun _ _ => id

/-- Making room meets all checks, unless memory allows a segment more than there are numbers for;
and if it succeeds there is a free slot. -/
theorem makeRoom_ok (h : Laid self n) (reallocated : Bool)
    (segment : Option (ℕ → NodeId))
    (hlimit : MemoryAllows self reallocated segment → n ≠ 2 ^ 31 - 256) :
    Ensures AllOk (makeRoom self reallocated segment)
      (fun result items => AllOk items ∧ Laid result.1 n ∧
        (result.2 = true → n < result.1.numberOfSlots)) E := by
  have hroom := h.room
  have hle := h.slots_le
  have hnodes := h.nodes
  refine .ite (fun hfull => ?_) fun hspare => ?_
  · obtain ⟨grown, ok, hgrown, hlaid, hspace, -⟩ :=
      h.increaseSegments hfull reallocated segment hlimit
    have hkeeps : Ensures AllOk (increaseSegments self reallocated segment) (fun _ => AllOk) E := by
      refine increaseSegments_ok h reallocated segment fun hmemory => ?_
      have hne := hlimit hmemory
      omega
    refine ((follows_increaseSegments self reallocated segment).ensures hkeeps).weaken (fun _ => id)
      ?_ fun _ _ => id
    rintro result items ⟨rfl, hitems⟩
    rw [hgrown]
    exact ⟨hitems, hlaid, hspace⟩
  · refine .pure fun items hitems => ⟨hitems, h, fun _ => ?_⟩
    show (n : ℤ) < self.numberOfSlots
    omega

/-- **Insertion meets everything**, unless every slot there can be is in use. -/
theorem insertNode_ok (h : Laid self n) (reallocated : Bool)
    (segment : Option (ℕ → NodeId))
    (hlimit : MemoryAllows self reallocated segment → n ≠ 2 ^ 31 - 256) :
    Keeps AllOk (insertNode compare self node reallocated segment) := by
  refine .bind (makeRoom_ok h reallocated segment hlimit) ?_
  rintro ⟨grown, _ | _⟩
  · exact .pure fun items hitems => hitems.1
  · refine ⟨fun items ⟨hitems, hlaid, hroom⟩ => ?_⟩
    have hinsert : Keeps AllOk (insertInSlot compare grown node >>= fun self =>
      pure (self, true)) :=
      .bind (insertInSlot_ok hlaid (hroom rfl)) fun _ => .pure fun _ => id
    exact hinsert.outcome items hitems

/-- With every slot of the last possible segment in use, making room leaves a check that is not met,
if memory allows another segment. -/
theorem makeRoom_not_ok (h : Laid self n) {reallocated : Bool} {segment : Option (ℕ → NodeId)}
    (hn : n = 2 ^ 31 - 256) (hmemory : MemoryAllows self reallocated segment) :
    Ensures AllOk (makeRoom self reallocated segment) (fun _ items => ¬AllOk items) E := by
  have hroom := h.room
  have hle := h.slots_le
  have hnodes := h.nodes
  have hsegments : self.numberOfSlots = 256 * self.numberOfSegments := h.segments
  obtain ⟨hvector, hsegment⟩ := hmemory
  obtain ⟨contents, rfl⟩ := Option.ne_none_iff_exists'.mp hsegment
  refine .ite (fun _ =>
    .bind_eq ((follows_growVector self reallocated).ensures (growVector_ok h reallocated))
      ?_) fun _ => by omega
  rcases hgrown : (if self.numberOfSegments = self.segmentVector.length then
    self.segmentVector.setLength (self.numberOfSegments + 1) reallocated
    else (self.segmentVector, true)) with ⟨segmentVector, _ | _⟩
  · -- the vector grows
    split_ifs at hgrown with hfull
    · have hgrows := hvector hfull
      rw [hgrown] at hgrows
      cases hgrows
    · cases hgrown
  · refine ensures_signed (by omega) (.bind (ensures_signed_not_ok ?_) ?_)
    · show ¬(_ ≤ self.numberOfSlots + 256 ∧ self.numberOfSlots + 256 < _)
      omega
    · exact fun _ => .pure fun _ => id

/-- **It does not** where they are, and the memory allows one more segment. -/
theorem insertNode_not_ok (h : Laid self n) {reallocated : Bool} {segment : Option (ℕ → NodeId)}
    (hn : n = 2 ^ 31 - 256) (hmemory : MemoryAllows self reallocated segment) :
    Ensures AllOk (insertNode compare self node reallocated segment) (fun _ items => ¬AllOk items)
      (fun _ items => ¬AllOk items) := by
  refine .bind (makeRoom_not_ok h hn hmemory) ?_
  rintro ⟨grown, _ | _⟩
  · exact .pure fun _ => id
  · exact .bind (sticky_not_allOk.insertInSlot grown node) fun _ => .pure fun _ => id

/-! ### Adjustment -/

/-- A sift upwards of a node that does not precede its parent writes it where it is. -/
theorem siftNodeUp_stays (h : Laid self n) (hx : x < self.numberOfSlots)
    (hback : self.slotNumber (self.nodeAt x) = x)
    (hstays : ¬(0 < x ∧ compare (self.keyAt x) (self.keyAt (parent x)) < 0)) :
    Ensures AllOk (siftNodeUp compare self (cell x))
      (fun next items => next = self.place (cell x) (self.nodeAt x) x ∧ AllOk items) E := by
  have hslots := h.slots_lt
  have hnumber : self.slotNumber (self.slots (cell x)) = x := hback
  rw [siftNodeUp, hnumber, siftUpLoop]
  refine .ite (fun hpos => ?_) fun _ => .pure fun items hitems => ⟨rfl, hitems⟩
  have hpos' : 0 < x := by omega
  have hp := parent_lt hpos'
  refine ensures_signed (by omega) ?_
  rw [toInt_parent hpos' (by omega)]
  refine ensures_locateSlot h (by omega) (.ite (fun _ => ?_) fun hcmp => ?_)
  · exact .pure fun items hitems => ⟨rfl, hitems⟩
  · exact (hstays ⟨hpos', not_le.mp hcmp⟩).elim

/-- A sift upwards of a node that precedes its parent moves it away from its slot. -/
theorem siftNodeUp_moves (h : Laid self n) (hx : x < self.numberOfSlots)
    (hback : self.slotNumber (self.nodeAt x) = x) (hpos : 0 < x)
    (hmoves : compare (self.keyAt x) (self.keyAt (parent x)) < 0) :
    Ensures AllOk (siftNodeUp compare self (cell x))
      (fun next items => next.nodeAt x = self.nodeAt (parent x) ∧ AllOk items)
      (fun _ => AllOk) := by
  have hslots := h.slots_lt
  have hp := parent_lt hpos
  have hnumber : self.slotNumber (self.slots (cell x)) = x := hback
  have hlaid : Laid (self.place (cell x) (self.nodeAt (parent x)) x) n := h.congr rfl rfl rfl
  rw [siftNodeUp, hnumber, siftUpLoop]
  refine .ite (fun _ => ensures_signed (by omega) ?_) fun hzero => by omega
  rw [toInt_parent hpos (by omega)]
  refine ensures_locateSlot h (by omega) (.ite (fun hcmp => ?_) fun _ => ?_)
  · exact (not_lt.mpr hcmp hmoves).elim
  · have hrest : (parent x : ℤ) <
      (self.place (cell x) (self.nodeAt (parent x)) x).numberOfSlots := by
      show (parent x : ℤ) < self.numberOfSlots
      omega
    refine (siftUpLoop_ok _ hlaid hrest).weaken (fun _ => id) (fun next items hend => ?_)
      fun _ _ => id
    refine ⟨(hend.2.2 x hp).trans ?_, hend.1⟩
    rw [nodeAt_place, filled_self]

variable {P : List IndexCheck → Prop}

/-- What an adjustment does to a node that stays: it sifts it downwards. -/
theorem adjustNode_stays (h : Laid self n) (hx : x < n)
    (hback : self.slotNumber (self.nodeAt x) = x)
    (hstays : ¬(0 < x ∧ compare (self.keyAt x) (self.keyAt (parent x)) < 0))
    (hdown : Ensures AllOk (siftDownLoop compare (self.nodeAt x) (n + 1)
      (self.place (cell x) (self.nodeAt x) x) (cell x) x) (fun _ => P) fun _ => P) :
    Ensures AllOk (adjustNode compare self (self.nodeAt x)) (fun _ => P) fun _ => P := by
  have hslots := h.lt_slots hx
  have hnode : (self.place (cell x) (self.nodeAt x) x).nodeAt x = self.nodeAt x := by
    rw [nodeAt_place, filled_self]
  have hplaced : (self.place (cell x) (self.nodeAt x) x).slotNumber
      ((self.place (cell x) (self.nodeAt x) x).nodeAt x) = x := by
    rw [hnode]
    exact Function.update_self ..
  rw [adjustNode, hback]
  refine ensures_locateSlot h hslots (.bind_eq (siftNodeUp_stays h hslots hback hstays) ?_)
  refine .ite (fun hne => (hne hnode).elim) fun _ => ?_
  have hlaid : Laid (self.place (cell x) (self.nodeAt x) x) n := h.congr rfl rfl rfl
  rw [siftNodeDown_eq hlaid hplaced, hnode]
  exact hdown

/-- **When an adjustment meets everything**: the key precedes the parent's, or the slots that a sift
downwards comes to have children with numbers. -/
theorem adjustNode_ok (h : Laid self n) (hstored : Stored self n held) (hx : x < n)
    (hrange : 0 < x ∧ compare (self.keyAt x) (self.keyAt (parent x)) < 0 ∨
      Shallow compare self n (self.keyAt x) x) :
    Keeps AllOk (adjustNode compare self (self.nodeAt x)) := by
  have hback := hstored.back x hx
  have hslots := h.lt_slots hx
  by_cases hmoves : 0 < x ∧ compare (self.keyAt x) (self.keyAt (parent x)) < 0
  · have hp := parent_lt hmoves.1
    have hother : self.nodeAt (parent x) ≠ self.nodeAt x := fun heq =>
      hp.ne (hstored.holds.injOn (hp.trans hx) hx heq)
    rw [adjustNode, hback]
    refine ensures_locateSlot h hslots ?_
    refine .bind (siftNodeUp_moves h hslots hback hmoves.1 hmoves.2) fun next => ⟨?_⟩
    rintro items ⟨hmoved, hitems⟩
    have hne : next.slots (cell x) ≠ self.nodeAt x := fun heq => hother (hmoved.symm.trans heq)
    rw [if_pos hne]
    exact hitems
  · refine adjustNode_stays h hx hback hmoves ?_
    refine siftDownLoop_ok _ (h.congr rfl rfl rfl) hslots ?_
    exact (hrange.resolve_left hmoves).congr fun i hi => keyAt_place_of_lt self _ hi

/-- Where a node to be adjusted is sifted down to a slot whose child has no number, a check is not
met, whether the call goes on or stops there. -/
theorem adjustNode_not_ok (h : Laid self n) (hx : x < n)
    (hback : self.slotNumber (self.nodeAt x) = x)
    (hrange : ¬(0 < x ∧ compare (self.keyAt x) (self.keyAt (parent x)) < 0 ∨
      Shallow compare self n (self.keyAt x) x)) :
    Ensures AllOk (adjustNode compare self (self.nodeAt x)) (fun _ items => ¬AllOk items)
      (fun _ items => ¬AllOk items) := by
  obtain ⟨hstays, hdeep⟩ := not_or.mp hrange
  have hlaid : Laid (self.place (cell x) (self.nodeAt x) x) n := h.congr rfl rfl rfl
  apply adjustNode_stays h hx hback hstays
  refine siftDownLoop_not_ok (n + 1) hlaid (h.lt_slots hx) (Nat.succ_pos n) (by omega) ?_
  intro hshallow
  exact hdeep (hshallow.congr fun i hi => (keyAt_place_of_lt self _ hi).symm)

/-! ### Removal -/

/-- **A removal** compares the last key to the removed one and sifts as it has to. -/
theorem removeNode_of_sifts (h : Laid self (n + 1)) (hx : x < n + 1)
    (hback : self.slotNumber (self.nodeAt x) = x)
    (heq : compare (self.keyAt n) (self.keyAt x) = 0 → ∀ items, AllOk items → P items)
    (hup : compare (self.keyAt n) (self.keyAt x) < 0 →
      Ensures AllOk (siftNodeUp compare (self.replaceByLast x n) (cell x)) (fun _ => P) fun _ => P)
    (hdown : 0 < compare (self.keyAt n) (self.keyAt x) →
      Ensures AllOk (siftNodeDown compare (self.replaceByLast x n) (cell x))
      (fun _ => P) fun _ => P) :
    Ensures AllOk (removeNode compare self (self.nodeAt x)) (fun _ => P) fun _ => P := by
  have hroom := h.room
  have hslots := h.slots_lt
  obtain ⟨hnodes, hbefore⟩ := h.pred
  have hlast : (n : ℤ) < ({ self with numberOfNodes := (n : ℤ) } : Heap K).numberOfSlots := by
    show (n : ℤ) < self.numberOfSlots
    omega
  have hplace : { self with numberOfNodes := (n : ℤ) }.place (cell x) (self.slots (cell n)) x =
      self.replaceByLast x n := rfl
  have hcmp := compare_replaceByLast compare self x n
  unfold removeNode
  rw [hnodes]
  simp only [hback]
  refine ensures_locateSlot h (h.lt_slots hx) (ensures_signed (by omega) ?_)
  refine ensures_locateSlot hbefore hlast ?_
  rw [hplace, hcmp]
  refine .ite (fun hzero => .pure (heq hzero)) fun hne => .ite hup fun hge => hdown ?_
  exact lt_of_le_of_ne (not_lt.mp hge) (Ne.symm hne)

/-- The last node, put into the slot of the removed one, knows that it is there. -/
theorem replaceByLast_back (self : Heap K) (x n : ℕ) :
    (self.replaceByLast x n).slotNumber ((self.replaceByLast x n).nodeAt x) = x := by
  rw [replaceByLast_nodeAt, filled_self]
  exact Function.update_self ..

/-- The sift downwards after a removal comes to the same slots as the last node would from the slot
of the removed one. -/
theorem shallow_replaceByLast : Shallow compare (self.replaceByLast x n) n
    (self.key ((self.replaceByLast x n).nodeAt x)) x ↔ Shallow compare self n (self.keyAt n) x := by
  have hkey : self.key ((self.replaceByLast x n).nodeAt x) = self.keyAt n :=
    replaceByLast_keyAt_self self x n
  rw [hkey]
  constructor
  · exact fun h => h.congr fun i hi => (replaceByLast_keyAt_of_ne self n hi.ne').symm
  · exact fun h => h.congr fun i hi => replaceByLast_keyAt_of_ne self n hi.ne'

/-- A removal meets all checks, if the last node fits in the removed one's place or above it, or
sinks only through slots whose children have numbers. -/
theorem removeNode_ok (h : Laid self (n + 1)) (hx : x < n + 1)
    (hback : self.slotNumber (self.nodeAt x) = x)
    (hrange : compare (self.keyAt n) (self.keyAt x) ≤ 0 ∨ Shallow compare self n (self.keyAt n) x) :
    Keeps AllOk (removeNode compare self (self.nodeAt x)) := by
  have hlaid := h.replaceByLast x
  have hslots : (x : ℤ) < (self.replaceByLast x n).numberOfSlots := h.lt_slots hx
  apply removeNode_of_sifts h hx hback
  · exact fun _ _ => id
  · intro _
    refine (siftNodeUp_ok hlaid hslots (replaceByLast_back self x n)).weaken (fun _ => id)
      (fun _ _ hend => hend.1) fun _ _ => id
  · intro hgt
    rw [siftNodeDown_eq hlaid (replaceByLast_back self x n)]
    apply siftDownLoop_ok _ hlaid hslots
    exact shallow_replaceByLast.mpr (hrange.resolve_left (not_le.mpr hgt))

/-- In all other cases a removal leaves a check that is not met, whether the call goes on or stops
there. -/
theorem removeNode_not_ok (h : Laid self (n + 1)) (hx : x < n + 1)
    (hback : self.slotNumber (self.nodeAt x) = x)
    (hrange : ¬(compare (self.keyAt n) (self.keyAt x) ≤ 0 ∨
      Shallow compare self n (self.keyAt n) x)) :
    Ensures AllOk (removeNode compare self (self.nodeAt x)) (fun _ items => ¬AllOk items)
      (fun _ items => ¬AllOk items) := by
  obtain ⟨hgt, hdeep⟩ := not_or.mp hrange
  have hlaid := h.replaceByLast x
  have hslots : (x : ℤ) < (self.replaceByLast x n).numberOfSlots := h.lt_slots hx
  apply removeNode_of_sifts h hx hback
  · exact fun hzero => (hgt hzero.le).elim
  · exact fun hlt => (hgt hlt.le).elim
  · intro _
    rw [siftNodeDown_eq hlaid (replaceByLast_back self x n)]
    apply siftDownLoop_not_ok _ hlaid hslots (Nat.succ_pos n) (by omega)
    exact fun hshallow => hdeep (shallow_replaceByLast.mp hshallow)

/-! ### Shrinking -/

/-- The loop that frees the segments counts down from an `int` to one that is not negative, so it
meets all checks. -/
theorem freeSegments_ok {numberOfSegments : ℤ} (hfirst : 0 ≤ numberOfSegments)
    (fuel : ℕ) {i : ℤ} (hi : numberOfSegments ≤ i) (hlt : i < 2 ^ 31) :
    Ensures AllOk (freeSegments numberOfSegments fuel i) (fun _ => AllOk) E := by
  induction fuel generalizing i with
  | zero => exact .pure fun _ => id
  | succ fuel ih =>
      refine ensures_signed (by omega) (.ite (fun hge => ?_) fun _ => .pure fun _ => id)
      exact ih hge (by omega)

/-- **Shrinking meets everything**, unless 256 cannot be added to the number of nodes. -/
theorem shrinkToFit_ok (h : Laid self n) (hn : n ≠ 2 ^ 31 - 256)
    (reallocated : Bool) : Keeps AllOk (shrinkToFit self reallocated) := by
  have hroom := h.room
  have hle := h.slots_le
  have hL : (heapSegmentLength : ℤ) = 256 := rfl
  have hsegments : self.numberOfSlots = 256 * self.numberOfSegments := h.segments
  rw [shrinkToFit, h.nodes]
  refine ensures_signed (by omega) (ensures_signed (by omega) ?_)
  rw [← h.nodes, h.fitted]
  refine .bind (.ite (fun hmany => ?_) fun _ => .pure fun _ => id) fun _ => .pure fun _ => id
  refine ensures_signed (by omega) (freeSegments_ok (by omega) _ (by omega) (by omega))

/-- With every slot of the last possible segment in use, shrinking leaves a check that is not met:
256 cannot be added to the number of nodes. -/
theorem shrinkToFit_not_ok (h : Laid self n) (hn : n = 2 ^ 31 - 256) (reallocated : Bool) :
    Ensures AllOk (shrinkToFit self reallocated) (fun _ items => ¬AllOk items)
      (fun _ items => ¬AllOk items) := by
  have hL : (heapSegmentLength : ℤ) = 256 := rfl
  rw [shrinkToFit, h.nodes]
  refine .bind (ensures_signed_not_ok (by omega)) fun _ => ?_
  refine .bind (sticky_not_allOk.signed _) fun _ => ?_
  exact .bind (sticky_not_allOk.dropSegments self _) fun _ => .pure fun _ => id

end Checked

end Heap

/-! ## Calls -/

namespace HeapState

variable {K : Type} {compare : K → K → ℤ} {s : HeapState K}

open Heap

/-- What the callers promise of a heap of any size: a node is inserted when it is not in the heap,
removed and adjusted when it is. -/
def Promised (s : HeapState K) : HeapAction K → Prop
  | .insertNode node _ _ _ => node ∉ s.held
  | .removeNode node | .adjustNode node _ => node ∈ s.held
  | .shrinkToFit _ => True

instance (s : HeapState K) : (action : HeapAction K) → Decidable (s.Promised action)
  | .insertNode node _ _ _ => inferInstanceAs (Decidable (node ∉ s.held))
  | .removeNode node | .adjustNode node _ => inferInstanceAs (Decidable (node ∈ s.held))
  | .shrinkToFit _ => isTrue trivial

/-- What the arithmetic of a call has to meet. -/
def indexChecks (compare : K → K → ℤ) (s : HeapState K) : HeapAction K → List IndexCheck
  | .insertNode node key reallocated segment =>
    ((Checked.insertNode compare (s.setKey node key) node reallocated segment).exec []).2
  | .removeNode node => ((Checked.removeNode compare s.heap node).exec []).2
  | .adjustNode node key => ((Checked.adjustNode compare (s.setKey node key) node).exec []).2
  | .shrinkToFit reallocated => ((Checked.shrinkToFit s.heap reallocated).exec []).2

/-- **The numbers of a call are in range.** -/
def InRange (compare : K → K → ℤ) (s : HeapState K) : HeapAction K → Prop
  | .insertNode _ _ reallocated segment =>
    MemoryAllows s.heap reallocated segment → s.held.card ≠ 2 ^ 31 - 256
  | .removeNode node =>
    let last := s.heap.keyAt (s.held.card - 1)
    compare last (s.heap.key node) ≤ 0 ∨
      Shallow compare s.heap (s.held.card - 1) last (s.heap.slotNumber node).toNat
  | .adjustNode node key =>
    let x := (s.heap.slotNumber node).toNat
    0 < x ∧ compare key ((s.setKey node key).keyAt (parent x)) < 0 ∨
      Shallow compare (s.setKey node key) s.held.card key x
  | .shrinkToFit _ => s.held.card ≠ 2 ^ 31 - 256

/-- An empty list has nothing to meet, which is how every call begins. -/
theorem allOk_nil : AllOk [] := by
  intro item hitem
  cases hitem

/-- Code whose checks are met, or are not, leaves a list that says so. -/
theorem allOk_iff {α : Type} {p : Checked α} {c : Prop} (hok : c → Keeps AllOk p)
    (hnot : ¬c → Ensures AllOk p (fun _ items => ¬AllOk items) fun _ items => ¬AllOk items) :
    AllOk (p.exec []).2 ↔ c := by
  rcases hexec : p.exec [] with ⟨ending, items⟩
  constructor
  · intro hall
    by_contra hc
    obtain ⟨hvalue, hreason⟩ := Ensures.exec (hnot hc) allOk_nil hexec
    rcases ending with reason | value
    · exact hreason reason rfl hall
    · exact hvalue value rfl hall
  · intro hc
    exact Keeps.exec (hok hc) allOk_nil hexec

/-- **When the heap's arithmetic stays in range**: the numbers of children that are compared are
those of the slots the code means, every slot that is located is there, and no signed expression
overflows. -/
theorem indexChecks_iff (compare : K → K → ℤ) (hlaid : Laid s.heap s.held.card)
    (hstored : Stored s.heap s.held.card s.held) {action : HeapAction K}
    (hpromised : s.Promised action) :
    AllOk (s.indexChecks compare action) ↔ s.InRange compare action := by
  cases action with
  | insertNode node key reallocated segment =>
      have hset : Laid (s.setKey node key) s.held.card := hlaid.congr rfl rfl rfl
      apply allOk_iff
      · exact Checked.insertNode_ok hset reallocated segment
      · intro hrange
        obtain ⟨hmemory, hn⟩ := Classical.not_imp.mp hrange
        exact Checked.insertNode_not_ok hset (not_not.mp hn) hmemory
  | removeNode node =>
      obtain ⟨x, hx, rfl, hback⟩ := hstored.exists_slot hpromised
      obtain ⟨n, hn⟩ : ∃ n, s.held.card = n + 1 := ⟨s.held.card - 1, by omega⟩
      simp only [InRange, hn, hback, Int.toNat_natCast, Nat.add_sub_cancel]
      rw [hn] at hlaid hx
      apply allOk_iff
      · exact Checked.removeNode_ok hlaid hx hback
      · exact Checked.removeNode_not_ok hlaid hx hback
  | adjustNode node key =>
      obtain ⟨x, hx, rfl, hback⟩ := hstored.exists_slot hpromised
      have hset : Laid (s.setKey (s.heap.nodeAt x) key) s.held.card := hlaid.congr rfl rfl rfl
      have hstored' : Stored (s.setKey (s.heap.nodeAt x) key) s.held.card s.held :=
        ⟨hstored.back, hstored.holds⟩
      have hkey : (s.setKey (s.heap.nodeAt x) key).keyAt x = key := Function.update_self ..
      simp only [InRange, hback, Int.toNat_natCast]
      have hok : _ → Keeps AllOk (Checked.adjustNode compare (s.setKey (s.heap.nodeAt x) key)
          (s.heap.nodeAt x)) := Checked.adjustNode_ok hset hstored' hx
      have hnot : _ → Ensures AllOk (Checked.adjustNode compare (s.setKey (s.heap.nodeAt x) key)
          (s.heap.nodeAt x)) (fun _ items => ¬AllOk items) fun _ items => ¬AllOk items :=
        Checked.adjustNode_not_ok hset hx (hstored'.back x hx)
      rw [hkey] at hok hnot
      exact allOk_iff hok hnot
  | shrinkToFit reallocated =>
      apply allOk_iff
      · exact fun hn => Checked.shrinkToFit_ok hlaid hn reallocated
      · exact fun hn => Checked.shrinkToFit_not_ok hlaid (not_not.mp hn) reallocated

/-- In a heap that is not too large they are in range. -/
theorem inRange_of_few (hstored : Stored s.heap s.held.card s.held) (hfew : s.held.card ≤ 2 ^ 30)
    {action : HeapAction K} (hpromised : s.Promised action) (hkeys : ∀ k, compare k k ≤ 0) :
    s.InRange compare action := by
  cases action with
  | insertNode node key reallocated segment => exact fun _ => by omega
  | removeNode node =>
      obtain ⟨x, hx, rfl, hback⟩ := hstored.exists_slot hpromised
      simp only [InRange, hback, Int.toNat_natCast]
      by_cases hlast : x = s.held.card - 1
      · exact .inl (hlast ▸ hkeys _)
      · exact .inr (shallow_of_le (by omega) (by omega))
  | adjustNode node key =>
      obtain ⟨x, hx, rfl, hback⟩ := hstored.exists_slot hpromised
      simp only [InRange, hback, Int.toNat_natCast]
      exact .inr (shallow_of_le hx hfew)
  | shrinkToFit reallocated => exact fun hn => by omega

/-- **A call whose numbers are in range** returns, and leaves a heap of the same kind. -/
theorem valid_apply (hc : TotalPreorder compare) (h : s.heap.Valid compare s.held)
    {action : HeapAction K} (hpromised : s.Promised action) (hrange : s.InRange compare action) :
    ∃ next, s.apply compare action = some next ∧ next.heap.Valid compare next.held := by
  cases action with
  | insertNode node key reallocated segment =>
      have hset : (s.setKey node key).Valid compare s.held := h.setKey hpromised key
      obtain ⟨next, ok, hrun, hvalid, -⟩ :=
        hset.insertNode hc hpromised reallocated segment hrange
      exact ⟨_, by rw [HeapState.apply, hrun]; rfl, hvalid⟩
  | removeNode node =>
      obtain ⟨next, hrun, hvalid, -⟩ := h.removeNode hc hpromised fun n x hn hback hgt => by
        simp only [InRange, hn, hback, Int.toNat_natCast, Nat.add_sub_cancel] at hrange
        exact hrange.resolve_left (not_le.mpr hgt)
      exact ⟨_, by rw [HeapState.apply, hrun]; rfl, hvalid⟩
  | adjustNode node key =>
      obtain ⟨next, hrun, hvalid, -⟩ :=
        h.adjustNode hc hpromised key fun changed heq x hback hstays => by
        subst heq
        simp only [InRange, hback, Int.toNat_natCast] at hrange
        exact hrange.resolve_left hstays
      exact ⟨⟨next, s.held⟩, by rw [HeapState.apply, HeapState.setKey, hrun]; rfl, hvalid⟩
  | shrinkToFit reallocated => exact ⟨_, rfl, (h.shrinkToFit reallocated).1⟩

/-- After an adjustment of three the heap can do without the first of them. -/
theorem indexChecks_iff_removedTop :
    ∃ s, (heapSystem fun a b : ℤ => a - b).run
        ⟨.init (fun _ => 0) (fun _ => 0) (fun _ => 0), ∅⟩ removedTop = some s ∧
      (AllOk (s.indexChecks (fun a b => a - b) (.removeNode 3)) ↔
        s.InRange (fun a b => a - b) (.removeNode 3)) ∧
      s.InRange (fun a b => a - b) (.removeNode 3) := by
  have hheld : ((heapSystem fun a b : ℤ => a - b).run
      ⟨.init (fun _ => 0) (fun _ => 0) (fun _ => 0), ∅⟩ removedTop).map
        (fun s => decide (3 ∈ s.held)) = some true := by decide +kernel
  obtain ⟨s, hrun, hs⟩ := Option.map_eq_some_iff.mp hheld
  have hsound := sound_of_reachable totalPreorder_sub
    (StepSystem.reachable_of_run ⟨⟨_, _, _, rfl⟩, rfl⟩ hrun)
  have hpromised : s.Promised (.removeNode 3) := of_decide_eq_true hs
  exact ⟨s, hrun, indexChecks_iff _ hsound.correct.valid.laid hsound.correct.stored hpromised,
    inRange_of_few hsound.correct.stored hsound.few hpromised fun k => by omega⟩

end HeapState

/-! ## A heap in which they are not -/

/-- A heap under any sequence of calls that its callers may make, each of which returns. -/
def heapCalls {K : Type} (compare : K → K → ℤ) : StepSystem (HeapState K) (HeapAction K) where
  init s := (∃ slots slotNumber key, s.heap = .init slots slotNumber key) ∧ s.held = ∅
  step s action := if s.Promised action then s.apply compare action else none

/-- **Every heap that such calls lead to**, as long as their numbers are in range, is laid out as
the code lays it out, and knows its nodes. -/
theorem valid_of_reachable {K : Type} {compare : K → K → ℤ} (hc : TotalPreorder compare)
    {s : HeapState K}
    (h : (heapCalls compare).ReachableWhen (fun s action => s.InRange compare action) s) :
    s.heap.Valid compare s.held := by
  refine h.induct (I := fun s => s.heap.Valid compare s.held) ?_ ?_
  · rintro ⟨heap, held⟩ ⟨⟨slots, slotNumber, key, rfl⟩, rfl⟩
    exact (init_correct slots slotNumber key).valid
  · intro s action next _ hs hrange hstep
    simp only [heapCalls, Option.ite_none_right_eq_some] at hstep
    obtain ⟨next', hrun, hvalid⟩ := HeapState.valid_apply hc hs hstep.1 hrange
    obtain rfl : next' = next := Option.some.inj (hrun.symm.trans hstep.2)
    exact hvalid

/-- All keys are alike. -/
def alike (_ _ : Unit) : ℤ := 0

/-- Any number of nodes can be inserted one after the other. -/
theorem reachable_appended (n : ℕ) (hn : n ≤ 2 ^ 30 + 2) : ∃ s, (heapCalls alike).Reachable s ∧
    s.heap.Appended 0 n (fun _ => ()) ∧ s.held = Finset.range n := by
  induction n with
  | zero =>
      have hcorrect : Heap.Correct alike _ ∅ := init_correct (fun _ => 0) (fun _ => 0) fun _ => ()
      refine ⟨⟨_, ∅⟩, .init ⟨⟨_, _, _, rfl⟩, rfl⟩, ⟨hcorrect.shaped, ?_, ?_, ?_⟩, rfl⟩
      all_goals
        intro i hi
        cases hi
  | succ n ih =>
      obtain ⟨s, hreachable, happended, hheld⟩ := ih (by omega)
      have hset : (s.setKey n ()).Appended 0 n (fun _ => ()) := happended.setKey ()
      have hparent : 0 < n → 0 ≤ alike () () := fun _ => le_refl 0
      obtain ⟨next, hinsert, hnext⟩ := hset.insertNode (by omega) rfl hparent fun _ => 0
      rw [Nat.add_zero] at hinsert
      have hpromised : s.Promised (.insertNode n () true (some fun _ => 0)) := by
        show n ∉ s.held
        rw [hheld]
        exact Finset.notMem_range_self
      have hstep : (heapCalls alike).step s (.insertNode n () true (some fun _ => 0)) =
          some ⟨next, insert n s.held⟩ := by
        simp only [heapCalls, if_pos hpromised, HeapState.apply, hinsert, Option.map_some, if_true]
      refine ⟨_, hreachable.step trivial hstep, hnext, ?_⟩
      rw [hheld]
      exact Finset.range_add_one.symm

/-- **The children of slot `2 ^ 30`** have no numbers: an adjustment of its node compares a negative
one. -/
theorem not_indexChecks_slot : ∃ s, (heapCalls alike).Reachable s ∧ s.held.card = 2 ^ 30 + 1 ∧
    s.Promised (.adjustNode (2 ^ 30) ()) ∧
    ¬Heap.AllOk (s.indexChecks alike (.adjustNode (2 ^ 30) ())) := by
  obtain ⟨s, hreachable, happended, hheld⟩ := reachable_appended (2 ^ 30 + 1) (by omega)
  have hlaid : Heap.Laid (s.setKey (2 ^ 30) ()) (2 ^ 30 + 1) :=
    happended.shaped.laid.congr rfl rfl rfl
  have hnode : (s.setKey (2 ^ 30) ()).nodeAt (2 ^ 30) = 2 ^ 30 := happended.nodeAt _ (by omega)
  have hback : (s.setKey (2 ^ 30) ()).slotNumber ((s.setKey (2 ^ 30) ()).nodeAt (2 ^ 30)) =
      (2 ^ 30 : ℕ) := by
    rw [hnode]
    exact happended.back (2 ^ 30) (by omega)
  refine ⟨s, hreachable, by rw [hheld, Finset.card_range], ?_, fun hall => ?_⟩
  · show 2 ^ 30 ∈ s.held
    rw [hheld]
    exact Finset.self_mem_range_succ _
  · have hrange : ¬(0 < 2 ^ 30 ∧ alike ((s.setKey (2 ^ 30) ()).keyAt (2 ^ 30))
        ((s.setKey (2 ^ 30) ()).keyAt (parent (2 ^ 30))) < 0 ∨
        Heap.Shallow alike (s.setKey (2 ^ 30) ()) (2 ^ 30 + 1) () (2 ^ 30)) := by
      rintro (⟨-, hlt⟩ | hshallow)
      · exact lt_irrefl 0 hlt
      · exact Nat.lt_irrefl _ (hshallow _ (.stay _))
    have hnot := Heap.Checked.adjustNode_not_ok hlaid (Nat.lt_succ_self _) hback hrange
    rw [hnode] at hnot
    exact (HeapState.allOk_iff False.elim fun _ => hnot).mp hall

end Pixy.Store
