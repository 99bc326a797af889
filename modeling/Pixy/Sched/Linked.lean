import Pixy.Sched.Accounting
import Pixy.Store.ItemMemory

/-!
# The scheduler over its memory

`Scheduler.c` once more, now with its lists as the code has them: two list heads, and one `listItem`
in every fiber, which is in the ready list, in the dead list or in neither. The items are in regions
that `malloc` hands out and `free` takes back, so an access to a fiber that has been freed is
`none`, as are a list head taken for a fiber and a failed assertion.

`HoldsFibers` says that the links are those of two lists of fibers; the operations of the lists
change them as their names say. That every run is carried out is in `LinkedRefines.lean`.
-/

namespace Pixy.Sched

open Pixy.Found Pixy.Store

/-- The list items of a scheduler. -/
inductive SchedulerItem
  /-- `readyFiberListHead`. -/
  | readyFiberListHead
  /-- `deadFiberListHead`. -/
  | deadFiberListHead
  /-- The `listItem` of a fiber. -/
  | listItem (fiber : FiberId)
  deriving DecidableEq

/-- `CONTAINER_OF(item, struct Fiber, listItem)`, which a head is not in. -/
def SchedulerItem.fiber? : SchedulerItem → Option FiberId
  | .listItem fiber => some fiber
  | _ => none

/-- The scheduler, with its links.
Source: `Scheduler.h`, `struct Scheduler`; `Scheduler.c`, `struct Fiber`. -/
structure LinkedScheduler where
  /-- The context of the `Scheduler_Tick` in progress. -/
  context : Option ℕ
  /-- The running fiber. -/
  activeFiber : Option FiberId
  /-- The list heads and the list items of the fibers. -/
  items : ItemMemory SchedulerItem
  /-- The number of fibers that have not exited. -/
  fiberCount : ℤ
  /-- The contents of the fibers. -/
  fibers : FiberId → Fiber
  /-- What happened to which fiber, newest first. -/
  history : List (FiberId × FiberEvent)

namespace LinkedScheduler

/-- Source: `Scheduler.c`, `Scheduler_Initialize`. -/
def init (links : Links SchedulerItem) (fibers : FiberId → Fiber) : LinkedScheduler where
  context := none
  activeFiber := none
  items :=
    { links := listInitialize (listInitialize links .readyFiberListHead) .deadFiberListHead
      live := {.readyFiberListHead, .deadFiberListHead} }
  fiberCount := 0
  fibers := fibers
  history := []

/-- Record an event. -/
def log (self : LinkedScheduler) (fiber : FiberId) (event : FiberEvent) : LinkedScheduler :=
  { self with history := (fiber, event) :: self.history }

/-- A read of a fiber's fields. -/
def read (self : LinkedScheduler) (fiber : FiberId) : Option Fiber :=
  if .listItem fiber ∈ self.items.live then some (self.fibers fiber) else none

/-- A write of them. -/
def write (self : LinkedScheduler) (fiber : FiberId) (contents : Fiber) : Option LinkedScheduler :=
  if .listItem fiber ∈ self.items.live then
    some { self with fibers := Function.update self.fibers fiber contents }
  else none

/-- The region that `malloc` returns holds some `prev` and `next`.
Source: `Scheduler.c`, `Fiber_Allocate`. -/
def fiberAllocate (self : LinkedScheduler) (region : Option FiberId) (prev next : SchedulerItem) :
    LinkedScheduler × Option FiberId :=
  match region with
  | none => (self, none)
  | some fiber =>
    ({ self with items := self.items.allocate (.listItem fiber) prev next }.log fiber .allocated,
      some fiber)

/-- Source: `Scheduler.c`, `Fiber_Free`. -/
def fiberFree (self : LinkedScheduler) (fiber : FiberId) : Option LinkedScheduler := do
  let items ← self.items.release (.listItem fiber)
  return { self with items := items }.log fiber .freed

/-- Source: `Scheduler.c`, `Scheduler_AddFiber`, first half. -/
def takeFiber (self : LinkedScheduler) (region : Option FiberId) (prev next : SchedulerItem) :
    Option (LinkedScheduler × Option FiberId) := do
  if ← self.items.isEmpty .deadFiberListHead then
    return self.fiberAllocate region prev next
  else
    let back ← self.items.getPrev .deadFiberListHead
    let fiber ← back.fiber?
    let items ← self.items.remove (.listItem fiber)
    return ({ self with items := items }, some fiber)

/-- Source: `Scheduler.c`, `Scheduler_AddFiber`. -/
def addFiber (self : LinkedScheduler) (function argument : ℕ) (region : Option FiberId)
    (prev next : SchedulerItem) : Option (LinkedScheduler × Bool) := do
  match ← self.takeFiber region prev next with
  | (self, none) => return (self, false)
  | (self, some fiber) =>
    let self ← self.write fiber { context := none, function := function, argument := argument }
    let items ← self.items.insertBack .readyFiberListHead (.listItem fiber)
    return ({ self with items := items, fiberCount := self.fiberCount + 1 }.log fiber .added, true)

/-- `setjmp(context)` and `self->activeFiber->context = &context`. -/
def saveContext (self : LinkedScheduler) (fiber : FiberId) : Option LinkedScheduler :=
  self.write fiber { self.fibers fiber with context := some ⟨fiber, self.history.length⟩ }

/-- Source: `Scheduler.c`, `Scheduler_SwitchToFiber`. -/
def switchToFiber (self : LinkedScheduler) (fiber : FiberId) : Option LinkedScheduler := do
  let contents ← self.read fiber
  return { self with activeFiber := some fiber }.log fiber (.dispatched contents.context)

/-- `ListItem_Remove(&fiber->listItem)` and `Scheduler_SwitchToFiber(self, fiber)`, for the fiber
that contains the item. -/
def switchToItem (self : LinkedScheduler) (item : SchedulerItem) : Option LinkedScheduler := do
  let fiber ← item.fiber?
  let items ← self.items.remove (.listItem fiber)
  { self with items := items }.switchToFiber fiber

/-- The loop that frees the fibers of a list from the back on.
Source: `Scheduler.c`, `Scheduler_Tick` and `Scheduler_Finalize`. -/
def freeFrom (head : SchedulerItem) : ℕ → LinkedScheduler → SchedulerItem → Option LinkedScheduler
  | 0, _, _ => none
  | fuel + 1, self, fiberListItem =>
    if fiberListItem = head then some self
    else do
      let fiber ← fiberListItem.fiber?
      let fiberListItem ← self.items.getPrev fiberListItem
      let self ← self.fiberFree fiber
      freeFrom head fuel self fiberListItem

/-- Every round frees something that was there, so there are no more rounds than that.
Source: `Scheduler.c`, `Scheduler_Tick`, the branch taken after the jump. -/
def freeDeadFibers (self : LinkedScheduler) : Option LinkedScheduler := do
  let fiberListItem ← self.items.getPrev .deadFiberListHead
  if fiberListItem = .deadFiberListHead then
    return self
  else
    let self ← freeFrom .deadFiberListHead self.items.live.card self fiberListItem
    let items ← self.items.initHead .deadFiberListHead
    return { self with items := items }

/-- Source: `Scheduler.c`, `Scheduler_SwitchTo`, and the rest of the `Scheduler_Tick` it jumps
into. -/
def switchTo (self : LinkedScheduler) : Option LinkedScheduler :=
  { self with activeFiber := none }.freeDeadFibers

/-- Source: `Scheduler.c`, the ends of `Scheduler_SuspendCurrentFiber` and
`Scheduler_ExitCurrentFiber`. -/
def switchAway (self : LinkedScheduler) : Option LinkedScheduler := do
  if ← self.items.isEmpty .readyFiberListHead then
    self.switchTo
  else
    self.switchToItem (← self.items.getNext .readyFiberListHead)

/-- Source: `Scheduler.c`, `Scheduler_AddAndRunFiber`, up to the switch to the new fiber. -/
def addAndRunFiber (self : LinkedScheduler) (function argument : ℕ) (region : Option FiberId)
    (prev next : SchedulerItem) : Option (LinkedScheduler × Bool) := do
  let active ← self.activeFiber
  match ← self.addFiber function argument region prev next with
  | (self, false) => return (self, false)
  | (self, true) =>
    let number := self.history.length
    let self ← self.saveContext active
    let items ← self.items.insertFront .readyFiberListHead (.listItem active)
    let self := { self with items := items }.log active (.requeued number)
    let self ← self.switchToItem (← self.items.getPrev .readyFiberListHead)
    return (self, true)

/-- Source: `Scheduler.c`, `Scheduler_YieldCurrentFiber`. -/
def yieldCurrentFiber (self : LinkedScheduler) : Option LinkedScheduler := do
  let active ← self.activeFiber
  if ← self.items.isEmpty .readyFiberListHead then
    return self
  else
    let number := self.history.length
    let self ← self.saveContext active
    let items ← self.items.insertBack .readyFiberListHead (.listItem active)
    let self := { self with items := items }.log active (.requeued number)
    self.switchToItem (← self.items.getNext .readyFiberListHead)

/-- Source: `Scheduler.c`, `Scheduler_SuspendCurrentFiber`. -/
def suspendCurrentFiber (self : LinkedScheduler) : Option LinkedScheduler := do
  let active ← self.activeFiber
  let number := self.history.length
  let self ← self.saveContext active
  (self.log active (.suspended number)).switchAway

/-- Source: `Scheduler.c`, `Scheduler_ResumeFiber`. -/
def resumeFiber (self : LinkedScheduler) (fiber : FiberId) : Option LinkedScheduler :=
  if self.activeFiber = some fiber then none
  else do
    let items ← self.items.insertBack .readyFiberListHead (.listItem fiber)
    return { self with items := items }.log fiber .resumed

/-- Source: `Scheduler.c`, `Scheduler_UnresumeFiber`. -/
def unresumeFiber (self : LinkedScheduler) (fiber : FiberId) : Option LinkedScheduler :=
  if self.activeFiber = some fiber then none
  else do
    let items ← self.items.remove (.listItem fiber)
    return { self with items := items }.log fiber .unresumed

/-- Source: `Scheduler.c`, `Scheduler_ExitCurrentFiber`. -/
def exitCurrentFiber (self : LinkedScheduler) : Option LinkedScheduler := do
  let active ← self.activeFiber
  let items ← self.items.insertBack .deadFiberListHead (.listItem active)
  ({ self with items := items, fiberCount := self.fiberCount - 1 }.log active .exited).switchAway

/-- Source: `Scheduler.c`, `Scheduler_Tick`, up to the switch to the first fiber. -/
def tick (self : LinkedScheduler) : Option LinkedScheduler :=
  if self.activeFiber ≠ none then none
  else do
    if ← self.items.isEmpty .readyFiberListHead then
      return self
    else
      let self := { self with context := some self.history.length }
      self.switchToItem (← self.items.getNext .readyFiberListHead)

/-- Source: `Scheduler.c`, `Scheduler_Finalize`. -/
def finalize (self : LinkedScheduler) : Option LinkedScheduler :=
  if self.activeFiber ≠ none then none
  else do
    let fiberListItem ← self.items.getPrev .readyFiberListHead
    freeFrom .readyFiberListHead self.items.live.card self fiberListItem

/-- The state an operation leaves, where `prev` and `next` are what a new region holds. -/
def apply (self : LinkedScheduler) (prev next : SchedulerItem) :
    SchedulerAction → Option LinkedScheduler
  | .addFiber function argument region =>
    (self.addFiber function argument region prev next).map (·.1)
  | .addAndRunFiber function argument region =>
    (self.addAndRunFiber function argument region prev next).map (·.1)
  | .yieldCurrentFiber => self.yieldCurrentFiber
  | .suspendCurrentFiber => self.suspendCurrentFiber
  | .resumeFiber fiber => self.resumeFiber fiber
  | .unresumeFiber fiber => self.unresumeFiber fiber
  | .exitCurrentFiber => self.exitCurrentFiber
  | .tick => self.tick

end LinkedScheduler

/-! ## The lists in the memory -/

/-- **The memory holds the two lists.** -/
def HoldsFibers (m : ItemMemory SchedulerItem) (ready dead : List FiberId) : Prop :=
  ∃ L : ItemLists SchedulerItem, L.heads = {.readyFiberListHead, .deadFiberListHead} ∧
    L.items .readyFiberListHead = ready.map .listItem ∧
    L.items .deadFiberListHead = dead.map .listItem ∧ m.Holds L

namespace HoldsFibers

variable {m m' : ItemMemory SchedulerItem} {ready dead : List FiberId} {fiber : FiberId}

/-- The list items of different fibers are different nodes of the lists, as each lies in its own
fiber. -/
theorem listItem_injective : Function.Injective SchedulerItem.listItem :=
  fun _ _ h => SchedulerItem.listItem.inj h

/-- One of the two lists is changed, the ready one, and the other one still holds the dead fibers.
-/
theorem of_changed_ready {L : ItemLists SchedulerItem}
    (hheads : L.heads = {.readyFiberListHead, .deadFiberListHead})
    (hdead : L.items .deadFiberListHead = dead.map .listItem)
    (h : ItemMemory.Changed L m' .readyFiberListHead (ready.map .listItem)) :
    HoldsFibers m' ready dead := by
  obtain ⟨L', hheads', hitems, hm'⟩ := h
  refine ⟨L', hheads'.trans hheads, ?_, ?_, hm'⟩
  · rw [hitems, Function.update_self]
  · rw [hitems, Function.update_of_ne (by simp), hdead]

/-- Where only the dead list has been changed, the ready list is held as before. -/
theorem of_changed_dead {L : ItemLists SchedulerItem}
    (hheads : L.heads = {.readyFiberListHead, .deadFiberListHead})
    (hready : L.items .readyFiberListHead = ready.map .listItem)
    (h : ItemMemory.Changed L m' .deadFiberListHead (dead.map .listItem)) :
    HoldsFibers m' ready dead := by
  obtain ⟨L', hheads', hitems, hm'⟩ := h
  refine ⟨L', hheads'.trans hheads, ?_, ?_, hm'⟩
  · rw [hitems, Function.update_of_ne (by simp), hready]
  · rw [hitems, Function.update_self]

/-- A fiber that is in neither list is linked nowhere, as there are no lists but these two. -/
theorem unlinked {L : ItemLists SchedulerItem}
    (hheads : L.heads = {.readyFiberListHead, .deadFiberListHead})
    (hready : L.items .readyFiberListHead = ready.map .listItem)
    (hdead : L.items .deadFiberListHead = dead.map .listItem) (hr : fiber ∉ ready)
    (hd : fiber ∉ dead) : L.Unlinked (.listItem fiber) := by
  intro h hh
  rw [hheads] at hh
  rcases hh with rfl | rfl
  · simpa [hready] using hr
  · simpa [hdead] using hd

/-! ### What is read -/

/-- `List_IsEmpty` on the ready list tells whether there is a ready fiber. -/
theorem isEmpty_ready (h : HoldsFibers m ready dead) :
    m.isEmpty .readyFiberListHead = some (decide (ready = [])) := by
  obtain ⟨L, hheads, hready, -, hm⟩ := h
  rw [hm.isEmpty_eq (by simp [hheads]), hready]
  simp

/-- `List_IsEmpty` on the dead list tells whether there is a dead fiber. -/
theorem isEmpty_dead (h : HoldsFibers m ready dead) :
    m.isEmpty .deadFiberListHead = some (decide (dead = [])) := by
  obtain ⟨L, hheads, -, hdead, hm⟩ := h
  rw [hm.isEmpty_eq (by simp [hheads]), hdead]
  simp

/-- The link backwards from the head of the ready list leads to its last fiber. -/
theorem getPrev_ready (h : HoldsFibers m ready dead) (hback : ready.getLast? = some fiber) :
    m.getPrev .readyFiberListHead = some (.listItem fiber) := by
  obtain ⟨L, hheads, hready, -, hm⟩ := h
  obtain ⟨front, rfl⟩ := List.getLast?_eq_some_iff.mp hback
  rw [hm.getPrev_head (by simp [hheads])]
  simp [hready]

/-- The link backwards from the head of the dead list leads to its last fiber. -/
theorem getPrev_dead (h : HoldsFibers m ready dead) (hback : dead.getLast? = some fiber) :
    m.getPrev .deadFiberListHead = some (.listItem fiber) := by
  obtain ⟨L, hheads, -, hdead, hm⟩ := h
  obtain ⟨front, rfl⟩ := List.getLast?_eq_some_iff.mp hback
  rw [hm.getPrev_head (by simp [hheads])]
  simp [hdead]

/-- The link forwards from the head of the ready list leads to its first fiber. -/
theorem getNext_ready (h : HoldsFibers m ready dead) (hfront : ready.head? = some fiber) :
    m.getNext .readyFiberListHead = some (.listItem fiber) := by
  obtain ⟨L, hheads, hready, -, hm⟩ := h
  obtain ⟨rest, rfl⟩ := List.head?_eq_some_iff.mp hfront
  rw [hm.getNext_head (by simp [hheads])]
  simp [hready]

/-! ### What is changed -/

/-- A fiber that is in neither list can be inserted at the end of the ready one, and nothing is
allocated or freed by that. -/
theorem insertBack_ready (h : HoldsFibers m ready dead) (hr : fiber ∉ ready) (hd : fiber ∉ dead)
    (hlive : .listItem fiber ∈ m.live) :
    ∃ m', m.insertBack .readyFiberListHead (.listItem fiber) = some m' ∧ m'.live = m.live ∧
      HoldsFibers m' (ready ++ [fiber]) dead := by
  obtain ⟨L, hheads, hready, hdead, hm⟩ := h
  obtain ⟨m', hinsert, hsame, hchanged⟩ := hm.insertBack (h := .readyFiberListHead)
    (by simp [hheads]) (unlinked hheads hready hdead hr hd) hlive
  refine ⟨m', hinsert, hsame, of_changed_ready hheads hdead ?_⟩
  simpa [hready] using hchanged

/-- A fiber that is in neither list can be inserted at the front of the ready one, and nothing is
allocated or freed by that. -/
theorem insertFront_ready (h : HoldsFibers m ready dead) (hr : fiber ∉ ready) (hd : fiber ∉ dead)
    (hlive : .listItem fiber ∈ m.live) :
    ∃ m', m.insertFront .readyFiberListHead (.listItem fiber) = some m' ∧ m'.live = m.live ∧
      HoldsFibers m' (fiber :: ready) dead := by
  obtain ⟨L, hheads, hready, hdead, hm⟩ := h
  obtain ⟨m', hinsert, hsame, hchanged⟩ := hm.insertFront (h := .readyFiberListHead)
    (by simp [hheads]) (unlinked hheads hready hdead hr hd) hlive
  refine ⟨m', hinsert, hsame, of_changed_ready hheads hdead ?_⟩
  simpa [hready] using hchanged

/-- A fiber that is in neither list can be inserted at the end of the dead one, and nothing is
allocated or freed by that. -/
theorem insertBack_dead (h : HoldsFibers m ready dead) (hr : fiber ∉ ready) (hd : fiber ∉ dead)
    (hlive : .listItem fiber ∈ m.live) :
    ∃ m', m.insertBack .deadFiberListHead (.listItem fiber) = some m' ∧ m'.live = m.live ∧
      HoldsFibers m' ready (dead ++ [fiber]) := by
  obtain ⟨L, hheads, hready, hdead, hm⟩ := h
  obtain ⟨m', hinsert, hsame, hchanged⟩ := hm.insertBack (h := .deadFiberListHead)
    (by simp [hheads]) (unlinked hheads hready hdead hr hd) hlive
  refine ⟨m', hinsert, hsame, of_changed_dead hheads hready ?_⟩
  simpa [hdead] using hchanged

/-- A ready fiber can be removed from wherever it is in the list, through its own item alone. -/
theorem remove_ready (h : HoldsFibers m ready dead) (hr : fiber ∈ ready) :
    ∃ m', m.remove (.listItem fiber) = some m' ∧ m'.live = m.live ∧
      HoldsFibers m' (ready.erase fiber) dead := by
  obtain ⟨L, hheads, hready, hdead, hm⟩ := h
  obtain ⟨m', hremove, hsame, hchanged⟩ := hm.remove (h := .readyFiberListHead)
    (x := .listItem fiber) (by simp [hheads]) (by simpa [hready] using hr)
  refine ⟨m', hremove, hsame, of_changed_ready hheads hdead ?_⟩
  rwa [hready, ← List.map_erase listItem_injective] at hchanged

/-- A dead fiber can be removed from wherever it is in the list, through its own item alone. -/
theorem remove_dead (h : HoldsFibers m ready dead) (hd : fiber ∈ dead) :
    ∃ m', m.remove (.listItem fiber) = some m' ∧ m'.live = m.live ∧
      HoldsFibers m' ready (dead.erase fiber) := by
  obtain ⟨L, hheads, hready, hdead, hm⟩ := h
  obtain ⟨m', hremove, hsame, hchanged⟩ := hm.remove (h := .deadFiberListHead)
    (x := .listItem fiber) (by simp [hheads]) (by simpa [hdead] using hd)
  refine ⟨m', hremove, hsame, of_changed_dead hheads hready ?_⟩
  rwa [hdead, ← List.map_erase listItem_injective] at hchanged

end HoldsFibers

/-- A call, with what the links of a new region are. -/
structure LinkedAction where
  /-- The call. -/
  action : SchedulerAction
  /-- What is in the new region. -/
  prev : SchedulerItem
  /-- What is in the new region. -/
  next : SchedulerItem

/-- **The scheduler over its memory**, under any sequence of calls. -/
def linkedSystem : StepSystem LinkedScheduler LinkedAction where
  init self := ∃ links fibers, self = .init links fibers
  step self call := self.apply call.prev call.next call.action

end Pixy.Sched
