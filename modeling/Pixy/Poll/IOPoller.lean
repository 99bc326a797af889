import Mathlib
import Pixy.Found.Ring
import Pixy.Found.Runs
import Pixy.Poll.Async

/-!
# The I/O poller

`IOPoller.c` as state passing, down to the links of the intrusive lists. A block of
`eventMemoryPool` is named by an `EventId`, the memory of a `struct IOWatch` by a `WatchId`, and
what can be linked is a `Node`: the list item of an event or of a watch, or the head of a list.

The kernel's side of `epoll` is part of the state: the interest set, with the mask and the pointer
that were registered for each descriptor. `xepollCtl` is `none` where the code would abort for an
`ADD` of a present descriptor or a `MOD` or `DEL` of an absent one. An access to an event that is
not allocated, an element beyond the end of the event vector and a `CONTAINER_OF` that does not lead
to the head it is written for are `none` as well.

Two fields are no part of the program: `registered` is what the calls so far mean, as a list of
registrations, and `ledger` is what has happened to the blocks of the pool.
-/

namespace Pixy.Poll

open Pixy.Found Pixy.Store

/-- The memory of a `struct IOEvent`. -/
abbrev EventId := ℕ

/-- The memory of a `struct IOWatch`. -/
abbrev WatchId := ℕ

/-- A descriptor; every function asserts that it is not negative. -/
abbrev FD := ℕ

/-- Source: `IOPoller.h`, `enum IOCondition`. -/
inductive IOCondition
  | ioReadable
  | ioWritable
  deriving DecidableEq, Repr

/-- Source: `sys/epoll.h`, as used by `IOPoller.c`. -/
def epollIn : BitVec 32 := 0x001

@[inherit_doc epollIn] def epollOut : BitVec 32 := 0x004

@[inherit_doc epollIn] def epollErr : BitVec 32 := 0x008

@[inherit_doc epollIn] def epollHup : BitVec 32 := 0x010

/-- Source: `IOPoller.c`, `IOEventFlags`. -/
def ioEventFlags : IOCondition → BitVec 32
  | .ioReadable => epollIn
  | .ioWritable => epollOut

/-- What is linked into a list, or is the head of one. -/
inductive Node
  | dirtyEventListHead
  | eventItem (event : EventId)
  | watchListHead (event : EventId) (condition : IOCondition)
  | watchItem (watch : WatchId)
  deriving DecidableEq

/-- Source: `IOPoller.c`, `struct IOEvent`, without the links. -/
structure IOEvent where
  /-- The descriptor. -/
  fd : FD
  /-- What is registered with the kernel. -/
  flags : BitVec 32
  /-- What should be. -/
  pendingFlags : BitVec 32

/-- Source: `IOPoller.h`, `struct IOWatch`, without the links. -/
structure IOWatch (F : Type) where
  /-- What is waited for. -/
  condition : IOCondition
  /-- What the callback is called with. -/
  data : ℕ
  /-- What is called. -/
  callback : F

/-- A call of `IOPoller_SetWatch` that is in force. -/
structure Registration where
  /-- The watch. -/
  watch : WatchId
  /-- The descriptor. -/
  fd : FD
  /-- What is waited for. -/
  condition : IOCondition
  deriving DecidableEq

/-- What can happen to a block of the pool. -/
inductive BlockStep
  | allocate
  | hold
  | drop
  | free
  deriving DecidableEq

/-- Source: `sys/epoll.h`, the operations of `epoll_ctl`. -/
inductive EpollOp
  | epollCtlAdd
  | epollCtlMod
  | epollCtlDel

/-- What `epoll_wait` returns: interrupted by a signal, or some descriptors with what was found. -/
inductive EpollWait
  | interrupted
  | ready (evs : List (FD × BitVec 32))

/-- Source: `IOPoller.h`, `struct IOPoller`, with the memory of the events and the watches. -/
structure IOPoller (F : Type) where
  /-- The vector of events. -/
  eventVector : Vector
  /-- Its elements; `none` is `NULL`. -/
  elements : ℕ → Option EventId
  /-- The blocks of `eventMemoryPool` in use. -/
  allocated : Finset EventId
  /-- The contents of the events. -/
  event : EventId → IOEvent
  /-- The contents of the watches. -/
  watch : WatchId → IOWatch F
  /-- The links of all list items and heads. -/
  links : Links Node
  /-- The kernel's interest set: mask and pointer. -/
  interest : FD → Option (BitVec 32 × EventId)
  /-- The watches set and not cleared, in the order they were set. -/
  registered : List Registration
  /-- The history of the blocks. -/
  ledger : List (EventId × BlockStep)

namespace IOPoller

variable {F : Type}

/-- The memory is not initialized: `event`, `watch` and `links` are whatever they are.
Source: `IOPoller.c`, `IOPoller_Initialize`. -/
def init (event : EventId → IOEvent) (watch : WatchId → IOWatch F) (links : Links Node) :
    IOPoller F where
  eventVector := .init 8
  elements := fun _ => none
  allocated := ∅
  event := event
  watch := watch
  links := links.makeEmpty .dirtyEventListHead
  interest := fun _ => none
  registered := []
  ledger := []

/-! ## Events -/

/-- `events[fd]`, within bounds. -/
def load (self : IOPoller F) (fd : FD) : Option (Option EventId) :=
  if fd < self.eventVector.length then some (self.elements fd) else none

/-- `events[fd] = x`, within bounds. -/
def store (self : IOPoller F) (fd : FD) (x : Option EventId) : Option (IOPoller F) :=
  if fd < self.eventVector.length then
    some { self with elements := Function.update self.elements fd x }
  else none

/-- Write to an event. -/
def write (self : IOPoller F) (event : EventId) (contents : IOEvent) : IOPoller F :=
  { self with event := Function.update self.event event contents }

/-- Put an event into the dirty list unless it is there: an item linked to itself is in no list. -/
def markDirty (self : IOPoller F) (event : EventId) : IOPoller F :=
  { self with
    links :=
      if self.links.IsEmpty (.eventItem event) then
        self.links.insertBack .dirtyEventListHead (.eventItem event)
      else self.links }

/-- Source: `IOPoller.c`, `xepoll_ctl`, and what the kernel does. -/
def xepollCtl (self : IOPoller F) (op : EpollOp) (fd : FD) (mask : BitVec 32) (event : EventId) :
    Option (IOPoller F) :=
  match op, self.interest fd with
  | .epollCtlAdd, none =>
    some { self with
      interest := Function.update self.interest fd (some (mask, event))
      ledger := self.ledger ++ [(event, .hold)] }
  | .epollCtlMod, some (_, held) =>
    some { self with
      interest := Function.update self.interest fd (some (mask, event))
      ledger := self.ledger ++ [(held, .drop), (event, .hold)] }
  | .epollCtlDel, some (_, held) =>
    some { self with
      interest := Function.update self.interest fd none
      ledger := self.ledger ++ [(held, .drop)] }
  | _, _ => none

/-- Source: `IOPoller.c`, the growth of the event vector in `IOPoller_SetWatch`; the new elements
are zeroed (`Vector.c`, `Vector_SetLength`). -/
def growEvents (self : IOPoller F) (fd : FD) (reallocated : Bool) : IOPoller F × Bool :=
  if fd ≥ self.eventVector.length then
    let (eventVector, grown) := self.eventVector.setLength (fd + 1) reallocated
    let zeroed i := self.eventVector.size.toNat ≤ 8 * i ∧ 8 * i < eventVector.size.toNat
    ({ self with
        eventVector := eventVector
        elements := fun i => if zeroed i then none else self.elements i }, grown)
  else (self, true)

/-- A new event from the pool, which hands out blocks that are not in use.
Source: `IOPoller.c`, the branch of `IOPoller_SetWatch` for a descriptor without event. -/
def newEvent (self : IOPoller F) (fd : FD) (event : EventId) : Option (IOPoller F) :=
  if event ∈ self.allocated then none
  else
    let self := { self with
      allocated := insert event self.allocated
      ledger := self.ledger ++ [(event, BlockStep.allocate)] }
    let self := self.write event { fd := fd, flags := 0, pendingFlags := 0 }
    let self := { self with
      links := ((self.links.makeEmpty (.watchListHead event .ioReadable)).makeEmpty
        (.watchListHead event .ioWritable)).makeEmpty (.eventItem event) }
    self.store fd (some event)

/-! ## Watches -/

/-- The last part of `IOPoller_SetWatch`, where the event is known. -/
def addWatch (self : IOPoller F) (watch : WatchId) (fd : FD) (condition : IOCondition) (data : ℕ)
    (callback : F) (event : EventId) : Option (IOPoller F) :=
  if event ∈ self.allocated then
    let self := { self with
      watch := Function.update self.watch watch ⟨condition, data, callback⟩
      links := self.links.insertBack (.watchListHead event condition) (.watchItem watch)
      registered := self.registered ++ [⟨watch, fd, condition⟩] }
    let contents := self.event event
    if contents.pendingFlags &&& ioEventFlags condition = 0 then
      some ((self.write event
        { contents with
          pendingFlags := contents.pendingFlags ||| ioEventFlags condition }).markDirty event)
    else some self
  else none

/-- `reallocated` tells whether the vector could grow, `block` is what the pool returns.
Source: `IOPoller.c`, `IOPoller_SetWatch`. -/
def setWatch (self : IOPoller F) (watch : WatchId) (fd : FD) (condition : IOCondition) (data : ℕ)
    (callback : F) (reallocated : Bool) (block : Option EventId) : Option (IOPoller F × Bool) :=
  match self.growEvents fd reallocated with
  | (self, false) => some (self, false)
  | (self, true) => do
    match ← self.load fd, block with
    | some event, _ =>
      let self ← self.addWatch watch fd condition data callback event
      return (self, true)
    | none, none => return (self, false)
    | none, some event =>
      let self ← self.newEvent fd event
      let self ← self.addWatch watch fd condition data callback event
      return (self, true)

/-- Source: `IOPoller.c`, `IOPoller_ClearWatch`. -/
def clearWatch (self : IOPoller F) (watch : WatchId) : Option (IOPoller F) :=
  let item := Node.watchItem watch
  let self := { self with
    links := self.links.remove item
    registered := self.registered.filter fun r => r.watch ≠ watch }
  if self.links.prev item = self.links.next item then
    let condition := (self.watch watch).condition
    match self.links.prev item with
    | .watchListHead event head =>
      if head = condition ∧ event ∈ self.allocated then
        let contents := self.event event
        some ((self.write event
          { contents with
            pendingFlags := contents.pendingFlags &&& ~~~ioEventFlags condition }).markDirty event)
      else none
    | _ => none
  else some self

/-- The part of `IOPoller_ClearWatches` after the descriptor was found to have an event. -/
def clearEvent (self : IOPoller F) (fd : FD) (event : EventId) : Option (IOPoller F) :=
  if event ∈ self.allocated then do
    let self := { self with
      links := (self.links.makeEmpty (.watchListHead event .ioReadable)).makeEmpty
        (.watchListHead event .ioWritable)
      registered := self.registered.filter fun r => r.fd ≠ fd }
    let self := self.write event { self.event event with pendingFlags := 0 }
    let self := self.markDirty event
    if (self.event event).flags ≠ 0 then do
      let self ← self.xepollCtl .epollCtlDel fd 0 event
      return self.write event { self.event event with flags := 0 }
    else return self
  else none

/-- Source: `IOPoller.c`, `IOPoller_ClearWatches`. -/
def clearWatches (self : IOPoller F) (fd : FD) : Option (IOPoller F) :=
  if fd ≥ self.eventVector.length then some self
  else do
    match ← self.load fd with
    | none => return self
    | some event => self.clearEvent fd event

/-! ## The dirty list -/

/-- What the flush asks the kernel for. Source: `IOPoller.c`, `IOPoller_Tick`. -/
def flushOp (contents : IOEvent) : EpollOp :=
  if contents.flags = 0 then .epollCtlAdd
  else if contents.pendingFlags = 0 then .epollCtlDel
  else .epollCtlMod

/-- `freeSlot` is what the pool writes over the first word of the block, a link of the event's item.
Source: `MemoryPool.c`, `MemoryPool_FreeBlock`. -/
def freeBlock (self : IOPoller F) (event : EventId) (freeSlot : Node) : IOPoller F :=
  { self with
    allocated := self.allocated.erase event
    links := { self.links with
      prev := Function.update self.links.prev (.eventItem event) freeSlot }
    ledger := self.ledger ++ [(event, .free)] }

/-- Register what is pending for an event. Source: `IOPoller.c`, `IOPoller_Tick`, first half of the
loop over the dirty events. -/
def registerFlags (self : IOPoller F) (event : EventId) : Option (IOPoller F) :=
  let contents := self.event event
  if contents.flags ≠ contents.pendingFlags then do
    let self ← self.xepollCtl (flushOp contents) contents.fd contents.pendingFlags event
    return self.write event { contents with flags := contents.pendingFlags }
  else some self

/-- Source: `IOPoller.c`, `IOPoller_Tick`, the body of the loop over the dirty events. -/
def flushEvent (self : IOPoller F) (event : EventId) (freeSlot : Node) : Option (IOPoller F) :=
  if event ∈ self.allocated then do
    let self ← self.registerFlags event
    let contents := self.event event
    if contents.flags = 0 then do
      let self ← self.store contents.fd none
      return self.freeBlock event freeSlot
    else return { self with links := self.links.makeEmpty (.eventItem event) }
  else none

/-- The loop over the dirty events, from the back; the link to the event before is read before the
event is flushed. Source: `IOPoller.c`, `IOPoller_Tick`. -/
def flushLoop (freeSlot : EventId → Node) : ℕ → IOPoller F → Node → Option (IOPoller F)
  | _, self, .dirtyEventListHead => some self
  | fuel + 1, self, .eventItem event => do
    let before := self.links.prev (.eventItem event)
    let self ← self.flushEvent event (freeSlot event)
    flushLoop freeSlot fuel self before
  | _, _, _ => none

/-- Source: `IOPoller.c`, `IOPoller_Tick` up to `epoll_wait`. -/
def flush (self : IOPoller F) (freeSlot : EventId → Node) : Option (IOPoller F) :=
  let back := self.links.prev .dirtyEventListHead
  if back ≠ .dirtyEventListHead then do
    let self ← flushLoop freeSlot self.allocated.card self back
    return { self with links := self.links.makeEmpty .dirtyEventListHead }
  else some self

/-! ## Waiting -/

/-- One entry of what `epoll_wait` returns: a descriptor of the interest set, with flags out of
those asked for and the two that are always reported. -/
def reported (self : IOPoller F) (ev : FD × BitVec 32) : Option (EventId × BitVec 32) :=
  match self.interest ev.1 with
  | some (mask, event) =>
    if ev.2 ≠ 0 ∧ ev.2 &&& ~~~(mask ||| epollErr ||| epollHup) = 0 then some (event, ev.2) else none
  | none => none

/-- At most as many entries as there is room for, each for another descriptor. -/
def epollWait (self : IOPoller F) (evs : List (FD × BitVec 32)) :
    Option (List (EventId × BitVec 32)) :=
  if evs.length ≤ 8192 ∧ (evs.map (·.1)).Nodup then evs.mapM self.reported else none

/-- The loop over the watches of a list: the items are met one after the other, and each has its
callback collected. Source: `IOPoller.c`, `IOPoller_Tick`. -/
def collect (self : IOPoller F) (memory : ℕ → Bool) (async : Async F) :
    List Node → Option (Async F × Bool)
  | [] => some (async, true)
  | .watchItem watch :: items =>
    match async.addCall (self.watch watch).callback (self.watch watch).data
        (memory async.calls.length) with
    | (async, false) => some (async, false)
    | (async, true) => self.collect memory async items
  | _ :: _ => none

/-- One of the two halves of the loop over the events that `epoll_wait` returned.
Source: `IOPoller.c`, `IOPoller_Tick`. -/
def collectCondition (self : IOPoller F) (memory : ℕ → Bool) (async : Async F)
    (ev : EventId × BitVec 32) (condition : IOCondition) : Option (Async F × Bool) :=
  if ev.2 &&& (ioEventFlags condition ||| epollErr ||| epollHup) ≠ 0 then do
    let head := Node.watchListHead ev.1 condition
    let items ← self.links.walk head (self.registered.length + 1) (self.links.next head)
    self.collect memory async items
  else some (async, true)

/-- Source: `IOPoller.c`, `IOPoller_Tick`, the loop over the events that `epoll_wait` returned. -/
def collectEvents (self : IOPoller F) (memory : ℕ → Bool) (async : Async F) :
    List (EventId × BitVec 32) → Option (Async F × Bool)
  | [] => some (async, true)
  | ev :: evs =>
    if ev.1 ∈ self.allocated then do
      match ← self.collectCondition memory async ev .ioReadable with
      | (async, false) => return (async, false)
      | (async, true) =>
        match ← self.collectCondition memory async ev .ioWritable with
        | (async, false) => return (async, false)
        | (async, true) => self.collectEvents memory async evs
    else none

/-- Source: `IOPoller.c`, `IOPoller_Tick`. -/
def tick (self : IOPoller F) (freeSlot : EventId → Node) (outcome : EpollWait) (memory : ℕ → Bool)
    (async : Async F) : Option (IOPoller F × Async F × Bool) := do
  let self ← self.flush freeSlot
  match outcome with
  | .interrupted => return (self, async, false)
  | .ready evs =>
    let evs ← self.epollWait evs
    let (async, ok) ← self.collectEvents memory async evs
    return (self, async, ok)

end IOPoller

/-! ## The system -/

/-- One call of one of the four functions, with the environment's choices. -/
inductive PollAction (F : Type)
  /-- A call of `IOPoller_SetWatch`. -/
  | setWatch (watch : WatchId) (fd : FD) (condition : IOCondition) (data : ℕ) (callback : F)
      (reallocated : Bool) (block : Option EventId)
  /-- A call of `IOPoller_ClearWatch`. -/
  | clearWatch (watch : WatchId)
  /-- A call of `IOPoller_ClearWatches`. -/
  | clearWatches (fd : FD)
  /-- A call of `IOPoller_Tick`. -/
  | tick (freeSlot : EventId → Node) (outcome : EpollWait) (memory : ℕ → Bool) (async : Async F)

namespace PollAction

variable {F : Type}

/-- What the callers see to: a watch is set while it is not in use and cleared while it is, and a
descriptor is an `int` whose successor is one. -/
def Allowed (poller : IOPoller F) : PollAction F → Prop
  | setWatch watch fd _ _ _ _ _ => watch ∉ poller.registered.map (·.watch) ∧ fd + 1 < 2 ^ 31
  | clearWatch watch => watch ∈ poller.registered.map (·.watch)
  | clearWatches _ => True
  | tick _ _ _ _ => True

instance (poller : IOPoller F) (action : PollAction F) : Decidable (action.Allowed poller) := by
  cases action <;> unfold Allowed <;> infer_instance

/-- The call itself. -/
def perform (poller : IOPoller F) : PollAction F → Option (IOPoller F)
  | setWatch watch fd condition data callback reallocated block =>
    (poller.setWatch watch fd condition data callback reallocated block).map (·.1)
  | clearWatch watch => poller.clearWatch watch
  | clearWatches fd => poller.clearWatches fd
  | tick freeSlot outcome memory async =>
    (poller.tick freeSlot outcome memory async).map (·.1)

end PollAction

/-- **The poller under any sequence of calls.** -/
def pollSystem (F : Type) : StepSystem (IOPoller F) (PollAction F) where
  init poller := ∃ event watch links, poller = .init event watch links
  step poller action := if action.Allowed poller then action.perform poller else none

end Pixy.Poll
