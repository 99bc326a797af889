import Pixy.Poll.Registered

/-!
# What holds of the poller

The invariant in parts: what is `Stored` in the event vector, the `Watches` and the `Rings` they are
linked in, what the `Kernel` was told, the `History` of the blocks; then the flags that are
`Pending`, the `Queue` of dirty events, and that every other event is `Settled`.

* `Rings.congr`, `Queue.congr`: watch lists and dirty list are made of different nodes;
* `Queue.markDirty`: what marking an event does to the queue;
* `Sound.tell`: telling the kernel of new flags, by the operation that fits them;
* `Sound.repend`, `Sound.markDirty`: changes of what is pending, and of the queue, break nothing.
-/

namespace Pixy.Poll

open Pixy.Found Pixy.Store

/-! ## Blocks -/

/-- What a block of the pool is: free, an event the kernel knows nothing of, or one it points to. -/
inductive Block
  | free
  | idle
  | held
  deriving DecidableEq

/-- What may happen to a block, and what it is then. -/
def Block.step : Block → BlockStep → Option Block
  | free, .allocate => some idle
  | idle, .hold => some held
  | held, .drop => some idle
  | idle, .free => some free
  | _, _ => none

/-- The history of one block, from the beginning. -/
def Block.replay (ledger : List (EventId × BlockStep)) (event : EventId) : Option Block :=
  ((ledger.filter fun entry => entry.1 = event).map (·.2)).foldlM Block.step .free

section Replay

variable {ledger : List (EventId × BlockStep)} {event other : EventId} {step : BlockStep}

/-- The ledger of a block goes on with the step that is added for it. -/
theorem replay_append_self : Block.replay (ledger ++ [(event, step)]) event =
    (Block.replay ledger event).bind fun block => block.step step := by
  simp [Block.replay, List.foldlM_append]

/-- A step of one block does not appear in the ledger of another. -/
theorem replay_append_other (h : event ≠ other) :
    Block.replay (ledger ++ [(event, step)]) other = Block.replay ledger other := by
  simp [Block.replay, h]

end Replay

namespace IOPoller

variable {F : Type}

/-! ## The invariant -/

/-- The events of the vector are those of the pool, each at its descriptor, and there is one for
every descriptor that is registered. -/
structure Stored (p : IOPoller F) : Prop where
  /-- The vector's sizes fit. -/
  vector : p.eventVector.WellSized
  /-- Its elements are pointers. -/
  elementSize : p.eventVector.elementSize = 8
  /-- A pointer in the vector is to an event of that descriptor. -/
  element : ∀ (fd : ℕ) (e : EventId), 8 * fd < p.eventVector.size.toNat → p.elements fd = some e →
    e ∈ p.allocated ∧ (p.event e).fd = fd
  /-- An event is in the vector. -/
  event : ∀ e ∈ p.allocated, ((p.event e).fd : ℤ) < p.eventVector.length ∧
    p.elements (p.event e).fd = some e
  /-- A registration has an event. -/
  registration : ∀ r ∈ p.registered, ∃ e ∈ p.allocated, (p.event e).fd = r.fd

/-- No watch is registered twice, and a watch knows what it waits for. -/
structure Watches (p : IOPoller F) : Prop where
  /-- The watches are different. -/
  nodup : (p.registered.map (·.watch)).Nodup
  /-- The condition is in the watch. -/
  condition : ∀ r ∈ p.registered, (p.watch r.watch).condition = r.condition

/-- The items of the ring of an event and a condition. -/
def items (p : IOPoller F) (e : EventId) (c : IOCondition) : List Node :=
  (watchesOf p.registered (p.event e).fd c).map .watchItem

/-- The watches of an event are linked in the order of their registration. -/
def Rings (p : IOPoller F) : Prop :=
  ∀ e ∈ p.allocated, ∀ c, p.links.Ring (.watchListHead e c) (p.items e c)

/-- The kernel's interest set is what the flags say. -/
structure Kernel (p : IOPoller F) : Prop where
  /-- The kernel has the flags of every event. -/
  interest : ∀ e ∈ p.allocated, p.interest (p.event e).fd =
    if (p.event e).flags = 0 then none else some ((p.event e).flags, e)
  /-- And nothing else. -/
  absent : ∀ fd, (∀ e ∈ p.allocated, (p.event e).fd ≠ fd) → p.interest fd = none

/-- What the block of an event is. -/
def block (p : IOPoller F) (e : EventId) : Block :=
  if e ∈ p.allocated then (if (p.event e).flags = 0 then .idle else .held) else .free

/-- The history of every block is possible and has led to what the block is. -/
def History (p : IOPoller F) : Prop := ∀ e, Block.replay p.ledger e = some (p.block e)

/-- What holds at all times. -/
structure Sound (p : IOPoller F) : Prop where
  stored : p.Stored
  watches : p.Watches
  rings : p.Rings
  kernel : p.Kernel
  history : p.History

/-- What is pending is what is watched. -/
def Pending (p : IOPoller F) : Prop :=
  ∀ e ∈ p.allocated, (p.event e).pendingFlags = mask (watched p.registered (p.event e).fd)

/-- The dirty events, in order; the item of any other event is linked to itself. -/
structure Queue (p : IOPoller F) (dirty : List EventId) : Prop where
  ring : p.links.Ring .dirtyEventListHead (dirty.map .eventItem)
  alone : ∀ e ∈ p.allocated, e ∉ dirty → p.links.Ring (.eventItem e) []
  allocated : ∀ e ∈ dirty, e ∈ p.allocated

/-- There is nothing to register or to free. -/
def Clean (contents : IOEvent) : Prop :=
  contents.flags = contents.pendingFlags ∧ contents.pendingFlags ≠ 0

/-- Events that are not dirty are clean. -/
def Settled (p : IOPoller F) (dirty : List EventId) : Prop :=
  ∀ e ∈ p.allocated, e ∉ dirty → Clean (p.event e)

/-- **The invariant.** -/
structure Shape (p : IOPoller F) (dirty : List EventId) : Prop where
  sound : p.Sound
  pending : p.Pending
  queue : p.Queue dirty
  settled : p.Settled dirty

/-! ## Reading the invariant -/

variable {p p' : IOPoller F} {dirty : List EventId} {e e' : EventId} {fd : ℕ} {c c' : IOCondition}
  {w : WatchId}

/-- A descriptor is within the bounds of the vector, counted in elements, exactly if its pointer is,
counted in bytes. -/
theorem Stored.lt_length (h : p.Stored) :
    (fd : ℤ) < p.eventVector.length ↔ 8 * fd + 8 ≤ p.eventVector.size.toNat := by
  have hlength := h.vector.length
  rw [h.elementSize] at hlength
  have height : (8 : BitVec 64).toNat = 8 := rfl
  rw [height] at hlength
  omega

/-- A descriptor has at most one event, namely the one that its element of the vector points to. -/
theorem Stored.event_unique (h : p.Stored) (he : e ∈ p.allocated) (he' : e' ∈ p.allocated)
    (hfd : (p.event e).fd = (p.event e').fd) : e = e' := by
  have heq := (h.event e' he').2
  rw [← hfd, (h.event e he).2] at heq
  exact Option.some.inj heq

/-- What `events[fd]` reads, if it is no null pointer, is an event in use and the one of this
descriptor. -/
theorem Stored.load_eq_some (h : p.Stored) (hload : p.load fd = some (some e)) :
    e ∈ p.allocated ∧ (p.event e).fd = fd := by
  unfold load at hload
  split at hload
  · rename_i hlt
    refine h.element fd e ?_ (by simpa using hload)
    have := h.lt_length.mp hlt
    omega
  · simp at hload

/-- If `events[fd]` is a null pointer, then no event in use is the one of this descriptor. -/
theorem Stored.load_eq_none (h : p.Stored) (hload : p.load fd = some none) (he : e ∈ p.allocated) :
    (p.event e).fd ≠ fd := by
  rintro rfl
  simp [load, h.event e he] at hload

/-- A watch is a node of one ring only: the rings of different conditions or events have no node in
common. -/
theorem Watches.items_disjoint (h : p.Watches) (hs : p.Stored) (he : e ∈ p.allocated)
    (he' : e' ∈ p.allocated) (hne : ¬(e = e' ∧ c = c')) {y : Node}
    (hy : y ∈ .watchListHead e c :: p.items e c) : y ∉ .watchListHead e' c' :: p.items e' c' := by
  intro hy'
  simp only [items, List.mem_cons, List.mem_map] at hy hy'
  rcases hy with rfl | ⟨w, hw, rfl⟩
  · rcases hy' with heq | ⟨w, -, heq⟩
    · simp only [Node.watchListHead.injEq] at heq
      exact hne heq
    · simp at heq
  · rcases hy' with heq | ⟨w', hw', heq⟩
    · simp at heq
    · simp only [Node.watchItem.injEq] at heq
      subst heq
      obtain ⟨hfd, hc⟩ := registration_unique h.nodup (mem_watchesOf.mp hw) (mem_watchesOf.mp hw')
      exact hne ⟨hs.event_unique he he' hfd, hc⟩

/-! ## What an operation leaves alone -/

/-- The nodes of watch lists. -/
def IsWatchNode : Node → Prop
  | .watchListHead _ _ => True
  | .watchItem _ => True
  | _ => False

/-- In the ring of an event and a condition there are the head and watches, and no item of the dirty
list. -/
theorem isWatchNode_of_mem_ring {y : Node} (hy : y ∈ .watchListHead e c :: p.items e c) :
    IsWatchNode y := by
  simp only [items, List.mem_cons, List.mem_map] at hy
  rcases hy with rfl | ⟨w, -, rfl⟩ <;> trivial

/-- In the dirty list there are its head and items of events, and no node of a ring of watches. -/
theorem not_isWatchNode_of_mem_queue {y : Node}
    (hy : y ∈ .dirtyEventListHead :: dirty.map .eventItem) : ¬IsWatchNode y := by
  simp only [List.mem_cons, List.mem_map] at hy
  rcases hy with rfl | ⟨e, -, rfl⟩ <;> exact not_false

/-- The rings of the watches are seen through their own nodes, so a change to the dirty list leaves
them what they are. -/
theorem Rings.congr (h : p.Rings)
    (hlinks : ∀ y, IsWatchNode y → p'.links.prev y = p.links.prev y ∧
      p'.links.next y = p.links.next y)
    (hevents : ∀ e ∈ p'.allocated, e ∈ p.allocated ∧ (p'.event e).fd = (p.event e).fd)
    (hregistered : p'.registered = p.registered) : p'.Rings := by
  intro e he c
  obtain ⟨he, hfd⟩ := hevents e he
  have hitems : p'.items e c = p.items e c := by rw [items, items, hfd, hregistered]
  rw [hitems]
  exact (h e he c).congr fun y hy => hlinks y (isWatchNode_of_mem_ring hy)

/-- The dirty list is seen through the nodes that belong to no watch list, so links that differ in
the watch lists alone form the same queue. -/
theorem Queue.congr (h : p.Queue dirty)
    (hlinks : ∀ y, ¬IsWatchNode y → p'.links.prev y = p.links.prev y ∧
      p'.links.next y = p.links.next y)
    (hevents : p'.allocated = p.allocated) : p'.Queue dirty := by
  refine ⟨h.ring.congr fun y hy => hlinks y (not_isWatchNode_of_mem_queue hy), fun e he hd => ?_,
    fun e he => hevents ▸ h.allocated e he⟩
  refine (h.alone e (hevents ▸ he) hd).congr fun y hy => hlinks y ?_
  rw [List.mem_singleton] at hy
  exact hy ▸ not_false

/-- **Marking an event as dirty** puts it into the queue and touches no watch. -/
theorem Queue.markDirty (h : p.Queue dirty) (he : e ∈ p.allocated) :
    ∃ dirty', (p.markDirty e).Queue dirty' ∧ (∀ x, x ∈ dirty' ↔ x ∈ dirty ∨ x = e) ∧
      ∀ y, IsWatchNode y → (p.markDirty e).links.prev y = p.links.prev y ∧
        (p.markDirty e).links.next y = p.links.next y := by
  by_cases hd : e ∈ dirty
  · have hlinked : ¬p.links.IsEmpty (.eventItem e) := by
      obtain ⟨l, l', rfl⟩ := List.mem_iff_append.mp hd
      have hring := h.ring
      rw [List.map_append, List.map_cons] at hring
      exact hring.neighbours_mem.2.2.1
    have heq : p.markDirty e = p := by simp [IOPoller.markDirty, hlinked]
    rw [heq]
    refine ⟨dirty, h, fun x => ⟨.inl, ?_⟩, fun y _ => ⟨rfl, rfl⟩⟩
    rintro (hx | rfl)
    · exact hx
    · exact hd
  · have hempty : p.links.IsEmpty (.eventItem e) := (h.alone e he hd).isEmpty_iff.mpr rfl
    have hlinks : (p.markDirty e).links =
        p.links.insertBack .dirtyEventListHead (.eventItem e) := by
      simp [IOPoller.markDirty, hempty]
    have hnew : Node.eventItem e ∉ .dirtyEventListHead :: dirty.map .eventItem := by simpa using hd
    refine ⟨dirty ++ [e], ⟨?_, fun x hx hxd => ?_, fun x hx => ?_⟩, by simp, fun y hy => ?_⟩
    · rw [hlinks, List.map_append]
      exact h.ring.insertBack hnew
    · rw [hlinks]
      rw [List.mem_append, List.mem_singleton, not_or] at hxd
      refine (h.alone x hx hxd.1).congr fun y hy => h.ring.insertBack_other ?_
      rw [List.mem_singleton] at hy
      subst hy
      simpa using hxd.symm
    · rcases List.mem_append.mp hx with hx | hx
      · exact h.allocated x hx
      · exact List.mem_singleton.mp hx ▸ he
    · rw [hlinks]
      refine h.ring.insertBack_other fun hin => ?_
      rcases List.mem_cons.mp hin with rfl | hin
      · exact hy
      · exact not_isWatchNode_of_mem_queue hin hy

/-- Links that no watch list is made of are free to change. -/
theorem Sound.relink (h : p.Sound) {links : Links Node}
    (hlinks : ∀ y, IsWatchNode y → links.prev y = p.links.prev y ∧ links.next y = p.links.next y) :
    ({ p with links } : IOPoller F).Sound :=
  ⟨⟨h.stored.1, h.stored.2, h.stored.3, h.stored.4, h.stored.5⟩, ⟨h.watches.1, h.watches.2⟩,
    h.rings.congr hlinks (fun _ hx => ⟨hx, rfl⟩) rfl, ⟨h.kernel.1, h.kernel.2⟩, h.history⟩

/-- Marking an event as dirty changes links of the queue only, so the rest of the poller is as sound
as before. -/
theorem Sound.markDirty (h : p.Sound) (hq : p.Queue dirty) (he : e ∈ p.allocated) :
    (p.markDirty e).Sound := by
  obtain ⟨-, -, -, hlinks⟩ := hq.markDirty he
  exact h.relink hlinks

/-- A node of the queue may be linked to itself, which no ring of watches sees. -/
theorem Sound.makeEmpty (h : p.Sound) {n : Node} (hn : ¬IsWatchNode n) :
    ({ p with links := p.links.makeEmpty n } : IOPoller F).Sound := by
  refine h.relink fun y hy => Links.makeEmpty_other ?_
  rintro rfl
  exact hn hy

/-! ## Writing to an event -/

/-- The contents of the events after one was written to: this one has the new ones, and the others
have theirs. -/
theorem write_event (contents : IOEvent) (x : EventId) :
    (p.write e contents).event x = if x = e then contents else p.event x := by
  simp [write, Function.update_apply]

/-- A write that keeps the descriptor leaves the descriptors of all events. -/
theorem write_fd {contents : IOEvent} (hfd : contents.fd = (p.event e).fd) (x : EventId) :
    ((p.write e contents).event x).fd = (p.event x).fd := by
  rw [write_event]
  split
  · next hx => rw [hx, hfd]
  · rfl

/-- An event may be written over, as long as it stays of the same descriptor: what is stored where
does not depend on its flags. -/
theorem Stored.write (h : p.Stored) {contents : IOEvent} (hfd : contents.fd = (p.event e).fd) :
    (p.write e contents).Stored := by
  refine ⟨h.vector, h.elementSize, fun fd x hlt hx => ?_, fun x hx => ?_, fun r hr => ?_⟩
  · rw [write_fd hfd]
    exact h.element fd x hlt hx
  · rw [write_fd hfd]
    exact h.event x hx
  · obtain ⟨x, hx, hxfd⟩ := h.registration r hr
    exact ⟨x, hx, by rwa [write_fd hfd]⟩

/-- **What is pending may be changed at any time**, since the kernel and the lists of watches know
nothing of it. -/
theorem Sound.repend (h : p.Sound) {contents : IOEvent} (hfd : contents.fd = (p.event e).fd)
    (hflags : contents.flags = (p.event e).flags) : (p.write e contents).Sound := by
  have hsame : ∀ x, ((p.write e contents).event x).flags = (p.event x).flags := by
    intro x
    rw [write_event]
    split
    · next hx => rw [hx, hflags]
    · rfl
  refine ⟨h.stored.write hfd, ⟨h.watches.1, h.watches.2⟩, ?_, ⟨fun x hx => ?_, fun fd hfds => ?_⟩,
    fun x => ?_⟩
  · exact h.rings.congr (fun y _ => ⟨rfl, rfl⟩) (fun x hx => ⟨hx, write_fd hfd x⟩) rfl
  · rw [write_fd hfd, hsame]
    exact h.kernel.interest x hx
  · exact h.kernel.absent fd fun x hx => write_fd hfd x ▸ hfds x hx
  · have hblock : (p.write e contents).block x = p.block x := by
      rw [block, block, hsame]
      rfl
    rw [hblock]
    exact h.history x

/-- **Once the pending flags of an event are right again** and it is marked as dirty, the whole
invariant holds, if it held of the others. -/
theorem Sound.pend (h : p.Sound) (hq : p.Queue dirty) (he : e ∈ p.allocated) (contents : IOEvent)
    (hfd : contents.fd = (p.event e).fd) (hflags : contents.flags = (p.event e).flags)
    (hself : contents.pendingFlags = mask (watched p.registered contents.fd))
    (hother : ∀ x ∈ p.allocated, x ≠ e →
      (p.event x).pendingFlags = mask (watched p.registered (p.event x).fd))
    (hclean : ∀ x ∈ p.allocated, x ∉ dirty → x ≠ e → Clean (p.event x)) :
    ∃ dirty', e ∈ dirty' ∧ ((p.write e contents).markDirty e).Shape dirty' := by
  have hwrite : (p.write e contents).Sound := h.repend hfd hflags
  have hqueue : (p.write e contents).Queue dirty := hq.congr (fun y _ => ⟨rfl, rfl⟩) rfl
  obtain ⟨dirty', hq', hmem, -⟩ := hqueue.markDirty (e := e) he
  have hevent : ∀ x, ((p.write e contents).markDirty e).event x =
      if x = e then contents else p.event x := write_event contents
  refine ⟨dirty', (hmem e).mpr (.inr rfl), hwrite.markDirty hqueue he, fun x hx => ?_, hq',
    fun x hx hxd => ?_⟩
  · rw [hevent]
    split
    · exact hself
    · next hxe => exact hother x hx hxe
  · rw [hmem, not_or] at hxd
    rw [hevent, if_neg hxd.2]
    exact hclean x hx hxd.1 hxd.2

/-- The operation that turns the flags of an event into others. -/
def Fits (op : EpollOp) (flags flags' : BitVec 32) : Prop :=
  match op with
  | .epollCtlAdd => flags = 0 ∧ flags' ≠ 0
  | .epollCtlMod => flags ≠ 0 ∧ flags' ≠ 0
  | .epollCtlDel => flags ≠ 0 ∧ flags' = 0

/-- What the kernel makes of an operation that fits: it carries it out, and its entry for the
descriptor is as asked. -/
theorem Sound.xepollCtl (h : p.Sound) (he : e ∈ p.allocated) (op : EpollOp) {flags : BitVec 32}
    (asked : BitVec 32) (hfits : Fits op (p.event e).flags flags)
    (hasked : flags ≠ 0 → asked = flags) :
    ∃ ledger, p.xepollCtl op (p.event e).fd asked e = some { p with
        interest := Function.update p.interest (p.event e).fd
          (if flags = 0 then none else some (flags, e))
        ledger := ledger } ∧
      Block.replay ledger e = some (if flags = 0 then .idle else .held) ∧
      ∀ x, x ≠ e → Block.replay ledger x = Block.replay p.ledger x := by
  have hint := h.kernel.interest e he
  have hself : Block.replay p.ledger e =
      some (if (p.event e).flags = 0 then .idle else .held) := by
    have hhistory := h.history e
    simpa [block, he] using hhistory
  cases op with
  | epollCtlAdd =>
      obtain ⟨hzero, hnew⟩ := hfits
      rw [if_pos hzero] at hint hself
      refine ⟨p.ledger ++ [(e, .hold)], ?_, ?_, fun x hx => replay_append_other (Ne.symm hx)⟩
      · rw [if_neg hnew]
        simp [IOPoller.xepollCtl, hint, hasked hnew]
      · rw [if_neg hnew]
        simp [replay_append_self, hself, Block.step]
  | epollCtlMod =>
      obtain ⟨hold, hnew⟩ := hfits
      rw [if_neg hold] at hint hself
      refine ⟨p.ledger ++ [(e, .drop)] ++ [(e, .hold)], ?_, ?_, fun x hx => ?_⟩
      · rw [if_neg hnew]
        simp [IOPoller.xepollCtl, hint, hasked hnew]
      · rw [if_neg hnew, replay_append_self, replay_append_self, hself]
        rfl
      · rw [replay_append_other (Ne.symm hx), replay_append_other (Ne.symm hx)]
  | epollCtlDel =>
      obtain ⟨hold, hnew⟩ := hfits
      rw [if_neg hold] at hint hself
      refine ⟨p.ledger ++ [(e, .drop)], ?_, ?_, fun x hx => replay_append_other (Ne.symm hx)⟩
      · rw [if_pos hnew]
        simp [IOPoller.xepollCtl, hint]
      · rw [if_pos hnew]
        simp [replay_append_self, hself, Block.step]

/-- An event's flags, the interest set and the history change together. -/
theorem Sound.told (h : p.Sound) (he : e ∈ p.allocated) {contents : IOEvent}
    (hfd : contents.fd = (p.event e).fd) {ledger : List (EventId × BlockStep)}
    (hself : Block.replay ledger e = some (if contents.flags = 0 then .idle else .held))
    (hother : ∀ x, x ≠ e → Block.replay ledger x = Block.replay p.ledger x) :
    (IOPoller.write { p with
        interest := Function.update p.interest (p.event e).fd
          (if contents.flags = 0 then none else some (contents.flags, e))
        ledger := ledger } e contents).Sound := by
  have hstored : Stored { p with
      interest := Function.update p.interest (p.event e).fd
        (if contents.flags = 0 then none else some (contents.flags, e))
      ledger := ledger } :=
    ⟨h.stored.1, h.stored.2, h.stored.3, h.stored.4, h.stored.5⟩
  have hfds := write_fd (p := p) hfd
  refine ⟨hstored.write hfd, ⟨h.watches.1, h.watches.2⟩, ?_, ⟨fun x hx => ?_, fun fd hnone => ?_⟩,
    fun x => ?_⟩
  · exact h.rings.congr (fun y _ => ⟨rfl, rfl⟩) (fun x hx => ⟨hx, hfds x⟩) rfl
  · by_cases hxe : x = e
    · subst hxe
      simp [write, hfd]
    · have hne : (p.event x).fd ≠ (p.event e).fd :=
        fun heq => hxe (h.stored.event_unique hx he heq)
      simpa [write, hne, hxe] using h.kernel.interest x hx
  · have hne : fd ≠ (p.event e).fd := fun heq => hnone e he ((hfds e).trans heq.symm)
    have habsent := h.kernel.absent fd fun x hx heq => hnone x hx ((hfds x).trans heq)
    simpa [write, hne] using habsent
  · by_cases hxe : x = e
    · subst hxe
      have hx : x ∈ p.allocated := he
      simpa [block, write, hx] using hself
    · have hhistory := h.history x
      simpa [block, write, hxe, hother x hxe] using hhistory

/-- **Telling the kernel.** The operation that fits succeeds, and with the flags in the event what
the kernel has is again what the events say. -/
theorem Sound.tell (h : p.Sound) (he : e ∈ p.allocated) (op : EpollOp) (contents : IOEvent)
    (asked : BitVec 32) (hfd : contents.fd = (p.event e).fd)
    (hfits : Fits op (p.event e).flags contents.flags)
    (hasked : contents.flags ≠ 0 → asked = contents.flags) :
    ∃ interest ledger, p.xepollCtl op (p.event e).fd asked e =
        some { p with interest := interest, ledger := ledger } ∧
      ({ p with interest := interest, ledger := ledger }.write e contents).Sound := by
  obtain ⟨ledger, hctl, hself, hother⟩ := h.xepollCtl he op asked hfits hasked
  exact ⟨_, ledger, hctl, h.told he hfd hself hother⟩

/-- The rest of the invariant does not look at the flags of a dirty event. -/
theorem Shape.tell (h : p.Shape dirty) (hd : e ∈ dirty) (op : EpollOp) (flags asked : BitVec 32)
    (hfits : Fits op (p.event e).flags flags) (hasked : flags ≠ 0 → asked = flags) :
    ∃ interest ledger, p.xepollCtl op (p.event e).fd asked e =
        some { p with interest := interest, ledger := ledger } ∧
      ({ p with interest := interest, ledger := ledger }.write e
        { p.event e with flags := flags }).Shape dirty := by
  have he := h.queue.allocated e hd
  obtain ⟨interest, ledger, hctl, hsound⟩ :=
    h.sound.tell he op { p.event e with flags := flags } asked rfl hfits hasked
  refine ⟨interest, ledger, hctl, hsound, fun x hx => ?_, h.queue.congr (fun y _ => ⟨rfl, rfl⟩) rfl,
    fun x hx hxd => ?_⟩
  · rw [write_event]
    split
    · exact h.pending e he
    · exact h.pending x hx
  · have hxe : x ≠ e := fun heq => hxd (heq ▸ hd)
    rw [write_event, if_neg hxe]
    exact h.settled x hx hxd

end IOPoller

end Pixy.Poll
