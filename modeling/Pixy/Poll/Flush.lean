import Pixy.Poll.Watching

/-!
# Flushing the dirty events

The loop of `IOPoller_Tick` over the dirty list. It runs from the back to the front and takes the
list apart as it goes: an event is freed or its item linked to itself, and the rest of the list is
found through the `prev` links only. `Flushing` is what holds between two rounds.

* `Flushing.flushEvent`: one round;
* `Flushing.flushLoop`: all of them;
* `Shape.flush`: the flush succeeds, and no event is dirty after it.
-/

namespace Pixy.Poll

open Pixy.Found Pixy.Store

namespace IOPoller

variable {F : Type} {p p' : IOPoller F} {dirty todo : List EventId} {e : EventId}

/-- **Between two rounds.** The events still to be flushed lead to the head of the list, and the
others are done. -/
structure Flushing (p : IOPoller F) (todo : List EventId) : Prop where
  sound : p.Sound
  pending : p.Pending
  settled : p.Settled todo
  nodup : todo.Nodup
  allocated : ∀ e ∈ todo, e ∈ p.allocated
  before : ∀ l e l', todo = l ++ e :: l' → p.links.prev (.eventItem e) =
    (Node.dirtyEventListHead :: l.map .eventItem).getLast (List.cons_ne_nil _ _)
  alone : ∀ e ∈ p.allocated, e ∉ todo → p.links.Ring (.eventItem e) []

/-- The loop begins with the whole dirty list, read from its end, and all other events settled. -/
theorem Shape.flushing (h : p.Shape dirty) : p.Flushing dirty where
  sound := h.sound
  pending := h.pending
  settled := h.settled
  nodup := (List.nodup_cons.mp h.queue.ring.2).2.of_map
  allocated := h.queue.allocated
  before l e l' hdirty := by
    have hring := h.queue.ring
    rw [hdirty, List.map_append, List.map_cons] at hring
    exact hring.neighbours.1
  alone := h.queue.alone

/-! ## One round -/

/-- The operation asked for is the one that fits: an addition where nothing is registered, a removal
where nothing is pending, and a change elsewhere. -/
theorem fits_flushOp {contents : IOEvent} (h : contents.flags ≠ contents.pendingFlags) :
    Fits (flushOp contents) contents.flags contents.pendingFlags := by
  unfold flushOp
  by_cases hflags : contents.flags = 0
  · rw [if_pos hflags]
    exact ⟨hflags, fun heq => h (hflags.trans heq.symm)⟩
  · rw [if_neg hflags]
    by_cases hpending : contents.pendingFlags = 0
    · rw [if_pos hpending]
      exact ⟨hflags, hpending⟩
    · rw [if_neg hpending]
      exact ⟨hflags, hpending⟩

/-- **Registering what is pending** for an event makes the kernel's entry agree with it, by an
addition, a change or a removal, and touches nothing else. -/
theorem Sound.registerFlags (h : p.Sound) (he : e ∈ p.allocated) :
    ∃ p', p.registerFlags e = some p' ∧ p'.Sound ∧ p'.links = p.links ∧
      p'.allocated = p.allocated ∧ p'.registered = p.registered ∧
      p'.event = Function.update p.event e { p.event e with
        flags := (p.event e).pendingFlags } := by
  by_cases hsame : (p.event e).flags = (p.event e).pendingFlags
  · refine ⟨p, if_neg fun hne => hne hsame, h, rfl, rfl, rfl, ?_⟩
    rw [← hsame, Function.update_eq_self]
  · obtain ⟨interest, ledger, hctl, hsound⟩ := h.tell he (flushOp (p.event e))
      { p.event e with flags := (p.event e).pendingFlags } (p.event e).pendingFlags rfl
      (fits_flushOp hsame) fun _ => rfl
    refine ⟨_, ?_, hsound, rfl, rfl, rfl, rfl⟩
    refine (if_pos hsame).trans ?_
    simp only [hctl, Option.bind_eq_bind, Option.bind_some, Option.pure_def]

/-- **Freeing an event** that neither a registration nor the kernel knows. -/
theorem Sound.freeBlock (h : p.Sound) (he : e ∈ p.allocated) (hflags : (p.event e).flags = 0)
    (hfree : ∀ r ∈ p.registered, r.fd ≠ (p.event e).fd) (freeSlot : Node) :
    (({ p with elements := Function.update p.elements (p.event e).fd none } :
      IOPoller F).freeBlock e freeSlot).Sound := by
  have hs := h.stored
  have hfds : ∀ x ∈ p.allocated, x ≠ e → (p.event x).fd ≠ (p.event e).fd :=
    fun x hx hxe heq => hxe (hs.event_unique hx he heq)
  refine ⟨⟨hs.vector, hs.elementSize, fun f x hf hx => ?_, fun x hx => ?_, fun r hr => ?_⟩,
    ⟨h.watches.1, h.watches.2⟩, ?_, ⟨fun x hx => ?_, fun f hf => ?_⟩, fun x => ?_⟩
  · change Function.update p.elements (p.event e).fd none f = some x at hx
    have hne : f ≠ (p.event e).fd := by
      rintro rfl
      simp at hx
    rw [Function.update_of_ne hne] at hx
    obtain ⟨hx, hxf⟩ := hs.element f x hf hx
    exact ⟨Finset.mem_erase.mpr ⟨fun heq => hne (heq ▸ hxf.symm), hx⟩, hxf⟩
  · obtain ⟨hxe, hx⟩ := Finset.mem_erase.mp hx
    simpa [IOPoller.freeBlock, hfds x hx hxe] using hs.event x hx
  · obtain ⟨x, hx, hxf⟩ := hs.registration r hr
    exact ⟨x, Finset.mem_erase.mpr ⟨fun heq => hfree r hr (heq ▸ hxf.symm), hx⟩, hxf⟩
  · refine h.rings.congr (fun y hy => ?_) (fun x hx => ⟨Finset.mem_of_mem_erase hx, rfl⟩) rfl
    have hye : y ≠ .eventItem e := by
      rintro rfl
      exact hy
    simp [IOPoller.freeBlock, hye]
  · exact h.kernel.interest x (Finset.mem_of_mem_erase hx)
  · by_cases hfe : f = (p.event e).fd
    · have hint := h.kernel.interest e he
      rw [if_pos hflags] at hint
      exact hfe ▸ hint
    · refine h.kernel.absent f fun x hx => ?_
      by_cases hxe : x = e
      · exact hxe ▸ Ne.symm hfe
      · exact hf x (Finset.mem_erase.mpr ⟨hxe, hx⟩)
  · have hx := h.history x
    by_cases hxe : x = e
    · subst hxe
      simp only [block, he, if_true, hflags] at hx
      simp [IOPoller.freeBlock, replay_append_self, hx, block, Block.step]
    · simp only [IOPoller.freeBlock]
      rw [replay_append_other (Ne.symm hxe), hx]
      simp [block, hxe]

/-- What is pending for an event is registered, and the loop stands where it stood. -/
theorem Flushing.registerFlags (h : p.Flushing todo) (he : e ∈ todo) :
    ∃ p', p.registerFlags e = some p' ∧ p'.Flushing todo ∧ p'.registered = p.registered ∧
      (p'.event e).flags = (p'.event e).pendingFlags := by
  obtain ⟨q, hq, hsound, hlinks, hallocated, hregistered, hevent⟩ :=
    h.sound.registerFlags (h.allocated e he)
  have hcontents : q.event e = { p.event e with flags := (p.event e).pendingFlags } := by
    rw [hevent, Function.update_self]
  have hother : ∀ x, x ≠ e → q.event x = p.event x := by
    intro x hx
    rw [hevent, Function.update_of_ne hx]
  refine ⟨q, hq, ⟨hsound, fun x hx => ?_, fun x hx hxd => ?_, h.nodup, fun x hx => ?_,
    fun l x l' htodo => ?_, fun x hx hxd => ?_⟩, hregistered, by rw [hcontents]⟩
  · rw [hallocated] at hx
    rw [hregistered]
    by_cases hxe : x = e
    · rw [hxe, hcontents]
      exact h.pending e (h.allocated e he)
    · rw [hother x hxe]
      exact h.pending x hx
  · have hxe : x ≠ e := by
      rintro rfl
      exact hxd he
    rw [hother x hxe]
    exact h.settled x (hallocated ▸ hx) hxd
  · rw [hallocated]
    exact h.allocated x hx
  · rw [hlinks]
    exact h.before l x l' htodo
  · rw [hlinks]
    exact h.alone x (hallocated ▸ hx) hxd

/-- The last event to flush is not one of those before it. -/
theorem Flushing.ne_last (h : p.Flushing (todo ++ [e])) : ∀ x ∈ todo, x ≠ e := by
  obtain ⟨-, -, hlast⟩ := List.nodup_append.mp h.nodup
  intro x hx
  exact hlast x hx e (List.mem_singleton_self e)

/-- What is neither before the last event nor that event was done before. -/
theorem not_mem_concat {x : EventId} (hx : x ∉ todo) (hxe : x ≠ e) : x ∉ todo ++ [e] := by
  simp [hx, hxe]

/-- Nothing is watched on the descriptor of an event that nothing is pending for. -/
theorem Pending.unregistered (h : p.Pending) (he : e ∈ p.allocated)
    (hzero : (p.event e).pendingFlags = 0) : ∀ r ∈ p.registered, r.fd ≠ (p.event e).fd := by
  intro r hr hfd
  have hnone := (mask_eq_zero _).mp ((h e he).symm.trans hzero) r.condition
  rw [← Bool.not_eq_true, watched_eq_true] at hnone
  exact hnone ⟨r, hr, hfd, rfl⟩

/-- An event for which nothing is pending **goes back to the pool**. -/
theorem Flushing.freed (h : p.Flushing (todo ++ [e])) (hflags : (p.event e).flags = 0)
    (hzero : (p.event e).pendingFlags = 0) (freeSlot : Node) :
    (({ p with elements := Function.update p.elements (p.event e).fd none } :
      IOPoller F).freeBlock e freeSlot).Flushing todo := by
  have he : e ∈ p.allocated := h.allocated e (by simp)
  refine ⟨h.sound.freeBlock he hflags (h.pending.unregistered he hzero) freeSlot, fun x hx => ?_,
    fun x hx hxd => ?_, h.nodup.of_append_left, fun x hx => ?_, fun l x l' htodo => ?_,
    fun x hx hxd => ?_⟩
  · exact h.pending x (Finset.mem_of_mem_erase hx)
  · obtain ⟨hxe, hx⟩ := Finset.mem_erase.mp hx
    exact h.settled x hx (not_mem_concat hxd hxe)
  · exact Finset.mem_erase.mpr ⟨h.ne_last x hx, h.allocated x (List.mem_append_left _ hx)⟩
  · have hxe : x ≠ e := h.ne_last x (htodo ▸ by simp)
    have hprev := h.before l x (l' ++ [e]) (by simp [htodo])
    simpa [IOPoller.freeBlock, hxe] using hprev
  · obtain ⟨hxe, hx⟩ := Finset.mem_erase.mp hx
    refine (h.alone x hx (not_mem_concat hxd hxe)).congr fun y hy => ?_
    rw [List.mem_singleton] at hy
    simp [IOPoller.freeBlock, hy, hxe]

/-- An event that is watched **stays**, and is not dirty any more. -/
theorem Flushing.kept (h : p.Flushing (todo ++ [e])) (hclean : Clean (p.event e)) :
    ({ p with links := p.links.makeEmpty (.eventItem e) } : IOPoller F).Flushing todo := by
  have hother : ∀ x, x ≠ e →
      (p.links.makeEmpty (.eventItem e)).prev (.eventItem x) = p.links.prev (.eventItem x) ∧
      (p.links.makeEmpty (.eventItem e)).next (.eventItem x) = p.links.next (.eventItem x) :=
    fun x hxe => Links.makeEmpty_other (by simpa using hxe)
  refine ⟨h.sound.makeEmpty not_false, h.pending, fun x hx hxd => ?_, h.nodup.of_append_left,
    fun x hx => h.allocated x (List.mem_append_left _ hx), fun l x l' htodo => ?_,
    fun x hx hxd => ?_⟩
  · by_cases hxe : x = e
    · exact hxe ▸ hclean
    · exact h.settled x hx (not_mem_concat hxd hxe)
  · have hxe : x ≠ e := h.ne_last x (htodo ▸ by simp)
    exact (hother x hxe).1.trans (h.before l x (l' ++ [e]) (by simp [htodo]))
  · by_cases hxe : x = e
    · subst hxe
      exact Links.ring_makeEmpty _ _
    · refine (h.alone x hx (not_mem_concat hxd hxe)).congr fun y hy => ?_
      rw [List.mem_singleton] at hy
      exact hy ▸ hother x hxe

/-- **One round**: the last event is registered as pending, and freed or linked to itself. -/
theorem Flushing.flushEvent (h : p.Flushing (todo ++ [e])) (freeSlot : Node) :
    ∃ p', p.flushEvent e freeSlot = some p' ∧ p'.Flushing todo ∧ p'.registered = p.registered := by
  obtain ⟨q, hq, hflushing, hregistered, hsame⟩ := h.registerFlags (e := e) (by simp)
  have hlt := (hflushing.sound.stored.event e (hflushing.allocated e (by simp))).1
  unfold IOPoller.flushEvent
  rw [if_pos (h.allocated e (by simp)), hq]
  simp only [Option.bind_eq_bind, Option.bind_some]
  by_cases hzero : (q.event e).flags = 0
  · refine ⟨_, ?_, hflushing.freed hzero (hsame ▸ hzero) freeSlot, hregistered⟩
    rw [if_pos hzero]
    simp [store, hlt]
  · exact ⟨_, if_neg hzero, hflushing.kept ⟨hsame, hsame ▸ hzero⟩, hregistered⟩

/-! ## All rounds -/

/-- **The loop** ends with nothing left to flush, by induction over the dirty events it still has
before it, from the last one. -/
theorem Flushing.flushLoop (h : p.Flushing todo) (freeSlot : EventId → Node) {fuel : ℕ}
    (hfuel : todo.length ≤ fuel) :
    ∃ p', IOPoller.flushLoop freeSlot fuel p
        ((Node.dirtyEventListHead :: todo.map .eventItem).getLast (List.cons_ne_nil _ _)) =
          some p' ∧
      p'.Flushing [] ∧ p'.registered = p.registered := by
  induction todo using List.reverseRecOn generalizing p fuel with
  | nil => exact ⟨p, by simp [IOPoller.flushLoop], h, rfl⟩
  | append_singleton todo e ih =>
      obtain ⟨fuel, rfl⟩ : ∃ k, fuel = k + 1 := ⟨fuel - 1, by simp at hfuel; omega⟩
      obtain ⟨q, hq, hflushing, hregistered⟩ := h.flushEvent (freeSlot e)
      obtain ⟨p', hloop, hdone, hregistered'⟩ := ih hflushing (by simpa using hfuel)
      refine ⟨p', ?_, hdone, hregistered'.trans hregistered⟩
      have hbefore := h.before todo e [] rfl
      simp [IOPoller.flushLoop, hbefore, hq, hloop]

/-- **The flush** succeeds, changes no registration, and leaves no event dirty. -/
theorem Shape.flush (h : p.Shape dirty) (freeSlot : EventId → Node) :
    ∃ p', p.flush freeSlot = some p' ∧ p'.Shape [] ∧ p'.registered = p.registered := by
  have hback := h.queue.ring.prev_head
  unfold IOPoller.flush
  by_cases hempty : dirty = []
  · subst hempty
    refine ⟨p, if_neg fun hne => hne ?_, h, rfl⟩
    simpa using hback
  · have hne : p.links.prev .dirtyEventListHead ≠ .dirtyEventListHead := fun heq => by
      have := h.queue.ring.isEmpty_iff.mp heq
      simp [hempty] at this
    have hcard : dirty.length ≤ p.allocated.card := by
      rw [← List.toFinset_card_of_nodup h.flushing.nodup]
      refine Finset.card_le_card fun x hx => ?_
      exact h.queue.allocated x (List.mem_toFinset.mp hx)
    obtain ⟨q, hloop, hdone, hregistered⟩ := h.flushing.flushLoop freeSlot hcard
    refine ⟨{ q with links := q.links.makeEmpty .dirtyEventListHead }, ?_,
      ⟨hdone.sound.makeEmpty not_false, hdone.pending,
        ⟨Links.ring_makeEmpty _ _, fun x hx hxd => ?_, by simp⟩, hdone.settled⟩, hregistered⟩
    · rw [if_pos hne, hback, hloop]
      rfl
    · refine (hdone.alone x hx hxd).congr fun y hy => Links.makeEmpty_other ?_
      rw [List.mem_singleton] at hy
      simp [hy]

end IOPoller

end Pixy.Poll
