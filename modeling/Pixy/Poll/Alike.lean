import Pixy.Poll.Contents

/-!
# Clearing all watches at once, or each

Two pollers are `Alike` if they have the same registrations and the same events for them; links,
flags and the kernel's interest set need not be the same.

* `Shape.flush_exact`: what a flush leads to, told by the registrations and the events stored before
  it;
* `Alike.setWatch`, `Alike.clearWatch`: the same calls keep pollers alike;
* `clearWatches_eq_each`: clearing all watches of a descriptor and clearing each of them, in any
  order, make no difference to the calls that follow, nor to the kernel after the next flush.
-/

namespace Pixy.Poll

open Pixy.Found Pixy.Store

namespace IOPoller

variable {F : Type} {p p' q : IOPoller F} {dirty : List EventId} {e : EventId} {fd : FD}
  {c : IOCondition} {w : WatchId}

/-! ## What a flush leads to -/

/-- The event stored for a descriptor. -/
def stored (p : IOPoller F) (fd : FD) : Option EventId := (p.load fd).join

/-- An event is stored for a descriptor if the vector reaches to it and has the event there. -/
theorem stored_eq_some : p.stored fd = some e ↔ p.load fd = some (some e) :=
  Option.join_eq_some_iff

/-- In a poller of the right shape the event stored for a descriptor is the one in use that is of
this descriptor. -/
theorem Stored.stored_iff (h : p.Stored) :
    p.stored fd = some e ↔ e ∈ p.allocated ∧ (p.event e).fd = fd := by
  rw [stored_eq_some]
  constructor
  · exact h.load_eq_some
  · rintro ⟨he, rfl⟩
    obtain ⟨hlt, helement⟩ := h.event e he
    rw [load, if_pos hlt, helement]

/-- Telling the kernel of an event neither frees an event nor changes the descriptor of one. -/
theorem events_registerFlags (h : p.registerFlags e = some p') (x : EventId) :
    p'.allocated = p.allocated ∧ (p'.event x).fd = (p.event x).fd := by
  unfold registerFlags at h
  dsimp only at h
  split_ifs at h
  · obtain ⟨q, hctl, heq⟩ := Option.bind_eq_some_iff.mp h
    obtain rfl := Option.some.inj heq
    have hq : q.allocated = p.allocated ∧ q.event = p.event := by
      unfold xepollCtl at hctl
      split at hctl <;> cases hctl <;> exact ⟨rfl, rfl⟩
    refine ⟨hq.1, ?_⟩
    rw [write_fd (by rw [hq.2]), hq.2]
  · cases h
    exact ⟨rfl, rfl⟩

/-- A round of the flush brings no event and changes no descriptor. -/
theorem events_flushEvent {freeSlot : Node} (h : p.flushEvent e freeSlot = some p') {x : EventId}
    (hx : x ∈ p'.allocated) : x ∈ p.allocated ∧ (p'.event x).fd = (p.event x).fd := by
  unfold flushEvent at h
  split_ifs at h
  obtain ⟨q, hregister, h⟩ := Option.bind_eq_some_iff.mp h
  obtain ⟨hallocated, hfd⟩ := events_registerFlags hregister x
  dsimp only at h
  split_ifs at h
  · obtain ⟨r, hstore, h⟩ := Option.bind_eq_some_iff.mp h
    unfold store at hstore
    split_ifs at hstore
    cases hstore
    cases h
    exact ⟨hallocated ▸ Finset.mem_of_mem_erase hx, hfd⟩
  · cases h
    exact ⟨hallocated ▸ hx, hfd⟩

/-- What is left of the events after the loop was there before, of the same descriptor: the loop
frees some and creates none. -/
theorem events_flushLoop {freeSlot : EventId → Node} {fuel : ℕ} {node : Node}
    (h : flushLoop freeSlot fuel p node = some p') {x : EventId} (hx : x ∈ p'.allocated) :
    x ∈ p.allocated ∧ (p'.event x).fd = (p.event x).fd := by
  induction fuel generalizing p node with
  | zero =>
      cases node <;> simp only [flushLoop, Option.some.injEq, reduceCtorEq] at h
      subst h
      exact ⟨hx, rfl⟩
  | succ fuel ih =>
      cases node <;> simp only [flushLoop, Option.some.injEq, reduceCtorEq] at h
      · subst h
        exact ⟨hx, rfl⟩
      · obtain ⟨q, hevent, hrest⟩ := Option.bind_eq_some_iff.mp h
        obtain ⟨hq, hfd⟩ := ih hrest
        obtain ⟨hp, hfd'⟩ := events_flushEvent hevent hq
        exact ⟨hp, hfd.trans hfd'⟩

/-- What is left of the events after a flush was there before, of the same descriptor. -/
theorem events_flush {freeSlot : EventId → Node} (h : p.flush freeSlot = some p') {x : EventId}
    (hx : x ∈ p'.allocated) : x ∈ p.allocated ∧ (p'.event x).fd = (p.event x).fd := by
  unfold flush at h
  dsimp only at h
  split_ifs at h
  · obtain ⟨q, hloop, heq⟩ := Option.bind_eq_some_iff.mp h
    obtain rfl := Option.some.inj heq
    exact events_flushLoop hloop hx
  · cases h
    exact ⟨hx, rfl⟩

/-- The event that the flush leaves stored for a descriptor. -/
def kept (p : IOPoller F) (fd : FD) : Option EventId :=
  if mask (watched p.registered fd) = 0 then none else p.stored fd

/-- **What a flush leads to**: the events of the watched descriptors are kept, and the kernel has
them and nothing else. -/
theorem Shape.flush_exact (h : p.Shape dirty) (freeSlot : EventId → Node) :
    ∃ q, p.flush freeSlot = some q ∧ q.registered = p.registered ∧ q.stored = p.kept ∧
      ∀ fd, q.interest fd = (p.kept fd).map fun e => (mask (watched p.registered fd), e) := by
  obtain ⟨q, hflush, hshape, hregistered⟩ := h.flush freeSlot
  have hevents : ∀ fd e, q.stored fd = some e → p.kept fd = some e := by
    intro fd e hstored
    obtain ⟨he, rfl⟩ := hshape.sound.stored.stored_iff.mp hstored
    obtain ⟨hp, hfd⟩ := events_flush hflush he
    obtain ⟨r, hr, hrfd⟩ := hshape.allocated_watched he
    have hne : mask (watched p.registered (q.event e).fd) ≠ 0 := by
      rw [Ne, mask_eq_zero]
      intro hnone
      have hfalse := hnone r.condition
      rw [← Bool.not_eq_true, watched_eq_true] at hfalse
      exact hfalse ⟨r, hregistered ▸ hr, hrfd, rfl⟩
    rw [kept, if_neg hne]
    exact h.sound.stored.stored_iff.mpr ⟨hp, hfd.symm⟩
  have hstored : q.stored = p.kept := by
    funext fd
    by_cases hzero : mask (watched p.registered fd) = 0
    · rw [kept, if_pos hzero, Option.eq_none_iff_forall_ne_some]
      intro e heq
      have hkept := hevents fd e heq
      rw [kept, if_pos hzero] at hkept
      cases hkept
    · -- what is watched has an event, and the flush has none of its own
      obtain ⟨c, hc⟩ : ∃ c, watched p.registered fd c = true := by
        by_contra hnone
        push Not at hnone
        exact hzero ((mask_eq_zero _).mpr fun c => by simpa using hnone c)
      obtain ⟨r, hr, rfl, -⟩ := watched_eq_true.mp hc
      obtain ⟨e, he, hfd⟩ := hshape.sound.stored.registration r (hregistered ▸ hr)
      have hq : q.stored r.fd = some e := hshape.sound.stored.stored_iff.mpr ⟨he, hfd⟩
      rw [hq, hevents _ e hq]
  refine ⟨q, hflush, hregistered, hstored, fun fd => ?_⟩
  rw [← hstored, ← hregistered]
  rcases hq : q.stored fd with _ | e
  · refine hshape.sound.kernel.absent fd fun e he hfd => ?_
    rw [hshape.sound.stored.stored_iff.mpr ⟨he, hfd⟩] at hq
    cases hq
  · obtain ⟨he, rfl⟩ := hshape.sound.stored.stored_iff.mp hq
    obtain ⟨hflags, hne⟩ := hshape.settled e he List.not_mem_nil
    rw [hshape.sound.kernel.interest e he, hflags, if_neg hne, hshape.pending e he]
    rfl

/-! ## Pollers that are alike -/

/-- **Two pollers have the same registrations**, and the same events for them. -/
structure Alike (p q : IOPoller F) : Prop where
  eventVector : p.eventVector = q.eventVector
  elements : p.elements = q.elements
  allocated : p.allocated = q.allocated
  watch : p.watch = q.watch
  registered : p.registered = q.registered
  /-- An event is of the same descriptor. -/
  fd : ∀ e, (p.event e).fd = (q.event e).fd

namespace Alike

/-- Every poller is like itself, whatever is pending in it and whichever events are dirty. -/
theorem refl (p : IOPoller F) : p.Alike p := ⟨rfl, rfl, rfl, rfl, rfl, fun _ => rfl⟩

/-- To be alike is symmetric, as it says that two pollers agree on certain fields. -/
theorem symm (h : p.Alike q) : q.Alike p :=
  ⟨h.eventVector.symm, h.elements.symm, h.allocated.symm, h.watch.symm, h.registered.symm,
    fun e => (h.fd e).symm⟩

/-- To be alike is transitive, so pollers can be compared step by step. -/
theorem trans {r : IOPoller F} (h : p.Alike q) (h' : q.Alike r) : p.Alike r :=
  ⟨h.eventVector.trans h'.eventVector, h.elements.trans h'.elements, h.allocated.trans h'.allocated,
    h.watch.trans h'.watch, h.registered.trans h'.registered, fun e => (h.fd e).trans (h'.fd e)⟩

/-- Pollers that are alike have the same in the vector at every descriptor, or reach to it neither
of them. -/
theorem load (h : p.Alike q) (fd : FD) : p.load fd = q.load fd := by
  rw [IOPoller.load, IOPoller.load, h.eventVector, h.elements]

/-- Pollers that are alike have the same event stored for every descriptor. -/
theorem stored (h : p.Alike q) (fd : FD) : p.stored fd = q.stored fd := by
  rw [IOPoller.stored, h.load, IOPoller.stored]

/-- A flush keeps the same events in pollers that are alike, since which ones it keeps depends on
the registrations only. -/
theorem kept (h : p.Alike q) : p.kept = q.kept := by
  funext fd
  rw [IOPoller.kept, IOPoller.kept, h.registered, h.stored]

/-- Linking the same watch in pollers that are alike leaves them alike, whatever their rings and
flags are. -/
theorem linked (h : p.Alike q) (w : WatchId) (fd : FD) (contents : IOWatch F) (e : EventId) :
    (p.linked w fd contents e).Alike (q.linked w fd contents e) where
  eventVector := h.eventVector
  elements := h.elements
  allocated := h.allocated
  watch := by simp only [IOPoller.linked, h.watch]
  registered := by simp only [IOPoller.linked, h.registered]
  fd := h.fd

/-- Unlinking the same watch in pollers that are alike leaves them alike, whatever their rings and
flags are. -/
theorem unlinked (h : p.Alike q) (w : WatchId) : (p.unlinked w).Alike (q.unlinked w) where
  eventVector := h.eventVector
  elements := h.elements
  allocated := h.allocated
  watch := h.watch
  registered := by simp only [IOPoller.unlinked, h.registered]
  fd := h.fd

end Alike

/-- What is pending for an event and whether it is dirty make no difference, as long as its
descriptor stays the same. -/
theorem alike_write {contents : IOEvent} (hfd : contents.fd = (p.event e).fd) :
    ((p.write e contents).markDirty e).Alike p :=
  ⟨rfl, rfl, rfl, rfl, rfl, write_fd hfd⟩

/-- Up to flags and the dirty list, adding a watch is just linking it. -/
theorem alike_addWatch {data : ℕ} {callback : F} (h : p.addWatch w fd c data callback e = some p') :
    p'.Alike (p.linked w fd ⟨c, data, callback⟩ e) := by
  unfold addWatch at h
  split_ifs at h
  dsimp only at h
  split_ifs at h
  · cases h
    exact alike_write rfl
  · cases h
    exact .refl _

/-- Up to flags and the dirty list, clearing a watch is just unlinking it. -/
theorem alike_clearWatch (h : p.clearWatch w = some p') : p'.Alike (p.unlinked w) := by
  unfold clearWatch at h
  dsimp only at h
  split_ifs at h
  · split at h
    · split_ifs at h
      cases h
      exact alike_write rfl
    · cases h
  · cases h
    exact .refl _

/-- Up to flags and the dirty list, clearing the watches of an event is just emptying its rings. -/
theorem alike_clearEvent (h : p.clearEvent fd e = some p') : p'.Alike (p.emptied fd e) := by
  unfold clearEvent at h
  split_ifs at h
  have hwrite : (((p.emptied fd e).write e
      { p.event e with pendingFlags := 0 }).markDirty e).Alike (p.emptied fd e) := alike_write rfl
  dsimp only at h
  split_ifs at h
  · obtain ⟨q, hctl, heq⟩ := Option.bind_eq_some_iff.mp h
    obtain rfl := Option.some.inj heq
    refine .trans ?_ hwrite
    unfold xepollCtl at hctl
    split at hctl
    all_goals
      cases hctl
      try exact ⟨rfl, rfl, rfl, rfl, rfl, write_fd rfl⟩
  · cases h
    exact hwrite

/-! ## The same calls -/

namespace Alike

/-- Pollers that are alike grow their vectors alike, with the same result. -/
theorem growEvents (h : p.Alike q) (fd : FD) (reallocated : Bool) :
    (p.growEvents fd reallocated).1.Alike (q.growEvents fd reallocated).1 ∧
      (p.growEvents fd reallocated).2 = (q.growEvents fd reallocated).2 := by
  unfold IOPoller.growEvents
  rw [h.eventVector]
  split_ifs
  · refine ⟨⟨rfl, ?_, h.allocated, h.watch, h.registered, h.fd⟩, rfl⟩
    simp only [h.elements]
  · exact ⟨h, rfl⟩

/-- Where one of two pollers that are alike can create an event, the other can, and they are alike
then. -/
theorem newEvent (h : p.Alike q) (hnew : p.newEvent fd e = some p') :
    ∃ q', q.newEvent fd e = some q' ∧ p'.Alike q' := by
  unfold IOPoller.newEvent at hnew ⊢
  split_ifs at hnew with he
  rw [if_neg (h.allocated ▸ he)]
  simp only [IOPoller.store] at hnew ⊢
  split_ifs at hnew with hlt
  · obtain rfl := Option.some.inj hnew
    have hlt' : (fd : ℤ) < q.eventVector.length := h.eventVector ▸ hlt
    refine ⟨_, if_pos hlt', h.eventVector, ?_, ?_, h.watch, h.registered, fun x => ?_⟩
    · simp only [IOPoller.write, h.elements]
    · simp only [IOPoller.write, h.allocated]
    · simp only [IOPoller.write, Function.update_apply]
      split_ifs
      · rfl
      · exact h.fd x

/-- Where one of two pollers that are alike can add a watch, the other can, and they are alike
then. -/
theorem addWatch (h : p.Alike q) {data : ℕ} {callback : F}
    (hadd : p.addWatch w fd c data callback e = some p') :
    ∃ q', q.addWatch w fd c data callback e = some q' ∧ p'.Alike q' := by
  have he : e ∈ q.allocated := by
    unfold IOPoller.addWatch at hadd
    split_ifs at hadd with he
    exact h.allocated ▸ he
  obtain ⟨q', hq⟩ : ∃ q', q.addWatch w fd c data callback e = some q' := by
    unfold IOPoller.addWatch
    rw [if_pos he]
    dsimp only
    split_ifs
    · exact ⟨_, rfl⟩
    · exact ⟨_, rfl⟩
  exact ⟨q', hq, (alike_addWatch hadd).trans ((h.linked _ _ _ _).trans (alike_addWatch hq).symm)⟩

/-- **Setting the same watch** has the same outcome in two pollers that are alike, also where an
allocation fails, and leaves them alike. -/
theorem setWatch (h : p.Alike q) {data : ℕ} {callback : F} {reallocated : Bool}
    {block : Option EventId} {ok : Bool}
    (hset : p.setWatch w fd c data callback reallocated block = some (p', ok)) :
    ∃ q', q.setWatch w fd c data callback reallocated block = some (q', ok) ∧ p'.Alike q' := by
  obtain ⟨hgrown, hsame⟩ := h.growEvents fd reallocated
  unfold IOPoller.setWatch at hset ⊢
  rcases hp : p.growEvents fd reallocated with ⟨p₁, grown⟩
  rcases hq : q.growEvents fd reallocated with ⟨q₁, grown'⟩
  rw [hp, hq] at hgrown hsame
  dsimp only at hgrown hsame
  subst hsame
  rw [hp] at hset
  rcases grown with _ | _
  · cases hset
    exact ⟨q₁, rfl, hgrown⟩
  · dsimp only at hset ⊢
    obtain ⟨element, hload, hset⟩ := Option.bind_eq_some_iff.mp hset
    rw [hgrown.load] at hload
    rw [hload]
    rcases element with _ | event
    · rcases block with _ | event
      · cases hset
        exact ⟨q₁, rfl, hgrown⟩
      · obtain ⟨p₂, hnew, hset⟩ := Option.bind_eq_some_iff.mp hset
        obtain ⟨p₃, hadd, heq⟩ := Option.bind_eq_some_iff.mp hset
        obtain ⟨rfl, rfl⟩ := Prod.mk.inj (Option.some.inj heq)
        obtain ⟨q₂, hnew', halike⟩ := hgrown.newEvent hnew
        obtain ⟨q₃, hadd', halike'⟩ := halike.addWatch hadd
        refine ⟨q₃, ?_, halike'⟩
        simp only [Option.bind_eq_bind, Option.bind_some, hnew', hadd', Option.pure_def]
    · obtain ⟨p₃, hadd, heq⟩ := Option.bind_eq_some_iff.mp hset
      obtain ⟨rfl, rfl⟩ := Prod.mk.inj (Option.some.inj heq)
      obtain ⟨q₃, hadd', halike'⟩ := hgrown.addWatch hadd
      refine ⟨q₃, ?_, halike'⟩
      simp only [Option.bind_eq_bind, Option.bind_some, hadd', Option.pure_def]

/-- **Clearing the same watch** is possible in both of two pollers that are alike, and leaves them
alike. -/
theorem clearWatch (h : p.Alike q) {dirty : List EventId} (hshape : q.Shape dirty)
    (hw : w ∈ q.registered.map (·.watch)) (hclear : p.clearWatch w = some p') :
    ∃ q', q.clearWatch w = some q' ∧ p'.Alike q' := by
  obtain ⟨q', -, hq, -, -⟩ := hshape.clearWatch hw
  exact ⟨q', hq, (alike_clearWatch hclear).trans ((h.unlinked w).trans (alike_clearWatch hq).symm)⟩

end Alike

/-! ## All at once, or each -/

/-- Clearing all watches of a descriptor touches the registrations and what is pending, and none of
the other fields. -/
theorem alike_clearWatches (h : p.clearWatches fd = some p') {registered : List Registration}
    (hregistered : p'.registered = registered) : p'.Alike { p with registered := registered } := by
  unfold clearWatches at h
  split_ifs at h
  · cases h
    exact ⟨rfl, rfl, rfl, rfl, hregistered, fun _ => rfl⟩
  · obtain ⟨element, -, h⟩ := Option.bind_eq_some_iff.mp h
    rcases element with _ | event
    · cases h
      exact ⟨rfl, rfl, rfl, rfl, hregistered, fun _ => rfl⟩
    · obtain ⟨hvector, helements, hallocated, hwatch, -, hfd⟩ := alike_clearEvent h
      exact ⟨hvector, helements, hallocated, hwatch, hregistered, hfd⟩

/-- Clearing one watch leaves the others registered, so they may be cleared after it. -/
theorem registered_of_ne {v w : WatchId}
    (hregistered : p'.registered = p.registered.filter (fun r => r.watch ≠ w))
    (hv : v ∈ p.registered.map (·.watch)) (hne : v ≠ w) : v ∈ p'.registered.map (·.watch) := by
  obtain ⟨r, hr, rfl⟩ := List.mem_map.mp hv
  refine List.mem_map.mpr ⟨r, ?_, rfl⟩
  rw [hregistered, List.mem_filter, decide_eq_true_eq]
  exact ⟨hr, hne⟩

/-- **Some watches are cleared**, one after the other, by induction over the list of them; what is
left registered are the other ones. -/
theorem Shape.clearEach (h : p.Shape dirty) {ws : List WatchId} (hnodup : ws.Nodup)
    (hws : ∀ w ∈ ws, w ∈ p.registered.map (·.watch)) :
    ∃ p' dirty', (pollSystem F).run p (ws.map .clearWatch) = some p' ∧ p'.Shape dirty' ∧
      p'.Alike { p with registered := p.registered.filter fun r => r.watch ∉ ws } := by
  induction ws generalizing p dirty with
  | nil =>
      refine ⟨p, dirty, rfl, h, rfl, rfl, rfl, rfl, ?_, fun _ => rfl⟩
      simp
  | cons w ws ih =>
      obtain ⟨hfresh, hnodup⟩ := List.nodup_cons.mp hnodup
      have hw := hws w List.mem_cons_self
      obtain ⟨p₁, dirty₁, hclear, hshape, hregistered⟩ := h.clearWatch hw
      have hrest := fun v hv =>
        registered_of_ne hregistered (hws v (List.mem_cons_of_mem w hv))
          (ne_of_mem_of_not_mem hv hfresh)
      obtain ⟨p', dirty', hrun, hshape', halike⟩ := ih hshape hnodup hrest
      obtain ⟨hvector, helements, hallocated, hwatch, -, hfd⟩ := alike_clearWatch hclear
      refine ⟨p', dirty', ?_, hshape', halike.trans ⟨hvector, helements, hallocated, hwatch,
        ?_, hfd⟩⟩
      · have hstep : (pollSystem F).step p (.clearWatch w) = some p₁ := (if_pos hw).trans hclear
        rw [List.map_cons, StepSystem.run, hstep, Option.bind_some, hrun]
      · show p₁.registered.filter _ = _
        rw [hregistered, List.filter_filter]
        refine List.filter_congr fun r _ => ?_
        simp [Bool.and_comm]

/-- A watch is linked for a descriptor. -/
def Linked (p : IOPoller F) (fd : FD) (w : WatchId) : Prop :=
  ∃ e c items, p.load fd = some (some e) ∧ p.links.Ring (.watchListHead e c) items ∧
    .watchItem w ∈ items

/-- What is linked below the event of a descriptor is what has been registered for it, with some
condition or other. -/
theorem Shape.linked_iff (h : p.Shape dirty) : p.Linked fd w ↔ ∃ c, ⟨w, fd, c⟩ ∈ p.registered := by
  constructor
  · rintro ⟨e, c, items, hload, hring, hw⟩
    obtain ⟨he, rfl⟩ := h.sound.stored.load_eq_some hload
    rw [hring.unique (h.sound.rings e he c), IOPoller.items, List.mem_map] at hw
    obtain ⟨v, hv, heq⟩ := hw
    obtain rfl := Node.watchItem.inj heq
    exact ⟨c, mem_watchesOf.mp hv⟩
  · rintro ⟨c, hr⟩
    obtain ⟨e, he, hfd⟩ := h.sound.stored.registration _ hr
    obtain rfl : (p.event e).fd = fd := hfd
    refine ⟨e, c, p.items e c, stored_eq_some.mp (h.sound.stored.stored_iff.mpr ⟨he, rfl⟩),
      h.sound.rings e he c, ?_⟩
    exact List.mem_map_of_mem (mem_watchesOf.mpr hr)

/-- **The same watches are linked**, in the same order, and the same conditions are pending. -/
def SameWatches (p q : IOPoller F) : Prop :=
  ∀ fd, p.load fd = q.load fd ∧ ∀ e, p.load fd = some (some e) →
    (p.event e).pendingFlags = (q.event e).pendingFlags ∧
    ∀ c, ∃ items, p.links.Ring (.watchListHead e c) items ∧ q.links.Ring (.watchListHead e c) items

/-- Pollers of the right shape that are alike have the same watches linked in the same order, as the
rings hold the registrations. -/
theorem Alike.sameWatches {dirty' : List EventId} (h : p.Alike q) (hp : p.Shape dirty)
    (hq : q.Shape dirty') : p.SameWatches q := by
  refine fun fd => ⟨h.load fd, fun e hload => ?_⟩
  obtain ⟨he, rfl⟩ := hp.sound.stored.load_eq_some hload
  have he' : e ∈ q.allocated := h.allocated ▸ he
  refine ⟨?_, fun c => ⟨p.items e c, hp.sound.rings e he c, ?_⟩⟩
  · rw [hp.pending e he, hq.pending e he', h.registered, h.fd]
  · have hitems : p.items e c = q.items e c := by rw [items, items, h.registered, h.fd]
    rw [hitems]
    exact hq.sound.rings e he' c

end IOPoller

/-- A call of `IOPoller_SetWatch` or `IOPoller_ClearWatch`. -/
def PollAction.OnWatch {F : Type} : PollAction F → Prop
  | setWatch .. | clearWatch _ => True
  | clearWatches _ | tick .. => False

section Runs

variable {F : Type} {p p' q : IOPoller F} {dirty dirty' : List EventId} {fd : FD}

open IOPoller

/-- **One call on a watch** that one of two alike pollers can make the other one can make too, and
they are alike afterwards. -/
theorem IOPoller.Alike.step (h : p.Alike q) (hq : q.Shape dirty) {call : PollAction F}
    (hon : call.OnWatch) (hstep : (pollSystem F).step p call = some p') :
    ∃ q', (pollSystem F).step q call = some q' ∧ p'.Alike q' := by
  simp only [pollSystem, Option.ite_none_right_eq_some] at hstep ⊢
  obtain ⟨hallowed, hperform⟩ := hstep
  cases call with
  | setWatch watch fd condition data callback reallocated block =>
      obtain ⟨⟨p₁, ok⟩, hset, rfl⟩ := Option.map_eq_some_iff.mp hperform
      obtain ⟨q', hset', halike⟩ := h.setWatch hset
      refine ⟨q', ⟨?_, ?_⟩, halike⟩
      · exact ⟨h.registered ▸ hallowed.1, hallowed.2⟩
      · rw [PollAction.perform, hset', Option.map_some]
  | clearWatch watch =>
      have hw : watch ∈ q.registered.map (·.watch) := h.registered ▸ hallowed
      obtain ⟨q', hclear, halike⟩ := h.clearWatch hq hw hperform
      exact ⟨q', ⟨hw, hclear⟩, halike⟩
  | clearWatches fd => cases hon
  | tick freeSlot outcome memory async => cases hon

/-- **Any number of calls on watches** that one of two alike pollers can make the other one can make
too, by induction over the calls. -/
theorem IOPoller.Alike.run (h : p.Alike q) (hp : p.Shape dirty) (hq : q.Shape dirty')
    {calls : List (PollAction F)} (hcalls : ∀ call ∈ calls, call.OnWatch)
    (hrun : (pollSystem F).run p calls = some p') :
    ∃ q' d d', (pollSystem F).run q calls = some q' ∧ p'.Alike q' ∧ p'.Shape d ∧ q'.Shape d' := by
  induction calls generalizing p q dirty dirty' with
  | nil =>
      obtain rfl := Option.some.inj hrun
      exact ⟨q, dirty, dirty', rfl, h, hp, hq⟩
  | cons call calls ih =>
      obtain ⟨p₁, hstep, hrest⟩ := Option.bind_eq_some_iff.mp hrun
      obtain ⟨q₁, hstep', halike⟩ := h.step hq (hcalls call List.mem_cons_self) hstep
      have hpstep := hstep
      have hqstep := hstep'
      simp only [pollSystem, Option.ite_none_right_eq_some] at hpstep hqstep
      obtain ⟨d, hp₁⟩ := hp.perform hpstep.1 hpstep.2
      obtain ⟨d', hq₁⟩ := hq.perform hqstep.1 hqstep.2
      obtain ⟨q', d₂, d₂', hrun', hresult⟩ :=
        ih halike hp₁ hq₁ (fun c hc => hcalls c (List.mem_cons_of_mem call hc)) hrest
      refine ⟨q', d₂, d₂', ?_, hresult⟩
      rw [StepSystem.run, hstep', Option.bind_some, hrun']

/-- **Clearing all watches of a descriptor is clearing each of them**, in whatever order: whichever
is done, the same calls on watches can follow, and then the same watches are linked in the same
order, the same conditions are pending, and a flush leads to the same interest set of the kernel and
the same stored events. -/
theorem clearWatches_eq_each (h : (pollSystem F).Reachable p) {ws : List WatchId}
    (hnodup : ws.Nodup) (hws : ∀ w, w ∈ ws ↔ p.Linked fd w) :
    ∃ all each, p.clearWatches fd = some all ∧
      (pollSystem F).run p (ws.map .clearWatch) = some each ∧
      ∀ calls : List (PollAction F), (∀ call ∈ calls, call.OnWatch) →
        ((pollSystem F).run all calls = none ↔ (pollSystem F).run each calls = none) ∧
        ∀ p' q', (pollSystem F).run all calls = some p' → (pollSystem F).run each calls = some q' →
          p'.SameWatches q' ∧
          ∀ freeSlot freeSlot', ∃ flushed flushed', p'.flush freeSlot = some flushed ∧
            q'.flush freeSlot' = some flushed' ∧ flushed.interest = flushed'.interest ∧
            flushed.stored = flushed'.stored := by
  obtain ⟨dirty, hshape⟩ := shape_of_reachable h
  obtain ⟨all, d, hall, hshapeAll, hregistered⟩ := hshape.clearWatches fd
  have hin : ∀ w ∈ ws, w ∈ p.registered.map (·.watch) := by
    intro w hw
    obtain ⟨c, hr⟩ := hshape.linked_iff.mp ((hws w).mp hw)
    exact List.mem_map.mpr ⟨_, hr, rfl⟩
  obtain ⟨each, d', heach, hshapeEach, halikeEach⟩ := hshape.clearEach hnodup hin
  -- the registrations of the descriptor are those of the watches linked for it
  have hfilter : (p.registered.filter fun r => r.fd ≠ fd) =
      p.registered.filter fun r => r.watch ∉ ws := by
    refine List.filter_congr fun r hr => ?_
    have hiff : r.watch ∈ ws ↔ r.fd = fd := by
      rw [hws, hshape.linked_iff]
      constructor
      · rintro ⟨c, hr'⟩
        exact (registration_unique hshape.sound.watches.nodup hr hr').1
      · rintro rfl
        exact ⟨r.condition, hr⟩
    simp [hiff]
  have halike : all.Alike each :=
    (alike_clearWatches hall (hregistered.trans hfilter)).trans halikeEach.symm
  refine ⟨all, each, hall, heach, fun calls hcalls => ⟨?_, fun p' q' hp hq => ?_⟩⟩
  · rw [Option.eq_none_iff_forall_ne_some, Option.eq_none_iff_forall_ne_some]
    constructor
    · intro hnone q' hq
      obtain ⟨p', -, -, hp, -⟩ := halike.symm.run hshapeEach hshapeAll hcalls hq
      exact hnone p' hp
    · intro hnone p' hp
      obtain ⟨q', -, -, hq, -⟩ := halike.run hshapeAll hshapeEach hcalls hp
      exact hnone q' hq
  · obtain ⟨q₁, d₁, d₁', hq₁, halike', hp', hq'⟩ := halike.run hshapeAll hshapeEach hcalls hp
    obtain rfl := Option.some.inj (hq₁.symm.trans hq)
    refine ⟨halike'.sameWatches hp' hq', fun freeSlot freeSlot' => ?_⟩
    obtain ⟨flushed, hflush, -, hstored, hinterest⟩ := hp'.flush_exact freeSlot
    obtain ⟨flushed', hflush', -, hstored', hinterest'⟩ := hq'.flush_exact freeSlot'
    refine ⟨flushed, flushed', hflush, hflush', funext fun fd => ?_, ?_⟩
    · rw [hinterest, hinterest', halike'.kept, halike'.registered]
    · rw [hstored, hstored', halike'.kept]

/-- Three watches on a descriptor, for both conditions, that the kernel was told of, and one on
another. -/
def threeWatches : List (PollAction ℕ) :=
  [.setWatch 0 3 .ioReadable 70 7 true (some 5), .setWatch 1 3 .ioWritable 71 7 true none,
    .setWatch 2 3 .ioReadable 72 7 true none, .setWatch 3 6 .ioReadable 73 7 true (some 4),
    .tick (fun _ => .dirtyEventListHead) .interrupted (fun _ => true) .init]

/-- One watch is set again, for the other condition, and the one on the other descriptor is
cleared. -/
def setAgain : List (PollAction ℕ) := [.setWatch 2 3 .ioWritable 72 8 true none, .clearWatch 3]

/-- Three watches of a descriptor are cleared at once, or one by one in another order; then one of
them is set again. Until the next tick the kernel has different flags, but the watches that are set
are the same. -/
theorem clearWatches_eq_each_setAgain :
    ∃ p all each p' q' : IOPoller ℕ, (pollSystem ℕ).run (.init (fun _ => ⟨0, 0, 0⟩)
        (fun _ => ⟨.ioReadable, 0, 0⟩) ⟨id, id⟩) threeWatches = some p ∧
      p.clearWatches 3 = some all ∧
      (pollSystem ℕ).run p ([2, 1, 0].map .clearWatch) = some each ∧
      (pollSystem ℕ).run all setAgain = some p' ∧ (pollSystem ℕ).run each setAgain = some q' ∧
      p'.interest 3 = none ∧ q'.interest 3 = some (epollIn ||| epollOut, 5) ∧
      p'.SameWatches q' := by
  let start : IOPoller ℕ := .init (fun _ => ⟨0, 0, 0⟩) (fun _ => ⟨.ioReadable, 0, 0⟩) ⟨id, id⟩
  have hend : ((pollSystem ℕ).run start threeWatches).bind (fun p =>
      (p.clearWatches 3).bind fun all =>
        ((pollSystem ℕ).run p ([2, 1, 0].map .clearWatch)).bind fun each =>
        ((pollSystem ℕ).run all setAgain).bind fun p' =>
          ((pollSystem ℕ).run each setAgain).map fun q' =>
          (p.registered, p'.interest 3, q'.interest 3)) =
      some ([⟨0, 3, .ioReadable⟩, ⟨1, 3, .ioWritable⟩, ⟨2, 3, .ioReadable⟩, ⟨3, 6, .ioReadable⟩],
        none, some (epollIn ||| epollOut, 5)) := by
    decide +kernel
  simp only [Option.bind_eq_some_iff, Option.map_eq_some_iff, Prod.mk.injEq] at hend
  obtain ⟨p, hrun, all, hall, each, heach, p', hp, q', hq, hregistered, hgone, htold⟩ := hend
  have hreach : (pollSystem ℕ).Reachable p := StepSystem.reachable_of_run ⟨_, _, _, rfl⟩ hrun
  obtain ⟨dirty, hshape⟩ := shape_of_reachable hreach
  have hlinked : ∀ w, w ∈ [2, 1, 0] ↔ p.Linked 3 w := by
    intro w
    rw [hshape.linked_iff, hregistered]
    constructor
    · intro hw
      simp only [List.mem_cons, List.not_mem_nil, or_false] at hw
      rcases hw with rfl | rfl | rfl
      · exact ⟨.ioReadable, by decide⟩
      · exact ⟨.ioWritable, by decide⟩
      · exact ⟨.ioReadable, by decide⟩
    · rintro ⟨c, hr⟩
      simp only [List.mem_cons, Registration.mk.injEq, List.not_mem_nil, or_false] at hr
      rcases hr with ⟨rfl, -⟩ | ⟨rfl, -⟩ | ⟨rfl, -⟩ | ⟨-, hfd, -⟩
      · decide
      · decide
      · decide
      · exact absurd hfd (by decide)
  obtain ⟨all', each', hall', heach', hcalls⟩ := clearWatches_eq_each hreach (by decide) hlinked
  obtain rfl := Option.some.inj (hall'.symm.trans hall)
  obtain rfl := Option.some.inj (heach'.symm.trans heach)
  have hon : ∀ call ∈ setAgain, call.OnWatch := by
    simp [setAgain, PollAction.OnWatch]
  obtain ⟨-, hsame⟩ := hcalls setAgain hon
  exact ⟨p, all', each', p', q', hrun, hall, heach, hp, hq, hgone, htold, (hsame p' q' hp hq).1⟩

end Runs

end Pixy.Poll
