import Pixy.Poll.LazyEpoll

/-!
# What the watches contain

Condition, data and callback of a watch are written by `IOPoller_SetWatch` on that watch and by
nothing else, and a tick collects the callback of a watch at most once.
-/

namespace Pixy.Poll

open Pixy.Found Pixy.Store

namespace IOPoller

variable {F : Type} {p p' : IOPoller F} {w : WatchId} {fd : FD} {c : IOCondition} {e : EventId}

/-! ## Operations that write to no watch -/

/-- Writing an event leaves the contents of all watches alone. -/
@[simp] theorem watch_write (contents : IOEvent) : (p.write e contents).watch = p.watch := rfl

/-- A call of `epoll_ctl` changes the kernel's interest set and no watch. -/
theorem watch_xepollCtl {op : EpollOp} {asked : BitVec 32}
    (h : p.xepollCtl op fd asked e = some p') : p'.watch = p.watch := by
  unfold xepollCtl at h
  split at h
  all_goals
    cases h
    try rfl

/-- A store into the vector of events changes no watch, as it writes to the elements only. -/
theorem watch_store {x : Option EventId} (h : p.store fd x = some p') : p'.watch = p.watch := by
  unfold store at h
  split_ifs at h
  cases h
  rfl

/-- Creating an event writes the event, the vector and links, and no watch. -/
theorem watch_newEvent (h : p.newEvent fd e = some p') : p'.watch = p.watch := by
  unfold newEvent at h
  split_ifs at h
  have hstore := watch_store h
  exact hstore

/-- Growing the vector of events changes no watch, whether there is memory for it or not. -/
theorem watch_growEvents (reallocated : Bool) :
    (p.growEvents fd reallocated).1.watch = p.watch := by
  unfold growEvents
  split_ifs <;> rfl

/-- A watch that is cleared keeps its contents; only its links and the event's flags are written. -/
theorem watch_clearWatch (h : p.clearWatch w = some p') : p'.watch = p.watch := by
  unfold clearWatch at h
  dsimp only at h
  split_ifs at h
  · split at h
    · split_ifs at h
      cases h
      rfl
    · cases h
  · cases h
    rfl

/-- Clearing the watches of an event leaves their contents alone, as it only initializes the heads
of the lists. -/
theorem watch_clearEvent (h : p.clearEvent fd e = some p') : p'.watch = p.watch := by
  unfold clearEvent at h
  split_ifs at h
  dsimp only at h
  split_ifs at h
  · simp only [Option.bind_eq_bind, Option.bind_eq_some_iff, Option.pure_def,
      Option.some.injEq] at h
    obtain ⟨q, hctl, rfl⟩ := h
    have hq := watch_xepollCtl hctl
    exact (watch_write _).trans hq
  · cases h
    rfl

/-- Clearing the watches of a descriptor leaves their contents alone, also where the descriptor has
no event. -/
theorem watch_clearWatches (h : p.clearWatches fd = some p') : p'.watch = p.watch := by
  unfold clearWatches at h
  split_ifs at h
  · cases h
    rfl
  · simp only [Option.bind_eq_bind, Option.bind_eq_some_iff] at h
    obtain ⟨element, -, h⟩ := h
    rcases element with _ | event
    · cases h
      rfl
    · exact watch_clearEvent h

/-- Telling the kernel of an event changes the event's flags and no watch. -/
theorem watch_registerFlags (h : p.registerFlags e = some p') : p'.watch = p.watch := by
  unfold registerFlags at h
  dsimp only at h
  split_ifs at h
  · simp only [Option.bind_eq_bind, Option.bind_eq_some_iff, Option.pure_def,
      Option.some.injEq] at h
    obtain ⟨q, hctl, rfl⟩ := h
    exact (watch_write _).trans (watch_xepollCtl hctl)
  · cases h
    rfl

/-- Flushing one event, which may be freed by that, changes no watch. -/
theorem watch_flushEvent {freeSlot : Node} (h : p.flushEvent e freeSlot = some p') :
    p'.watch = p.watch := by
  unfold flushEvent at h
  split_ifs at h
  simp only [Option.bind_eq_bind, Option.bind_eq_some_iff] at h
  obtain ⟨q, hregister, h⟩ := h
  have hq := watch_registerFlags hregister
  split_ifs at h
  · obtain ⟨r, hstore, h⟩ := Option.bind_eq_some_iff.mp h
    cases h
    exact (watch_store hstore).trans hq
  · cases h
    exact hq

/-- The loop over the dirty events changes no watch, in whatever order it meets them. -/
theorem watch_flushLoop {freeSlot : EventId → Node} {fuel : ℕ} {node : Node}
    (h : flushLoop freeSlot fuel p node = some p') : p'.watch = p.watch := by
  induction fuel generalizing p node with
  | zero =>
      cases node <;> simp only [flushLoop, Option.some.injEq, reduceCtorEq] at h
      rw [h]
  | succ fuel ih =>
      cases node <;> simp only [flushLoop, Option.some.injEq, reduceCtorEq] at h
      · rw [h]
      · simp only [Option.bind_eq_bind, Option.bind_eq_some_iff] at h
        obtain ⟨q, hevent, hrest⟩ := h
        exact (ih hrest).trans (watch_flushEvent hevent)

/-- A flush changes no watch; what is in the watches is what the callers have put there. -/
theorem watch_flush {freeSlot : EventId → Node} (h : p.flush freeSlot = some p') :
    p'.watch = p.watch := by
  unfold flush at h
  dsimp only at h
  split_ifs at h
  · simp only [Option.bind_eq_bind, Option.bind_eq_some_iff, Option.pure_def,
      Option.some.injEq] at h
    obtain ⟨q, hloop, rfl⟩ := h
    have hq := watch_flushLoop hloop
    exact hq
  · cases h
    rfl

/-! ## The lists -/

/-- The watch lists of the events are what they were, without a watch. -/
structure Drops (p p' : IOPoller F) (w : WatchId) : Prop where
  /-- No event has come or gone. -/
  allocated : p'.allocated = p.allocated
  /-- A list has all its items but the watch, in their order. -/
  ring : ∀ e ∈ p.allocated, ∀ c items, p.links.Ring (.watchListHead e c) items →
    p'.links.Ring (.watchListHead e c) (items.filter (· ≠ .watchItem w))

/-- Clearing a watch frees no event at once and changes the descriptor of none: an event without
watches waits for the next flush. -/
theorem allocated_clearWatch (h : p.clearWatch w = some p') :
    p'.allocated = p.allocated ∧ ∀ e, (p'.event e).fd = (p.event e).fd := by
  unfold clearWatch at h
  dsimp only at h
  split_ifs at h
  · split at h
    · split_ifs at h
      cases h
      refine ⟨rfl, fun e => ?_⟩
      show ((p.write _ _).event e).fd = _
      refine write_fd ?_ e
      rfl
    · cases h
  · cases h
    exact ⟨rfl, fun _ => rfl⟩

/-- **`IOPoller_ClearWatch` on a registered watch takes it out of its list and changes no
other.** -/
theorem drops_clearWatch {dirty dirty' : List EventId} (h : p.Shape dirty) (h' : p'.Shape dirty')
    (hclear : p.clearWatch w = some p')
    (hregistered : p'.registered = p.registered.filter fun r => r.watch ≠ w) : p.Drops p' w := by
  obtain ⟨hallocated, hfd⟩ := allocated_clearWatch hclear
  refine ⟨hallocated, fun e he c l hl => ?_⟩
  have hitems : p'.items e c = (p.items e c).filter (· ≠ .watchItem w) := by
    simp only [items, hfd, hregistered, watchesOf_erase, List.filter_map]
    congr 1
    refine List.filter_congr fun v _ => ?_
    simp
  rw [hl.unique (h.sound.rings e he c), ← hitems]
  exact h'.sound.rings e (hallocated ▸ he) c

/-! ## The operation that does -/

/-- Adding a watch writes its contents and those of no other. -/
theorem watch_addWatch {data : ℕ} {callback : F} (h : p.addWatch w fd c data callback e = some p') :
    p'.watch = Function.update p.watch w ⟨c, data, callback⟩ := by
  unfold addWatch at h
  split_ifs at h with he
  dsimp only at h
  split_ifs at h <;> cases h <;> rfl

/-- **`IOPoller_SetWatch` writes to its watch, if it succeeds, and to no other.** -/
theorem watch_setWatch {data : ℕ} {callback : F} {reallocated : Bool} {block : Option EventId}
    {ok : Bool} (h : p.setWatch w fd c data callback reallocated block = some (p', ok)) :
    p'.watch = if ok then Function.update p.watch w ⟨c, data, callback⟩ else p.watch := by
  have hgrown : (p.growEvents fd reallocated).1.watch = p.watch := watch_growEvents reallocated
  unfold setWatch at h
  rcases hg : p.growEvents fd reallocated with ⟨q, _ | _⟩ <;> rw [hg] at h hgrown
  · cases h
    exact hgrown
  · dsimp only at h hgrown
    rw [Option.bind_eq_bind, Option.bind_eq_some_iff] at h
    obtain ⟨element, -, h⟩ := h
    rcases element with _ | event
    · rcases block with _ | event
      · cases h
        exact hgrown
      · simp only [Option.bind_eq_bind, Option.bind_eq_some_iff, Option.pure_def,
          Option.some.injEq, Prod.mk.injEq] at h
        obtain ⟨r, hnew, last, hadd, rfl, rfl⟩ := h
        rw [if_pos rfl, watch_addWatch hadd, watch_newEvent hnew, hgrown]
    · simp only [Option.bind_eq_bind, Option.bind_eq_some_iff, Option.pure_def,
        Option.some.injEq, Prod.mk.injEq] at h
      obtain ⟨last, hadd, rfl, rfl⟩ := h
      rw [if_pos rfl, watch_addWatch hadd, hgrown]

/-! ## What a tick collects -/

/-- Who is woken by an entry of the report is registered at the descriptor of that entry. -/
theorem mem_wokenBy {ev : FD × BitVec 32} (hw : w ∈ p.wokenBy ev) :
    ∃ c, ⟨w, ev.1, c⟩ ∈ p.registered := by
  simp only [wokenBy, List.mem_flatMap] at hw
  obtain ⟨c, -, hw⟩ := hw
  split_ifs at hw
  · exact ⟨c, mem_watchesOf.mp hw⟩
  · cases hw

/-- A watch waits for one condition of one descriptor, so it is woken once. -/
theorem nodup_wokenBy (h : p.Watches) {evs : List (FD × BitVec 32)} (hevs : (evs.map (·.1)).Nodup) :
    (evs.flatMap p.wokenBy).Nodup := by
  rw [List.nodup_flatMap]
  constructor
  · intro ev _
    rw [wokenBy, List.nodup_flatMap]
    constructor
    · intro c _
      split_ifs
      · exact nodup_watchesOf h.nodup
      · exact List.nodup_nil
    · simp only [List.pairwise_cons, List.mem_singleton, forall_eq, List.not_mem_nil, false_imp_iff,
        implies_true, List.Pairwise.nil, and_true]
      intro w hr hw
      dsimp only at hr hw
      split_ifs at hr hw
      · have := registration_unique h.nodup (mem_watchesOf.mp hr) (mem_watchesOf.mp hw)
        cases this.2
      all_goals simp_all
  · rw [List.Nodup, List.pairwise_map] at hevs
    refine hevs.imp fun {ev ev'} hne w hw hw' => ?_
    obtain ⟨c, hr⟩ := mem_wokenBy hw
    obtain ⟨c', hr'⟩ := mem_wokenBy hw'
    exact hne (registration_unique h.nodup hr hr').1

/-- A successful tick was given every descriptor at most once, as `epoll_wait` reports it. -/
theorem nodup_of_tick {freeSlot : EventId → Node} {evs : List (FD × BitVec 32)} {memory : ℕ → Bool}
    {async async' : Async F} {ok : Bool}
    (h : p.tick freeSlot (.ready evs) memory async = some (p', async', ok)) :
    (evs.map (·.1)).Nodup := by
  unfold IOPoller.tick at h
  simp only [Option.bind_eq_bind, Option.bind_eq_some_iff] at h
  obtain ⟨q, -, evs', hwait, -⟩ := h
  unfold epollWait at hwait
  split_ifs at hwait with hcond
  exact hcond.2

end IOPoller

end Pixy.Poll
