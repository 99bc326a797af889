import Pixy.Poll.Alike

/-!
# What is left of a watch that was set and cleared

The vector of events may have grown, and an event may have been allocated that nobody waits for.
What the callers and the kernel see of a poller, its watch lists, the conditions that are pending,
and what the next flush leads to, depends on neither (`Shape.unchanged`).
-/

namespace Pixy.Poll

open Pixy.Found Pixy.Store

namespace IOPoller

variable {F : Type} {p p' q : IOPoller F} {dirty dirty' : List EventId} {e : EventId} {fd : FD}
  {c : IOCondition} {w : WatchId}

/-! ## Events that stay -/

/-- **The events stay**, and there may be others. -/
structure Extends (p p' : IOPoller F) : Prop where
  /-- No event is freed. -/
  allocated : ∀ e ∈ p.allocated, e ∈ p'.allocated
  /-- None changes its descriptor. -/
  fd : ∀ e ∈ p.allocated, (p'.event e).fd = (p.event e).fd

namespace Extends

/-- Events that stay over one step and then over another stay over both. -/
theorem trans (h : p.Extends p') (h' : p'.Extends q) : p.Extends q :=
  ⟨fun e he => h'.allocated e (h.allocated e he),
    fun e he => (h'.fd e (h.allocated e he)).trans (h.fd e he)⟩

/-- Pollers that are alike have the same events, so those of the one stay in the other. -/
theorem of_alike (h : p.Alike p') : p.Extends p' :=
  ⟨fun _ he => h.allocated ▸ he, fun e _ => (h.fd e).symm⟩

/-- Growing the vector keeps all events and what they are stored for, also where it fails. -/
theorem of_growEvents (p : IOPoller F) (fd : FD) (reallocated : Bool) :
    p.Extends (p.growEvents fd reallocated).1 := by
  unfold IOPoller.growEvents
  split_ifs
  · exact ⟨fun _ => id, fun _ _ => rfl⟩
  · exact ⟨fun _ => id, fun _ _ => rfl⟩

/-- Creating an event keeps those there are; the new one was not in use. -/
theorem of_newEvent (h : p.newEvent fd e = some p') : p.Extends p' := by
  unfold IOPoller.newEvent at h
  split_ifs at h with hnew
  simp only [IOPoller.store] at h
  split_ifs at h
  obtain rfl := Option.some.inj h
  refine ⟨fun x hx => Finset.mem_insert_of_mem hx, fun x hx => ?_⟩
  have hne : x ≠ e := ne_of_mem_of_not_mem hx hnew
  simp only [write, Function.update_of_ne hne]

/-- Adding a watch keeps all events and the descriptor of each. -/
theorem of_addWatch {data : ℕ} {callback : F} (h : p.addWatch w fd c data callback e = some p') :
    p.Extends p' := by
  have hlinked : p.Extends (p.linked w fd ⟨c, data, callback⟩ e) := ⟨fun _ => id, fun _ _ => rfl⟩
  exact hlinked.trans (of_alike (alike_addWatch h).symm)

/-- Setting a watch frees no event and moves no descriptor's pointer; it may only make an event
where there was none. -/
theorem of_setWatch {data : ℕ} {callback : F} {reallocated : Bool} {block : Option EventId}
    {ok : Bool}
    (h : p.setWatch w fd c data callback reallocated block = some (p', ok)) : p.Extends p' := by
  have hgrown := of_growEvents p fd reallocated
  unfold IOPoller.setWatch at h
  rcases hgrow : p.growEvents fd reallocated with ⟨q, _ | _⟩
  · rw [hgrow] at h hgrown
    cases h
    exact hgrown
  · rw [hgrow] at h hgrown
    obtain ⟨element, -, h⟩ := Option.bind_eq_some_iff.mp h
    rcases element with _ | event
    · rcases block with _ | event
      · cases h
        exact hgrown
      · obtain ⟨fresh, hnew, h⟩ := Option.bind_eq_some_iff.mp h
        obtain ⟨added, hadd, heq⟩ := Option.bind_eq_some_iff.mp h
        obtain ⟨rfl, -⟩ := Prod.mk.inj (Option.some.inj heq)
        exact hgrown.trans ((of_newEvent hnew).trans (of_addWatch hadd))
    · obtain ⟨added, hadd, heq⟩ := Option.bind_eq_some_iff.mp h
      obtain ⟨rfl, -⟩ := Prod.mk.inj (Option.some.inj heq)
      exact hgrown.trans (of_addWatch hadd)

/-- Nor does clearing one free an event, even if it was the last watch of its descriptor. -/
theorem of_clearWatch (h : p.clearWatch w = some p') : p.Extends p' := by
  have hunlinked : p.Extends (p.unlinked w) := ⟨fun _ => id, fun _ _ => rfl⟩
  exact hunlinked.trans (of_alike (alike_clearWatch h).symm)

/-- So the event that was stored for a descriptor is stored for it afterwards. -/
theorem stored (h : p.Extends p') (hp : p.Stored) (hp' : p'.Stored)
    (hstored : p.stored fd = some e) :
    p'.stored fd = some e := by
  obtain ⟨he, rfl⟩ := hp.stored_iff.mp hstored
  exact hp'.stored_iff.mpr ⟨h.allocated e he, h.fd e he⟩

end Extends

/-! ## What is seen of a poller -/

/-- The watch list of a descriptor for a condition; without an event there is none. -/
def WatchList (p : IOPoller F) (fd : FD) (c : IOCondition) (list : List Node) : Prop :=
  match p.stored fd with
  | some e => p.links.Ring (.watchListHead e c) list
  | none => list = []

/-- The conditions that are pending for a descriptor. -/
def conditions (p : IOPoller F) (fd : FD) : BitVec 32 :=
  match p.stored fd with
  | some e => (p.event e).pendingFlags
  | none => 0

/-- Without an event for a descriptor there is no registration for it either, as a watch is linked
below its event. -/
theorem Stored.not_registered (h : p.Stored) (hnone : p.stored fd = none) :
    ∀ r ∈ p.registered, r.fd ≠ fd := by
  rintro r hr rfl
  obtain ⟨e, he, hfd⟩ := h.registration r hr
  rw [h.stored_iff.mpr ⟨he, hfd⟩] at hnone
  cases hnone

/-- **The watch lists are the registrations**, in the order in which they were made, and there is no
other list that the links could form. -/
theorem Shape.watchList_iff (h : p.Shape dirty) {list : List Node} :
    p.WatchList fd c list ↔ list = (watchesOf p.registered fd c).map .watchItem := by
  unfold WatchList
  rcases hstored : p.stored fd with _ | e
  · have hnone : watchesOf p.registered fd c = [] :=
      watched_eq_false.mp (watched_of_forall (h.sound.stored.not_registered hstored))
    rw [hnone]
    rfl
  · obtain ⟨he, rfl⟩ := h.sound.stored.stored_iff.mp hstored
    have hring := h.sound.rings e he c
    constructor
    · exact fun hlist => hlist.unique hring
    · rintro rfl
      exact hring

/-- **The conditions of an event are those that are watched**, as flags for the kernel; without an
event there are none. -/
theorem Shape.conditions_eq (h : p.Shape dirty) (fd : FD) :
    p.conditions fd = mask (watched p.registered fd) := by
  unfold conditions
  rcases hstored : p.stored fd with _ | e
  · refine ((mask_eq_zero _).mpr fun c => ?_).symm
    exact watched_of_forall (h.sound.stored.not_registered hstored)
  · obtain ⟨he, rfl⟩ := h.sound.stored.stored_iff.mp hstored
    exact h.pending e he

/-- **Nothing is seen** of what made the one poller of the other. -/
structure Unchanged (p p' : IOPoller F) : Prop where
  /-- Every watch list has the watches that it had, in their order. -/
  lists : ∀ fd c list, p'.WatchList fd c list ↔ p.WatchList fd c list
  /-- For every descriptor the conditions are pending that were. -/
  conditions : p'.conditions = p.conditions
  /-- After a flush the kernel is told the same, and the same events are stored. -/
  flush : ∀ freeSlot freeSlot', ∃ q q', p.flush freeSlot = some q ∧ p'.flush freeSlot' = some q' ∧
    q'.interest = q.interest ∧ q'.stored = q.stored

/-- **With the same registrations and no event freed nothing is seen.** -/
theorem Shape.unchanged (h : p.Shape dirty) (h' : p'.Shape dirty') (hextends : p.Extends p')
    (hregistered : p'.registered = p.registered) : p.Unchanged p' := by
  have hkept : p'.kept = p.kept := by
    funext fd
    rw [kept, kept, hregistered]
    split_ifs with hzero
    · rfl
    · -- what is watched has an event
      rcases hstored : p.stored fd with _ | e
      · refine absurd ((mask_eq_zero _).mpr fun c => ?_) hzero
        exact watched_of_forall (h.sound.stored.not_registered hstored)
      · exact hextends.stored h.sound.stored h'.sound.stored hstored
  refine ⟨fun fd c list => ?_, funext fun fd => ?_, fun freeSlot freeSlot' => ?_⟩
  · rw [h'.watchList_iff, h.watchList_iff, hregistered]
  · rw [h'.conditions_eq, h.conditions_eq, hregistered]
  · obtain ⟨q, hflush, -, hstored, hinterest⟩ := h.flush_exact freeSlot
    obtain ⟨q', hflush', -, hstored', hinterest'⟩ := h'.flush_exact freeSlot'
    refine ⟨q, q', hflush, hflush', funext fun fd => ?_, ?_⟩
    · rw [hinterest, hinterest', hkept, hregistered]
    · rw [hstored, hstored', hkept]

end IOPoller

end Pixy.Poll
