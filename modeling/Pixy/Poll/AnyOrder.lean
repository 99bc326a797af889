import Pixy.Poll.Alike

/-!
# Clearing watches in any order

Whichever watch of a list is cleared last changes what is pending and marks the event as dirty.
Which events are dirty in the end is told by the registrations before and after
(`Shape.dirty_clearEach`), and so the order in which some watches are cleared makes no difference
(`Shape.clearEach_perm`).
-/

namespace Pixy.Poll

open Pixy.Found Pixy.Store

namespace IOPoller

variable {F : Type} {p p' q : IOPoller F} {dirty : List EventId} {e x : EventId} {fd : FD}
  {c : IOCondition} {w : WatchId} {ws ws' : List WatchId}

/-- An event is in the dirty list. -/
def Dirty (p : IOPoller F) (e : EventId) : Prop :=
  ∃ items, p.links.Ring .dirtyEventListHead items ∧ .eventItem e ∈ items

/-- The dirty events are those in the queue: a ring has one list of items, so any that it can be
read as is this one. -/
theorem Queue.dirty_iff (h : p.Queue dirty) : p.Dirty e ↔ e ∈ dirty := by
  constructor
  · rintro ⟨items, hring, hin⟩
    rw [hring.unique h.ring] at hin
    obtain ⟨x, hx, heq⟩ := List.mem_map.mp hin
    exact Node.eventItem.inj heq ▸ hx
  · exact fun he => ⟨_, h.ring, List.mem_map_of_mem he⟩

/-- **Clearing a watch** marks the event as dirty if it was the last one for its condition. -/
theorem Shape.dirty_clearWatch (h : p.Shape dirty) (hr : ⟨w, fd, c⟩ ∈ p.registered)
    (hclear : p.clearWatch w = some p') : p'.Dirty x ↔ p.Dirty x ∨
      x ∈ p.allocated ∧ (p.event x).fd = fd ∧ watched p'.registered fd c = false := by
  obtain ⟨e, he, hfd, l, l', hl, hring⟩ := h.sound.ring_of_registered hr
  have hnodup := h.sound.watches.nodup
  have hqueue := h.queue.unlinked h.sound hr
  have hregistered : p'.registered = p.registered.filter fun r => r.watch ≠ w :=
    (alike_clearWatch hclear).registered
  unfold IOPoller.clearWatch at hclear
  dsimp only at hclear
  split_ifs at hclear with hself
  · -- the links of the item are read after it was unlinked
    rw [hring.remove_self.1, hring.remove_self.2, hring.alone_iff, List.map_eq_nil_iff,
      List.map_eq_nil_iff] at hself
    obtain ⟨rfl, rfl⟩ := hself
    have hprev : (p.links.remove (.watchItem w)).prev (.watchItem w) = .watchListHead e c :=
      hring.remove_self.1.trans hring.neighbours.1
    have hc : (p.watch w).condition = c := h.sound.watches.condition _ hr
    simp only [hprev, hc] at hclear
    rw [if_pos ⟨trivial, he⟩] at hclear
    obtain rfl := Option.some.inj hclear
    have hwritten : ((p.unlinked w).write e { p.event e with
        pendingFlags := (p.event e).pendingFlags &&& ~~~ioEventFlags c }).Queue dirty :=
      hqueue.congr (fun y _ => ⟨rfl, rfl⟩) rfl
    obtain ⟨dirty', hqueue', hmem, -⟩ := hwritten.markDirty he
    have hgone : watched (p.registered.filter fun r => r.watch ≠ w) fd c = false := by
      rw [watched_erase_only hnodup hl, Function.update_self]
    have hlast : x ∈ p.allocated ∧ (p.event x).fd = fd ↔ x = e := by
      constructor
      · exact fun hx => h.sound.stored.event_unique hx.1 he (hx.2.trans hfd.symm)
      · rintro rfl
        exact ⟨he, hfd⟩
    rw [hregistered, hgone, h.queue.dirty_iff]
    refine hqueue'.dirty_iff.trans ((hmem x).trans ?_)
    simp only [and_true, hlast]
  · -- another watch is left
    have halone : ¬(l = [] ∧ l' = []) := by
      rwa [hring.remove_self.1, hring.remove_self.2, hring.alone_iff, List.map_eq_nil_iff,
        List.map_eq_nil_iff] at hself
    obtain rfl := Option.some.inj hclear
    have hstill : watched (p.registered.filter fun r => r.watch ≠ w) fd c = true := by
      rw [watched_erase_more hnodup hl halone]
      exact watched_eq_true.mpr ⟨_, hr, rfl, rfl⟩
    rw [hregistered, hstill, h.queue.dirty_iff]
    refine hqueue.dirty_iff.trans ?_
    simp

/-- With fewer registrations less is watched: who watches a condition of a descriptor afterwards did
so before. -/
theorem watched_mono {registered registered' : List Registration}
    (hsub : ∀ r ∈ registered', r ∈ registered) (hw : watched registered' fd c = true) :
    watched registered fd c = true := by
  obtain ⟨r, hr, hrest⟩ := watched_eq_true.mp hw
  exact watched_eq_true.mpr ⟨r, hsub r hr, hrest⟩

/-- **Which events are dirty** after some watches were cleared: those that were, and those that a
condition is no longer watched for. -/
theorem Shape.dirty_clearEach (h : p.Shape dirty) (hnodup : ws.Nodup)
    (hws : ∀ w ∈ ws, w ∈ p.registered.map (·.watch))
    (hrun : (pollSystem F).run p (ws.map .clearWatch) = some p') :
    p'.Dirty x ↔ p.Dirty x ∨ x ∈ p.allocated ∧ ∃ c, watched p.registered (p.event x).fd c = true ∧
      watched p'.registered (p.event x).fd c = false := by
  induction ws generalizing p dirty with
  | nil =>
      obtain rfl := Option.some.inj hrun
      simp
  | cons w ws ih =>
      obtain ⟨hfresh, hnodup'⟩ := List.nodup_cons.mp hnodup
      have hw := hws w List.mem_cons_self
      obtain ⟨⟨_, fd, c⟩, hr, rfl⟩ := List.mem_map.mp hw
      rename_i w
      obtain ⟨p₁, dirty₁, hclear, hshape, hregistered⟩ := h.clearWatch hw
      have hrest := fun v hv =>
        registered_of_ne hregistered (hws v (List.mem_cons_of_mem w hv))
          (ne_of_mem_of_not_mem hv hfresh)
      have hstep : (pollSystem F).step p (.clearWatch w) = some p₁ := (if_pos hw).trans hclear
      rw [List.map_cons, StepSystem.run, hstep, Option.bind_some] at hrun
      obtain ⟨p₂, -, hrun₂, -, halike₂⟩ := hshape.clearEach hnodup' hrest
      obtain rfl := Option.some.inj (hrun₂.symm.trans hrun)
      have hsub : ∀ r ∈ p₂.registered, r ∈ p₁.registered := by
        rw [halike₂.registered]
        exact fun r hr => List.mem_of_mem_filter hr
      have hsub₁ : ∀ r ∈ p₁.registered, r ∈ p.registered := by
        rw [hregistered]
        exact fun r hr => List.mem_of_mem_filter hr
      have halike := alike_clearWatch hclear
      have hallocated : p₁.allocated = p.allocated := halike.allocated
      have hfds : ∀ y, (p₁.event y).fd = (p.event y).fd := halike.fd
      rw [ih hshape hnodup' hrest hrun, h.dirty_clearWatch hr hclear, hallocated, hfds, or_assoc]
      refine or_congr_right ?_
      rw [← and_or_left]
      refine and_congr_right fun _ => ⟨?_, ?_⟩
      · rintro (⟨rfl, hgone⟩ | ⟨c', hbefore, hafter⟩)
        · refine ⟨c, watched_eq_true.mpr ⟨_, hr, rfl, rfl⟩, ?_⟩
          rw [← Bool.not_eq_true] at hgone ⊢
          exact fun hstill => hgone (watched_mono hsub hstill)
        · exact ⟨c', watched_mono hsub₁ hbefore, hafter⟩
      · rintro ⟨c', hbefore, hafter⟩
        rcases hbetween : watched p₁.registered (p.event x).fd c' with _ | _
        · -- the first of them was the last watch for the condition
          have hsame : (p.event x).fd = fd ∧ c' = c := by
            by_contra hne
            rw [hregistered, watched_erase_other h.sound.watches.nodup hr hne, hbefore] at hbetween
            cases hbetween
          exact .inl ⟨hsame.1, hsame.1 ▸ hsame.2 ▸ hbetween⟩
        · exact .inr ⟨c', hbetween, hafter⟩

/-- **The order makes no difference**: the same watches are linked, the same conditions pending, and
the same events dirty. -/
theorem Shape.clearEach_perm (h : p.Shape dirty) (hperm : ws'.Perm ws) (hnodup : ws.Nodup)
    (hws : ∀ w ∈ ws, w ∈ p.registered.map (·.watch))
    (hrun : (pollSystem F).run p (ws.map .clearWatch) = some p')
    (hrun' : (pollSystem F).run p (ws'.map .clearWatch) = some q) :
    p'.SameWatches q ∧ ∀ x, p'.Dirty x ↔ q.Dirty x := by
  have hnodup' := hperm.nodup_iff.mpr hnodup
  have hws' : ∀ w ∈ ws', w ∈ p.registered.map (·.watch) := fun w hw => hws w (hperm.mem_iff.mp hw)
  obtain ⟨p₁, d, hrun₁, hshape, halike⟩ := h.clearEach hnodup hws
  obtain rfl := Option.some.inj (hrun₁.symm.trans hrun)
  obtain ⟨q₁, d', hrun₁', hshape', halike'⟩ := h.clearEach hnodup' hws'
  obtain rfl := Option.some.inj (hrun₁'.symm.trans hrun')
  have hfilter : (p.registered.filter fun r => r.watch ∉ ws') =
      p.registered.filter fun r => r.watch ∉ ws := by
    refine List.filter_congr fun r _ => ?_
    simp [hperm.mem_iff]
  rw [hfilter] at halike'
  have hboth := halike.trans halike'.symm
  refine ⟨hboth.sameWatches hshape hshape', fun x => ?_⟩
  rw [h.dirty_clearEach hnodup hws hrun, h.dirty_clearEach hnodup' hws' hrun', hboth.registered]

end IOPoller

end Pixy.Poll
