import Pixy.Poll.Shape

/-!
# Setting and clearing watches

What `IOPoller_SetWatch`, `IOPoller_ClearWatch` and `IOPoller_ClearWatches` do to a sound poller:
they succeed, keep it sound, and change the registrations in the way their names say.

* `Shape.setWatch`: a watch is registered behind the others, or memory ran out;
* `Shape.clearWatch`: the watch is not registered any more;
* `Shape.clearWatches`: no watch of the descriptor is.
-/

namespace Pixy.Poll

open Pixy.Found Pixy.Store

namespace IOPoller

variable {F : Type} {p p' : IOPoller F} {dirty : List EventId} {e : EventId} {fd : ℕ}
  {c : IOCondition} {w : WatchId}

/-! ## The event of a descriptor -/

/-- A longer vector, whose new elements are null pointers, stores the same events as the old one. -/
theorem Stored.grown (h : p.Stored) {v : Vector} (hv : v.WellSized) (hsize : v.elementSize = 8)
    (hle : p.eventVector.length ≤ v.length) : Stored { p with
      eventVector := v
      elements := fun i =>
        if p.eventVector.size.toNat ≤ 8 * i ∧ 8 * i < v.size.toNat then none
          else p.elements i } := by
  refine ⟨hv, hsize, fun fd e hlt he => ?_, fun e he => ?_, h.registration⟩
  · have hlt : 8 * fd < v.size.toNat := hlt
    simp only [Option.ite_none_left_eq_some] at he
    exact h.element fd e (by omega) he.2
  · obtain ⟨hlt, hel⟩ := h.event e he
    have hbytes := h.lt_length.mp hlt
    refine ⟨hlt.trans_le hle, ?_⟩
    simp only [Option.ite_none_left_eq_some]
    exact ⟨by omega, hel⟩

/-- **Growth of the vector.** If memory suffices the descriptor is within bounds; the rest of the
poller stays what it is. -/
theorem Stored.growEvents (h : p.Stored) (hfd : fd + 1 < 2 ^ 31) (reallocated : Bool) :
    ∃ v elements grown, p.growEvents fd reallocated =
        ({ p with eventVector := v, elements := elements }, grown) ∧
      Stored { p with eventVector := v, elements := elements } ∧
      (grown = true → fd < v.length) ∧ (reallocated = true → grown = true) := by
  unfold IOPoller.growEvents
  by_cases hge : (fd : ℤ) ≥ p.eventVector.length
  · have height : (8 : BitVec 64).toNat = 8 := rfl
    have hroom : ((fd : ℤ) + 1) * p.eventVector.elementSize.toNat ≤ 2 ^ 63 := by
      rw [h.elementSize, height]
      omega
    simp only [hge, if_true]
    obtain ⟨hset, hr⟩ | ⟨v, hset, hv, hsize, hlength⟩ :=
      h.vector.setLength (by omega : (0 : ℤ) < fd + 1) hroom reallocated
    · rw [hset]
      exact ⟨_, _, false, rfl, h.grown h.vector h.elementSize le_rfl, by simp, by simp [hr]⟩
    · rw [hset]
      have hlt : (fd : ℤ) < v.length := by omega
      have hle : p.eventVector.length ≤ v.length := by omega
      exact ⟨_, _, true, rfl, h.grown hv (hsize.trans h.elementSize) hle, fun _ => hlt, by simp⟩
  · refine ⟨p.eventVector, p.elements, true, by simp [hge], h, fun _ => by omega, by simp⟩

/-- `events[fd]` reads a null pointer exactly if the descriptor is within the bounds and no event is
stored there. -/
theorem load_eq_none : p.load fd = some none ↔
    (fd : ℤ) < p.eventVector.length ∧ p.elements fd = none := by
  unfold load
  split <;> simp [*]

/-- Nothing is registered for a descriptor without an event, for any condition. -/
theorem Stored.watchesOf_eq_nil (h : p.Stored) (hload : p.load fd = some none) :
    watchesOf p.registered fd c = [] := by
  refine watched_eq_false.mp (watched_of_forall fun r hr => ?_)
  obtain ⟨x, hx, hfd⟩ := h.registration r hr
  exact hfd ▸ h.load_eq_none hload hx

/-- The poller with one event more, where nothing is pending. -/
def created (p : IOPoller F) (fd : FD) (e : EventId) : IOPoller F :=
  { p with
    allocated := insert e p.allocated
    ledger := p.ledger ++ [(e, .allocate)]
    event := Function.update p.event e ⟨fd, 0, 0⟩
    links := ((p.links.makeEmpty (.watchListHead e .ioReadable)).makeEmpty
      (.watchListHead e .ioWritable)).makeEmpty (.eventItem e)
    elements := Function.update p.elements fd (some e) }

/-- Where the vector reaches to the descriptor and has no event there, creating one is the update
that `created` describes. -/
theorem newEvent_eq (hload : p.load fd = some none) (he : e ∉ p.allocated) :
    p.newEvent fd e = some (p.created fd e) := by
  obtain ⟨hlt, -⟩ := load_eq_none.mp hload
  simp [IOPoller.newEvent, he, store, write, hlt, created]

/-- The created event is of its descriptor and has no flags; all others are as they were. -/
theorem created_event (x : EventId) :
    (p.created fd e).event x = if x = e then ⟨fd, 0, 0⟩ else p.event x := by
  simp [created, Function.update_apply]

/-- Creating an event writes the links of its own heads and item, and of no other node. -/
theorem created_links {y : Node} (hy : ∀ c, y ≠ .watchListHead e c) (hitem : y ≠ .eventItem e) :
    (p.created fd e).links.prev y = p.links.prev y ∧
      (p.created fd e).links.next y = p.links.next y := by
  simp [created, Links.makeEmpty, hy, hitem]

/-- With the created event the vector and the pool fit together as before: it is in use now and
stored for its descriptor. -/
theorem Stored.created (h : p.Stored) (hload : p.load fd = some none) (he : e ∉ p.allocated) :
    (p.created fd e).Stored := by
  obtain ⟨hlt, -⟩ := IOPoller.load_eq_none.mp hload
  have hne : ∀ x ∈ p.allocated, x ≠ e := fun x hx heq => he (heq ▸ hx)
  have hfds : ∀ x ∈ p.allocated, (p.event x).fd ≠ fd := fun x hx => h.load_eq_none hload hx
  refine ⟨h.vector, h.elementSize, fun f x hf hx => ?_, fun x hx => ?_, fun r hr => ?_⟩
  · change Function.update p.elements fd (some e) f = some x at hx
    rw [created_event]
    by_cases hff : f = fd
    · subst hff
      rw [Function.update_self, Option.some.injEq] at hx
      subst hx
      exact ⟨Finset.mem_insert_self e _, by rw [if_pos rfl]⟩
    · rw [Function.update_of_ne hff] at hx
      obtain ⟨hx, hxf⟩ := h.element f x hf hx
      exact ⟨Finset.mem_insert_of_mem hx, by rw [if_neg (hne x hx), hxf]⟩
  · rw [created_event]
    rcases Finset.mem_insert.mp hx with rfl | hx
    · simpa [IOPoller.created] using hlt
    · simpa [IOPoller.created, hne x hx, hfds x hx] using h.event x hx
  · obtain ⟨x, hx, hxf⟩ := h.registration r hr
    exact ⟨x, Finset.mem_insert_of_mem hx, by rw [created_event, if_neg (hne x hx), hxf]⟩

/-- The rings of a created event are empty, as its descriptor has no watches yet, and those of the
others are untouched. -/
theorem Rings.created (h : p.Rings) (hs : p.Stored) (hload : p.load fd = some none)
    (he : e ∉ p.allocated) : (p.created fd e).Rings := by
  intro x hx c
  rw [items, created_event]
  rcases Finset.mem_insert.mp hx with rfl | hx
  · have hhead : (p.created fd x).links.Ring (.watchListHead x c) [] := by
      cases c <;> simp [IOPoller.created, Links.makeEmpty, Links.Ring, Links.Path]
    simpa [IOPoller.created, hs.watchesOf_eq_nil hload] using hhead
  · have hne : x ≠ e := fun heq => he (heq ▸ hx)
    rw [if_neg hne]
    refine (h x hx c).congr fun y hy => created_links (fun c' => ?_) ?_
    all_goals
      rintro rfl
      simp [items, hne.symm] at hy

/-- **A new event** is sound: its watch lists are empty, nothing is pending, and the kernel's set
has no entry for its descriptor. -/
theorem Sound.created (h : p.Sound) (hload : p.load fd = some none) (he : e ∉ p.allocated) :
    (p.created fd e).Sound := by
  have hs := h.stored
  have hne : ∀ x ∈ p.allocated, x ≠ e := fun x hx heq => he (heq ▸ hx)
  refine ⟨hs.created hload he, ⟨h.watches.1, h.watches.2⟩, h.rings.created hs hload he,
    ⟨fun x hx => ?_, fun f hf => h.kernel.absent f fun x hx => ?_⟩, fun x => ?_⟩
  · rw [created_event]
    rcases Finset.mem_insert.mp hx with rfl | hx
    · simpa [IOPoller.created] using h.kernel.absent fd fun x hx => hs.load_eq_none hload hx
    · rw [if_neg (hne x hx)]
      exact h.kernel.interest x hx
  · have hfx := hf x (Finset.mem_insert_of_mem hx)
    rwa [created_event, if_neg (hne x hx)] at hfx
  · have hx := h.history x
    by_cases hxe : x = e
    · subst hxe
      rw [block, if_neg he] at hx
      simp only [IOPoller.created]
      rw [replay_append_self, hx]
      simp [block, Block.step]
    · simp only [IOPoller.created]
      rw [replay_append_other (Ne.symm hxe), hx]
      simp [block, hxe]

/-- A created event has no flags pending, and nobody watches its descriptor yet. -/
theorem Pending.created (h : p.Pending) (hs : p.Stored) (hload : p.load fd = some none)
    (he : e ∉ p.allocated) : (p.created fd e).Pending := by
  intro x hx
  rw [created_event]
  rcases Finset.mem_insert.mp hx with rfl | hx
  · have hnone : ∀ c, watched p.registered fd c = false := fun c =>
      watched_eq_false.mpr (hs.watchesOf_eq_nil hload)
    simpa [IOPoller.created] using ((mask_eq_zero _).mpr hnone).symm
  · have hne : x ≠ e := fun heq => he (heq ▸ hx)
    rw [if_neg hne]
    exact h x hx

/-- The new event is not dirty, so the dirty list is as it was. -/
theorem Queue.created (h : p.Queue dirty) (fd : FD) (he : e ∉ p.allocated) :
    (p.created fd e).Queue dirty := by
  refine ⟨h.ring.congr fun y hy => created_links (fun c => ?_) ?_, fun x hx hd => ?_,
    fun x hx => Finset.mem_insert_of_mem (h.allocated x hx)⟩
  · rintro rfl
    simp at hy
  · rintro rfl
    simp only [List.mem_cons, reduceCtorEq, List.mem_map, Node.eventItem.injEq, exists_eq_right,
      false_or] at hy
    exact he (h.allocated e hy)
  · rcases Finset.mem_insert.mp hx with rfl | hx
    · exact Links.ring_makeEmpty _ _
    · have hne : x ≠ e := fun heq => he (heq ▸ hx)
      refine (h.alone x hx hd).congr fun y hy => ?_
      rw [List.mem_singleton] at hy
      exact created_links (by simp [hy]) (by simp [hy, hne])

/-! ## Setting a watch -/

/-- A watch that is not registered is no node of a ring. -/
theorem watchItem_not_mem (hw : w ∉ p.registered.map (·.watch)) {x : EventId} :
    Node.watchItem w ∉ .watchListHead x c :: p.items x c := by
  simp only [items, List.mem_cons, reduceCtorEq, List.mem_map, Node.watchItem.injEq,
    exists_eq_right, false_or]
  exact fun hin => hw (List.mem_map.mpr ⟨_, mem_watchesOf.mp hin, rfl⟩)

/-- The poller with one more watch linked, before the flags are looked at. -/
def linked (p : IOPoller F) (w : WatchId) (fd : FD) (contents : IOWatch F) (e : EventId) :
    IOPoller F :=
  { p with
    watch := Function.update p.watch w contents
    links := p.links.insertBack (.watchListHead e contents.condition) (.watchItem w)
    registered := p.registered ++ [⟨w, fd, contents.condition⟩] }

/-- **Linking a watch** behind the others of its list registers it, and leaves all other lists as
they are. -/
theorem Sound.linked (h : p.Sound) (he : e ∈ p.allocated) (hfd : (p.event e).fd = fd)
    (hw : w ∉ p.registered.map (·.watch)) (contents : IOWatch F) :
    (p.linked w fd contents e).Sound := by
  have hs := h.stored
  refine ⟨⟨hs.1, hs.2, hs.3, hs.4, fun r hr => ?_⟩, ⟨?_, fun r hr => ?_⟩, fun x hx c => ?_,
    ⟨h.kernel.1, h.kernel.2⟩, h.history⟩
  · rcases List.mem_append.mp hr with hr | hr
    · exact hs.registration r hr
    · rw [List.mem_singleton] at hr
      exact ⟨e, he, hr ▸ hfd⟩
  · simp only [IOPoller.linked, List.map_append]
    exact h.watches.nodup.append (List.nodup_singleton w) (List.disjoint_singleton.mpr hw)
  · rcases List.mem_append.mp hr with hr | hr
    · have hne : r.watch ≠ w := fun heq => hw (heq ▸ List.mem_map_of_mem hr)
      simpa [IOPoller.linked, hne] using h.watches.condition r hr
    · rw [List.mem_singleton] at hr
      simp [IOPoller.linked, hr]
  · have hring := h.rings x hx c
    by_cases hsame : e = x ∧ contents.condition = c
    · obtain ⟨rfl, rfl⟩ := hsame
      have hitems : (p.linked w fd contents e).items e contents.condition =
          p.items e contents.condition ++ [.watchItem w] := by
        simp [items, IOPoller.linked, hfd, watchesOf_append_self]
      rw [hitems]
      exact hring.insertBack (watchItem_not_mem hw)
    · have hitems : (p.linked w fd contents e).items x c = p.items x c := by
        have hother : ¬(fd = (p.event x).fd ∧ contents.condition = c) := by
          rintro ⟨hf, hc⟩
          exact hsame ⟨hs.event_unique he hx (hfd.trans hf), hc⟩
        simp [items, IOPoller.linked, watchesOf_append_other hother]
      rw [hitems]
      refine hring.congr fun y hy => (h.rings e he contents.condition).insertBack_other ?_
      rw [List.mem_cons, not_or]
      refine ⟨?_, h.watches.items_disjoint hs hx he (fun heq => hsame ⟨heq.1.symm, heq.2.symm⟩) hy⟩
      rintro rfl
      exact watchItem_not_mem hw hy

/-- Linking a watch does not touch the dirty list, whose nodes are in no ring of watches. -/
theorem Queue.linked (h : p.Queue dirty) (hr : p.Rings) (he : e ∈ p.allocated) (w : WatchId)
    (fd : FD) (contents : IOWatch F) : (p.linked w fd contents e).Queue dirty := by
  refine h.congr (fun y hy => (hr e he contents.condition).insertBack_other fun hin => hy ?_) rfl
  rcases List.mem_cons.mp hin with rfl | hin
  · trivial
  · exact isWatchNode_of_mem_ring hin

/-- **The last part of setting a watch**, where the event is dirty, clean or new. -/
theorem Sound.addWatch (h : p.Sound) (hp : p.Pending) (hq : p.Queue dirty) (he : e ∈ p.allocated)
    (hfd : (p.event e).fd = fd) (hw : w ∉ p.registered.map (·.watch))
    (hclean : ∀ x ∈ p.allocated, x ∉ dirty → x ≠ e → Clean (p.event x))
    (hnew : e ∉ dirty → Clean (p.event e) ∨ (p.event e).pendingFlags = 0) (c : IOCondition)
    (data : ℕ) (callback : F) :
    ∃ p' dirty', p.addWatch w fd c data callback e = some p' ∧ p'.Shape dirty' ∧
      p'.registered = p.registered ++ [⟨w, fd, c⟩] ∧ p'.allocated = p.allocated := by
  have hsound := h.linked he hfd hw ⟨c, data, callback⟩
  have hqueue := hq.linked h.rings he w fd ⟨c, data, callback⟩
  have hpe := hp e he
  rw [hfd] at hpe
  -- what is pending for other descriptors is what was
  have hother : ∀ x ∈ p.allocated, x ≠ e →
      (p.event x).pendingFlags = mask (watched (p.registered ++ [⟨w, fd, c⟩]) (p.event x).fd) := by
    intro x hx hxe
    have hne : fd ≠ (p.event x).fd :=
      fun heq => hxe (h.stored.event_unique hx he (heq.symm.trans hfd.symm))
    have hsame : watched (p.registered ++ [⟨w, fd, c⟩]) (p.event x).fd =
        watched p.registered (p.event x).fd := by
      funext c'
      rw [watched, watched, watchesOf_append_other fun heq => hne heq.1]
    rw [hsame]
    exact hp x hx
  unfold IOPoller.addWatch
  rw [if_pos he]
  by_cases hbit : (p.event e).pendingFlags &&& ioEventFlags c = 0
  · -- the condition was not watched: the flag is set and the event marked
    let contents := { p.event e with
      pendingFlags := (p.event e).pendingFlags ||| ioEventFlags c }
    have hself : contents.pendingFlags =
        mask (watched (p.registered ++ [⟨w, fd, c⟩]) contents.fd) := by
      rw [show contents.fd = fd from hfd, watched_append, ← mask_or, ← hpe]
    obtain ⟨dirty', -, hshape⟩ := hsound.pend hqueue he contents rfl rfl hself hother hclean
    exact ⟨_, dirty', if_pos hbit, hshape, rfl, rfl⟩
  · -- it was: nothing is pending that was not
    have hwas : watched p.registered fd c = true := by
      rw [hpe, mask_and_eq_zero] at hbit
      simpa using hbit
    refine ⟨p.linked w fd ⟨c, data, callback⟩ e, dirty, if_neg hbit, ⟨hsound, ?_, hqueue, ?_⟩,
      rfl, rfl⟩
    · intro x hx
      by_cases hxe : x = e
      · subst hxe
        have hsame :
            Function.update (watched p.registered fd) c true = watched p.registered fd := by
          rw [← hwas, Function.update_eq_self]
        simpa [IOPoller.linked, hfd, watched_append, hsame] using hpe
      · exact hother x hx hxe
    · intro x hx hxd
      by_cases hxe : x = e
      · subst hxe
        rcases hnew hxd with hcl | hzero
        · exact hcl
        · rw [hzero] at hbit
          exact absurd BitVec.zero_and hbit
      · exact hclean x hx hxd hxe

/-- **Setting a watch**: it is registered behind the others, or memory ran out and no registration
changed. Only a pool that hands out a block in use would be in the way. -/
theorem Shape.setWatch (h : p.Shape dirty) (hw : w ∉ p.registered.map (·.watch))
    (hfd : fd + 1 < 2 ^ 31) (c : IOCondition) (data : ℕ) (callback : F) (reallocated : Bool)
    (block : Option EventId) :
    (p.setWatch w fd c data callback reallocated block = none ∧ ∃ x ∈ block, x ∈ p.allocated) ∨
      ∃ p' ok dirty', p.setWatch w fd c data callback reallocated block = some (p', ok) ∧
        p'.Shape dirty' ∧
        p'.registered = (if ok then p.registered ++ [⟨w, fd, c⟩] else p.registered) := by
  obtain ⟨v, elements, grown, hgrow, hstored, hlength, -⟩ :=
    h.sound.stored.growEvents hfd reallocated
  unfold IOPoller.setWatch
  rw [hgrow]
  let q : IOPoller F := { p with eventVector := v, elements := elements }
  have hq : q.Shape dirty :=
    ⟨⟨hstored, ⟨h.sound.watches.1, h.sound.watches.2⟩, h.sound.rings,
      ⟨h.sound.kernel.1, h.sound.kernel.2⟩, h.sound.history⟩, h.pending,
      ⟨h.queue.1, h.queue.2, h.queue.3⟩, h.settled⟩
  rcases grown with _ | _
  · exact .inr ⟨q, false, dirty, rfl, hq, rfl⟩
  · rcases hload : q.load fd with _ | _ | e
    · simp [load, q, hlength rfl] at hload
    · rcases block with _ | e
      · exact .inr ⟨q, false, dirty, by simp [q, hload], hq, rfl⟩
      · by_cases hused : e ∈ p.allocated
        · refine .inl ⟨?_, e, rfl, hused⟩
          simp [q] at hload
          simp [hload, IOPoller.newEvent, hused]
        · have hnew := newEvent_eq hload hused
          have hcontents : (q.created fd e).event e = ⟨fd, 0, 0⟩ := by
            rw [created_event, if_pos rfl]
          have hclean : ∀ x ∈ (q.created fd e).allocated, x ∉ dirty → x ≠ e →
              Clean ((q.created fd e).event x) := by
            intro x hx hxd hxe
            rw [created_event, if_neg hxe]
            exact hq.settled x (Finset.mem_of_mem_insert_of_ne hx hxe) hxd
          obtain ⟨p', dirty', hadd, hshape, hreg, -⟩ :=
            (hq.sound.created hload hused).addWatch (hq.pending.created hq.sound.stored hload hused)
              (hq.queue.created fd hused) (Finset.mem_insert_self e _) (by rw [hcontents]) hw hclean
              (fun _ => .inr (by rw [hcontents])) c data callback
          refine .inr ⟨p', true, dirty', ?_, hshape, hreg⟩
          simp [q] at hload hnew hadd
          simp [hload, hnew, hadd]
    · obtain ⟨he, hfde⟩ := hq.sound.stored.load_eq_some hload
      obtain ⟨p', dirty', hadd, hshape, hreg, -⟩ :=
        hq.sound.addWatch hq.pending hq.queue he hfde hw
          (fun x hx hxd _ => hq.settled x hx hxd) (fun hd => .inl (hq.settled e he hd)) c
            data callback
      refine .inr ⟨p', true, dirty', ?_, hshape, hreg⟩
      simp [q] at hload hadd
      simp [hload, hadd]

/-! ## Clearing a watch -/

/-- The poller with one watch less, before the flags are looked at. -/
def unlinked (p : IOPoller F) (w : WatchId) : IOPoller F :=
  { p with
    links := p.links.remove (.watchItem w)
    registered := p.registered.filter fun r => r.watch ≠ w }

/-- The ring that a registered watch is in: that of its condition below the event of its descriptor,
with the watches registered before it and after it around it. -/
theorem Sound.ring_of_registered (h : p.Sound) (hr : ⟨w, fd, c⟩ ∈ p.registered) :
    ∃ e ∈ p.allocated, (p.event e).fd = fd ∧ ∃ l l', watchesOf p.registered fd c = l ++ w :: l' ∧
      p.links.Ring (.watchListHead e c)
        (l.map .watchItem ++ .watchItem w :: l'.map .watchItem) := by
  obtain ⟨e, he, hfd⟩ := h.stored.registration _ hr
  obtain ⟨l, l', hl⟩ := List.mem_iff_append.mp (mem_watchesOf.mpr hr)
  have hring := h.rings e he c
  rw [items, hfd, hl, List.map_append, List.map_cons] at hring
  exact ⟨e, he, hfd, l, l', hl, hring⟩

/-- **Unlinking a watch** from wherever it is in its list takes its registration away and no other
one. -/
theorem Sound.unlinked (h : p.Sound) (hr : ⟨w, fd, c⟩ ∈ p.registered) : (p.unlinked w).Sound := by
  have hs := h.stored
  obtain ⟨e, he, hfd, l, l', hl, hring⟩ := h.ring_of_registered hr
  refine ⟨⟨hs.1, hs.2, hs.3, hs.4, fun r hr => hs.registration r (List.mem_of_mem_filter hr)⟩,
    ⟨h.watches.nodup.sublist (List.filter_sublist.map _),
      fun r hr => h.watches.condition r (List.mem_of_mem_filter hr)⟩, fun x hx c' => ?_,
    ⟨h.kernel.1, h.kernel.2⟩, h.history⟩
  by_cases hsame : x = e ∧ c' = c
  · obtain ⟨rfl, rfl⟩ := hsame
    have hitems : (p.unlinked w).items x c' = l.map .watchItem ++ l'.map .watchItem := by
      simp only [items, IOPoller.unlinked, hfd]
      rw [watchesOf_erase_self h.watches.nodup hl, List.map_append]
    rw [hitems]
    exact hring.remove
  · have hitems : (p.unlinked w).items x c' = p.items x c' := by
      simp only [items, IOPoller.unlinked]
      rw [watchesOf_erase_other fun hr' => hsame ?_]
      obtain ⟨hf, hc⟩ := registration_unique h.watches.nodup hr' hr
      exact ⟨hs.event_unique hx he (hf.trans hfd.symm), hc⟩
    rw [hitems]
    refine (h.rings x hx c').congr fun y hy => hring.remove_other fun hin => ?_
    refine h.watches.items_disjoint hs hx he hsame hy ?_
    rw [items, hfd, hl, List.map_append, List.map_cons]
    simp only [List.mem_cons, List.mem_append] at hin ⊢
    tauto

/-- Unlinking a watch does not touch the dirty list, whose nodes are in no ring of watches. -/
theorem Queue.unlinked (h : p.Queue dirty) (hs : p.Sound) (hr : ⟨w, fd, c⟩ ∈ p.registered) :
    (p.unlinked w).Queue dirty := by
  obtain ⟨e, -, -, l, l', -, hring⟩ := hs.ring_of_registered hr
  refine h.congr (fun y hy => hring.remove_other fun hin => hy ?_) rfl
  simp only [List.mem_cons, List.mem_append, List.mem_map] at hin
  rcases hin with rfl | ⟨a, -, rfl⟩ | ⟨a, -, rfl⟩ <;> trivial

/-- **Clearing a registered watch** is possible, and afterwards it is not registered any more, while
all others are. -/
theorem Shape.clearWatch (h : p.Shape dirty) (hw : w ∈ p.registered.map (·.watch)) :
    ∃ p' dirty', p.clearWatch w = some p' ∧ p'.Shape dirty' ∧
      p'.registered = p.registered.filter fun r => r.watch ≠ w := by
  obtain ⟨⟨_, fd, c⟩, hr, rfl⟩ := List.mem_map.mp hw
  rename_i w
  have hs := h.sound.stored
  have hsound := h.sound.unlinked hr
  have hqueue := h.queue.unlinked h.sound hr
  obtain ⟨e, he, hfd, l, l', hl, hring⟩ := h.sound.ring_of_registered hr
  have hnodup := h.sound.watches.nodup
  have hother : ∀ x ∈ p.allocated, x ≠ e → (p.event x).pendingFlags =
      mask (watched (p.registered.filter fun r => r.watch ≠ w) (p.event x).fd) := by
    intro x hx hxe
    have hsame : watched (p.registered.filter fun r => r.watch ≠ w) (p.event x).fd =
        watched p.registered (p.event x).fd := by
      funext c'
      refine watched_erase_other hnodup hr fun heq => hxe ?_
      exact hs.event_unique hx he (heq.1.trans hfd.symm)
    rw [hsame]
    exact h.pending x hx
  have hpe := h.pending e he
  rw [hfd] at hpe
  -- the links of the item are read after it was unlinked
  have hself : (p.links.remove (.watchItem w)).prev (.watchItem w) =
      (p.links.remove (.watchItem w)).next (.watchItem w) ↔ l = [] ∧ l' = [] := by
    rw [hring.remove_self.1, hring.remove_self.2, hring.alone_iff, List.map_eq_nil_iff,
      List.map_eq_nil_iff]
  unfold IOPoller.clearWatch
  by_cases halone : l = [] ∧ l' = []
  · obtain ⟨rfl, rfl⟩ := halone
    have hprev : (p.links.remove (.watchItem w)).prev (.watchItem w) = .watchListHead e c :=
      hring.remove_self.1.trans hring.neighbours.1
    have hc : (p.watch w).condition = c := h.sound.watches.condition _ hr
    let contents := { p.event e with
      pendingFlags := (p.event e).pendingFlags &&& ~~~ioEventFlags c }
    have hpending : contents.pendingFlags =
        mask (watched (p.registered.filter fun r => r.watch ≠ w) contents.fd) := by
      rw [show contents.fd = fd from hfd, watched_erase_only hnodup hl, ← mask_and_not, ← hpe]
    obtain ⟨dirty', -, hshape⟩ := hsound.pend hqueue he contents rfl rfl hpending hother
      fun x hx hxd _ => h.settled x hx hxd
    refine ⟨_, dirty', ?_, hshape, rfl⟩
    rw [if_pos (hself.mpr ⟨rfl, rfl⟩)]
    simp only [hprev, hc]
    exact if_pos ⟨trivial, he⟩
  · -- another watch is left, so the condition is still watched
    refine ⟨p.unlinked w, dirty, if_neg fun heq => halone (hself.mp heq),
      ⟨hsound, fun x hx => ?_, hqueue, h.settled⟩, rfl⟩
    by_cases hxe : x = e
    · have hpending : (p.event x).pendingFlags =
          mask (watched (p.registered.filter fun r => r.watch ≠ w) (p.event x).fd) := by
        rw [hxe, hfd, watched_erase_more hnodup hl halone, hpe]
      exact hpending
    · exact hother x hx hxe

/-! ## Clearing all watches of a descriptor -/

/-- The poller without watches of a descriptor, before the flags are looked at. -/
def emptied (p : IOPoller F) (fd : FD) (e : EventId) : IOPoller F :=
  { p with
    links := (p.links.makeEmpty (.watchListHead e .ioReadable)).makeEmpty
      (.watchListHead e .ioWritable)
    registered := p.registered.filter fun r => r.fd ≠ fd }

/-- Emptying the rings of an event writes the links of its heads, and of no other node. -/
theorem emptied_links {y : Node} (hy : ∀ c, y ≠ .watchListHead e c) :
    (p.emptied fd e).links.prev y = p.links.prev y ∧
      (p.emptied fd e).links.next y = p.links.next y := by
  simp [emptied, Links.makeEmpty, hy]

/-- **Emptying both lists** of an event, whose watches keep the links they have. -/
theorem Sound.emptied (h : p.Sound) (he : e ∈ p.allocated) (hfd : (p.event e).fd = fd) :
    (p.emptied fd e).Sound := by
  have hs := h.stored
  refine ⟨⟨hs.1, hs.2, hs.3, hs.4, fun r hr => hs.registration r (List.mem_of_mem_filter hr)⟩,
    ⟨h.watches.nodup.sublist (List.filter_sublist.map _),
      fun r hr => h.watches.condition r (List.mem_of_mem_filter hr)⟩, fun x hx c => ?_,
    ⟨h.kernel.1, h.kernel.2⟩, h.history⟩
  by_cases hxe : x = e
  · subst hxe
    have hitems : (p.emptied fd x).items x c = [] := by
      simp only [items, IOPoller.emptied, hfd, watchesOf_clear_self, List.map_nil]
    rw [hitems]
    cases c <;> simp [IOPoller.emptied, Links.makeEmpty, Links.Ring, Links.Path]
  · have hne : (p.event x).fd ≠ fd := fun heq => hxe (hs.event_unique hx he (heq.trans hfd.symm))
    have hitems : (p.emptied fd e).items x c = p.items x c := by
      simp only [items, IOPoller.emptied, watchesOf_clear_other hne]
    rw [hitems]
    refine (h.rings x hx c).congr fun y hy => emptied_links fun c' => ?_
    rintro rfl
    simp [items, Ne.symm hxe] at hy

/-- Emptying the rings of an event does not touch the dirty list. -/
theorem Queue.emptied (h : p.Queue dirty) (fd : FD) (e : EventId) :
    (p.emptied fd e).Queue dirty := by
  refine h.congr (fun y hy => emptied_links fun c => ?_) rfl
  rintro rfl
  exact hy trivial

/-- **Clearing the watches of a descriptor's event** takes away all registrations of the descriptor
and no others, and keeps the shape of the poller. -/
theorem Shape.clearEvent (h : p.Shape dirty) (he : e ∈ p.allocated) (hfd : (p.event e).fd = fd) :
    ∃ p' dirty', p.clearEvent fd e = some p' ∧ p'.Shape dirty' ∧
      p'.registered = p.registered.filter fun r => r.fd ≠ fd := by
  have hs := h.sound.stored
  let contents := { p.event e with pendingFlags := 0 }
  -- nothing is watched there, and what is elsewhere is what was
  have hself : contents.pendingFlags =
      mask (watched (p.registered.filter fun r => r.fd ≠ fd) contents.fd) := by
    rw [show contents.fd = fd from hfd]
    exact ((mask_eq_zero _).mpr fun c => watched_eq_false.mpr watchesOf_clear_self).symm
  have hother : ∀ x ∈ p.allocated, x ≠ e → (p.event x).pendingFlags =
      mask (watched (p.registered.filter fun r => r.fd ≠ fd) (p.event x).fd) := by
    intro x hx hxe
    have hne : (p.event x).fd ≠ fd :=
      fun heq => hxe (hs.event_unique hx he (heq.trans hfd.symm))
    have hsame : watched (p.registered.filter fun r => r.fd ≠ fd) (p.event x).fd =
        watched p.registered (p.event x).fd := by
      funext c
      rw [watched, watched, watchesOf_clear_other hne]
    rw [hsame]
    exact h.pending x hx
  obtain ⟨dirty', hd, hshape⟩ :=
    (h.sound.emptied he hfd).pend (h.queue.emptied fd e) he contents rfl
    rfl hself hother fun x hx hxd _ => h.settled x hx hxd
  let q := ((p.emptied fd e).write e contents).markDirty e
  have hcontents : q.event e = contents := by simp [q, IOPoller.markDirty, write]
  have hstep : p.clearEvent fd e =
      if (q.event e).flags ≠ 0 then
        (q.xepollCtl .epollCtlDel fd 0 e).bind fun r =>
          some (r.write e { r.event e with flags := 0 })
      else some q := if_pos he
  by_cases hflags : (q.event e).flags = 0
  · -- the kernel knows nothing of the event
    exact ⟨q, dirty', hstep.trans (if_neg fun hne => hne hflags), hshape, rfl⟩
  · -- the kernel is told to forget it
    obtain ⟨interest, ledger, hctl, hshape'⟩ :=
      hshape.tell hd .epollCtlDel 0 0 ⟨hflags, rfl⟩ fun hne => absurd rfl hne
    rw [show (q.event e).fd = fd from hcontents ▸ hfd] at hctl
    refine ⟨_, dirty', ?_, hshape', rfl⟩
    rw [hstep, if_pos hflags, hctl, Option.bind_some]

/-- **Clearing the watches of a descriptor**: none is registered any more. -/
theorem Shape.clearWatches (h : p.Shape dirty) (fd : ℕ) :
    ∃ p' dirty', p.clearWatches fd = some p' ∧ p'.Shape dirty' ∧
      p'.registered = p.registered.filter fun r => r.fd ≠ fd := by
  -- where there is no event there is no registration either
  have hnothing : (∀ e ∈ p.allocated, (p.event e).fd ≠ fd) →
      p.registered = p.registered.filter fun r => r.fd ≠ fd := by
    intro hnone
    refine (List.filter_eq_self.mpr fun r hr => ?_).symm
    obtain ⟨e, he, hfd⟩ := h.sound.stored.registration r hr
    simpa using hfd ▸ hnone e he
  unfold IOPoller.clearWatches
  by_cases hge : (fd : ℤ) ≥ p.eventVector.length
  · refine ⟨p, dirty, if_pos hge, h, hnothing fun e he heq => ?_⟩
    have hlt := (h.sound.stored.event e he).1
    rw [heq] at hlt
    omega
  · rcases hload : p.load fd with _ | _ | e
    · simp [load, lt_of_not_ge hge] at hload
    · refine ⟨p, dirty, ?_, h, hnothing fun e he => h.sound.stored.load_eq_none hload he⟩
      simp [hge]
    · obtain ⟨he, hfd⟩ := h.sound.stored.load_eq_some hload
      obtain ⟨p', dirty', hclear, hrest⟩ := h.clearEvent he hfd
      exact ⟨p', dirty', by simp [hge, hclear], hrest⟩

end IOPoller

end Pixy.Poll
