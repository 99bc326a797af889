import Pixy.Sched.Lifecycle
import Pixy.Sched.Linked

/-!
# The scheduler over its memory carries out every run

`Refines s t` says that the scheduler `s` over its memory holds, as rings, the lists of `t`, and
that the regions of `t` are what there is. Each function of the one is carried out where the other's
is: it finds everything it accesses, no assertion fails, and the two are related again. There is one
lemma for each function; the loops that free fibers walk back over links of which the front is still
there (`freeFrom_eq`).

`linked_scheduler` puts them together for whole runs, and adds what `Scheduler_Finalize` leaves
behind.
-/

namespace Pixy.Sched

open Pixy.Found Pixy.Store

/-- **The memory holds the fibers**, in the two lists, and no other fiber. -/
structure InMemory (m : ItemMemory SchedulerItem) (ready dead : List FiberId)
    (regions : Finset FiberId) : Prop where
  lists : HoldsFibers m ready dead
  live : ∀ fiber, .listItem fiber ∈ m.live ↔ fiber ∈ regions

/-- The scheduler with these links in place of its lists. -/
def Scheduler.linked (self : Scheduler) (items : ItemMemory SchedulerItem) : LinkedScheduler where
  context := self.context
  activeFiber := self.activeFiber
  items := items
  fiberCount := self.fiberCount
  fibers := self.fibers
  history := self.history

/-- The scheduler with links has the links it is given. -/
@[simp] theorem Scheduler.linked_items (self : Scheduler) (items : ItemMemory SchedulerItem) :
    (self.linked items).items = items := rfl

/-- The links are those of its lists. -/
abbrev Scheduler.LinkedBy (self : Scheduler) (items : ItemMemory SchedulerItem) : Prop :=
  InMemory items self.readyFiberList self.deadFiberList self.regions

/-- **The one scheduler holds the lists of the other.** -/
def Refines (s : LinkedScheduler) (t : Scheduler) : Prop :=
  ∃ items, s = t.linked items ∧ t.LinkedBy items

/-- The call ends in a state that refines this one. -/
abbrev EndsIn (result : Option LinkedScheduler) (t : Scheduler) : Prop :=
  ∃ items, result = some (t.linked items) ∧ t.LinkedBy items

namespace InMemory

variable {m : ItemMemory SchedulerItem} {ready dead : List FiberId} {regions : Finset FiberId}
  {fiber : FiberId}

/-- The links have changed, and no node has come or gone, so the regions are the ones that were
there. -/
theorem of_lists {m' : ItemMemory SchedulerItem} {ready' dead' : List FiberId}
    (h : InMemory m ready dead regions) (hlive : m'.live = m.live)
    (hlists : HoldsFibers m' ready' dead') : InMemory m' ready' dead' regions where
  lists := hlists
  live := by
    rw [hlive]
    exact h.live

/-- Inserting an allocated fiber at the end of the ready list, seen from the lists and the
regions. -/
theorem insertBack_ready (h : InMemory m ready dead regions) (hr : fiber ∉ ready)
    (hd : fiber ∉ dead) (hregion : fiber ∈ regions) :
    ∃ m', m.insertBack .readyFiberListHead (.listItem fiber) = some m' ∧
      InMemory m' (ready ++ [fiber]) dead regions := by
  obtain ⟨m', hinsert, hlive, hlists⟩ := h.lists.insertBack_ready hr hd ((h.live fiber).mpr hregion)
  exact ⟨m', hinsert, h.of_lists hlive hlists⟩

/-- Inserting an allocated fiber at the front of the ready list, seen from the lists and the
regions. -/
theorem insertFront_ready (h : InMemory m ready dead regions) (hr : fiber ∉ ready)
    (hd : fiber ∉ dead) (hregion : fiber ∈ regions) :
    ∃ m', m.insertFront .readyFiberListHead (.listItem fiber) = some m' ∧
      InMemory m' (fiber :: ready) dead regions := by
  obtain ⟨m', hinsert, hlive, hlists⟩ :=
    h.lists.insertFront_ready hr hd ((h.live fiber).mpr hregion)
  exact ⟨m', hinsert, h.of_lists hlive hlists⟩

/-- Inserting an allocated fiber at the end of the dead list, seen from the lists and the
regions. -/
theorem insertBack_dead (h : InMemory m ready dead regions) (hr : fiber ∉ ready)
    (hd : fiber ∉ dead) (hregion : fiber ∈ regions) :
    ∃ m', m.insertBack .deadFiberListHead (.listItem fiber) = some m' ∧
      InMemory m' ready (dead ++ [fiber]) regions := by
  obtain ⟨m', hinsert, hlive, hlists⟩ := h.lists.insertBack_dead hr hd ((h.live fiber).mpr hregion)
  exact ⟨m', hinsert, h.of_lists hlive hlists⟩

/-- Removing a ready fiber, seen from the lists and the regions: its region stays. -/
theorem remove_ready (h : InMemory m ready dead regions) (hr : fiber ∈ ready) :
    ∃ m', m.remove (.listItem fiber) = some m' ∧ InMemory m' (ready.erase fiber) dead regions := by
  obtain ⟨m', hremove, hlive, hlists⟩ := h.lists.remove_ready hr
  exact ⟨m', hremove, h.of_lists hlive hlists⟩

/-- Removing a dead fiber, seen from the lists and the regions: its region stays, to be used
again. -/
theorem remove_dead (h : InMemory m ready dead regions) (hd : fiber ∈ dead) :
    ∃ m', m.remove (.listItem fiber) = some m' ∧ InMemory m' ready (dead.erase fiber) regions := by
  obtain ⟨m', hremove, hlive, hlists⟩ := h.lists.remove_dead hd
  exact ⟨m', hremove, h.of_lists hlive hlists⟩

/-- A region that `malloc` hands out is in neither list, whatever is in it. -/
theorem allocate (h : InMemory m ready dead regions) (hnew : fiber ∉ regions)
    (prev next : SchedulerItem) :
    InMemory (m.allocate (.listItem fiber) prev next) ready dead (insert fiber regions) := by
  have hgone : .listItem fiber ∉ m.live := fun hin => hnew ((h.live fiber).mp hin)
  obtain ⟨L, hheads, hready, hdead, hm⟩ := h.lists
  refine ⟨⟨L, hheads, hready, hdead, hm.allocate hgone prev next⟩, fun other => ?_⟩
  simp [ItemMemory.allocate, h.live]

end InMemory

/-! ## The freeing loop -/

/-- **The loop frees the fibers between the head and a node, back to front**: it reads the links of
each before it frees it, and those of no other after. -/
theorem freeFrom_eq (head : SchedulerItem) {item : SchedulerItem} (hhead : head.fiber? = none)
    {fibers : List FiberId} (hnodup : fibers.Nodup) {s : LinkedScheduler} {fuel : ℕ}
    (hpath : s.items.links.Path head (fibers.map .listItem) item)
    (hlive : ∀ fiber ∈ fibers, .listItem fiber ∈ s.items.live) (hfuel : fibers.length < fuel) :
    LinkedScheduler.freeFrom head fuel s (s.items.links.prev item) =
      some { s with
        items := { s.items with live := s.items.live \ (fibers.map .listItem).toFinset }
        history := fibers.map (·, .freed) ++ s.history } := by
  obtain ⟨fuel, rfl⟩ : ∃ k, fuel = k + 1 := ⟨fuel - 1, by omega⟩
  induction fibers using List.reverseRecOn generalizing s item fuel with
  | nil =>
      have hback : s.items.links.prev item = head := hpath.2
      simp [LinkedScheduler.freeFrom, hback]
  | append_singleton fibers fiber ih =>
      rw [List.map_append, List.map_singleton] at hpath
      obtain ⟨hfront, -, hprev⟩ := Links.path_append.mp hpath
      obtain ⟨hrest, -, hnot⟩ := List.nodup_append.mp hnodup
      have hfresh : fiber ∉ fibers := fun hin => hnot fiber hin fiber (by simp) rfl
      have hne : (SchedulerItem.listItem fiber) ≠ head :=
        fun he => by simp [← he, SchedulerItem.fiber?] at hhead
      have hhere : .listItem fiber ∈ s.items.live := hlive fiber (by simp)
      rw [List.length_append, List.length_singleton] at hfuel
      obtain ⟨fuel, rfl⟩ : ∃ k, fuel = k + 1 := ⟨fuel - 1, by omega⟩
      -- the rest is freed in the memory without this one, whose links are the same
      have hother : ∀ other ∈ fibers, .listItem other ∈ s.items.live.erase (.listItem fiber) := by
        intro other hin
        refine Finset.mem_erase.mpr ⟨fun he => hfresh ?_, hlive other (List.mem_append_left _ hin)⟩
        exact SchedulerItem.listItem.inj he ▸ hin
      have hloop := ih hrest
        (s := { s with items := { s.items with live := s.items.live.erase (.listItem fiber) } }.log
          fiber .freed) hfront hother fuel (by omega)
      rw [hprev]
      simp only [LinkedScheduler.freeFrom, if_neg hne, SchedulerItem.fiber?, ItemMemory.getPrev,
        if_pos hhere, LinkedScheduler.fiberFree, ItemMemory.release, Option.bind_eq_bind,
        Option.bind_some, Option.pure_def, listItemGetPrev]
      refine hloop.trans ?_
      simp only [LinkedScheduler.log, List.map_append, List.map_singleton, List.append_assoc,
        List.singleton_append, List.toFinset_append, List.toFinset_cons, List.toFinset_nil]
      congr 3
      ext item
      simp
      tauto

/-- The fibers of a list and its head are all there, so the rounds suffice. -/
theorem length_lt_card {head : SchedulerItem} {fibers : List FiberId} {live : Finset SchedulerItem}
    (hnodup : (head :: fibers.map SchedulerItem.listItem).Nodup)
    (hlive : ∀ x ∈ head :: fibers.map SchedulerItem.listItem, x ∈ live) :
    fibers.length < live.card := by
  have hsub : (head :: fibers.map SchedulerItem.listItem).toFinset ⊆ live := by
    intro x hx
    exact hlive x (List.mem_toFinset.mp hx)
  have hle := Finset.card_le_card hsub
  rw [List.toFinset_card_of_nodup hnodup, List.length_cons, List.length_map] at hle
  exact hle

variable {t : Scheduler} {m : ItemMemory SchedulerItem} {fiber : FiberId}

namespace Scheduler

/-- **The dead fibers are freed** by the walk over their list, whose loop reads each link before it
frees the fiber that holds it. -/
theorem freeDeadFibers_linked (h : t.LinkedBy m) :
    EndsIn (t.linked m).freeDeadFibers t.freeDeadFibers := by
  rcases hback : t.deadFiberList.getLast? with _ | back
  · have hdead : t.deadFiberList = [] := List.getLast?_eq_none_iff.mp hback
    have hsame : t.freeDeadFibers = t := by
      unfold Scheduler.freeDeadFibers
      cases t
      simp_all
    refine ⟨m, ?_, ?_⟩
    · obtain ⟨L, hheads, -, hitems, hm⟩ := h.lists
      have hhead : m.getPrev .deadFiberListHead = some .deadFiberListHead := by
        rw [hm.getPrev_head (by simp [hheads])]
        simp [hitems, hdead]
      simp [LinkedScheduler.freeDeadFibers, linked, hhead, hsame]
    · rwa [hsame]
  · have hprev := h.lists.getPrev_dead hback
    obtain ⟨L, hheads, hready, hitems, hm⟩ := h.lists
    have hin : SchedulerItem.deadFiberListHead ∈ L.heads := by simp [hheads]
    have hring := hm.rings _ hin
    rw [hitems] at hring
    have hlive := hm.live _ hin
    rw [hitems] at hlive
    have hnodup : t.deadFiberList.Nodup := List.Nodup.of_map _ (List.nodup_cons.mp hring.2).2
    have hitem : m.links.prev .deadFiberListHead = .listItem back := by
      rw [ItemMemory.getPrev, if_pos (hm.head_live hin)] at hprev
      exact Option.some.inj hprev
    have hloop := freeFrom_eq .deadFiberListHead rfl hnodup (s := t.linked m) hring.1
      (fun fiber hf => hlive _ (List.mem_cons_of_mem _ (List.mem_map_of_mem hf)))
      (length_lt_card hring.2 hlive)
    obtain ⟨m', hinit, hlive', hchanged⟩ := hm.initHead_of_released hin
    rw [hitems] at hinit hlive'
    refine ⟨m', ?_, ?_⟩
    · rw [linked_items, hitem] at hloop
      unfold LinkedScheduler.freeDeadFibers
      rw [linked_items, hprev, Option.bind_eq_bind, Option.bind_some, if_neg (by simp),
        Option.bind_eq_bind, hloop, Option.bind_some]
      simp only [hinit, Option.bind_eq_bind, Option.bind_some, Option.pure_def]
      rfl
    · have hlists : HoldsFibers m' t.readyFiberList [] := .of_changed_dead hheads hready hchanged
      refine ⟨hlists, fun fiber => ?_⟩
      rw [hlive']
      simp [Scheduler.freeDeadFibers, h.live]

/-- The switch back to `Scheduler_Tick` frees the dead fibers in memory as it does in the lists. -/
theorem switchTo_linked (h : t.LinkedBy m) : EndsIn (t.linked m).switchTo t.switchTo :=
  freeDeadFibers_linked (t := { t with activeFiber := none }) ⟨h.lists, h.live⟩

/-! ## The switches -/

/-- **A ready fiber is taken off the list and entered**: its item is removed by its own links, and
its context restored. -/
theorem switchToItem_linked (h : t.LinkedBy m) (hr : fiber ∈ t.readyFiberList)
    (hregion : fiber ∈ t.regions) :
    EndsIn ((t.linked m).switchToItem (.listItem fiber))
      ({ t with readyFiberList := t.readyFiberList.erase fiber }.switchToFiber fiber) := by
  obtain ⟨m', hremove, h'⟩ := h.remove_ready hr
  refine ⟨m', ?_, h'.lists, h'.live⟩
  have hlive : .listItem fiber ∈ m'.live := (h'.live fiber).mpr hregion
  simp only [LinkedScheduler.switchToItem, SchedulerItem.fiber?, Option.bind_eq_bind,
    Option.bind_some, linked_items, hremove, LinkedScheduler.switchToFiber, LinkedScheduler.read,
    if_pos hlive, Option.pure_def]
  rfl

/-- The front one of the ready list is switched to, by the link that leads from the head to it. -/
theorem switchToFront_linked (h : t.LinkedBy m) (ha : ∀ fiber ∈ t.readyFiberList, fiber ∈ t.regions)
    (hready : t.readyFiberList ≠ []) :
    EndsIn ((t.linked m).items.getNext .readyFiberListHead >>= (t.linked m).switchToItem)
      t.switchToFront := by
  obtain ⟨front, rest, hfront⟩ := List.exists_cons_of_ne_nil hready
  have hin : front ∈ t.readyFiberList := hfront ▸ List.mem_cons_self
  have hhead : t.readyFiberList.head? = some front := by rw [hfront]; rfl
  rw [linked_items, h.lists.getNext_ready hhead, Scheduler.switchToFront, hhead]
  exact switchToItem_linked h hin (ha front hin)

/-- Switching away does in memory what it does in the lists: it enters the front fiber, or goes back
and frees the dead ones. -/
theorem switchAway_linked (h : t.LinkedBy m)
    (ha : ∀ fiber ∈ t.readyFiberList, fiber ∈ t.regions) :
    EndsIn (t.linked m).switchAway t.switchAway := by
  unfold LinkedScheduler.switchAway Scheduler.switchAway
  rw [linked_items, h.lists.isEmpty_ready, Option.bind_eq_bind, Option.bind_some]
  by_cases hready : t.readyFiberList = []
  · rw [if_pos (decide_eq_true hready), if_pos hready]
    exact switchTo_linked h
  · rw [if_neg (by simpa using hready), if_neg hready]
    exact switchToFront_linked h ha hready

/-! ## The operations -/

/-- **A fiber is found for a new function**, where there is memory. It is in no list then. -/
theorem takeFiber_linked (h : t.LinkedBy m) (hacc : Accounted t) {region : Option FiberId}
    (hfresh : t.Fresh region) (prev next : SchedulerItem) :
    match t.takeFiber region with
    | none => (t.linked m).takeFiber region prev next = some (t.linked m, none)
    | some (taken, fiber) =>
      ∃ m', (t.linked m).takeFiber region prev next = some (taken.linked m', some fiber) ∧
        taken.LinkedBy m' ∧ fiber ∉ taken.readyFiberList ∧ fiber ∉ taken.deadFiberList ∧
          fiber ∈ taken.regions := by
  unfold Scheduler.takeFiber LinkedScheduler.takeFiber
  rw [linked_items, h.lists.isEmpty_dead, Option.bind_eq_bind, Option.bind_some]
  rcases hback : t.deadFiberList.getLast? with _ | fiber
  · rw [if_pos (decide_eq_true (List.getLast?_eq_none_iff.mp hback))]
    rcases region with _ | fiber
    · rfl
    · have hnew : fiber ∉ t.regions := hfresh fiber rfl
      refine ⟨_, rfl, ⟨(h.allocate hnew prev next).lists, (h.allocate hnew prev next).live⟩, ?_⟩
      exact ⟨fun hr => hnew (hacc.ready_region fiber hr), fun hd =>
        hnew (hacc.dead_region fiber hd), Finset.mem_insert_self fiber t.regions⟩
  · have hdead : fiber ∈ t.deadFiberList := List.mem_of_getLast? hback
    obtain ⟨m', hremove, h'⟩ := h.remove_dead hdead
    rw [if_neg (by simpa using List.ne_nil_of_mem hdead)]
    refine ⟨m', ?_, ⟨h'.lists, h'.live⟩, ?_⟩
    · simp only [h.lists.getPrev_dead hback, SchedulerItem.fiber?, hremove, Option.bind_eq_bind,
        Option.bind_some, Option.pure_def]
      rfl
    · exact ⟨fun hr => hacc.ready_not_dead fiber hr hdead, hacc.dead_nodup.not_mem_erase,
        hacc.dead_region fiber hdead⟩

/-- A write into an allocated fiber finds it there and changes its fields. -/
theorem write_linked (h : t.LinkedBy m) (hregion : fiber ∈ t.regions) (contents : Fiber) :
    (t.linked m).write fiber contents =
      some ({ t with fibers := Function.update t.fibers fiber contents }.linked m) :=
  if_pos ((h.live fiber).mpr hregion)

/-- Saving the context of an allocated fiber finds it there and writes its field. -/
theorem saveContext_linked (h : t.LinkedBy m) (hregion : fiber ∈ t.regions) :
    (t.linked m).saveContext fiber = some ((t.saveContext fiber).linked m) :=
  write_linked h hregion _

/-- **A fiber is added** to the ready list in memory, be it a dead one used again or one in a new
region, and if there is none, nothing is changed. -/
theorem addFiber_linked (h : t.LinkedBy m) (hacc : Accounted t) (function argument : ℕ)
    {region : Option FiberId} (hfresh : t.Fresh region) (prev next : SchedulerItem) :
    ∃ m', (t.linked m).addFiber function argument region prev next =
        some ((t.addFiber function argument region).1.linked m',
          (t.addFiber function argument region).2) ∧
      (t.addFiber function argument region).1.LinkedBy m' := by
  have htake := takeFiber_linked h hacc hfresh prev next
  unfold LinkedScheduler.addFiber Scheduler.addFiber
  rcases hres : t.takeFiber region with _ | ⟨taken, fiber⟩
  · rw [hres] at htake
    simp only at htake
    rw [htake]
    exact ⟨m, rfl, h⟩
  · rw [hres] at htake
    obtain ⟨m', htake, h', hr, hd, hregion⟩ := htake
    obtain ⟨m'', hinsert, h''⟩ := h'.insertBack_ready hr hd hregion
    refine ⟨m'', ?_, h''.lists, h''.live⟩
    rw [htake]
    simp only [Option.bind_eq_bind, Option.bind_some, write_linked h' hregion, linked_items,
      hinsert, Option.pure_def]
    rfl

/-- The running fiber has saved its context and is in the ready list. -/
def requeued (self : Scheduler) (active : FiberId) (ready : List FiberId) : Scheduler :=
  { self.saveContext active with readyFiberList := ready }.log active
    (.requeued self.history.length)

/-- Adding a fiber that runs at once, written out for the case that there is memory: the caller goes
to the front and the fiber at the back is entered. -/
theorem addAndRunFiber_eq {added : Scheduler} {active back : FiberId} {function argument : ℕ}
    {region : Option FiberId} (ha : t.activeFiber = some active)
    (hadd : t.addFiber function argument region = (added, true))
    (hback : (active :: added.readyFiberList).getLast? = some back) :
    t.addAndRunFiber function argument region =
      ({ added.requeued active (active :: added.readyFiberList) with
          readyFiberList := (active :: added.readyFiberList).erase back }.switchToFiber back,
            true) := by
  have hback' : ({ added.saveContext active with
      readyFiberList := active :: (added.saveContext active).readyFiberList }.log active
        (.requeued added.history.length)).readyFiberList.getLast? = some back := hback
  simp only [Scheduler.addAndRunFiber, ha, hadd, hback']
  rfl

/-- **The running fiber makes room for the new one**, which is at the back of the list. -/
theorem addAndRunFiber_linked (h : t.LinkedBy m) (hacc : Accounted t) (function argument : ℕ)
    {region : Option FiberId} (ha : t.activeFiber ≠ none) (hfresh : t.Fresh region)
    (prev next : SchedulerItem) :
    ∃ m', (t.linked m).addAndRunFiber function argument region prev next =
        some ((t.addAndRunFiber function argument region).1.linked m',
          (t.addAndRunFiber function argument region).2) ∧
      (t.addAndRunFiber function argument region).1.LinkedBy m' := by
  obtain ⟨active, ha⟩ := Option.ne_none_iff_exists'.mp ha
  have ha' : (t.linked m).activeFiber = some active := ha
  obtain ⟨m', hadd, h'⟩ := addFiber_linked h hacc function argument hfresh prev next
  have hacc' := hacc.add function argument hfresh
  have hact := addFiber_activeFiber t function argument region
  unfold LinkedScheduler.addAndRunFiber
  rw [ha', hadd]
  rcases hres : t.addFiber function argument region with ⟨added, _ | _⟩
  · rw [hres] at h'
    rw [Scheduler.addAndRunFiber, ha, hres]
    exact ⟨m', rfl, h'⟩
  · rw [hres] at h' hacc' hact
    have hactive : added.activeFiber = some active := hact.trans ha
    have hregion := hacc'.active_region active hactive
    obtain ⟨m'', hinsert, h''⟩ := h'.insertFront_ready (hacc'.active_not_ready active hactive)
      (hacc'.active_not_dead active hactive) hregion
    obtain ⟨back, hback⟩ : ∃ back, (active :: added.readyFiberList).getLast? = some back :=
      ⟨_, List.getLast?_eq_getLast_of_ne_nil (List.cons_ne_nil _ _)⟩
    have hin : back ∈ active :: added.readyFiberList := List.mem_of_getLast? hback
    have hregion' : back ∈ added.regions := by
      rcases List.mem_cons.mp hin with rfl | hin
      · exact hregion
      · exact hacc'.ready_region back hin
    obtain ⟨final, hswitch, hfinal⟩ := switchToItem_linked
      (t := added.requeued active (active :: added.readyFiberList)) ⟨h''.lists, h''.live⟩ hin
      hregion'
    rw [addAndRunFiber_eq ha hres hback]
    refine ⟨final, ?_, hfinal⟩
    simp only [Option.bind_eq_bind, Option.bind_some, saveContext_linked h' hregion, linked_items,
      hinsert]
    change ((m''.getPrev .readyFiberListHead).bind fun item =>
      (((added.requeued active (active :: added.readyFiberList)).linked m'').switchToItem item).bind
        fun self => some (self, true)) = _
    rw [h''.lists.getPrev_ready hback, Option.bind_some, hswitch]
    rfl

/-- A yield does in memory what it does in the lists. -/
theorem yieldCurrentFiber_linked (h : t.LinkedBy m) (hacc : Accounted t)
    (ha : t.activeFiber ≠ none) :
    EndsIn (t.linked m).yieldCurrentFiber t.yieldCurrentFiber := by
  obtain ⟨active, ha⟩ := Option.ne_none_iff_exists'.mp ha
  have ha' : (t.linked m).activeFiber = some active := ha
  have hregion := hacc.active_region active ha
  unfold LinkedScheduler.yieldCurrentFiber
  rw [ha', linked_items, h.lists.isEmpty_ready]
  by_cases hready : t.readyFiberList = []
  · have hsame : t.yieldCurrentFiber = t := by simp [Scheduler.yieldCurrentFiber, ha, hready]
    rw [hsame]
    exact ⟨m, by simp [hready], h⟩
  · obtain ⟨m', hinsert, h'⟩ := h.insertBack_ready (hacc.active_not_ready active ha)
      (hacc.active_not_dead active ha) hregion
    have hregions : ∀ fiber ∈ t.readyFiberList ++ [active], fiber ∈ t.regions := by
      intro fiber hin
      rcases List.mem_append.mp hin with hin | hin
      · exact hacc.ready_region fiber hin
      · exact List.mem_singleton.mp hin ▸ hregion
    obtain ⟨final, hswitch, hfinal⟩ := switchToFront_linked
      (t := t.requeued active (t.readyFiberList ++ [active])) ⟨h'.lists, h'.live⟩ hregions
      (List.append_ne_nil_of_right_ne_nil _ (List.cons_ne_nil _ _))
    have hleft : t.yieldCurrentFiber =
      (t.requeued active (t.readyFiberList ++ [active])).switchToFront := by
      simp only [Scheduler.yieldCurrentFiber, ha, if_neg hready]
      rfl
    rw [hleft]
    refine ⟨final, ?_, hfinal⟩
    simp only [Option.bind_eq_bind, Option.bind_some, decide_eq_true_eq, if_neg hready,
      saveContext_linked h hregion, linked_items, hinsert]
    exact hswitch

/-- A suspension does in memory what it does in the lists: the fiber that runs is allocated, and its
context is written. -/
theorem suspendCurrentFiber_linked (h : t.LinkedBy m) (hacc : Accounted t)
    (ha : t.activeFiber ≠ none) :
    EndsIn (t.linked m).suspendCurrentFiber t.suspendCurrentFiber := by
  obtain ⟨active, ha⟩ := Option.ne_none_iff_exists'.mp ha
  have ha' : (t.linked m).activeFiber = some active := ha
  unfold LinkedScheduler.suspendCurrentFiber
  rw [suspendCurrentFiber_eq ha, ha']
  simp only [Option.bind_eq_bind, Option.bind_some,
    saveContext_linked h (hacc.active_region active ha)]
  exact switchAway_linked (t := (t.saveContext active).log active (.suspended t.history.length))
    ⟨h.lists, h.live⟩ hacc.ready_region

/-- Resuming a suspended fiber does in memory what it does in the lists: the fiber is allocated and
in neither of them. -/
theorem resumeFiber_linked (h : t.LinkedBy m) (hs : t.Suspended fiber) :
    EndsIn ((t.linked m).resumeFiber fiber) (t.resumeFiber fiber) := by
  obtain ⟨hregion, hactive, hr, hd⟩ := hs
  obtain ⟨m', hinsert, h'⟩ := h.insertBack_ready hr hd hregion
  refine ⟨m', ?_, h'.lists, h'.live⟩
  simp only [LinkedScheduler.resumeFiber, linked_items, hinsert, Option.bind_eq_bind,
    Option.bind_some, Option.pure_def]
  exact if_neg hactive

/-- Taking back a ready fiber does in memory what it does in the list it is taken from. -/
theorem unresumeFiber_linked (h : t.LinkedBy m) (hacc : Accounted t)
    (hr : fiber ∈ t.readyFiberList) :
    EndsIn ((t.linked m).unresumeFiber fiber) (t.unresumeFiber fiber) := by
  obtain ⟨m', hremove, h'⟩ := h.remove_ready hr
  refine ⟨m', ?_, h'.lists, h'.live⟩
  simp only [LinkedScheduler.unresumeFiber, linked_items, hremove, Option.bind_eq_bind,
    Option.bind_some, Option.pure_def]
  exact if_neg fun ha => hacc.active_not_ready fiber ha hr

/-- An exit does in memory what it does in the lists: the fiber goes to the end of the dead one, and
its memory stays. -/
theorem exitCurrentFiber_linked (h : t.LinkedBy m) (hacc : Accounted t)
    (ha : t.activeFiber ≠ none) :
    EndsIn (t.linked m).exitCurrentFiber t.exitCurrentFiber := by
  obtain ⟨active, ha⟩ := Option.ne_none_iff_exists'.mp ha
  have ha' : (t.linked m).activeFiber = some active := ha
  obtain ⟨m', hinsert, h'⟩ := h.insertBack_dead (hacc.active_not_ready active ha)
    (hacc.active_not_dead active ha) (hacc.active_region active ha)
  unfold LinkedScheduler.exitCurrentFiber
  rw [exitCurrentFiber_eq ha, ha']
  simp only [Option.bind_eq_bind, Option.bind_some, linked_items, hinsert]
  rw [← ha]
  have hleft := switchAway_linked (t := { t with
      deadFiberList := t.deadFiberList ++ [active]
      fiberCount := t.fiberCount - 1 }.log active .exited) ⟨h'.lists, h'.live⟩ hacc.ready_region
  exact hleft

/-- A tick does in memory what it does in the lists, where no fiber runs. -/
theorem tick_linked (h : t.LinkedBy m) (hacc : Accounted t) (hidle : t.activeFiber = none) :
    EndsIn (t.linked m).tick t.tick := by
  have hidle' : ¬ (t.linked m).activeFiber ≠ none := not_not.mpr hidle
  unfold LinkedScheduler.tick Scheduler.tick
  rw [if_neg hidle', linked_items, h.lists.isEmpty_ready, Option.bind_eq_bind, Option.bind_some]
  by_cases hready : t.readyFiberList = []
  · rw [if_pos (decide_eq_true hready), if_pos hready]
    exact ⟨m, rfl, h⟩
  · rw [if_neg (by simpa using hready), if_neg hready]
    exact switchToFront_linked (t := { t with context := some t.history.length }) ⟨h.lists, h.live⟩
      hacc.ready_region hready

/-- **Every call that is allowed is carried out** by the code over memory, which follows no wild
pointer and ends in what the lists of fibers say. -/
theorem apply_linked (h : t.LinkedBy m) (hacc : Accounted t) {action : SchedulerAction}
    (hen : t.Enabled action) (prev next : SchedulerItem) :
    EndsIn ((t.linked m).apply prev next action) (t.apply action) := by
  cases action with
  | addFiber function argument region =>
      obtain ⟨m', hadd, h'⟩ := addFiber_linked h hacc function argument hen prev next
      exact ⟨m', by rw [LinkedScheduler.apply, hadd]; rfl, h'⟩
  | addAndRunFiber function argument region =>
      obtain ⟨m', hadd, h'⟩ := addAndRunFiber_linked h hacc function argument hen.1 hen.2 prev next
      exact ⟨m', by rw [LinkedScheduler.apply, hadd]; rfl, h'⟩
  | yieldCurrentFiber => exact yieldCurrentFiber_linked h hacc hen
  | suspendCurrentFiber => exact suspendCurrentFiber_linked h hacc hen
  | resumeFiber fiber => exact resumeFiber_linked h hen
  | unresumeFiber fiber => exact unresumeFiber_linked h hacc hen
  | exitCurrentFiber => exact exitCurrentFiber_linked h hacc hen
  | tick => exact tick_linked h hacc hen

/-! ## Runs -/

/-- A new scheduler has two empty lists, whatever the links of its heads were before. -/
theorem init_linked (links : Links SchedulerItem) (fibers : FiberId → Fiber) :
    Refines (.init links fibers) (.init fibers) := by
  let L : ItemLists SchedulerItem :=
    { heads := {.readyFiberListHead, .deadFiberListHead}
      items := fun _ => []
      nodup := fun h _ => List.nodup_singleton h
      apart := fun h _ k _ hne => by simpa using hne.symm }
  refine ⟨_, rfl, ⟨L, rfl, rfl, rfl, ?_, ?_⟩, ?_⟩
  · rintro h (rfl | rfl)
    · refine (Links.ring_makeEmpty links .readyFiberListHead).congr fun y hy => ?_
      exact Links.makeEmpty_other (by rw [List.mem_singleton.mp hy]; simp)
    · exact Links.ring_makeEmpty _ _
  · rintro h hh x hx
    rcases hh with rfl | rfl
    · simp [List.mem_singleton.mp hx]
    · simp [List.mem_singleton.mp hx]
  · intro fiber
    simp [Scheduler.init]

end Scheduler

/-- Every run of the one is a run of the other. -/
theorem run_linked {calls : List LinkedAction} {fibers : FiberId → Fiber} {t : Scheduler}
    (hrun : schedulerSystem.run (.init fibers) (calls.map (·.action)) = some t)
    (links : Links SchedulerItem) :
    ∃ s, linkedSystem.run (.init links fibers) calls = some s ∧ Refines s t ∧ Accounted t := by
  refine StepSystem.run_carried (T := linkedSystem) (R := fun s t => Refines s t ∧ Accounted t) ?_
    ⟨Scheduler.init_linked links fibers, accounted_of_reachable (.init ⟨fibers, rfl⟩)⟩ hrun
  rintro s t call t' ⟨⟨m, rfl, h⟩, hacc⟩ hstep
  obtain ⟨hen, rfl⟩ := schedulerSystem_step hstep
  obtain ⟨m', happly, h'⟩ := Scheduler.apply_linked h hacc hen call.prev call.next
  exact ⟨_, happly, ⟨m', rfl, h'⟩, hacc.apply hen⟩

/-- **Every run of the scheduler is carried out over its memory**, with the same result, whatever
new regions and the heads hold at first: no fiber is accessed that has been freed, no head is taken
for a fiber, and no assertion fails. -/
theorem linked_scheduler {calls : List LinkedAction} {fibers : FiberId → Fiber} {t : Scheduler}
    (hrun : schedulerSystem.run (.init fibers) (calls.map (·.action)) = some t)
    (links : Links SchedulerItem) :
    ∃ s, linkedSystem.run (.init links fibers) calls = some s ∧ Refines s t := by
  obtain ⟨s, hs, hrefines, -⟩ := run_linked hrun links
  exact ⟨s, hs, hrefines⟩

/-- A region is freed and handed out again, with links in it that lead to where fibers are or
were. -/
def freedAndUsedAgain : List LinkedAction :=
  [.addFiber 1 0 (some 7), .tick, .addFiber 2 0 (some 9), .exitCurrentFiber, .exitCurrentFiber,
    .addFiber 3 0 (some 7), .tick].map (⟨·, .listItem 7, .listItem 9⟩)

/-- A region is freed and handed out again with stray links in it. The run is carried out in memory
all the same. -/
theorem linked_scheduler_freedAndUsedAgain :
    ∃ t,
      schedulerSystem.run (.init fun _ => ⟨none, 0, 0⟩) (freedAndUsedAgain.map (·.action)) =
        some t ∧
      t.history.count (7, .freed) = 1 ∧ t.activeFiber = some 7 ∧
      ∃ s, linkedSystem.run (.init ⟨id, id⟩ fun _ => ⟨none, 0, 0⟩) freedAndUsedAgain = some s ∧
        Refines s t :=
  ⟨_, rfl, by decide, by decide, linked_scheduler rfl ⟨id, id⟩⟩

/-- **What `Scheduler_Finalize` leaves** of the memory. -/
structure Finalized (t : Scheduler) (s : LinkedScheduler) : Prop where
  /-- The ready fibers have been freed, back to front, and nothing else has happened. -/
  history : s.history = t.readyFiberList.map (·, .freed) ++ t.history
  /-- The fibers left are those that are suspended. -/
  fibers : ∀ fiber, .listItem fiber ∈ s.items.live ↔ t.Suspended fiber
  /-- They are the fibers that have neither exited nor been ready. -/
  card : (s.items.live.card : ℤ) = 2 + (t.fiberCount - t.readyFiberList.length)

/-- **`Scheduler_Finalize` after any run** frees every ready fiber once, and no other. -/
theorem linked_finalize {calls : List LinkedAction} {fibers : FiberId → Fiber} {t : Scheduler}
    (hrun : schedulerSystem.run (.init fibers) (calls.map (·.action)) = some t)
    (hidle : t.activeFiber = none) (links : Links SchedulerItem) :
    ∃ s s', linkedSystem.run (.init links fibers) calls = some s ∧ s.finalize = some s' ∧
      Finalized t s' := by
  obtain ⟨_, hs, ⟨m, rfl, h⟩, hacc⟩ := run_linked hrun links
  have hdead : t.deadFiberList = [] :=
    dead_eq_nil_of_idle (StepSystem.reachable_of_run ⟨fibers, rfl⟩ hrun) hidle
  obtain ⟨L, hheads, hready, -, hm⟩ := h.lists
  have hin : SchedulerItem.readyFiberListHead ∈ L.heads := by simp [hheads]
  have hin' : SchedulerItem.deadFiberListHead ∈ L.heads := by simp [hheads]
  have hring := hm.rings _ hin
  have hlive := hm.live _ hin
  rw [hready] at hring hlive
  have hloop := freeFrom_eq .readyFiberListHead rfl hacc.ready_nodup (s := t.linked m) hring.1
    (fun fiber hf => hlive _ (List.mem_cons_of_mem _ (List.mem_map_of_mem hf)))
    (length_lt_card hring.2 hlive)
  have hfinalize : (t.linked m).finalize =
      LinkedScheduler.freeFrom .readyFiberListHead m.live.card (t.linked m)
        (m.links.prev .readyFiberListHead) := by
    have hidle' : ¬ (t.linked m).activeFiber ≠ none := not_not.mpr hidle
    unfold LinkedScheduler.finalize
    rw [if_neg hidle', Scheduler.linked_items, ItemMemory.getPrev,
      if_pos (hm.head_live hin), Option.bind_eq_bind, Option.bind_some]
    rfl
  have hsub : t.readyFiberList.toFinset ⊆ t.regions := fun fiber hf =>
    hacc.ready_region fiber (List.mem_toFinset.mp hf)
  have hleft : m.live \ (t.readyFiberList.map SchedulerItem.listItem).toFinset =
      insert .readyFiberListHead (insert .deadFiberListHead
        ((t.regions \ t.readyFiberList.toFinset).map ⟨_, HoldsFibers.listItem_injective⟩)) := by
    ext item
    cases item with
    | readyFiberListHead => simpa using hm.head_live hin
    | deadFiberListHead => simpa using hm.head_live hin'
    | listItem fiber => simp [h.live]
  refine ⟨_, _, hs, hfinalize.trans hloop, rfl, fun fiber => ?_, ?_⟩
  · rw [Scheduler.linked_items, hleft]
    simp [Scheduler.Suspended, hidle, hdead]
  · have hcount := hacc.count
    rw [hdead] at hcount
    rw [Scheduler.linked_items, hleft, Finset.card_insert_of_notMem (by simp),
      Finset.card_insert_of_notMem (by simp), Finset.card_map, Finset.card_sdiff_of_subset hsub,
      List.toFinset_card_of_nodup hacc.ready_nodup]
    have hle := Finset.card_le_card hsub
    rw [List.toFinset_card_of_nodup hacc.ready_nodup] at hle
    push_cast [hle]
    simp only [List.length_nil] at hcount
    omega

/-- One fiber is suspended, and two are ready. -/
def suspendedAndReady : List LinkedAction :=
  [.addFiber 1 0 (some 7), .tick, .suspendCurrentFiber, .addFiber 2 0 (some 9),
    .addFiber 3 0 (some 11)].map (⟨·, .deadFiberListHead, .listItem 7⟩)

/-- With one fiber suspended and two ready, finalizing the scheduler frees these two and leaves the
suspended one. -/
theorem linked_finalize_suspendedAndReady :
    ∃ t,
      schedulerSystem.run (.init fun _ => ⟨none, 0, 0⟩) (suspendedAndReady.map (·.action)) =
        some t ∧
      t.readyFiberList = [9, 11] ∧ t.Suspended 7 ∧
      ∃ s s', linkedSystem.run (.init ⟨id, id⟩ fun _ => ⟨none, 0, 0⟩) suspendedAndReady = some s ∧
        s.finalize = some s' ∧ Finalized t s' :=
  ⟨_, rfl, by decide, by decide, linked_finalize rfl rfl ⟨id, id⟩⟩

end Pixy.Sched
