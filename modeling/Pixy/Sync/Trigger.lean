import Pixy.Sched.Awake
import Pixy.Sync.Event

/-!
# Triggers

Which waiters are linked, and whom a trigger releases. `Queue` is the invariant: the ring holds the
waiters of the calls that were not selected yet, in the order in which the calls were made, and
whoever is in a call that was selected is awake. Memory in which there is no waiter of a call in
progress does not come into it, so it may hold anything (`Queue.write`).

* `queue_step`: every step keeps the invariant;
* `one_for_each_trigger`: the result for every reachable state.
-/

namespace Pixy.Sync

open Pixy.Found Pixy.Sched

namespace EventState

/-- **What is linked**: calls that have not been selected, with their waiters, the first one
first. -/
structure Queue (s : EventState) (pending : List (ℕ × WaiterId)) : Prop where
  /-- The scheduler's invariant holds. -/
  accounted : Accounted s.scheduler
  /-- Their waiters are the list. -/
  ring : s.links.Ring .waiterList (pending.map fun p => .listItem p.2)
  /-- Each is the waiter of a fiber that is suspended in the call. -/
  waits : ∀ p ∈ pending, s.position p.2.stack = .inWaitFor p.1 p.2 ∧
    s.scheduler.Suspended p.2.stack ∧ s.fiber p.2 = p.2.stack
  /-- Calls are selected in the order in which they are made. -/
  order : s.selected ++ pending.map Prod.fst = List.range s.made
  /-- Whoever is in a call is linked, or the call was selected and the fiber is awake. -/
  inCall : ∀ fiber call waiter, s.position fiber = .inWaitFor call waiter → waiter.stack = fiber ∧
    ((call, waiter) ∈ pending ∨
      call ∈ s.selected ∧ call ∉ s.returned ∧ s.scheduler.Live fiber ∧ s.scheduler.Awake fiber)
  /-- No two fibers are in one call. -/
  single : ∀ fiber other call waiter waiter', s.position fiber = .inWaitFor call waiter →
    s.position other = .inWaitFor call waiter' → fiber = other
  /-- A call returns once, -/
  nodup : s.returned.Nodup
  /-- and after it was selected. -/
  returned : ∀ call ∈ s.returned, call ∈ s.selected

variable {s next : EventState} {fiber : FiberId} {pending : List (ℕ × WaiterId)}

namespace Queue

/-! ## What the invariant says -/

/-- A call in progress has been made, so its number is below the one that the next call will have.
-/
theorem call_lt (h : s.Queue pending) {call : ℕ} {waiter : WaiterId}
    (hpos : s.position fiber = .inWaitFor call waiter) : call < s.made := by
  rw [← List.mem_range, ← h.order, List.mem_append]
  obtain ⟨-, hin | ⟨hin, -⟩⟩ := h.inCall fiber call waiter hpos
  · exact .inr (List.mem_map_of_mem hin)
  · exact .inl hin

/-- What is linked was not selected: a trigger unlinks the waiter that it selects. -/
theorem not_selected (h : s.Queue pending) {p : ℕ × WaiterId} (hp : p ∈ pending) :
    p.1 ∉ s.selected := by
  have hnodup : (s.selected ++ pending.map Prod.fst).Nodup := h.order ▸ List.nodup_range
  exact fun hin => List.disjoint_of_nodup_append hnodup hin (List.mem_map_of_mem hp)

/-- Those that are linked are the suspended ones: the calls in progress whose fiber is suspended,
with the waiters on their stacks. -/
theorem mem_iff (h : s.Queue pending) {call : ℕ} {waiter : WaiterId} :
    (call, waiter) ∈ pending ↔ s.position waiter.stack = .inWaitFor call waiter ∧
      s.scheduler.Suspended waiter.stack := by
  constructor
  · intro hin
    obtain ⟨hpos, hsuspended, -⟩ := h.waits _ hin
    exact ⟨hpos, hsuspended⟩
  · rintro ⟨hpos, hsuspended⟩
    obtain ⟨-, hin | ⟨-, -, -, hawake⟩⟩ := h.inCall _ _ _ hpos
    · exact hin
    · exact absurd hawake (Scheduler.suspended_iff.mp hsuspended).2

/-- Those that are suspended in a call are those whose calls were not selected. -/
theorem suspended_iff (h : s.Queue pending) {call : ℕ} {waiter : WaiterId}
    (hpos : s.position fiber = .inWaitFor call waiter) :
    s.scheduler.Suspended fiber ↔ call ∉ s.selected := by
  obtain ⟨rfl, hin | ⟨hin, -, -, hawake⟩⟩ := h.inCall fiber call waiter hpos
  · exact iff_of_true (h.waits _ hin).2.1 (h.not_selected hin)
  · exact iff_of_false (fun hsuspended => (Scheduler.suspended_iff.mp hsuspended).2 hawake)
      (not_not_intro hin)

/-- The memory of a waiter that is linked is in use: it lies on the stack of a call that has not
returned. -/
theorem inUse (h : s.Queue pending) {p : ℕ × WaiterId} (hp : p ∈ pending) : s.InUse p.2 := by
  rw [InUse, (h.waits p hp).1]
  rfl

/-- Nothing on the stack of a fiber outside `Event_WaitFor` is linked. -/
theorem not_linked (h : s.Queue pending) (hout : s.position fiber = .outside) (call depth : ℕ) :
    (call, (⟨fiber, depth⟩ : WaiterId)) ∉ pending := by
  intro hin
  obtain ⟨hpos, -⟩ := h.mem_iff.mp hin
  rw [hout] at hpos
  cases hpos

/-! ## The steps -/

/-- **Frame.** The scheduler has done something that is not about those who wait. -/
theorem schedule (h : s.Queue pending) {use : SchedulerAction} (hrun : s.RunsOutside)
    (henabled : s.scheduler.Enabled use) (hspares : s.Spares use) :
    ({ s with scheduler := s.scheduler.apply use } : EventState).Queue pending := by
  have hframe : ∀ {fiber}, s.position fiber ≠ .outside → s.scheduler.Live fiber →
      (s.scheduler.apply use).Live fiber ∧
        ((s.scheduler.apply use).Awake fiber ↔ s.scheduler.Awake fiber) := by
    intro fiber hpos hlive
    refine h.accounted.apply_frame henabled hlive (fun ha => hpos (hrun fiber ha)) ?_ ?_
    · rintro rfl
      exact hpos hspares
    · rintro rfl
      exact hpos hspares
  refine ⟨h.accounted.apply henabled, h.ring, fun p hp => ?_, h.order,
    fun fiber call waiter hpos => ?_, h.single, h.nodup, h.returned⟩
  · obtain ⟨hpos, hsuspended, hfiber⟩ := h.waits p hp
    obtain ⟨hlive, hasleep⟩ := Scheduler.suspended_iff.mp hsuspended
    obtain ⟨hlive', hsame⟩ := hframe (by simp [hpos]) hlive
    exact ⟨hpos, Scheduler.suspended_iff.mpr ⟨hlive', fun hawake => hasleep (hsame.mp hawake)⟩,
      hfiber⟩
  · obtain ⟨hstack, hin | ⟨hselected, hreturned, hlive, hawake⟩⟩ := h.inCall fiber call waiter hpos
    · exact ⟨hstack, .inl hin⟩
    · have hin : s.position fiber ≠ .outside := fun hout => by cases hout.symm.trans hpos
      obtain ⟨hlive', hsame⟩ := hframe hin hlive
      exact ⟨hstack, .inr ⟨hselected, hreturned, hlive', hsame.mpr hawake⟩⟩

/-- **A fiber waits**: its waiter is linked behind the others, and it is suspended until it is
selected. -/
theorem waitFor (h : s.Queue pending) (ha : s.scheduler.activeFiber = some fiber)
    (hout : s.position fiber = .outside) (depth : ℕ) :
    (s.waitFor fiber depth).Queue (pending ++ [(s.made, ⟨fiber, depth⟩)]) := by
  have hother : ∀ {other call waiter},
      s.position other = .inWaitFor call waiter → other ≠ fiber := by
    rintro other call waiter hpos rfl
    rw [hout] at hpos
    cases hpos
  have hlive : s.scheduler.Live fiber := h.accounted.live_of_awake (.inl ha)
  have hunlinked : EventNode.listItem ⟨fiber, depth⟩ ∉
      EventNode.waiterList :: pending.map fun p => .listItem p.2 := by
    simp only [List.mem_cons, reduceCtorEq, List.mem_map, EventNode.listItem.injEq, false_or]
    rintro ⟨⟨call, waiter⟩, hin, rfl⟩
    exact h.not_linked hout call depth hin
  refine ⟨h.accounted.suspendCurrentFiber, ?_, fun p hp => ?_, ?_,
    fun other call waiter hpos => ?_, ?_, h.nodup, h.returned⟩
  · rw [List.map_append]
    exact h.ring.insertBack hunlinked
  · rcases List.mem_append.mp hp with hp | hp
    · obtain ⟨hpos, hsuspended, hfiber⟩ := h.waits p hp
      have hne := hother hpos
      refine ⟨(Function.update_of_ne hne ..).trans hpos, ?_, ?_⟩
      · exact (h.accounted.suspended_suspendCurrentFiber ha).mpr (.inr hsuspended)
      · refine (Function.update_of_ne ?_ ..).trans hfiber
        rintro he
        exact hne (he ▸ rfl)
    · obtain rfl := List.mem_singleton.mp hp
      exact ⟨Function.update_self .., (h.accounted.suspended_suspendCurrentFiber ha).mpr (.inl rfl),
        Function.update_self ..⟩
  · show s.selected ++ (pending ++ [(s.made, _)]).map Prod.fst = List.range (s.made + 1)
    rw [List.map_append, ← List.append_assoc, h.order, List.range_succ]
    rfl
  · by_cases hne : other = fiber
    · obtain ⟨rfl, rfl⟩ := EventPosition.inWaitFor.inj
        ((Function.update_self fiber _ s.position).symm.trans (hne ▸ hpos))
      exact ⟨hne.symm, .inl (List.mem_append_right _ (List.mem_singleton.mpr rfl))⟩
    · have hpos := (Function.update_of_ne hne _ s.position).symm.trans hpos
      obtain ⟨hstack, hin | ⟨hselected, hreturned, hlive', hawake⟩⟩ :=
        h.inCall other call waiter hpos
      · exact ⟨hstack, .inl (List.mem_append_left _ hin)⟩
      · exact ⟨hstack, .inr ⟨hselected, hreturned,
          (Accounted.live_suspendCurrentFiber ha).mpr hlive',
          (h.accounted.awake_suspendCurrentFiber ha).mpr ⟨hne, hawake⟩⟩⟩
  · -- the new call has a number of its own
    have hnew : ∀ {other call waiter},
        (s.waitFor fiber depth).position other = .inWaitFor call waiter →
        other = fiber ∧ call = s.made ∨
          s.position other = .inWaitFor call waiter ∧ call < s.made := by
      intro other call waiter hpos
      by_cases hne : other = fiber
      · obtain ⟨rfl, -⟩ := EventPosition.inWaitFor.inj
          ((Function.update_self fiber _ s.position).symm.trans (hne ▸ hpos))
        exact .inl ⟨hne, rfl⟩
      · have hpos := (Function.update_of_ne hne _ s.position).symm.trans hpos
        exact .inr ⟨hpos, h.call_lt hpos⟩
    intro f g call waiter waiter' hf hg
    obtain ⟨rfl, hcall⟩ | ⟨hf, hcall⟩ := hnew hf <;> obtain ⟨rfl, hcall'⟩ | ⟨hg, hcall'⟩ := hnew hg
    · rfl
    · omega
    · omega
    · exact h.single f g call waiter waiter' hf hg

/-- **A trigger with nobody to release** changes nothing, and is not remembered for those who will
wait later. -/
theorem trigger_nil (h : s.Queue []) : s.trigger = some s := if_pos (h.ring.isEmpty_iff.mpr rfl)

/-- **A trigger** releases the first one of those that are linked: its waiter is removed, and its
fiber made ready. -/
theorem trigger_cons {call : ℕ} {waiter : WaiterId} (h : s.Queue ((call, waiter) :: pending)) :
    s.trigger = some
      { s with
        links := s.links.remove (.listItem waiter)
        scheduler := s.scheduler.resumeFiber waiter.stack
        selected := s.selected ++ [call] } := by
  obtain ⟨hpos, -, hfiber⟩ := h.waits _ List.mem_cons_self
  unfold trigger
  have hnext : s.links.next .waiterList = .listItem waiter := h.ring.1.1
  rw [if_neg (mt h.ring.isEmpty_iff.mp (by simp)), hnext]
  simp only [hfiber, hpos, EventPosition.call, Option.toList_some]

/-- What a trigger leaves is the queue of those behind the first one, whose call is now among the
selected. -/
theorem released {call : ℕ} {waiter : WaiterId} (h : s.Queue ((call, waiter) :: pending)) :
    ({ s with
        links := s.links.remove (.listItem waiter)
        scheduler := s.scheduler.resumeFiber waiter.stack
        selected := s.selected ++ [call] } : EventState).Queue pending := by
  obtain ⟨hpos, hsuspended, -⟩ := h.waits _ List.mem_cons_self
  have hnodup : (call :: pending.map Prod.fst).Nodup := by
    have hall : (s.selected ++ ((call, waiter) :: pending).map Prod.fst).Nodup :=
      h.order ▸ List.nodup_range
    exact (List.nodup_append.mp hall).2.1
  have hfresh : call ∉ pending.map Prod.fst := (List.nodup_cons.mp hnodup).1
  refine ⟨h.accounted.resume hsuspended, ?_, fun p hp => ?_, ?_,
    fun fiber call' waiter' hpos' => ?_,
    h.single, h.nodup, fun call hin => List.mem_append_left _ (h.returned call hin)⟩
  · have hring := h.ring
    rw [List.map_cons] at hring
    exact Links.Ring.remove (l := []) hring
  · obtain ⟨hpos', hsuspended', hfiber'⟩ := h.waits p (List.mem_cons_of_mem _ hp)
    refine ⟨hpos', Accounted.suspended_resumeFiber.mpr ⟨fun hsame => ?_, hsuspended'⟩, hfiber'⟩
    rw [hsame, hpos] at hpos'
    obtain ⟨rfl, -⟩ := EventPosition.inWaitFor.inj hpos'
    exact hfresh (List.mem_map_of_mem hp)
  · rw [List.append_assoc]
    exact h.order
  · obtain ⟨hstack, hin | ⟨hselected, hreturned, hlive, hawake⟩⟩ :=
      h.inCall fiber call' waiter' hpos'
    · rcases List.mem_cons.mp hin with heq | hin
      · -- it is the one that was released
        obtain ⟨rfl, rfl⟩ := Prod.mk.inj heq
        have hnot : call' ∉ s.returned :=
          fun hin => h.not_selected List.mem_cons_self (h.returned _ hin)
        refine ⟨hstack, .inr ⟨List.mem_append_right _ (List.mem_singleton.mpr rfl), hnot, ?_, ?_⟩⟩
        · exact hstack ▸ (Scheduler.suspended_iff.mp hsuspended).1
        · exact Accounted.awake_resumeFiber.mpr (.inl hstack.symm)
      · exact ⟨hstack, .inl hin⟩
    · exact ⟨hstack, .inr ⟨List.mem_append_left _ hselected, hreturned, hlive,
        Accounted.awake_resumeFiber.mpr (.inr hawake)⟩⟩

/-- **A fiber that runs in `Event_WaitFor`** was selected and has not returned yet: nothing but a
trigger makes it run again. -/
theorem selected_of_active (h : s.Queue pending) (ha : s.scheduler.activeFiber = some fiber)
    {call : ℕ} {waiter : WaiterId} (hpos : s.position fiber = .inWaitFor call waiter) :
    call ∈ s.selected ∧ call ∉ s.returned := by
  obtain ⟨rfl, hin | ⟨hselected, hreturned, -⟩⟩ := h.inCall fiber call waiter hpos
  · exact absurd (.inl ha) (Scheduler.suspended_iff.mp (h.waits _ hin).2.1).2
  · exact ⟨hselected, hreturned⟩

/-- **A fiber returns** from its call, and the calls that have returned are still among those
selected. -/
theorem proceed (h : s.Queue pending) (ha : s.scheduler.activeFiber = some fiber) {call : ℕ}
    {waiter : WaiterId} (hpos : s.position fiber = .inWaitFor call waiter) :
    ({ s with
        position := Function.update s.position fiber .outside
        returned := s.returned ++ [call] } : EventState).Queue pending := by
  obtain ⟨hselected, hreturned⟩ := h.selected_of_active ha hpos
  have hold : ∀ {other call' waiter'},
      Function.update s.position fiber .outside other = .inWaitFor call' waiter' →
        other ≠ fiber ∧ s.position other = .inWaitFor call' waiter' := by
    intro other call' waiter' hother
    by_cases hne : other = fiber
    · rw [hne, Function.update_self] at hother
      cases hother
    · rw [Function.update_of_ne hne] at hother
      exact ⟨hne, hother⟩
  refine ⟨h.accounted, h.ring, fun p hp => ?_, h.order, fun other call' waiter' hother => ?_,
    fun f g call' _ _ hf hg => h.single f g call' _ _ (hold hf).2 (hold hg).2, ?_,
      fun call' hin => ?_⟩
  · obtain ⟨hpos', hsuspended, hfiber⟩ := h.waits p hp
    refine ⟨(Function.update_of_ne ?_ ..).trans hpos', hsuspended, hfiber⟩
    rintro hsame
    exact (Scheduler.suspended_iff.mp hsuspended).2 (.inl (hsame ▸ ha))
  · obtain ⟨hne, hother⟩ := hold hother
    obtain ⟨hstack, hin | ⟨hselected', hreturned', hawake⟩⟩ := h.inCall other call' waiter' hother
    · exact ⟨hstack, .inl hin⟩
    · refine ⟨hstack, .inr ⟨hselected', fun hin => ?_, hawake⟩⟩
      rcases List.mem_append.mp hin with hin | hin
      · exact hreturned' hin
      · exact hne (h.single other fiber call' _ _ hother (List.mem_singleton.mp hin ▸ hpos))
  · exact List.nodup_append.mpr ⟨h.nodup, List.nodup_singleton call, fun a ha b hb => by
      rw [List.mem_singleton.mp hb]
      exact ne_of_mem_of_not_mem ha hreturned⟩
  · rcases List.mem_append.mp hin with hin | hin
    · exact h.returned call' hin
    · exact List.mem_singleton.mp hin ▸ hselected

/-- **Something is written** where there is no waiter, as on a stack whose call has returned, and
the ring does not see it. -/
theorem write (h : s.Queue pending) {waiter : WaiterId} (hfree : ¬s.InUse waiter)
    (before after : EventNode) (fiber : FiberId) :
    ({ s with
        links :=
          { prev := Function.update s.links.prev (.listItem waiter) before
            next := Function.update s.links.next (.listItem waiter) after }
        fiber := Function.update s.fiber waiter fiber } : EventState).Queue pending := by
  have hne : ∀ p ∈ pending, p.2 ≠ waiter := fun p hp he => hfree (he ▸ h.inUse hp)
  refine ⟨h.accounted, h.ring.congr fun node hnode => ?_, fun p hp => ?_, h.order, h.inCall,
    h.single, h.nodup, h.returned⟩
  · have hother : node ≠ .listItem waiter := by
      rintro rfl
      simp only [List.mem_cons, reduceCtorEq, List.mem_map, EventNode.listItem.injEq,
        false_or] at hnode
      obtain ⟨p, hp, heq⟩ := hnode
      exact hne p hp heq
    exact ⟨Function.update_of_ne hother .., Function.update_of_ne hother ..⟩
  · obtain ⟨hpos, hsuspended, hfiber⟩ := h.waits p hp
    exact ⟨hpos, hsuspended, (Function.update_of_ne (hne p hp) ..).trans hfiber⟩

end Queue

/-! ## Every reachable state -/

/-- **Every step keeps the invariant**, with those who are linked before and after it. -/
theorem queue_step (h : s.Queue pending) {action : EventAction}
    (hstep : s.step action = some next) :
    ∃ pending', next.Queue pending' := by
  obtain ⟨use, -, hrun, henabled, hspares, rfl⟩ | ⟨fiber, depth, -, ha, hout, rfl⟩ | ⟨-, htrigger⟩ |
    ⟨fiber, call, waiter, -, ha, hpos, rfl⟩ | ⟨waiter, before, after, fiber, -, hfree, rfl⟩ :=
      step_cases hstep
  · exact ⟨_, h.schedule hrun henabled hspares⟩
  · exact ⟨_, h.waitFor ha hout depth⟩
  · rcases pending with _ | ⟨⟨call, waiter⟩, pending⟩
    · obtain rfl := Option.some.inj (h.trigger_nil.symm.trans htrigger)
      exact ⟨_, h⟩
    · obtain rfl := Option.some.inj (h.trigger_cons.symm.trans htrigger)
      exact ⟨_, h.released⟩
  · exact ⟨_, h.proceed ha hpos⟩
  · exact ⟨_, h.write hfree before after fiber⟩

/-- In every reachable state the list of the event is a queue of the calls that no trigger has
selected. -/
theorem queue_of_reachable (h : eventSystem.Reachable s) : ∃ pending, s.Queue pending := by
  refine h.induct (I := fun s => ∃ pending, s.Queue pending) ?_ ?_
  · rintro s ⟨hscheduler, ⟨links, hlinks⟩, hout, hmade, hselected, hreturned⟩
    have hnone : ∀ {fiber call waiter}, s.position fiber ≠ .inWaitFor call waiter := by
      intro fiber call waiter hpos
      cases (hout fiber).symm.trans hpos
    refine ⟨[], accounted_of_reachable hscheduler, ?_, by simp, ?_,
      fun _ _ _ hpos => absurd hpos hnone, fun _ _ _ _ _ hpos => absurd hpos hnone, ?_, ?_⟩
    · rw [hlinks]
      exact Links.ring_makeEmpty ..
    · simp [hselected, hmade]
    · simp [hreturned]
    · simp [hreturned]
  · rintro s action next - ⟨pending, hqueue⟩ - hstep
    exact queue_step hqueue hstep

/-! ## One for each trigger -/

/-- The fiber is suspended in `Event_WaitFor` with the waiter, and no trigger has selected it. -/
def WaitsUnselected (s : EventState) (waiter : WaiterId) : Prop :=
  ∃ fiber call, s.position fiber = .inWaitFor call waiter ∧ s.scheduler.Suspended fiber ∧
    call ∉ s.selected

/-- **A trigger has released a waiter.** -/
structure Releases (s next : EventState) (waiter : WaiterId) (rest : List WaiterId) : Prop where
  /-- It is the one that has waited longest. -/
  longest : ∃ call, s.position waiter.stack = .inWaitFor call waiter ∧ call ∉ s.selected ∧
    (∀ fiber other waiter', s.position fiber = .inWaitFor other waiter' → other ∉ s.selected →
      call ≤ other) ∧ next.selected = s.selected ++ [call]
  /-- Its fiber was not in the ready list, and is at the back of it. -/
  fresh : waiter.stack ∉ s.scheduler.readyFiberList
  ready : next.scheduler.readyFiberList = s.scheduler.readyFiberList ++ [waiter.stack]
  /-- The others are linked as they were. -/
  ring : next.links.Ring .waiterList (rest.map .listItem)
  /-- Nothing else has changed. -/
  same : next.position = s.position ∧ next.fiber = s.fiber ∧ next.made = s.made ∧
    next.returned = s.returned ∧ next.scheduler.activeFiber = s.scheduler.activeFiber

/-- **Waiters are released one for each trigger, in order.** -/
structure OneForEachTrigger (s : EventState) : Prop where
  /-- The list contains exactly the waiters of the fibers that are suspended in `Event_WaitFor` and
  not selected; a trigger releases the first one, and without one it changes nothing. -/
  trigger : ∃ waiters : List WaiterId, s.links.Ring .waiterList (waiters.map .listItem) ∧
    (∀ waiter, waiter ∈ waiters ↔ s.WaitsUnselected waiter) ∧
    match waiters with
    | [] => s.trigger = some s
    | waiter :: rest => ∃ next, s.trigger = some next ∧ s.Releases next waiter rest
  /-- Nothing else selects. -/
  select : ∀ action next, s.step action = some next → next.selected ≠ s.selected → action = .trigger
  /-- Calls are selected in the order in which they are made. -/
  order : s.selected <+: List.range s.made
  /-- Whoever is suspended in a call waits until it is selected. -/
  suspended : ∀ fiber call waiter, s.position fiber = .inWaitFor call waiter →
    (s.scheduler.Suspended fiber ↔ call ∉ s.selected)
  /-- A call returns once, and after it was selected. -/
  returned : s.returned.Nodup ∧ ∀ call ∈ s.returned, call ∈ s.selected
  /-- Nothing on the stack of the fiber that runs is linked. -/
  reused : ∀ fiber ∈ s.scheduler.activeFiber, ∀ depth items,
    s.links.Ring .waiterList items → .listItem ⟨fiber, depth⟩ ∉ items

namespace Queue

/-- The linked waiters are those of the fibers that are suspended in the call and not selected. -/
theorem mem_waiters (h : s.Queue pending) {waiter : WaiterId} :
    waiter ∈ pending.map Prod.snd ↔ s.WaitsUnselected waiter := by
  rw [List.mem_map]
  constructor
  · rintro ⟨⟨call, waiter⟩, hin, rfl⟩
    obtain ⟨hpos, hsuspended⟩ := h.mem_iff.mp hin
    exact ⟨_, call, hpos, hsuspended, h.not_selected hin⟩
  · rintro ⟨fiber, call, hpos, hsuspended, -⟩
    obtain ⟨rfl, -⟩ := h.inCall fiber call waiter hpos
    exact ⟨(call, waiter), h.mem_iff.mpr ⟨hpos, hsuspended⟩, rfl⟩

/-- The list of the event is the ring of these waiters' items, in the order of their calls. -/
theorem ring_waiters (h : s.Queue pending) :
    s.links.Ring .waiterList ((pending.map Prod.snd).map .listItem) := by
  rw [List.map_map]
  exact h.ring

/-- The first one is the one whose call was made first. -/
theorem le_of_unselected {call : ℕ} {waiter : WaiterId} (h : s.Queue ((call, waiter) :: pending))
    {other : ℕ} {waiter' : WaiterId} (hpos : s.position fiber = .inWaitFor other waiter')
    (hnot : other ∉ s.selected) : call ≤ other := by
  obtain ⟨-, hin | ⟨hin, -⟩⟩ := h.inCall fiber other waiter' hpos
  · rcases List.mem_cons.mp hin with heq | hin
    · exact (Prod.mk.inj heq).1.ge
    · have hsorted : (s.selected ++ ((call, waiter) :: pending).map Prod.fst).Pairwise (· < ·) :=
        h.order ▸ List.pairwise_lt_range
      have hfirst := (List.pairwise_append.mp hsorted).2.1
      exact ((List.pairwise_cons.mp hfirst).1 other (List.mem_map_of_mem hin)).le
  · exact absurd hin hnot

/-- A trigger releases the first waiter, which is the one that has waited longest, and leaves the
others linked. -/
theorem releases {call : ℕ} {waiter : WaiterId} (h : s.Queue ((call, waiter) :: pending)) :
    ∃ next, s.trigger = some next ∧ s.Releases next waiter (pending.map Prod.snd) := by
  obtain ⟨hpos, hsuspended, -⟩ := h.waits _ List.mem_cons_self
  exact ⟨_, h.trigger_cons,
    ⟨call, hpos, h.not_selected List.mem_cons_self, fun _ _ _ => h.le_of_unselected, rfl⟩,
    hsuspended.2.2.1, rfl, h.released.ring_waiters, rfl, rfl, rfl, rfl, rfl⟩

/-- Nothing on the stack of the fiber that runs is linked, so it may write there what it likes. -/
theorem reused (h : s.Queue pending) (ha : s.scheduler.activeFiber = some fiber) {depth : ℕ}
    {items : List EventNode} (hring : s.links.Ring .waiterList items) :
    .listItem ⟨fiber, depth⟩ ∉ items := by
  rw [hring.unique h.ring, List.mem_map]
  rintro ⟨p, hp, heq⟩
  obtain ⟨-, hsuspended, -⟩ := h.waits p hp
  rw [EventNode.listItem.inj heq] at hsuspended
  exact (Scheduler.suspended_iff.mp hsuspended).2 (.inl ha)

end Queue

/-- Only a trigger selects: a step that changes the list of the selected calls is one. -/
theorem selected_step {action : EventAction} (hstep : s.step action = some next)
    (hselected : next.selected ≠ s.selected) : action = .trigger := by
  obtain ⟨use, -, -, -, -, rfl⟩ | ⟨fiber, depth, -, -, -, rfl⟩ | ⟨rfl, -⟩ |
    ⟨fiber, call, waiter, -, -, -, rfl⟩ | ⟨waiter, before, after, fiber, -, -, rfl⟩ :=
      step_cases hstep
  · exact absurd rfl hselected
  · exact absurd rfl hselected
  · rfl
  · exact absurd rfl hselected
  · exact absurd rfl hselected

/-- **Waiters are released one for each trigger, in order**, in every run. -/
theorem one_for_each_trigger (h : eventSystem.Reachable s) : s.OneForEachTrigger := by
  obtain ⟨pending, hqueue⟩ := queue_of_reachable h
  refine ⟨⟨_, hqueue.ring_waiters, fun _ => hqueue.mem_waiters, ?_⟩, fun _ _ => selected_step,
    ⟨_, hqueue.order⟩, fun _ _ _ => hqueue.suspended_iff, ⟨hqueue.nodup, hqueue.returned⟩,
    fun fiber ha depth items => hqueue.reused ha⟩
  rcases pending with _ | ⟨⟨call, waiter⟩, pending⟩
  · exact hqueue.trigger_nil
  · exact hqueue.releases

/-! ## A run -/

/-- An event that was initialized, and no fiber yet. -/
def startedEvent : EventState where
  scheduler := .init fun _ => ⟨none, 0, 0⟩
  links := Links.makeEmpty ⟨id, id⟩ .waiterList
  fiber _ := 0
  position _ := .outside
  made := 0
  selected := []
  returned := []

/-- Two fibers wait and the third triggers; the first returns and writes where its waiter was, while
the other still waits. -/
def writesOverWaiter : List EventAction :=
  [.scheduler (.addFiber 7 0 (some 1)), .scheduler (.addFiber 7 0 (some 2)),
    .scheduler (.addFiber 8 0 (some 3)), .scheduler .tick, .waitFor 40, .waitFor 16, .trigger,
    .scheduler .yieldCurrentFiber, .proceed, .write ⟨1, 40⟩ .waiterList (.listItem ⟨3, 0⟩) 9]

/-- One trigger for two waiters: the first returns and writes where its waiter was, and the other
waits on, linked as before. -/
theorem one_for_each_trigger_writesOverWaiter : ∃ s,
    eventSystem.run startedEvent writesOverWaiter = some s ∧ s.selected = [0] ∧ s.returned = [0] ∧
      s.fiber ⟨1, 40⟩ = 9 ∧ s.position 2 = .inWaitFor 1 ⟨2, 16⟩ ∧ s.OneForEachTrigger := by
  refine ⟨_, rfl, by decide, by decide, by decide, by decide, ?_⟩
  refine one_for_each_trigger (StepSystem.reachable_of_run ?_
    (rfl : eventSystem.run startedEvent writesOverWaiter = some _))
  exact ⟨.init ⟨_, rfl⟩, ⟨_, rfl⟩, fun _ => rfl, rfl, rfl, rfl⟩

end EventState

end Pixy.Sync
