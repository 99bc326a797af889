import Pixy.Sched.Awake

/-!
# The order in which fibers are dispatched

What an operation does to the ready list (`Scheduler.turn`), and what follows for whole runs: a
fiber is not dispatched before those that are ahead of it have left the list (`waitsFor_of_behind`).
The ready list is a queue but for `Scheduler_AddAndRunFiber`, which puts the creator at its front
and dispatches the newcomer past everyone; and the newcomer is no fiber that was waiting.
-/

namespace Pixy.Sched

open Pixy.Found

/-- A fiber leaves the ready list: it is dispatched, or passed to `Scheduler_UnresumeFiber`. -/
def Leaves (fiber : FiberId) (events : List (FiberId × FiberEvent)) : Prop :=
  (fiber, .unresumed) ∈ events ∨ ∃ context, (fiber, .dispatched context) ∈ events

/-- Nobody is dispatched. -/
def NoDispatch (events : List (FiberId × FiberEvent)) : Prop :=
  ∀ fiber context, (fiber, .dispatched context) ∉ events

/-- Whenever the one is dispatched, the other has left the ready list before. -/
def WaitsFor (later earlier : FiberId) (events : List (FiberId × FiberEvent)) : Prop :=
  ∀ newer older context, events = newer ++ (later, .dispatched context) :: older →
    Leaves earlier older

/-- The one is ahead of the other in the ready list. -/
def Scheduler.Ahead (self : Scheduler) (earlier later : FiberId) : Prop :=
  ∃ front back, self.readyFiberList = front ++ earlier :: back ∧ later ∈ back

/-- The one is live and neither runs nor is ahead of the other, which is ready. -/
structure Behind (s : Scheduler) (earlier later : FiberId) : Prop where
  /-- Nobody up to the one that is ahead is the other. -/
  ready : ∃ front back, s.readyFiberList = front ++ earlier :: back ∧ later ∉ front
  /-- They are different. -/
  ne : later ≠ earlier
  /-- The other does not run. -/
  active : s.activeFiber ≠ some later
  /-- It is live. -/
  live : s.Live later

/-! ## One operation -/

/-- **What an operation can do to the ready list**, with the events it adds to the history. -/
inductive Turn (s next : Scheduler) (events : List (FiberId × FiberEvent)) : Prop
  /-- Fibers are put at the back. -/
  | stay (added : List FiberId) (ready : next.readyFiberList = s.readyFiberList ++ added)
      (active : next.activeFiber = s.activeFiber) (nobody : NoDispatch events)
  /-- A fiber is taken out. -/
  | leave (fiber : FiberId) (ready : next.readyFiberList = s.readyFiberList.erase fiber)
      (active : next.activeFiber = s.activeFiber) (nobody : NoDispatch events)
      (unresumed : (fiber, .unresumed) ∈ events)
  /-- The one at the front is dispatched, and fibers are put at the back. -/
  | front (fiber : FiberId) (rest added : List FiberId) (before : s.readyFiberList = fiber :: rest)
      (ready : next.readyFiberList = rest ++ added) (active : next.activeFiber = some fiber)
      (dispatched : ∃ context, (fiber, .dispatched context) ∈ events)
      (only : ∀ other context, (other, .dispatched context) ∈ events → other = fiber)
  /-- A new fiber is dispatched, and its creator is put at the front. -/
  | newcomer (fiber creator : FiberId) (creates : s.activeFiber = some creator)
      (new : ¬s.Live fiber) (ready : next.readyFiberList = creator :: s.readyFiberList)
      (active : next.activeFiber = some fiber) (older : List (FiberId × FiberEvent))
      (first : events = (fiber, .dispatched none) :: older) (nobody : NoDispatch older)
  /-- Nobody is ready, and nobody runs any more. -/
  | idle (before : s.readyFiberList = []) (ready : next.readyFiberList = [])
      (active : next.activeFiber = none) (nobody : NoDispatch events)

/-- In an empty history nobody is dispatched, which is where an induction over histories begins. -/
theorem noDispatch_nil : NoDispatch [] := fun _ _ => List.not_mem_nil

/-- A history stays without dispatches if an event is added that is none. -/
theorem NoDispatch.cons {events : List (FiberId × FiberEvent)} (h : NoDispatch events)
    {entry : FiberId × FiberEvent}
    (hentry : ∀ fiber context, entry ≠ (fiber, .dispatched context)) :
    NoDispatch (entry :: events) := by
  intro fiber context hin
  rcases List.mem_cons.mp hin with heq | hin
  · exact hentry fiber context heq.symm
  · exact h fiber context hin

namespace Accounted

variable {s : Scheduler}

/-- The newcomer of a successful add was not alive before, goes to the back of the ready list, and
is not dispatched by the call. -/
theorem newcomer_addFiber (function argument : ℕ) {region : Option FiberId}
    (hfresh : s.Fresh region) (hok : (s.addFiber function argument region).2 = true) :
    ∃ fiber events, ¬s.Live fiber ∧ NoDispatch events ∧
      (s.addFiber function argument region).1.history = events ++ s.history ∧
      (s.addFiber function argument region).1.readyFiberList = s.readyFiberList ++ [fiber] ∧
      ((s.addFiber function argument region).1.fibers fiber).context = none := by
  unfold Scheduler.addFiber Scheduler.takeFiber at hok ⊢
  rcases hback : s.deadFiberList.getLast? with _ | fiber
  · rcases region with _ | fiber
    · simp [hback] at hok
    · have hnew : fiber ∉ s.regions := hfresh fiber rfl
      refine ⟨fiber, [(fiber, .added), (fiber, .allocated)], fun hl => hnew hl.1, ?_, rfl, rfl, ?_⟩
      · exact (noDispatch_nil.cons (by simp)).cons (by simp)
      · simp [Scheduler.log]
  · have hmem : fiber ∈ s.deadFiberList := List.mem_of_getLast? hback
    refine ⟨fiber, [(fiber, .added)], fun hl => hl.2 hmem, ?_, rfl, rfl, ?_⟩
    · exact noDispatch_nil.cons (by simp)
    · simp [Scheduler.log]

/-- A switch to the fiber at the front of the ready list dispatches this one and no other, also
where fibers have been added behind it before. -/
theorem turn_switchToFront {m : Scheduler} {fiber : FiberId} {rest : List FiberId}
    (added : List FiberId) (events : List (FiberId × FiberEvent))
    (hs : s.readyFiberList = fiber :: rest) (hm : m.readyFiberList = s.readyFiberList ++ added)
    (hhistory : m.history = events ++ s.history) (hnobody : NoDispatch events) :
    ∃ events, m.switchToFront.history = events ++ s.history ∧ Turn s m.switchToFront events := by
  have hfront : m.readyFiberList = fiber :: (rest ++ added) := by rw [hm, hs, List.cons_append]
  have heq : m.switchToFront =
      { m with readyFiberList := m.readyFiberList.erase fiber }.switchToFiber fiber := by
    unfold Scheduler.switchToFront
    rw [hfront]
    rfl
  refine ⟨(fiber, .dispatched (m.fibers fiber).context) :: events, ?_,
    .front fiber rest added hs ?_ ?_ ⟨_, List.mem_cons_self⟩ ?_⟩
  · rw [heq, List.cons_append, ← hhistory]
    rfl
  · rw [heq]
    show m.readyFiberList.erase fiber = _
    rw [hfront, List.erase_cons_head]
  · rw [heq]
    rfl
  · intro other context hin
    rcases List.mem_cons.mp hin with heq | hin
    · exact congrArg Prod.fst heq
    · exact absurd hin (hnobody other context)

/-- A fiber that leaves the processor hands over to the one at the front, or to nobody. -/
theorem turn_switchAway {m : Scheduler} (events : List (FiberId × FiberEvent))
    (hm : m.readyFiberList = s.readyFiberList) (hhistory : m.history = events ++ s.history)
    (hnobody : NoDispatch events) :
    ∃ events, m.switchAway.history = events ++ s.history ∧ Turn s m.switchAway events := by
  unfold Scheduler.switchAway
  rcases hs : s.readyFiberList with _ | ⟨fiber, rest⟩
  · rw [if_pos (hm.trans hs)]
    refine ⟨m.deadFiberList.map (·, .freed) ++ events, ?_, .idle hs (hm.trans hs) rfl ?_⟩
    · rw [List.append_assoc, ← hhistory]
      rfl
    · intro fiber context hin
      rcases List.mem_append.mp hin with hin | hin
      · obtain ⟨other, -, heq⟩ := List.mem_map.mp hin
        cases heq
      · exact hnobody fiber context hin
  · have hne : m.readyFiberList ≠ [] := by simp [hm, hs]
    rw [if_neg hne]
    exact turn_switchToFront [] events hs (by rw [hm, List.append_nil]) hhistory hnobody

/-- A successful `Scheduler_AddAndRunFiber` dispatches the new fiber before all those that are
ready, and puts its caller at their front. -/
theorem turn_addAndRunFiber (h : Accounted s) {creator : FiberId}
    (ha : s.activeFiber = some creator) (function argument : ℕ) {region : Option FiberId}
    (hfresh : s.Fresh region) (hok : (s.addAndRunFiber function argument region).2 = true) :
    ∃ fiber older, (s.addAndRunFiber function argument region).1.history =
        (fiber, .dispatched none) :: older ++ s.history ∧ NoDispatch older ∧ ¬s.Live fiber ∧
      (s.addAndRunFiber function argument region).1.readyFiberList = creator :: s.readyFiberList ∧
      (s.addAndRunFiber function argument region).1.activeFiber = some fiber := by
  unfold Scheduler.addAndRunFiber at hok ⊢
  rcases hres : s.addFiber function argument region with ⟨added, _ | _⟩
  · simp [ha, hres] at hok
  · obtain ⟨fiber, events, hnew, hnobody, hhistory, hready, hcontext⟩ :=
      newcomer_addFiber function argument hfresh (by rw [hres])
    rw [hres] at hhistory hready hcontext
    dsimp only at hhistory hready hcontext
    have hcreator : fiber ≠ creator := by
      rintro rfl
      exact hnew (h.live_of_awake (.inl ha))
    have hlisted : fiber ∉ s.readyFiberList := fun hin => hnew (h.live_of_awake (.inr hin))
    have hback : (creator :: added.readyFiberList).getLast? = some fiber := by
      rw [hready, ← List.cons_append, List.getLast?_append]
      rfl
    refine ⟨fiber, (creator, .requeued added.history.length) :: events, ?_, ?_, hnew, ?_, ?_⟩
    · simp only [ha, Scheduler.log, Scheduler.saveContext, Scheduler.switchToFiber, hback]
      simp only [Function.update_of_ne hcreator, hcontext, hhistory, List.cons_append]
    · exact hnobody.cons (by simp)
    · simp only [ha, Scheduler.log, Scheduler.saveContext, Scheduler.switchToFiber, hback]
      rw [hready, List.erase_cons_tail (by simpa using hcreator.symm),
        List.erase_append_right _ hlisted]
      simp
    · simp only [ha, Scheduler.log, Scheduler.saveContext, Scheduler.switchToFiber, hback]

/-- **Every operation is one of these**, with the events that it adds to the history. -/
theorem turn (h : Accounted s) {action : SchedulerAction} (hen : s.Enabled action) :
    ∃ events, (s.apply action).history = events ++ s.history ∧ Turn s (s.apply action) events := by
  have hsame : ∃ events, s.history = events ++ s.history ∧ Turn s s events :=
    ⟨[], rfl, .stay [] (List.append_nil _).symm rfl noDispatch_nil⟩
  cases action with
  | addFiber function argument region =>
      rcases hok : (s.addFiber function argument region).2
      · rwa [Scheduler.apply, Scheduler.addFiber_failed hok]
      · obtain ⟨fiber, events, -, hnobody, hhistory, hready, -⟩ :=
          newcomer_addFiber function argument hen hok
        exact ⟨events, hhistory, .stay [fiber] hready (s.addFiber_activeFiber ..) hnobody⟩
  | addAndRunFiber function argument region =>
      rcases hok : (s.addAndRunFiber function argument region).2
      · rwa [Scheduler.apply, Scheduler.addAndRunFiber_failed hok]
      · obtain ⟨creator, ha⟩ := Option.ne_none_iff_exists'.mp hen.1
        obtain ⟨fiber, older, hhistory, hnobody, hnew, hready, hactive⟩ :=
          h.turn_addAndRunFiber ha function argument hen.2 hok
        exact ⟨_, hhistory, .newcomer fiber creator ha hnew hready hactive older rfl hnobody⟩
  | yieldCurrentFiber =>
      obtain ⟨active, ha⟩ := Option.ne_none_iff_exists'.mp hen
      unfold Scheduler.apply Scheduler.yieldCurrentFiber
      simp only [ha]
      split_ifs with hempty
      · exact hsame
      · obtain ⟨fiber, rest, hr⟩ := List.exists_cons_of_ne_nil hempty
        exact turn_switchToFront [active] [(active, .requeued s.history.length)] hr rfl rfl
          (noDispatch_nil.cons (by simp))
  | suspendCurrentFiber =>
      obtain ⟨active, ha⟩ := Option.ne_none_iff_exists'.mp hen
      rw [Scheduler.apply, Scheduler.suspendCurrentFiber_eq ha]
      exact turn_switchAway [(active, .suspended s.history.length)] rfl rfl
        (noDispatch_nil.cons (by simp))
  | resumeFiber fiber =>
      exact ⟨[(fiber, .resumed)], rfl, .stay [fiber] rfl rfl (noDispatch_nil.cons (by simp))⟩
  | unresumeFiber fiber =>
      exact ⟨[(fiber, .unresumed)], rfl, .leave fiber rfl rfl (noDispatch_nil.cons (by simp))
        (List.mem_singleton.mpr rfl)⟩
  | exitCurrentFiber =>
      obtain ⟨active, ha⟩ := Option.ne_none_iff_exists'.mp hen
      rw [Scheduler.apply, Scheduler.exitCurrentFiber_eq ha]
      exact turn_switchAway [(active, .exited)] rfl rfl (noDispatch_nil.cons (by simp))
  | tick =>
      unfold Scheduler.apply Scheduler.tick
      split_ifs with hempty
      · exact hsame
      · obtain ⟨fiber, rest, hr⟩ := List.exists_cons_of_ne_nil hempty
        exact turn_switchToFront [] [] hr (List.append_nil _).symm rfl
          noDispatch_nil

/-! ## Behind another fiber -/

/-- A fiber that is ahead of another in the ready list is so in this sense. -/
theorem behind_of_ahead (h : Accounted s) {earlier later : FiberId} (ha : s.Ahead earlier later) :
    Behind s earlier later := by
  obtain ⟨front, back, hready, hlater⟩ := ha
  have hnodup := h.ready_nodup
  rw [hready] at hnodup
  have hin : later ∈ s.readyFiberList := by
    rw [hready]
    exact List.mem_append_right _ (List.mem_cons_of_mem _ hlater)
  obtain ⟨-, hback, hdisjoint⟩ := List.nodup_append.mp hnodup
  refine ⟨⟨front, back, hready, fun hfront => ?_⟩, ?_, ?_, ?_⟩
  · exact hdisjoint later hfront later (List.mem_cons_of_mem _ hlater) rfl
  · rintro rfl
    exact (List.nodup_cons.mp hback).1 hlater
  · exact fun hactive => h.active_not_ready later hactive hin
  · exact h.live_of_awake (.inr hin)

/-- The one that is ahead gets no further back: it leaves the ready list, or the other one is still
behind it. -/
theorem ready_of_turn {next : Scheduler} {events : List (FiberId × FiberEvent)}
    {earlier later : FiberId} (hb : Behind s earlier later) (hturn : Turn s next events) :
    Leaves earlier events ∨
      (∃ front back, next.readyFiberList = front ++ earlier :: back ∧ later ∉ front) ∧
        next.activeFiber ≠ some later := by
  obtain ⟨front, back, hready, hfront⟩ := hb.ready
  cases hturn with
  | stay added hnext hactive _ =>
      refine .inr ⟨⟨front, back ++ added, ?_, hfront⟩, hactive ▸ hb.active⟩
      rw [hnext, hready, List.append_assoc, List.cons_append]
  | leave fiber hnext hactive _ hunresumed =>
      by_cases he : fiber = earlier
      · exact .inl (.inl (he ▸ hunresumed))
      · refine .inr ⟨?_, hactive ▸ hb.active⟩
        rw [hnext, hready]
        by_cases hin : fiber ∈ front
        · refine ⟨front.erase fiber, back, List.erase_append_left _ hin, ?_⟩
          exact fun hl => hfront (List.mem_of_mem_erase hl)
        · refine ⟨front, back.erase fiber, ?_, hfront⟩
          rw [List.erase_append_right _ hin, List.erase_cons_tail (by simpa using Ne.symm he)]
  | front fiber rest added hbefore hnext hactive hdispatched _ =>
      rw [hready] at hbefore
      rcases front with _ | ⟨first, front⟩
      · -- it is the one that is dispatched
        obtain ⟨rfl, -⟩ := List.cons.inj hbefore
        exact .inl (.inr hdispatched)
      · obtain ⟨rfl, hrest⟩ := List.cons.inj hbefore
        rw [List.mem_cons, not_or] at hfront
        refine .inr ⟨⟨front, back ++ added, ?_, hfront.2⟩, ?_⟩
        · rw [hnext, ← hrest]
          exact List.append_assoc front (earlier :: back) added
        · rw [hactive]
          exact fun he => hfront.1 (Option.some.inj he).symm
  | newcomer fiber creator hcreates hnew hnext hactive _ _ _ =>
      refine .inr ⟨⟨creator :: front, back, ?_, ?_⟩, ?_⟩
      · rw [hnext, hready, List.cons_append]
      · rw [List.mem_cons, not_or]
        refine ⟨?_, hfront⟩
        rintro rfl
        exact hb.active hcreates
      · rw [hactive]
        rintro he
        exact hnew ((Option.some.inj he).symm ▸ hb.live)
  | idle hbefore _ _ _ =>
      rw [hready] at hbefore
      simp at hbefore

/-- Meanwhile the other is not dispatched: a step made while one fiber is behind another does not
run the later one. -/
theorem not_dispatched_of_turn {next : Scheduler} {events : List (FiberId × FiberEvent)}
    {earlier later : FiberId} (hb : Behind s earlier later) (hturn : Turn s next events)
    (context : Option JmpBuf) : (later, .dispatched context) ∉ events := by
  intro hin
  obtain ⟨front, back, hready, hfront⟩ := hb.ready
  cases hturn with
  | stay _ _ _ hnobody => exact hnobody later context hin
  | leave _ _ _ hnobody _ => exact hnobody later context hin
  | front fiber rest _ hbefore _ _ _ honly =>
      obtain rfl := honly later context hin
      rw [hready] at hbefore
      rcases front with _ | ⟨first, front⟩
      · exact hb.ne (List.cons.inj hbefore).1.symm
      · exact hfront ((List.cons.inj hbefore).1 ▸ List.mem_cons_self)
  | newcomer fiber creator _ hnew _ _ older hfirst hnobody =>
      rw [hfirst, List.mem_cons] at hin
      rcases hin with heq | hin
      · obtain rfl : later = fiber := congrArg Prod.fst heq
        exact hnew hb.live
      · exact hnobody later context hin
  | idle _ _ _ hnobody => exact hnobody later context hin

/-- **One operation.** The fiber that is ahead leaves the list, or it is still ahead; and the other
is not dispatched. -/
theorem behind_apply (h : Accounted s) {earlier later : FiberId} (hb : Behind s earlier later)
    {action : SchedulerAction} (hen : s.Enabled action) :
    ∃ events, (s.apply action).history = events ++ s.history ∧
      (∀ context, (later, .dispatched context) ∉ events) ∧
      (Leaves earlier events ∨ Behind (s.apply action) earlier later) := by
  obtain ⟨events, hhistory, hturn⟩ := h.turn hen
  refine ⟨events, hhistory, not_dispatched_of_turn hb hturn, ?_⟩
  refine (ready_of_turn hb hturn).imp_right ?_
  rintro ⟨hready, hactive⟩
  refine ⟨hready, hb.ne, hactive, ?_⟩
  cases action with
  | resumeFiber fiber => exact live_resumeFiber.mpr hb.live
  | unresumeFiber fiber => exact live_unresumeFiber.mpr hb.live
  | _ => exact (h.apply_frame hen hb.live hb.active (by simp) (by simp)).1

end Accounted

/-! ## Runs -/

/-- One fiber waits for another over a longer history, if it does so in the newer part or the other
has left before, and in the older part it is not dispatched. -/
theorem WaitsFor.append {later earlier : FiberId} {newer older : List (FiberId × FiberEvent)}
    (hnewer : Leaves earlier older ∨ WaitsFor later earlier newer)
    (holder : ∀ context, (later, .dispatched context) ∉ older) :
    WaitsFor later earlier (newer ++ older) := by
  intro newer' older' context heq
  rcases List.append_eq_append_iff.mp heq with ⟨l, hl, ho⟩ | ⟨l, hl, ho⟩
  · -- the dispatch is not among the older events
    refine absurd ?_ (holder context)
    rw [ho]
    exact List.mem_append_right _ List.mem_cons_self
  · rcases l with _ | ⟨entry, l⟩
    · refine absurd ?_ (holder context)
      rw [List.nil_append] at ho
      rw [← ho]
      exact List.mem_cons_self
    · obtain ⟨rfl, rfl⟩ := List.cons.inj ho
      rcases hnewer with hleaves | hwaits
      · exact hleaves.imp (List.mem_append_right _) fun ⟨c, hc⟩ => ⟨c, List.mem_append_right _ hc⟩
      · exact (hwaits newer' l context hl).imp (List.mem_append_left _)
          fun ⟨c, hc⟩ => ⟨c, List.mem_append_left _ hc⟩

/-- Histories only grow: what has happened before a run is the older part of what has happened after
it. -/
theorem history_of_run {actions : List SchedulerAction} {s t : Scheduler} (h : Accounted s)
    (hrun : schedulerSystem.run s actions = some t) :
    ∃ events, t.history = events ++ s.history := by
  induction actions generalizing s with
  | nil =>
      cases hrun
      exact ⟨[], rfl⟩
  | cons action actions ih =>
      obtain ⟨u, hstep, hrest⟩ := Option.bind_eq_some_iff.mp hrun
      obtain ⟨hen, rfl⟩ := schedulerSystem_step hstep
      obtain ⟨older, holder, -⟩ := h.turn hen
      obtain ⟨newer, hnewer⟩ := ih (h.apply hen) hrest
      exact ⟨newer ++ older, by rw [hnewer, holder, List.append_assoc]⟩

/-- **A run.** A fiber is not dispatched before one that was ahead of it has left the ready list. -/
theorem waitsFor_of_behind {earlier later : FiberId} {actions : List SchedulerAction}
    {s t : Scheduler} (h : Accounted s) (hb : Behind s earlier later)
    (hrun : schedulerSystem.run s actions = some t) :
    ∃ events, t.history = events ++ s.history ∧ WaitsFor later earlier events := by
  induction actions generalizing s with
  | nil =>
      cases hrun
      exact ⟨[], rfl, fun newer older context heq => by simp at heq⟩
  | cons action actions ih =>
      obtain ⟨u, hstep, hrest⟩ := Option.bind_eq_some_iff.mp hrun
      obtain ⟨hen, rfl⟩ := schedulerSystem_step hstep
      obtain ⟨older, holder, hnot, hleaves | hbehind⟩ := h.behind_apply hb hen
      · obtain ⟨newer, hnewer⟩ := history_of_run (h.apply hen) hrest
        exact ⟨newer ++ older, by rw [hnewer, holder, List.append_assoc],
          WaitsFor.append (.inl hleaves) hnot⟩
      · obtain ⟨newer, hnewer, hwaits⟩ := ih (h.apply hen) hbehind hrest
        exact ⟨newer ++ older, by rw [hnewer, holder, List.append_assoc],
          WaitsFor.append (.inr hwaits) hnot⟩

/-- A fiber that yields is then behind all that are ready, but for the one that is dispatched. -/
theorem behind_yieldCurrentFiber {s : Scheduler} {active earlier : FiberId} (h : Accounted s)
    (ha : s.activeFiber = some active) (hready : earlier ∈ s.readyFiberList) :
    ∃ events, s.yieldCurrentFiber.history = events ++ s.history ∧
      (∀ context, (active, .dispatched context) ∉ events) ∧
      (Leaves earlier events ∨ Behind s.yieldCurrentFiber earlier active) := by
  have hen : s.Enabled .yieldCurrentFiber := by
    show s.activeFiber ≠ none
    rw [ha]
    exact Option.some_ne_none _
  obtain ⟨fiber, rest, hr⟩ := List.exists_cons_of_ne_nil (List.ne_nil_of_mem hready)
  have hactive : active ∉ s.readyFiberList := h.active_not_ready active ha
  have heq : s.yieldCurrentFiber =
      { s.saveContext active with
        readyFiberList := rest ++ [active]
        activeFiber := some fiber
        history := (fiber, .dispatched ((s.saveContext active).fibers fiber).context) ::
          (active, .requeued s.history.length) :: s.history } := by
    unfold Scheduler.yieldCurrentFiber
    simp [ha, hr, Scheduler.saveContext, Scheduler.switchToFront, Scheduler.switchToFiber,
      Scheduler.log]
  have hnext : Accounted s.yieldCurrentFiber := h.apply hen
  refine ⟨[(fiber, .dispatched ((s.saveContext active).fibers fiber).context),
    (active, .requeued s.history.length)], by rw [heq]; rfl, fun context hin => ?_, ?_⟩
  · simp only [List.mem_cons, Prod.mk.injEq, List.not_mem_nil, or_false, reduceCtorEq,
      and_false] at hin
    exact hactive (hin.1 ▸ hr ▸ List.mem_cons_self)
  · rw [hr, List.mem_cons] at hready
    rcases hready with rfl | hrest
    · exact .inl (.inr ⟨_, List.mem_cons_self⟩)
    · right
      refine hnext.behind_of_ahead ?_
      obtain ⟨front, back, rfl⟩ := List.append_of_mem hrest
      refine ⟨front, back ++ [active], ?_, List.mem_append_right _ (List.mem_singleton.mpr rfl)⟩
      rw [heq]
      exact List.append_assoc front (earlier :: back) [active]

/-! ## Every reachable state -/

/-- **Dispatches are fair to the ready list.** -/
structure DispatchOrder (s : Scheduler) : Prop where
  /-- Whoever is behind another fiber in the ready list is not dispatched before that has been
  dispatched or unresumed. -/
  ahead : ∀ earlier later, s.Ahead earlier later → ∀ actions t,
    schedulerSystem.run s actions = some t →
      ∃ events, t.history = events ++ s.history ∧ WaitsFor later earlier events
  /-- The fiber `Scheduler_AddAndRunFiber` creates is the next one dispatched, and its creator is
  then ahead of every other ready fiber. -/
  addAndRun : ∀ creator function argument region, s.activeFiber = some creator → s.Fresh region →
    (s.addAndRunFiber function argument region).2 = true →
      ∃ fiber older, (s.addAndRunFiber function argument region).1.history =
          (fiber, .dispatched none) :: older ++ s.history ∧ NoDispatch older ∧ ¬s.Live fiber ∧
        (s.addAndRunFiber function argument region).1.readyFiberList =
          creator :: s.readyFiberList ∧
        (s.addAndRunFiber function argument region).1.activeFiber = some fiber
  /-- Whoever yields is not dispatched again before every fiber that was ready has been dispatched
  or unresumed. -/
  yields : ∀ active, s.activeFiber = some active → ∀ earlier ∈ s.readyFiberList, ∀ actions t,
    schedulerSystem.run s (.yieldCurrentFiber :: actions) = some t →
      ∃ events, t.history = events ++ s.history ∧ WaitsFor active earlier events

/-- **Dispatches are fair to the ready list**, in every run: who is behind another is not dispatched
before that one has been dispatched or unresumed. -/
theorem dispatch_order {s : Scheduler} (h : schedulerSystem.Reachable s) : DispatchOrder s := by
  have hs := accounted_of_reachable h
  constructor
  · intro earlier later hahead actions t hrun
    exact waitsFor_of_behind hs (hs.behind_of_ahead hahead) hrun
  · intro creator function argument region ha hfresh hok
    exact hs.turn_addAndRunFiber ha function argument hfresh hok
  · intro active ha earlier hready actions t hrun
    obtain ⟨u, hstep, hrest⟩ := Option.bind_eq_some_iff.mp hrun
    obtain ⟨hen, rfl⟩ := schedulerSystem_step hstep
    obtain ⟨older, holder, hnot, hleaves | hbehind⟩ := behind_yieldCurrentFiber hs ha hready
    · obtain ⟨newer, hnewer⟩ := history_of_run (hs.apply hen) hrest
      refine ⟨newer ++ older, ?_, WaitsFor.append (.inl hleaves) hnot⟩
      rw [hnewer, List.append_assoc, ← holder]
      rfl
    · obtain ⟨newer, hnewer, hwaits⟩ := waitsFor_of_behind (hs.apply hen) hbehind hrest
      refine ⟨newer ++ older, ?_, WaitsFor.append (.inr hwaits) hnot⟩
      rw [hnewer, List.append_assoc, ← holder]
      rfl

/-- The first fiber adds two others and exits; the one takes its turn and yields to the other. -/
def takingTurns : List SchedulerAction :=
  [.addFiber 7 0 (some 1), .tick, .addFiber 8 65 (some 2), .addFiber 8 66 (some 3),
    .exitCurrentFiber, .yieldCurrentFiber]

/-- The first fiber adds two others and exits; they take turns, in the order of the list. -/
theorem dispatch_order_takingTurns :
    ∃ s, schedulerSystem.run (.init fun _ => ⟨none, 0, 0⟩) takingTurns = some s ∧
      s.activeFiber = some 3 ∧ s.readyFiberList = [2] ∧ DispatchOrder s := by
  refine ⟨_, rfl, by decide, by decide, ?_⟩
  exact dispatch_order (StepSystem.reachable_of_run ⟨fun _ => ⟨none, 0, 0⟩, rfl⟩
    (rfl : schedulerSystem.run (.init fun _ => ⟨none, 0, 0⟩) takingTurns = some _))

end Pixy.Sched
