import Pixy.Loop.Course

/-!
# Blocking calls return for a reason

A fiber that sleeps is not woken before its time, and one that waits for a descriptor is not woken
unless the kernel has reported the descriptor or the time is over, whatever else goes on in the
runtime.

* `stays_step` says that nobody leaves a call but by its return.
* `Awaits` follows one call from where it began; `Awaits.step` keeps it, and `Awaits.stands` reads
  off it where the call stands.
* `sleep_not_early` and `wait_for_reason` say so of the two functions, those calls included for
  which memory runs out and which return at once.
-/

namespace Pixy.Loop

open Pixy.Found Pixy.Sched Pixy.Sync Pixy.Poll Pixy.Pool

variable {n : ℕ}

namespace Runtime

variable {s t u : Runtime n} {declared : Fields FieldName} {action : RuntimeAction n}
  {fiber : FiberId} {k : CallId}

/-! ## Where the caller is -/

/-- A call that returned has an entry in the log, which tells its kind and its result. -/
theorem mem_returned {log : List Happening} (hin : k ∈ returned log) :
    ∃ kind ok errno, .returns k kind ok errno ∈ log := by
  obtain ⟨happening, hin, hk⟩ := List.mem_filterMap.mp hin
  cases happening with
  | returns call kind ok errno =>
      cases hk
      exact ⟨kind, ok, errno, hin⟩
  | _ => cases hk

/-- Whoever makes a call is in none, so it is not the fiber that is in one. -/
theorem ne_of_caller {other : FiberId} (hcaller : s.caller = some other)
    (hpos : s.position fiber = .inCall k) : fiber ≠ other := by
  rintro rfl
  rw [(caller_eq_some hcaller).2] at hpos
  cases hpos

/-- **Nobody leaves a call but by its return**: after a step a fiber is still in its call, or the
call has returned. -/
theorem stays_step (h : s.Invariant []) (hstep : s.step declared action = some t)
    (hpos : s.position fiber = .inCall k) :
    t.position fiber = .inCall k ∨ k ∈ returned t.log := by
  -- whoever moves otherwise makes a call of its own
  have hsame : t.position fiber = s.position fiber →
      t.position fiber = .inCall k ∨ k ∈ returned t.log := by
    intro heq
    exact .inl (heq.trans hpos)
  have hschedule : ∀ {use : SchedulerAction} {u : Runtime n}, s.schedule use = some u →
      u.position = s.position := by
    intro use u huse
    obtain ⟨-, rfl⟩ := schedule_eq_some huse
    rfl
  unfold step at hstep
  rw [if_neg (by simp [h.defined])] at hstep
  cases action with
  | addFiber | addAndRunFiber | yieldCurrentFiber | exitCurrentFiber =>
      obtain ⟨other, -, huse⟩ := Option.bind_eq_some_iff.mp hstep
      exact hsame (by rw [hschedule huse])
  | waitForFD fd condition timeout now reallocated block inserted =>
      obtain ⟨other, hcaller, hwait⟩ := Option.bind_eq_some_iff.mp hstep
      split_ifs at hwait with hguard
      have hne := ne_of_caller hcaller hpos
      obtain ⟨timed, poller, ok, dirty, -, -, -, ⟨-, rfl⟩ | ⟨-, -, rfl⟩ | ⟨-, -, rfl⟩ |
        ⟨-, cleared, dirty', -, -, -, rfl⟩⟩ :=
        waitForFD_cases (setClock_keeps h now).invariant hguard.2 hwait
      · exact hsame rfl
      · exact hsame (Function.update_of_ne hne ..)
      · exact hsame (Function.update_of_ne hne ..)
      · exact hsame rfl
  | sleepCurrentFiber duration now inserted =>
      obtain ⟨other, hcaller, hsleep⟩ := Option.bind_eq_some_iff.mp hstep
      split_ifs at hsleep
      cases hsleep
      cases inserted with
      | false => exact hsame rfl
      | true => exact hsame (Function.update_of_ne (ne_of_caller hcaller hpos) ..)
  | doWork function argument woken =>
      obtain ⟨other, hcaller, hwork⟩ := Option.bind_eq_some_iff.mp hstep
      unfold Runtime.doWork at hwork
      dsimp only at hwork
      split at hwork <;> cases hwork
      exact hsame (Function.update_of_ne (ne_of_caller hcaller hpos) ..)
  | eventWaitFor event =>
      obtain ⟨other, hcaller, rfl⟩ := Option.map_eq_some_iff.mp hstep
      exact hsame (Function.update_of_ne (ne_of_caller hcaller hpos) ..)
  | eventTrigger event =>
      obtain ⟨other, -, rfl⟩ := Option.map_eq_some_iff.mp hstep
      unfold Runtime.eventTrigger
      split <;> exact .inl hpos
  | semaphoreDown i | semaphoreUp i =>
      obtain ⟨other, hcaller, rfl⟩ := Option.map_eq_some_iff.mp hstep
      refine hsame ((Placed.update_if_blocked ..).trans (if_neg fun hother => ?_))
      exact ne_of_caller hcaller hpos hother.1
  | close fd =>
      obtain ⟨other, -, rfl⟩ := Option.map_eq_some_iff.mp hstep
      unfold Runtime.close
      split <;> exact .inl hpos
  | proceed =>
      obtain ⟨other, -, hproceed⟩ := Option.bind_eq_some_iff.mp hstep
      unfold Runtime.proceed at hproceed
      by_cases hother : fiber = other
      · -- the call returns
        subst hother
        simp only [hpos, Option.some.injEq] at hproceed
        subst hproceed
        exact .inr List.mem_cons_self
      · rcases hthere : s.position other with _ | call | event | i | i <;>
          simp only [hthere, Option.some.injEq, reduceCtorEq] at hproceed <;> subst hproceed <;>
          exact hsame (Function.update_of_ne hother ..)
  | worker action =>
      dsimp only at hstep
      split_ifs at hstep
      obtain ⟨pool, -, rfl⟩ := Option.map_eq_some_iff.mp hstep
      exact .inl hpos
  | schedulerTick =>
      dsimp only at hstep
      split_ifs at hstep
      obtain ⟨u, huse, rfl⟩ := Option.map_eq_some_iff.mp hstep
      exact hsame (congrFun (hschedule huse) fiber)
  | poll freeSlot outcome memory =>
      dsimp only at hstep
      split_ifs at hstep
      unfold Runtime.poll at hstep
      split at hstep <;> cases hstep <;> exact .inl hpos
  | dispatch =>
      dsimp only at hstep
      split_ifs at hstep
      unfold Runtime.dispatch at hstep
      rcases hcalls : s.async.calls with _ | ⟨next, calls⟩ <;>
        simp only [hcalls, reduceCtorEq] at hstep
      split_ifs at hstep
      cases hstep
      have huses := Uses.call declared { s with async := { s.async with calls := calls } } next
      exact hsame (congrFun huses.shares.1 fiber)
  | expire now due memory =>
      dsimp only at hstep
      split_ifs at hstep
      unfold Runtime.expire at hstep
      split at hstep <;> cases hstep
      exact .inl hpos

/-! ## One call -/

/-- `epoll_wait` reports a descriptor. -/
def Reports (fd : FD) (condition : IOCondition) : RuntimeAction n → Prop
  | .poll _ (.ready events) _ =>
    ∃ event ∈ events, event.1 = fd ∧ IOPoller.Signals event.2 condition
  | _ => False

/-- What a call is followed with: who has made it, what it is, when its time is over, whether what
it is for may have been reported, and which struct `WaitForFDCallback3` declares. -/
structure Terms where
  /-- The caller. -/
  fiber : FiberId
  /-- What it is. -/
  kind : CallKind
  /-- When its timeout is due, if it has one. -/
  due : ℕ
  /-- Whether its descriptor may have been reported. -/
  reported : Prop
  /-- The struct of the callback. -/
  declared : Fields FieldName

/-- **Why a call is completed**: as ready, because that was reported; or else because its time is
over. A wait whose time is over is completed only by a callback that finds the fields where they
were stored. -/
def Terms.Ends (terms : Terms) (s : Runtime n) : Bool → Prop
  | true => terms.kind ≠ .sleepCurrentFiber ∧ terms.reported
  | false => terms.kind.HasTimeout ∧ terms.due ≤ s.clock ∧
    (terms.kind = .sleepCurrentFiber ∨ terms.declared = timedContext)

/-- **One call, from where it began.** -/
structure Awaits (terms : Terms) (k : CallId) (s : Runtime n) : Prop where
  /-- It has begun. -/
  begun : k < s.nextCall ∧ s.kind k = terms.kind
  /-- Its caller is in it until it returns. -/
  stays : s.position terms.fiber = .inCall k ∨ k ∈ returned s.log
  /-- Its timeout is pending until it is over or the call is completed. -/
  pending : terms.kind.HasTimeout →
    (∃ timeout ∈ s.timer.timeouts, timeout.heapNode = k ∧ timeout.dueTime = terms.due) ∨
      terms.due ≤ s.clock ∨ k ∈ resumed s.log
  /-- It is collected for readiness only if that was reported. -/
  ready : ∀ timed, readyCall timed k ∈ s.async.calls → terms.reported
  /-- So it is completed. -/
  resumed : ∀ fiber ready scheduler, .resumes fiber (.inCall k) ready scheduler ∈ s.log →
    terms.Ends s ready
  /-- It returns as what it is. -/
  returned : ∀ kind ok errno, .returns k kind ok errno ∈ s.log → kind = terms.kind

variable {terms : Terms}

/-- As time goes on a reason for a call to end stays one, since the clock never goes back. -/
theorem Terms.Ends.later {ready : Bool} (h : terms.Ends s ready) (hclock : s.clock ≤ t.clock) :
    terms.Ends t ready := by
  cases ready with
  | true => exact h
  | false => exact ⟨h.1, h.2.1.trans hclock, h.2.2⟩

/-- A call collected for readiness is that of a watch that was reported. -/
theorem Sources.reports (h : s.Sources) {timed : Bool}
    (hcollects : s.Collects action (readyCall timed k)) :
    ∃ fd condition timed, s.kind k = .waitForFD fd condition timed ∧
      Reports fd condition action := by
  cases action <;> try exact hcollects.elim
  case poll freeSlot outcome memory =>
    rcases outcome with _ | events
    · exact hcollects.elim
    obtain ⟨event, hevent, r, hr, hfd, hsignals, hcall⟩ := hcollects
    rcases h.registered r hr with ⟨hzero, hpool⟩ | ⟨-, timed', hk, hready⟩
    · rw [hzero, hpool] at hcall
      cases timed <;> cases hcall
    · rw [hready] at hcall
      obtain rfl : k = r.watch := (AsyncCall.mk.inj hcall).2
      exact ⟨r.fd, r.condition, timed', hk, event, hevent, hfd.symm, hsignals⟩
  case expire now due memory =>
    obtain ⟨timeout, hin, hcall⟩ := hcollects
    obtain ⟨-, htime, hexpiry⟩ := h.pending timeout hin
    rw [hexpiry] at hcall
    rcases cases_of_hasTimeout htime with ⟨fd, condition, hk⟩ | hk
    · rw [expiry_waitForFD hk] at hcall
      cases timed <;> cases hcall
    · rw [expiry_sleep hk] at hcall
      cases timed <;> cases hcall

/-- **Every step keeps it**, except that a report must be known. -/
theorem Awaits.step (h : s.Awaits terms k) (hs : s.Invariant []) (ht : t.Invariant [])
    (hstep : s.step terms.declared action = some t)
    (hcourse : Course s t (s.Collects action) (s.Wakes terms.declared action))
    (hkind : terms.kind ≠ .doWork)
    (hreports : ∀ fd condition timed, terms.kind = .waitForFD fd condition timed →
      Reports fd condition action → terms.reported) : t.Awaits terms k := by
  obtain ⟨notes, hlog, hresumes, hreturns⟩ := hcourse.log
  have hstays : t.position terms.fiber = .inCall k ∨ k ∈ Pixy.Loop.returned t.log := by
    rcases h.stays with hpos | hreturned
    · exact stays_step hs hstep hpos
    · right
      rw [hlog, Pixy.Loop.returned, List.filterMap_append]
      exact List.mem_append_right _ hreturned
  refine ⟨⟨h.begun.1.trans_le hcourse.begun.1, (hcourse.begun.2 k h.begun.1).trans h.begun.2⟩,
    hstays, fun htime => ?_, fun timed hin => ?_, fun fiber ready scheduler hin => ?_,
    fun kind' ok errno hin => ?_⟩
  · obtain ⟨timeout, hin, rfl, hdue⟩ | hover | hresumed := h.pending htime
    · obtain hkept | hover | hresumed := hcourse.timeouts timeout hin
      · exact .inl ⟨timeout, hkept, rfl, hdue⟩
      · exact .inr (.inl (hdue ▸ hover))
      · exact .inr (.inr hresumed)
    · exact .inr (.inl (hover.trans hcourse.clock))
    · refine .inr (.inr ?_)
      rw [hlog, Pixy.Loop.resumed, List.filterMap_append]
      exact List.mem_append_right _ hresumed
  · obtain hold | hnew := hcourse.calls _ hin
    · exact h.ready timed hold
    · obtain ⟨fd, condition, timed, hk, hreport⟩ := hs.sources.reports hnew
      exact hreports fd condition timed (h.begun.2.symm.trans hk) hreport
  · rw [hlog, List.mem_append] at hin
    obtain hnote | hold := hin
    · have hwakes := hresumes fiber k ready scheduler hnote
      cases action <;> try exact hwakes.elim
      obtain hwork | ⟨rfl, ⟨fd, condition, timed, hk⟩, timed', hhead⟩ |
        ⟨rfl, htime, hnode, hfound⟩ := hwakes
      · exact absurd (h.begun.2.symm.trans hwork) hkind
      · refine ⟨?_, h.ready timed' (List.mem_of_head? hhead)⟩
        rw [← h.begun.2, hk]
        simp
      · rw [h.begun.2] at htime hfound
        refine ⟨htime, ?_, hfound⟩
        obtain ⟨timeout, hin, rfl, -⟩ | hover | hresumed := h.pending htime
        · exact absurd (List.mem_map_of_mem hin) hnode
        · exact hover.trans hcourse.clock
        · -- nobody is completed twice
          have hnodup := ht.recorded.orderly.nodup_resumed
          rw [hlog, Pixy.Loop.resumed, List.filterMap_append] at hnodup
          exact absurd hresumed (List.disjoint_of_nodup_append hnodup
            (List.mem_filterMap.mpr ⟨_, hnote, rfl⟩))
    · exact (h.resumed fiber ready scheduler hold).later hcourse.clock
  · rw [hlog, List.mem_append] at hin
    obtain hnote | hold := hin
    · exact (hreturns k kind' ok errno hnote).trans h.begun.2
    · exact h.returned kind' ok errno hold

/-- **A call begins**: it has just been entered, its fiber is suspended in it, and it is not yet
woken. -/
theorem awaits_of_waiting (terms : Terms) (hs : s.Invariant []) (ht : t.Invariant [])
    (hcaller : s.caller = some terms.fiber) (hw : t.Waiting s.nextCall)
    (hwho : t.callerOf s.nextCall = terms.fiber) (hkind : t.kind s.nextCall = terms.kind)
    (hasync : t.async = s.async) (htimeouts : ∀ timeout ∈ t.timer.timeouts,
      timeout ∈ s.timer.timeouts ∨ timeout.dueTime = terms.due) : t.Awaits terms s.nextCall := by
  have hnone : s.nextCall ∉ Pixy.Loop.resumed t.log := fun hin => (ht.recorded.fresh _ hin).2 hw
  have hcalls : t.async.calls = [] := by
    rw [hasync]
    exact hs.calm (hs.running (by simp [(caller_eq_some hcaller).1]))
  refine ⟨⟨(ht.placed.waiting_lt hw).2, hkind⟩, .inl (hwho ▸ hw.1), fun htime => .inl ?_,
    fun timed hin => ?_, fun fiber ready scheduler hin => ?_, fun kind' ok errno hin => ?_⟩
  · have hpending := ht.sources.expires _ hw (hkind ▸ htime)
    rw [hcalls] at hpending
    obtain ⟨timeout, hin, hnode⟩ := List.mem_map.mp (hpending.resolve_right List.not_mem_nil)
    refine ⟨timeout, hin, hnode, (htimeouts timeout hin).resolve_left fun hold => ?_⟩
    -- the older timeouts are those of older calls
    have hlt := (hs.placed.waiting_lt (hs.sources.pending timeout hold).1).2
    exact absurd (hnode ▸ hlt) (lt_irrefl _)
  · rw [hcalls] at hin
    cases hin
  · exact absurd (mem_resumed.mpr ⟨_, _, _, hin⟩) hnone
  · exact absurd (ht.recorded.left _ (List.mem_filterMap.mpr ⟨_, hin, rfl⟩)).1 hnone

/-- **What is kept on the way** from the beginning of a call to any later state, by induction over
the steps that lead there. -/
theorem Awaits.leads {C : Runtime n → RuntimeAction n → Prop} (h : t.Awaits terms k)
    (ht : (runtimeSystem n terms.declared).ReachableWhen (Proper terms.declared) t)
    (hkind : terms.kind ≠ .doWork)
    (hC : ∀ s action, C s action → Proper terms.declared s action ∧ ∀ fd condition timed,
      terms.kind = .waitForFD fd condition timed → Reports fd condition action → terms.reported)
    (hleads : (runtimeSystem n terms.declared).LeadsWhen C t u) : u.Awaits terms k := by
  induction hleads with
  | refl => exact h
  | @tail v w hleads hlast ih =>
      obtain ⟨action, hc, hstep⟩ := hlast
      obtain ⟨hproper, hreports⟩ := hC v action hc
      have hv := ht.leads
        (StepSystem.LeadsWhen.mono (fun s action hc => (hC s action hc).1) hleads)
      have hinvariant := invariant_of_reachable (fun _ _ hc => hc) hv
      exact ih.step hinvariant (invariant_step hinvariant hproper hstep).1 hstep
        (course_step hinvariant hproper hstep) hkind hreports

/-- **The fiber has been woken in the call**: it is about to return from it, or has returned, with
what such a call gives then. -/
def WokenIn (u : Runtime n) (fiber : FiberId) (k : CallId) (kind : CallKind)
    (ready : Bool) : Prop :=
  u.position fiber = .inCall k ∧ ¬u.scheduler.Suspended fiber ∧ u.result k = kind.outcome ready ∨
    .returns k kind (kind.outcome ready).1 (kind.outcome ready).2 ∈ u.log

/-- What a call has returned is what it was completed for, be it readiness or the end of its time.
-/
theorem Awaits.outcome (h : u.Awaits terms k) (hu : u.Invariant []) {kind : CallKind} {ok : Bool}
    {errno : Option ℤ} (hreturns : .returns k kind ok errno ∈ u.log) :
    ∃ ready, terms.Ends u ready ∧ kind = terms.kind ∧ (ok, errno) = terms.kind.outcome ready := by
  obtain ⟨newer, older, hlog⟩ := List.append_of_mem hreturns
  obtain ⟨⟨fiber, ready, scheduler, hin, hout⟩, -, -⟩ := hu.recorded.orderly newer older _ hlog
  have hkind := h.returned kind ok errno hreturns
  rw [hkind] at hout
  exact ⟨ready, h.resumed fiber ready scheduler (by rw [hlog]; simp [hin]), hkind, hout⟩

/-- **Where a call stands**: its caller is suspended in it, or has been woken for a reason. -/
theorem Awaits.stands (h : u.Awaits terms k) (hu : u.Invariant []) :
    u.Waiting k ∧ u.callerOf k = terms.fiber ∨
      ∃ ready, terms.Ends u ready ∧ u.WokenIn terms.fiber k terms.kind ready := by
  obtain hpos | hreturned := h.stays
  · have hwho := (hu.placed.inCall terms.fiber k hpos).1
    by_cases hsuspended : u.scheduler.Suspended terms.fiber
    · exact .inl ⟨⟨hwho ▸ hpos, hwho ▸ hsuspended⟩, hwho⟩
    · obtain ⟨ready, scheduler, hin, hout⟩ := hu.recorded.woken terms.fiber k hpos hsuspended
      rw [h.begun.2] at hout
      exact .inr ⟨ready, h.resumed _ _ _ hin, .inl ⟨hpos, hsuspended, hout⟩⟩
  · obtain ⟨kind, ok, errno, hin⟩ := mem_returned hreturned
    obtain ⟨ready, hends, rfl, hout⟩ := h.outcome hu hin
    obtain ⟨rfl, rfl⟩ := Prod.mk.inj hout
    exact .inr ⟨ready, hends, .inr hin⟩

/-! ## Whether a call blocks -/

/-- What the new call is: a wait for the descriptor and the condition given, with a timeout exactly
if the number given is not negative. -/
theorem kind_waitForFD {fd : FD} {condition : IOCondition} {timeout : ℤ} {now : ℕ}
    {reallocated : Bool} {block : Option EventId} {inserted : Bool}
    (hstep : s.waitForFD fiber fd condition timeout now reallocated block inserted = some t) :
    t.kind = Function.update s.kind s.nextCall (.waitForFD fd condition (0 ≤ timeout)) := by
  unfold Runtime.waitForFD at hstep
  dsimp only at hstep
  split at hstep
  · cases hstep
  · cases hstep
    rfl
  · split_ifs at hstep
    · split at hstep <;> cases hstep
      · rfl
      · exact (Uses.clearWatch _ _ _).shares.2.2.2.2
    · cases hstep
      rfl

/-- **Memory runs out for a wait**: `IOPoller_SetWatch` fails, or there is a timeout and
`Timer_SetTimeout` does. -/
def Refused (s : Runtime n) (fd : FD) (condition : IOCondition) (timeout : ℤ) (reallocated : Bool)
    (block : Option EventId) (inserted : Bool) : Prop :=
  let timed : Bool := 0 ≤ timeout
  (∃ poller, s.poller.setWatch s.nextCall fd condition s.nextCall
    (if timed then Callback.waitForFDCallback2 else .waitForFDCallback1) reallocated block =
      some (poller, false)) ∨ timed = true ∧ inserted = false

/-- **`WaitForFD` suspends its caller, or memory has run out** and the caller goes on at once. -/
theorem waitForFD_blocks {fd : FD} {condition : IOCondition} {timeout : ℤ} {now : ℕ}
    {reallocated : Bool} {block : Option EventId} {inserted : Bool}
    (hstep : s.waitForFD fiber fd condition timeout now reallocated block inserted = some t) :
    s.Refused fd condition timeout reallocated block inserted ∧
        t.scheduler.activeFiber = s.scheduler.activeFiber ∧ t.position = s.position ∨
      ¬s.Refused fd condition timeout reallocated block inserted ∧
        t.scheduler = s.scheduler.suspendCurrentFiber ∧
        t.position = Function.update s.position fiber (.inCall s.nextCall) := by
  unfold Runtime.waitForFD at hstep
  unfold Refused
  dsimp only [enter] at hstep ⊢
  split at hstep
  · cases hstep
  · rename_i poller hset
    cases hstep
    exact .inl ⟨.inl ⟨poller, hset⟩, rfl, rfl⟩
  · rename_i poller hset
    have hgiven : ¬∃ poller, s.poller.setWatch s.nextCall fd condition s.nextCall
        (if decide (0 ≤ timeout) = true then Callback.waitForFDCallback2 else .waitForFDCallback1)
        reallocated block = some (poller, false) := by
      rintro ⟨other, hother⟩
      cases hset.symm.trans hother
    split_ifs at hstep with htimed
    · cases inserted with
      | true =>
          simp only [Timer.setTimeout, if_true, Option.some.injEq] at hstep
          subst hstep
          exact .inr ⟨fun hrefused => hrefused.elim hgiven (by simp), rfl, rfl⟩
      | false =>
          simp only [Timer.setTimeout, Bool.false_eq_true, if_false, Option.some.injEq] at hstep
          subst hstep
          exact .inl ⟨.inr ⟨htimed, rfl⟩, (Uses.clearWatch ..).runs, (Uses.clearWatch ..).shares.1⟩
    · cases hstep
      exact .inr ⟨fun hrefused => hrefused.elim hgiven fun hlate => htimed hlate.1, rfl, rfl⟩

/-- Who runs and is in nothing is the caller, so this depends on the running fiber and the positions
only. -/
theorem caller_congr (hactive : t.scheduler.activeFiber = s.scheduler.activeFiber)
    (hposition : t.position = s.position) : t.caller = s.caller := by
  unfold caller
  rw [hactive, hposition]

/-- A fiber that is suspended in a call has made it and waits in it. -/
theorem waiting_of_suspended (hs : s.Invariant []) (ht : t.Invariant [])
    (hcaller : s.caller = some fiber) (hscheduler : t.scheduler = s.scheduler.suspendCurrentFiber)
    (hposition : t.position = Function.update s.position fiber (.inCall k)) :
    t.Waiting k ∧ t.callerOf k = fiber := by
  have hpos : t.position fiber = .inCall k := by rw [hposition, Function.update_self]
  have hwho := (ht.placed.inCall fiber k hpos).1
  have hsuspended : t.scheduler.Suspended fiber := by
    rw [hscheduler, hs.placed.accounted.suspended_suspendCurrentFiber (caller_eq_some hcaller).1]
    exact .inl rfl
  exact ⟨⟨hwho ▸ hpos, hwho ▸ hsuspended⟩, hwho⟩

/-- Whether a call waits can be checked. -/
instance (s : Runtime n) (k : CallId) : Decidable (s.Waiting k) :=
  inferInstanceAs (Decidable (_ ∧ _))

/-! ## The results -/

/-- **`SleepCurrentFiber` does not return early.** If `Timer_SetTimeout` fails it returns at once,
with no timeout set. If not, then whatever the kernel reports meanwhile and whoever else is woken:
until its time is over the caller is suspended in the call, later it is, or has been woken to return
with success; and when the call has returned, its time was over. -/
theorem sleep_not_early (h : (runtimeSystem n declared).ReachableWhen (Proper declared) s)
    {duration : ℤ} {now : ℕ} {inserted : Bool}
    (hstep : (runtimeSystem n declared).step s (.sleepCurrentFiber duration now inserted) =
      some t) :
    ∃ fiber, s.caller = some fiber ∧
      (inserted = false → t.caller = some fiber ∧ t.timer = s.timer) ∧
      (inserted = true → ∀ u, (runtimeSystem n declared).LeadsWhen (Proper declared) t u →
        (u.Waiting s.nextCall ∧ u.callerOf s.nextCall = fiber ∨
          Timer.dueTime now duration ≤ u.clock ∧
            u.WokenIn fiber s.nextCall .sleepCurrentFiber false) ∧
        ∀ kind ok errno, .returns s.nextCall kind ok errno ∈ u.log →
          Timer.dueTime now duration ≤ u.clock ∧ kind = .sleepCurrentFiber ∧ ok = true ∧
            errno = none) := by
  have hproper : Proper declared s (.sleepCurrentFiber duration now inserted) := trivial
  have ht := h.step hproper hstep
  have hs := invariant_of_reachable (fun _ _ hc => hc) h
  have hinvariant := invariant_of_reachable (fun _ _ hc => hc) ht
  simp only [runtimeSystem, Runtime.step] at hstep
  rw [if_neg (by simp [hs.defined]), Option.bind_eq_some_iff] at hstep
  obtain ⟨fiber, hcaller, hsleep⟩ := hstep
  split_ifs at hsleep
  cases hsleep
  refine ⟨fiber, hcaller, ?_, ?_⟩
  · rintro rfl
    exact ⟨(caller_congr rfl rfl).trans hcaller, rfl⟩
  · rintro rfl u hleads
    let terms : Terms :=
      ⟨fiber, .sleepCurrentFiber, Timer.dueTime now duration, False, declared⟩
    obtain ⟨hwaiting, hwho⟩ := waiting_of_suspended (k := s.nextCall) hs hinvariant hcaller rfl rfl
    have hbegins := awaits_of_waiting terms hs hinvariant hcaller hwaiting hwho
      (Function.update_self ..) rfl fun timeout hin => by
        obtain hold | hnew := List.mem_append.mp hin
        · exact .inl hold
        · rw [List.mem_singleton] at hnew
          exact .inr (by rw [hnew])
    have hawaits := hbegins.leads ht (by simp [terms]) (fun _ _ hc => ⟨hc, by simp [terms]⟩) hleads
    have hu := invariant_of_reachable (fun _ _ hc => hc) (ht.leads hleads)
    -- a sleep is never completed as ready
    have hends : ∀ ready, terms.Ends u ready →
        ready = false ∧ Timer.dueTime now duration ≤ u.clock := by
      intro ready hends
      cases ready with
      | true => exact hends.2.elim
      | false => exact ⟨rfl, hends.2.1⟩
    refine ⟨?_, ?_⟩
    · obtain hwaits | ⟨ready, hend, hwoken⟩ := hawaits.stands hu
      · exact .inl hwaits
      · obtain ⟨rfl, hover⟩ := hends ready hend
        exact .inr ⟨hover, hwoken⟩
    · intro kind ok errno hreturns
      obtain ⟨ready, hend, hkind, hout⟩ := hawaits.outcome hu hreturns
      obtain ⟨rfl, hover⟩ := hends ready hend
      obtain ⟨rfl, rfl⟩ := Prod.mk.inj hout
      exact ⟨hover, hkind, rfl, rfl⟩

/-- Nothing is reported, and the time passes. -/
def sleepsOn : List (RuntimeAction 1) :=
  [.poll (fun _ => .dirtyEventListHead) (.ready []) (fun _ => true),
    .expire 5 [⟨1, 5, 1, .sleepCallback⟩] (fun _ => true), .dispatch, .schedulerTick, .proceed]

/-- A fiber sleeps for five milliseconds and returns when they are over. -/
theorem sleep_not_early_sleepsOn : ∃ s t u : Runtime 1,
    (runtimeSystem 1 callback3Context).step s (.sleepCurrentFiber 5 0 true) = some t ∧
      (runtimeSystem 1 callback3Context).LeadsWhen (Proper callback3Context) t u ∧
      ∃ kind ok errno, .returns 1 kind ok errno ∈ u.log ∧ Timer.dueTime 0 5 ≤ u.clock ∧
        kind = .sleepCurrentFiber ∧ ok = true ∧ errno = none := by
  have hend : (((runtimeSystem 1 callback3Context).guarded NoTimeOut).run started
      [.schedulerTick]).bind (fun s =>
        ((runtimeSystem 1 callback3Context).step s (.sleepCurrentFiber 5 0 true)).bind fun t =>
          (((runtimeSystem 1 callback3Context).guarded NoTimeOut).run t sleepsOn).map fun u =>
            (s.nextCall, returned u.log)) = some (1, [1]) := by
    decide +kernel
  obtain ⟨s, hs, hend⟩ := Option.bind_eq_some_iff.mp hend
  obtain ⟨t, ht, hend⟩ := Option.bind_eq_some_iff.mp hend
  obtain ⟨u, hu, hend⟩ := Option.map_eq_some_iff.mp hend
  obtain ⟨hnext, hreturned⟩ := Prod.mk.inj hend
  have hreach := (StepSystem.reachableWhen_of_run started_initial hs).mono
    fun _ _ => NoTimeOut.proper callback3Context
  have hleads := StepSystem.leadsWhen_of_run (fun _ _ => NoTimeOut.proper callback3Context) hu
  obtain ⟨kind, ok, errno, hin⟩ := mem_returned (hreturned ▸ List.mem_singleton_self 1)
  obtain ⟨fiber, -, -, hsleeps⟩ := sleep_not_early hreach ht
  obtain ⟨-, hearly⟩ := hsleeps rfl u hleads
  exact ⟨s, t, u, ht, hleads, kind, ok, errno, hin, hearly kind ok errno (by rwa [hnext])⟩

/-- **On the way** from one state to another `epoll_wait` reports a descriptor. -/
def Reported (declared : Fields FieldName) (t u : Runtime n) (fd : FD) (condition : IOCondition) :
    Prop :=
  ∃ v action w, (runtimeSystem n declared).LeadsWhen (Proper declared) t v ∧
    (runtimeSystem n declared).step v action = some w ∧ Reports fd condition action ∧
    (runtimeSystem n declared).LeadsWhen (Proper declared) w u

/-- **Why a wait that began in one state ends in another**: as ready, because its descriptor was
reported on the way; or else because it has a timeout, which is over, and `WaitForFDCallback3` finds
the fields where `WaitForFD` has stored them. -/
def WaitEnds (declared : Fields FieldName) (t u : Runtime n) (fd : FD) (condition : IOCondition)
    (timeout : ℤ) (now : ℕ) : Bool → Prop
  | true => Reported declared t u fd condition
  | false => declared = timedContext ∧ 0 ≤ timeout ∧ Timer.dueTime now timeout ≤ u.clock

/-- What is known of a wait that has been completed is put in terms of where it began and what was
reported since. -/
theorem waitEnds_of_ends {fd : FD} {condition : IOCondition} {timeout : ℤ} {now : ℕ}
    {reported : Prop} {ready : Bool} (hreported : reported → Reported declared t u fd condition)
    (h : Terms.Ends ⟨fiber, .waitForFD fd condition (0 ≤ timeout), Timer.dueTime now timeout,
      reported, declared⟩ u ready) : WaitEnds declared t u fd condition timeout now ready := by
  cases ready with
  | true => exact hreported h.2
  | false =>
      obtain ⟨htime, hover, hfound⟩ := h
      exact ⟨hfound.resolve_left (by simp), of_decide_eq_true htime, hover⟩

/-- **`WaitForFD` returns for a reason.** It goes on at once, failing, exactly if memory has run out
for it. If not, its caller is suspended in the call until it has been woken for a reason: to return
with success, because since the call `epoll_wait` has reported the descriptor; or with `EINTR`,
because the call has a timeout and that is over. And when it has returned, it was for a reason. -/
theorem wait_for_reason (h : (runtimeSystem n declared).ReachableWhen (Proper declared) s) {fd : FD}
    {condition : IOCondition} {timeout : ℤ} {now : ℕ} {reallocated : Bool} {block : Option EventId}
    {inserted : Bool} (hstep : (runtimeSystem n declared).step s
      (.waitForFD fd condition timeout now reallocated block inserted) = some t) :
    ∃ fiber, s.caller = some fiber ∧
      (t.caller = some fiber ↔ s.Refused fd condition timeout reallocated block inserted) ∧
      (¬s.Refused fd condition timeout reallocated block inserted →
        ∀ u, (runtimeSystem n declared).LeadsWhen (Proper declared) t u →
          (u.Waiting s.nextCall ∧ u.callerOf s.nextCall = fiber ∨
            ∃ ready, WaitEnds declared t u fd condition timeout now ready ∧
              u.WokenIn fiber s.nextCall (.waitForFD fd condition (0 ≤ timeout)) ready) ∧
          ∀ kind ok errno, .returns s.nextCall kind ok errno ∈ u.log →
            ok = true ∧ errno = none ∧ WaitEnds declared t u fd condition timeout now true ∨
              ok = false ∧ errno = some eintr ∧
                WaitEnds declared t u fd condition timeout now false) := by
  have hproper : Proper declared s
    (.waitForFD fd condition timeout now reallocated block inserted) := trivial
  have ht := h.step hproper hstep
  have hs := invariant_of_reachable (fun _ _ hc => hc) h
  have hinvariant := invariant_of_reachable (fun _ _ hc => hc) ht
  simp only [runtimeSystem, Runtime.step] at hstep
  rw [if_neg (by simp [hs.defined]), Option.bind_eq_some_iff] at hstep
  obtain ⟨fiber, hcaller, hwait⟩ := hstep
  split_ifs at hwait with hguard
  refine ⟨fiber, hcaller, ?_⟩
  obtain ⟨hrefused, hactive, hposition⟩ | ⟨hgiven, hscheduler, hposition⟩ := waitForFD_blocks hwait
  · exact ⟨iff_of_true ((caller_congr hactive hposition).trans hcaller) hrefused,
      fun hnot => absurd hrefused hnot⟩
  obtain ⟨hwaiting, hwho⟩ := waiting_of_suspended hs hinvariant hcaller hscheduler hposition
  refine ⟨iff_of_false (fun hgoes => ?_) hgiven, fun _ u hleads => ?_⟩
  · have hout := (caller_eq_some hgoes).2
    rw [← hwho, hwaiting.1] at hout
    cases hout
  have hbegins : ∀ reported, t.Awaits ⟨fiber, .waitForFD fd condition (0 ≤ timeout),
      Timer.dueTime now timeout, reported, declared⟩ s.nextCall := by
    intro reported
    have hkind : t.kind s.nextCall = .waitForFD fd condition (0 ≤ timeout) := by
      rw [kind_waitForFD hwait]
      exact Function.update_self ..
    obtain ⟨timed, poller, ok, dirty, -, -, -, hcases⟩ :=
      waitForFD_cases (setClock_keeps hs now).invariant hguard.2 hwait
    obtain ⟨-, rfl⟩ | ⟨-, -, rfl⟩ | ⟨-, -, rfl⟩ | ⟨-, cleared, dirty', -, -, -, rfl⟩ := hcases
    · exact awaits_of_waiting _ hs hinvariant hcaller hwaiting hwho hkind rfl fun _ => .inl
    · exact awaits_of_waiting _ hs hinvariant hcaller hwaiting hwho hkind rfl fun _ => .inl
    · refine awaits_of_waiting _ hs hinvariant hcaller hwaiting hwho hkind rfl fun timeout hin => ?_
      obtain hold | hnew := List.mem_append.mp hin
      · exact .inl hold
      · rw [List.mem_singleton] at hnew
        exact .inr (by rw [hnew])
    · exact awaits_of_waiting _ hs hinvariant hcaller hwaiting hwho hkind rfl fun _ => .inl
  have hu := invariant_of_reachable (fun _ _ hc => hc) (ht.leads hleads)
  -- either something on the way is a report, or nothing is
  obtain ⟨reported, hawaits, hreported⟩ : ∃ reported : Prop, u.Awaits ⟨fiber,
      .waitForFD fd condition (0 ≤ timeout), Timer.dueTime now timeout, reported, declared⟩
        s.nextCall ∧ (reported → Reported declared t u fd condition) := by
    obtain hsilent | ⟨v, action, w, hv, hstep, hreport, hw⟩ :=
      StepSystem.LeadsWhen.none_or_some (Reports fd condition) hleads
    · refine ⟨False, (hbegins False).leads ht (by simp) (fun _ action hc => ⟨hc.1, ?_⟩) hsilent,
        False.elim⟩
      intro fd' condition' timed heq hreport
      cases heq
      exact hc.2 hreport
    · exact ⟨True, (hbegins True).leads ht (by simp)
        (fun _ _ hc => ⟨hc, fun _ _ _ _ _ => trivial⟩) hleads,
        fun _ => ⟨v, action, w, hv, hstep, hreport, hw⟩⟩
  refine ⟨?_, ?_⟩
  · obtain hwaits | ⟨ready, hends, hwoken⟩ := hawaits.stands hu
    · exact .inl hwaits
    · exact .inr ⟨ready, waitEnds_of_ends hreported hends, hwoken⟩
  · intro kind ok errno hreturns
    obtain ⟨ready, hends, -, hout⟩ := hawaits.outcome hu hreturns
    have hreason := waitEnds_of_ends hreported hends
    cases ready with
    | true =>
        obtain ⟨rfl, rfl⟩ := Prod.mk.inj hout
        exact .inl ⟨rfl, rfl, hreason⟩
    | false =>
        obtain ⟨rfl, rfl⟩ := Prod.mk.inj hout
        exact .inr ⟨rfl, rfl, hreason⟩

/-- At first nothing is reported, and then the descriptor. -/
def becomesReadable : List (RuntimeAction 1) :=
  [.poll (fun _ => .dirtyEventListHead) (.ready []) (fun _ => true), .expire 5 [] (fun _ => true),
    .schedulerTick, .poll (fun _ => .dirtyEventListHead) (.ready [(3, epollIn)]) (fun _ => true),
    .dispatch, .expire 7 [] (fun _ => true), .schedulerTick, .proceed]

/-- A fiber waits for a descriptor for ten milliseconds at most; the descriptor is reported at the
second `epoll_wait`, and the call returns. -/
theorem wait_for_reason_becomesReadable : ∃ s t u : Runtime 1,
    (runtimeSystem 1 callback3Context).step s
      (.waitForFD 3 .ioReadable 10 0 true (some 101) true) = some t ∧ t.Waiting 1 ∧
      (runtimeSystem 1 callback3Context).LeadsWhen (Proper callback3Context) t u ∧
      ∃ kind ok errno, .returns 1 kind ok errno ∈ u.log ∧ ok = true ∧ errno = none ∧
        Reported callback3Context t u 3 .ioReadable := by
  have hend : (((runtimeSystem 1 callback3Context).guarded NoTimeOut).run started
      [.schedulerTick]).bind (fun s =>
        ((runtimeSystem 1 callback3Context).step s
          (.waitForFD 3 .ioReadable 10 0 true (some 101) true)).bind fun t =>
          (((runtimeSystem 1 callback3Context).guarded NoTimeOut).run t becomesReadable).map
            fun u => (s.nextCall, decide (t.Waiting 1), decide (t.caller = none), returned u.log)) =
      some (1, true, true, [1]) := by
    decide +kernel
  obtain ⟨s, hs, hend⟩ := Option.bind_eq_some_iff.mp hend
  obtain ⟨t, ht, hend⟩ := Option.bind_eq_some_iff.mp hend
  obtain ⟨u, hu, hend⟩ := Option.map_eq_some_iff.mp hend
  simp only [Prod.mk.injEq, decide_eq_true_eq] at hend
  obtain ⟨hnext, hblocks, hnobody, hreturned⟩ := hend
  have hreach := (StepSystem.reachableWhen_of_run started_initial hs).mono
    fun _ _ => NoTimeOut.proper callback3Context
  have hleads := StepSystem.leadsWhen_of_run (fun _ _ => NoTimeOut.proper callback3Context) hu
  obtain ⟨kind, ok, errno, hin⟩ := mem_returned (hreturned ▸ List.mem_singleton_self 1)
  obtain ⟨fiber, -, hgoes, hwaits⟩ := wait_for_reason hreach ht
  have hgiven : ¬s.Refused 3 .ioReadable 10 true (some 101) true := by
    rw [← hgoes, hnobody]
    simp
  obtain ⟨-, hreturns⟩ := hwaits hgiven u hleads
  -- the program as it is has no other reason
  obtain ⟨hok, herrno, hreported⟩ | ⟨-, -, hdeclared, -⟩ :=
    hreturns kind ok errno (by rwa [hnext])
  · exact ⟨s, t, u, ht, hblocks, hleads, kind, ok, errno, hin, hok, herrno, hreported⟩
  · exact absurd hdeclared (by simp [callback3Context, timedContext])

end Runtime

end Pixy.Loop
