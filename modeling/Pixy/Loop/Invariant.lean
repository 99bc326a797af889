import Pixy.Loop.Context
import Pixy.Loop.Log

/-!
# The invariant of the runtime

`Invariant` puts the parts together; `Kept` says that the waits of a kind still have their watches,
which is the part that `Close` can break. One lemma for each kind of step:

* `Invariant.quiet`: steps that concern no call;
* `Invariant.complete`: a callback completes a call;
* `Invariant.enter`: a call that returns without blocking.
-/

namespace Pixy.Loop

open Pixy.Found Pixy.Sched Pixy.Sync Pixy.Poll Pixy.Pool

variable {n : ℕ}

namespace Runtime

/-- **The invariant**, with the works that `WorkerCallback` has still to call back. -/
structure Invariant (s : Runtime n) (batch : List CallId) : Prop where
  /-- The fibers are where their positions say. -/
  placed : s.Placed
  /-- The poller's invariant holds. -/
  shape : ∃ dirty, s.poller.Shape dirty
  /-- Every work of the pool is in the place that its life has reached. -/
  located : ∃ phase, Located s.pool phase
  /-- The stop marker is behind the works, if it is there. -/
  ending : Ending s.pool
  /-- What has still to be called back. -/
  batch : s.pool.batch = batch
  /-- What can wake a fiber belongs to a waiting call. -/
  sources : s.Sources
  /-- What happened was right. -/
  recorded : s.Recorded
  /-- Number 0 is not a call. -/
  positive : 0 < s.nextCall
  /-- Fibers run in `Scheduler_Tick`. -/
  running : s.scheduler.activeFiber ≠ none → s.phase = .ticking
  /-- Nothing is collected there. -/
  calm : s.phase = .ticking → s.async.calls = []
  /-- Nothing undefined has happened. -/
  defined : s.halted = false

/-- The waits with a timeout, or those without, have their watches. -/
def Kept (s : Runtime n) (timed : Bool) : Prop :=
  ∀ k fd condition, s.Waiting k → s.kind k = .waitForFD fd condition timed →
    ⟨k, fd, condition⟩ ∈ s.poller.registered

/-- A step keeps the invariant and loses no watch of a wait. -/
structure Keeps (s t : Runtime n) (batch : List CallId) : Prop where
  /-- The invariant holds afterwards. -/
  invariant : t.Invariant batch
  /-- So does what held of the watches. -/
  kept : ∀ timed, s.Kept timed → t.Kept timed

variable {s t : Runtime n} {k : CallId} {fiber : FiberId} {batch : List CallId}

/-! ## Reading the invariant -/

/-- A registered watch can be unlinked, in a poller of the right shape: clearing it follows no null
pointer and leaves such a poller. -/
theorem unlinks_of_registered {poller : IOPoller Callback} {dirty : List EventId}
    (h : poller.Shape dirty) (hk : k ∈ poller.registered.map (·.watch)) : Unlinks poller k := by
  obtain ⟨after, dirty', hclear, hshape, hregistered⟩ := h.clearWatch hk
  obtain ⟨r, hr, rfl⟩ := List.mem_map.mp hk
  obtain ⟨e, he, hfd⟩ := h.sound.stored.registration r hr
  refine ⟨⟨e, he, r.condition, _, h.sound.rings e he r.condition, ?_⟩, after, hclear,
    IOPoller.drops_clearWatch h hshape hclear hregistered⟩
  refine List.mem_map_of_mem (mem_watchesOf.mpr ?_)
  rwa [hfd]

/-- No watch of a fiber but those of waiting calls is registered, so a call that does not wait has
none. -/
theorem Sources.not_registered (h : s.Sources) (hpositive : 0 < k)
    (hk : ∀ fd condition timed, s.Waiting k → s.kind k ≠ .waitForFD fd condition timed) :
    k ∉ s.poller.registered.map (·.watch) := by
  intro hin
  obtain ⟨r, hr, rfl⟩ := List.mem_map.mp hin
  obtain ⟨hw, timed, hkind, -⟩ := h.watch hr hpositive.ne'
  exact hk _ _ _ hw hkind

/-- A call that does not wait for a timeout has none in the heap; it suffices that it has none if it
waits at all. -/
theorem Sources.not_pending (h : s.Sources) (hk : s.Waiting k → ¬(s.kind k).HasTimeout) :
    k ∉ s.timer.nodes := by
  intro hin
  obtain ⟨u, hu, rfl⟩ := Timer.mem_nodes.mp hin
  obtain ⟨hw, htime, -⟩ := h.pending u hu
  exact hk hw htime

/-- The work of a call is nowhere in the pool unless the call is a `DoWork` that waits for it. -/
theorem Sources.idle (h : s.Sources) (hk : s.Waiting k → s.kind k ≠ .doWork) : s.pool.Idle k := by
  by_contra hnot
  obtain ⟨hw, hdo, -⟩ := h.posted k hnot
  exact hk hw hdo

/-- Taking out the registrations of a watch that is not registered leaves them as they are. -/
theorem filter_registered {registered : List Registration} (h : k ∉ registered.map (·.watch)) :
    registered.filter (fun r => r.watch ≠ k) = registered := by
  rw [List.filter_eq_self]
  intro r hr
  simp only [ne_eq, decide_not, Bool.not_eq_eq_eq_not, Bool.not_true, decide_eq_false_iff_not]
  rintro rfl
  exact h (List.mem_map_of_mem hr)

/-- Taking out the timeout of a node that is not in the heap leaves the timeouts as they are. -/
theorem filter_timeouts {timer : Timer Callback} (h : k ∉ timer.nodes) :
    timer.timeouts.filter (fun u => u.heapNode ≠ k) = timer.timeouts := by
  rw [List.filter_eq_self]
  intro u hu
  simp only [ne_eq, decide_not, Bool.not_eq_eq_eq_not, Bool.not_true, decide_eq_false_iff_not]
  rintro rfl
  exact h (Timer.mem_nodes.mpr ⟨u, hu, rfl⟩)

/-- Whom the collected calls wake: each of them is the pool's, or wakes the fiber of a call that
waits for something else than a work. -/
theorem Sources.target_collected (h : s.Sources) {call : AsyncCall Callback}
    (hcall : call ∈ s.async.calls) : call.function = .workerCallback ∨
      ∃ j, s.Waiting j ∧ s.kind j ≠ .doWork ∧ s.target call = some (s.callerOf j) := by
  rcases h.collected call hcall with hpool | ⟨r, hr, hne, rfl, -⟩ | ⟨j, hw, htime, rfl, -⟩
  · exact .inl hpool
  · obtain ⟨hw, timed, hk, -⟩ := h.watch hr hne
    exact .inr ⟨r.watch, hw, by simp [hk], h.target_callOf hr hne⟩
  · refine .inr ⟨j, hw, ?_, target_expiry⟩
    intro hdo
    rw [hdo] at htime
    cases htime

/-- The number of the next call is not in use yet: no watch, no timeout and no work has it, and it
does not wait. -/
theorem Invariant.fresh (h : s.Invariant batch) :
    s.nextCall ∉ s.poller.registered.map (·.watch) ∧ s.nextCall ∉ s.timer.nodes ∧
      s.pool.Idle s.nextCall ∧ ¬s.Waiting s.nextCall := by
  have hnot : ¬s.Waiting s.nextCall := fun hw => lt_irrefl _ (h.placed.waiting_lt hw).2
  exact ⟨h.sources.not_registered h.positive fun _ _ _ hw => absurd hw hnot,
    h.sources.not_pending fun hw => absurd hw hnot, h.sources.idle fun hw => absurd hw hnot, hnot⟩

/-! ## Steps that concern no call -/

/-- **Frame.** Fibers have come, gone or moved, or the log is longer, but calls and sources are as
they were. -/
theorem Invariant.quiet (h : s.Invariant batch) (hplaced : t.Placed)
    (hwaiting : ∀ k, t.Waiting k ↔ s.Waiting k) (hrecorded : t.Recorded)
    (hsame : t.poller = s.poller ∧ t.timer = s.timer ∧ t.pool = s.pool ∧ t.async = s.async ∧
      t.kind = s.kind ∧ t.context = s.context ∧ t.nextCall = s.nextCall ∧ t.halted = s.halted)
    (hrunning : t.scheduler.activeFiber ≠ none → t.phase = .ticking)
    (hcalm : t.phase = .ticking → s.async.calls = []) : Keeps s t batch := by
  obtain ⟨hpoller, htimer, hpool, hasync, hkind, hcontext, hnext, hhalted⟩ := hsame
  refine ⟨⟨hplaced, hpoller ▸ h.shape, hpool ▸ h.located, hpool ▸ h.ending, hpool ▸ h.batch, ?_,
    hrecorded, hnext ▸ h.positive, hrunning, ?_, hhalted.trans h.defined⟩, ?_⟩
  · refine h.sources.frame hwaiting (fun _ _ => by rw [hkind]) (fun _ _ => ?_) ?_ ?_ htimer
      (fun _ => by rw [hpool]) (by rw [hpool]) (by rw [hasync]) fun _ =>
        ⟨by rw [hpoller], hcontext, hkind⟩
    · unfold callerOf
      rw [hcontext]
    · rw [hpoller]
      exact fun _ => id
    · rw [hpoller]
      exact fun _ _ => rfl
  · rw [hasync]
    exact hcalm
  · intro timed hkept k fd condition hw hk
    rw [hpoller]
    exact hkept k fd condition ((hwaiting k).mp hw) (hkind ▸ hk)

/-! ## A call that does not block -/

/-- **A call that returns at once** has taken a number, and left nothing behind. -/
theorem Invariant.enter (h : s.Invariant batch) (hrun : s.phase = .ticking)
    (hscheduler : t.scheduler = s.scheduler) (hposition : t.position = s.position)
    (hkind : ∀ k < s.nextCall, t.kind k = s.kind k)
    (hcontext : ∀ k < s.nextCall, t.context k = s.context k)
    (hnext : s.nextCall ≤ t.nextCall) (hlists : t.waiterList = s.waiterList)
    (hsemaphores : t.semaphores = s.semaphores) {dirty : List EventId}
    (hshape : t.poller.Shape dirty) (hregistered : t.poller.registered = s.poller.registered)
    (hwatch : ∀ w < s.nextCall, t.poller.watch w = s.poller.watch w) (htimer : t.timer = s.timer)
    (hpool : t.pool = s.pool) (hasync : t.async = s.async) (hphase : t.phase = s.phase)
    (notes : List Happening) (hnotes : ∀ note ∈ notes, note.Clears) (hlog : t.log = notes ++ s.log)
    (hhalted : t.halted = false) : Keeps s t batch := by
  have hcaller : ∀ k < s.nextCall, t.callerOf k = s.callerOf k := by
    intro k hk
    unfold callerOf
    rw [hcontext k hk]
  have hplaced : t.Placed :=
    h.placed.congr hscheduler hposition hcaller hnext hlists hsemaphores
  have hwaiting : ∀ k, t.Waiting k ↔ s.Waiting k := by
    intro k
    refine h.placed.waiting_iff_of hplaced fun fiber => ?_
    rw [hposition, hscheduler]
  have hlt : ∀ r ∈ s.poller.registered, r.watch < s.nextCall := by
    intro r hr
    by_cases hzero : r.watch = 0
    · rw [hzero]
      exact h.positive
    · exact (h.placed.waiting_lt (h.sources.watch hr hzero).1).2
  refine ⟨⟨hplaced, ⟨dirty, hshape⟩, hpool ▸ h.located, hpool ▸ h.ending, hpool ▸ h.batch, ?_, ?_,
    h.positive.trans_le hnext, ?_, ?_, hhalted⟩, ?_⟩
  · refine h.sources.frame hwaiting (fun k hw => hkind k (h.placed.waiting_lt hw).2)
      (fun k hw => hcaller k (h.placed.waiting_lt hw).2) ?_ ?_ htimer (fun _ => by rw [hpool])
      (by rw [hpool]) (by rw [hasync]) fun hne => absurd (h.calm hrun) hne
    · rw [hregistered]
      exact fun _ => id
    · intro r hr
      unfold IOPoller.callOf
      rw [hwatch _ (hlt r (hregistered ▸ hr))]
  · refine h.recorded.frame notes hnotes hlog hnext (fun k _ => (hwaiting k).mp) ?_ ?_
    · rw [hposition]
      exact fun _ _ _ => id
    · intro fiber k hpos hawake
      rw [hposition] at hpos
      rw [hscheduler] at hawake
      have hk := (h.placed.inCall fiber k hpos).2.2
      refine ⟨hpos, hawake, ?_, hkind k hk⟩
      unfold result
      rw [hkind k hk, hcontext k hk]
  · rw [hscheduler, hphase]
    exact h.running
  · rw [hphase, hasync]
    exact h.calm
  · intro timed hkept k fd condition hw hk
    rw [hregistered]
    have hw' := (hwaiting k).mp hw
    exact hkept k fd condition hw' ((hkind k (h.placed.waiting_lt hw').2).symm.trans hk)

/-! ## A call that ends -/

/-- **A callback completes a call** that waits, and the invariant is kept: the caller is awake, the
call waits no longer, and nothing else wakes it again. -/
theorem Invariant.complete {rest : List CallId} (h : s.Invariant batch) (hw : s.Waiting k)
    (hidle : s.scheduler.activeFiber = none) (hends : s.Ends t k)
    (hshape : ∃ dirty, t.poller.Shape dirty) (hlocated : ∃ phase, Located t.pool phase)
    (hending : Ending t.pool) (hbatch : t.pool.batch = rest)
    (notes : List Happening) (hnotes : ∀ note ∈ notes, note.Clears) (ready : Bool)
    (hlog : t.log = .resumes (s.callerOf k) (.inCall k) ready s.scheduler :: (notes ++ s.log))
    (hresult : ∀ j ≠ k, t.result j = s.result j)
    (hout : t.result k = (s.kind k).outcome ready) : Keeps s t rest := by
  obtain ⟨hposition, hcaller, hnext, hlists, hsemaphores, hkind, hphase, hhalted⟩ := hends.same
  obtain ⟨hplaced, hwaiting⟩ :=
    h.placed.wake hw hends.scheduler hposition hcaller hnext hlists hsemaphores
  refine ⟨⟨hplaced, hshape, hlocated, hending, hbatch, h.sources.complete hw hends hwaiting, ?_,
    hnext ▸ h.positive, ?_, ?_, hhalted.trans h.defined⟩, ?_⟩
  · refine h.recorded.wake hw (h.placed.waiting_lt hw).2 hnotes ready hlog hnext hposition hwaiting
      (fun fiber => ?_) hresult hkind hout
    rw [hends.scheduler]
    exact Accounted.suspended_resumeFiber
  · rw [hends.scheduler]
    exact fun hne => absurd hidle hne
  · intro hp
    have hcalls := hends.calls
    rw [h.calm (hphase ▸ hp), List.sublist_nil] at hcalls
    exact hcalls
  · intro timed hkeep j fd condition hw' hk
    obtain ⟨hj, hne⟩ := (hwaiting j).mp hw'
    rw [hends.registered, List.mem_filter]
    exact ⟨hkeep j fd condition hj (hkind ▸ hk), by simpa using hne⟩

end Runtime

end Pixy.Loop
