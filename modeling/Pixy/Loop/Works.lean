import Pixy.Loop.Components

/-!
# Work that is done for a fiber

`GetAddrInfo` and `GetNameInfo` leave the call of the library to a worker: `DoWork` posts a work
that lies on the stack of the fiber, and suspends. The stack must stay until the pool is done with
the work, and what the fiber finds afterwards must be what the function has left.

* A work that is posted once goes through one life (`Lived`), so its log is known from its phase
  (`lived_of_replay`).
* Every call posts a work of its own (`posted_of_reachable`), so each is posted once.
* `work_done` says what that is for the caller.
-/

namespace Pixy.Pool

variable {n : ℕ} {W : Type} [DecidableEq W] {fields : Work} {work : W} {phase after : WorkPhase n}
  {event : WorkEvent n} {events : List (WorkEvent n)}

/-- What happened to a work, newest first. -/
def happened (work : W) (log : List (W × WorkEvent n)) : List (WorkEvent n) :=
  log.filterMap fun entry => if entry.1 = work then some entry.2 else none

/-- All that happens to a work, newest first. -/
def life (worker : Fin n) (fields : Work) : List (WorkEvent n) :=
  [.calledBack fields.callback fields.data, .read, .written worker, .returned worker,
    .started worker fields.function fields.argument, .taken worker, .posted fields]

/-- **What is behind a work** that was posted once, with these fields, by its phase. -/
inductive Lived (fields : Work) : WorkPhase n → List (WorkEvent n) → Prop
  | queued : Lived fields (.queued fields) [.posted fields]
  | held (worker : Fin n) : Lived fields (.held worker fields) ((life worker fields).drop 5)
  | executing (worker : Fin n) :
    Lived fields (.executing worker fields) ((life worker fields).drop 4)
  | executed (worker : Fin n) : Lived fields (.executed worker fields) ((life worker fields).drop 3)
  | piped (worker : Fin n) : Lived fields (.piped fields) ((life worker fields).drop 2)
  | collected (worker : Fin n) : Lived fields (.collected fields) ((life worker fields).drop 1)
  | idle (worker : Fin n) : Lived fields .idle (life worker fields)

/-- Wherever a work is in its life, the life began with its being posted. -/
theorem Lived.posted_mem (h : Lived fields phase events) : .posted fields ∈ events := by
  cases h <;> simp [life]

/-- A work was posted with no other fields than those that it lives with. -/
theorem Lived.fields_eq (h : Lived fields phase events) {other : Work}
    (hin : .posted other ∈ events) : fields = other := by
  cases h <;> simp [life] at hin <;> exact hin.symm

/-- The fields that a work lives with are those that go with its phase, as long as it is under way.
-/
theorem Lived.fields_of_ne (h : Lived fields phase events) (hphase : phase ≠ .idle) :
    phase.fields = some fields := by
  cases h with
  | idle => exact absurd rfl hphase
  | _ => rfl

/-- A work that is nowhere any more has its life behind it. -/
theorem Lived.ended (h : Lived fields .idle events) : ∃ worker, events = life worker fields := by
  cases h with
  | idle worker => exact ⟨worker, rfl⟩

/-- What happens next to a work, other than being posted again, is one more event of its life. -/
theorem Lived.next (h : Lived fields phase events) (hnext : event.next phase = some after)
    (honce : event.rank ≠ 0) : Lived fields after (event :: events) := by
  cases h with
  | queued =>
      cases event <;> simp only [WorkEvent.next, reduceCtorEq, Option.some.injEq] at hnext
      subst hnext
      exact .held _
  | held worker =>
      cases event <;> simp only [WorkEvent.next, reduceCtorEq, Option.ite_none_right_eq_some,
        Option.some.injEq] at hnext
      obtain ⟨⟨rfl, rfl, rfl⟩, rfl⟩ := hnext
      exact .executing _
  | executing worker =>
      cases event <;> simp only [WorkEvent.next, reduceCtorEq, Option.ite_none_right_eq_some,
        Option.some.injEq] at hnext
      obtain ⟨rfl, rfl⟩ := hnext
      exact .executed _
  | executed worker =>
      cases event <;> simp only [WorkEvent.next, reduceCtorEq, Option.ite_none_right_eq_some,
        Option.some.injEq] at hnext
      obtain ⟨rfl, rfl⟩ := hnext
      exact .piped _
  | piped worker =>
      cases event <;> simp only [WorkEvent.next, reduceCtorEq, Option.some.injEq] at hnext
      subst hnext
      exact .collected worker
  | collected worker =>
      cases event <;> simp only [WorkEvent.next, reduceCtorEq, Option.ite_none_right_eq_some,
        Option.some.injEq] at hnext
      obtain ⟨⟨rfl, rfl⟩, rfl⟩ := hnext
      exact .idle worker
  | idle worker =>
      cases event <;> simp only [WorkEvent.next, reduceCtorEq, Option.some.injEq] at hnext
      exact absurd rfl honce

/-- **The log of a work that was posted once at most** is known from its phase. -/
theorem lived_of_replay {log : List (W × WorkEvent n)} (h : replay work log = some phase)
    (honce : times 0 work log ≤ 1) :
    (phase = .idle ∧ happened work log = []) ∨
      ∃ fields, Lived fields phase (happened work log) := by
  induction log generalizing phase with
  | nil =>
      cases h
      exact .inl ⟨rfl, rfl⟩
  | cons entry log ih =>
      obtain ⟨other, event⟩ := entry
      have htimes : times 0 work ((other, event) :: log) =
          times 0 work log + if other = work ∧ event.rank = 0 then 1 else 0 := by
        simp [times, List.countP_cons]
      by_cases hother : other = work
      · subst hother
        simp only [replay, if_true] at h
        obtain ⟨before, hbefore, hnext⟩ := Option.bind_eq_some_iff.mp h
        have hcons : happened other ((other, event) :: log) = event :: happened other log := by
          simp [happened]
        rw [hcons]
        obtain ⟨rfl, hnone⟩ | ⟨fields, hlived⟩ := ih hbefore (by omega)
        · cases event <;> simp only [WorkEvent.next, reduceCtorEq, Option.some.injEq] at hnext
          subst hnext
          rw [hnone]
          exact .inr ⟨_, .queued⟩
        · -- it has been posted before
          refine .inr ⟨fields, hlived.next hnext fun hrank => ?_⟩
          have hpost : 0 < times 0 other log := by
            refine List.countP_pos_iff.mpr ⟨(other, .posted fields), ?_, by simp [WorkEvent.rank]⟩
            obtain ⟨⟨work, event⟩, hentry, hevent⟩ := List.mem_filterMap.mp hlived.posted_mem
            simp only [Option.ite_none_right_eq_some, Option.some.injEq] at hevent
            obtain ⟨rfl, rfl⟩ := hevent
            exact hentry
          rw [if_pos ⟨rfl, hrank⟩] at htimes
          omega
      · have hsame : happened work ((other, event) :: log) = happened work log := by
          simp [happened, hother]
        simp only [replay, if_neg hother] at h
        rw [hsame]
        exact ih h (by omega)

end Pixy.Pool

namespace Pixy.Loop

open Pixy.Found Pixy.Sched Pixy.Sync Pixy.Poll Pixy.Pool

variable {n : ℕ}

namespace Runtime

variable {s t u : Runtime n} {declared : Fields FieldName} {call : CallId}

/-! ## Each call posts one work -/

/-- What the pool does by itself adds no post, so a call's work is posted as often as before. -/
theorem times_of_used {pool next : ThreadPool n CallId} (h : Used pool next) (call : CallId) :
    times 0 call next.log = times 0 call pool.log := by
  obtain ⟨-, news, hlog, hnews⟩ := h.posting
  have hnone : times 0 call news = 0 := by
    refine List.countP_eq_zero.mpr fun entry hin => ?_
    simp [hnews entry hin]
  rw [hlog, times, List.countP_append]
  exact (congrArg (· + _) hnone).trans (Nat.zero_add _)

/-- **No work is posted twice**, and none before its call begins. -/
theorem posted_of_reachable (h : (runtimeSystem n declared).ReachableWhen (Proper declared) s)
    (call : CallId) : times 0 call s.pool.log ≤ if call < s.nextCall then 1 else 0 := by
  induction h with
  | @init s hs =>
      obtain ⟨works, hpool⟩ := hs.pool
      rw [hpool]
      exact Nat.zero_le _
  | @step s t action hs hproper hstep ih =>
      have hinvariant := invariant_of_reachable (fun _ _ hc => hc) hs
      have hmono : ∀ {next : CallId}, s.nextCall ≤ next →
          times 0 call s.pool.log ≤ if call < next then 1 else 0 := by
        intro next hnext
        by_cases hlt : call < s.nextCall
        · rwa [if_pos hlt, ← if_pos (c := call < next) (t := 1) (e := 0) (hlt.trans_le hnext)] at ih
        · rw [if_neg hlt] at ih
          exact ih.trans (Nat.zero_le _)
      cases (uses_step (fun _ => True) hinvariant hproper hstep fun _ _ => trivial).2 with
      | goesOn hpool hnext =>
          rw [times_of_used hpool]
          exact hmono hnext
      | @posts fields _ hpool hnext =>
          have htimes : times 0 call t.pool.log =
              times 0 call s.pool.log + if s.nextCall = call then 1 else 0 := by
            simp [(Used.of_post hpool).2, times, List.countP_cons, WorkEvent.rank]
          rw [htimes, hnext]
          by_cases hself : s.nextCall = call
          · subst hself
            simpa using ih
          · rw [if_neg hself]
            exact hmono (Nat.le_succ _)

/-- What was posted stays in the log of the pool, as the log only grows on the way to a later state.
-/
theorem mem_log_of_leads (hs : (runtimeSystem n declared).ReachableWhen (Proper declared) t)
    (hleads : (runtimeSystem n declared).LeadsWhen (Proper declared) t u)
    {entry : CallId × WorkEvent n}
    (hin : entry ∈ t.pool.log) : entry ∈ u.pool.log := by
  refine hleads.induct (I := fun s => entry ∈ s.pool.log) hs hin ?_
  intro s action t hs hin hproper hstep
  have hinvariant := invariant_of_reachable (fun _ _ hc => hc) hs
  cases (uses_step (fun _ => True) hinvariant hproper hstep fun _ _ => trivial).2 with
  | goesOn hpool =>
      obtain ⟨-, news, hlog, -⟩ := hpool.posting
      rw [hlog]
      exact List.mem_append_right _ hin
  | posts hpool =>
      rw [(Used.of_post hpool).2]
      exact List.mem_cons_of_mem _ hin

/-- `DoWork` posts what it is called with, together with its caller and the callback that will
resume it. -/
theorem posted_of_doWork (hdefined : s.halted = false) {function argument : ℕ}
    {woken : Finset (Fin n)}
    (hstep : (runtimeSystem n declared).step s (.doWork function argument woken) = some t) :
    ∃ fiber, s.caller = some fiber ∧
      (s.nextCall, .posted ⟨function, argument, fiber, doWorkCallback⟩) ∈ t.pool.log := by
  simp only [runtimeSystem, Runtime.step, hdefined, Bool.false_eq_true, if_false,
    Option.bind_eq_some_iff] at hstep
  obtain ⟨fiber, hfiber, hwork⟩ := hstep
  refine ⟨fiber, hfiber, ?_⟩
  unfold Runtime.doWork at hwork
  dsimp only at hwork
  split at hwork
  · cases hwork
  · rename_i pool hpool
    cases hwork
    exact (Used.of_post hpool).2 ▸ List.mem_cons_self

/-! ## The result -/

/-- **What `DoWork` gives its caller.** From the call on, the work is somewhere in its one life,
with the function and the argument of the call; as long as that is not over the caller is suspended
in the call, so that its stack stays; and when the call has returned, one worker has called the
function once, it has returned, and the pool has let go of the work. -/
theorem work_done (h : (runtimeSystem n declared).ReachableWhen (Proper declared) s)
    {function argument : ℕ} {woken : Finset (Fin n)}
    (hstep : (runtimeSystem n declared).step s (.doWork function argument woken) = some t)
    (hleads : (runtimeSystem n declared).LeadsWhen (Proper declared) t u) :
    ∃ fiber phase, s.caller = some fiber ∧
      Lived ⟨function, argument, fiber, doWorkCallback⟩ phase (happened s.nextCall u.pool.log) ∧
      (phase ≠ .idle → u.Waiting s.nextCall ∧ u.callerOf s.nextCall = fiber) ∧
      (s.nextCall ∈ returned u.log → ∃ worker, happened s.nextCall u.pool.log =
        life worker ⟨function, argument, fiber, doWorkCallback⟩) := by
  have hproper : Proper declared s (.doWork function argument woken) := trivial
  have ht := h.step hproper hstep
  have hu := ht.leads hleads
  have hinvariant := invariant_of_reachable (fun _ _ hc => hc) hu
  obtain ⟨fiber, hcaller, hpost⟩ :=
    posted_of_doWork (invariant_of_reachable (fun _ _ hc => hc) h).defined hstep
  have honce : times 0 s.nextCall u.pool.log ≤ 1 :=
    (posted_of_reachable hu s.nextCall).trans (by split_ifs <;> omega)
  obtain ⟨phase, hlocated⟩ := hinvariant.located
  have hin : .posted ⟨function, argument, fiber, doWorkCallback⟩ ∈ happened s.nextCall u.pool.log :=
    List.mem_filterMap.mpr ⟨_, mem_log_of_leads ht hleads hpost, if_pos rfl⟩
  obtain ⟨-, hnone⟩ | ⟨fields, hlived⟩ := lived_of_replay (hlocated.replayed s.nextCall) honce
  · rw [hnone] at hin
    cases hin
  obtain rfl := hlived.fields_eq hin
  refine ⟨fiber, _, hcaller, hlived, fun hphase => ?_, fun hreturned => ?_⟩
  · -- a work that is under way has its caller in its fields
    obtain ⟨hw, -, -, hdata⟩ := hinvariant.sources.posted s.nextCall fun hidle =>
      hphase (Option.some.inj ((hlocated.replayed _).symm.trans hidle))
    rw [hlocated.fields _ _ (hlived.fields_of_ne hphase)] at hdata
    exact ⟨hw, hdata.symm⟩
  · obtain ⟨hresumed, hnobody⟩ := hinvariant.recorded.left _ hreturned
    have hidle : u.pool.Idle s.nextCall :=
      hinvariant.sources.idle fun hw => absurd hw (hinvariant.recorded.fresh _ hresumed).2
    rw [Option.some.inj ((hlocated.replayed _).symm.trans hidle)] at hlived
    exact hlived.ended

/-- No dispatched call is one for a wait whose time is over. -/
def NoTimeOut (s : Runtime n) (_ : RuntimeAction n) : Prop :=
  ∀ call ∈ s.async.calls.head?, call.function ≠ .waitForFDCallback3

instance (s : Runtime n) (action : RuntimeAction n) : Decidable (s.NoTimeOut action) :=
  inferInstanceAs (Decidable (∀ call ∈ s.async.calls.head?, call.function ≠ .waitForFDCallback3))

/-- Where no `WaitForFDCallback3` is dispatched nothing undefined happens, with whatever fields the
context is declared. -/
theorem NoTimeOut.proper (declared : Fields FieldName) {action : RuntimeAction n}
    (h : s.NoTimeOut action) :
    Proper declared s action := by
  cases action with
  | dispatch => exact fun call hcall hfunction => absurd hfunction (h call hcall)
  | _ => trivial

/-- The work is taken, run, written and called back; then the fiber goes on. -/
def workReturns : List (RuntimeAction 1) :=
  let worker : Fin 1 := Fin.last 0
  [.worker (.examine worker ∅), .worker (.start worker), .worker (.finish worker),
    .worker (.write worker), .poll (fun _ => .dirtyEventListHead) (.ready [(5, 1)]) (fun _ => true),
    .dispatch, .expire 5 [] (fun _ => true), .schedulerTick, .proceed]

/-- A work is posted, run by the one worker and called back; then its caller goes on, and its
history is the whole life of a work. -/
theorem work_done_workReturns : ∃ s t u : Runtime 1,
    (runtimeSystem 1 callback3Context).step s (.doWork 3 4 ∅) = some t ∧
      (runtimeSystem 1 callback3Context).LeadsWhen (Proper callback3Context) t u ∧ s.nextCall = 1 ∧
      ∃ worker fiber, happened 1 u.pool.log = life worker ⟨3, 4, fiber, doWorkCallback⟩ := by
  have hend :
      (((runtimeSystem 1 callback3Context).guarded NoTimeOut).run started [.schedulerTick]).bind
      (fun s => ((runtimeSystem 1 callback3Context).step s (.doWork 3 4 ∅)).bind fun t =>
        (((runtimeSystem 1 callback3Context).guarded NoTimeOut).run t workReturns).map fun u =>
          (s.nextCall, returned u.log)) = some (1, [1]) := by
    decide +kernel
  obtain ⟨s, hs, hend⟩ := Option.bind_eq_some_iff.mp hend
  obtain ⟨t, ht, hend⟩ := Option.bind_eq_some_iff.mp hend
  obtain ⟨u, hu, hend⟩ := Option.map_eq_some_iff.mp hend
  obtain ⟨hnext, hreturned⟩ := Prod.mk.inj hend
  have hreach := (StepSystem.reachableWhen_of_run started_initial hs).mono
    fun _ _ => NoTimeOut.proper callback3Context
  have hleads := StepSystem.leadsWhen_of_run (fun _ _ => NoTimeOut.proper callback3Context) hu
  obtain ⟨fiber, _, -, -, -, hdone⟩ := work_done hreach ht hleads
  obtain ⟨worker, hlife⟩ := hdone (by rw [hnext, hreturned]; exact List.mem_singleton_self 1)
  rw [hnext] at hlife
  exact ⟨s, t, u, ht, hleads, hnext, worker, fiber, hlife⟩

end Runtime

end Pixy.Loop
