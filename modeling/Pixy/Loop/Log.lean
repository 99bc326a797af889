import Pixy.Loop.Sources

/-!
# What has happened

The log of a run, read from the oldest entry on. An entry is `Right` if what it tells was in order
when it happened: what was unlinked was linked, who was resumed was suspended in a call that nobody
had completed, and who returned had been resumed once. `Recorded` says so of the whole log and ties
it to the state.
-/

namespace Pixy.Loop

open Pixy.Found Pixy.Sched Pixy.Sync Pixy.Poll Pixy.Pool

variable {n : ℕ}

/-- The watch is in a list of an event that is in use. -/
def LinkedIn (poller : IOPoller Callback) (watch : WatchId) : Prop :=
  ∃ event ∈ poller.allocated, ∃ condition items,
    poller.links.Ring (.watchListHead event condition) items ∧ .watchItem watch ∈ items

/-- Unlinking the watch is in order: it is linked, and what comes of it is that its own list is
without it and every other list as before. -/
structure Unlinks (poller : IOPoller Callback) (watch : WatchId) : Prop where
  /-- The watch is linked. -/
  linked : LinkedIn poller watch
  /-- No other watch is touched. -/
  own : ∃ after, poller.clearWatch watch = some after ∧ poller.Drops after watch

/-- The call that an entry says was completed. -/
def Happening.resumedCall : Happening → Option CallId
  | .resumes _ (.inCall call) _ _ => some call
  | _ => none

/-- The call that an entry says returned. -/
def Happening.returnedCall : Happening → Option CallId
  | .returns call _ _ _ => some call
  | _ => none

/-- The calls that were completed. -/
def resumed (log : List Happening) : List CallId := log.filterMap Happening.resumedCall

/-- The calls that returned. -/
def returned (log : List Happening) : List CallId := log.filterMap Happening.returnedCall

/-- What a call returns that was completed by readiness, or by something else, and what it sets
`errno` to. -/
def CallKind.outcome (kind : CallKind) (ready : Bool) : Bool × Option ℤ :=
  match kind with
  | .waitForFD .. => if ready then (true, none) else (false, some eintr)
  | _ => (true, none)

/-- It is right, given what happened before. -/
def Happening.Right (older : List Happening) : Happening → Prop
  | .clearsWatch watch poller => Unlinks poller watch
  | .clearsTimeout timeout timer => timeout ∈ timer.nodes
  | .resumes fiber position _ scheduler =>
    scheduler.Suspended fiber ∧ ∃ call, position = .inCall call ∧ call ∉ resumed older
  | .returns call kind ok errno =>
    (∃ fiber ready scheduler, .resumes fiber (.inCall call) ready scheduler ∈ older ∧
      (ok, errno) = kind.outcome ready) ∧
    (resumed older).count call = 1 ∧ call ∉ returned older

/-- Something that was linked was unlinked. -/
def Happening.Clears : Happening → Prop
  | .clearsWatch watch poller => Unlinks poller watch
  | .clearsTimeout timeout timer => timeout ∈ timer.nodes
  | _ => False

/-- Everything was right when it happened. -/
def Orderly (log : List Happening) : Prop :=
  ∀ newer older happening, log = newer ++ happening :: older → happening.Right older

section Logs

variable {log notes : List Happening} {happening : Happening}

/-- In an empty log nothing has gone wrong yet, which is how every run begins. -/
theorem orderly_nil : Orderly [] := by
  intro newer older happening h
  simp at h

/-- A step keeps the log orderly if the one thing it adds is right in view of what happened
before. -/
theorem Orderly.cons (h : Orderly log) (hright : happening.Right log) :
    Orderly (happening :: log) := by
  intro newer older other heq
  rcases newer with _ | ⟨first, newer⟩
  · cases heq
    exact hright
  · exact h newer older other (List.cons.inj heq).2

/-- That a linked watch or a pending timeout is cleared is right at any time, whatever happened
before. -/
theorem Happening.Clears.right (h : happening.Clears) (older : List Happening) :
    happening.Right older := by
  cases happening with
  | clearsWatch watch poller => exact h
  | clearsTimeout timeout timer => exact h
  | resumes => exact h.elim
  | returns => exact h.elim

/-- Clearing a watch or a timeout neither wakes the fiber of a call nor is it the return of one. -/
theorem Happening.Clears.none (h : happening.Clears) :
    happening.resumedCall = .none ∧ happening.returnedCall = .none := by
  cases happening with
  | clearsWatch watch poller => exact ⟨rfl, rfl⟩
  | clearsTimeout timeout timer => exact ⟨rfl, rfl⟩
  | resumes => exact h.elim
  | returns => exact h.elim

/-- Any number of clearings may be added to an orderly log, as each of them is right by itself. -/
theorem Orderly.append (h : Orderly log) (hnotes : ∀ note ∈ notes, note.Clears) :
    Orderly (notes ++ log) := by
  induction notes with
  | nil => exact h
  | cons note notes ih =>
      rw [List.forall_mem_cons] at hnotes
      exact (ih hnotes.2).cons (hnotes.1.right _)

/-- Clearings do not count when one asks which calls have been resumed. -/
theorem resumed_notes (hnotes : ∀ note ∈ notes, note.Clears) :
    resumed (notes ++ log) = resumed log := by
  rw [resumed, List.filterMap_append, List.filterMap_eq_nil_iff.mpr fun note hn =>
    (hnotes note hn).none.1]
  rfl

/-- Clearings do not count when one asks which calls have returned. -/
theorem returned_notes (hnotes : ∀ note ∈ notes, note.Clears) :
    returned (notes ++ log) = returned log := by
  rw [returned, List.filterMap_append, List.filterMap_eq_nil_iff.mpr fun note hn =>
    (hnotes note hn).none.2]
  rfl

/-- **No call is completed twice**, as each completion in an orderly log is one of a call that was
still waiting then. -/
theorem Orderly.nodup_resumed (h : Orderly log) : (resumed log).Nodup := by
  induction log with
  | nil => exact List.nodup_nil
  | cons happening log ih =>
      have hrest : Orderly log := by
        intro newer older other heq
        exact h (happening :: newer) older other (congrArg _ heq)
      have hright := h [] log happening rfl
      cases happening with
      | resumes fiber position ready scheduler =>
          obtain ⟨-, call, rfl, hnot⟩ := hright
          exact List.nodup_cons.mpr ⟨hnot, ih hrest⟩
      | _ => exact ih hrest

end Logs

namespace Runtime

/-- The log is orderly, and it fits the state. -/
structure Recorded (s : Runtime n) : Prop where
  /-- Everything was right. -/
  orderly : Orderly s.log
  /-- A call that was completed is over. -/
  fresh : ∀ k ∈ resumed s.log, k < s.nextCall ∧ ¬s.Waiting k
  /-- Whoever is awake in a call was resumed in it, and the context tells why. -/
  woken : ∀ fiber k, s.position fiber = .inCall k → ¬s.scheduler.Suspended fiber →
    ∃ ready scheduler, .resumes fiber (.inCall k) ready scheduler ∈ s.log ∧
      s.result k = (s.kind k).outcome ready
  /-- A call that returned was completed, and nobody is in it. -/
  left : ∀ k ∈ returned s.log, k ∈ resumed s.log ∧ ∀ fiber, s.position fiber ≠ .inCall k

variable {s t : Runtime n} {k : CallId} {fiber : FiberId}

/-- A call has been resumed if the log tells so of some fiber, with whatever result and out of
whatever state of the scheduler. -/
theorem mem_resumed {log : List Happening} : k ∈ resumed log ↔
    ∃ fiber ready scheduler, .resumes fiber (.inCall k) ready scheduler ∈ log := by
  simp only [resumed, List.mem_filterMap]
  constructor
  · rintro ⟨happening, hin, hk⟩
    cases happening with
    | resumes fiber position ready scheduler =>
        cases position <;> simp only [Happening.resumedCall, Option.some.injEq, reduceCtorEq] at hk
        exact ⟨fiber, ready, scheduler, hk ▸ hin⟩
    | _ => cases hk
  · rintro ⟨fiber, ready, scheduler, hin⟩
    exact ⟨_, hin, rfl⟩

/-- **Frame.** Nobody is resumed and nobody returns; a new call may have begun, and something may
have been unlinked. -/
theorem Recorded.frame (h : s.Recorded) (notes : List Happening)
    (hnotes : ∀ note ∈ notes, note.Clears) (hlog : t.log = notes ++ s.log)
    (hnext : s.nextCall ≤ t.nextCall) (hwaiting : ∀ k < s.nextCall, t.Waiting k → s.Waiting k)
    (hposition : ∀ fiber, ∀ k < s.nextCall, t.position fiber = .inCall k →
      s.position fiber = .inCall k)
    (hwoken : ∀ fiber k, t.position fiber = .inCall k → ¬t.scheduler.Suspended fiber →
      s.position fiber = .inCall k ∧ ¬s.scheduler.Suspended fiber ∧
        t.result k = s.result k ∧ t.kind k = s.kind k) : t.Recorded where
  orderly := hlog ▸ h.orderly.append hnotes
  fresh k hk := by
    rw [hlog, resumed_notes hnotes] at hk
    obtain ⟨hlt, hnot⟩ := h.fresh k hk
    exact ⟨hlt.trans_le hnext, fun hw => hnot (hwaiting k hlt hw)⟩
  woken fiber k hpos hawake := by
    obtain ⟨hpos', hawake', hresult, hkind⟩ := hwoken fiber k hpos hawake
    obtain ⟨ready, scheduler, hin, hout⟩ := h.woken fiber k hpos' hawake'
    rw [hlog, hresult, hkind]
    exact ⟨ready, scheduler, List.mem_append_right _ hin, hout⟩
  left k hk := by
    rw [hlog, returned_notes hnotes] at hk
    obtain ⟨hin, hnone⟩ := h.left k hk
    rw [hlog, resumed_notes hnotes]
    exact ⟨hin, fun fiber hpos => hnone fiber (hposition fiber k (h.fresh k hin).1 hpos)⟩

/-- Nothing happens that is worth remembering, and the fibers stay where they are. -/
theorem Recorded.same (h : s.Recorded) (hlog : t.log = s.log) (hnext : t.nextCall = s.nextCall)
    (hposition : t.position = s.position) (hscheduler : t.scheduler = s.scheduler)
    (hkind : t.kind = s.kind) (hcontext : t.context = s.context) : t.Recorded := by
  refine h.frame [] (fun _ hin => absurd hin List.not_mem_nil) hlog hnext.ge ?_ ?_ ?_
  · intro k _ hw
    unfold Waiting callerOf at hw
    rwa [hposition, hscheduler, hcontext] at hw
  · intro fiber k _ hpos
    rwa [hposition] at hpos
  · intro fiber k hpos hawake
    rw [hposition] at hpos
    rw [hscheduler] at hawake
    unfold result
    rw [hkind, hcontext]
    exact ⟨hpos, hawake, rfl, rfl⟩

/-- **A callback completes a call** that has waited, for the first time, and the log tells so. -/
theorem Recorded.wake (h : s.Recorded) (hw : s.Waiting k) (hlt : k < s.nextCall)
    {notes : List Happening} (hnotes : ∀ note ∈ notes, note.Clears) (ready : Bool)
    (hlog : t.log = .resumes (s.callerOf k) (.inCall k) ready s.scheduler :: (notes ++ s.log))
    (hnext : t.nextCall = s.nextCall) (hposition : t.position = s.position)
    (hwaiting : ∀ j, t.Waiting j ↔ s.Waiting j ∧ j ≠ k)
    (hsuspended : ∀ fiber, t.scheduler.Suspended fiber ↔
      fiber ≠ s.callerOf k ∧ s.scheduler.Suspended fiber)
    (hresult : ∀ j ≠ k, t.result j = s.result j) (hkind : t.kind = s.kind)
    (hout : t.result k = (s.kind k).outcome ready) : t.Recorded := by
  have hresumed : resumed t.log = k :: resumed s.log := by
    rw [hlog]
    exact congrArg (k :: ·) (resumed_notes hnotes)
  have hreturned : returned t.log = returned s.log := by
    rw [hlog]
    exact returned_notes hnotes
  have hnot : k ∉ resumed s.log := fun hin => (h.fresh k hin).2 hw
  constructor
  · rw [hlog]
    refine (h.orderly.append hnotes).cons ⟨hw.2, k, rfl, ?_⟩
    rwa [resumed_notes hnotes]
  · intro j hj
    rw [hresumed, List.mem_cons] at hj
    rw [hnext, hwaiting]
    rcases hj with rfl | hj
    · exact ⟨hlt, fun hw' => hw'.2 rfl⟩
    · exact ⟨(h.fresh j hj).1, fun hw' => (h.fresh j hj).2 hw'.1⟩
  · intro fiber j hpos hawake
    rw [hposition] at hpos
    rw [hkind]
    by_cases hf : fiber = s.callerOf k
    · subst hf
      obtain rfl : k = j := Position.inCall.inj (hw.1.symm.trans hpos)
      exact ⟨ready, s.scheduler, by rw [hlog]; exact List.mem_cons_self, hout⟩
    · rw [hsuspended] at hawake
      have hasleep : ¬s.scheduler.Suspended fiber := fun hs => hawake ⟨hf, hs⟩
      obtain ⟨ready', scheduler, hin, hout'⟩ := h.woken fiber j hpos hasleep
      have hj : j ≠ k := by
        rintro rfl
        exact hnot (mem_resumed.mpr ⟨fiber, ready', scheduler, hin⟩)
      refine ⟨ready', scheduler, ?_, (hresult j hj).trans hout'⟩
      rw [hlog]
      exact List.mem_cons_of_mem _ (List.mem_append_right _ hin)
  · intro j hj
    rw [hreturned] at hj
    rw [hresumed, hposition]
    exact ⟨List.mem_cons_of_mem _ (h.left j hj).1, (h.left j hj).2⟩

/-- **A call returns** to its caller with the result that was stored for it, and the log tells so.
-/
theorem Recorded.leave (h : s.Recorded) (hpos : s.position fiber = .inCall k)
    (honly : ∀ other, s.position other = .inCall k → other = fiber)
    (hawake : ¬s.scheduler.Suspended fiber)
    (hlog : t.log = .returns k (s.kind k) (s.result k).1 (s.result k).2 :: s.log)
    (hnext : t.nextCall = s.nextCall)
    (hposition : t.position = Function.update s.position fiber .outside)
    (hwaiting : ∀ j, t.Waiting j ↔ s.Waiting j) (hscheduler : t.scheduler = s.scheduler)
    (hresult : t.result = s.result) (hkind : t.kind = s.kind) : t.Recorded := by
  obtain ⟨ready, scheduler, hin, hout⟩ := h.woken fiber k hpos hawake
  have hk : k ∈ resumed s.log := mem_resumed.mpr ⟨fiber, ready, scheduler, hin⟩
  have hreturned : returned t.log = k :: returned s.log := by
    rw [hlog]
    rfl
  have hresumed : resumed t.log = resumed s.log := by
    rw [hlog]
    rfl
  have hmoved : ∀ other j, t.position other = .inCall j →
      other ≠ fiber ∧ s.position other = .inCall j := by
    intro other j hp
    rw [hposition] at hp
    by_cases ho : other = fiber
    · subst ho
      simp at hp
    · exact ⟨ho, by rwa [Function.update_of_ne ho] at hp⟩
  constructor
  · rw [hlog]
    refine h.orderly.cons ⟨⟨fiber, ready, scheduler, hin, hout⟩, ?_, ?_⟩
    · exact List.count_eq_one_of_mem h.orderly.nodup_resumed hk
    · exact fun hr => (h.left k hr).2 fiber hpos
  · intro j hj
    rw [hresumed] at hj
    rw [hnext, hwaiting]
    exact h.fresh j hj
  · intro other j hp ha
    rw [hscheduler] at ha
    rw [hresult, hkind]
    obtain ⟨ready', scheduler', hin', hout'⟩ := h.woken other j (hmoved other j hp).2 ha
    exact ⟨ready', scheduler', hlog ▸ List.mem_cons_of_mem _ hin', hout'⟩
  · intro j hj
    rw [hreturned, List.mem_cons] at hj
    rw [hresumed]
    rcases hj with rfl | hj
    · refine ⟨hk, fun other hp => ?_⟩
      obtain ⟨hne, hp'⟩ := hmoved other j hp
      exact hne (honly other hp')
    · exact ⟨(h.left j hj).1, fun other hp => (h.left j hj).2 other (hmoved other j hp).2⟩

end Runtime

end Pixy.Loop
