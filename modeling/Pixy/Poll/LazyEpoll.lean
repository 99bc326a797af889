import Pixy.Poll.Flush

/-!
# Lazy registration is exact

The poller under any sequence of calls.

* `Shape.collectEvents`, `Shape.tick`: what a tick collects are the callbacks of the watches that
  are registered for what was reported, in order, up to where memory ran out;
* `shape_of_reachable`: the invariant over all runs;
* `lazy_registration`: at any time the kernel has what the flags say, and at every `epoll_wait` it
  has exactly what is watched; no call fails for a reason of the poller's own; and the blocks of the
  pool are freed once, when the kernel does not point to them.
-/

namespace Pixy.Poll

open Pixy.Found Pixy.Store

namespace IOPoller

variable {F : Type} {p p' : IOPoller F} {dirty : List EventId} {e : EventId}

/-! ## What a tick collects -/

/-- The call that a watch asks for. -/
def callOf (p : IOPoller F) (w : WatchId) : AsyncCall F := ⟨(p.watch w).callback, (p.watch w).data⟩

/-- The watches that an entry of `epoll_wait` is for: those of the conditions reported, and all if
there is an error or a hang-up. -/
def wokenBy (p : IOPoller F) (ev : FD × BitVec 32) : List WatchId :=
  [IOCondition.ioReadable, .ioWritable].flatMap fun c =>
    if ev.2 &&& (ioEventFlags c ||| epollErr ||| epollHup) ≠ 0 then watchesOf p.registered ev.1 c
    else []

/-- The calls were put behind those there were, up to where memory ran out. -/
def Collected (before after : Async F) (ok : Bool) (calls : List (AsyncCall F)) : Prop :=
  ∃ taken, taken <+: calls ∧ after.calls = before.calls ++ taken ∧ (ok = true → taken = calls)

/-- Where there is nothing to call nothing is appended, and memory does not run out. -/
theorem collected_nil (async : Async F) : Collected async async true [] :=
  ⟨[], List.nil_prefix, by simp, fun _ => rfl⟩

/-- What is collected for one part of a report and then for the next has been collected for both. -/
theorem Collected.append {a b d : Async F} {ok : Bool} {calls calls' : List (AsyncCall F)}
    (h : Collected a b true calls) (h' : Collected b d ok calls') :
    Collected a d ok (calls ++ calls') := by
  obtain ⟨taken, -, hb, hall⟩ := h
  obtain ⟨taken', hprefix, hd, hall'⟩ := h'
  rw [hall rfl] at hb
  refine ⟨calls ++ taken', (List.prefix_append_right_inj calls).mpr hprefix, ?_, fun ho => ?_⟩
  · rw [hd, hb, List.append_assoc]
  · rw [hall' ho]

/-- Where memory has run out no more is collected, so what was to follow makes no difference. -/
theorem Collected.stopped {a b : Async F} {calls : List (AsyncCall F)}
    (h : Collected a b false calls) (calls' : List (AsyncCall F)) :
    Collected a b false (calls ++ calls') := by
  obtain ⟨taken, hprefix, hb, -⟩ := h
  exact ⟨taken, hprefix.trans (List.prefix_append _ _), hb, by simp⟩

/-- The loop over the watches of one list collects their calls in order until one cannot be
collected for want of memory. -/
theorem collect_spec (p : IOPoller F) (memory : ℕ → Bool) (ws : List WatchId) (async : Async F) :
    ∃ async' ok, p.collect memory async (ws.map .watchItem) = some (async', ok) ∧
      Collected async async' ok (ws.map p.callOf) := by
  induction ws generalizing async with
  | nil => exact ⟨async, true, rfl, collected_nil async⟩
  | cons w ws ih =>
      have hcalls := async.addCall_calls (p.watch w).callback (p.watch w).data
        (memory async.calls.length)
      rcases hadd : async.addCall (p.watch w).callback (p.watch w).data
        (memory async.calls.length) with ⟨next, _ | _⟩
      · rw [hadd] at hcalls
        refine ⟨next, false, by simp [collect, hadd], [], List.nil_prefix, ?_, by simp⟩
        simpa using hcalls
      · rw [hadd] at hcalls
        have hone : Collected async next true [p.callOf w] :=
          ⟨[p.callOf w], List.prefix_rfl, by simpa [callOf] using hcalls, fun _ => rfl⟩
        obtain ⟨async', ok, hrest, hcollected⟩ := ih next
        exact ⟨async', ok, by simp [collect, hadd, hrest], hone.append hcollected⟩

/-- One condition of one entry: if the flags reported concern it, the calls of its watch list are
collected, and otherwise none. -/
theorem Sound.collectCondition (h : p.Sound) (he : e ∈ p.allocated) (memory : ℕ → Bool)
    (async : Async F) (flags : BitVec 32) (c : IOCondition) :
    ∃ async' ok, p.collectCondition memory async (e, flags) c = some (async', ok) ∧
      Collected async async' ok ((if flags &&& (ioEventFlags c ||| epollErr ||| epollHup) ≠ 0 then
        watchesOf p.registered (p.event e).fd c else []).map p.callOf) := by
  unfold IOPoller.collectCondition
  by_cases hbit : flags &&& (ioEventFlags c ||| epollErr ||| epollHup) ≠ 0
  · have hlength : (p.items e c).length < p.registered.length + 1 := by
      simp only [items, watchesOf, List.length_map]
      exact Nat.lt_succ_of_le (List.length_filter_le _ _)
    obtain ⟨async', ok, hcollect, hcollected⟩ :=
      p.collect_spec memory (watchesOf p.registered (p.event e).fd c) async
    refine ⟨async', ok, ?_, by rwa [if_pos hbit]⟩
    have hwalk := (h.rings e he c).walk_eq hlength
    rw [if_pos hbit]
    simp only [hwalk, Option.bind_eq_bind, Option.bind_some]
    exact hcollect
  · rw [if_neg hbit, if_neg hbit]
    exact ⟨async, true, rfl, collected_nil async⟩

/-- An entry of `epoll_wait`, as descriptor and as pointer. -/
def Reports (p : IOPoller F) (ev : FD × BitVec 32) (ev' : EventId × BitVec 32) : Prop :=
  ev'.1 ∈ p.allocated ∧ (p.event ev'.1).fd = ev.1 ∧ ev'.2 = ev.2

/-- What the kernel reports are events that are allocated, since the interest set points to no
others. -/
theorem Sound.reports (h : p.Sound) {ev : FD × BitVec 32} {ev' : EventId × BitVec 32}
    (hrep : p.reported ev = some ev') : p.Reports ev ev' := by
  unfold reported at hrep
  split at hrep
  · rename_i mask event hint
    split at hrep
    · cases hrep
      by_cases hnone : ∀ e ∈ p.allocated, (p.event e).fd ≠ ev.1
      · rw [h.kernel.absent _ hnone] at hint
        simp at hint
      · push Not at hnone
        obtain ⟨e, he, hfd⟩ := hnone
        rw [← hfd, h.kernel.interest e he] at hint
        split at hint
        · simp at hint
        · simp only [Option.some.injEq, Prod.mk.injEq] at hint
          exact ⟨hint.2 ▸ he, hint.2 ▸ hfd, rfl⟩
    · simp at hrep
  · simp at hrep

/-- A partial function that is defined on all of a list. -/
theorem forall₂_of_mapM {α β : Type} {f : α → Option β} {l : List α} {l' : List β}
    (h : l.mapM f = some l') : List.Forall₂ (fun a b => f a = some b) l l' := by
  induction l generalizing l' with
  | nil =>
      simp only [List.mapM_nil, Option.pure_def, Option.some.injEq] at h
      exact h ▸ .nil
  | cons a l ih =>
      simp only [List.mapM_cons, Option.bind_eq_bind, Option.bind_eq_some_iff, Option.pure_def,
        Option.some.injEq] at h
      obtain ⟨b, hb, l', hl, rfl⟩ := h
      exact .cons hb (ih hl)

/-- Every entry of a possible report is of a descriptor in the interest set, and what the loop reads
in it is the event of that descriptor. -/
theorem Sound.epollWait (h : p.Sound) {evs : List (FD × BitVec 32)}
    {evs' : List (EventId × BitVec 32)} (hwait : p.epollWait evs = some evs') :
    List.Forall₂ p.Reports evs evs' := by
  unfold IOPoller.epollWait at hwait
  split at hwait
  · exact (forall₂_of_mapM hwait).imp fun _ _ => h.reports
  · simp at hwait

/-- **The loop over what `epoll_wait` returned** collects the calls of the watches that each entry
wakes, entry by entry. -/
theorem Sound.collectEvents (h : p.Sound) (memory : ℕ → Bool) {evs : List (FD × BitVec 32)}
    {evs' : List (EventId × BitVec 32)} (hevs : List.Forall₂ p.Reports evs evs') (async : Async F) :
    ∃ async' ok, p.collectEvents memory async evs' = some (async', ok) ∧
      Collected async async' ok ((evs.flatMap p.wokenBy).map p.callOf) := by
  induction hevs generalizing async with
  | nil => exact ⟨async, true, rfl, collected_nil async⟩
  | @cons ev ev' evs evs' hrep _ ih =>
      obtain ⟨he, hfd, hflags⟩ := hrep
      have hwoken : (List.flatMap p.wokenBy (ev :: evs)).map p.callOf =
          (if ev.2 &&& (ioEventFlags .ioReadable ||| epollErr ||| epollHup) ≠ 0 then
            watchesOf p.registered (p.event ev'.1).fd .ioReadable else []).map p.callOf ++
          ((if ev.2 &&& (ioEventFlags .ioWritable ||| epollErr ||| epollHup) ≠ 0 then
            watchesOf p.registered (p.event ev'.1).fd .ioWritable else []).map p.callOf ++
          (evs.flatMap p.wokenBy).map p.callOf) := by
        simp [wokenBy, hfd]
      rw [hwoken]
      obtain ⟨a, ok, hread, hc⟩ := h.collectCondition he memory async ev'.2 .ioReadable
      rw [hflags] at hc
      simp only [IOPoller.collectEvents, he, if_true]
      rcases ok with _ | _
      · exact ⟨a, false, by simp [hread], hc.stopped _⟩
      · obtain ⟨b, ok, hwrite, hc'⟩ := h.collectCondition he memory a ev'.2 .ioWritable
        rw [hflags] at hc'
        rcases ok with _ | _
        · exact ⟨b, false, by simp [hread, hwrite], hc.append (hc'.stopped _)⟩
        · obtain ⟨d, ok, hrest, hc''⟩ := ih b
          exact ⟨d, ok, by simp [hread, hwrite, hrest], hc.append (hc'.append hc'')⟩

/-- **A tick** flushes what is pending and collects callbacks of what is ready, and it changes no
registration. -/
theorem Shape.tick (h : p.Shape dirty) {freeSlot : EventId → Node} {outcome : EpollWait}
    {memory : ℕ → Bool} {async async' : Async F} {ok : Bool}
    (htick : p.tick freeSlot outcome memory async = some (p', async', ok)) :
    p.flush freeSlot = some p' ∧ p'.Shape [] ∧ p'.registered = p.registered ∧
      Collected async async' ok (match outcome with
        | .interrupted => []
        | .ready evs => (evs.flatMap p'.wokenBy).map p'.callOf) := by
  obtain ⟨q, hflush, hshape, hregistered⟩ := h.flush freeSlot
  unfold IOPoller.tick at htick
  simp only [hflush, Option.bind_eq_bind, Option.bind_some] at htick
  rcases outcome with _ | evs
  · simp only [Option.pure_def, Option.some.injEq, Prod.mk.injEq] at htick
    obtain ⟨rfl, rfl, rfl⟩ := htick
    exact ⟨hflush, hshape, hregistered, [], List.prefix_rfl, by simp, by simp⟩
  · rcases hwait : q.epollWait evs with _ | evs'
    · simp [hwait] at htick
    · obtain ⟨a, ok', hcollect, hcollected⟩ :=
        hshape.sound.collectEvents memory (hshape.sound.epollWait hwait) async
      simp only [hwait, hcollect, Option.bind_some, Option.pure_def, Option.some.injEq,
        Prod.mk.injEq] at htick
      obtain ⟨rfl, rfl, rfl⟩ := htick
      exact ⟨hflush, hshape, hregistered, hcollected⟩

/-! ## After a flush -/

/-- **After a flush the kernel has exactly what is watched**, and the events in use are the watched
ones. -/
theorem Shape.interest_exact (h : p.Shape []) (fd : ℕ) :
    (p.interest fd).map (·.1) = if mask (watched p.registered fd) = 0 then none
      else some (mask (watched p.registered fd)) := by
  by_cases hnone : ∀ e ∈ p.allocated, (p.event e).fd ≠ fd
  · have hzero : mask (watched p.registered fd) = 0 := by
      refine (mask_eq_zero _).mpr fun c => watched_of_forall fun r hr => ?_
      obtain ⟨e, he, hfd⟩ := h.sound.stored.registration r hr
      exact hfd ▸ hnone e he
    rw [h.sound.kernel.absent fd hnone, if_pos hzero]
    rfl
  · push Not at hnone
    obtain ⟨e, he, rfl⟩ := hnone
    obtain ⟨hflags, hne⟩ := h.settled e he List.not_mem_nil
    rw [h.sound.kernel.interest e he, ← h.pending e he, hflags, if_neg hne, if_neg hne]
    rfl

/-- With nothing left to flush every event is of a descriptor that somebody watches; those of
unwatched ones have been freed. -/
theorem Shape.allocated_watched (h : p.Shape []) (he : e ∈ p.allocated) :
    ∃ r ∈ p.registered, r.fd = (p.event e).fd := by
  by_contra hnone
  push Not at hnone
  refine (h.settled e he List.not_mem_nil).2 ?_
  rw [h.pending e he]
  exact (mask_eq_zero _).mpr fun c => watched_of_forall hnone

end IOPoller

/-! ## All runs -/

section Runs

variable {F : Type} {p p' : IOPoller F} {dirty : List EventId}

open IOPoller

/-- A poller that has just been initialized has the right shape, whatever its memory holds. -/
theorem shape_init (event : EventId → IOEvent) (watch : WatchId → IOWatch F) (links : Links Node) :
    (IOPoller.init event watch links).Shape [] := by
  refine ⟨⟨⟨Vector.wellSized_init (by decide), rfl, ?_, ?_, ?_⟩, ⟨List.nodup_nil, ?_⟩, ?_,
    ⟨?_, fun _ _ => rfl⟩, fun e => ?_⟩, ?_, ⟨Links.ring_makeEmpty _ _, ?_, ?_⟩, ?_⟩
  all_goals simp [IOPoller.init, Rings, Pending, Settled, block, Block.replay]

/-- What the pool and the kernel see to: a block that is handed out is not in use, and `epoll_wait`
returns what it may. -/
def PollAction.Possible (poller : IOPoller F) : PollAction F → Prop
  | setWatch _ _ _ _ _ _ block => ∀ e ∈ block, e ∉ poller.allocated
  | clearWatch _ => True
  | clearWatches _ => True
  | tick freeSlot outcome _ _ => ∀ evs, outcome = .ready evs →
      ∀ flushed ∈ poller.flush freeSlot, (flushed.epollWait evs).isSome

/-- **Every call succeeds** that is allowed: it follows no null pointer, and fails in the source's
own way if memory is short. -/
theorem IOPoller.Shape.perform_isSome (h : p.Shape dirty) {action : PollAction F}
    (hallowed : action.Allowed p) (hpossible : action.Possible p) : (action.perform p).isSome := by
  cases action with
  | setWatch watch fd condition data callback reallocated block =>
      obtain ⟨-, e, hmem, he⟩ | ⟨p', ok, dirty', hset, -⟩ :=
        h.setWatch hallowed.1 hallowed.2 condition data callback reallocated block
      · exact absurd he (hpossible e hmem)
      · simp [PollAction.perform, hset]
  | clearWatch watch =>
      obtain ⟨p', dirty', hclear, -⟩ := h.clearWatch hallowed
      simp [PollAction.perform, hclear]
  | clearWatches fd =>
      obtain ⟨p', dirty', hclear, -⟩ := h.clearWatches fd
      simp [PollAction.perform, hclear]
  | tick freeSlot outcome memory async =>
      obtain ⟨q, hflush, hshape, -⟩ := h.flush freeSlot
      rcases outcome with _ | evs
      · simp [PollAction.perform, IOPoller.tick, hflush]
      · obtain ⟨evs', hwait⟩ := Option.isSome_iff_exists.mp (hpossible evs rfl q hflush)
        obtain ⟨a, ok, hcollect, -⟩ :=
          hshape.sound.collectEvents memory (hshape.sound.epollWait hwait) async
        simp [PollAction.perform, IOPoller.tick, hflush, hwait, hcollect]

/-- **Every call keeps the invariant**, one case for each function of the poller that the user may
call. -/
theorem IOPoller.Shape.perform (h : p.Shape dirty) {action : PollAction F}
    (hallowed : action.Allowed p) (hstep : action.perform p = some p') :
    ∃ dirty', p'.Shape dirty' := by
  cases action with
  | setWatch watch fd condition data callback reallocated block =>
      obtain ⟨hnone, -⟩ | ⟨q, ok, dirty', hset, hshape, -⟩ :=
        h.setWatch hallowed.1 hallowed.2 condition data callback reallocated block
      · simp [PollAction.perform, hnone] at hstep
      · simp only [PollAction.perform, hset, Option.map_some, Option.some.injEq] at hstep
        exact ⟨dirty', hstep ▸ hshape⟩
  | clearWatch watch =>
      obtain ⟨q, dirty', hclear, hshape, -⟩ := h.clearWatch hallowed
      simp only [PollAction.perform, hclear, Option.some.injEq] at hstep
      exact ⟨dirty', hstep ▸ hshape⟩
  | clearWatches fd =>
      obtain ⟨q, dirty', hclear, hshape, -⟩ := h.clearWatches fd
      simp only [PollAction.perform, hclear, Option.some.injEq] at hstep
      exact ⟨dirty', hstep ▸ hshape⟩
  | tick freeSlot outcome memory async =>
      simp only [PollAction.perform, Option.map_eq_some_iff] at hstep
      obtain ⟨⟨q, async', ok⟩, htick, rfl⟩ := hstep
      exact ⟨[], (h.tick htick).2.1⟩

/-- **The invariant over all runs**: every poller that can be reached has the right shape, for some
list of dirty events. -/
theorem shape_of_reachable (h : (pollSystem F).Reachable p) : ∃ dirty, p.Shape dirty := by
  refine StepSystem.ReachableWhen.induct (I := fun p => ∃ dirty, p.Shape dirty) ?_ ?_ h
  · rintro p ⟨event, watch, links, rfl⟩
    exact ⟨[], shape_init event watch links⟩
  · rintro p action p' - ⟨dirty, hshape⟩ - hstep
    simp only [pollSystem, Option.ite_none_right_eq_some] at hstep
    exact hshape.perform hstep.1 hstep.2

/-- What the flags, the lists and the kernel's interest set have to do with each other. -/
structure IOPoller.Lazy (p : IOPoller F) : Prop where
  /-- `events[fd]->fd = fd`. -/
  fd : ∀ fd e, p.load fd = some (some e) → e ∈ p.allocated ∧ (p.event e).fd = fd
  /-- The watches of a list are those set for the descriptor and the condition and not cleared. -/
  lists : ∀ fd e, p.load fd = some (some e) → ∀ c,
    p.links.Ring (.watchListHead e c) ((watchesOf p.registered fd c).map .watchItem)
  /-- A bit is pending exactly when the list has watches. -/
  pending : ∀ fd e, p.load fd = some (some e) → ∀ c,
    (p.event e).pendingFlags &&& ioEventFlags c ≠ 0 ↔ ¬p.links.IsEmpty (.watchListHead e c)
  /-- The kernel has the flags of the stored events. -/
  stored : ∀ fd e, p.load fd = some (some e) →
    p.interest fd = if (p.event e).flags = 0 then none else some ((p.event e).flags, e)
  /-- And no other descriptor. -/
  absent : ∀ fd, (∀ e, p.load fd ≠ some (some e)) → p.interest fd = none
  /-- An event that has something to register, or nothing at all, is in the dirty list once. -/
  dirty : ∃ dirty : List EventId, p.links.Ring .dirtyEventListHead (dirty.map .eventItem) ∧
    ∀ fd e, p.load fd = some (some e) →
      (p.event e).flags ≠ (p.event e).pendingFlags ∨
        ((p.event e).flags = 0 ∧ (p.event e).pendingFlags = 0) → dirty.count e = 1

/-- **The shape carries the laziness**: what the kernel is told, when events are freed and where the
lists stand are all read off it. -/
theorem IOPoller.Shape.lazy (h : p.Shape dirty) : p.Lazy := by
  have hs := h.sound.stored
  have hlists : ∀ fd e, p.load fd = some (some e) → ∀ c,
      p.links.Ring (.watchListHead e c) ((watchesOf p.registered fd c).map .watchItem) := by
    intro fd e hload c
    obtain ⟨he, rfl⟩ := hs.load_eq_some hload
    exact h.sound.rings e he c
  refine ⟨fun fd e hload => hs.load_eq_some hload, hlists, fun fd e hload c => ?_,
    fun fd e hload => ?_, fun fd hnone => ?_, dirty, h.queue.ring, fun fd e hload hflags => ?_⟩
  · obtain ⟨he, rfl⟩ := hs.load_eq_some hload
    rw [(hlists _ e hload c).isEmpty_iff, h.pending e he, not_iff_not, mask_and_eq_zero,
      watched_eq_false, List.map_eq_nil_iff]
  · obtain ⟨he, rfl⟩ := hs.load_eq_some hload
    exact h.sound.kernel.interest e he
  · refine h.sound.kernel.absent fd fun e he hfd => hnone e ?_
    obtain ⟨hlt, helement⟩ := hs.event e he
    rw [hfd] at hlt helement
    simp [load, hlt, helement]
  · obtain ⟨he, rfl⟩ := hs.load_eq_some hload
    have hdirty : e ∈ dirty := by
      by_contra hd
      obtain ⟨hsame, hne⟩ := h.settled e he hd
      rcases hflags with hdiff | ⟨-, hzero⟩
      · exact hdiff hsame
      · exact hne hzero
    exact List.count_eq_one_of_mem h.flushing.nodup hdirty

/-- **Lazy epoll registration is exact.** In every reachable state:

* flags, lists and the kernel's interest set fit together (`Lazy`);
* the flush before `epoll_wait` succeeds, and at `epoll_wait` the kernel's interest set is exactly
  the descriptors that have a watch, each with exactly the watched conditions, while all other
  events have been given back;
* every call the callers may make succeeds, so no `epoll_ctl` is refused;
* what has happened to any block of the pool is a sequence of allocation, being pointed to by the
  kernel, not being so any more, and being freed, in this order each time. -/
theorem lazy_registration (h : (pollSystem F).Reachable p) :
    p.Lazy ∧
    (∀ freeSlot, ∃ q, p.flush freeSlot = some q ∧ q.Lazy ∧ q.registered = p.registered ∧
      (∀ fd, (q.interest fd).map (·.1) = if mask (watched q.registered fd) = 0 then none
        else some (mask (watched q.registered fd))) ∧
      ∀ e ∈ q.allocated, ∃ r ∈ q.registered, r.fd = (q.event e).fd) ∧
    (∀ action : PollAction F, action.Allowed p → action.Possible p →
      (action.perform p).isSome) ∧
    ∀ e, Block.replay p.ledger e = some (p.block e) := by
  obtain ⟨dirty, hshape⟩ := shape_of_reachable h
  refine ⟨hshape.lazy, fun freeSlot => ?_, fun action => hshape.perform_isSome,
    hshape.sound.history⟩
  obtain ⟨q, hflush, hflushed, hregistered⟩ := hshape.flush freeSlot
  exact ⟨q, hflush, hflushed.lazy, hregistered, hflushed.interest_exact,
    fun e he => hflushed.allocated_watched he⟩

end Runs

/-- A descriptor is watched for both conditions, the vector does not grow for another one; after a
tick the one watch is cleared and the descriptor closed; its number is used again before the next
tick, which the kernel answers with a hang-up. -/
def reusedDescriptor : List (PollAction ℕ) :=
  [.setWatch 0 3 .ioReadable 70 7 true (some 5), .setWatch 1 9 .ioReadable 71 7 false none,
    .setWatch 1 3 .ioWritable 71 7 true none, .tick (fun _ => .dirtyEventListHead) .interrupted
      (fun _ => true) .init,
    .clearWatch 0, .clearWatches 3, .setWatch 2 3 .ioWritable 72 8 true none,
    .tick (fun _ => .dirtyEventListHead) (.ready [(3, epollHup)]) (fun _ => true) .init]

/-- A descriptor is closed and its number used again before the next tick. The kernel is told of the
new wish only, and the event has been used for both. -/
theorem lazy_registration_reusedDescriptor :
    ∃ p, (pollSystem ℕ).run (.init (fun _ => ⟨0, 0, 0⟩) (fun _ => ⟨.ioReadable, 0, 0⟩)
        ⟨id, id⟩) reusedDescriptor = some p ∧
      p.interest 3 = some (epollOut, 5) ∧ p.registered = [⟨2, 3, .ioWritable⟩] ∧
      p.ledger = [(5, .allocate), (5, .hold), (5, .drop), (5, .hold)] ∧ p.Lazy := by
  have hend : ((pollSystem ℕ).run (.init (fun _ => ⟨0, 0, 0⟩) (fun _ => ⟨.ioReadable, 0, 0⟩)
      ⟨id, id⟩) reusedDescriptor).map (fun p => (p.interest 3, p.registered, p.ledger)) =
      some (some (epollOut, 5), [⟨2, 3, .ioWritable⟩],
        [(5, .allocate), (5, .hold), (5, .drop), (5, .hold)]) := by decide +kernel
  obtain ⟨p, hrun, hp⟩ := Option.map_eq_some_iff.mp hend
  simp only [Prod.mk.injEq] at hp
  exact ⟨p, hrun, hp.1, hp.2.1, hp.2.2,
    (lazy_registration (StepSystem.reachable_of_run ⟨_, _, _, rfl⟩ hrun)).1⟩

end Pixy.Poll
