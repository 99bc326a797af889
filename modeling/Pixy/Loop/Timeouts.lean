import Pixy.Loop.TimerHeap
import Pixy.Store.FullHeap

/-!
# Timeouts over all runs

The timer under any sequence of calls. What is pending is read off the log (`pending`), and the heap
holds exactly that.

* `pending_origin`: a pending timeout was set, and since then nothing has happened to it;
* `Genuine`: whatever was fired was pending and due;
* `timeouts_fire`: both over all runs, and what a tick does, whether it succeeds or not.

The clock is sampled by the calls that need it and given to them; nothing rests on its not going
back.
-/

namespace Pixy.Loop

open Pixy.Found Pixy.Poll Pixy.Store

variable {F : Type}

/-! ## What is pending -/

namespace TimerEvent

/-- The timeout that it happens to. -/
def timeout : TimerEvent F → NodeId
  | .set timeout _ _ _ => timeout
  | .clear timeout => timeout
  | .fire timeout _ _ => timeout

/-- What an event does to what is pending. -/
def apply (a : Timer F) : TimerEvent F → Timer F
  | .set timeout now delay call =>
    { timeouts := (a.without timeout).timeouts ++
        [⟨timeout, Timer.dueTime now delay, call.argument, call.function⟩] }
  | .clear timeout => a.without timeout
  | .fire timeout _ _ => a.without timeout

end TimerEvent

/-- The timeouts that were set and neither cleared nor fired since. -/
def pending (log : List (TimerEvent F)) : Timer F := log.foldl TimerEvent.apply .init

section Pending

variable {log : List (TimerEvent F)} {event : TimerEvent F} {u : Timeout F}

/-- What is pending after one more event is what that event makes of what was pending before. -/
theorem pending_append (log : List (TimerEvent F)) (event : TimerEvent F) :
    pending (log ++ [event]) = event.apply (pending log) := by
  simp [pending]

/-- Several timeouts are fired, and those still pending are the other ones. -/
theorem pending_fired (log : List (TimerEvent F)) (now : ℕ) (fired : List (Timeout F)) :
    (pending (log ++ fired.map fun u => .fire u.heapNode now u.call)).timeouts =
      (pending log).timeouts.filter fun u => u.heapNode ∉ fired.map (·.heapNode) := by
  induction fired generalizing log with
  | nil => simp
  | cons v fired ih =>
      have hsplit : log ++ (v :: fired).map (fun u => TimerEvent.fire u.heapNode now u.call) =
          log ++ [.fire v.heapNode now v.call] ++
            fired.map (fun u => TimerEvent.fire u.heapNode now u.call) := by simp
      rw [hsplit, ih, pending_append, TimerEvent.apply, Timer.without, List.filter_filter]
      refine List.filter_congr fun u _ => ?_
      by_cases hu : u.heapNode = v.heapNode <;> simp [hu]

/-- Taking out what is not there changes nothing, as no timeout has this node. -/
theorem without_of_not_mem {a : Timer F} {timeout : NodeId} (h : timeout ∉ a.nodes) :
    a.without timeout = a := by
  have hall : ∀ u ∈ a.timeouts, decide (u.heapNode ≠ timeout) = true := fun u hu => by
    simpa using fun heq => h (Timer.mem_nodes.mpr ⟨u, hu, heq⟩)
  rw [Timer.without, List.filter_eq_self.mpr hall]

/-- **Where a pending timeout comes from**: it was set, and nothing has happened to it since. -/
theorem pending_origin (hu : u ∈ (pending log).timeouts) :
    ∃ earlier setAt delay between,
      log = earlier ++ .set u.heapNode setAt delay u.call :: between ∧
      (∀ event ∈ between, event.timeout ≠ u.heapNode) ∧ u.dueTime = Timer.dueTime setAt delay := by
  induction log using List.reverseRecOn with
  | nil => cases hu
  | append_singleton log event ih =>
      -- an event that has to do with another timeout
      have hother : u ∈ (pending log).timeouts → event.timeout ≠ u.heapNode →
          ∃ earlier setAt delay between,
            log ++ [event] = earlier ++ .set u.heapNode setAt delay u.call :: between ∧
            (∀ event ∈ between, event.timeout ≠ u.heapNode) ∧
            u.dueTime = Timer.dueTime setAt delay := by
        intro hold hne
        obtain ⟨earlier, setAt, delay, between, rfl, hbetween, hdue⟩ := ih hold
        refine ⟨earlier, setAt, delay, between ++ [event], by simp, fun e he => ?_, hdue⟩
        rcases List.mem_append.mp he with he | he
        · exact hbetween e he
        · rw [List.mem_singleton.mp he]
          exact hne
      rw [pending_append] at hu
      cases event with
      | set timeout now delay call =>
          rcases List.mem_append.mp hu with hu | hu
          · obtain ⟨hold, hne⟩ := Timer.mem_without.mp hu
            exact hother hold (Ne.symm hne)
          · rw [List.mem_singleton.mp hu]
            exact ⟨log, now, delay, [], rfl, by simp, rfl⟩
      | clear timeout =>
          obtain ⟨hold, hne⟩ := Timer.mem_without.mp hu
          exact hother hold (Ne.symm hne)
      | fire timeout now call =>
          obtain ⟨hold, hne⟩ := Timer.mem_without.mp hu
          exact hother hold (Ne.symm hne)

end Pending

/-! ## What is fired -/

/-- **Whatever is fired was set before**, with a delay that is not negative and has passed, and with
this callback; and between the two nothing has happened to it. So a timeout that was set is fired at
most once, and not after it was cleared. -/
def Genuine (log : List (TimerEvent F)) : Prop :=
  ∀ before timeout now call after, log = before ++ .fire timeout now call :: after →
    ∃ earlier setAt delay between, before = earlier ++ .set timeout setAt delay call :: between ∧
      (∀ event ∈ between, event.timeout ≠ timeout) ∧ 0 ≤ delay ∧ setAt + delay.toNat ≤ now

/-- No due time is out of range. -/
def InRange (log : List (TimerEvent F)) : Prop :=
  ∀ timeout setAt delay call, .set timeout setAt delay call ∈ log → 0 ≤ delay →
    setAt + delay.toNat < 2 ^ 64 - 1

section Genuine

variable {log : List (TimerEvent F)} {event : TimerEvent F} {u : Timeout F}

/-- One more event, which is all right if it fires something. -/
theorem Genuine.append (h : Genuine log)
    (hevent : ∀ timeout now call, event = .fire timeout now call →
      ∃ earlier setAt delay between, log = earlier ++ .set timeout setAt delay call :: between ∧
        (∀ event ∈ between, event.timeout ≠ timeout) ∧ 0 ≤ delay ∧ setAt + delay.toNat ≤ now) :
    Genuine (log ++ [event]) := by
  intro before timeout now call after hsplit
  rcases List.eq_nil_or_concat' after with rfl | ⟨after, last, rfl⟩
  · obtain ⟨rfl, heq⟩ := List.append_inj' hsplit rfl
    exact hevent timeout now call (List.cons.inj heq).1
  · rw [← List.cons_append, ← List.append_assoc] at hsplit
    obtain ⟨rfl, -⟩ := List.append_inj' hsplit rfl
    exact h before timeout now call after rfl

/-- A due time that has come is that of a delay that has passed. -/
theorem due_of_dueTime {setAt now : ℕ} {delay : ℤ}
    (hrange : 0 ≤ delay → setAt + delay.toNat < 2 ^ 64 - 1) (hnow : now < 2 ^ 64 - 1)
    (hdue : Timer.dueTime setAt delay ≤ now) :
    0 ≤ delay ∧ setAt + delay.toNat ≤ now := by
  unfold Timer.dueTime at hdue
  split_ifs at hdue with hdelay
  · have hlt := hrange hdelay
    rw [Nat.mod_eq_of_lt (by omega)] at hdue
    exact ⟨hdelay, hdue⟩
  · omega

/-- **What is pending and due may be fired**: the log with this one event more is still one in which
nothing is fired but what was set and not cleared. -/
theorem Genuine.fire (h : Genuine log) (hrange : InRange log) {now : ℕ} (hnow : now < 2 ^ 64 - 1)
    (hu : u ∈ (pending log).timeouts) (hdue : u.dueTime ≤ now) :
    Genuine (log ++ [.fire u.heapNode now u.call]) := by
  apply h.append
  rintro timeout now call ⟨⟩
  obtain ⟨earlier, setAt, delay, between, rfl, hbetween, hset⟩ := pending_origin hu
  have hinrange : 0 ≤ delay → setAt + delay.toNat < 2 ^ 64 - 1 :=
    hrange u.heapNode setAt delay u.call (by simp)
  obtain ⟨hdelay, hpassed⟩ := due_of_dueTime hinrange hnow (hset ▸ hdue)
  exact ⟨earlier, setAt, delay, between, rfl, hbetween, hdelay, hpassed⟩

/-- The due times stay in range if the event that is added does not set one that is out of range. -/
theorem InRange.append (h : InRange log)
    (hevent : ∀ timeout setAt delay call, event = .set timeout setAt delay call → 0 ≤ delay →
      setAt + delay.toNat < 2 ^ 64 - 1) : InRange (log ++ [event]) := by
  intro timeout setAt delay call hin
  rcases List.mem_append.mp hin with hin | hin
  · exact h timeout setAt delay call hin
  · exact hevent timeout setAt delay call (List.mem_singleton.mp hin).symm

/-- Timeouts that are pending and due may be fired one after the other, by induction over them. -/
theorem Genuine.fireAll (h : Genuine log) (hrange : InRange log) {now : ℕ} (hnow : now < 2 ^ 64 - 1)
    {fired : List (Timeout F)} (hfired : ∀ u ∈ fired, u ∈ (pending log).timeouts ∧ u.dueTime ≤ now)
    (hnodup : (fired.map (·.heapNode)).Nodup) :
    Genuine (log ++ fired.map fun u => .fire u.heapNode now u.call) ∧
      InRange (log ++ fired.map fun u => .fire u.heapNode now u.call) := by
  induction fired generalizing log with
  | nil => simpa using ⟨h, hrange⟩
  | cons v fired ih =>
      obtain ⟨hv, hdue⟩ := hfired v List.mem_cons_self
      obtain ⟨hfresh, hrest⟩ := List.nodup_cons.mp hnodup
      have hstep := ih (h.fire hrange hnow hv hdue) (hrange.append (by simp)) (fun u hu => by
        rw [pending_append]
        refine ⟨Timer.mem_without.mpr ⟨(hfired u (List.mem_cons_of_mem v hu)).1, fun heq => ?_⟩,
          (hfired u (List.mem_cons_of_mem v hu)).2⟩
        have hin : u.heapNode ∈ fired.map (·.heapNode) := List.mem_map_of_mem hu
        rw [heq] at hin
        exact hfresh hin) hrest
      simpa using hstep

end Genuine

/-! ## The system -/

/-- One call of one of the three functions, with the clock and the outcome of its allocations. -/
inductive TimerAction (F : Type)
  /-- A call of `Timer_SetTimeout`. -/
  | setTimeout (timeout : NodeId) (delay : ℤ) (data : ℕ) (callback : F) (now : ℕ)
      (reallocated : Bool) (segment : Option (ℕ → NodeId))
  /-- A call of `Timer_ClearTimeout`. -/
  | clearTimeout (timeout : NodeId)
  /-- A call of `Timer_Tick`. -/
  | tick (now : ℕ) (memory : ℕ → Bool) (async : Async F)

namespace TimerAction

/-- What the callers see to: a timeout is set while it is not pending and cleared while it is; and
the times are below the greatest number. -/
def Allowed (t : HeapTimer F) : TimerAction F → Prop
  | setTimeout timeout delay _ _ now _ _ =>
      timeout ∉ (pending t.log).nodes ∧ (0 ≤ delay → now + delay.toNat < 2 ^ 64 - 1)
  | clearTimeout timeout => timeout ∈ (pending t.log).nodes
  | tick now _ _ => now < 2 ^ 64 - 1

instance (t : HeapTimer F) (action : TimerAction F) : Decidable (action.Allowed t) := by
  cases action <;> unfold Allowed <;> infer_instance

/-- No more than `2 ^ 30 + 1` timeouts are pending at a time; with more the heap loses its way. -/
def HasRoom (t : HeapTimer F) : TimerAction F → Prop
  | setTimeout .. => (pending t.log).timeouts.length ≤ 2 ^ 30
  | clearTimeout _ | tick .. => True

instance (t : HeapTimer F) (action : TimerAction F) : Decidable (action.HasRoom t) := by
  cases action <;> unfold HasRoom <;> infer_instance

/-- The call itself. -/
def perform (t : HeapTimer F) : TimerAction F → Option (HeapTimer F)
  | setTimeout timeout delay data callback now reallocated segment =>
    (t.setTimeout timeout delay data callback now reallocated segment).map (·.1)
  | clearTimeout timeout => t.clearTimeout timeout
  | tick now memory async => (t.tick now memory async).map (·.1)

end TimerAction

/-- **The timer under any sequence of calls.** -/
def timerSystem (F : Type) : StepSystem (HeapTimer F) (TimerAction F) where
  init t := ∃ slots slotNumber dueTime data callback,
    t = .init slots slotNumber dueTime data callback
  step t action := if action.Allowed t then action.perform t else none

/-- **The invariant.** -/
structure HeapTimer.Sound (t : HeapTimer F) : Prop where
  /-- The heap holds what is pending. -/
  represents : t.Represents (pending t.log)
  genuine : Genuine t.log
  inRange : InRange t.log

section Runs

variable {t t' : HeapTimer F}

/-- What a tick has fired. -/
structure HeapTimer.Fired (t : HeapTimer F) (now : ℕ) (async : Async F) (t' : HeapTimer F)
    (async' : Async F) (ok : Bool) (fired : List (Timeout F)) : Prop where
  /-- It is in the log. -/
  log : t'.log = t.log ++ fired.map fun u => .fire u.heapNode now u.call
  /-- The calls appended are exactly those of the timeouts fired. -/
  calls : async'.calls = async.calls ++ fired.map Timeout.call
  /-- These were pending and due, -/
  due : ∀ u ∈ fired, u ∈ (pending t.log).timeouts ∧ u.dueTime ≤ now
  /-- each once, -/
  once : (fired.map (·.heapNode)).Nodup
  /-- in the order of their due times. -/
  sorted : fired.Pairwise fun u v => u.dueTime ≤ v.dueTime
  /-- All others are left pending, -/
  left : (pending t'.log).timeouts =
    (pending t.log).timeouts.filter fun u => u.heapNode ∉ fired.map (·.heapNode)
  /-- and that is what the heap holds. -/
  represents : t'.Represents (pending t'.log)
  /-- If the tick succeeds, they are all that were due. -/
  all : ok = true → fired.Perm ((pending t.log).timeouts.filter fun u => u.dueTime ≤ now) ∧
    (pending t'.log).timeouts = (pending t.log).timeouts.filter fun u => now < u.dueTime

open HeapTimer

/-- **A tick** returns whatever memory does, and what it has fired was in the heap and due. -/
theorem HeapTimer.Sound.tick (h : t.Sound) (now : ℕ) (memory : ℕ → Bool) (async : Async F) :
    ∃ t' async' ok fired, t.tick now memory async = some (t', async', ok) ∧
      t.Fired now async t' async' ok fired := by
  obtain ⟨t', async', ok, fired, due, htick, hticked⟩ := h.represents.tick now memory async
  have hleft : (pending t'.log).timeouts =
      (pending t.log).timeouts.filter fun u => u.heapNode ∉ fired.map (·.heapNode) := by
    rw [hticked.log, pending_fired]
  obtain ⟨hmem, hnodup⟩ := hticked.pops.nodup h.represents.nodup
  have hsub := hticked.taken.sublist
  refine ⟨t', async', ok, fired, htick, hticked.log, hticked.calls, fun u hu => ?_,
    hnodup.sublist (hsub.map _), hticked.pops.2.sublist hsub, hleft, ?_, fun hok => ?_⟩
  · have hdue := hticked.pops.1.mem_iff.mp (hsub.subset hu)
    simpa using hdue
  · have hsame : pending t'.log =
        ⟨(pending t.log).timeouts.filter fun u => u.heapNode ∉ fired.map (·.heapNode)⟩ := by
      rw [← hleft]
    rw [hsame]
    exact hticked.represents
  · have hfired := hticked.all hok
    refine ⟨hfired ▸ hticked.pops.1, ?_⟩
    rw [hleft]
    refine List.filter_congr fun u hu => ?_
    -- a pending timeout was fired if and only if it was due
    have hiff : u.heapNode ∈ fired.map (·.heapNode) ↔ u.dueTime ≤ now := by
      rw [hfired, List.mem_map]
      constructor
      · rintro ⟨v, hv, hnode⟩
        have hvu := Timer.unique h.represents.nodup (hmem v hv) hu hnode
        exact hvu ▸ (by simpa using (List.mem_filter.mp (hticked.pops.1.mem_iff.mp hv)).2)
      · intro hdue
        exact ⟨u, hticked.pops.1.mem_iff.mpr (List.mem_filter.mpr ⟨hu, by simpa using hdue⟩), rfl⟩
    simp only [hiff, not_le]

/-- **Every call that may be made returns and keeps the invariant.** -/
theorem HeapTimer.Sound.perform (h : t.Sound) {action : TimerAction F} (hallowed : action.Allowed t)
    (hroom : action.HasRoom t) : ∃ t', action.perform t = some t' ∧ t'.Sound := by
  cases action with
  | setTimeout timeout delay data callback now reallocated segment =>
      obtain ⟨hnew, hrange⟩ := hallowed
      obtain ⟨t', ok, hset, hrepresents, hlog⟩ :=
        h.represents.setTimeout hnew hroom delay data callback now reallocated segment
      refine ⟨t', by simp [TimerAction.perform, hset], ?_⟩
      rcases ok with _ | _
      · have hsame : t'.log = t.log := hlog
        refine ⟨?_, hsame ▸ h.genuine, hsame ▸ h.inRange⟩
        rw [hsame]
        exact hrepresents
      · have happend : t'.log = t.log ++ [.set timeout now delay ⟨callback, data⟩] := hlog
        refine ⟨?_, ?_, ?_⟩
        · rw [happend, pending_append, TimerEvent.apply, without_of_not_mem hnew]
          exact hrepresents
        · rw [happend]
          apply h.genuine.append
          simp
        · rw [happend]
          apply h.inRange.append
          rintro timeout setAt delay call ⟨⟩
          exact hrange
  | clearTimeout timeout =>
      obtain ⟨t', hclear, hrepresents, -, hlog⟩ := h.represents.clearTimeout hallowed
      refine ⟨t', hclear, ?_, ?_, ?_⟩
      · rw [hlog, pending_append]
        exact hrepresents
      · rw [hlog]
        apply h.genuine.append
        simp
      · rw [hlog]
        apply h.inRange.append
        simp
  | tick now memory async =>
      obtain ⟨t', async', ok, fired, htick, hfired⟩ := h.tick now memory async
      obtain ⟨hgenuine, hinRange⟩ :=
        h.genuine.fireAll h.inRange hallowed hfired.due hfired.once
      refine ⟨t', by simp [TimerAction.perform, htick], hfired.represents, ?_, ?_⟩
      · rw [hfired.log]
        exact hgenuine
      · rw [hfired.log]
        exact hinRange

/-- **The invariant over all runs** whose settings find room: the heap holds what is pending
according to the log. -/
theorem HeapTimer.sound_of_reachable
    (h : (timerSystem F).ReachableWhen (fun t a => a.HasRoom t) t) : t.Sound := by
  refine StepSystem.ReachableWhen.induct ?_ ?_ h
  · rintro t ⟨slots, slotNumber, dueTime, data, callback, rfl⟩
    refine ⟨Represents.init slots slotNumber dueTime data callback, ?_, ?_⟩
    · simp [Genuine, HeapTimer.init]
    · simp [InRange, HeapTimer.init]
  · intro t action t' _ hsound hroom hstep
    simp only [timerSystem, Option.ite_none_right_eq_some] at hstep
    obtain ⟨t₁, hperform, hsound'⟩ := hsound.perform hstep.1 hroom
    obtain rfl : t₁ = t' := Option.some.inj (hperform.symm.trans hstep.2)
    exact hsound'

/-- **Timeouts fire once, not early, in order, and none is lost.** In every state reached with no
more than `2 ^ 30 + 1` timeouts pending at a time, whatever has been fired was set, was due, and had
neither been cleared nor fired before; every call that may be made returns; and a tick fires what
`Fired` says: if it succeeds, all that is due, and if it fails, what it has appended and nothing
else. -/
theorem timeouts_fire (h : (timerSystem F).ReachableWhen (fun t a => a.HasRoom t) t) :
    Genuine t.log ∧ t.Represents (pending t.log) ∧
    (∀ action : TimerAction F, action.Allowed t → action.HasRoom t → (action.perform t).isSome) ∧
    ∀ now memory async, ∃ t' async' ok fired, t.tick now memory async = some (t', async', ok) ∧
      t.Fired now async t' async' ok fired := by
  have hsound := HeapTimer.sound_of_reachable h
  refine ⟨hsound.genuine, hsound.represents, fun action hallowed hroom => ?_, hsound.tick⟩
  obtain ⟨t', hperform, -⟩ := hsound.perform hallowed hroom
  simp [hperform]

end Runs

/-- A timeout cannot be set at first; two of four are due at the same time, one never, and one is
fired, set again and cleared; the second tick can collect one call only. -/
def memoryShort : List (TimerAction ℕ) :=
  [.setTimeout 1 5 70 7 100 true none, .setTimeout 1 5 70 7 100 true (some fun _ => 0),
    .setTimeout 2 (-1) 71 7 100 true none, .setTimeout 3 2 72 8 103 true none,
    .setTimeout 4 1 73 9 103 true none, .tick 104 (fun _ => true) .init,
    .setTimeout 4 9 73 9 104 true none, .clearTimeout 4, .tick 105 (fun length => length = 0) .init]

/-- A run in which memory runs out while a timeout is set and while the due ones are collected: what
is fired was due, and nothing that failed is fired. -/
theorem timeouts_fire_memoryShort :
    ∃ t t' async' fired, ((timerSystem ℕ).guarded fun t a => a.HasRoom t).run
        (.init (fun _ => 0) (fun _ => 0) (fun _ => 0) (fun _ => 0) fun _ => 0) memoryShort =
          some t ∧
      t.tick 105 (fun _ => true) .init = some (t', async', true) ∧ async'.calls = [⟨8, 72⟩] ∧
      Genuine t.log ∧ t.Fired 105 .init t' async' true fired := by
  have hend : (((timerSystem ℕ).guarded fun t a => a.HasRoom t).run
      (.init (fun _ => 0) (fun _ => 0) (fun _ => 0) (fun _ => 0) fun _ => 0) memoryShort).bind
        (fun t => (t.tick 105 (fun _ => true) .init).map fun done => (done.2.2, done.2.1.calls)) =
      some (true, [⟨8, 72⟩]) := by decide +kernel
  simp only [Option.bind_eq_some_iff, Option.map_eq_some_iff, Prod.mk.injEq] at hend
  obtain ⟨t, hrun, ⟨t', async', ok⟩, htick, rfl, hcalls⟩ := hend
  obtain ⟨hgenuine, -, -, hfires⟩ :=
    timeouts_fire (StepSystem.reachableWhen_of_run ⟨_, _, _, _, _, rfl⟩ hrun)
  obtain ⟨t₁, async₁, ok₁, fired, htick₁, hfired⟩ := hfires 105 (fun _ => true) .init
  obtain ⟨rfl, rfl, rfl⟩ : t₁ = t' ∧ async₁ = async' ∧ ok₁ = true := by
    simpa using htick₁.symm.trans htick
  exact ⟨t, t₁, async₁, fired, hrun, htick, hcalls, hgenuine, hfired⟩

/-! ## With too many pending -/

/-- The delays of the timeouts below: all none but for those of the last slots. -/
def lateDelay (i : ℕ) : ℕ :=
  if i = 2 ^ 30 - 1 then 2 else if i = 2 ^ 30 then 1 else if i = 2 ^ 30 + 1 then 3 else 0

/-- The setting of the timeout at address `i`, at time zero. -/
def setLate (i : ℕ) : TimerAction ℕ :=
  .setTimeout i (lateDelay i) 0 0 0 true (some fun _ => 0)

/-- All delays below are short, so no due time comes near the end of the clock. -/
theorem lateDelay_le (i : ℕ) : lateDelay i ≤ 3 := by
  unfold lateDelay
  split_ifs <;> omega

/-- Every parent among them has no delay, as only the last slots of so many have one. -/
theorem lateDelay_parent {n : ℕ} (hn : n ≤ 2 ^ 30 + 1) (hpos : 0 < n) :
    lateDelay (parent n) = 0 := by
  unfold lateDelay parent
  split_ifs <;> omega

namespace HeapTimer

variable {F : Type} {t : HeapTimer F} {first n : ℕ}

/-- **One more** timeout goes to the next slot of the heap and stays there, as it is not before its
parent. -/
theorem setTimeout_late (h : t.timeoutHeap.Appended first n lateDelay) (hn : n ≤ 2 ^ 30 + 1)
    (data : ℕ) (callback : F) :
    ∃ t',
      t.setTimeout (n + first) (lateDelay n) data callback 0 true (some fun _ => 0) =
        some (t', true) ∧
      t'.timeoutHeap.Appended first (n + 1) lateDelay ∧
      t'.log = t.log ++ [.set (n + first) 0 (lateDelay n) ⟨callback, data⟩] := by
  have hle := lateDelay_le n
  have hdue : Timer.dueTime 0 (lateDelay n : ℤ) = lateDelay n := by
    rw [Timer.dueTime, if_pos (Int.natCast_nonneg _)]
    omega
  let heap : Heap ℕ := { t.timeoutHeap with
    key := Function.update t.timeoutHeap.key (n + first) (Timer.dueTime 0 (lateDelay n : ℤ)) }
  have happended : heap.Appended first n lateDelay := h.setKey _
  have hkey : heap.key (n + first) = lateDelay n := by simp [heap, hdue]
  have hparent : 0 < n → 0 ≤ timeoutHeapNodeCompare (lateDelay n) (lateDelay (parent n)) := by
    intro hpos
    rw [lateDelay_parent hn hpos]
    exact not_lt.mp (not_dueTime_lt.mpr (Nat.zero_le _))
  obtain ⟨next, hinsert, hnext⟩ := happended.insertNode hn hkey hparent fun _ => 0
  refine ⟨⟨next, Function.update t.data (n + first) data,
    Function.update t.callback (n + first) callback,
    t.log ++ [.set (n + first) 0 (lateDelay n) ⟨callback, data⟩]⟩, ?_, hnext, rfl⟩
  unfold HeapTimer.setTimeout
  show (heap.insertNode timeoutHeapNodeCompare (n + first) true (some fun _ => 0)).bind _ = _
  rw [hinsert]
  rfl

/-- **The first of `2 ^ 30 + 2`** cannot be taken out. -/
theorem removeNode_late (h : t.timeoutHeap.Appended first (2 ^ 30 + 2) lateDelay) :
    t.timeoutHeap.removeNode timeoutHeapNodeCompare first = none := by
  apply h.removeNode_stuck
  · intro j hpos hj
    have hle : 2 ^ j ≤ 2 ^ 29 := Nat.pow_le_pow_right (by omega) (by omega)
    have hzero : lateDelay (2 ^ j - 1) = 0 := by
      unfold lateDelay
      split_ifs <;> omega
    rw [hzero]
    exact not_dueTime_lt.mpr (Nat.zero_le _)
  · simp [lateDelay, timeoutHeapNodeCompare]
  · intro i hi
    have hle : lateDelay i ≤ 2 := by
      unfold lateDelay
      split_ifs <;> omega
    have hlast : lateDelay (2 ^ 30 + 1) = 3 := by simp [lateDelay]
    rw [hlast, timeoutHeapNodeCompare, if_pos (by omega), if_neg (by omega)]
    omega

end HeapTimer

/-- The timeouts `0 … n - 1` are pending, in the slots with their numbers. -/
structure Late (t : HeapTimer ℕ) (n : ℕ) : Prop where
  appended : t.timeoutHeap.Appended 0 n lateDelay
  below : ∀ timeout ∈ (pending t.log).nodes, timeout < n

/-- One more timeout is set, and the heap has one slot more that is filled in the order of setting.
-/
theorem Late.set {t : HeapTimer ℕ} {n : ℕ} (h : Late t n) (hn : n ≤ 2 ^ 30 + 1) :
    ∃ t', (timerSystem ℕ).step t (setLate n) = some t' ∧ Late t' (n + 1) := by
  have hle := lateDelay_le n
  have hnew : n ∉ (pending t.log).nodes := fun hin => Nat.lt_irrefl n (h.below n hin)
  have hallowed : (setLate n).Allowed t := by
    refine ⟨hnew, fun _ => ?_⟩
    show 0 + (lateDelay n : ℤ).toNat < 2 ^ 64 - 1
    omega
  obtain ⟨t', hset, hnext, hlog⟩ := HeapTimer.setTimeout_late h.appended hn 0 0
  refine ⟨t', ?_, hnext, fun timeout hin => ?_⟩
  · show (if (setLate n).Allowed t then (setLate n).perform t else none) = _
    rw [if_pos hallowed, setLate, TimerAction.perform]
    exact Option.map_eq_some_iff.mpr ⟨_, hset, rfl⟩
  · rw [hlog, pending_append] at hin
    obtain ⟨u, hu, rfl⟩ := Timer.mem_nodes.mp hin
    rcases List.mem_append.mp hu with hu | hu
    · have hold := h.below u.heapNode (Timer.mem_nodes.mpr ⟨u, (Timer.mem_without.mp hu).1, rfl⟩)
      exact Nat.lt_succ_of_lt hold
    · rw [List.mem_singleton.mp hu]
      exact Nat.lt_succ_self n

/-- The settings of the first `n` timeouts make a run, by induction over `n`. -/
theorem late_of_run (n : ℕ) (hn : n ≤ 2 ^ 30 + 2) :
    ∃ t, (timerSystem ℕ).run
        (.init (fun _ => 0) (fun _ => 0) (fun _ => 0) (fun _ => 0) fun _ => 0)
        ((List.range n).map setLate) = some t ∧ Late t n := by
  induction n with
  | zero =>
      have hcorrect : Heap.Correct timeoutHeapNodeCompare _ ∅ :=
        init_correct (fun _ => 0) (fun _ => 0) fun _ => 0
      refine ⟨_, rfl, ⟨hcorrect.shaped, ?_, ?_, ?_⟩, ?_⟩
      · intro i hi
        cases hi
      · intro i hi
        cases hi
      · intro i hi
        cases hi
      · intro timeout hin
        cases hin
  | succ n ih =>
      obtain ⟨t, hrun, hlate⟩ := ih (by omega)
      obtain ⟨t', hstep, hlate'⟩ := hlate.set (by omega)
      refine ⟨t', ?_, hlate'⟩
      rw [List.range_succ, List.map_append, List.map_singleton, StepSystem.run_append, hrun,
        Option.bind_some, hstep]

/-- **With `2 ^ 30 + 2` timeouts pending** a tick reads outside the heap when it takes out the
first. -/
theorem not_timeouts_fire_tooMany :
    ∃ t, (timerSystem ℕ).run
        (.init (fun _ => 0) (fun _ => 0) (fun _ => 0) (fun _ => 0) fun _ => 0)
        ((List.range (2 ^ 30 + 2)).map setLate) = some t ∧
      (TimerAction.tick 0 (fun _ => true) .init).Allowed t ∧
      t.tick 0 (fun _ => true) .init = none := by
  obtain ⟨t, hrun, hlate⟩ := late_of_run (2 ^ 30 + 2) le_rfl
  have hnodes := hlate.appended.shaped.nodes
  have htop : t.timeoutHeap.getTop = some 0 := by
    have hfirst : t.timeoutHeap.slots (0, 0) = 0 := hlate.appended.nodeAt 0 (by omega)
    rw [Heap.getTop, if_neg (by omega), hfirst]
  have hdue : ¬t.timeoutHeap.key 0 > 0 := by
    rw [hlate.appended.key 0 (by omega)]
    simp [lateDelay]
  have hremove : t.timeoutHeap.removeNode timeoutHeapNodeCompare 0 = none :=
    HeapTimer.removeNode_late hlate.appended
  obtain ⟨fuel, hfuel⟩ : ∃ fuel, t.timeoutHeap.numberOfNodes.toNat = fuel + 1 :=
    ⟨2 ^ 30 + 1, by omega⟩
  have hadd := Async.addCall_of_memory .init (t.callback 0) (t.data 0)
  refine ⟨t, hrun, (by decide : 0 < 2 ^ 64 - 1), ?_⟩
  rw [HeapTimer.tick, htop]
  simp only [hfuel, HeapTimer.tickLoop, if_neg hdue]
  rcases hcall : Async.init.addCall (t.callback 0) (t.data 0) true with ⟨async, ok⟩
  rw [hcall] at hadd
  subst hadd
  simp only [hremove, Option.bind_eq_bind, Option.bind_none]

end Pixy.Loop
