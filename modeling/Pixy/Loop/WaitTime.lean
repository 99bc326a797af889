import Pixy.Loop.Timeouts

/-!
# How long to wait

`Timer_CalculateWaitTime` in every state of a timer whose clock does not go back (`clockedSystem`).
The delays are `int`s, and the times and due times stay below the greatest number.

* `HeapTimer.Holds` is kept by every call that returns, with any number of timeouts
  (`ClockedTimer.Sound.step`);
* `Pends` says of a log that a timeout was set and nothing has happened to it since;
* `calculateWaitTime_exact`: the time to wait is the time to the first of those that have a delay.
-/

namespace Pixy.Loop

open Pixy.Found Pixy.Poll Pixy.Store

variable {F : Type}

/-- `now` is what `GetTime` would give. Source: `Timer.c`, `Timer_CalculateWaitTime`. -/
def HeapTimer.calculateWaitTime (self : HeapTimer F) (now : ℕ) : ℤ :=
  match self.timeoutHeap.getTop with
  | none => -1
  | some timeoutHeapNode =>
    let dueTime := self.timeoutHeap.key timeoutHeapNode
    if dueTime = 2 ^ 64 - 1 then -1
    else if dueTime ≤ now then 0
    else toInt ((dueTime - now) % 2 ^ 64)

/-! ## The clock -/

/-- A timer and the latest time that was read. -/
structure ClockedTimer (F : Type) where
  /-- The timer. -/
  timer : HeapTimer F
  /-- The time. -/
  clock : ℕ

namespace TimerAction

/-- The time that a call reads, if any. -/
def time (clock : ℕ) : TimerAction F → ℕ
  | setTimeout _ _ _ _ now _ _ => now
  | clearTimeout _ => clock
  | tick now _ _ => now

/-- The clock does not go back, and a delay is an `int`. -/
def Timely (clock : ℕ) (action : TimerAction F) : Prop :=
  clock ≤ action.time clock ∧
    match action with
    | setTimeout _ delay _ _ _ _ _ => -2 ^ 31 ≤ delay ∧ delay < 2 ^ 31
    | clearTimeout _ | tick .. => True

instance (clock : ℕ) : (action : TimerAction F) → Decidable (action.Timely clock)
  | .setTimeout _ delay _ _ now _ _ =>
    inferInstanceAs (Decidable (clock ≤ now ∧ -2 ^ 31 ≤ delay ∧ delay < 2 ^ 31))
  | .clearTimeout _ => inferInstanceAs (Decidable (clock ≤ clock ∧ True))
  | .tick now _ _ => inferInstanceAs (Decidable (clock ≤ now ∧ True))

end TimerAction

/-- **The timer under any sequence of calls and a clock.** A call that would count more slots than
an `int` can has no meaning. -/
def clockedSystem (F : Type) : StepSystem (ClockedTimer F) (TimerAction F) where
  init s := (timerSystem F).init s.timer
  step s action :=
    if action.Allowed s.timer ∧ action.Timely s.clock then
      (action.perform s.timer).bind fun timer =>
        if timer.timeoutHeap.numberOfSlots < 2 ^ 31 then some ⟨timer, action.time s.clock⟩ else none
    else none

/-! ## What the heap holds -/

/-- **A tick that returns** has taken out of the heap what it fired. -/
theorem HeapTimer.Holds.of_tick {t t' : HeapTimer F} (h : t.Holds (pending t.log)) {now : ℕ}
    {memory : ℕ → Bool} {async async' : Async F} {ok : Bool}
    (hrun : t.tick now memory async = some (t', async', ok)) :
    (∃ fired : List (Timeout F), t'.log = t.log ++
      fired.map (fun u => .fire u.heapNode now u.call)) ∧
      t'.Holds (pending t'.log) := by
  obtain ⟨fired, htook⟩ := h.tick hrun
  have hleft : pending t'.log =
      ⟨(pending t.log).timeouts.filter fun u => u.heapNode ∉ fired.map (·.heapNode)⟩ := by
    rw [htook.log, ← pending_fired]
  rw [hleft]
  exact ⟨⟨fired, htook.log⟩, htook.holds⟩

/-! ## The invariant -/

/-- Every timeout was set by the clock, with a delay that is an `int`. -/
def SetBy (clock : ℕ) (log : List (TimerEvent F)) : Prop :=
  ∀ timeout setAt delay call, .set timeout setAt delay call ∈ log →
    setAt ≤ clock ∧ delay < 2 ^ 31 ∧ (0 ≤ delay → setAt + delay.toNat < 2 ^ 64 - 1)

/-- What was set by one time was set by any later one. -/
theorem SetBy.mono {clock clock' : ℕ} {log : List (TimerEvent F)} (h : SetBy clock log)
    (hle : clock ≤ clock') : SetBy clock' log := by
  intro timeout setAt delay call hin
  obtain ⟨hset, hdelay⟩ := h timeout setAt delay call hin
  exact ⟨hset.trans hle, hdelay⟩

/-- Events that were all made up to a time may follow others that were, so the whole log was. -/
theorem SetBy.append {clock : ℕ} {log events : List (TimerEvent F)} (h : SetBy clock log)
    (hevents : SetBy clock events) : SetBy clock (log ++ events) := by
  intro timeout setAt delay call hin
  rcases List.mem_append.mp hin with hin | hin
  · exact h timeout setAt delay call hin
  · exact hevents timeout setAt delay call hin

namespace ClockedTimer

variable {s next : ClockedTimer F}

/-- **The invariant.** -/
structure Sound (s : ClockedTimer F) : Prop where
  /-- The heap holds what is pending. -/
  holds : s.timer.Holds (pending s.timer.log)
  /-- That was set by now. -/
  setBy : SetBy s.clock s.timer.log

/-- Every call of the timer keeps it sound: the heap represents what is pending, and nothing is set
in the future. -/
theorem Sound.step (h : s.Sound) {action : TimerAction F}
    (hstep : (clockedSystem F).step s action = some next) : next.Sound := by
  simp only [clockedSystem, Option.ite_none_right_eq_some, Option.bind_eq_some_iff] at hstep
  obtain ⟨⟨hallowed, hclock, hint⟩, timer, hperform, hslots, hstep⟩ := hstep
  obtain rfl := Option.some.inj hstep
  have hbefore := h.setBy.mono hclock
  cases action with
  | setTimeout timeout delay data callback now reallocated segment =>
      obtain ⟨hnew, hrange⟩ := hallowed
      obtain ⟨⟨timer', ok⟩, hset, rfl⟩ := Option.map_eq_some_iff.mp hperform
      obtain ⟨hholds, hlog⟩ := h.holds.of_setTimeout hnew hset hslots
      dsimp only at hlog hholds ⊢
      rcases ok with _ | _
      · rw [if_neg (by decide)] at hlog
        refine ⟨?_, ?_⟩
        · rw [hlog]
          exact hholds
        · rw [hlog]
          exact hbefore
      · rw [if_pos rfl] at hlog
        refine ⟨?_, ?_⟩
        · rw [hlog, pending_append, TimerEvent.apply, without_of_not_mem hnew]
          exact hholds
        · rw [hlog]
          apply hbefore.append
          intro timeout' setAt delay' call hin
          cases List.mem_singleton.mp hin
          exact ⟨le_rfl, hint.2, hrange⟩
  | clearTimeout timeout =>
      obtain ⟨heap, hremove, heq⟩ := Option.bind_eq_some_iff.mp hperform
      obtain rfl := Option.some.inj heq
      refine ⟨?_, hbefore.append fun timeout' setAt delay call hin => by simp at hin⟩
      have hholds := h.holds.of_remove hallowed hremove (s.timer.log ++ [.clear timeout])
      rw [pending_append]
      exact hholds
  | tick now memory async =>
      obtain ⟨⟨timer', async', ok⟩, htick, rfl⟩ := Option.map_eq_some_iff.mp hperform
      obtain ⟨⟨fired, hlog⟩, hholds⟩ := h.holds.of_tick htick
      refine ⟨hholds, ?_⟩
      show SetBy now timer'.log
      rw [hlog]
      exact hbefore.append fun timeout' setAt delay call hin => by simp at hin

/-- The timer is sound in every state that a run with a clock that does not go back can reach. -/
theorem sound_of_reachable (h : (clockedSystem F).Reachable s) : s.Sound := by
  refine h.induct (I := Sound) ?_ fun s action next _ hs _ hstep => hs.step hstep
  rintro ⟨timer, clock⟩ ⟨slots, slotNumber, dueTime, data, callback, rfl⟩
  refine ⟨(HeapTimer.Represents.init slots slotNumber dueTime data callback).holds, ?_⟩
  intro timeout setAt delay call hin
  cases hin

end ClockedTimer

/-! ## What is pending -/

/-- **A timeout pends**: it was set then and with that delay, and nothing has happened to it
since. -/
def Pends (log : List (TimerEvent F)) (timeout : NodeId) (setAt : ℕ) (delay : ℤ) : Prop :=
  ∃ earlier call between, log = earlier ++ .set timeout setAt delay call :: between ∧
    ∀ event ∈ between, event.timeout ≠ timeout

/-- What pends according to the log is one of the pending timeouts, with the due time that it was
given when it was set. -/
theorem Pends.mem {log : List (TimerEvent F)} {timeout : NodeId} {setAt : ℕ} {delay : ℤ}
    (h : Pends log timeout setAt delay) :
    ∃ u ∈ (pending log).timeouts, u.heapNode = timeout ∧ u.dueTime = Timer.dueTime setAt delay := by
  obtain ⟨earlier, call, between, rfl, hbetween⟩ := h
  induction between using List.reverseRecOn with
  | nil =>
      rw [pending_append]
      exact ⟨⟨timeout, _, _, _⟩, List.mem_append_right _ (List.mem_singleton.mpr rfl), rfl, rfl⟩
  | append_singleton between event ih =>
      obtain ⟨u, hu, rfl, hdue⟩ := ih fun event' hin => hbetween event' (List.mem_append_left _ hin)
      have hother : event.timeout ≠ u.heapNode := hbetween event (by simp)
      have hwithout : u ∈
        ((pending (earlier ++ .set u.heapNode setAt delay call :: between)).without
          event.timeout).timeouts := Timer.mem_without.mpr ⟨hu, hother.symm⟩
      refine ⟨u, ?_, rfl, hdue⟩
      rw [← List.cons_append, ← List.append_assoc, pending_append]
      cases event with
      | set timeout now delay' call' => exact List.mem_append_left _ hwithout
      | clear timeout => exact hwithout
      | fire timeout now call' => exact hwithout

/-- The due times of the timeouts that pend and have a delay. -/
def dueTimes (log : List (TimerEvent F)) : Set ℕ :=
  {d | ∃ timeout setAt delay, Pends log timeout setAt delay ∧ 0 ≤ delay ∧ d = setAt + delay.toNat}

namespace ClockedTimer

variable {s : ClockedTimer F} {u : Timeout F}

/-- **Where a due time comes from**: it is that of a delay, or none was given. -/
theorem Sound.dueTime (h : s.Sound) (hu : u ∈ (pending s.timer.log).timeouts) :
    (u.dueTime ∈ dueTimes s.timer.log ∧ u.dueTime < 2 ^ 64 - 1 ∧ u.dueTime < s.clock + 2 ^ 31) ∨
      u.dueTime = 2 ^ 64 - 1 := by
  obtain ⟨earlier, setAt, delay, between, hlog, hbetween, hdue⟩ := pending_origin hu
  obtain ⟨hclock, hint, hrange⟩ := h.setBy u.heapNode setAt delay u.call (by rw [hlog]; simp)
  rw [hdue, Timer.dueTime]
  split_ifs with hdelay
  · have hless := hrange hdelay
    rw [Nat.mod_eq_of_lt (by omega)]
    refine .inl ⟨⟨u.heapNode, setAt, delay, ⟨earlier, u.call, between, hlog, hbetween⟩,
      hdelay, rfl⟩, hless, ?_⟩
    omega
  · exact .inr rfl

/-- A due time that the log tells of is that of something pending, and it fits into the type of a
time. -/
theorem Sound.mem_of_dueTimes (h : s.Sound) {d : ℕ} (hd : d ∈ dueTimes s.timer.log) :
    d < 2 ^ 64 - 1 ∧ ∃ u ∈ (pending s.timer.log).timeouts, u.dueTime = d := by
  obtain ⟨timeout, setAt, delay, hpends, hdelay, rfl⟩ := hd
  obtain ⟨u, hu, -, hdue⟩ := hpends.mem
  obtain ⟨earlier, call, between, hlog, -⟩ := hpends
  obtain ⟨-, -, hrange⟩ := h.setBy timeout setAt delay call (by rw [hlog]; simp)
  have hless := hrange hdelay
  refine ⟨hless, u, hu, ?_⟩
  rw [hdue, Timer.dueTime, if_pos hdelay, Nat.mod_eq_of_lt (by omega)]

end ClockedTimer

/-- **The time to wait is exact.** In every state of a timer whose clock does not go back, there is
nothing to wait for if and only if no timeout with a delay pends; and otherwise the time to wait is
what is left of the first due time, a number that an `int` has, or zero. -/
theorem calculateWaitTime_exact {s : ClockedTimer F} (h : (clockedSystem F).Reachable s) {now : ℕ}
    (hclock : s.clock ≤ now) :
    (s.timer.calculateWaitTime now = -1 ↔ dueTimes s.timer.log = ∅) ∧
      ∀ d, IsLeast (dueTimes s.timer.log) d →
        (d ≤ now → s.timer.calculateWaitTime now = 0) ∧
        (now < d → s.timer.calculateWaitTime now = (d : ℤ) - now ∧
          1 ≤ (d : ℤ) - now ∧ (d : ℤ) - now ≤ 2 ^ 31 - 1) := by
  have hsound := ClockedTimer.sound_of_reachable h
  rw [HeapTimer.calculateWaitTime]
  obtain ⟨htop, hempty⟩ | ⟨u, hu, htop, hfirst⟩ := hsound.holds.getTop
  · -- the heap is empty
    have hnone : ∀ d, d ∉ dueTimes s.timer.log := by
      intro d hd
      obtain ⟨-, u, hu, -⟩ := hsound.mem_of_dueTimes hd
      rw [hempty] at hu
      cases hu
    rw [htop]
    refine ⟨⟨fun _ => Set.eq_empty_of_forall_notMem hnone, fun _ => rfl⟩, fun d hleast => ?_⟩
    exact absurd hleast.1 (hnone d)
  · have hkey := (hsound.holds.contents u hu).1
    have hlower : ∀ d ∈ dueTimes s.timer.log, u.dueTime ≤ d := by
      intro d hd
      obtain ⟨-, v, hv, rfl⟩ := hsound.mem_of_dueTimes hd
      exact hfirst v hv
    simp only [htop, hkey]
    rcases hsound.dueTime hu with ⟨hin, hless, hsoon⟩ | hnever
    · -- the first timeout has a delay
      have hne : dueTimes s.timer.log ≠ ∅ := Set.nonempty_iff_ne_empty.mp ⟨_, hin⟩
      rw [if_neg hless.ne]
      split_ifs with hdue
      · refine ⟨⟨False.elim, fun heq => absurd heq hne⟩, fun d hleast => ?_⟩
        obtain rfl := hleast.unique ⟨hin, hlower⟩
        exact ⟨fun _ => rfl, fun hlater => absurd hlater (not_lt.mpr hdue)⟩
      · have hwait : toInt ((u.dueTime - now) % 2 ^ 64) = (u.dueTime : ℤ) - now := by
          rw [Nat.mod_eq_of_lt (by omega), toInt_natCast (by omega)]
          omega
        rw [hwait]
        refine ⟨⟨fun heq => by omega, fun heq => absurd heq hne⟩, fun d hleast => ?_⟩
        obtain rfl := hleast.unique ⟨hin, hlower⟩
        refine ⟨fun hle => absurd hle hdue, fun _ => ⟨rfl, ?_, ?_⟩⟩
        · omega
        · omega
    · -- the first timeout has none, so that nothing has
      have hnone : ∀ d, d ∉ dueTimes s.timer.log := by
        intro d hd
        have hle := hlower d hd
        have hless := (hsound.mem_of_dueTimes hd).1
        omega
      rw [if_pos hnever]
      refine ⟨⟨fun _ => Set.eq_empty_of_forall_notMem hnone, fun _ => rfl⟩, fun d hleast => ?_⟩
      exact absurd hleast.1 (hnone d)

/-- One timeout never ends, one was cleared, one was fired, and the fourth ends after the longest
delay that there is. -/
def longest : List (TimerAction ℕ) :=
  [.setTimeout 1 (-1) 70 7 100 true (some fun _ => 0), .setTimeout 2 5 71 7 100 true none,
    .setTimeout 3 3 72 8 101 true none, .clearTimeout 2, .tick 104 (fun _ => true) .init,
    .setTimeout 4 (2 ^ 31 - 1) 73 9 105 true none]

/-- Of four timeouts only the one with the longest delay there is can still fire, and the wait time
is just that delay, the largest number an `int` holds. -/
theorem calculateWaitTime_exact_longest :
    ∃ s, (clockedSystem ℕ).run
        ⟨.init (fun _ => 0) (fun _ => 0) (fun _ => 0) (fun _ => 0) fun _ => 0, 100⟩ longest =
          some s ∧
      s.timer.calculateWaitTime 105 = 2 ^ 31 - 1 ∧ dueTimes s.timer.log ≠ ∅ ∧
      ∀ d, IsLeast (dueTimes s.timer.log) d → d = 105 + (2 ^ 31 - 1) := by
  have hend : ((clockedSystem ℕ).run
      ⟨.init (fun _ => 0) (fun _ => 0) (fun _ => 0) (fun _ => 0) fun _ => 0, 100⟩ longest).map
        (fun s => (s.clock, s.timer.calculateWaitTime 105)) = some (105, 2 ^ 31 - 1) := by
    decide +kernel
  simp only [Option.map_eq_some_iff, Prod.mk.injEq] at hend
  obtain ⟨s, hrun, hclock, hwait⟩ := hend
  have hreach : (clockedSystem ℕ).Reachable s :=
    StepSystem.reachable_of_run (show (timerSystem ℕ).init _ from ⟨_, _, _, _, _, rfl⟩) hrun
  obtain ⟨hnever, hexact⟩ := calculateWaitTime_exact hreach hclock.le
  refine ⟨s, hrun, hwait, fun hempty => ?_, fun d hleast => ?_⟩
  · have heq := hwait.symm.trans (hnever.mpr hempty)
    omega
  · obtain ⟨hpast, hfuture⟩ := hexact d hleast
    rcases le_or_gt d 105 with hle | hlt
    · have heq := hwait.symm.trans (hpast hle)
      omega
    · have heq := hwait.symm.trans (hfuture hlt).1
      omega

end Pixy.Loop
