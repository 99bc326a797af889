import Pixy.Loop.Fibers

/-!
# The context of a wait

What the callbacks find in the block that `WaitForFD` laid out.

* `clearWatchAt_stored`: an `IOPoller_ClearWatch` that is passed the address of the watch is that of
  the poller, so a callback whose struct agrees with that of `WaitForFD` finds every field where it
  was stored (`waitForFDCallback1_eq`, `waitForFDCallback2_eq`, `waitForFDCallback3_eq`);
* `waitForFDCallback3_halt`: with the struct that `WaitForFDCallback3` declares, it finds neither.
-/

namespace Pixy.Loop

open Pixy.Found Pixy.Sched Pixy.Sync Pixy.Poll Pixy.Pool

variable {n : ℕ}

/-! ## Offsets -/

/-- Where the fields of the three structs are, computed from their declarations: in the third one
the watch comes after the fiber, and not first. -/
theorem offsets :
    untimedContext.offsetOf .ioWatch = 0 ∧ untimedContext.offsetOf .fiber = 40 ∧
    timedContext.offsetOf .ioWatch = 0 ∧ timedContext.offsetOf .timeout = 40 ∧
    timedContext.offsetOf .fiber = 72 ∧ timedContext.offsetOf .ok = 80 ∧
    timedContext.offsetOf .errorNumber = 84 ∧
    callback3Context.offsetOf .fiber = 0 ∧ callback3Context.offsetOf .ioWatch = 8 ∧
    callback3Context.offsetOf .ok = 80 ∧ callback3Context.offsetOf .errorNumber = 84 := by
  decide

/-- Where `IOPoller_ClearWatch` looks for the fields of a watch and of its links, computed from the
declarations. -/
theorem watch_offsets :
    ioWatchFields.offsetOf .listItem = 0 ∧ ioWatchFields.offsetOf .condition = 16 ∧
    listItemFields.offsetOf .prev = 0 ∧ listItemFields.offsetOf .next = 8 := by
  decide

/-- What is at the offsets that the callbacks use, in the block of a wait with a timeout and in that
of one without. -/
theorem cells_of_watch (timed : Bool) :
    let fields := if timed then timedContext else untimedContext
    fields.cellAt 0 = some [.ioWatch, .listItem, .prev] ∧
    fields.cellAt 8 = some [.ioWatch, .listItem, .next] ∧
    fields.cellAt 16 = some [.ioWatch, .condition] := by
  cases timed <;> decide

/-- Where a context without a timeout has its fiber, behind the watch of 40 bytes. -/
theorem cell_of_untimedFiber : untimedContext.cellAt 40 = some [.fiber] := by decide

/-- Where a context with a timeout has its fields: the timeout lies behind the watch, so the fiber
is at 72 and what the callbacks store lies behind it. -/
theorem cells_of_timed :
    timedContext.cellAt 40 = some [.timeout, .heapNode, .slotNumber] ∧
    timedContext.cellAt 72 = some [.fiber] ∧ timedContext.cellAt 80 = some [.ok] ∧
    timedContext.cellAt 84 = some [.errorNumber] := by
  decide

namespace Runtime

variable {s : Runtime n} {call : CallId} {fd : FD} {condition : IOCondition} {timed : Bool}

/-! ## Reads -/

/-- The fields of a call's context are those of the `struct` that its kind of wait declares, with or
without a timeout. -/
theorem blockFields_eq (hk : s.kind call = .waitForFD fd condition timed) :
    s.blockFields call = if timed then timedContext else untimedContext := by
  unfold blockFields
  rw [hk]
  cases timed <;> rfl

section Reads

variable (hk : s.kind call = .waitForFD fd condition timed)
include hk

/-- The bytes at the start of a context are those of the list item in its watch, and the first
pointer there is the link backwards. -/
theorem readItem_prev : s.readItem call 0 = some (s.poller.links.prev (.watchItem call)) := by
  obtain ⟨hprev, -, -⟩ := cells_of_watch timed
  rw [← blockFields_eq hk] at hprev
  simp [readItem, read, hprev, valueAt]

/-- The second pointer of a context is the link forwards of the list item in its watch. -/
theorem readItem_next : s.readItem call 8 = some (s.poller.links.next (.watchItem call)) := by
  obtain ⟨-, hnext, -⟩ := cells_of_watch timed
  rw [← blockFields_eq hk] at hnext
  simp [readItem, read, hnext, valueAt]

/-- At 16 lies the condition of the watch, in either kind of context. -/
theorem readCondition_watch : s.readCondition call 16 = some (s.poller.watch call).condition := by
  obtain ⟨-, -, hcondition⟩ := cells_of_watch timed
  rw [← blockFields_eq hk] at hcondition
  simp [readCondition, read, hcondition, valueAt]

/-- What is next to the links is a condition, which is no pointer. -/
theorem readItem_condition : s.readItem call 16 = none := by
  obtain ⟨-, -, hcondition⟩ := cells_of_watch timed
  rw [← blockFields_eq hk] at hcondition
  simp [readItem, read, hcondition, valueAt]

end Reads

/-- Clearing the pending watches of a condition is one operation of the poller and leaves everything
else as it is. -/
theorem clearPending_eq (neighbour : Node) (condition : IOCondition) :
    s.clearPending neighbour condition = Option.map (fun poller => { s with poller := poller })
      (match neighbour with
      | .watchListHead event head =>
        if head = condition ∧ event ∈ s.poller.allocated then
          some ((s.poller.write event
            { s.poller.event event with
              pendingFlags := (s.poller.event event).pendingFlags &&&
                ~~~ioEventFlags condition }).markDirty event)
        else none
      | _ => none) := by
  cases neighbour with
  | watchListHead event head =>
      simp only [clearPending]
      split_ifs <;> rfl
  | _ => rfl

/-- **Through the address of the watch, `IOPoller_ClearWatch` is the poller's**: it reads the links
and the condition of the watch itself. -/
theorem clearWatchAt_stored (hk : s.kind call = .waitForFD fd condition timed) :
    s.clearWatchAt call 0 =
      (s.poller.clearWatch call).map fun poller => { s with poller := poller } := by
  obtain ⟨hitem, hcondition, hprev, hnext⟩ := watch_offsets
  unfold clearWatchAt
  simp only [hitem, hcondition, hprev, hnext, Nat.add_zero, Nat.zero_add, Option.bind_eq_bind]
  -- the links change, but not where they are read
  rw [readItem_prev hk, readItem_next hk]
  simp only [Option.bind_some]
  rw [readItem_next (by exact hk), readItem_prev (by exact hk)]
  simp only [Option.bind_some]
  rw [readItem_prev (by exact hk), readItem_next (by exact hk)]
  simp only [Option.bind_some]
  rw [readCondition_watch (by exact hk)]
  unfold IOPoller.clearWatch
  dsimp only
  by_cases heq : (s.poller.links.remove (.watchItem call)).prev (.watchItem call) =
      (s.poller.links.remove (.watchItem call)).next (.watchItem call)
  · refine Eq.trans (if_pos heq) (Eq.trans ?_ (congrArg _ (if_pos heq).symm))
    exact clearPending_eq (s := { s with poller := { s.poller with
      links := s.poller.links.remove (.watchItem call)
      registered := s.poller.registered.filter fun r => r.watch ≠ call } }) _ _
  · refine Eq.trans (if_neg heq) (Eq.trans ?_ (congrArg _ (if_neg heq).symm))
    rfl

/-- **Eight bytes further on** it takes the condition for a link. -/
theorem clearWatchAt_shifted (hk : s.kind call = .waitForFD fd condition timed) :
    s.clearWatchAt call 8 = none := by
  obtain ⟨hitem, -, hprev, hnext⟩ := watch_offsets
  unfold clearWatchAt
  simp only [hitem, hprev, hnext, Nat.add_zero, Option.bind_eq_bind]
  rw [readItem_next hk, readItem_condition hk]
  rfl

/-! ## The callbacks -/

/-- Where nothing undefined has happened, code in sequence is just composed. -/
theorem andThen_eq (hh : s.halted = false) (rest : Runtime n → Runtime n) :
    s.andThen rest = rest s := by
  simp [andThen, hh]

/-- Where the watch lies at the start of the context, as it does in both kinds, the callback clears
just this watch. -/
theorem clearWatch_stored (hk : s.kind call = .waitForFD fd condition timed)
    {poller : IOPoller Callback} (hc : s.poller.clearWatch call = some poller) :
    s.clearWatch call 0 = { s.note (.clearsWatch call s.poller) with poller := poller } := by
  unfold clearWatch
  dsimp only
  rw [clearWatchAt_stored (s := s.note _) hk]
  simp [note, hc]

/-- A read of the fiber finds the caller where the context has the fiber at that place. -/
theorem readFiber_eq {offset : ℕ} (hcell : (s.blockFields call).cellAt offset = some [.fiber]) :
    s.readFiber call offset = some (s.callerOf call) := by
  simp [readFiber, read, hcell, valueAt, callerOf]

/-- Where the context has its fiber at the given place, the callback wakes the fiber that made the
call. -/
theorem resumeAt_eq {offset : ℕ} (hcell : (s.blockFields call).cellAt offset = some [.fiber])
    (ready : Bool) : s.resumeAt call offset ready = s.resume (s.callerOf call) ready := by
  simp [resumeAt, readFiber_eq hcell]

/-- Where the context has the named field at the given place, a write there changes this field of
this context only. -/
theorem writeContext_eq {offset : ℕ} {name : FieldName}
    (hcell : (s.blockFields call).cellAt offset = some [name]) (context : Context) :
    s.writeContext call offset name context =
      { s with context := Function.update s.context call context } := by
  simp [writeContext, hcell]

/-- **`WaitForFDCallback1`** unlinks the watch and wakes the caller, as what it reads at its offsets
is the watch and the fiber of the call. -/
theorem waitForFDCallback1_eq (hh : s.halted = false)
    (hk : s.kind call = .waitForFD fd condition false) {poller : IOPoller Callback}
    (hc : s.poller.clearWatch call = some poller) :
    s.waitForFDCallback1 call =
      { s.note (.clearsWatch call s.poller) with poller := poller }.resume (s.callerOf call)
        true := by
  obtain ⟨hwatch, hfiber, -⟩ := offsets
  unfold waitForFDCallback1
  rw [hwatch, hfiber, clearWatch_stored hk hc, andThen_eq (by exact hh)]
  refine resumeAt_eq ?_ true
  rw [blockFields_eq (by exact hk)]
  exact cell_of_untimedFiber

/-- What is in the block of a wait with a timeout, at an offset at which its struct has a field, is
this field. -/
theorem cellAt_timed (hk : s.kind call = .waitForFD fd condition true) {offset : ℕ}
    {cell : List FieldName} (hcell : timedContext.cellAt offset = some cell) :
    (s.blockFields call).cellAt offset = some cell := by
  rw [blockFields_eq hk]
  exact hcell

section Timed

variable (hh : s.halted = false) (hk : s.kind call = .waitForFD fd condition true)
include hh hk

/-- **`WaitForFDCallback2`** unlinks the watch and the timeout and wakes the caller. -/
theorem waitForFDCallback2_eq {poller : IOPoller Callback} {timer : Timer Callback}
    (hc : s.poller.clearWatch call = some poller) (ht : s.timer.clearTimeout call = some timer) :
    s.waitForFDCallback2 call =
      { (s.note (.clearsWatch call s.poller)).note (.clearsTimeout call s.timer) with
        poller := poller
        timer := timer
        context := Function.update s.context call { s.context call with ok := true } }.resume
          (s.callerOf call) true := by
  obtain ⟨-, -, hwatch, htimeout, hfiber, hok, -⟩ := offsets
  obtain ⟨hslot, hfiberCell, hokCell, -⟩ := cells_of_timed
  unfold waitForFDCallback2
  rw [hwatch, htimeout, hfiber, hok, clearWatch_stored hk hc, andThen_eq (by exact hh)]
  dsimp only
  unfold clearTimeout
  dsimp only
  rw [if_pos (cellAt_timed (by exact hk) hslot)]
  simp only [note, ht]
  rw [andThen_eq (by exact hh), writeContext_eq (cellAt_timed (by exact hk) hokCell),
    andThen_eq (by exact hh), resumeAt_eq (cellAt_timed (by exact hk) hfiberCell)]
  simp [callerOf]

/-- **`WaitForFDCallback3`, if it finds the fields where they were stored,** unlinks the watch and
wakes the caller. -/
theorem waitForFDCallback3_eq {poller : IOPoller Callback}
    (hc : s.poller.clearWatch call = some poller) :
    s.waitForFDCallback3 timedContext call =
      { s.note (.clearsWatch call s.poller) with
        poller := poller
        context := Function.update s.context call
          { s.context call with ok := false, errorNumber := eintr } }.resume
            (s.callerOf call) false := by
  obtain ⟨-, -, hwatch, -, hfiber, hok, herror, -⟩ := offsets
  obtain ⟨-, hfiberCell, hokCell, herrorCell⟩ := cells_of_timed
  unfold waitForFDCallback3
  rw [hwatch, hfiber, hok, herror, clearWatch_stored hk hc, andThen_eq (by exact hh)]
  dsimp only
  rw [writeContext_eq (cellAt_timed (by exact hk) hokCell), andThen_eq (by exact hh),
    writeContext_eq (cellAt_timed (by exact hk) herrorCell), andThen_eq (by exact hh),
    resumeAt_eq (cellAt_timed (by exact hk) hfiberCell)]
  simp [callerOf, note]

omit hh in
/-- **`WaitForFDCallback3`, as it is,** passes `IOPoller_ClearWatch` an address that is not the
watch's, and what is found there has no meaning as a link. -/
theorem waitForFDCallback3_halt : s.waitForFDCallback3 callback3Context call =
    (s.note (.clearsWatch call s.poller)).halt := by
  obtain ⟨-, -, -, -, -, -, -, -, hwatch, -, -⟩ := offsets
  unfold waitForFDCallback3 clearWatch
  dsimp only
  rw [hwatch, clearWatchAt_shifted (s := s.note _) hk]
  rfl

end Timed

end Runtime

end Pixy.Loop
