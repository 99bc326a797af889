import Pixy.Poll.Contents

/-!
# Delivery

What a tick puts into the queue, seen from the lists: the callbacks of the watches that are linked
for what was reported, all of them and no others, in order and once each.

* `mem_wokenBy_iff`: whom an entry is for, read off the links;
* `Shape.wokenBy_ne_nil`: an entry is for someone, which is where it matters that the kernel has no
  flag that nobody watches;
* `event_delivery`: the tick.
-/

namespace Pixy.Poll

open Pixy.Found Pixy.Store

namespace IOPoller

variable {F : Type} {p q : IOPoller F} {dirty : List EventId} {w : WatchId}
  {ev : FD × BitVec 32} {evs : List (FD × BitVec 32)}

/-- An entry reports a condition, or an error or a hang-up. -/
def Signals (flags : BitVec 32) (c : IOCondition) : Prop :=
  flags &&& ioEventFlags c ≠ 0 ∨ flags &&& epollErr ≠ 0 ∨ flags &&& epollHup ≠ 0

/-- Two sets of flags are empty together exactly if each is: `BitVec.or_eq_zero_iff`, for the zero
that the source writes. -/
theorem or_eq_zero {flags flags' : BitVec 32} : flags ||| flags' = 0 ↔ flags = 0 ∧ flags' = 0 :=
  BitVec.or_eq_zero_iff

/-- The test of the loop, on the flags of the condition together with those of an error and a
hang-up, is whether the entry signals the condition. -/
theorem signals_iff (flags : BitVec 32) (c : IOCondition) :
    flags &&& (ioEventFlags c ||| epollErr ||| epollHup) ≠ 0 ↔ Signals flags c := by
  rw [Signals, BitVec.and_or_distrib_left, BitVec.and_or_distrib_left, Ne, or_eq_zero, or_eq_zero]
  tauto

/-- A watch is linked on the descriptor of an entry, in the list of a condition that is reported. -/
def Concerned (p : IOPoller F) (ev : FD × BitVec 32) (w : WatchId) : Prop :=
  ∃ e c items, p.load ev.1 = some (some e) ∧ p.links.Ring (.watchListHead e c) items ∧
    .watchItem w ∈ items ∧ Signals ev.2 c

/-- What a successful tick has done. -/
structure Delivered (p : IOPoller F) (evs : List (FD × BitVec 32)) (before after : Async F) :
    Prop where
  /-- The calls come in the order of the batch, readable before writable. -/
  calls : after.calls = before.calls ++ (evs.flatMap p.wokenBy).map p.callOf
  /-- Within a condition the order is that of the list, which is that of the registrations. -/
  lists : ∀ ev ∈ evs, ∃ e, p.load ev.1 = some (some e) ∧ ∀ c,
    p.links.Ring (.watchListHead e c) ((watchesOf p.registered ev.1 c).map .watchItem)
  /-- Called are the watches that something was reported for. -/
  called : ∀ w, w ∈ evs.flatMap p.wokenBy ↔ ∃ ev ∈ evs, p.Concerned ev w
  /-- No watch is called twice. -/
  once : (evs.flatMap p.wokenBy).Nodup
  /-- Every entry yields a call. -/
  each : ∀ ev ∈ evs, p.wokenBy ev ≠ []

/-! ## Whom an entry is for -/

/-- An entry of the report wakes just the watches that are registered at its descriptor for a
condition that it signals. -/
theorem mem_wokenBy_iff_registered :
    w ∈ p.wokenBy ev ↔ ∃ c, ⟨w, ev.1, c⟩ ∈ p.registered ∧ Signals ev.2 c := by
  simp only [wokenBy, List.mem_flatMap]
  constructor
  · rintro ⟨c, -, hw⟩
    split_ifs at hw with hsignals
    · exact ⟨c, mem_watchesOf.mp hw, (signals_iff _ c).mp hsignals⟩
    · cases hw
  · rintro ⟨c, hr, hsignals⟩
    refine ⟨c, by cases c <;> simp, ?_⟩
    rw [if_pos ((signals_iff _ c).mpr hsignals)]
    exact mem_watchesOf.mpr hr

/-- The watches that an event of the kernel wakes, computed from the registrations, are those linked
in the lists that it concerns. -/
theorem mem_wokenBy_iff (h : p.Sound) : w ∈ p.wokenBy ev ↔ p.Concerned ev w := by
  rw [mem_wokenBy_iff_registered]
  constructor
  · rintro ⟨c, hr, hsignals⟩
    obtain ⟨e, he, hfd⟩ := h.stored.registration _ hr
    obtain ⟨hlt, helement⟩ := h.stored.event e he
    rw [hfd] at hlt helement
    refine ⟨e, c, _, ?_, h.rings e he c, ?_, hsignals⟩
    · simp [load, hlt, helement]
    · rw [items, hfd]
      exact List.mem_map_of_mem (mem_watchesOf.mpr hr)
  · rintro ⟨e, c, l, hload, hring, hw, hsignals⟩
    obtain ⟨he, hfd⟩ := h.stored.load_eq_some hload
    rw [hring.unique (h.rings e he c), items, hfd, List.mem_map] at hw
    obtain ⟨v, hv, heq⟩ := hw
    cases heq
    exact ⟨c, mem_watchesOf.mp hv, hsignals⟩

/-- What is within some flags and none of them is nothing. -/
theorem eq_zero_of_within {flags asked : BitVec 32} (hwithin : flags &&& ~~~asked = 0)
    (hnone : flags &&& asked = 0) : flags = 0 := by
  calc flags = flags &&& (asked ||| ~~~asked) := by
        rw [BitVec.or_not_self, BitVec.and_allOnes]
    _ = (flags &&& asked) ||| (flags &&& ~~~asked) := BitVec.and_or_distrib_left
    _ = 0 := by rw [hwithin, hnone]; rfl

/-- If the flags asked for are those of some conditions, and not of none, then one of these is
signalled by whatever is reported. -/
theorem exists_signals {flags : BitVec 32} {wanted : IOCondition → Bool} (hne : flags ≠ 0)
    (hwithin : flags &&& ~~~(mask wanted ||| epollErr ||| epollHup) = 0)
    (hwanted : mask wanted ≠ 0) : ∃ c, wanted c = true ∧ Signals flags c := by
  by_contra hnone
  push Not at hnone
  have hsilent : ∀ c, wanted c = true → flags &&& ioEventFlags c = 0 ∧
      flags &&& epollErr = 0 ∧ flags &&& epollHup = 0 := by
    intro c hc
    have hc := hnone c hc
    simpa only [Signals, not_or, not_not] using hc
  obtain ⟨c, hc⟩ : ∃ c, wanted c = true := by
    by_contra hall
    push Not at hall
    exact hwanted ((mask_eq_zero wanted).mpr fun c => by simpa using hall c)
  obtain ⟨-, herr, hhup⟩ := hsilent c hc
  have hmask : flags &&& mask wanted = 0 := by
    rw [mask, BitVec.and_or_distrib_left, or_eq_zero]
    constructor
    · split_ifs with hr
      · exact (hsilent .ioReadable hr).1
      · exact BitVec.and_zero
    · split_ifs with hw
      · exact (hsilent .ioWritable hw).1
      · exact BitVec.and_zero
  refine hne (eq_zero_of_within hwithin ?_)
  rw [BitVec.and_or_distrib_left, BitVec.and_or_distrib_left, hmask, herr, hhup]
  rfl

/-- **An entry is for someone**: after a flush the kernel asks for what is watched. -/
theorem Shape.wokenBy_ne_nil (h : p.Shape []) {ev' : EventId × BitVec 32}
    (hreported : p.reported ev = some ev') : p.wokenBy ev ≠ [] := by
  have hexact := h.interest_exact ev.1
  unfold reported at hreported
  split at hreported
  · rename_i asked event hinterest
    split_ifs at hreported with hflags
    rw [hinterest, Option.map_some] at hexact
    split_ifs at hexact with hzero
    simp only [Option.some.injEq] at hexact
    rw [hexact] at hflags
    obtain ⟨c, hwatched, hsignals⟩ := exists_signals hflags.1 hflags.2 hzero
    obtain ⟨r, hr, hfd, hcondition⟩ := watched_eq_true.mp hwatched
    refine List.ne_nil_of_mem (a := r.watch) (mem_wokenBy_iff_registered.mpr ⟨c, ?_, hsignals⟩)
    rw [← hfd, ← hcondition]
    exact hr
  · cases hreported

/-! ## The tick -/

/-- Of two lists related item by item, each item of the first has its partner in the second. -/
theorem exists_of_forall₂ {α β : Type} {R : α → β → Prop} {l : List α} {l' : List β} {a : α}
    (h : List.Forall₂ R l l') (ha : a ∈ l) : ∃ b, R a b := by
  induction h with
  | nil => cases ha
  | cons hhead _ ih =>
      rcases List.mem_cons.mp ha with rfl | hrest
      · exact ⟨_, hhead⟩
      · exact ih hrest

/-- Whatever is in the batch was reported by the kernel: each entry comes from an event whose
descriptor is in the interest set. -/
theorem reported_of_epollWait {evs' : List (EventId × BitVec 32)}
    (hwait : p.epollWait evs = some evs') (hev : ev ∈ evs) : ∃ ev', p.reported ev = some ev' := by
  unfold IOPoller.epollWait at hwait
  split_ifs at hwait
  exact exists_of_forall₂ (forall₂_of_mapM hwait) hev

/-- The kernel reports each descriptor once, since its interest set has one entry for each. -/
theorem nodup_of_epollWait {evs' : List (EventId × BitVec 32)}
    (hwait : p.epollWait evs = some evs') : (evs.map (·.1)).Nodup := by
  unfold IOPoller.epollWait at hwait
  split_ifs at hwait with hbatch
  exact hbatch.2

/-- **The delivery**: the calls that are appended are those of the watches that the report wakes,
entry by entry, and of no others. -/
theorem Shape.delivered (h : p.Shape []) {evs' : List (EventId × BitVec 32)}
    (hwait : p.epollWait evs = some evs') {before after : Async F}
    (hcollected : Collected before after true ((evs.flatMap p.wokenBy).map p.callOf)) :
    p.Delivered evs before after := by
  obtain ⟨taken, -, hcalls, hall⟩ := hcollected
  rw [hall rfl] at hcalls
  refine ⟨hcalls, fun ev hev => ?_, fun w => ?_,
    nodup_wokenBy h.sound.watches (nodup_of_epollWait hwait), fun ev hev => ?_⟩
  · obtain ⟨ev', hev'⟩ := reported_of_epollWait hwait hev
    obtain ⟨he, hfd, -⟩ := h.sound.reports hev'
    obtain ⟨hlt, helement⟩ := h.sound.stored.event ev'.1 he
    rw [hfd] at hlt helement
    refine ⟨ev'.1, by simp [load, hlt, helement], fun c => ?_⟩
    have hring := h.sound.rings ev'.1 he c
    rwa [items, hfd] at hring
  · rw [List.mem_flatMap]
    simp only [mem_wokenBy_iff h.sound]
  · obtain ⟨ev', hev'⟩ := reported_of_epollWait hwait hev
    exact h.wokenBy_ne_nil hev'

end IOPoller

/-- **Event delivery is complete and exact.** A tick in any reachable state, with any batch that the
kernel may return after the flush, ends with the poller as the flush left it; and if it succeeds, it
has put the callbacks of exactly the watches concerned behind the calls that were there. -/
theorem event_delivery {F : Type} {p q : IOPoller F} (h : (pollSystem F).Reachable p)
    {freeSlot : EventId → Node} (hflush : p.flush freeSlot = some q)
    {evs : List (FD × BitVec 32)} (hwait : (q.epollWait evs).isSome) (memory : ℕ → Bool)
    (async : Async F) :
    q.registered = p.registered ∧ q.watch = p.watch ∧
    ∃ async' ok, p.tick freeSlot (.ready evs) memory async = some (q, async', ok) ∧
      (ok = true → q.Delivered evs async async') := by
  obtain ⟨dirty, hshape⟩ := shape_of_reachable h
  obtain ⟨r, hr, hflushed, hregistered⟩ := hshape.flush freeSlot
  obtain rfl : r = q := Option.some.inj (hr.symm.trans hflush)
  obtain ⟨evs', hevs⟩ := Option.isSome_iff_exists.mp hwait
  obtain ⟨async', ok, hcollect, hcollected⟩ :=
    hflushed.sound.collectEvents memory (hflushed.sound.epollWait hevs) async
  refine ⟨hregistered, IOPoller.watch_flush hflush, async', ok, ?_, ?_⟩
  · simp [IOPoller.tick, hflush, hevs, hcollect]
  · rintro rfl
    exact hflushed.delivered hevs hcollected

/-- Two watches read from a descriptor and one writes to it, a fourth waits for another; the kernel
reports data there and a hang-up here, with an element of the vector between the two. -/
def sharedDescriptor : List (PollAction ℕ) :=
  [.setWatch 0 3 .ioReadable 70 7 true (some 5), .setWatch 1 3 .ioWritable 71 8 true none,
    .setWatch 2 3 .ioReadable 72 7 true none, .setWatch 3 6 .ioReadable 73 9 true (some 4)]

@[inherit_doc sharedDescriptor] def sharedBatch : List (FD × BitVec 32) :=
  [(6, epollIn), (3, epollHup)]

/-- Data on one descriptor and a hang-up on another: the two readers and the writer of the second
are called in the order of the lists, behind the reader of the first. -/
theorem event_delivery_sharedDescriptor :
    ∃ p q async', (pollSystem ℕ).run (.init (fun _ => ⟨0, 0, 0⟩) (fun _ => ⟨.ioReadable, 0, 0⟩)
        ⟨id, id⟩) sharedDescriptor = some p ∧
      p.tick (fun _ => .dirtyEventListHead) (.ready sharedBatch) (fun _ => true) .init =
        some (q, async', true) ∧
      async'.calls = [⟨9, 73⟩, ⟨7, 70⟩, ⟨7, 72⟩, ⟨8, 71⟩] ∧
      q.Delivered sharedBatch .init async' := by
  have hend : ((pollSystem ℕ).run (.init (fun _ => ⟨0, 0, 0⟩) (fun _ => ⟨.ioReadable, 0, 0⟩)
      ⟨id, id⟩) sharedDescriptor).bind (fun p =>
        (p.flush fun _ => .dirtyEventListHead).bind fun q =>
          (p.tick (fun _ => .dirtyEventListHead) (.ready sharedBatch) (fun _ => true) .init).map
            fun done => ((q.epollWait sharedBatch).isSome, done.2.1.calls, done.2.2)) =
      some (true, [⟨9, 73⟩, ⟨7, 70⟩, ⟨7, 72⟩, ⟨8, 71⟩], true) := by decide +kernel
  simp only [Option.bind_eq_some_iff, Option.map_eq_some_iff, Prod.mk.injEq] at hend
  obtain ⟨p, hrun, q, hflush, ⟨q', async', ok⟩, htick, hwait, hcalls, rfl⟩ := hend
  obtain ⟨-, -, async'', ok, htick', hdelivered⟩ :=
    event_delivery (StepSystem.reachable_of_run ⟨_, _, _, rfl⟩ hrun) hflush hwait (fun _ => true)
      .init
  obtain ⟨rfl, rfl, rfl⟩ : q' = q ∧ async' = async'' ∧ true = ok := by
    simpa only [Option.some.injEq, Prod.mk.injEq] using htick.symm.trans htick'
  exact ⟨p, q', async', hrun, htick, hcalls, hdelivered rfl⟩

end Pixy.Poll
