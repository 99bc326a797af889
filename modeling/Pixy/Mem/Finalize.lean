import Pixy.Mem.PoolRuns

/-!
# The end of a pool

`MemoryPool_Finalize` frees the chunks while it walks the two lists from the back, and asks nothing
of what is in them. The links of a chunk are read before it is freed, and those of no other are read
after (`freeChunks_eq`).

What has come from `posix_memalign` over a run is told by the actions (`obtained`), and compared
with what has been given to `free` by then: with the chunks of the pool it is the same, each chunk
as often as it has come (`run_account`).
-/

namespace Pixy.Mem

open Pixy.Found

namespace MemoryPool

/-- The loop over one list, from the back; the item before is read before the chunk is freed.
Source: `MemoryPool.c`, `MemoryPool_Finalize`. -/
def freeChunks (head : ChunkNode) : ℕ → MemoryPool → ChunkNode → Option MemoryPool
  | 0, _, _ => none
  | fuel + 1, self, item =>
    if item = head then some self
    else
      match item with
      | .listItem chunk =>
        let temp := self.links.prev (.listItem chunk)
        if chunk ∈ self.chunks then
          freeChunks head fuel { self with
            chunks := self.chunks.erase chunk
            released := self.released ++ [chunk] } temp
        else none
      | _ => none

/-- Source: `MemoryPool.c`, `MemoryPool_Finalize`. -/
def finalize (self : MemoryPool) : Option MemoryPool := do
  let self ← freeChunks .usableChunkListHead (self.chunks.card + 1) self
    (self.links.prev .usableChunkListHead)
  freeChunks .unusableChunkListHead (self.chunks.card + 1) self
    (self.links.prev .unusableChunkListHead)

variable {p p' : MemoryPool} {free : ℕ → List ℕ} {usable unusable l : List ℕ}

/-- **The chunks between the head and a node are freed, back to front.** -/
theorem freeChunks_eq (head : ChunkNode) (hhead : ∀ c, head ≠ .listItem c) (hnodup : l.Nodup)
    {item : ChunkNode} {fuel : ℕ} (hpath : p.links.Path head (l.map .listItem) item)
    (hchunks : ∀ c ∈ l, c ∈ p.chunks) (hfuel : l.length < fuel) :
    freeChunks head fuel p (p.links.prev item) =
      some { p with chunks := p.chunks \ l.toFinset, released := p.released ++ l.reverse } := by
  obtain ⟨fuel, rfl⟩ : ∃ k, fuel = k + 1 := ⟨fuel - 1, by omega⟩
  induction l using List.reverseRecOn generalizing p item fuel with
  | nil =>
      have hback : p.links.prev item = head := hpath.2
      simp [freeChunks, hback]
  | append_singleton l c ih =>
      rw [List.map_append, List.map_singleton] at hpath
      obtain ⟨hfront, -, hprev⟩ := Links.path_append.mp hpath
      obtain ⟨hrest, -, hnot⟩ := List.nodup_append.mp hnodup
      have hc : c ∈ p.chunks := hchunks c (by simp)
      rw [List.length_append, List.length_singleton] at hfuel
      obtain ⟨fuel, rfl⟩ : ∃ k, fuel = k + 1 := ⟨fuel - 1, by omega⟩
      -- the others are still there when this one has gone
      have hothers : ∀ a ∈ l, a ∈ p.chunks.erase c := fun a ha =>
        Finset.mem_erase.mpr ⟨hnot a ha c (by simp), hchunks a (List.mem_append_left _ ha)⟩
      have hloop := ih hrest
        (p := { p with chunks := p.chunks.erase c, released := p.released ++ [c] })
        hfront hothers fuel (by omega)
      rw [hprev, freeChunks, if_neg (hhead c).symm]
      simp only [hc, if_true]
      refine hloop.trans ?_
      have hsame : p.chunks.erase c \ l.toFinset = p.chunks \ (l ++ [c]).toFinset := by
        ext a
        simp
        tauto
      simp [hsame]

/-- **Finalizing frees every chunk**, those of the usable list first, each list from its back to its
front. -/
theorem Shape.finalize (h : p.Shape free usable unusable) :
    p.finalize = some { p with
      chunks := ∅
      released := p.released ++ usable.reverse ++ unusable.reverse } := by
  have hlisted := h.listed
  have hu : ∀ c ∈ usable, c ∈ p.chunks := fun c hc => ((hlisted.mem_usable c).mp hc).1
  have hlength : usable.length ≤ p.chunks.card := by
    rw [← List.toFinset_card_of_nodup hlisted.usable_nodup]
    exact Finset.card_le_card fun c hc => hu c (List.mem_toFinset.mp hc)
  have hfirst := freeChunks_eq .usableChunkListHead (by simp) hlisted.usable_nodup
    hlisted.usableRing.1 hu (Nat.lt_succ_of_le hlength)
  -- the second list is as it was, and no chunk of it has gone
  have hn : ∀ c ∈ unusable, c ∈ p.chunks \ usable.toFinset := fun c hc =>
    Finset.mem_sdiff.mpr ⟨((hlisted.mem_unusable c).mp hc).1, fun hin =>
      hlisted.disjoint (List.mem_toFinset.mp hin) hc⟩
  have hlength' : unusable.length ≤ (p.chunks \ usable.toFinset).card := by
    rw [← List.toFinset_card_of_nodup hlisted.unusable_nodup]
    exact Finset.card_le_card fun c hc => hn c (List.mem_toFinset.mp hc)
  have hsecond := freeChunks_eq .unusableChunkListHead
    (p := { p with chunks := p.chunks \ usable.toFinset, released := p.released ++ usable.reverse })
    (by simp) hlisted.unusable_nodup hlisted.unusableRing.1 hn (Nat.lt_succ_of_le hlength')
  have hnone : (p.chunks \ usable.toFinset) \ unusable.toFinset = ∅ := by
    ext c
    simp only [Finset.mem_sdiff, List.mem_toFinset, Finset.notMem_empty, iff_false]
    rintro ⟨⟨hc, hnu⟩, hnn⟩
    have hcount := h.stored.count c hc
    have hpos : ¬0 < p.numberOfFreeSlots c :=
      fun hpos => hnu ((hlisted.mem_usable c).mpr ⟨hc, hpos⟩)
    exact hnn ((hlisted.mem_unusable c).mpr ⟨hc, by omega⟩)
  unfold MemoryPool.finalize
  rw [hfirst, Option.bind_eq_bind, Option.bind_some]
  refine hsecond.trans ?_
  simp [hnone]

/-! ## What has come and gone -/

/-- The chunk that an action has from `posix_memalign`, if it asks for one and gets it. -/
def gets (pool : MemoryPool) : PoolAction → List ℕ
  | .allocateBlock (some (chunk, _)) =>
    if pool.links.IsEmpty .usableChunkListHead then [chunk] else []
  | _ => []

/-- What a run has had from `posix_memalign`, one after the other. -/
def obtained (pool : MemoryPool) : List PoolAction → List ℕ
  | [] => []
  | action :: actions =>
    pool.gets action ++ (memoryPoolSystem.step pool action).elim [] fun pool =>
      obtained pool actions

/-- What the pool has had: the chunks that it has and those that it has given back. -/
def account (p : MemoryPool) : Multiset ℕ := p.chunks.val + ↑p.released

/-- Taking a slot out of a chunk moves the chunk from one list to the other at most; it neither
comes nor goes. -/
theorem takeSlot_account (p : MemoryPool) (c : ℕ) : (p.takeSlot c).1.account = p.account := by
  unfold takeSlot
  dsimp only
  split_ifs <;> rfl

/-- Allocating a block adds to the account just the chunk that was obtained for it, if one was;
where `posix_memalign` has failed nothing is added. -/
theorem allocateBlock_account {memalign : Option (ℕ × Bytes)} {block : Option ℕ}
    (hfresh : ∀ fresh ∈ memalign, fresh.1 ∉ p.chunks)
    (hcall : p.allocateBlock memalign = some (p', block)) :
    p'.account = ↑(p.gets (.allocateBlock memalign)) + p.account := by
  simp only [allocateBlock, Option.bind_eq_bind, Option.bind_eq_some_iff, Prod.exists] at hcall
  obtain ⟨q, ok, hq, hcall⟩ := hcall
  -- the chunk, if one has come, is in the pool that the slot is taken from
  have hcome : q.account = ↑(p.gets (.allocateBlock memalign)) + p.account := by
    by_cases hempty : p.links.IsEmpty .usableChunkListHead
    · rw [if_pos hempty] at hq
      obtain _ | ⟨chunk, contents⟩ := memalign
      · simp only [increaseChunks, Option.some.injEq, Prod.mk.injEq] at hq
        simp [← hq.1, gets]
      · simp only [increaseChunks, Option.bind_eq_bind, Option.bind_eq_some_iff, Option.pure_def,
          Option.some.injEq, Prod.mk.injEq] at hq
        obtain ⟨-, -, rfl, -⟩ := hq
        simp [gets, hempty, account, Finset.insert_val_of_notMem (hfresh _ rfl)]
    · rw [if_neg hempty] at hq
      obtain ⟨rfl, -⟩ := Prod.mk.inj (Option.some.inj hq)
      have hgets : p.gets (.allocateBlock memalign) = [] := by
        obtain _ | ⟨chunk, contents⟩ := memalign
        · rfl
        · exact if_neg hempty
      simp [hgets]
  rw [← hcome]
  split_ifs at hcall
  · split at hcall
    · split_ifs at hcall
      · obtain ⟨rfl, -⟩ := Prod.mk.inj (Option.some.inj hcall)
        exact takeSlot_account _ _
    · cases hcall
  · obtain ⟨rfl, -⟩ := Prod.mk.inj (Option.some.inj hcall)
    rfl

/-- Freeing a block gives no chunk back, also where it was the last one in its chunk. -/
theorem freeBlock_account {block : ℕ} (hcall : p.freeBlock block = some p') :
    p'.account = p.account := by
  unfold freeBlock at hcall
  dsimp only at hcall
  split_ifs at hcall
  · cases hcall
    rfl
  · cases hcall
    rfl
  · split at hcall
    · cases hcall
      rfl
    · cases hcall
    · split_ifs at hcall <;> (cases hcall; rfl)

/-- Shrinking moves the wholly free chunks from those that the pool has to those that it has given
back, so the account is the same. -/
theorem Shape.shrinkToFit_account (h : p.Shape free usable unusable)
    (hcall : p.shrinkToFit = some p') :
    p'.account = p.account := by
  obtain ⟨q, hq, -, hreleased, hchunks, -⟩ := h.shrinkToFit
  obtain rfl : q = p' := Option.some.inj (hq.symm.trans hcall)
  generalize hw :
    usable.takeWhile (fun c => p.numberOfFreeSlots c = p.numberOfSlotsPerChunk) = whole
    at hreleased hchunks
  have hsub : whole.Sublist usable := hw ▸ List.takeWhile_sublist _
  have hwhole : ∀ c ∈ whole, c ∈ p.chunks :=
    fun c hc => ((h.listed.mem_usable c).mp (hsub.subset hc)).1
  have hsplit : p.chunks.val = q.chunks.val + ↑whole := by
    refine (Multiset.Nodup.ext p.chunks.nodup ?_).mpr fun c => ?_
    · refine Multiset.nodup_add.mpr ⟨q.chunks.nodup,
        Multiset.coe_nodup.mpr (h.listed.usable_nodup.sublist hsub),
        Multiset.disjoint_left.mpr fun {c} hc hin => ?_⟩
      exact ((hchunks c).mp hc).2 hin
    · have hc := hchunks c
      have hin := hwhole c
      simp only [Finset.mem_val, Multiset.mem_add, Multiset.mem_coe]
      tauto
  simp only [account, hreleased, hsplit, ← Multiset.coe_add]
  abel

/-- **What an action adds to the account** is what it has got. -/
theorem Shape.step_account (h : p.Shape free usable unusable) {action : PoolAction}
    (hallowed : action.Allowed p) (hperform : action.perform p = some p') :
    p'.account = ↑(p.gets action) + p.account := by
  cases action with
  | allocateBlock memalign =>
      obtain ⟨⟨q, block⟩, hcall, rfl⟩ := Option.map_eq_some_iff.mp hperform
      refine allocateBlock_account (fun fresh hf hin => ?_) hcall
      have hapart := (hallowed fresh hf).2.2.2 fresh.1 hin
      rw [memoryChunkSize_eq] at hapart
      omega
  | freeBlock block => simpa [gets] using freeBlock_account hperform
  | shrinkToFit => simpa [gets] using h.shrinkToFit_account hperform
  | write address value =>
      cases hperform
      simp [gets, account, MemoryPool.write]

/-- **Nothing that has come is lost**, over a whole run: what the pool has and has given back is
what it had and what it obtained on the way. -/
theorem run_account (h : memoryPoolSystem.Reachable p) {actions : List PoolAction}
    (hrun : memoryPoolSystem.run p actions = some p') :
    p'.account = p.account + ↑(p.obtained actions) := by
  induction actions generalizing p with
  | nil =>
      cases hrun
      simp [obtained]
  | cons action actions ih =>
      rw [StepSystem.run, Option.bind_eq_some_iff] at hrun
      obtain ⟨q, hstep, hrest⟩ := hrun
      have hq := ih (h.step trivial hstep) hrest
      obtain ⟨free, usable, unusable, hshape⟩ := shape_of_reachable h
      have hobtained : p.obtained (action :: actions) = p.gets action ++ q.obtained actions := by
        simp [obtained, hstep]
      simp only [memoryPoolSystem, Option.ite_none_right_eq_some] at hstep
      rw [hq, hshape.step_account hstep.1 hstep.2, hobtained, ← Multiset.coe_add]
      abel

end MemoryPool

open MemoryPool

/-- **No chunk is lost and none is freed twice.** At any time of a run the chunks of the pool and
those given back are together what `posix_memalign` has returned so far; and finalizing the pool,
with whatever blocks still in use, comes to its end and gives back the rest, first the usable list
from its back to its front and then the unusable one, so that all that has come has gone, each chunk
as often as it has come. -/
theorem finalize_frees_all {p₀ p : MemoryPool} {actions : List PoolAction}
    (h : memoryPoolSystem.init p₀) (hrun : memoryPoolSystem.run p₀ actions = some p) :
    p.account = ↑(p₀.obtained actions) ∧
      ∃ (p' : MemoryPool) (usable unusable rest : List ℕ), p.finalize = some p' ∧ p'.chunks = ∅ ∧
        p'.released = p.released ++ rest ∧
        p.links.Ring .usableChunkListHead (usable.map .listItem) ∧
        p.links.Ring .unusableChunkListHead (unusable.map .listItem) ∧
        rest = usable.reverse ++ unusable.reverse ∧ rest.Nodup ∧ (∀ c, c ∈ rest ↔ c ∈ p.chunks) ∧
        p'.released.Perm (p₀.obtained actions) := by
  have hp₀ : p₀.account = 0 := by
    obtain ⟨-, -, -, -, -, -, rfl⟩ := h
    rfl
  have haccount : p.account = ↑(p₀.obtained actions) := by
    rw [run_account (.init h) hrun, hp₀, zero_add]
  obtain ⟨free, usable, unusable, hshape⟩ := shape_of_reachable (StepSystem.reachable_of_run h hrun)
  have hlisted := hshape.listed
  have hmem : ∀ c, c ∈ usable.reverse ++ unusable.reverse ↔ c ∈ p.chunks := by
    intro c
    rw [List.mem_append, List.mem_reverse, List.mem_reverse, hlisted.mem_usable,
      hlisted.mem_unusable, ← and_or_left]
    refine ⟨And.left, fun hc => ⟨hc, ?_⟩⟩
    have hcount := hshape.stored.count c hc
    omega
  have hnodup : (usable.reverse ++ unusable.reverse).Nodup := by
    rw [List.nodup_append, List.nodup_reverse, List.nodup_reverse]
    refine ⟨hlisted.usable_nodup, hlisted.unusable_nodup, fun a ha b hb hab => ?_⟩
    exact hlisted.disjoint (List.mem_reverse.mp ha) (hab ▸ List.mem_reverse.mp hb)
  refine ⟨haccount, _, usable, unusable, usable.reverse ++ unusable.reverse, hshape.finalize, rfl,
    by simp, hlisted.usableRing, hlisted.unusableRing, rfl, hnodup, hmem, ?_⟩
  have hchunks : p.chunks.val = ↑(usable.reverse ++ unusable.reverse) :=
    (Multiset.Nodup.ext p.chunks.nodup (Multiset.coe_nodup.mpr hnodup)).mpr fun c => (hmem c).symm
  rw [← Multiset.coe_eq_coe, ← haccount, account, hchunks, add_comm, List.append_assoc,
    ← Multiset.coe_add]

/-- A chunk is given back while the pool is used and comes again. -/
def comesAgain : List PoolAction :=
  twoChunks ++ [.freeBlock 111072, .freeBlock 71072, .shrinkToFit, .allocateBlock none,
    .allocateBlock none, .allocateBlock (some (65536, fun _ => 1))]

/-- The address of a chunk that was given back is obtained again later. When all is over it has been
given back as often as it has come, twice. -/
theorem finalize_frees_all_comesAgain :
    ∃ p p', memoryPoolSystem.run blank comesAgain = some p ∧
      p.allocated = [242144, 222144, 202144, 111072] ∧
      p.released = [65536] ∧ p.finalize = some p' ∧ p'.chunks = ∅ ∧
      p'.released.Perm [65536, 196608, 65536] := by
  have hend : (memoryPoolSystem.run blank comesAgain).map (fun p => (p.allocated, p.released)) =
      some ([242144, 222144, 202144, 111072], [65536]) := by decide +kernel
  have hobtained : blank.obtained comesAgain = [65536, 196608, 65536] := by decide +kernel
  obtain ⟨p, hrun, hp⟩ := Option.map_eq_some_iff.mp hend
  obtain ⟨hallocated, hreleased⟩ := Prod.mk.inj hp
  obtain ⟨-, p', -, -, -, hfinalize, hchunks, -, -, -, -, -, -, hperm⟩ :=
    finalize_frees_all ⟨_, _, _, _, _, by decide, rfl⟩ hrun
  exact ⟨p, p', hrun, hallocated, hreleased, hfinalize, hchunks, hobtained ▸ hperm⟩

end Pixy.Mem
