import Pixy.Mem.Blocks

/-!
# The two lists of chunks

`Listed` says which chunks are in which list, and that in the usable list those that are wholly free
come first. There is a lemma for every way in which the code moves a chunk. Together with `Stored`
it is the invariant, `Shape`.
-/

namespace Pixy.Mem

open Pixy.Found

/-- What has the value comes before what has not. -/
def Ordered (value : ℤ) (f : ℕ → ℤ) (l : List ℕ) : Prop :=
  l.Pairwise fun a b => f b = value → f a = value

section Ordered

variable {value x : ℤ} {f f' : ℕ → ℤ} {l l' : List ℕ} {c : ℕ}

/-- Whether a list is ordered depends only on the values at its items. -/
theorem Ordered.congr (h : Ordered value f l) (hsame : ∀ a ∈ l, f' a = f a) : Ordered value f' l :=
  List.Pairwise.imp_of_mem (fun ha hb hab => by rwa [hsame _ ha, hsame _ hb]) h

/-- A list stays ordered when the value of something that is not in it is changed. -/
theorem Ordered.update (h : Ordered value f l) (hc : c ∉ l) :
    Ordered value (Function.update f c x) l :=
  h.congr fun _ ha => Function.update_of_ne (ne_of_mem_of_not_mem ha hc) _ _

/-- At the back there is room for what has not the value, and for anything if all have it. -/
theorem Ordered.append (h : Ordered value f l) (hc : f c = value → ∀ a ∈ l, f a = value) :
    Ordered value f (l ++ [c]) := by
  refine List.pairwise_append.mpr ⟨h, List.pairwise_singleton _ _, fun a ha b hb => ?_⟩
  rw [List.mem_singleton.mp hb]
  exact fun hvalue => hc hvalue a ha

/-- At the front of an ordered list there is room for what has the value that those at the front
have. -/
theorem Ordered.cons (h : Ordered value f l) (hc : f c = value) : Ordered value f (c :: l) :=
  List.pairwise_cons.mpr ⟨fun _ _ _ => hc, h⟩

/-- What gets the value may stay where it is if all before it have it. -/
theorem Ordered.fill (h : Ordered value f (l ++ c :: l')) (hnodup : (l ++ c :: l').Nodup)
    (hbefore : ∀ a ∈ l, f a = value) :
    Ordered value (Function.update f c value) (l ++ c :: l') := by
  have hcl : c ∉ l := fun hin => List.disjoint_of_nodup_append hnodup hin List.mem_cons_self
  have hcl' : c ∉ l' := (List.nodup_cons.mp (List.nodup_append.mp hnodup).2.1).1
  have hfull : ∀ a ∈ l, Function.update f c value a = value := fun a ha => by
    rw [Function.update_of_ne (ne_of_mem_of_not_mem ha hcl)]
    exact hbefore a ha
  obtain ⟨-, hright, -⟩ := List.pairwise_append.mp h
  refine List.pairwise_append.mpr ⟨?_, ?_, fun a ha b _ _ => hfull a ha⟩
  · exact List.pairwise_of_forall_mem_list fun a ha b _ _ => hfull a ha
  · exact (Ordered.update (List.pairwise_cons.mp hright).2 hcl').cons (Function.update_self _ _ _)

/-- What has not the value may change as long as it does not get it. -/
theorem Ordered.change (h : Ordered value f l) (hc : f c ≠ value) (hx : x ≠ value) :
    Ordered value (Function.update f c x) l := by
  refine List.Pairwise.imp (fun {a b} hab hb => ?_) h
  have hbc : b ≠ c := by
    rintro rfl
    rw [Function.update_self] at hb
    exact hx hb
  rw [Function.update_of_ne hbc] at hb
  have hac : a ≠ c := by
    rintro rfl
    exact hc (hab hb)
  rw [Function.update_of_ne hac]
  exact hab hb

/-- What gets the value may go to the front, and the list without it in its old place is ordered. -/
theorem Ordered.toFront (h : Ordered value f (l ++ c :: l')) (hnodup : (l ++ c :: l').Nodup) :
    Ordered value (Function.update f c value) (c :: (l ++ l')) := by
  have hmiddle := List.nodup_cons.mp (List.nodup_middle.mp hnodup)
  have hrest : Ordered value f (l ++ l') :=
    List.Pairwise.sublist (List.Sublist.append_left (List.sublist_cons_self c l') l) h
  exact (hrest.update hmiddle.1).cons (Function.update_self _ _ _)

end Ordered

namespace MemoryPool

/-- **The lists.** -/
structure Listed (p : MemoryPool) (usable unusable : List ℕ) : Prop where
  usableRing : p.links.Ring .usableChunkListHead (usable.map .listItem)
  unusableRing : p.links.Ring .unusableChunkListHead (unusable.map .listItem)
  mem_usable : ∀ c, c ∈ usable ↔ c ∈ p.chunks ∧ 0 < p.numberOfFreeSlots c
  mem_unusable : ∀ c, c ∈ unusable ↔ c ∈ p.chunks ∧ p.numberOfFreeSlots c = 0
  ordered : Ordered p.numberOfSlotsPerChunk p.numberOfFreeSlots usable

/-- **The invariant.** -/
structure Shape (p : MemoryPool) (free : ℕ → List ℕ) (usable unusable : List ℕ) : Prop where
  stored : p.Stored free
  listed : p.Listed usable unusable

variable {p p' : MemoryPool} {free : ℕ → List ℕ} {usable unusable l l' : List ℕ} {b c : ℕ}

namespace Listed

/-- No chunk is twice in the usable list, which is a ring. -/
theorem usable_nodup (h : p.Listed usable unusable) : usable.Nodup :=
  (List.nodup_cons.mp h.usableRing.2).2.of_map

/-- No chunk is twice in the unusable list, which is a ring. -/
theorem unusable_nodup (h : p.Listed usable unusable) : unusable.Nodup :=
  (List.nodup_cons.mp h.unusableRing.2).2.of_map

/-- No chunk is in both lists, as a usable chunk has a free slot and an unusable one has none. -/
theorem disjoint (h : p.Listed usable unusable) : List.Disjoint usable unusable := by
  intro c hc hc'
  have hpos := ((h.mem_usable c).mp hc).2
  have hzero := ((h.mem_unusable c).mp hc').2
  omega

/-- The two rings have no node in common, neither a head nor an item, so that an operation on one
leaves the other alone. -/
theorem apart (h : p.Listed usable unusable) :
    List.Disjoint (ChunkNode.usableChunkListHead :: usable.map .listItem)
      (ChunkNode.unusableChunkListHead :: unusable.map .listItem) := by
  intro node hin hin'
  simp only [List.mem_cons, List.mem_map] at hin hin'
  obtain rfl | ⟨c, hc, rfl⟩ := hin
  · simp at hin'
  · obtain heq | ⟨c', hc', heq⟩ := hin'
    · cases heq
    · cases heq
      exact h.disjoint hc hc'

/-- The usable list is empty exactly when the code says so, by looking at the links of its head. -/
theorem isEmpty_iff (h : p.Listed usable unusable) :
    p.links.IsEmpty .usableChunkListHead ↔ usable = [] := by
  rw [h.usableRing.isEmpty_iff, List.map_eq_nil_iff]

/-- **The last chunk of the usable list becomes full**, as its only free slot has been taken, and
moves to the back of the other list. -/
theorem fillUp (h : p.Listed (l ++ [c]) unusable) {freeSlot : ℕ → ℕ} {allocated : List ℕ} :
    Listed { p with
      links := (p.links.remove (.listItem c)).insertBack .unusableChunkListHead (.listItem c)
      freeSlot := freeSlot
      numberOfFreeSlots := Function.update p.numberOfFreeSlots c 0
      allocated := allocated } l (unusable ++ [c]) := by
  have hring := h.usableRing
  have hapart := h.apart
  rw [List.map_append, List.map_singleton] at hring hapart
  obtain ⟨husable, hunusable⟩ := hring.transfer h.unusableRing hapart
  have hc := (h.mem_usable c).mp (by simp)
  have hcl : c ∉ l := fun hin => List.disjoint_of_nodup_append h.usable_nodup hin (by simp)
  have hcu : c ∉ unusable := fun hin => h.disjoint (by simp) hin
  refine ⟨by simpa using husable, by simpa using hunusable, fun x => ?_, fun x => ?_, ?_⟩
  · by_cases hxc : x = c
    · subst hxc
      simp [hcl]
    · have hx := h.mem_usable x
      simpa [hxc] using hx
  · by_cases hxc : x = c
    · subst hxc
      simp [hc.1]
    · have hx := h.mem_unusable x
      simpa [hxc] using hx
  · have hleft : Ordered p.numberOfSlotsPerChunk p.numberOfFreeSlots l :=
      (List.pairwise_append.mp h.ordered).1
    exact hleft.update hcl

/-- **A full chunk becomes usable.** It leaves the one list and goes to the back of the other, with
the one slot that has come back. -/
theorem reopen (h : p.Listed usable (l ++ c :: l')) {freeSlot : ℕ → ℕ} {allocated : List ℕ}
    {bytes : Bytes}
    (hone : p.numberOfSlotsPerChunk = 1 → ∀ a ∈ usable, p.numberOfFreeSlots a = 1) :
    Listed { p with
      links := (p.links.remove (.listItem c)).insertBack .usableChunkListHead (.listItem c)
      freeSlot := freeSlot
      numberOfFreeSlots := Function.update p.numberOfFreeSlots c 1
      bytes := bytes
      allocated := allocated } (usable ++ [c]) (l ++ l') := by
  have hring := h.unusableRing
  have hapart := h.apart
  rw [List.map_append, List.map_cons] at hring hapart
  obtain ⟨hunusable, husable⟩ := hring.transfer h.usableRing hapart.symm
  have hc := (h.mem_unusable c).mp (by simp)
  have hcl : c ∉ l ++ l' := (List.nodup_cons.mp (List.nodup_middle.mp h.unusable_nodup)).1
  have hcu : c ∉ usable := fun hin => h.disjoint hin (by simp)
  refine ⟨by simpa using husable, by simpa using hunusable, fun x => ?_, fun x => ?_, ?_⟩
  · by_cases hxc : x = c
    · subst hxc
      simp [hc.1]
    · have hx := h.mem_usable x
      simpa [hxc] using hx
  · by_cases hxc : x = c
    · subst hxc
      simpa using hcl
    · have hx := h.mem_unusable x
      simpa [hxc] using hx
  · refine (h.ordered.update hcu).append fun hvalue a ha => ?_
    rw [Function.update_self] at hvalue
    rw [Function.update_of_ne (ne_of_mem_of_not_mem ha hcu), hone hvalue.symm a ha]
    exact hvalue

/-- **A usable chunk stays where it is** with another number of free slots. -/
theorem recount (h : p.Listed usable unusable) (hc : c ∈ usable) {n : ℤ} (hn : 0 < n)
    {freeSlot : ℕ → ℕ} {allocated : List ℕ} {bytes : Bytes}
    (hordered : Ordered p.numberOfSlotsPerChunk (Function.update p.numberOfFreeSlots c n) usable) :
    Listed { p with
      freeSlot := freeSlot
      numberOfFreeSlots := Function.update p.numberOfFreeSlots c n
      bytes := bytes
      allocated := allocated } usable unusable := by
  have hcin := (h.mem_usable c).mp hc
  refine ⟨h.usableRing, h.unusableRing, fun x => ?_, fun x => ?_, hordered⟩
  · by_cases hxc : x = c
    · subst hxc
      simp [hc, hcin.1, hn]
    · simpa [hxc] using h.mem_usable x
  · by_cases hxc : x = c
    · subst hxc
      have hcu : x ∉ unusable := fun hin => h.disjoint hc hin
      simp [hcu, hn.ne']
    · simpa [hxc] using h.mem_unusable x

/-- **A usable chunk goes to the front** as it becomes wholly free. -/
theorem moveToFront (h : p.Listed (l ++ c :: l') unusable) {n : ℤ}
    (hn : n = p.numberOfSlotsPerChunk) (hpos : 0 < n) {freeSlot : ℕ → ℕ} {allocated : List ℕ}
    {bytes : Bytes} :
    Listed { p with
      links := (p.links.remove (.listItem c)).insertFront .usableChunkListHead (.listItem c)
      freeSlot := freeSlot
      numberOfFreeSlots := Function.update p.numberOfFreeSlots c n
      bytes := bytes
      allocated := allocated } (c :: (l ++ l')) unusable := by
  have hring := h.usableRing
  have hapart := h.apart
  rw [List.map_append, List.map_cons] at hring hapart
  have hremoved := hring.remove
  have hother := hring.remove_apart h.unusableRing hapart
  have hfront := hremoved.insertFront hring.not_mem_rest
  refine ⟨by simpa using hfront, ?_, fun x => ?_, fun x => ?_, ?_⟩
  · refine hremoved.insertFront_apart hother fun node hin hin' => hapart ?_ hin'
    simp only [List.mem_cons, List.mem_append] at hin ⊢
    tauto
  · have hperm : x ∈ c :: (l ++ l') ↔ x ∈ l ++ c :: l' := List.perm_middle.mem_iff.symm
    rw [hperm]
    by_cases hxc : x = c
    · subst hxc
      have hx := (h.mem_usable x).mp (by simp)
      simp [hx.1, hpos]
    · simpa [hxc] using h.mem_usable x
  · by_cases hxc : x = c
    · subst hxc
      have hcu : x ∉ unusable := fun hin => h.disjoint (by simp) hin
      simp [hcu, hpos.ne']
    · simpa [hxc] using h.mem_unusable x
  · subst hn
    exact h.ordered.toFront h.usable_nodup

/-- **A new chunk** comes to the front of the usable list, with all its slots free. -/
theorem grow (h : p.Listed usable unusable) (hnew : c ∉ p.chunks)
    (hpos : 0 < p.numberOfSlotsPerChunk) {freeSlot : ℕ → ℕ} {bytes : Bytes} :
    Listed { p with
      links := p.links.insertFront .usableChunkListHead (.listItem c)
      chunks := insert c p.chunks
      freeSlot := freeSlot
      numberOfFreeSlots := Function.update p.numberOfFreeSlots c p.numberOfSlotsPerChunk
      bytes := bytes } (c :: usable) unusable := by
  have hcu : c ∉ usable := fun hin => hnew ((h.mem_usable c).mp hin).1
  have hcn : c ∉ unusable := fun hin => hnew ((h.mem_unusable c).mp hin).1
  have hfront := h.usableRing.insertFront (x := .listItem c) (by simpa using hcu)
  refine ⟨by simpa using hfront, ?_, fun x => ?_, fun x => ?_,
    (h.ordered.update hcu).cons (Function.update_self _ _ _)⟩
  · refine h.usableRing.insertFront_apart h.unusableRing fun node hin hin' => ?_
    rcases List.mem_cons.mp hin with rfl | hin
    · exact hcn (by simpa using hin')
    · exact h.apart hin hin'
  · by_cases hxc : x = c
    · subst hxc
      simp [hpos]
    · simpa [hxc] using h.mem_usable x
  · by_cases hxc : x = c
    · subst hxc
      simp [hcn, hpos.ne']
    · simpa [hxc] using h.mem_unusable x

/-- **The first chunk** of the usable list goes, as a chunk that is released does; the others keep
their places. -/
theorem drop (h : p.Listed (c :: usable) unusable) :
    Listed { p with
      links := p.links.remove (.listItem c)
      chunks := p.chunks.erase c
      released := p.released ++ [c] } usable unusable := by
  have hring : p.links.Ring .usableChunkListHead ([] ++ .listItem c :: usable.map .listItem) :=
    h.usableRing
  have hcu : c ∉ usable := (List.nodup_cons.mp h.usable_nodup).1
  have hcn : c ∉ unusable := fun hin => h.disjoint List.mem_cons_self hin
  refine ⟨hring.remove, hring.remove_apart h.unusableRing h.apart, fun x => ?_, fun x => ?_,
    (List.pairwise_cons.mp h.ordered).2⟩
  · by_cases hxc : x = c
    · subst hxc
      simp [hcu]
    · simpa [hxc] using h.mem_usable x
  · by_cases hxc : x = c
    · subst hxc
      simp [hcn]
    · simpa [hxc] using h.mem_unusable x

end Listed

end MemoryPool

end Pixy.Mem
