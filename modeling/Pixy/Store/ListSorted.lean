import Mathlib.Data.List.Induction
import Pixy.Store.ListSort

/-!
# The sort is safe, and sorts

* `Sorting.partition_spec`: the loop meets the pivot, whatever the comparer answers, and leaves the
  range as the items moved, the pivot, and the items left where they were;
* `Sorting.listQuicksort_spec`: a call on a range ends, rearranges the range and has to do with
  nothing else;
* `list_quicksort_safe` and `list_sort_sorts`: the two results.
-/

namespace Pixy.Store

open Pixy.Found

variable {α κ : Type} [DecidableEq α] {itemComparer : ItemComparer α κ} {head pivot last : α}
  {before after items smaller larger rest left right : List α} {front back : LinkField α}

namespace Sorting

variable {s s' : Sorting α κ} {steps : List (SortStep α)} {fuel : ℕ}

/-! ## The loop -/

/-- What the loop has done with the items behind the pivot: some are in front of it now. -/
structure Split (itemComparer : ItemComparer α κ) (head : α) (before : List α) (pivot : α)
    (items after smaller larger : List α) (s s' : Sorting α κ) (steps : List (SortStep α)) :
    Prop where
  ring : s'.links.Ring head (before ++ smaller ++ pivot :: (larger ++ after))
  perm : (smaller ++ larger).Perm items
  smaller : ∀ x ∈ smaller, ∃ memory, ¬0 ≤ (itemComparer memory x pivot).1
  larger : ∀ x ∈ larger, ∃ memory, 0 ≤ (itemComparer memory x pivot).1
  trace : s'.trace = s.trace ++ steps
  steps : ∀ step ∈ steps, ∃ x ∈ items, step = .compare x pivot ∨ step = .move x pivot
  outside : AgreeOutside (head :: (before ++ pivot :: (items ++ after))) s.links s'.links

/-- The memory after the comparer was called. -/
def compared (itemComparer : ItemComparer α κ) (s : Sorting α κ) (item other : α) : Sorting α κ :=
  (s.compare itemComparer item other).2

/-- One round of the loop, but for the step to the next item. -/
def visited (itemComparer : ItemComparer α κ) (s : Sorting α κ) (item other : α) : Sorting α κ :=
  if 0 ≤ (itemComparer s.comparer item other).1 then s.compared itemComparer item other
  else (s.compared itemComparer item other).move item other

/-- One round of the partition: the last item is compared with the pivot and perhaps moved, and it
was the last round if it was next to the pivot. -/
theorem partition_succ : s.partition itemComparer pivot (fuel + 1) last =
    if s.links.prev last ≠ pivot then
      (s.visited itemComparer last pivot).partition itemComparer pivot fuel (s.links.prev last)
    else some (s.visited itemComparer last pivot) := rfl

omit [DecidableEq α] in
/-- Where nothing behind the pivot is left to look at, nothing has been moved, and there is nothing
to do. -/
theorem split_nil (h : s.links.Ring head (before ++ pivot :: after)) :
    Split itemComparer head before pivot [] after [] [] s s [] where
  ring := by simpa using h
  perm := .nil
  smaller := by simp
  larger := by simp
  trace := (List.append_nil _).symm
  steps := by simp
  outside := .refl _ _

omit [DecidableEq α] in
/-- The last item stays where it is, and the loop goes on with those before it. -/
theorem Split.kept
    (h : Split itemComparer head before pivot rest (last :: after) smaller larger
      (s.compared itemComparer last pivot) s' steps)
    (hge : 0 ≤ (itemComparer s.comparer last pivot).1) :
    Split itemComparer head before pivot (rest ++ [last]) after smaller (larger ++ [last]) s s'
      (.compare last pivot :: steps) where
  ring := by simpa using h.ring
  perm := by
    rw [← List.append_assoc]
    exact h.perm.append_right [last]
  smaller := h.smaller
  larger x hx := by
    rcases List.mem_append.mp hx with hx | hx
    · exact h.larger x hx
    · exact ⟨s.comparer, List.mem_singleton.mp hx ▸ hge⟩
  trace := by simpa [compared, compare] using h.trace
  steps step hstep := by
    rcases List.mem_cons.mp hstep with rfl | hstep
    · exact ⟨last, by simp, .inl rfl⟩
    · obtain ⟨x, hx, heq⟩ := h.steps step hstep
      exact ⟨x, List.mem_append_left _ hx, heq⟩
  outside := by simpa [compared, compare] using h.outside

/-- What the move does to the ring: the item goes from behind the pivot to right in front of it, and
no node outside the ring is written. -/
theorem ring_move (h : s.links.Ring head (before ++ pivot :: (rest ++ last :: after))) :
    (s.move last pivot).links.Ring head (before ++ [last] ++ pivot :: (rest ++ after)) ∧
      AgreeOutside (head :: (before ++ pivot :: (rest ++ last :: after))) s.links
        (s.move last pivot).links := by
  rw [← List.cons_append, ← List.append_assoc] at h
  have hremoved := h.remove
  rw [List.append_assoc, List.cons_append] at hremoved
  have hlast : last ∉ head :: (before ++ pivot :: (rest ++ after)) := by
    simpa using h.not_mem_rest
  refine ⟨by simpa [move] using hremoved.insertBefore hlast, fun y hy => ?_⟩
  have hother := h.remove_other (y := y) fun hin => hy (by
    simp only [List.mem_cons, List.mem_append] at hin ⊢
    tauto)
  have hother' := hremoved.insertBefore_other (y := last) (z := y) fun hin => hy (by
    simp only [List.mem_cons, List.mem_append] at hin ⊢
    tauto)
  exact ⟨hother'.1.trans hother.1, hother'.2.trans hother.2⟩

/-- The last item is moved, and the loop goes on with those before it. -/
theorem Split.moved
    (h : Split itemComparer head (before ++ [last]) pivot rest after smaller larger
      ((s.compared itemComparer last pivot).move last pivot) s' steps)
    (hring : s.links.Ring head (before ++ pivot :: (rest ++ last :: after)))
    (hlt : ¬0 ≤ (itemComparer s.comparer last pivot).1) :
    Split itemComparer head before pivot (rest ++ [last]) after (last :: smaller) larger s s'
      (.compare last pivot :: .move last pivot :: steps) where
  ring := by simpa using h.ring
  perm := by
    rw [List.cons_append]
    exact (h.perm.cons last).trans (List.perm_append_singleton last rest).symm
  smaller x hx := by
    rcases List.mem_cons.mp hx with rfl | hx
    · exact ⟨s.comparer, hlt⟩
    · exact h.smaller x hx
  larger := h.larger
  trace := by simpa [compared, compare, move] using h.trace
  steps step hstep := by
    rcases List.mem_cons.mp hstep with rfl | hstep
    · exact ⟨last, by simp, .inl rfl⟩
    · rcases List.mem_cons.mp hstep with rfl | hstep
      · exact ⟨last, by simp, .inr rfl⟩
      · obtain ⟨x, hx, heq⟩ := h.steps step hstep
        exact ⟨x, List.mem_append_left _ hx, heq⟩
  outside := by
    have hmove := (ring_move (s := s.compared itemComparer last pivot) hring).2
    rw [List.append_assoc rest, List.singleton_append]
    refine hmove.trans h.outside fun y hy => ?_
    simp only [List.mem_cons, List.mem_append] at hy ⊢
    tauto

variable (itemComparer) in
/-- **One round.** The items before the one visited are between the pivot and what was kept, and
whatever the loop does with them makes up what it does with all. -/
theorem visited_spec (h : s.links.Ring head (before ++ pivot :: (rest ++ last :: after))) :
    ∃ before' after', (s.visited itemComparer last pivot).links.Ring head
        (before' ++ pivot :: (rest ++ after')) ∧
      ∀ s' smaller larger steps, Split itemComparer head before' pivot rest after' smaller larger
          (s.visited itemComparer last pivot) s' steps →
        ∃ smaller larger steps, Split itemComparer head before pivot (rest ++ [last]) after smaller
          larger s s' steps := by
  unfold visited
  by_cases hge : 0 ≤ (itemComparer s.comparer last pivot).1
  · rw [if_pos hge]
    exact ⟨before, last :: after, h, fun s' smaller larger steps hsplit =>
      ⟨_, _, _, hsplit.kept hge⟩⟩
  · rw [if_neg hge]
    refine ⟨before ++ [last], after, (ring_move (s := s.compared itemComparer last pivot) h).1,
      fun s' smaller larger steps hsplit => ⟨_, _, _, hsplit.moved h hge⟩⟩

omit [DecidableEq α] in
/-- The node before the item visited is the next to visit, or the pivot. -/
theorem prev_last (h : s.links.Ring head (before ++ pivot :: (rest ++ last :: after))) :
    s.links.prev last = (pivot :: rest).getLast (List.cons_ne_nil pivot rest) := by
  have hring : s.links.Ring pivot (rest ++ last :: (after ++ head :: before)) := by
    simpa using h.rotate
  exact hring.neighbours.1

variable (itemComparer) in
/-- **The loop** meets the pivot after as many rounds as there are items. -/
theorem partition_spec (h : s.links.Ring head (before ++ pivot :: (rest ++ last :: after)))
    (hfuel : rest.length < fuel) :
    ∃ s' smaller larger steps, s.partition itemComparer pivot fuel last = some s' ∧
      Split itemComparer head before pivot (rest ++ [last]) after smaller larger s s' steps := by
  induction rest using List.reverseRecOn generalizing last before after s fuel with
  | nil =>
      obtain ⟨fuel, rfl⟩ : ∃ k, fuel = k + 1 := ⟨fuel - 1, by simp at hfuel; omega⟩
      obtain ⟨before', after', hring, hrest⟩ := visited_spec itemComparer h
      have hprev : s.links.prev last = pivot := prev_last h
      obtain ⟨smaller, larger, steps, hsplit⟩ := hrest _ _ _ _ (split_nil hring)
      exact ⟨_, smaller, larger, steps, by rw [partition_succ, if_neg (not_not.mpr hprev)], hsplit⟩
  | append_singleton rest item ih =>
      obtain ⟨fuel, rfl⟩ : ∃ k, fuel = k + 1 := ⟨fuel - 1, by simp at hfuel; omega⟩
      obtain ⟨before', after', hring, hrest⟩ := visited_spec itemComparer h
      have hprev : s.links.prev last = item := by
        rw [prev_last h, List.getLast_cons (by simp), List.getLast_append_singleton]
      have hne : item ≠ pivot := by
        rintro rfl
        have hnodup := h.2
        simp [List.nodup_append] at hnodup
      rw [List.append_assoc, List.singleton_append] at hring
      obtain ⟨s', smaller, larger, steps, hloop, hsplit⟩ := ih hring (by simpa using hfuel)
      obtain ⟨smaller, larger, steps, hsplit⟩ := hrest _ _ _ _ hsplit
      refine ⟨s', smaller, larger, steps, ?_, hsplit⟩
      rw [partition_succ, hprev, if_pos hne]
      exact hloop

/-! ## A call -/

/-- What a call has done with the items of its range. -/
structure Arranged (itemComparer : ItemComparer α κ) (head : α) (left items right bound : List α)
    (s s' : Sorting α κ) (items' : List α) (steps : List (SortStep α)) : Prop where
  /-- The ring has the same items at the same places outside the range. -/
  ring : s'.links.Ring head (left ++ items' ++ right)
  /-- And the same items in it. -/
  perm : items'.Perm items
  trace : s'.trace = s.trace ++ steps
  /-- Nothing was done to items outside. -/
  within : ∀ step ∈ steps, step.Within head bound
  /-- Nothing was written outside the ring. -/
  outside : AgreeOutside (head :: (left ++ items ++ right)) s.links s'.links
  /-- If the comparer has an order, that is the order now. -/
  sorted : ∀ le, Orders itemComparer le items → items'.Pairwise le

/-- The call itself is noted. -/
def called (s : Sorting α κ) (front back : LinkField α) : Sorting α κ :=
  { s with trace := s.trace ++ [.call s.links front back] }

/-- What the induction is about: calls with some fuel. -/
def Works (itemComparer : ItemComparer α κ) (head : α) (fuel : ℕ) : Prop :=
  ∀ (s : Sorting α κ) (left items right : List α) (front back : LinkField α),
    Range s.links head left items right front back → items ≠ [] → items.length ≤ fuel →
    ∃ s' items' steps, s.listQuicksort itemComparer fuel front back = some s' ∧
      Arranged itemComparer head left items right items (s.called front back) s' items' steps

omit [DecidableEq α] in
/-- A range with at most one item is left as it is. -/
theorem arranged_refl {bound : List α} (h : s.links.Ring head (left ++ items ++ right))
    (hone : items.length ≤ 1) :
    Arranged itemComparer head left items right bound s s items [] where
  ring := h
  perm := .refl _
  trace := (List.append_nil _).symm
  within := by simp
  outside := .refl _ _
  sorted le _ := by
    rcases items with _ | ⟨x, _ | ⟨y, items⟩⟩
    · exact .nil
    · exact List.pairwise_singleton le x
    · simp at hone

/-- **A recursive call**, which is made if there is something in its range. -/
theorem half_spec {bound : List α} (hworks : Works itemComparer head fuel)
    (hrange : Range s.links head left items right front back) (hfuel : items.length ≤ fuel)
    (hsub : items ⊆ bound) (hlt : items.length < bound.length) {c : Prop} [Decidable c]
    (hc : c ↔ items ≠ []) :
    ∃ s' items' steps,
      (if c then s.listQuicksort itemComparer fuel front back else some s) = some s' ∧
      Arranged itemComparer head left items right bound s s' items' steps := by
  by_cases hne : items = []
  · refine ⟨s, items, [], if_neg fun h => hc.mp h hne, arranged_refl hrange.ring ?_⟩
    simp [hne]
  · obtain ⟨s', items', steps, hcall, h⟩ := hworks s left items right front back hrange hne hfuel
    refine ⟨s', items', .call s.links front back :: steps, by rw [if_pos (hc.mpr hne), hcall], ?_⟩
    refine ⟨h.ring, h.perm, by simpa [called] using h.trace, fun step hstep => ?_, h.outside,
      h.sorted⟩
    rcases List.mem_cons.mp hstep with rfl | hstep
    · exact ⟨left, items, right, hrange, hne, hsub, hlt⟩
    · exact (h.within step hstep).mono hsub hlt.le

omit [DecidableEq α] in
/-- There is something in front of the pivot if the first field does not lead to it. -/
theorem read_front_ne_iff {m : Links α} {inner : List α}
    (h : Range m head left inner (pivot :: right) front back) :
    front.read m ≠ pivot ↔ inner ≠ [] := by
  rw [h.read_front]
  rcases inner with _ | ⟨x, inner⟩
  · simp
  · have hnodup := h.ring.2
    have hne : x ≠ pivot := by
      rintro rfl
      simp [List.nodup_append] at hnodup
    simp [hne]

omit [DecidableEq α] in
/-- And there are items behind the pivot exactly if the second of the two ends is not the pivot
itself. -/
theorem read_back_ne_iff {m : Links α} {inner : List α}
    (h : Range m head (left ++ [pivot]) inner right front back) :
    back.read m ≠ pivot ↔ inner ≠ [] := by
  rw [h.read_back]
  rcases List.eq_nil_or_concat' inner with rfl | ⟨inner, x, rfl⟩
  · simp
  · have hnodup := h.ring.2
    have hne : x ≠ pivot := by
      rintro rfl
      simp [List.nodup_append] at hnodup
    simp [hne]

/-- The two recursive calls. -/
def halves (itemComparer : ItemComparer α κ) (fuel : ℕ) (s : Sorting α κ) (front back : LinkField α)
    (pivot : α) : Option (Sorting α κ) :=
  (if front.read s.links ≠ pivot then s.listQuicksort itemComparer fuel front (.prev pivot)
    else some s).bind fun s =>
      if back.read s.links ≠ pivot then s.listQuicksort itemComparer fuel (.next pivot) back
      else some s

/-- One call of the quicksort: nothing is done with a single item, and otherwise the items are
parted and both halves sorted. -/
theorem listQuicksort_succ : s.listQuicksort itemComparer (fuel + 1) front back =
    if back.read s.links = front.read s.links then some (s.called front back)
    else ((s.called front back).partition itemComparer (front.read s.links) fuel
      (back.read s.links)).bind fun s' =>
        s'.halves itemComparer fuel front back (front.read s.links) := rfl

/-- **Both recursive calls**: the ranges on either side of the pivot are disjoint, and the fields
that each call is given are still those of its neighbours. -/
theorem halves_spec {bound : List α} (hworks : Works itemComparer head fuel)
    (hrange : Range s.links head left (smaller ++ pivot :: larger) right front back)
    (hfuel : (smaller ++ larger).length ≤ fuel) (hsub : smaller ++ pivot :: larger ⊆ bound)
    (hlength : (smaller ++ larger).length < bound.length)
    (hsmaller : ∀ x ∈ smaller, ∃ memory, ¬0 ≤ (itemComparer memory x pivot).1)
    (hlarger : ∀ x ∈ larger, ∃ memory, 0 ≤ (itemComparer memory x pivot).1) :
    ∃ s' items' steps, s.halves itemComparer fuel front back pivot = some s' ∧
      Arranged itemComparer head left (smaller ++ pivot :: larger) right bound s s' items'
        steps := by
  rw [List.length_append] at hfuel hlength
  have hfirst : Range s.links head left smaller (pivot :: (larger ++ right)) front (.prev pivot) :=
    ⟨by simpa using hrange.ring, hrange.front, rfl⟩
  obtain ⟨s₁, smaller', steps₁, hcall₁, h₁⟩ := half_spec hworks hfirst (by omega)
    (fun x hx => hsub (List.mem_append_left _ hx)) (by omega) (read_front_ne_iff hfirst)
  have hsecond : Range s₁.links head (left ++ smaller' ++ [pivot]) larger right (.next pivot)
      back := ⟨by simpa using h₁.ring, by simp, hrange.back⟩
  obtain ⟨s₂, larger', steps₂, hcall₂, h₂⟩ := half_spec hworks hsecond (by omega)
    (fun x hx => hsub (by simp [hx])) (by omega) (read_back_ne_iff hsecond)
  refine ⟨s₂, smaller' ++ pivot :: larger', steps₁ ++ steps₂, ?_, ⟨by simpa using h₂.ring,
    h₁.perm.append (h₂.perm.cons pivot), by rw [h₂.trace, h₁.trace, List.append_assoc],
    fun step hstep => ?_, ?_, fun le hle => ?_⟩⟩
  · rw [halves, hcall₁]
    exact hcall₂
  · exact (List.mem_append.mp hstep).elim (h₁.within step) (h₂.within step)
  · have houtside := h₁.outside
    simp only [List.append_assoc, List.cons_append] at houtside ⊢
    refine houtside.trans h₂.outside fun y hy => ?_
    simp only [List.mem_cons, List.mem_append, List.not_mem_nil, or_false, h₁.perm.mem_iff]
      at hy ⊢
    tauto
  · -- the pivot is between the halves, so what is sorted on either side is sorted as a whole
    have hpivot : pivot ∈ smaller ++ pivot :: larger := by simp
    have hbelow : ∀ x ∈ smaller', le x pivot := fun x hx => by
      have hx := h₁.perm.mem_iff.mp hx
      exact (hle.sides (List.mem_append_left _ hx) hpivot).1 (hsmaller x hx)
    have habove : ∀ x ∈ larger', le pivot x := fun x hx => by
      have hx := h₂.perm.mem_iff.mp hx
      exact (hle.sides (by simp [hx]) hpivot).2 (hlarger x hx)
    have hsorted₁ := h₁.sorted le (hle.mono fun x hx => List.mem_append_left _ hx)
    have hsorted₂ := h₂.sorted le (hle.mono fun x hx => by simp [hx])
    refine List.pairwise_append.mpr ⟨hsorted₁, List.pairwise_cons.mpr ⟨habove, hsorted₂⟩, ?_⟩
    intro x hx y hy
    rcases List.mem_cons.mp hy with rfl | hy
    · exact hbelow x hx
    · have hxs := h₁.perm.mem_iff.mp hx
      have hys := h₂.perm.mem_iff.mp hy
      exact hle.trans x (by simp [hxs]) pivot hpivot y (by simp [hys]) (hbelow x hx) (habove y hy)

/-- **One level of the recursion**: if both halves are sorted as they should be with some fuel, then
the whole range is with one more. -/
theorem works_succ (hworks : Works itemComparer head fuel) :
    Works itemComparer head (fuel + 1) := by
  intro s left items right front back hrange hne hfuel
  obtain ⟨pivot, tail, rfl⟩ := List.exists_cons_of_ne_nil hne
  have hfront : front.read s.links = pivot := hrange.read_front
  have hback := hrange.read_back
  rw [listQuicksort_succ, hfront]
  rcases List.eq_nil_or_concat' tail with rfl | ⟨rest, last, rfl⟩
  · -- the first item is the last
    have hlast : back.read s.links = pivot := by rw [hback]; simp
    exact ⟨s.called front back, [pivot], [], if_pos hlast, arranged_refl hrange.ring le_rfl⟩
  · have hring : (s.called front back).links.Ring head
      (left ++ pivot :: (rest ++ last :: right)) := by
      simpa [called] using hrange.ring
    have hlast : back.read s.links = last := by rw [hback]; simp
    have hnepivot : last ≠ pivot := by
      rintro rfl
      have hnodup := hring.2
      simp [List.nodup_append] at hnodup
    simp only [List.length_cons, List.length_append, List.length_nil] at hfuel
    obtain ⟨s₁, smaller, larger, steps, hloop, hsplit⟩ :=
      partition_spec itemComparer hring (by omega : _ < fuel)
    have hlength := hsplit.perm.length_eq
    have hperm : (smaller ++ pivot :: larger).Perm (pivot :: (rest ++ [last])) :=
      List.perm_middle.trans (hsplit.perm.cons pivot)
    have hrange₁ : Range s₁.links head left (smaller ++ pivot :: larger) right front back :=
      ⟨by simpa using hsplit.ring, hrange.front, hrange.back⟩
    obtain ⟨s₂, items', steps', hhalves, h⟩ := halves_spec hworks hrange₁
      (by rw [hlength]; simpa using hfuel) hperm.subset (by rw [hlength]; simp) hsplit.smaller
      hsplit.larger
    refine ⟨s₂, items', steps ++ steps', ?_, ⟨h.ring, h.perm.trans hperm, ?_, fun step hstep => ?_,
      ?_, fun le hle => h.sorted le (hle.mono hperm.subset)⟩⟩
    · rw [hlast, if_neg hnepivot, hloop]
      exact hhalves
    · rw [h.trace, hsplit.trace, List.append_assoc]
    · rcases List.mem_append.mp hstep with hstep | hstep
      · obtain ⟨x, hx, rfl | rfl⟩ := hsplit.steps step hstep
        all_goals exact ⟨List.mem_cons_of_mem pivot hx, List.mem_cons_self⟩
      · exact h.within step hstep
    · have houtside := hsplit.outside
      simp only [List.append_assoc, List.cons_append, List.nil_append] at houtside ⊢
      refine houtside.trans h.outside fun y hy => ?_
      have hmem := hsplit.perm.mem_iff (a := y)
      simp only [List.mem_cons, List.mem_append, List.not_mem_nil, or_false] at hmem hy ⊢
      tauto

/-- **A call on a range that is not empty** ends with fuel for its items. -/
theorem works (itemComparer : ItemComparer α κ) (head : α) (fuel : ℕ) :
    Works itemComparer head fuel := by
  induction fuel with
  | zero =>
      intro s left items right front back _ hne hfuel
      exact absurd (List.length_eq_zero_iff.mp (Nat.le_zero.mp hfuel)) hne
  | succ fuel ih => exact works_succ ih

/-- **The whole ring** is a range, and if it is empty nothing is done. -/
theorem listSort_spec {m : Links α} (itemComparer : ItemComparer α κ) (h : m.Ring head items)
    (memory : κ) (trace : List (SortStep α)) (hfuel : items.length < fuel) :
    ∃ s items' steps, listSort itemComparer fuel ⟨m, memory, trace⟩ head = some s ∧
      Arranged itemComparer head [] items [] items
        ⟨m, memory, trace ++ [.call m (.next head) (.prev head)]⟩ s items' steps := by
  by_cases hne : items = []
  · obtain ⟨fuel, rfl⟩ : ∃ k, fuel = k + 1 := ⟨fuel - 1, by omega⟩
    subst hne
    have hsame : m.prev head = m.next head := h.1.2.trans h.1.1.symm
    exact ⟨_, [], [], if_pos hsame, arranged_refl h (Nat.zero_le 1)⟩
  · refine works itemComparer head fuel ⟨m, memory, trace⟩ [] items [] _ _ ⟨?_, rfl, rfl⟩
      hne hfuel.le
    simpa using h

/-- **A call is safe**: it is made with a range of the ring, and whatever the comparer remembers, it
ends and has to do with the items of this range only. -/
def Safe (itemComparer : ItemComparer α κ) (head : α) (links : Links α) (front back : LinkField α) :
    Prop :=
  ∃ left items right, Range links head left items right front back ∧
    ∀ memory trace fuel, items.length < fuel → ∃ s items' steps,
      listQuicksort itemComparer fuel ⟨links, memory, trace⟩ front back = some s ∧
      Arranged itemComparer head left items right items
        ⟨links, memory, trace ++ [.call links front back]⟩ s items' steps

end Sorting

/-- **The sort is safe with any comparer.** It ends, with the same items in the ring; the comparer
is called for items of the ring only, and so not for the head; and every call of `List_Quicksort` on
the way is safe for its own range. -/
theorem list_sort_safe (itemComparer : ItemComparer α κ) {m : Links α} (h : m.Ring head items)
    (memory : κ) {fuel : ℕ} (hfuel : items.length < fuel) :
    ∃ s items', Sorting.listSort itemComparer fuel ⟨m, memory, []⟩ head = some s ∧
      s.links.Ring head items' ∧ items'.Perm items ∧
      (∀ item other, .compare item other ∈ s.trace →
        item ∈ items ∧ other ∈ items ∧ item ≠ head ∧ other ≠ head) ∧
      (∀ item other, .move item other ∈ s.trace → item ∈ items ∧ other ∈ items) ∧
      ∀ links front back, .call links front back ∈ s.trace →
        Sorting.Safe itemComparer head links front back := by
  obtain ⟨s, items', steps, hsort, hs⟩ := Sorting.listSort_spec itemComparer h memory [] hfuel
  have htrace : s.trace = .call m (.next head) (.prev head) :: steps := hs.trace
  have hhead : ∀ x ∈ items, x ≠ head := fun x hx heq => (List.nodup_cons.mp h.2).1 (heq ▸ hx)
  refine ⟨s, items', hsort, by simpa using hs.ring, hs.perm, fun item other hin => ?_,
    fun item other hin => ?_, fun links front back hin => ?_⟩
  · rw [htrace] at hin
    obtain ⟨hitem, hother⟩ := hs.within _ ((List.mem_cons.mp hin).resolve_left (by simp))
    exact ⟨hitem, hother, hhead item hitem, hhead other hother⟩
  · rw [htrace] at hin
    exact hs.within _ ((List.mem_cons.mp hin).resolve_left (by simp))
  · rw [htrace] at hin
    rcases List.mem_cons.mp hin with heq | hin
    · cases heq
      exact ⟨[], items, [], ⟨by simpa using h, rfl, rfl⟩, fun memory trace fuel hfuel =>
        Sorting.listSort_spec itemComparer h memory trace hfuel⟩
    · obtain ⟨left, inner, right, hrange, hne, -, -⟩ := hs.within _ hin
      exact ⟨left, inner, right, hrange, fun memory trace fuel hfuel =>
        Sorting.works itemComparer head fuel ⟨links, memory, trace⟩ left inner right front
          back hrange
          hne hfuel.le⟩

/-- Five items, two of which are as good as two others. -/
def unsorted : Links ℕ :=
  (((((Links.mk id id).makeEmpty 0).insertBack 0 4).insertBack 0 7).insertBack 0 2).insertBack 0 5
    |>.insertBack 0 3

/-- This memory holds a ring with five items in no order. -/
theorem ring_unsorted : unsorted.Ring 0 [4, 7, 2, 5, 3] := by
  have h := (Links.mk id id).ring_makeEmpty 0
  have h := h.insertBack (x := 4) (by decide)
  have h := h.insertBack (x := 7) (by decide)
  have h := h.insertBack (x := 2) (by decide)
  have h := h.insertBack (x := 5) (by decide)
  exact h.insertBack (x := 3) (by decide)

/-- Answer yes and no in turn. -/
def inTurn : ItemComparer ℕ Bool := fun memory _ _ => (if memory then 0 else -1, !memory)

/-- A comparer that answers in turn, whatever it is asked, does not lead the sort astray: it ends,
and the items are those there were. -/
theorem list_sort_safe_inTurn :
    ∃ s items', Sorting.listSort inTurn 6 ⟨unsorted, true, []⟩ 0 = some s ∧
      s.links.Ring 0 items' ∧ items'.Perm [4, 7, 2, 5, 3] ∧
      (∀ item other, .compare item other ∈ s.trace →
        item ∈ [4, 7, 2, 5, 3] ∧ other ∈ [4, 7, 2, 5, 3] ∧ item ≠ 0 ∧ other ≠ 0) ∧
      (∀ item other, .move item other ∈ s.trace →
        item ∈ [4, 7, 2, 5, 3] ∧ other ∈ [4, 7, 2, 5, 3]) ∧
      ∀ links front back, .call links front back ∈ s.trace →
        Sorting.Safe inTurn 0 links front back :=
  list_sort_safe inTurn ring_unsorted true (by decide)

/-- **The sort sorts.** If the comparer answers for a total preorder on the items, then the ring is
in order in the end, and no links were written but those of the head and of its items. -/
theorem list_sort_sorts {m : Links α} (h : m.Ring head items) (le : α → α → Prop)
    (horders : Orders itemComparer le items) (memory : κ) {fuel : ℕ} (hfuel : items.length < fuel) :
    ∃ s items', Sorting.listSort itemComparer fuel ⟨m, memory, []⟩ head = some s ∧
      s.links.Ring head items' ∧ items'.Perm items ∧ items'.Pairwise le ∧
      AgreeOutside (head :: items) m s.links := by
  obtain ⟨s, items', steps, hsort, hs⟩ := Sorting.listSort_spec itemComparer h memory [] hfuel
  exact ⟨s, items', hsort, by simpa using hs.ring, hs.perm, hs.sorted le horders,
    by simpa using hs.outside⟩

/-- Compare by the half. -/
def byHalf : ItemComparer ℕ Unit := fun memory x y => ((x / 2 : ℕ) - (y / 2 : ℕ), memory)

/-- Five items sorted by the half of their number, by which some are alike: they come out in order,
and nothing else is written to. -/
theorem list_sort_sorts_byHalf :
    ∃ s items', Sorting.listSort byHalf 6 ⟨unsorted, (), []⟩ 0 = some s ∧
      s.links.Ring 0 items' ∧ items'.Perm [4, 7, 2, 5, 3] ∧
      items'.Pairwise (fun x y => x / 2 ≤ y / 2) ∧
      AgreeOutside [0, 4, 7, 2, 5, 3] unsorted s.links := by
  refine list_sort_sorts ring_unsorted (fun x y => x / 2 ≤ y / 2) ⟨?_, ?_, ?_⟩ () (by decide)
  · intro memory x _ y _
    simp only [byHalf]
    omega
  · intro x _ y _
    exact le_total _ _
  · intro x _ y _ z _ hxy hyz
    exact hxy.trans hyz

end Pixy.Store
