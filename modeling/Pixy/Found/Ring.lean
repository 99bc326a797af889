import Mathlib.Data.List.Nodup
import Mathlib.Logic.Function.Basic
import Mathlib.Tactic.Common

/-!
# Doubly linked rings

A ring with a head is an intrusive list: head and items are nodes of one kind, each with a pointer
to the node before and the node after it, and the head closes the circle. `Ring m h l` says that in
memory `m` the ring with head `h` has the items `l`, in order.

* `Ring.insertBack`, `Ring.insertFront`, `Ring.insertBefore`, `Ring.remove` and `ring_makeEmpty` say
  what the operations do to the ring they are applied to;
* the lemmas that end in `_other` that nothing else is touched;
* `Ring.congr` that a ring is seen through its own nodes only, so a ring whose nodes an operation
  does not touch stays what it was;
* `Ahead.keep` and `Ahead.remove` that who walks a ring and removes where it stands gets around.

Nothing here mentions the program.
-/

namespace Pixy.Found

variable {α : Type*}

/-- The links of all nodes. -/
@[ext]
structure Links (α : Type*) where
  /-- The node before. -/
  prev : α → α
  /-- The node after. -/
  next : α → α

namespace Links

/-- From `a` the items lead, one link after the other and back, to `b`. -/
def Path (m : Links α) : α → List α → α → Prop
  | a, [], b => m.next a = b ∧ m.prev b = a
  | a, x :: l, b => m.next a = x ∧ m.prev x = a ∧ m.Path x l b

/-- **A ring**, by its head and its items. -/
def Ring (m : Links α) (h : α) (l : List α) : Prop := m.Path h l h ∧ (h :: l).Nodup

/-- The links read backwards. -/
def flip (m : Links α) : Links α := ⟨m.next, m.prev⟩

/-- The head has no items. -/
def IsEmpty (m : Links α) (h : α) : Prop := m.prev h = h

instance [DecidableEq α] (m : Links α) (h : α) : Decidable (m.IsEmpty h) :=
  inferInstanceAs (Decidable (_ = _))

/-! ## The operations -/

section Operations

variable [DecidableEq α]

/-- Make the node the head of an empty ring. -/
def makeEmpty (m : Links α) (h : α) : Links α where
  prev := Function.update m.prev h h
  next := Function.update m.next h h

/-- Link a node between two. -/
def insertBetween (m : Links α) (x before after : α) : Links α where
  prev := Function.update (Function.update m.prev x before) after x
  next := Function.update (Function.update m.next before x) x after

/-- Link a node in front of the head. -/
def insertBack (m : Links α) (h x : α) : Links α := m.insertBetween x (m.prev h) h

/-- Link a node behind the head. -/
def insertFront (m : Links α) (h x : α) : Links α := m.insertBetween x h (m.next h)

/-- Link a node in front of another. -/
def insertBefore (m : Links α) (x y : α) : Links α := m.insertBetween x (m.prev y) y

/-- Link a node between the neighbours of another. -/
def replace (m : Links α) (y x : α) : Links α := m.insertBetween x (m.prev y) (m.next y)

/-- Link the neighbours of a node to each other. -/
def remove (m : Links α) (x : α) : Links α :=
  let m := { m with next := Function.update m.next (m.prev x) (m.next x) }
  { m with prev := Function.update m.prev (m.next x) (m.prev x) }

/-- The nodes met on the way from a node to the stop, with a bound on their number. -/
def walk (m : Links α) (stop : α) : ℕ → α → Option (List α)
  | 0, _ => none
  | k + 1, x => if x = stop then some [] else (m.walk stop k (m.next x)).map (x :: ·)

end Operations

/-! ## Paths and rings -/

variable {m m' : Links α} {a b h x : α} {l l' : List α}

/-- A path can be cut at any node on it, and two paths that meet in a node are one. -/
theorem path_append : m.Path a (l ++ x :: l') b ↔ m.Path a l x ∧ m.Path x l' b := by
  induction l generalizing a with
  | nil => simp [Path, and_assoc]
  | cons y l ih => simp [Path, ih, and_assoc]

/-- A path is seen through the links on it, so what other nodes are linked to makes no difference.
-/
theorem Path.congr (hp : m.Path a l b) (hnext : ∀ y ∈ a :: l, m'.next y = m.next y)
    (hprev : ∀ y ∈ l ++ [b], m'.prev y = m.prev y) : m'.Path a l b := by
  induction l generalizing a with
  | nil =>
      obtain ⟨hn, hb⟩ := hp
      exact ⟨(hnext a List.mem_cons_self).trans hn, (hprev b (by simp)).trans hb⟩
  | cons y l ih =>
      obtain ⟨hn, hy, hp⟩ := hp
      refine ⟨(hnext a List.mem_cons_self).trans hn, (hprev y (by simp)).trans hy, ih hp ?_ ?_⟩
      · exact fun z hz => hnext z (List.mem_cons_of_mem a hz)
      · exact fun z hz => hprev z (by simp only [List.cons_append, List.mem_cons]; exact .inr hz)

/-- **A ring is seen through its nodes.** Links that agree on the head and the items, whatever they
say of other nodes, form the same ring. -/
theorem Ring.congr (hr : m.Ring h l)
    (hsame : ∀ y ∈ h :: l, m'.prev y = m.prev y ∧ m'.next y = m.next y) : m'.Ring h l := by
  refine ⟨hr.1.congr (fun y hy => (hsame y hy).2) fun y hy => (hsame y ?_).1, hr.2⟩
  rcases List.mem_append.mp hy with hy | hy
  · exact List.mem_cons_of_mem h hy
  · exact List.mem_singleton.mp hy ▸ List.mem_cons_self

/-- The node behind a path is linked back to the last node of it. -/
theorem Path.prev_eq (hp : m.Path a l b) : m.prev b = (a :: l).getLast (List.cons_ne_nil a l) := by
  induction l generalizing a with
  | nil => exact hp.2
  | cons y l ih => exact (ih hp.2.2).trans (List.getLast_cons (List.cons_ne_nil y l)).symm

/-- And forth again: the node after the one before the end of a path is that end. -/
theorem Path.next_prev (hp : m.Path a l b) : m.next (m.prev b) = b := by
  induction l generalizing a with
  | nil =>
      rw [hp.2]
      exact hp.1
  | cons y l ih => exact ih hp.2.2

/-- The node before an item of a ring is linked to the item. -/
theorem Ring.next_prev (hr : m.Ring h l) (hx : x ∈ l) : m.next (m.prev x) = x := by
  obtain ⟨left, right, rfl⟩ := List.mem_iff_append.mp hx
  exact (path_append.mp hr.1).1.next_prev

/-- The item in front of the head, read backwards, is the last item of the ring, or the head itself
if there is none. -/
theorem Ring.prev_head (hr : m.Ring h l) :
    m.prev h = (h :: l).getLast (List.cons_ne_nil h l) :=
  hr.1.prev_eq

/-- The item behind the head is the first item of the ring, or the head itself if there is none. -/
theorem Ring.next_head (hr : m.Ring h l) : m.next h = (l ++ [h]).head (by simp) := by
  rcases l with _ | ⟨x, l⟩
  · exact hr.1.1
  · exact hr.1.1

/-- **A ring seen from one of its items**: the head is an item like the others. -/
theorem Ring.rotate (hr : m.Ring h (l ++ x :: l')) : m.Ring x (l' ++ h :: l) := by
  obtain ⟨hp, hp'⟩ := path_append.mp hr.1
  refine ⟨path_append.mpr ⟨hp', hp⟩, List.Perm.nodup ?_ hr.2⟩
  rw [← List.cons_append, ← List.cons_append]
  exact List.perm_append_comm

/-- Where a ring is cut in two, the ends of the halves are linked to each other. -/
theorem Ring.next_getLast (hr : m.Ring h (l ++ l')) :
    m.next ((h :: l).getLast (List.cons_ne_nil h l)) = (l' ++ [h]).head (by simp) := by
  rcases l' with _ | ⟨x, l'⟩
  · rw [List.append_nil] at hr
    rw [← hr.prev_head, hr.1.next_prev]
    rfl
  · obtain ⟨hp, -⟩ := path_append.mp hr.1
    rw [← hp.prev_eq, hp.next_prev]
    rfl

/-- In front of a place in the ring lies the node before it: the link backwards from there leads to
the last node of the left part, or to the head. -/
theorem Ring.prev_head_append (hr : m.Ring h (l ++ l')) :
    m.prev ((l' ++ [h]).head (by simp)) = (h :: l).getLast (List.cons_ne_nil h l) := by
  rcases l' with _ | ⟨x, l'⟩
  · rw [List.append_nil] at hr
    exact hr.prev_head
  · exact (path_append.mp hr.1).1.prev_eq

/-- A ring is empty when its head is linked to itself. -/
theorem Ring.isEmpty_iff (hr : m.Ring h l) : m.IsEmpty h ↔ l = [] := by
  unfold IsEmpty
  rw [hr.prev_head]
  rcases List.eq_nil_or_concat' l with rfl | ⟨l, y, rfl⟩
  · simp
  · have hne : y ≠ h := fun he => (List.nodup_cons.mp hr.2).1 (by simp [he])
    simp [hne]

/-- An item's links in a ring with another item lead to two nodes, and to one if it is alone. -/
theorem Ring.alone_iff (hr : m.Ring h (l ++ x :: l')) :
    m.prev x = m.next x ↔ l = [] ∧ l' = [] := by
  obtain ⟨hp, hp'⟩ := path_append.mp hr.1
  have hnodup := hr.2
  rcases List.eq_nil_or_concat' l with rfl | ⟨l, y, rfl⟩
  · rcases l' with _ | ⟨z, l'⟩
    · simp [hp.2, hp'.1]
    · have hne : z ≠ h := fun he => (List.nodup_cons.mp hnodup).1 (by simp [he])
      simp [hp.2, hp'.1, Ne.symm hne]
  · have hx : m.prev x = y := (path_append.mp hp).2.2
    rcases l' with _ | ⟨z, l'⟩
    · have hne : y ≠ h := fun he => (List.nodup_cons.mp hnodup).1 (by simp [he])
      simp [hx, hp'.1, hne]
    · have hne : y ≠ z := fun he => by
        subst he
        simp [List.nodup_append] at hnodup
      simp [hx, hp'.1, hne]

/-! ## Backwards -/

/-- A path read backwards is a path through the same items in reverse, from its end to its
beginning. -/
theorem Path.flip (hp : m.Path a l b) : m.flip.Path b l.reverse a := by
  induction l generalizing a with
  | nil => exact ⟨hp.2, hp.1⟩
  | cons x l ih =>
      obtain ⟨hnext, hprev, hp⟩ := hp
      rw [List.reverse_cons]
      exact path_append.mpr ⟨ih hp, hprev, hnext⟩

/-- **A ring read backwards** is a ring with the same head, and has its items in reverse. -/
theorem Ring.flip (hr : m.Ring h l) : m.flip.Ring h l.reverse :=
  ⟨hr.1.flip, List.nodup_cons.mpr ⟨fun hin => (List.nodup_cons.mp hr.2).1 (List.mem_reverse.mp hin),
    List.nodup_reverse.mpr (List.nodup_cons.mp hr.2).2⟩⟩

section Operations

variable [DecidableEq α]

/-- A removal, as the two assignments it is: the neighbours of the item are linked to each other. -/
theorem remove_def (m : Links α) (x : α) :
    m.remove x = ⟨Function.update m.prev (m.next x) (m.prev x),
      Function.update m.next (m.prev x) (m.next x)⟩ := by
  have hnext : Function.update m.next (m.prev x) (m.next x) x = m.next x := by
    by_cases hx : x = m.prev x
    · exact (congrArg _ hx).trans (Function.update_self _ _ _)
    · exact Function.update_of_ne hx _ _
  simp only [Links.remove, hnext]

/-- A removal is one backwards too: reading the links the other way round exchanges its two
assignments. -/
theorem remove_flip (m : Links α) (x : α) : m.flip.remove x = (m.remove x).flip := by
  rw [remove_def, remove_def]
  rfl

/-! ## What the operations do to a ring -/

/-- A head whose links lead to itself is a ring without items, whatever the memory held there
before. -/
theorem ring_makeEmpty (m : Links α) (h : α) : (m.makeEmpty h).Ring h [] :=
  ⟨⟨by simp [makeEmpty], by simp [makeEmpty]⟩, List.nodup_singleton h⟩

/-- **Insertion at the back.** A node that is not yet in the ring becomes its last item, between the
old last item and the head. -/
theorem Ring.insertBack (hr : m.Ring h l) (hx : x ∉ h :: l) :
    (m.insertBack h x).Ring h (l ++ [x]) := by
  have hlast := hr.prev_head
  obtain ⟨hp, hnodup⟩ := hr
  have hxh : x ≠ h := fun he => hx (by simp [he])
  have hnodup' : (h :: (l ++ [x])).Nodup := by
    rw [← List.cons_append]
    exact List.nodup_append_comm.mp (List.nodup_cons.mpr ⟨hx, hnodup⟩)
  refine ⟨path_append.mpr ⟨?_, ?_⟩, hnodup'⟩
  · rcases List.eq_nil_or_concat' l with rfl | ⟨l, y, rfl⟩
    · have hh : m.prev h = h := hp.2
      simp [Path, Links.insertBack, insertBetween, hh, hxh.symm, hxh]
    · have hy : m.prev h = y := by rw [hlast]; simp
      rw [path_append] at hp ⊢
      simp only [List.mem_cons, List.mem_append, List.nodup_cons] at *
      have hxy : x ≠ y := fun he => hx (by simp [he])
      have hyh : y ≠ h := fun he => hnodup.1 (by simp [he])
      refine ⟨hp.1.congr (fun z hz => ?_) fun z hz => ?_, ?_⟩
      · have hzy : z ≠ y := by
          rintro rfl
          rcases List.mem_cons.mp hz with rfl | hz
          · exact hyh rfl
          · exact (List.disjoint_of_nodup_append hnodup.2 hz) (by simp)
        have hzx : z ≠ x := by
          rintro rfl
          rcases List.mem_cons.mp hz with rfl | hz
          · exact hxh rfl
          · exact hx (by simp [hz])
        simp [Links.insertBack, insertBetween, hy, hzx, hzy]
      · have hzh : z ≠ h := by
          rintro rfl
          exact hnodup.1 (by simpa using hz)
        have hzx : z ≠ x := by
          rintro rfl
          exact hx (.inr (by simpa using hz))
        simp [Links.insertBack, insertBetween, hzx, hzh]
      · simp [Path, Links.insertBack, insertBetween, hy, hxy.symm, hxh]
  · simp [Path, Links.insertBack, insertBetween]

omit [DecidableEq α] in
/-- An item is in its ring once: it is neither the head nor one of the items in front of it or
behind it. -/
theorem Ring.not_mem_rest (hr : m.Ring h (l ++ x :: l')) : x ∉ h :: (l ++ l') :=
  (List.nodup_cons.mp (List.nodup_middle.mp (show (h :: l ++ x :: l').Nodup from hr.2))).1

omit [DecidableEq α] in
/-- The neighbours of an item, as the ends of the two halves of its ring. -/
theorem Ring.neighbours (hr : m.Ring h (l ++ x :: l')) :
    m.prev x = (h :: l).getLast (List.cons_ne_nil h l) ∧ m.next x = (l' ++ [h]).head (by simp) := by
  obtain ⟨hp, hp'⟩ := path_append.mp hr.1
  refine ⟨hp.prev_eq, ?_⟩
  rcases l' with _ | ⟨z, l'⟩
  · exact hp'.1
  · exact hp'.1

omit [DecidableEq α] in
/-- The same, as nodes of the ring other than the item. -/
theorem Ring.neighbours_mem (hr : m.Ring h (l ++ x :: l')) :
    m.prev x ∈ h :: l ∧ m.next x ∈ l' ++ [h] ∧ m.prev x ≠ x ∧ m.next x ≠ x := by
  obtain ⟨hprev, hnext⟩ := hr.neighbours
  have hp : m.prev x ∈ h :: l := hprev ▸ List.getLast_mem _
  have hn : m.next x ∈ l' ++ [h] := hnext ▸ List.head_mem _
  have hnodup : (h :: l ++ x :: l').Nodup := hr.2
  have hxh : x ≠ h := fun he => (List.nodup_cons.mp hr.2).1 (by simp [he])
  refine ⟨hp, hn, fun he => ?_, fun he => ?_⟩
  · exact List.disjoint_of_nodup_append hnodup (he ▸ hp) List.mem_cons_self
  · rcases List.mem_append.mp (he ▸ hn) with hin | hin
    · exact (List.nodup_cons.mp (List.nodup_append.mp hnodup).2.1).1 hin
    · exact hxh (List.mem_singleton.mp hin)

/-- A path is not broken by a removal next to it. -/
theorem Path.bypass {p q : α} (hp : m.Path a l b) (hpa : p ∉ a :: l) (hq : q ∉ l ++ [b]) :
    Path ⟨Function.update m.prev q p, Function.update m.next p q⟩ a l b := by
  refine hp.congr (fun y hy => ?_) fun y hy => ?_
  · have hne : y ≠ p := fun he => hpa (he ▸ hy)
    simp [hne]
  · have hne : y ≠ q := fun he => hq (he ▸ hy)
    simp [hne]

/-- **Removal.** The items in front of a node and those behind it are a ring without it, as its
neighbours are then linked to each other. -/
theorem Ring.remove (hr : m.Ring h (l ++ x :: l')) : (m.remove x).Ring h (l ++ l') := by
  obtain ⟨hprev, hnext⟩ := hr.neighbours
  have hnodup : (h :: l ++ x :: l').Nodup := hr.2
  have hsub : (h :: (l ++ l')).Nodup := by
    have := (List.nodup_middle.mp hnodup)
    exact (List.nodup_cons.mp this).2
  have hleft : (h :: l).Nodup := (List.nodup_append.mp hnodup).1
  have hdisj : ∀ y, y ∈ h :: l → y ∉ l' := fun y hy hy' =>
    List.disjoint_of_nodup_append hnodup hy (List.mem_cons_of_mem x hy')
  have hright : l'.Nodup := (List.nodup_cons.mp (List.nodup_append.mp hnodup).2.1).2
  obtain ⟨hp, hp'⟩ := path_append.mp hr.1
  refine ⟨?_, hsub⟩
  rw [remove_def]
  -- the two halves lose the links to the item and are linked to each other
  rcases List.eq_nil_or_concat' l with rfl | ⟨l, y, rfl⟩
  · have hy : m.prev x = h := hprev
    rcases l' with _ | ⟨z, l'⟩
    · have hz : m.next x = h := hnext
      simp [Path, hy, hz]
    · have hz : m.next x = z := hnext
      rw [hy, hz]
      refine ⟨by simp, by simp, hp'.2.2.bypass ?_ ?_⟩
      · exact fun hin => hdisj h List.mem_cons_self hin
      · rintro hin
        rcases List.mem_append.mp hin with hin | hin
        · exact (List.nodup_cons.mp hright).1 hin
        · exact hdisj h List.mem_cons_self (List.mem_singleton.mp hin ▸ List.mem_cons_self)
  · have hy : m.prev x = y := by rw [hprev]; simp
    have hyl : y ∉ h :: l := fun hin =>
      List.disjoint_of_nodup_append (by simpa using hleft : (h :: l ++ [y]).Nodup) hin (by simp)
    obtain ⟨hpl, -⟩ := path_append.mp hp
    rcases l' with _ | ⟨z, l'⟩
    · have hz : m.next x = h := hnext
      have hhl : h ∉ l ++ [y] := (List.nodup_cons.mp hleft).1
      rw [hy, hz, List.append_nil]
      exact path_append.mpr ⟨hpl.bypass hyl hhl, by simp [Path]⟩
    · have hz : m.next x = z := hnext
      have hzl : z ∉ l ++ [y] := fun hin =>
        hdisj z (List.mem_cons_of_mem h hin) List.mem_cons_self
      have hyl' : y ∉ z :: l' := hdisj y (by simp)
      rw [hy, hz, List.append_assoc]
      refine path_append.mpr ⟨hpl.bypass hyl hzl, by simp, by simp, hp'.2.2.bypass hyl' ?_⟩
      intro hin
      rcases List.mem_append.mp hin with hin | hin
      · exact (List.nodup_cons.mp hright).1 hin
      · exact hdisj h List.mem_cons_self (List.mem_singleton.mp hin ▸ List.mem_cons_self)

/-! ## What they leave alone -/

/-- Making a node an empty head links it to itself, and touches no other node. -/
theorem makeEmpty_other {y : α} (hy : y ≠ h) :
    (m.makeEmpty h).prev y = m.prev y ∧ (m.makeEmpty h).next y = m.next y := by
  simp [makeEmpty, hy]

/-- An insertion at the back touches nodes of the ring and the new item only. -/
theorem Ring.insertBack_other (hr : m.Ring h l) {y : α} (hy : y ∉ x :: h :: l) :
    (m.insertBack h x).prev y = m.prev y ∧ (m.insertBack h x).next y = m.next y := by
  have hlast : m.prev h ∈ h :: l := hr.prev_head ▸ List.getLast_mem _
  have hyx : y ≠ x := fun he => hy (he ▸ List.mem_cons_self)
  have hyl : y ∉ h :: l := fun hin => hy (List.mem_cons_of_mem x hin)
  have hyh : y ≠ h := fun he => hyl (he ▸ List.mem_cons_self)
  have hyp : y ≠ m.prev h := fun he => hyl (he ▸ hlast)
  simp [Links.insertBack, insertBetween, hyx, hyh, hyp]

/-- A removal touches the ring only, and not the item's own links. -/
theorem Ring.remove_other (hr : m.Ring h (l ++ x :: l')) {y : α} (hy : y ∉ h :: (l ++ l')) :
    (m.remove x).prev y = m.prev y ∧ (m.remove x).next y = m.next y := by
  obtain ⟨hp, hn, -, -⟩ := hr.neighbours_mem
  have hyp : y ≠ m.prev x := fun he => hy (by
    rw [he, ← List.cons_append]
    exact List.mem_append_left l' hp)
  have hyn : y ≠ m.next x := fun he => hy (by
    rw [he]
    rcases List.mem_append.mp hn with hin | hin
    · exact List.mem_cons_of_mem h (List.mem_append_right l hin)
    · exact List.mem_singleton.mp hin ▸ List.mem_cons_self)
  rw [remove_def]
  exact ⟨Function.update_of_ne hyn _ _, Function.update_of_ne hyp _ _⟩

/-- **Insertion in front of an item.** A node that is not yet in the ring comes between that item
and the one before it. -/
theorem Ring.insertBefore (hr : m.Ring h (l ++ x :: l')) {y : α} (hy : y ∉ h :: (l ++ x :: l')) :
    (m.insertBefore y x).Ring h (l ++ y :: x :: l') := by
  have hback : (m.insertBefore y x).Ring x (l' ++ h :: l ++ [y]) := by
    refine hr.rotate.insertBack fun hin => hy ?_
    simp only [List.mem_cons, List.mem_append] at hin ⊢
    tauto
  have := (List.append_assoc l' (h :: l) [y] ▸ hback).rotate
  simpa using this

/-- **Insertion at the front.** A node that is not yet in the ring becomes its first item, between
the head and the old first item. -/
theorem Ring.insertFront (hr : m.Ring h l) (hx : x ∉ h :: l) :
    (m.insertFront h x).Ring h (x :: l) := by
  rcases l with _ | ⟨y, l⟩
  · have hnext : m.next h = h := hr.1.1
    have hprev : m.prev h = h := hr.1.2
    have hback := hr.insertBack hx
    rw [Links.insertBack, hprev] at hback
    rwa [Links.insertFront, hnext]
  · have hnext : m.next h = y := hr.1.1
    have hprev : m.prev y = h := hr.1.2.1
    have hbefore := Ring.insertBefore (l := []) hr hx
    rw [Links.insertBefore, hprev] at hbefore
    rwa [Links.insertFront, hnext]

/-- An insertion at the front touches nodes of the ring and the new item only. -/
theorem Ring.insertFront_other (hr : m.Ring h l) {y : α} (hy : y ∉ x :: h :: l) :
    (m.insertFront h x).prev y = m.prev y ∧ (m.insertFront h x).next y = m.next y := by
  have hnext : m.next h ∈ h :: l := by
    rcases l with _ | ⟨z, l⟩
    · exact List.mem_cons.mpr (.inl hr.1.1)
    · exact List.mem_cons_of_mem h (List.mem_cons.mpr (.inl hr.1.1))
  have hyx : y ≠ x := fun he => hy (he ▸ List.mem_cons_self)
  have hyl : y ∉ h :: l := fun hin => hy (List.mem_cons_of_mem x hin)
  have hyh : y ≠ h := fun he => hyl (he ▸ List.mem_cons_self)
  have hyn : y ≠ m.next h := fun he => hyl (he ▸ hnext)
  simp [Links.insertFront, insertBetween, hyx, hyh, hyn]

/-- An insertion in front of an item touches nodes of the ring and the new item only. -/
theorem Ring.insertBefore_other (hr : m.Ring h (l ++ x :: l')) {y z : α}
    (hz : z ∉ y :: h :: (l ++ x :: l')) :
    (m.insertBefore y x).prev z = m.prev z ∧ (m.insertBefore y x).next z = m.next z := by
  refine hr.rotate.insertBack_other fun hin => hz ?_
  simp only [List.mem_cons, List.mem_append] at hin ⊢
  tauto

/-- After its removal an item's own links are what they were. -/
theorem Ring.remove_self (hr : m.Ring h (l ++ x :: l')) :
    (m.remove x).prev x = m.prev x ∧ (m.remove x).next x = m.next x :=
  hr.remove_other hr.not_mem_rest

/-! ## Insertion at any place -/

/-- **Insertion between two neighbours**, where the ring may be cut anywhere. -/
theorem Ring.insertBetween (hr : m.Ring h (l ++ l')) (hx : x ∉ h :: (l ++ l')) :
    (m.insertBetween x ((h :: l).getLast (List.cons_ne_nil h l))
      ((l' ++ [h]).head (by simp))).Ring h (l ++ x :: l') := by
  have hprev := hr.prev_head_append
  rcases l' with _ | ⟨z, l'⟩
  · rw [List.append_nil] at hr hx
    have hback := hr.insertBack hx
    rwa [Links.insertBack, hr.prev_head] at hback
  · have hbefore := hr.insertBefore hx
    have hz : m.prev z = (h :: l).getLast (List.cons_ne_nil h l) := hprev
    rwa [Links.insertBefore, hz] at hbefore

/-- An insertion between two neighbours touches nodes of the ring and the new item only. -/
theorem Ring.insertBetween_other (hr : m.Ring h (l ++ l')) {y : α}
    (hy : y ∉ x :: h :: (l ++ l')) :
    (m.insertBetween x ((h :: l).getLast (List.cons_ne_nil h l))
        ((l' ++ [h]).head (by simp))).prev y = m.prev y ∧
      (m.insertBetween x ((h :: l).getLast (List.cons_ne_nil h l))
        ((l' ++ [h]).head (by simp))).next y = m.next y := by
  have hprev := hr.prev_head_append
  rcases l' with _ | ⟨z, l'⟩
  · rw [List.append_nil] at hr hy
    have hback := hr.insertBack_other hy
    rwa [Links.insertBack, hr.prev_head] at hback
  · have hbefore := hr.insertBefore_other hy
    have hz : m.prev z = (h :: l).getLast (List.cons_ne_nil h l) := hprev
    rwa [Links.insertBefore, hz] at hbefore

/-- A replacement is a removal and an insertion in the same place. -/
theorem Ring.replace_eq {y : α} (hr : m.Ring h (l ++ y :: l')) :
    m.replace y x = (m.remove y).insertBetween x ((h :: l).getLast (List.cons_ne_nil h l))
      ((l' ++ [h]).head (by simp)) := by
  obtain ⟨hprev, hnext⟩ := hr.neighbours
  rw [remove_def, ← hprev, ← hnext]
  unfold replace Links.insertBetween
  ext z
  · by_cases hz : z = m.next y
    · simp [hz]
    · simp [Function.update_apply, hz]
  · by_cases hz : z = x
    · simp [hz]
    · by_cases hz' : z = m.prev y
      · simp [Function.update_apply, hz']
      · simp [hz, hz']

/-- **Replacement of an item.** A node that is not in the ring takes the place of one that is, and
the other items stay where they are. -/
theorem Ring.replace {y : α} (hr : m.Ring h (l ++ y :: l')) (hx : x ∉ h :: (l ++ y :: l')) :
    (m.replace y x).Ring h (l ++ x :: l') := by
  have hx' : x ∉ h :: (l ++ l') := by
    simp only [List.mem_cons, List.mem_append] at hx ⊢
    tauto
  rw [hr.replace_eq]
  exact hr.remove.insertBetween hx'

/-- It touches the other items, the head and the new item only. -/
theorem Ring.replace_other {y z : α} (hr : m.Ring h (l ++ y :: l'))
    (hz : z ∉ x :: h :: (l ++ l')) :
    (m.replace y x).prev z = m.prev z ∧ (m.replace y x).next z = m.next z := by
  have hinserted := hr.remove.insertBetween_other hz
  have hremoved := hr.remove_other (List.not_mem_of_not_mem_cons hz)
  rw [hr.replace_eq]
  exact ⟨hinserted.1.trans hremoved.1, hinserted.2.trans hremoved.2⟩

/-! ## Two rings -/

variable {k : α} {l₂ : List α}

/-- A removal from one of two rings leaves the other alone. -/
theorem Ring.remove_apart (hr : m.Ring h (l ++ x :: l')) (hk : m.Ring k l₂)
    (hapart : List.Disjoint (h :: (l ++ x :: l')) (k :: l₂)) : (m.remove x).Ring k l₂ := by
  refine hk.congr fun y hy => hr.remove_other fun hin => hapart ?_ hy
  simp only [List.mem_cons, List.mem_append] at hin ⊢
  tauto

/-- An insertion at the front writes to the new node and two of its own ring, so a ring that shares
no node with them stays what it is. -/
theorem Ring.insertFront_apart (hr : m.Ring h l) (hk : m.Ring k l₂)
    (hapart : List.Disjoint (x :: h :: l) (k :: l₂)) : (m.insertFront h x).Ring k l₂ :=
  hk.congr fun _ hy => hr.insertFront_other fun hin => hapart hin hy

/-- **An item is moved** from one ring to the back of another. -/
theorem Ring.transfer (hr : m.Ring h (l ++ x :: l')) (hk : m.Ring k l₂)
    (hapart : List.Disjoint (h :: (l ++ x :: l')) (k :: l₂)) :
    ((m.remove x).insertBack k x).Ring h (l ++ l') ∧
      ((m.remove x).insertBack k x).Ring k (l₂ ++ [x]) := by
  have hremoved := hr.remove
  have hother := hr.remove_apart hk hapart
  have hx : x ∉ k :: l₂ := fun hin => hapart (by simp) hin
  refine ⟨hremoved.congr fun y hy => hother.insertBack_other fun hin => ?_, hother.insertBack hx⟩
  rcases List.mem_cons.mp hin with rfl | hin
  · exact hr.not_mem_rest hy
  · refine hapart ?_ hin
    simp only [List.mem_cons, List.mem_append] at hy ⊢
    tauto

/-- **Visiting a ring.** With a bound above the number of items, all are met, in order. -/
theorem Path.walk_eq (hp : m.Path a l b) (hb : b ∉ l) {k : ℕ} (hk : l.length < k) :
    m.walk b k (m.next a) = some l := by
  induction l generalizing a k with
  | nil =>
      obtain ⟨k, rfl⟩ : ∃ j, k = j + 1 := ⟨k - 1, by simp at hk; omega⟩
      simp [walk, hp.1]
  | cons y l ih =>
      obtain ⟨k, rfl⟩ : ∃ j, k = j + 1 := ⟨k - 1, by simp at hk; omega⟩
      have hy : y ≠ b := fun he => hb (he ▸ List.mem_cons_self)
      have hk' : l.length < k := by simpa using hk
      simp [walk, hp.1, hy, ih hp.2.2 (fun hin => hb (List.mem_cons_of_mem y hin)) hk']

/-- The walk from the head visits the items in their order and ends at the head, for any number of
rounds larger than the number of items. -/
theorem Ring.walk_eq (hr : m.Ring h l) {k : ℕ} (hk : l.length < k) :
    m.walk h k (m.next h) = some l :=
  hr.1.walk_eq (List.nodup_cons.mp hr.2).1 hk

/-! ## What lies ahead -/

omit [DecidableEq α] in
/-- **Ahead of an item** are the items on the way to the stop; the item itself is reached from
behind. What is behind it may be in any state. -/
structure Ahead (m : Links α) (x : α) (l : List α) (stop : α) : Prop where
  path : m.Path x l stop
  behind : m.prev x ∉ x :: l
  nodup : (stop :: x :: l).Nodup

omit [DecidableEq α] in
/-- From the first item of a ring on, all others lie ahead, and the head behind them. -/
theorem Ring.ahead (hr : m.Ring h (x :: l)) : m.Ahead x l h where
  path := hr.1.2.2
  behind := by
    rw [hr.1.2.1]
    exact (List.nodup_cons.mp hr.2).1
  nodup := hr.2

omit [DecidableEq α] in
/-- The next item, when the links on the way to the stop are as before. -/
theorem Ahead.keep {y : α} (ha : m.Ahead x (y :: l) h)
    (hsame : ∀ z ∈ h :: y :: l, m'.prev z = m.prev z ∧ m'.next z = m.next z) : m'.Ahead y l h := by
  obtain ⟨⟨-, hprev, hpath⟩, -, hnodup⟩ := ha
  have hrest := (List.nodup_cons.mp hnodup).2
  refine ⟨hpath.congr (fun z hz => (hsame z (List.mem_cons_of_mem h hz)).2) fun z hz => ?_, ?_, ?_⟩
  · refine (hsame z ?_).1
    rcases List.mem_append.mp hz with hz | hz
    · exact List.mem_cons_of_mem h (List.mem_cons_of_mem y hz)
    · exact List.mem_singleton.mp hz ▸ List.mem_cons_self
  · rw [(hsame y (by simp)).1, hprev]
    exact (List.nodup_cons.mp hrest).1
  · exact hnodup.sublist ((List.sublist_cons_self x (y :: l)).cons_cons h)

/-- The same for the walk of a loop whose body has removed the item it was at: the items ahead are
those that followed it. -/
theorem Ahead.remove {y : α} (ha : m.Ahead x (y :: l) h)
    (hsame : ∀ z ∈ h :: y :: l, m'.prev z = (m.remove x).prev z ∧ m'.next z = (m.remove x).next z) :
    m'.Ahead y l h := by
  obtain ⟨⟨hnext, hprev, hpath⟩, hbehind, hnodup⟩ := ha
  have hrest : (y :: l).Nodup := (List.nodup_cons.mp (List.nodup_cons.mp hnodup).2).2
  have hstop : h ∉ y :: l := fun hin =>
    (List.nodup_cons.mp hnodup).1 (List.mem_cons_of_mem x hin)
  have hp : m.prev x ∉ y :: l := fun hin => hbehind (List.mem_cons_of_mem x hin)
  rw [remove_def, hnext] at hsame
  have hq : y ∉ l ++ [h] := by
    intro hin
    rcases List.mem_append.mp hin with hin | hin
    · exact (List.nodup_cons.mp hrest).1 hin
    · exact hstop (List.mem_singleton.mp hin ▸ List.mem_cons_self)
  refine ⟨(hpath.bypass hp hq).congr (fun z hz => (hsame z (List.mem_cons_of_mem h hz)).2)
    fun z hz => ?_, ?_, ?_⟩
  · refine (hsame z ?_).1
    rcases List.mem_append.mp hz with hz | hz
    · exact List.mem_cons_of_mem h (List.mem_cons_of_mem y hz)
    · exact List.mem_singleton.mp hz ▸ List.mem_cons_self
  · rw [(hsame y (by simp)).1]
    simpa using hp
  · exact hnodup.sublist ((List.sublist_cons_self x (y :: l)).cons_cons h)

/-- The links determine the items: following them from the head can give one list only. -/
theorem Ring.unique {k : List α} (hr : m.Ring h l) (hr' : m.Ring h k) : l = k := by
  have hl : m.walk h (l.length + k.length + 1) (m.next h) = some l := hr.walk_eq (by omega)
  have hk : m.walk h (l.length + k.length + 1) (m.next h) = some k := hr'.walk_eq (by omega)
  exact Option.some.inj (hl.symm.trans hk)

end Operations

end Links

end Pixy.Found
