import Mathlib.Order.Defs.Unbundled
import Mathlib.Logic.Equiv.Basic
import Mathlib.Data.Set.Function
import Mathlib.Order.Interval.Set.Defs
import Mathlib.Tactic.Common

/-!
# Binary heaps as order conditions on an array

An array `f : ℕ → α` of length `n` is a binary heap when no entry precedes the entry at its parent
index `(i - 1) / 2`. A sift moves one entry along a branch, a swap at a time, and everything it
needs is said by three conditions about the index `x` where that entry stands:

* `Weak`: all edges that do not touch `x` are in order, and so are its parent and its children;
* `Up`: moreover the entry precedes its children, so only the edge above may be wrong;
* `Down`: moreover the parent precedes the entry, so only the edges below may be wrong.

`Weak.swap_parent` and `Down.swap_child` are the two moves of a sift, `Up.ordered` and
`Down.ordered` its two ends. `Ordered.root` says what a heap is for.

`TotalPreorder` is what a three-way comparison must be for all this to apply to it. Nothing here
mentions the program.
-/

namespace Pixy.Found

variable {α : Type*}

/-- **A three-way comparison that orders its arguments.** -/
structure TotalPreorder (compare : α → α → ℤ) : Prop where
  /-- Exchanging the arguments turns the sign round. -/
  swap : ∀ a b, compare a b ≤ 0 ↔ 0 ≤ compare b a
  /-- At most is transitive. -/
  trans : ∀ a b c, compare a b ≤ 0 → compare b c ≤ 0 → compare a c ≤ 0

namespace TotalPreorder

variable {compare : α → α → ℤ}

/-- The order of the comparison. -/
def Le (compare : α → α → ℤ) (a b : α) : Prop := compare a b ≤ 0

/-- Every value stands in the order with itself, so a comparer that is a total preorder calls no
value less than itself. -/
theorem refl (h : TotalPreorder compare) (a : α) : Le compare a a := by
  have := h.swap a a
  unfold Le
  omega

/-- The order as an instance for Mathlib's lemmas about sorted lists and relations along a path. -/
theorem isTrans (h : TotalPreorder compare) : IsTrans α (Le compare) := ⟨h.trans⟩

/-- Comparison is total: if the first of two values is not below the second, then the second is
below it or level with it. -/
theorem le_of_nonneg (h : TotalPreorder compare) {a b : α} (hab : 0 ≤ compare a b) :
    Le compare b a :=
  (h.swap b a).mpr hab

/-- Being at most another value is not being above it, which is how the loops of a heap ask. -/
theorem not_lt (h : TotalPreorder compare) {a b : α} (hab : Le compare a b) : ¬ compare b a < 0 :=
  Int.not_lt.mpr ((h.swap a b).mp hab)

end TotalPreorder

/-- The index above an index. -/
def parent (i : ℕ) : ℕ := (i - 1) / 2

/-- A parent lies in front of its children, which is what the inductions over slots and the loop
upwards rest on. -/
theorem parent_lt {i : ℕ} (h : 0 < i) : parent i < i := by unfold parent; omega

/-- Slot `x` is the parent of slot `i` exactly if `i` is one of its two children, the left one at
`2x + 1` and the right one at `2x + 2`. -/
theorem parent_eq_iff {i x : ℕ} (h : 0 < i) : parent i = x ↔ i = 2 * x + 1 ∨ i = 2 * x + 2 := by
  unfold parent
  omega

/-! ## The conditions -/

section Conditions

variable (le : α → α → Prop) (n : ℕ) (f : ℕ → α) (x : ℕ)

/-- No entry precedes its parent. -/
def Ordered : Prop := ∀ i, 0 < i → i < n → le (f (parent i)) (f i)

/-- All is in order, except that the entry at `x` may precede its parent or follow its children. -/
structure Weak : Prop where
  /-- Edges that do not touch `x` are in order. -/
  edge : ∀ i, 0 < i → i < n → i ≠ x → parent i ≠ x → le (f (parent i)) (f i)
  /-- What stands above `x` precedes what stands below. -/
  across : ∀ i, 0 < i → i < n → parent i = x → 0 < x → le (f (parent x)) (f i)

/-- All is in order, except that the entry at `x` may precede its parent. -/
structure Up : Prop extends Weak le n f x where
  /-- The entry precedes its children. -/
  below : ∀ i, 0 < i → i < n → parent i = x → le (f x) (f i)

/-- All is in order, except that the entry at `x` may follow its children. -/
structure Down : Prop extends Weak le n f x where
  /-- The entry's parent precedes it. -/
  above : 0 < x → le (f (parent x)) (f x)

end Conditions

variable {le : α → α → Prop} {n : ℕ} {f g : ℕ → α} {x y : ℕ}

/-- In a heap the parent of an entry's parent precedes the entry, by transitivity across the two
edges. -/
theorem Ordered.across [IsTrans α le] (h : Ordered le n f) {i : ℕ} (hi : 0 < i) (hn : i < n)
    (hx : 0 < parent i) : le (f (parent (parent i))) (f i) :=
  trans_of le (h _ hx ((parent_lt hi).trans hn)) (h i hi hn)

/-- Changing one entry of a heap leaves the rest in order. -/
theorem Ordered.weak [IsTrans α le] (h : Ordered le n f) (hg : ∀ i ≠ x, g i = f i) :
    Weak le n g x where
  edge i hi hn hx hp := by
    rw [hg i hx, hg _ hp]
    exact h i hi hn
  across i hi hn hp hx := by
    subst hp
    rw [hg _ (parent_lt hx).ne, hg i (parent_lt hi).ne']
    exact h.across hi hn hx

/-- **The move upwards.** An entry that precedes its parent changes places with it; then only the
edge above it can still be wrong. -/
theorem Weak.swap_parent [IsTrans α le] (h : Weak le n f x) (hx : 0 < x) (hn : x < n)
    (hlt : le (f x) (f (parent x))) : Up le n (f ∘ Equiv.swap x (parent x)) (parent x) := by
  have hp := parent_lt hx
  -- the parent's own edges do not touch `x`, except the one between the two
  have hedge : ∀ i, 0 < i → i < n → i ≠ x → parent i = parent x → le (f (parent x)) (f i) :=
    fun i hi hin hne hpi => hpi ▸ h.edge i hi hin hne (by omega)
  have hgrand : 0 < parent x → le (f (parent (parent x))) (f (parent x)) := fun hpos => by
    have := parent_lt hpos
    exact h.edge _ hpos (by omega) (by omega) (by omega)
  refine ⟨⟨?_, ?_⟩, ?_⟩
  · intro i hi hin hne hpi
    have hix : i ≠ x := fun he => hpi (he ▸ rfl)
    have hi' : Equiv.swap x (parent x) i = i := Equiv.swap_apply_of_ne_of_ne hix hne
    by_cases hpx : parent i = x
    · have : Equiv.swap x (parent x) (parent i) = parent x := by rw [hpx, Equiv.swap_apply_left]
      simp only [Function.comp, hi', this]
      exact h.across i hi hin hpx hx
    · have : Equiv.swap x (parent x) (parent i) = parent i :=
        Equiv.swap_apply_of_ne_of_ne hpx hpi
      simp only [Function.comp, hi', this]
      exact h.edge i hi hin hix hpx
  · intro i hi hin hpi hpos
    have := parent_lt hpos
    have htop : Equiv.swap x (parent x) (parent (parent x)) = parent (parent x) :=
      Equiv.swap_apply_of_ne_of_ne (by omega) (by omega)
    by_cases hix : i = x
    · simp only [Function.comp, htop, hix, Equiv.swap_apply_left]
      exact hgrand hpos
    · have hi' : Equiv.swap x (parent x) i = i :=
        Equiv.swap_apply_of_ne_of_ne hix (by have := parent_lt hi; omega)
      simp only [Function.comp, htop, hi']
      exact trans_of le (hgrand hpos) (hedge i hi hin hix hpi)
  · intro i hi hin hpi
    simp only [Function.comp, Equiv.swap_apply_right]
    by_cases hix : i = x
    · rw [hix, Equiv.swap_apply_left]
      exact hlt
    · rw [Equiv.swap_apply_of_ne_of_ne hix (by have := parent_lt hi; omega)]
      exact trans_of le hlt (hedge i hi hin hix hpi)

/-- A sift upwards may end where the parent precedes the entry. -/
theorem Up.ordered (h : Up le n f x) (habove : 0 < x → le (f (parent x)) (f x)) :
    Ordered le n f := by
  intro i hi hn
  by_cases hp : parent i = x
  · exact hp ▸ h.below i hi hn hp
  · by_cases hx : i = x
    · subst hx
      exact habove hi
    · exact h.edge i hi hn hx hp

/-- **The move downwards.** An entry that follows the first of its children changes places with
it; then only the edges below it can still be wrong. -/
theorem Down.swap_child (h : Down le n f x) (hy : 0 < y) (hn : y < n) (hyx : parent y = x)
    (hlt : le (f y) (f x))
    (hfirst : ∀ i, 0 < i → i < n → parent i = x → le (f y) (f i)) :
    Down le n (f ∘ Equiv.swap x y) y := by
  have hxy : x < y := hyx ▸ parent_lt hy
  refine ⟨⟨?_, ?_⟩, ?_⟩
  · intro i hi hin hne hpi
    by_cases hix : i = x
    · subst hix
      have : parent i ≠ i := (parent_lt hi).ne
      simp only [Function.comp, Equiv.swap_apply_left, Equiv.swap_apply_of_ne_of_ne this hpi]
      exact h.across y hy hn hyx hi
    · have hi' : Equiv.swap x y i = i := Equiv.swap_apply_of_ne_of_ne hix hne
      by_cases hpx : parent i = x
      · simp only [Function.comp, hi', hpx, Equiv.swap_apply_left]
        exact hfirst i hi hin hpx
      · simp only [Function.comp, hi', Equiv.swap_apply_of_ne_of_ne hpx hpi]
        exact h.edge i hi hin hix hpx
  · intro i hi hin hpi hpos
    have := parent_lt hi
    have hi' : Equiv.swap x y i = i := Equiv.swap_apply_of_ne_of_ne (by omega) (by omega)
    simp only [Function.comp, hyx, Equiv.swap_apply_left, hi']
    exact hpi ▸ h.edge i hi hin (by omega) (by omega)
  · intro hpos
    simp only [Function.comp, hyx, Equiv.swap_apply_left, Equiv.swap_apply_right]
    exact hlt

/-- A sift downwards may end where the entry precedes its children. -/
theorem Down.ordered (h : Down le n f x)
    (hbelow : ∀ i, 0 < i → i < n → parent i = x → le (f x) (f i)) : Ordered le n f :=
  Up.ordered ⟨h.toWeak, hbelow⟩ h.above

/-- **The root of a heap precedes every entry.** By strong induction over the position: an entry
comes after its parent, and the parent after the root. -/
theorem Ordered.root [IsTrans α le] (hrefl : ∀ a, le a a) (h : Ordered le n f) (i : ℕ)
    (hi : i < n) : le (f 0) (f i) := by
  induction i using Nat.strong_induction_on with
  | _ i ih =>
      rcases Nat.eq_zero_or_pos i with rfl | hpos
      · exact hrefl _
      · have hp := parent_lt hpos
        exact trans_of le (ih _ hp (hp.trans hi)) (h i hpos hi)

/-! ## Entries all different -/

/-- Exchanging two entries does not change what the array holds, only which position holds which. -/
theorem bijOn_comp_swap {f : ℕ → α} {s : Set α} (h : Set.BijOn f (Set.Iio n) s) (hx : x < n)
    (hy : y < n) : Set.BijOn (f ∘ Equiv.swap x y) (Set.Iio n) s := by
  refine h.comp (Equiv.bijOn _ fun i => ?_)
  by_cases hix : i = x
  · simp [hix, hx, hy]
  · by_cases hiy : i = y
    · simp [hiy, hx, hy]
    · rw [Equiv.swap_apply_of_ne_of_ne hix hiy]

/-- Putting one more entry behind those there are makes it one of the items, and positions and items
still correspond one to one. -/
theorem bijOn_Iio_succ {f g : ℕ → α} {s : Set α} {a : α} (h : Set.BijOn f (Set.Iio n) s)
    (ha : a ∉ s) (hg : ∀ i < n, g i = f i) (hgn : g n = a) :
    Set.BijOn g (Set.Iio (n + 1)) (insert a s) := by
  have hlt : Set.BijOn g (Set.Iio n) s := h.congr fun i hi => (hg i hi).symm
  have hset : Set.Iio (n + 1) = insert n (Set.Iio n) := by
    ext i
    simp only [Set.mem_Iio, Set.mem_insert_iff]
    omega
  rw [hset, ← hgn]
  exact hlt.insert (by rwa [hgn])

/-- One entry less: the last one takes the place of the entry that goes, and the others stay. -/
theorem bijOn_Iio_pred {f g : ℕ → α} {s : Set α} (h : Set.BijOn f (Set.Iio (n + 1)) s)
    (hx : x < n + 1) (hgx : g x = f n) (hg : ∀ i < n, i ≠ x → g i = f i) :
    Set.BijOn g (Set.Iio n) (s \ {f x}) := by
  have hn : n ∈ Set.Iio (n + 1) := Nat.lt_succ_self n
  have hinj : ∀ {i j}, i < n + 1 → j < n + 1 → f i = f j → i = j := fun hi hj => h.injOn hi hj
  refine ⟨fun i hi => ?_, fun i hi j hj hij => ?_, fun a ha => ?_⟩
  · have hi : i < n := hi
    by_cases hix : i = x
    · subst hix
      exact ⟨hgx ▸ h.mapsTo hn, fun he => by have := hinj (by omega) hx (hgx ▸ he); omega⟩
    · rw [hg i hi hix]
      have hi' : i < n + 1 := by omega
      exact ⟨h.mapsTo hi', fun he => hix (hinj hi' hx he)⟩
  · have hi : i < n := hi
    have hj : j < n := hj
    by_cases hix : i = x <;> by_cases hjx : j = x
    · rw [hix, hjx]
    · rw [hix, hgx, hg j hj hjx] at hij
      have := hinj (by omega) (by omega) hij
      omega
    · rw [hjx, hgx, hg i hi hix] at hij
      have := hinj (by omega) (by omega) hij
      omega
    · rw [hg i hi hix, hg j hj hjx] at hij
      exact hinj (by omega) (by omega) hij
  · obtain ⟨i, hi, rfl⟩ := h.surjOn ha.1
    have hi : i < n + 1 := hi
    have hix : i ≠ x := fun he => ha.2 (he ▸ rfl)
    by_cases hin : i = n
    · exact ⟨x, show x < n by omega, hin ▸ hgx⟩
    · have hlt : i < n := by omega
      exact ⟨i, hlt, hg i hlt hix⟩

end Pixy.Found
