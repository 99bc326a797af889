import Mathlib
import Pixy.Found.Runs
import Pixy.Store.Vector

/-!
# Growable arrays, byte by byte

`Vector.c` with the bytes of the elements and the block they are in. A call has one of four ends
(`setLength_cases`): the size asked for is the vector's already; it is 0 and everything is released;
`realloc` fails; or the bytes move to a block of that size.

* `Sized`: the size is 0 or a power of two, and the length is what fits, as a `ptrdiff_t`. Bytes as
  elements in a block of `2^63` bytes are the one case where it does not fit there (`toInt_div`).
* `setLength_delivers_iff`: when a call delivers what it reports.

`realloc` succeeds or fails as it likes, and fills what is new in a block as it likes.
-/

namespace Pixy.Store

open Pixy.Found

/-- A vector and the block of its elements.
Source: `Vector.h`, `struct Vector`. -/
structure ByteVector extends Vector where
  /-- The bytes from `elements` on. -/
  elements : ℕ → BitVec 8
  /-- How many of them there are in the block, none at the null pointer. -/
  allocated : ℕ

namespace ByteVector

/-- Source: `Vector.c`, `Vector_Initialize`. -/
def init (elementSize : BitVec 64) : ByteVector where
  toVector := .init elementSize
  elements := fun _ => 0
  allocated := 0

/-- `realloc` keeps what fits into both blocks; the rest is what it finds. -/
def realloc (self : ByteVector) (size : ℕ) (found : ℕ → BitVec 8) (i : ℕ) : BitVec 8 :=
  if i < min self.allocated size then self.elements i else found i

/-- `memset` to 0. -/
def zeroed (elements : ℕ → BitVec 8) (start stop i : ℕ) : BitVec 8 :=
  if start ≤ i ∧ i < stop then 0 else elements i

/-- `reallocated` is what `realloc` finds in the block, `none` where it fails.
Source: `Vector.c`, `Vector_SetLength`. -/
def setLength (self : ByteVector) (length : ℤ) (zeroNewElements : Bool)
    (reallocated : Option (ℕ → BitVec 8)) : ByteVector × Bool :=
  let size := nextPowerOfTwo (BitVec.ofInt 64 length * self.elementSize)
  if self.size = size then (self, true)
  else if size = 0 then ({ self with allocated := 0, size := 0, length := 0 }, true)
  else
    match reallocated with
    | none => (self, false)
    | some found =>
      let elements := self.realloc size.toNat found
      let elements :=
        if zeroNewElements && self.size < size then zeroed elements self.size.toNat size.toNat
        else elements
      ({ self with
          elements := elements
          allocated := size.toNat
          size := size
          length := (size / self.elementSize).toInt }, true)

/-- **The sizes are those of the vector without its bytes**: both succeed or fail together, and have
the same size and length afterwards. -/
theorem setLength_toVector (self : ByteVector) (length : ℤ) (zeroNewElements : Bool)
    (reallocated : Option (ℕ → BitVec 8)) :
    (self.toVector.setLength length reallocated.isSome) =
      ((self.setLength length zeroNewElements reallocated).1.toVector,
        (self.setLength length zeroNewElements reallocated).2) := by
  unfold setLength Vector.setLength
  dsimp only
  by_cases hsame : self.size = nextPowerOfTwo (BitVec.ofInt 64 length * self.elementSize)
  · rw [if_pos hsame, if_pos hsame]
  rw [if_neg hsame, if_neg hsame]
  by_cases hzero : nextPowerOfTwo (BitVec.ofInt 64 length * self.elementSize) = 0
  · rw [if_pos hzero, if_pos hzero]
  rw [if_neg hzero, if_neg hzero]
  cases reallocated with
  | none => rfl
  | some found => rfl

/-- The bytes of an element. -/
def element (self : ByteVector) (i : ℕ) : List (BitVec 8) :=
  (List.range self.elementSize.toNat).map fun k => self.elements (i * self.elementSize.toNat + k)

end ByteVector

/-- What can happen to a vector. -/
inductive VectorAction
  /-- `Vector_SetLength` is called. -/
  | setLength (length : ℤ) (zeroNewElements : Bool) (reallocated : Option (ℕ → BitVec 8))
  /-- The user writes a byte of an element. -/
  | write (i : ℕ) (byte : BitVec 8)

/-- One step. No length is negative, and each fits a `ptrdiff_t`; the user writes to elements below
the current length. -/
def ByteVector.step (self : ByteVector) : VectorAction → Option ByteVector
  | .setLength length zeroNewElements reallocated =>
    if 0 ≤ length ∧ length < 2 ^ 63 then
      some (self.setLength length zeroNewElements reallocated).1
    else none
  | .write i byte =>
    if (i / self.elementSize.toNat : ℕ) < self.length then
      some { self with elements := Function.update self.elements i byte }
    else none

/-- **A vector and its user.** -/
def vectorSystem (elementSize : BitVec 64) : StepSystem ByteVector VectorAction where
  init self := self = .init elementSize
  step := ByteVector.step

/-! ## Sizes -/

variable {size elementSize : BitVec 64} {length : ℤ}

/-- The bytes asked for: the product as a `size_t`. -/
def product (elementSize : BitVec 64) (length : ℤ) : ℕ :=
  length.toNat * elementSize.toNat % 2 ^ 64

/-- For a length that fits a `ptrdiff_t` the bytes asked for are the product as a `size_t` computes
it, wrapped around where it is too large. -/
theorem toNat_product (elementSize : BitVec 64) (hlength : 0 ≤ length) (hfits : length < 2 ^ 63) :
    (BitVec.ofInt 64 length * elementSize).toNat = product elementSize length := by
  obtain ⟨n, rfl⟩ := Int.eq_ofNat_of_zero_le hlength
  have hn : ((n : ℤ) % ((2 ^ 64 : ℕ) : ℤ)).toNat = n := by omega
  rw [BitVec.toNat_mul, BitVec.toNat_ofInt, hn]
  rfl

/-- The size asked for is the least power of two that will do; it is null if nothing is asked for,
or if `2 ^ 63` bytes are not enough. -/
theorem nextPowerOfTwo_cases (number : BitVec 64) :
    ((number.toNat = 0 ∨ 2 ^ 63 < number.toNat) ∧ nextPowerOfTwo number = 0) ∨
      (0 < number.toNat ∧ number.toNat ≤ 2 ^ 63 ∧
        (nextPowerOfTwo number).toNat = 2 ^ Nat.clog 2 number.toNat) := by
  by_cases h : number.toNat = 0 ∨ 2 ^ 63 < number.toNat
  · exact .inl ⟨h, nextPowerOfTwo_eq_zero h⟩
  · obtain ⟨hpos, hle⟩ : 0 < number.toNat ∧ number.toNat ≤ 2 ^ 63 := by omega
    exact .inr ⟨hpos, hle, nextPowerOfTwo_eq_clog hpos hle⟩

/-- No size asked for is more than `2 ^ 63`, the largest power of two that a `size_t` holds. -/
theorem nextPowerOfTwo_le (number : BitVec 64) : (nextPowerOfTwo number).toNat ≤ 2 ^ 63 := by
  obtain ⟨-, hzero⟩ | ⟨hpos, hle, -⟩ := nextPowerOfTwo_cases number
  · rw [hzero]
    exact Nat.zero_le _
  · exact (le_nextPowerOfTwo hpos hle).2

/-- **The quotient fits a `ptrdiff_t`**, unless the elements are bytes and the top bit is set. -/
theorem toInt_div (hsize : size.toNat ≤ 2 ^ 63) (hpos : 1 ≤ elementSize.toNat)
    (hfits : ¬(elementSize.toNat = 1 ∧ size.toNat = 2 ^ 63)) :
    (size / elementSize).toInt = (size.toNat / elementSize.toNat : ℕ) := by
  have hlt : size.toNat / elementSize.toNat < 2 ^ 63 := by
    obtain hone | hmore := hpos.eq_or_lt
    · rw [← hone, Nat.div_one]
      omega
    · obtain hzero | hsome := Nat.eq_zero_or_pos size.toNat
      · simp [hzero]
      · exact (Nat.div_lt_self hsome hmore).trans_le hsize
  rw [BitVec.toInt_eq_toNat_of_lt (by rw [BitVec.toNat_udiv]; omega), BitVec.toNat_udiv]

/-- In the one case left, of single bytes and `2 ^ 63` of them, the number of elements is negative
as a signed number. -/
theorem toInt_div_top (hone : elementSize.toNat = 1) (hsize : size.toNat = 2 ^ 63) :
    (size / elementSize).toInt = -2 ^ 63 := by
  rw [BitVec.toInt_eq_toNat_cond, BitVec.toNat_udiv, hone, hsize]
  norm_num

/-- The bytes asked for are more than `2^63`, or they are a length that does not fit a `ptrdiff_t`
after the rounding. -/
def Overflows (elementSize : BitVec 64) (length : ℤ) : Prop :=
  2 ^ 63 < length * elementSize.toNat ∨ elementSize.toNat = 1 ∧ 2 ^ 62 < length

/-- Room for that many elements, and a length that says so. -/
theorem room_iff (hsize : size.toNat ≤ 2 ^ 63) (hpos : 1 ≤ elementSize.toNat)
    (hlength : 0 ≤ length) :
    length ≤ (size / elementSize).toInt ∧ length * elementSize.toNat ≤ size.toNat ↔
      length * elementSize.toNat ≤ size.toNat ∧ ¬(elementSize.toNat = 1 ∧ size.toNat = 2 ^ 63) := by
  constructor
  · rintro ⟨hle, hroom⟩
    refine ⟨hroom, ?_⟩
    rintro ⟨hone, htop⟩
    rw [toInt_div_top hone htop] at hle
    omega
  · rintro ⟨hroom, hfits⟩
    refine ⟨?_, hroom⟩
    rw [toInt_div hsize hpos hfits]
    obtain ⟨n, rfl⟩ := Int.eq_ofNat_of_zero_le hlength
    exact_mod_cast (Nat.le_div_iff_mul_le hpos).mpr (by exact_mod_cast hroom)

/-- A product of a length and the size of an element that is `2 ^ 63` at most does not wrap, and is
what it is among the integers. -/
theorem product_eq (hle : length * elementSize.toNat ≤ 2 ^ 63) (hlength : 0 ≤ length) :
    (product elementSize length : ℤ) = length * elementSize.toNat := by
  obtain ⟨n, rfl⟩ := Int.eq_ofNat_of_zero_le hlength
  have hle' : n * elementSize.toNat ≤ 2 ^ 63 := by exact_mod_cast hle
  rw [product, Int.toNat_natCast, Nat.mod_eq_of_lt (by omega)]
  exact Int.natCast_mul n elementSize.toNat

/-- **The size asked for has room exactly where nothing overflows**: it is enough for so many
elements, and their number is not negative, if the product does not wrap and is `2 ^ 63` at most. -/
theorem asked_room_iff (elementSize : BitVec 64) (hlength : 0 ≤ length) (hfits : length < 2 ^ 63) :
    (length * elementSize.toNat ≤
          (nextPowerOfTwo (BitVec.ofInt 64 length * elementSize)).toNat ∧
        ¬(elementSize.toNat = 1 ∧
          (nextPowerOfTwo (BitVec.ofInt 64 length * elementSize)).toNat = 2 ^ 63)) ↔
      ¬Overflows elementSize length := by
  have hnumber := toNat_product elementSize hlength hfits
  generalize BitVec.ofInt 64 length * elementSize = number at hnumber
  have hbound := nextPowerOfTwo_le number
  constructor
  · rintro ⟨hroom, htop⟩ (hbig | ⟨hone, hbig⟩)
    · omega
    · -- a length above the last power of two is rounded to the top bit
      refine htop ⟨hone, ?_⟩
      have hle : length * elementSize.toNat ≤ 2 ^ 63 := by
        rw [hone]
        omega
      have hproduct := product_eq hle hlength
      rw [hone] at hproduct
      obtain ⟨hnone | hnone, -⟩ | ⟨-, hle, hasked⟩ := nextPowerOfTwo_cases number
      · omega
      · omega
      · have hclog : 62 < Nat.clog 2 number.toNat :=
          (Nat.lt_clog_iff_pow_lt (by decide)).mpr (by omega)
        have hclog' : Nat.clog 2 number.toNat ≤ 63 := Nat.clog_le_of_le_pow hle
        rw [hasked, show Nat.clog 2 number.toNat = 63 by omega]
  · intro hover
    obtain ⟨hle, hone⟩ := not_or.mp hover
    have hproduct := product_eq (not_lt.mp hle) hlength
    obtain ⟨hnone, hzero⟩ | ⟨-, -, hasked⟩ := nextPowerOfTwo_cases number
    · refine ⟨?_, by simp [hzero]⟩
      rw [hzero, ← hproduct]
      omega
    · refine ⟨?_, fun ⟨hone', htop⟩ => hone ⟨hone', ?_⟩⟩
      · rw [← hproduct, ← hnumber, hasked]
        exact_mod_cast Nat.le_pow_clog one_lt_two number.toNat
      · rw [hasked] at htop
        have hclog : 62 < Nat.clog 2 number.toNat := by
          rw [Nat.pow_right_injective le_rfl htop]
          decide
        have hpow := Nat.pow_lt_of_lt_clog hclog
        rw [hone'] at hproduct
        omega

namespace ByteVector

/-! ## One call -/

/-- The vector in a block of another size. -/
def moved (self : ByteVector) (size : BitVec 64) (zeroNewElements : Bool)
    (found : ℕ → BitVec 8) : ByteVector where
  elementSize := self.elementSize
  elements :=
    if zeroNewElements && self.size < size then
      zeroed (self.realloc size.toNat found) self.size.toNat size.toNat
    else self.realloc size.toNat found
  allocated := size.toNat
  size := size
  length := (size / self.elementSize).toInt

variable {self self' : ByteVector} {zeroNewElements : Bool} {reallocated : Option (ℕ → BitVec 8)}

/-- **The four ends of a call**: the size stays as it is, the elements are freed, `realloc` fails,
or the bytes are moved to a block of the new size. -/
theorem setLength_cases (self : ByteVector) (length : ℤ) (zeroNewElements : Bool)
    (reallocated : Option (ℕ → BitVec 8)) :
    let size := nextPowerOfTwo (BitVec.ofInt 64 length * self.elementSize)
    let result := self.setLength length zeroNewElements reallocated
    (self.size = size ∧ result = (self, true)) ∨
      (self.size ≠ size ∧ size = 0 ∧
        result = ({ self with allocated := 0, size := 0, length := 0 }, true)) ∨
      (self.size ≠ size ∧ size ≠ 0 ∧ reallocated = none ∧ result = (self, false)) ∨
      ∃ found, self.size ≠ size ∧ size ≠ 0 ∧ reallocated = some found ∧
        result = (self.moved size zeroNewElements found, true) := by
  intro size result
  by_cases hsame : self.size = size
  · exact .inl ⟨hsame, if_pos hsame⟩
  · by_cases hzero : size = 0
    · refine .inr (.inl ⟨hsame, hzero, ?_⟩)
      exact (if_neg hsame).trans (if_pos hzero)
    · rcases hre : reallocated with _ | found
      · refine .inr (.inr (.inl ⟨hsame, hzero, rfl, ?_⟩))
        subst hre
        exact (if_neg hsame).trans (if_neg hzero)
      · refine .inr (.inr (.inr ⟨found, hsame, hzero, rfl, ?_⟩))
        subst hre
        exact (if_neg hsame).trans (if_neg hzero)

/-- **The sizes of a vector**: none or a power of two, as much allocated, and the length that
fits. -/
structure Sized (elementSize : BitVec 64) (vector : ByteVector) : Prop where
  elementSize : vector.elementSize = elementSize
  allocated : vector.allocated = vector.size.toNat
  size : vector.size = 0 ∨ ∃ k ≤ 63, vector.size.toNat = 2 ^ k
  length : vector.length = (vector.size / vector.elementSize).toInt

/-- A vector that has just been initialized has no bytes, and its sizes fit that. -/
theorem sized_init : Sized elementSize (init elementSize) :=
  ⟨rfl, rfl, .inl rfl, by simp [init, Vector.init]⟩

/-- A vector never has more than `2 ^ 63` bytes, which is the largest power of two among the
sizes. -/
theorem Sized.le (h : Sized elementSize self) : self.size.toNat ≤ 2 ^ 63 := by
  obtain hzero | ⟨k, hk, hsize⟩ := h.size
  · rw [hzero]
    exact Nat.zero_le _
  · rw [hsize]
    exact Nat.pow_le_pow_right (by decide) hk

/-- In a block of another size the sizes fit again, if that is a power of two. -/
theorem Sized.moved (h : Sized elementSize self) {size : BitVec 64}
    (hsize : ∃ k ≤ 63, size.toNat = 2 ^ k)
    (found : ℕ → BitVec 8) : Sized elementSize (self.moved size zeroNewElements found) :=
  ⟨h.elementSize, rfl, .inr hsize, rfl⟩

/-- The sizes fit after every call of `Vector_SetLength`, whether it fails, gives the block back or
moves to another. -/
theorem Sized.setLength (h : Sized elementSize self) (length : ℤ) (zeroNewElements : Bool)
    (reallocated : Option (ℕ → BitVec 8)) :
    Sized elementSize (self.setLength length zeroNewElements reallocated).1 := by
  obtain ⟨-, hresult⟩ | ⟨-, -, hresult⟩ | ⟨-, -, -, hresult⟩ | ⟨found, -, hzero, -, hresult⟩ :=
    self.setLength_cases length zeroNewElements reallocated
  · rwa [hresult]
  · rw [hresult]
    exact ⟨h.elementSize, rfl, .inl rfl, by simp⟩
  · rwa [hresult]
  · rw [hresult]
    apply h.moved
    obtain ⟨-, hnone⟩ | ⟨-, hle, hasked⟩ :=
      nextPowerOfTwo_cases (BitVec.ofInt 64 length * self.elementSize)
    · exact absurd hnone hzero
    · exact ⟨_, Nat.clog_le_of_le_pow hle, hasked⟩

/-- The sizes fit after every step: a byte that the user writes does not change them. -/
theorem Sized.step (h : Sized elementSize self) {action : VectorAction}
    (hstep : self.step action = some self') : Sized elementSize self' := by
  rcases action with ⟨length, zeroNewElements, reallocated⟩ | ⟨i, byte⟩
  · simp only [ByteVector.step, Option.ite_none_right_eq_some, Option.some_inj] at hstep
    obtain ⟨-, rfl⟩ := hstep
    exact h.setLength length zeroNewElements reallocated
  · simp only [ByteVector.step, Option.ite_none_right_eq_some, Option.some_inj] at hstep
    obtain ⟨-, rfl⟩ := hstep
    exact ⟨h.elementSize, h.allocated, h.size, h.length⟩

end ByteVector

/-- The sizes fit in every state that a run can reach, under whatever condition on its steps. -/
theorem sized_of_reachable {C : ByteVector → VectorAction → Prop} {self : ByteVector}
    (h : (vectorSystem elementSize).ReachableWhen C self) : self.Sized elementSize := by
  refine h.induct ?_ ?_
  · rintro self rfl
    exact ByteVector.sized_init
  · intro self action self' _ hsized _ hstep
    exact hsized.step hstep

/-! ## What a call reports -/

namespace ByteVector

variable {self : ByteVector} {zeroNewElements : Bool} {reallocated : Option (ℕ → BitVec 8)}

/-- **What a call should do**, given what it returns. -/
structure Delivers (before : ByteVector) (length : ℤ) (result : ByteVector × Bool) : Prop where
  length_le : result.2 = true → length ≤ result.1.length
  allocated : result.2 = true → length * before.elementSize.toNat ≤ result.1.allocated
  kept : result.2 = true → ∀ i : ℕ, i < before.length → i < length →
    result.1.element i = before.element i
  unchanged : result.2 = false → result.1 = before

/-- `realloc` is called, and fails: the size asked for is neither none nor the vector's. -/
def ReallocFails (self : ByteVector) (length : ℤ) (reallocated : Option (ℕ → BitVec 8)) : Prop :=
  reallocated = none ∧ 0 < product self.elementSize length ∧
    product self.elementSize length ≤ 2 ^ 63 ∧
    self.size.toNat ≠ 2 ^ Nat.clog 2 (product self.elementSize length)

/-- A byte that lies in the old block and in the new one is kept, since `realloc` copies as much as
both have. -/
theorem moved_elements {size : BitVec 64} {found : ℕ → BitVec 8} {i : ℕ} (hold : i < self.allocated)
    (hsize : self.allocated = self.size.toNat) (hnew : i < size.toNat) :
    (self.moved size zeroNewElements found).elements i = self.elements i := by
  have hkept : self.realloc size.toNat found i = self.elements i := if_pos (lt_min hold hnew)
  unfold moved
  dsimp only
  split_ifs
  · rw [zeroed, if_neg (by omega), hkept]
  · exact hkept

/-- Every byte of an element, up to its last one, lies in front of the elements behind it. -/
theorem byte_lt {i j k size : ℕ} (hi : i < j) (hk : k < size) : i * size + k < j * size :=
  calc i * size + k < i * size + size := by omega
    _ = (i + 1) * size := by ring
    _ ≤ j * size := Nat.mul_le_mul_right size hi

/-- Every element below the length lies within the bytes of the block, if the elements are not
empty. -/
theorem Sized.length_mul_le (h : Sized elementSize self) (hpos : 1 ≤ elementSize.toNat) {i : ℕ}
    (hi : i < self.length) : (i + 1) * elementSize.toNat ≤ self.size.toNat := by
  rw [h.length, h.elementSize] at hi
  by_cases htop : elementSize.toNat = 1 ∧ self.size.toNat = 2 ^ 63
  · rw [toInt_div_top htop.1 htop.2] at hi
    omega
  · rw [toInt_div h.le hpos htop] at hi
    exact (Nat.le_div_iff_mul_le hpos).mp (by exact_mod_cast hi)

/-- A call that succeeds delivers what was asked for exactly where the vector has room for so many
elements. -/
theorem Sized.delivers_iff (h : Sized elementSize self) (hpos : 1 ≤ elementSize.toNat)
    (hlength : 0 ≤ length) {vector : ByteVector} (hvector : Sized elementSize vector)
    (hkept : ∀ i, i < self.size.toNat → i < vector.size.toNat →
      vector.elements i = self.elements i) :
    self.Delivers length (vector, true) ↔
      length * elementSize.toNat ≤ vector.size.toNat ∧
        ¬(elementSize.toNat = 1 ∧ vector.size.toNat = 2 ^ 63) := by
  rw [← room_iff hvector.le hpos hlength, ← hvector.allocated]
  constructor
  · intro hdelivers
    have hle := hdelivers.length_le rfl
    have hroom := hdelivers.allocated rfl
    rw [h.elementSize] at hroom
    rw [hvector.length, hvector.elementSize] at hle
    exact ⟨hle, hroom⟩
  · rintro ⟨hle, hroom⟩
    refine ⟨fun _ => ?_, fun _ => ?_, fun _ i hold hnew => ?_, by simp⟩
    · rwa [hvector.length, hvector.elementSize]
    · rwa [h.elementSize]
    · rw [element, element, hvector.elementSize, h.elementSize]
      apply List.map_congr_left
      intro k hk
      have hk' := List.mem_range.mp hk
      apply hkept
      · have := h.length_mul_le hpos hold
        exact (byte_lt i.lt_succ_self hk').trans_le this
      · have hlt : i * elementSize.toNat + k < length.toNat * elementSize.toNat :=
          byte_lt (by omega) hk'
        rw [hvector.allocated] at hroom
        have hcast : ((length.toNat * elementSize.toNat : ℕ) : ℤ) = length * elementSize.toNat := by
          rw [Int.natCast_mul, Int.toNat_of_nonneg hlength]
        omega

end ByteVector

open ByteVector in
/-- **A call delivers what it reports if and only if** nothing overflows, or `realloc` fails. -/
theorem setLength_delivers_iff {self : ByteVector} (h : (vectorSystem elementSize).Reachable self)
    (hpos : 1 ≤ elementSize.toNat) (hlength : 0 ≤ length) (hfits : length < 2 ^ 63)
    (zeroNewElements : Bool) (reallocated : Option (ℕ → BitVec 8)) :
    self.Delivers length (self.setLength length zeroNewElements reallocated) ↔
      ¬Overflows elementSize length ∨ self.ReallocFails length reallocated := by
  have hsized := sized_of_reachable h
  have hresult := hsized.setLength length zeroNewElements reallocated
  have hnumber := toNat_product elementSize hlength hfits
  have hroom := asked_room_iff elementSize hlength hfits
  have hcases := self.setLength_cases length zeroNewElements reallocated
  have hasked := nextPowerOfTwo_cases (BitVec.ofInt 64 length * elementSize)
  unfold ReallocFails
  rw [hsized.elementSize] at hcases ⊢
  rw [hnumber] at hasked
  generalize nextPowerOfTwo (BitVec.ofInt 64 length * elementSize) = size at hroom hcases hasked
  obtain ⟨hsame, heq⟩ | ⟨-, hzero, heq⟩ | ⟨hother, hsome, hnone, heq⟩ |
    ⟨found, hother, hsome, hfound, heq⟩ := hcases
  · -- the vector has the size asked for
    rw [heq, hsized.delivers_iff hpos hlength hsized fun i _ _ => rfl, hsame, hroom]
    refine (or_iff_left ?_).symm
    rintro ⟨-, hsome, hle, hother⟩
    obtain ⟨hnone, -⟩ | ⟨-, -, hasked⟩ := hasked
    · omega
    · exact hother hasked
  · -- everything is released
    rw [heq] at hresult ⊢
    have hiff := hsized.delivers_iff hpos hlength hresult fun i _ hi =>
      absurd hi (Nat.not_lt_zero i)
    rw [hzero] at hroom
    rw [hiff, ← hroom]
    refine (or_iff_left ?_).symm
    rintro ⟨-, hsome, hle, -⟩
    obtain ⟨hnone, -⟩ | ⟨-, -, hasked⟩ := hasked
    · omega
    · rw [hzero] at hasked
      exact absurd hasked (Nat.two_pow_pos _).ne
  · -- `realloc` fails
    rw [heq]
    refine iff_of_true ⟨by simp, by simp, by simp, fun _ => rfl⟩ (.inr ?_)
    obtain ⟨-, hzero⟩ | ⟨hpos, hle, hasked⟩ := hasked
    · exact absurd hzero hsome
    · refine ⟨hnone, hpos, hle, fun hsame => hother (BitVec.eq_of_toNat_eq ?_)⟩
      rw [hsame, hasked]
  · -- the bytes move
    rw [heq] at hresult ⊢
    have hiff := hsized.delivers_iff hpos hlength hresult fun i hi hi' =>
      moved_elements (by rwa [hsized.allocated]) hsized.allocated hi'
    refine (hiff.trans hroom).trans (or_iff_left ?_).symm
    rintro ⟨hnone, -⟩
    cases hfound.symm.trans hnone

instance (elementSize : BitVec 64) (length : ℤ) : Decidable (Overflows elementSize length) :=
  inferInstanceAs (Decidable (_ ∨ _))

/-- What a new block holds. -/
def noise (_ : ℕ) : BitVec 8 := 0xa5

/-- A vector of words that was given three elements has room for a fourth. -/
theorem setLength_delivers_fourWords : ∃ self,
    (vectorSystem 8).run (.init 8) [.setLength 3 false (some noise)] = some self ∧
      (self.setLength 4 true none).2 = true ∧ self.Delivers 4 (self.setLength 4 true none) := by
  refine ⟨_, rfl, rfl, ?_⟩
  have hrun : (vectorSystem 8).run (.init 8) [.setLength 3 false (some noise)] =
      some ((ByteVector.init 8).setLength 3 false (some noise)).1 := rfl
  have hreach := StepSystem.reachable_of_run rfl hrun
  apply (setLength_delivers_iff hreach (by decide) (by decide) (by decide) true none).mpr
  left
  decide

/-- **A vector is emptied and reports success**: `2 ^ 60 + 1` words are more than `2 ^ 63` bytes. -/
theorem not_delivers_emptied : ∃ self,
    (vectorSystem 8).run (.init 8) [.setLength 1 false (some noise)] = some self ∧
      self.length = 1 ∧ (self.setLength (2 ^ 60 + 1) false (some noise)).2 = true ∧
      (self.setLength (2 ^ 60 + 1) false (some noise)).1.length = 0 ∧
      ¬self.Delivers (2 ^ 60 + 1) (self.setLength (2 ^ 60 + 1) false (some noise)) := by
  refine ⟨_, rfl, rfl, rfl, rfl, fun h => ?_⟩
  exact absurd (h.length_le rfl) (by decide)

end Pixy.Store
