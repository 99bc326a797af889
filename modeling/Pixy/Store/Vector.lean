import Mathlib
import Pixy.Found.Smear

/-!
# Growable arrays

The sizes of `Vector.c`: which allocation is asked for, and what `length` becomes. `size_t` is
`BitVec 64`, so the arithmetic wraps as the code's does. The elements themselves belong to whoever
uses the vector and are modelled there.

* `nextPowerOfTwo_eq_clog` and `nextPowerOfTwo_eq_zero`: the size asked for, which is the least
  power of two that is enough (`nextPowerOfTwo_exact`), up to the top bit;
* `Vector.WellSized.setLength`: a vector whose length was set has that length.
-/

namespace Pixy.Store

open Pixy.Found

/-- The least power of two that is not smaller, by smearing the top bit to the right.
Source: `Vector.c`, `NextPowerOfTwo`; the loop's `k` runs through the powers of two below 64. -/
def nextPowerOfTwo (number : BitVec 64) : BitVec 64 :=
  [1, 2, 4, 8, 16, 32].foldl (fun number k => number ||| (number >>> k)) (number - 1) + 1

/-- The loop as such, with a bound on its rounds. -/
def shiftLoop : ℕ → BitVec 64 → ℕ → Option (BitVec 64)
  | 0, _, _ => none
  | fuel + 1, number, k =>
    if k < 64 then shiftLoop fuel (number ||| (number >>> k)) (k * 2) else some number

/-- Source: `Vector.h`, `struct Vector`, without `elements`. -/
structure Vector where
  /-- The size of one element. -/
  elementSize : BitVec 64
  /-- The size of the allocation. -/
  size : BitVec 64
  /-- The number of elements there is room for. -/
  length : ℤ
  deriving DecidableEq

namespace Vector

/-- Source: `Vector.c`, `Vector_Initialize`. -/
def init (elementSize : BitVec 64) : Vector where
  elementSize := elementSize
  size := 0
  length := 0

/-- `reallocated` tells whether `realloc` would succeed; the result is what the function returns.
Source: `Vector.c`, `Vector_SetLength`. -/
def setLength (self : Vector) (length : ℤ) (reallocated : Bool) : Vector × Bool :=
  let size := nextPowerOfTwo (BitVec.ofInt 64 length * self.elementSize)
  if self.size = size then (self, true)
  else if size = 0 then ({ self with size := 0, length := 0 }, true)
  else if !reallocated then (self, false)
  else ({ self with size := size, length := (size / self.elementSize).toInt }, true)

/-- With memory a vector can be given any length: only a failed `realloc` makes `Vector_SetLength`
fail. -/
theorem setLength_of_memory (self : Vector) (length : ℤ) :
    (self.setLength length true).2 = true := by
  simp only [setLength, Bool.not_true, Bool.false_eq_true, if_false]
  split_ifs <;> rfl

end Vector

/-! ## The size asked for -/

/-- One line of the smearing: shifting by `2 ^ steps` and taking the disjunction sets the bits that
twice as many steps set. -/
theorem toNat_smear {number number' : BitVec 64} {steps k : ℕ} (hk : k = 2 ^ steps)
    (h : number'.toNat = smear number.toNat steps) :
    (number' ||| (number' >>> k)).toNat = smear number.toNat (steps + 1) := by
  rw [BitVec.toNat_or, BitVec.toNat_ushiftRight, h, smear, hk]

/-- **The size asked for, exactly**, in the arithmetic of 64 bits: the wrap of the subtraction at
null, and that of the last addition, are both there. -/
theorem nextPowerOfTwo_toNat (number : BitVec 64) :
    (nextPowerOfTwo number).toNat = 2 ^ Nat.clog 2 ((number - 1).toNat + 1) % 2 ^ 64 := by
  have hsmear : ([1, 2, 4, 8, 16, 32].foldl (fun number k => number ||| (number >>> k))
      (number - 1)).toNat = smear (number - 1).toNat 6 := by
    simp only [List.foldl_cons, List.foldl_nil]
    repeat refine toNat_smear (by norm_num) ?_
    rfl
  rw [nextPowerOfTwo, BitVec.toNat_add, hsmear, ← smear_succ 6 (number - 1).isLt]
  rfl

/-- The subtraction of one does not wrap around, as the number is not zero. -/
theorem toNat_pred {number : BitVec 64} (hpos : 0 < number.toNat) :
    (number - 1).toNat + 1 = number.toNat := by
  have hone : (1 : BitVec 64).toNat = 1 := rfl
  rw [BitVec.toNat_sub_of_le (by rw [BitVec.le_def]; omega), hone, Nat.sub_add_cancel hpos]

/-- Up to the top bit it is the least power of two that is not smaller. -/
theorem nextPowerOfTwo_eq_clog {number : BitVec 64} (hpos : 0 < number.toNat)
    (hle : number.toNat ≤ 2 ^ 63) :
    (nextPowerOfTwo number).toNat = 2 ^ Nat.clog 2 number.toNat := by
  have hclog : Nat.clog 2 number.toNat ≤ 63 := Nat.clog_le_of_le_pow hle
  rw [nextPowerOfTwo_toNat, toNat_pred hpos, Nat.mod_eq_of_lt]
  exact Nat.pow_lt_pow_right (by decide) (by omega)

/-- Nothing is asked for where nothing fits, and where nothing is needed. -/
theorem nextPowerOfTwo_eq_zero {number : BitVec 64}
    (h : number.toNat = 0 ∨ 2 ^ 63 < number.toNat) : nextPowerOfTwo number = 0 := by
  have hclog : Nat.clog 2 ((number - 1).toNat + 1) = 64 := by
    apply le_antisymm
    · exact Nat.clog_le_of_le_pow (number - 1).isLt
    · apply (Nat.lt_clog_iff_pow_lt (by decide)).mpr
      obtain hzero | hbig := h
      · rw [BitVec.eq_of_toNat_eq (x := number) (y := 0) hzero]
        decide
      · rwa [toNat_pred (by omega)]
  apply BitVec.eq_of_toNat_eq
  rw [nextPowerOfTwo_toNat, hclog]
  rfl

/-- Seven rounds are enough for the loop to end, with what the powers of two below 64 leave. -/
theorem shiftLoop_eq {fuel : ℕ} (hfuel : 6 < fuel) (number : BitVec 64) :
    (shiftLoop fuel (number - 1) 1).map (· + 1) = some (nextPowerOfTwo number) := by
  obtain ⟨fuel, rfl⟩ : ∃ k, fuel = k + 7 := ⟨fuel - 7, by omega⟩
  simp [shiftLoop, nextPowerOfTwo]

/-- **`NextPowerOfTwo` is exact** on all numbers: its loop ends, and the result is the least power
of two that is not smaller, or zero where there is none and where nothing is asked for. -/
theorem nextPowerOfTwo_exact (number : BitVec 64) :
    (∀ fuel, 6 < fuel →
      (shiftLoop fuel (number - 1) 1).map (· + 1) = some (nextPowerOfTwo number)) ∧
    (1 ≤ number.toNat ∧ number.toNat ≤ 2 ^ 63 →
      IsLeast {m | (∃ i, m = 2 ^ i) ∧ number.toNat ≤ m} (nextPowerOfTwo number).toNat) ∧
    (number.toNat = 0 ∨ 2 ^ 63 < number.toNat → nextPowerOfTwo number = 0) := by
  refine ⟨fun fuel hfuel => shiftLoop_eq hfuel number, ?_, nextPowerOfTwo_eq_zero⟩
  rintro ⟨hpos, hle⟩
  rw [nextPowerOfTwo_eq_clog hpos hle]
  constructor
  · exact ⟨⟨_, rfl⟩, Nat.le_pow_clog (by decide) _⟩
  · rintro m ⟨⟨i, rfl⟩, hm⟩
    apply Nat.pow_le_pow_right (by decide)
    exact Nat.clog_le_of_le_pow hm

/-- **The size asked for is enough**, up to the top bit. -/
theorem le_nextPowerOfTwo {number : BitVec 64} (hpos : 0 < number.toNat)
    (hle : number.toNat ≤ 2 ^ 63) :
    number.toNat ≤ (nextPowerOfTwo number).toNat ∧ (nextPowerOfTwo number).toNat ≤ 2 ^ 63 := by
  rw [nextPowerOfTwo_eq_clog hpos hle]
  exact ⟨Nat.le_pow_clog (by decide) _,
    Nat.pow_le_pow_right (by decide) (Nat.clog_le_of_le_pow hle)⟩

namespace Vector

/-- The length is what there is room for, and no size reaches beyond the top bit. -/
structure WellSized (vector : Vector) : Prop where
  /-- An element is not a single byte. -/
  elementSize : 2 ≤ vector.elementSize.toNat
  /-- The allocation is bounded. -/
  size : vector.size.toNat ≤ 2 ^ 63
  /-- The length is derived from it. -/
  length : vector.length = (vector.size.toNat / vector.elementSize.toNat : ℕ)

/-- A vector that has just been initialized has sizes that fit, for elements of two bytes or
more. -/
theorem wellSized_init {elementSize : BitVec 64} (h : 2 ≤ elementSize.toNat) :
    (init elementSize).WellSized :=
  ⟨h, Nat.zero_le _, by simp [init]⟩

variable {self : Vector} {length : ℤ}

/-- **A vector whose length was set has that length**, and nothing changes where memory runs out. -/
theorem WellSized.setLength (h : self.WellSized) (hpos : 0 < length)
    (hle : length * self.elementSize.toNat ≤ 2 ^ 63) (reallocated : Bool) :
    (self.setLength length reallocated = (self, false) ∧ reallocated = false) ∨
      ∃ self', self.setLength length reallocated = (self', true) ∧ self'.WellSized ∧
        self'.elementSize = self.elementSize ∧ length ≤ self'.length := by
  obtain ⟨n, rfl⟩ := Int.eq_ofNat_of_zero_le hpos.le
  have hn : 0 < n := by omega
  have hes := h.elementSize
  have hn' : n * self.elementSize.toNat ≤ 2 ^ 63 := by exact_mod_cast hle
  have hasked : (BitVec.ofInt 64 n * self.elementSize).toNat = n * self.elementSize.toNat := by
    have hlt : n < 2 ^ 64 := by nlinarith
    rw [BitVec.toNat_mul, BitVec.toNat_ofInt]
    have hmod : ((n : ℤ) % ((2 ^ 64 : ℕ) : ℤ)).toNat = n := by omega
    rw [hmod, Nat.mod_eq_of_lt (by omega)]
  have hasked_pos : 0 < n * self.elementSize.toNat := Nat.mul_pos hn (by omega)
  obtain ⟨hge, hbound⟩ := le_nextPowerOfTwo (by rw [hasked]; exact hasked_pos)
    (by rw [hasked]; exact hn')
  rw [hasked] at hge
  unfold Vector.setLength
  generalize nextPowerOfTwo (BitVec.ofInt 64 n * self.elementSize) = size at hge hbound
  have hroom : n ≤ size.toNat / self.elementSize.toNat :=
    (Nat.le_div_iff_mul_le (by omega)).mpr hge
  have hsize : size ≠ 0#64 := by
    rintro rfl
    simp at hge
    omega
  by_cases hsame : self.size = size
  · subst hsame
    refine .inr ⟨self, by simp, h, rfl, ?_⟩
    rw [h.length]
    exact_mod_cast hroom
  · by_cases hr : reallocated = true
    · have hdiv : size.toNat / self.elementSize.toNat < 2 ^ 63 :=
        (Nat.div_lt_self (by omega) (by omega)).trans_le hbound
      have hlength : (size / self.elementSize).toInt =
          (size.toNat / self.elementSize.toNat : ℕ) := by
        rw [BitVec.toInt_eq_toNat_of_lt (by rw [BitVec.toNat_udiv]; omega), BitVec.toNat_udiv]
      refine .inr ⟨⟨self.elementSize, size, (size / self.elementSize).toInt⟩, ?_,
        ⟨hes, hbound, hlength⟩, rfl, ?_⟩
      · simp [hsame, hsize, hr]
      · show (n : ℤ) ≤ (size / self.elementSize).toInt
        rw [hlength]
        exact_mod_cast hroom
    · have hr : reallocated = false := by simpa using hr
      exact .inl ⟨by simp [hsame, hsize, hr], hr⟩

end Vector

end Pixy.Store
