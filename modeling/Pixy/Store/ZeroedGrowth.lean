import Pixy.Store.ByteVector

/-!
# New elements that are zeroed

`Vector_SetLength` zeroes from the old size on. Where the size is no multiple of the size of an
element the first new element begins before it, with what is left of an element that was cut off.

* `Aligned`: no element is cut off, or there is no room to grow into;
* `zeroesGrowth_iff`: new elements are zeroed, over all runs, for the element sizes that keep it.
-/

namespace Pixy.Store

open Pixy.Found

variable {elementSize : BitVec 64}

/-- New elements are zeroed, and no more than `2 ^ 63` bytes are asked for. -/
def VectorAction.Zeroes (elementSize : BitVec 64) : VectorAction → Prop
  | .setLength length zeroNewElements _ =>
    zeroNewElements = true ∧ length * elementSize.toNat ≤ 2 ^ 63
  | .write .. => True

/-- **New elements are zero** after every call that succeeds, over all runs of such calls. -/
def ZeroesGrowth (elementSize : BitVec 64) : Prop :=
  ∀ (self : ByteVector) (length : ℤ) (reallocated : Option (ℕ → BitVec 8)),
    (vectorSystem elementSize).ReachableWhen (fun _ action => action.Zeroes elementSize) self →
    0 ≤ length → length < 2 ^ 63 → length * elementSize.toNat ≤ 2 ^ 63 →
    (self.setLength length true reallocated).2 = true →
    ∀ i : ℕ, self.length ≤ i → i < (self.setLength length true reallocated).1.length →
      (self.setLength length true reallocated).1.element i = List.replicate elementSize.toNat 0

/-- The element sizes for which they are: powers of two of more than a byte, and sizes of which no
two elements fit. -/
def ZeroableSize (elementSize : BitVec 64) : Prop :=
  (∃ k, 0 < k ∧ elementSize.toNat = 2 ^ k) ∨ 2 ^ 62 < elementSize.toNat

/-- None of these sizes is one byte or none, so a length always fits a `ptrdiff_t`. -/
theorem ZeroableSize.two_le (h : ZeroableSize elementSize) : 2 ≤ elementSize.toNat := by
  obtain ⟨k, hk, hsize⟩ | hbig := h
  · rw [hsize]
    calc 2 = 2 ^ 1 := rfl
      _ ≤ 2 ^ k := Nat.pow_le_pow_right (by decide) hk
  · omega

/-! ## Sizes that cut no element -/

/-- **No element is cut off**, or there is no room to grow into. -/
def Aligned (elementSize size : BitVec 64) : Prop :=
  elementSize.toNat ∣ size.toNat ∨ size.toNat = 2 ^ 63

/-- A vector without bytes cuts no element off, so every history of a vector begins like that. -/
theorem aligned_zero : Aligned elementSize 0 := .inl (Nat.dvd_zero _)

/-- **The sizes asked for cut no element**, where the size of an element is one of these and the
bytes are `2 ^ 63` at most. -/
theorem ZeroableSize.aligned {length : ℤ} (h : ZeroableSize elementSize) (hlength : 0 ≤ length)
    (hfits : length < 2 ^ 63) (hle : length * elementSize.toNat ≤ 2 ^ 63) :
    Aligned elementSize (nextPowerOfTwo (BitVec.ofInt 64 length * elementSize)) := by
  have hnumber := toNat_product elementSize hlength hfits
  have hproduct := product_eq hle hlength
  rw [← hnumber] at hproduct
  generalize BitVec.ofInt 64 length * elementSize = number at hproduct
  obtain ⟨-, hzero⟩ | ⟨hpos, hbound, hasked⟩ := nextPowerOfTwo_cases number
  · rw [hzero]
    exact aligned_zero
  · obtain ⟨n, rfl⟩ := Int.eq_ofNat_of_zero_le hlength
    have hmul : number.toNat = n * elementSize.toNat := by exact_mod_cast hproduct
    have hn : 0 < n := by
      rw [hmul] at hpos
      exact Nat.pos_of_mul_pos_right hpos
    have hge : elementSize.toNat ≤ number.toNat := by
      rw [hmul]
      exact Nat.le_mul_of_pos_left _ hn
    obtain ⟨k, -, hsize⟩ | hbig := h
    · left
      rw [hasked, hsize]
      apply Nat.pow_dvd_pow
      rw [← Nat.clog_pow 2 k one_lt_two, ← hsize]
      exact Nat.clog_mono_right 2 hge
    · right
      have hlow : 62 < Nat.clog 2 number.toNat :=
        (Nat.lt_clog_iff_pow_lt one_lt_two).mpr (hbig.trans_le hge)
      have hhigh : Nat.clog 2 number.toNat ≤ 63 := Nat.clog_le_of_le_pow hbound
      rw [hasked, show Nat.clog 2 number.toNat = 63 by omega]

namespace ByteVector

variable {self self' : ByteVector}

/-- A call that asks for zeroed elements, and for no more bytes than there can be, leaves no element
cut off. -/
theorem step_aligned (hzeroable : ZeroableSize elementSize) (hsized : Sized elementSize self)
    (h : Aligned elementSize self.size) {action : VectorAction}
    (haction : action.Zeroes elementSize)
    (hstep : self.step action = some self') : Aligned elementSize self'.size := by
  rcases action with ⟨length, zeroNewElements, reallocated⟩ | ⟨i, byte⟩
  · simp only [ByteVector.step, Option.ite_none_right_eq_some, Option.some_inj] at hstep
    obtain ⟨⟨hlength, hfits⟩, rfl⟩ := hstep
    have hasked := hzeroable.aligned hlength hfits haction.2
    have hcases := self.setLength_cases length zeroNewElements reallocated
    rw [hsized.elementSize] at hcases
    obtain ⟨-, hresult⟩ | ⟨-, -, hresult⟩ | ⟨-, -, -, hresult⟩ | ⟨found, -, -, -, hresult⟩ := hcases
    · rwa [hresult]
    · rw [hresult]
      exact aligned_zero
    · rwa [hresult]
    · rwa [hresult]
  · simp only [ByteVector.step, Option.ite_none_right_eq_some, Option.some_inj] at hstep
    obtain ⟨-, rfl⟩ := hstep
    exact h

/-- An element past the old size, and in the new block, is zero. -/
theorem moved_element_zero {size : BitVec 64} {found : ℕ → BitVec 8} {i : ℕ}
    (hstart : self.size.toNat ≤ i * self.elementSize.toNat)
    (hstop : (i + 1) * self.elementSize.toNat ≤ size.toNat) (hpos : 0 < self.elementSize.toNat) :
    (self.moved size true found).element i = List.replicate self.elementSize.toNat 0 := by
  have hgrows : self.size < size := by
    rw [BitVec.lt_def]
    have := byte_lt (Nat.lt_add_one i) hpos
    omega
  rw [List.eq_replicate_iff]
  refine ⟨by simp [element, moved], fun byte hbyte => ?_⟩
  obtain ⟨k, hk, rfl⟩ := List.mem_map.mp hbyte
  have hlt := byte_lt (Nat.lt_add_one i) (List.mem_range.mp hk)
  have helements : (self.moved size true found).elements =
      zeroed (self.realloc size.toNat found) self.size.toNat size.toNat := by
    simp only [moved, Bool.true_and, hgrows, decide_true, if_true]
  rw [helements]
  exact if_pos ⟨hstart.trans (Nat.le_add_right _ _), hlt.trans_le hstop⟩

end ByteVector

open ByteVector

/-- No element is cut off in any state that a run of such calls can reach. -/
theorem aligned_of_reachable (hzeroable : ZeroableSize elementSize) {self : ByteVector}
    (h : (vectorSystem elementSize).ReachableWhen (fun _ action =>
      action.Zeroes elementSize) self) :
    Aligned elementSize self.size := by
  refine StepSystem.ReachableWhen.induct (I := fun self => Aligned elementSize self.size) ?_ ?_ h
  · rintro self rfl
    exact aligned_zero
  · intro self action self' hreach haligned haction hstep
    exact step_aligned hzeroable (sized_of_reachable hreach) haligned haction hstep

/-- With such sizes of elements new elements are zeroed in every history of the vector, since no
block ever ends within an element. -/
theorem ZeroableSize.zeroesGrowth (h : ZeroableSize elementSize) : ZeroesGrowth elementSize := by
  intro self length reallocated hreach hlength hfits hle hsucceeds i hold hnew
  have hsized := sized_of_reachable hreach
  have haligned := aligned_of_reachable h hreach
  have htwo := h.two_le
  have hlengths (vector : ByteVector) (hvector : Sized elementSize vector) :
      vector.length = (vector.size.toNat / elementSize.toNat : ℕ) := by
    rw [hvector.length, hvector.elementSize, toInt_div hvector.le (by omega) (by omega)]
  have hresult := hsized.setLength length true reallocated
  rw [hlengths self hsized] at hold
  obtain ⟨-, heq⟩ | ⟨-, -, heq⟩ | ⟨-, -, -, heq⟩ | ⟨found, -, -, -, heq⟩ :=
    self.setLength_cases length true reallocated
  · rw [heq, hlengths self hsized] at hnew
    omega
  · rw [heq] at hnew
    simp only at hnew
    omega
  · rw [heq] at hsucceeds
    cases hsucceeds
  · rw [heq] at hnew hresult ⊢
    rw [hlengths _ hresult] at hnew
    have hi : self.size.toNat / elementSize.toNat ≤ i := by exact_mod_cast hold
    have hi' : i < (self.moved (nextPowerOfTwo (BitVec.ofInt 64 length * self.elementSize)) true
        found).size.toNat / elementSize.toNat := by exact_mod_cast hnew
    rw [← hsized.elementSize] at hi hi' ⊢
    refine moved_element_zero ?_ ?_ ?_
    · obtain hdvd | htop := haligned
      · rw [← hsized.elementSize] at hdvd
        calc self.size.toNat = self.size.toNat / self.elementSize.toNat * self.elementSize.toNat :=
              (Nat.div_mul_cancel hdvd).symm
          _ ≤ i * self.elementSize.toNat := Nat.mul_le_mul_right _ hi
      · -- there is no greater size
        have hmono := Nat.div_le_div_right (c := self.elementSize.toNat) hresult.le
        rw [htop] at hi
        exact absurd (hi'.trans_le hmono) (not_lt.mpr hi)
    · exact (Nat.le_div_iff_mul_le (by rw [hsized.elementSize]; omega)).mp hi'
    · rw [hsized.elementSize]
      omega

/-! ## Sizes that do -/

/-- A run that leaves a byte of a new element as it was. -/
theorem not_zeroesGrowth_of_run (actions : List VectorAction) {self : ByteVector} (length : ℤ)
    (reallocated : Option (ℕ → BitVec 8)) (i : ℕ) (hpos : 0 < elementSize.toNat)
    (hrun : (vectorSystem elementSize).run (.init elementSize) actions = some self)
    (hactions : ∀ action ∈ actions, action.Zeroes elementSize) (hlength : 0 ≤ length)
    (hfits : length < 2 ^ 63) (hle : length * elementSize.toNat ≤ 2 ^ 63)
    (hsucceeds : (self.setLength length true reallocated).2 = true) (hold : self.length ≤ i)
    (hnew : i < (self.setLength length true reallocated).1.length)
    (hbyte : (self.setLength length true reallocated).1.elements (i * elementSize.toNat) ≠ 0) :
    ¬ZeroesGrowth elementSize := by
  intro h
  have hreach : (vectorSystem elementSize).ReachableWhen
      (fun _ action => action.Zeroes elementSize) self :=
    StepSystem.ReachableWhen.run (.init rfl) (fun _ => hactions) hrun
  have hsized := (sized_of_reachable hreach).setLength length true reallocated
  have hzero := h self length reallocated hreach hlength hfits hle hsucceeds i hold hnew
  apply hbyte
  rw [List.eq_replicate_iff] at hzero
  apply hzero.2
  refine List.mem_map.mpr ⟨0, ?_, by rw [hsized.elementSize]; rfl⟩
  rw [hsized.elementSize]
  exact List.mem_range.mpr hpos

/-- **Bytes**: after a block of `2 ^ 63` of them the length is negative, and every element is a new
one to the next call. -/
theorem not_zeroesGrowth_one : ¬ZeroesGrowth 1 := by
  refine not_zeroesGrowth_of_run
    [.setLength 1 true (some noise), .write 0 1, .setLength (2 ^ 62 + 1) true (some noise)] 1
    (some noise) 0 (by decide) rfl ?_ (by decide) (by decide) (by decide) rfl (by decide)
      (by decide) (by decide)
  intro action haction
  simp only [List.mem_cons, List.not_mem_nil, or_false] at haction
  obtain rfl | rfl | rfl := haction
  · exact ⟨rfl, by decide⟩
  · trivial
  · exact ⟨rfl, by decide⟩

/-- The size of one element and the size of two, where neither is a power of two. -/
theorem asked_of_not_pow (h : ¬ZeroableSize elementSize) (hmore : 1 < elementSize.toNat) :
    ∃ k, elementSize.toNat < 2 ^ k ∧ 2 ^ k < 2 * elementSize.toNat ∧
      (nextPowerOfTwo (BitVec.ofInt 64 1 * elementSize)).toNat = 2 ^ k ∧
      (nextPowerOfTwo (BitVec.ofInt 64 2 * elementSize)).toNat = 2 ^ (k + 1) := by
  obtain ⟨hpow, hsmall⟩ := not_or.mp h
  have hclog : 0 < Nat.clog 2 elementSize.toNat := Nat.clog_pos one_lt_two hmore
  have hbelow : 2 ^ (Nat.clog 2 elementSize.toNat).pred < elementSize.toNat :=
    Nat.pow_pred_clog_lt_self one_lt_two hmore
  have habove : elementSize.toNat < 2 ^ Nat.clog 2 elementSize.toNat := by
    refine lt_of_le_of_ne (Nat.le_pow_clog one_lt_two _) fun heq => hpow ⟨_, hclog, heq⟩
  have hdouble : 2 ^ Nat.clog 2 elementSize.toNat < 2 * elementSize.toNat := by
    rw [← Nat.succ_pred_eq_of_pos hclog, pow_succ']
    exact Nat.mul_lt_mul_of_pos_left hbelow two_pos
  have hone : (BitVec.ofInt 64 1 * elementSize).toNat = elementSize.toNat := by
    rw [toNat_product elementSize (by decide) (by decide), product, Int.toNat_one, one_mul,
      Nat.mod_eq_of_lt elementSize.isLt]
  have htwo : (BitVec.ofInt 64 2 * elementSize).toNat = 2 * elementSize.toNat := by
    rw [toNat_product elementSize (by decide) (by decide), product, Nat.mod_eq_of_lt]
    · rfl
    · show 2 * elementSize.toNat < 2 ^ 64
      omega
  refine ⟨Nat.clog 2 elementSize.toNat, habove, hdouble, ?_, ?_⟩
  · rw [nextPowerOfTwo_eq_clog (by omega) (by omega), hone]
  · rw [nextPowerOfTwo_eq_clog (by omega) (by omega), htwo]
    congr 1
    apply le_antisymm
    · apply Nat.clog_le_of_le_pow
      rw [pow_succ']
      exact Nat.mul_le_mul_left 2 habove.le
    · exact (Nat.lt_clog_iff_pow_lt one_lt_two).mpr hdouble

/-- A call with memory that asks for another size than the vector has moves the bytes to a block of
this size and succeeds. -/
theorem setLength_eq_moved {self : ByteVector} {length : ℤ} {size : BitVec 64}
    (found : ℕ → BitVec 8)
    (hasked : nextPowerOfTwo (BitVec.ofInt 64 length * self.elementSize) = size)
    (hother : self.size.toNat ≠ size.toNat) (hsome : 0 < size.toNat) :
    self.setLength length true (some found) = (self.moved size true found, true) := by
  subst hasked
  refine (if_neg fun heq => hother ?_).trans (if_neg fun hzero => ?_)
  · exact congrArg _ heq
  · rw [hzero] at hsome
    exact Nat.lt_irrefl 0 hsome

/-- **An element is cut in two**: its first bytes are kept when it goes, and are not zeroed when it
comes back. -/
theorem not_zeroesGrowth (h : ¬ZeroableSize elementSize) (hmore : 1 < elementSize.toNat) :
    ¬ZeroesGrowth elementSize := by
  obtain ⟨k, habove, hdouble, hone, htwo⟩ := asked_of_not_pow h hmore
  have hsmall : elementSize.toNat ≤ 2 ^ 62 := not_lt.mp fun hbig => h (.inr hbig)
  have hbound := nextPowerOfTwo_le (BitVec.ofInt 64 2 * elementSize)
  have hpos := Nat.two_pow_pos k
  have hsizes : (2 : ℕ) ^ (k + 1) = 2 * 2 ^ k := pow_succ' 2 k
  generalize hsize₁ : nextPowerOfTwo (BitVec.ofInt 64 1 * elementSize) = size₁ at hone
  generalize hsize₂ : nextPowerOfTwo (BitVec.ofInt 64 2 * elementSize) = size₂ at htwo hbound
  have hlength₁ : (size₁ / elementSize).toInt = 1 := by
    rw [toInt_div (by omega) (by omega) (by omega), hone, Nat.cast_eq_one,
      Nat.div_eq_iff (by omega)]
    omega
  have hlength₂ : 1 < (size₂ / elementSize).toInt := by
    rw [toInt_div (by omega) (by omega) (by omega), htwo]
    have : 2 ≤ 2 ^ (k + 1) / elementSize.toNat := (Nat.le_div_iff_mul_le (by omega)).mpr (by omega)
    omega
  -- two elements, the second written, one element, and two again
  let full : ByteVector := (init elementSize).moved size₂ true noise
  let written : ByteVector :=
    { full with elements := Function.update full.elements elementSize.toNat 1 }
  let cut : ByteVector := written.moved size₁ true noise
  have hfirst : (init elementSize).setLength 2 true (some noise) = (full, true) :=
    setLength_eq_moved noise hsize₂ (by show 0 ≠ size₂.toNat; omega) (by omega)
  have hsecond : written.setLength 1 true (some noise) = (cut, true) :=
    setLength_eq_moved noise hsize₁ (by show size₂.toNat ≠ size₁.toNat; omega) (by omega)
  have hthird : cut.setLength 2 true (some noise) = (cut.moved size₂ true noise, true) :=
    setLength_eq_moved noise hsize₂ (by show size₁.toNat ≠ size₂.toNat; omega) (by omega)
  have hwrite : full.step (.write elementSize.toNat 1) = some written := by
    refine if_pos ?_
    rw [show full.elementSize = elementSize from rfl, Nat.div_self (by omega)]
    exact hlength₂
  have hrun : (vectorSystem elementSize).run (init elementSize)
      [.setLength 2 true (some noise), .write elementSize.toNat 1,
        .setLength 1 true (some noise)] = some cut := by
    have hstep₁ : (init elementSize).step (.setLength 2 true (some noise)) = some full := by
      rw [ByteVector.step, if_pos (by decide), hfirst]
    have hstep₂ : written.step (.setLength 1 true (some noise)) = some cut := by
      rw [ByteVector.step, if_pos (by decide), hsecond]
    simp only [StepSystem.run, vectorSystem, hstep₁, hwrite, hstep₂, Option.bind_some]
  have hbyte : cut.elements elementSize.toNat = 1 := by
    have hmoved : cut.elements elementSize.toNat = written.elements elementSize.toNat :=
      moved_elements (by show _ < size₂.toNat; omega) rfl (by omega)
    rw [hmoved]
    exact Function.update_self ..
  refine not_zeroesGrowth_of_run _ 2 (some noise) 1 (by omega) hrun ?_ (by decide) (by decide)
    (by omega) ?_ ?_ ?_ ?_
  · intro action haction
    simp only [List.mem_cons, List.not_mem_nil, or_false] at haction
    obtain rfl | rfl | rfl := haction
    · exact ⟨rfl, by omega⟩
    · trivial
    · exact ⟨rfl, by omega⟩
  · rw [hthird]
  · exact hlength₁.le
  · rw [hthird]
    exact hlength₂
  · rw [hthird, one_mul]
    have hmoved : (cut.moved size₂ true noise).elements elementSize.toNat =
        cut.elements elementSize.toNat :=
      moved_elements (by show _ < size₁.toNat; omega) rfl (by omega)
    rw [hmoved, hbyte]
    decide

/-- **Zeroed growth gives zeroed elements if and only if** the size of an element is a power of two
of more than a byte, or two elements never fit. -/
theorem zeroesGrowth_iff (hpos : 1 ≤ elementSize.toNat) :
    ZeroesGrowth elementSize ↔
      (∃ k, 0 < k ∧ elementSize.toNat = 2 ^ k) ∨ 2 ^ 62 < elementSize.toNat := by
  refine ⟨fun h => ?_, ZeroableSize.zeroesGrowth⟩
  by_contra hsize
  obtain hone | hmore := hpos.eq_or_lt
  · rw [BitVec.eq_of_toNat_eq (x := elementSize) (y := 1) hone.symm] at h
    exact not_zeroesGrowth_one h
  · exact not_zeroesGrowth hsize hmore h

/-- Pointers are zeroed, their eight bytes being such a size; these are the elements of the vector
of the poller. -/
theorem zeroesGrowth_eight : ZeroesGrowth 8 :=
  (zeroesGrowth_iff (by decide : 1 ≤ (8 : BitVec 64).toNat)).mpr (.inl ⟨3, by decide, rfl⟩)

/-- **Three bytes an element**: the second of two elements is written, goes with a shrink to four
bytes, and comes back with its first byte. -/
theorem not_zeroesGrowth_three :
    (∃ self, (vectorSystem 3).run (.init 3) [.setLength 2 true (some noise), .write 3 7,
        .setLength 1 true (some noise)] = some self ∧
      self.length = 1 ∧ (self.setLength 2 true (some noise)).2 = true ∧
      (self.setLength 2 true (some noise)).1.length = 2 ∧
      (self.setLength 2 true (some noise)).1.element 1 = [7, 0, 0]) ∧ ¬ZeroesGrowth 3 := by
  constructor
  · exact ⟨_, rfl, rfl, rfl, rfl, rfl⟩
  · refine not_zeroesGrowth_of_run [.setLength 2 true (some noise), .write 3 7,
      .setLength 1 true (some noise)] 2 (some noise) 1 (by decide) rfl ?_ (by decide) (by decide)
      (by decide) rfl (by decide) (by decide) (by decide)
    intro action haction
    simp only [List.mem_cons, List.not_mem_nil, or_false] at haction
    obtain rfl | rfl | rfl := haction
    · exact ⟨rfl, by decide⟩
    · trivial
    · exact ⟨rfl, by decide⟩

end Pixy.Store
