import Mathlib.Tactic.Common
import Mathlib.Logic.Function.Basic

/-!
# Bitmaps

Bitmaps kept in 32-bit words, most significant bit first: bit `i` is in word `i / 32` under the mask
`0x80000000 >> i % 32`. The operations are given by masks, as C code has them, and their lemmas say what
they do to single bits.
-/

namespace Twcos

/-- The words of a bitmap. -/
abbrev Bitmap := Nat → BitVec 32

namespace Bitmap

/-- `0x80000000 >> i % 32`. -/
def mask (i : Nat) : BitVec 32 := 0x80000000#32 >>> (i % 32)

/-- `b[i/32] & mask`. -/
def test (b : Bitmap) (i : Nat) : Bool := b (i / 32) &&& mask i ≠ 0

/-- `b[i/32] |= mask`. -/
def set (b : Bitmap) (i : Nat) : Bitmap := Function.update b (i / 32) (b (i / 32) ||| mask i)

/-- `b[i/32] &= ~mask`. -/
def clear (b : Bitmap) (i : Nat) : Bitmap := Function.update b (i / 32) (b (i / 32) &&& ~~~mask i)

/-- The word `k` of a bitmap whose first `n` bits are set: all ones, or the complement of all ones shifted
    by the bits that are left. -/
def ones (n k : Nat) : BitVec 32 :=
  if n - 32 * k < 32 then ~~~(~~~0#32 >>> (n - 32 * k)) else ~~~0#32

/-- Walk the mask down from the most significant bit to the first that is set; `slot` counts along. -/
def seek (a : BitVec 32) : Nat → Nat → Nat
  | 0, slot => slot
  | fuel + 1, slot => if a &&& mask slot ≠ 0 then slot else seek a fuel (slot + 1)

/-- The number of the first bit of a word that is set. -/
def firstBit (a : BitVec 32) : Nat := seek a 32 0

/-- The mask has the bit of the slot, counted from the top. -/
lemma mask_eq (i : Nat) : mask i = BitVec.twoPow 32 (31 - i % 32) := by
  apply BitVec.eq_of_getLsbD_eq
  intro j hj
  have top : 0x80000000#32 = BitVec.twoPow 32 31 := rfl
  rw [mask, top, BitVec.getLsbD_ushiftRight, BitVec.getLsbD_twoPow, BitVec.getLsbD_twoPow]
  have := Nat.mod_lt i (show 0 < 32 by decide)
  simp only [Bool.and_eq_decide]
  congr 1
  simp only [eq_iff_iff, decide_eq_true_eq]
  omega

/-- A mask picks one bit. -/
lemma and_mask (a : BitVec 32) (i : Nat) : a &&& mask i ≠ 0 ↔ a.getLsbD (31 - i % 32) = true := by
  have nonzero : BitVec.twoPow 32 (31 - i % 32) ≠ 0#32 := by
    intro zero
    have bit := congrArg (fun a => a.getLsbD (31 - i % 32)) zero
    simp only [BitVec.getLsbD_twoPow, BitVec.getLsbD_zero, decide_true, Bool.and_true,
      decide_eq_false_iff_not] at bit
    omega
  rw [mask_eq, BitVec.and_twoPow]
  cases a.getLsbD (31 - i % 32)
  · simp
  · simpa using nonzero

/-- Testing a slot reads one bit of its word. -/
lemma test_eq (b : Bitmap) (i : Nat) : b.test i = (b (i / 32)).getLsbD (31 - i % 32) := by
  rw [Bool.eq_iff_iff, test, decide_eq_true_iff, and_mask]

/-- The bits of a mask. -/
lemma getLsbD_mask {i j : Nat} (h : i / 32 = j / 32) :
    (mask i).getLsbD (31 - j % 32) = decide (j = i) := by
  rw [mask_eq, BitVec.getLsbD_twoPow, Bool.and_eq_decide, decide_eq_decide]
  simp only [decide_eq_true_eq]
  omega

/-- The slots after one was set. -/
lemma test_set (b : Bitmap) (i j : Nat) : (b.set i).test j = (decide (j = i) || b.test j) := by
  rw [test_eq, test_eq, set]
  by_cases h : j / 32 = i / 32
  · rw [h, Function.update_self, BitVec.getLsbD_or, getLsbD_mask h.symm, Bool.or_comm]
  · rw [Function.update_of_ne h]
    have ne : j ≠ i := fun e => h (congrArg (· / 32) e)
    simp [ne]

/-- The slots after one was cleared. -/
lemma test_clear (b : Bitmap) (i j : Nat) : (b.clear i).test j = (!decide (j = i) && b.test j) := by
  rw [test_eq, test_eq, clear]
  by_cases h : j / 32 = i / 32
  · have lt : 31 - j % 32 < 32 := by omega
    rw [h, Function.update_self, BitVec.getLsbD_and, BitVec.getLsbD_not, getLsbD_mask h.symm,
      Bool.and_comm, decide_eq_true lt, Bool.true_and]
  · rw [Function.update_of_ne h]
    have ne : j ≠ i := fun e => h (congrArg (· / 32) e)
    simp [ne]

/-- The slots in which two bitmaps differ. -/
lemma test_xor (b c : Bitmap) (i : Nat) :
    test (fun k => b k ^^^ c k) i = (b.test i ^^ c.test i) := by
  rw [test_eq, test_eq, test_eq, BitVec.getLsbD_xor]

/-- The mask of a partial last word sets the bits below `n`. -/
lemma test_ones {b : Bitmap} {n i : Nat} (h : b (i / 32) = ones n (i / 32)) :
    b.test i = decide (i < n) := by
  rw [test_eq, h, ones]
  have := Nat.mod_lt i (show 0 < 32 by decide)
  split
  · next part =>
    rw [BitVec.getLsbD_not, BitVec.getLsbD_ushiftRight, BitVec.getLsbD_not, BitVec.getLsbD_zero,
      Bool.eq_iff_iff]
    simp only [Bool.and_eq_true, Bool.not_eq_true', decide_eq_true_eq, Bool.not_false, Bool.and_true,
      decide_eq_false_iff_not]
    omega
  · rw [BitVec.getLsbD_not, BitVec.getLsbD_zero, Bool.eq_iff_iff]
    simp only [Bool.not_false, Bool.and_true, decide_eq_true_eq]
    omega

/-- The search ends at the first bit that is set, if there is one. -/
lemma seek_spec {a : BitVec 32} {fuel slot : Nat} (hs : slot + fuel = 32)
    (before : ∀ j < slot, a.getLsbD (31 - j) = false) (ha : a ≠ 0) :
    seek a fuel slot < 32 ∧ a.getLsbD (31 - seek a fuel slot) = true := by
  induction fuel generalizing slot with
  | zero =>
    exfalso
    apply ha
    apply BitVec.eq_of_getLsbD_eq
    intro i hi
    have bit := before (31 - i) (by omega)
    rw [show 31 - (31 - i) = i by omega] at bit
    rw [bit]
    exact BitVec.getLsbD_zero.symm
  | succ fuel ih =>
    rw [seek]
    have small : slot % 32 = slot := Nat.mod_eq_of_lt (by omega)
    split
    · next hit =>
      rw [and_mask, small] at hit
      exact ⟨by omega, hit⟩
    · next miss =>
      rw [and_mask, small, Bool.not_eq_true] at miss
      refine ih (by omega) fun j hj => ?_
      rcases Nat.lt_or_eq_of_le (Nat.le_of_lt_succ hj) with lt | rfl
      · exact before j lt
      · exact miss

/-- The first bit of a word that is not zero is one of its bits that are set. -/
lemma test_firstBit {b : Bitmap} {k : Nat} (h : b k ≠ 0) :
    firstBit (b k) < 32 ∧ b.test (32 * k + firstBit (b k)) = true := by
  obtain ⟨lt, bit⟩ := seek_spec (show 0 + 32 = 32 from rfl) nofun h
  refine ⟨lt, ?_⟩
  have div : (32 * k + firstBit (b k)) / 32 = k := by
    rw [firstBit]
    omega
  have mod : (32 * k + firstBit (b k)) % 32 = firstBit (b k) := by
    rw [firstBit]
    omega
  rw [test_eq, div, mod]
  exact bit

/-- A bitmap is known by its bits. -/
lemma ext_test {b c : Bitmap} (h : ∀ i, b.test i = c.test i) : b = c := by
  funext k
  apply BitVec.eq_of_getLsbD_eq
  intro j hj
  have bit := h (32 * k + (31 - j))
  rw [test_eq, test_eq, show (32 * k + (31 - j)) / 32 = k by omega,
    show 31 - (32 * k + (31 - j)) % 32 = j by omega] at bit
  exact bit

end Bitmap

end Twcos
