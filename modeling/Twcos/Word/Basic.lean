import Mathlib.Algebra.Ring.Nat
import Mathlib.Algebra.Ring.Int.Defs
import Mathlib.Tactic.Common

/-!
# Machine words

Words are rounded down to a power of two by a mask, as in `x & ~(n-1)`. They are put together again from their bytes, or
from their halves, the most significant first.
-/

namespace Twcos.Word

variable {w : Nat}

/-- A mask of this kind drops the bits below the power of two. -/
lemma and_not_eq_shift (x : BitVec w) (k : Nat) : x &&& ~~~BitVec.ofNat w (2 ^ k - 1) = x >>> k <<< k := by
  apply BitVec.eq_of_getLsbD_eq
  intro i hi
  rw [BitVec.getLsbD_and, BitVec.getLsbD_not, BitVec.getLsbD_ofNat, Nat.testBit_two_pow_sub_one,
    BitVec.getLsbD_shiftLeft, BitVec.getLsbD_ushiftRight, decide_eq_true hi, Bool.true_and, Bool.true_and, Bool.true_and]
  by_cases low : i < k
  · simp [low]
  · have high : k + (i - k) = i := by omega
    simp [low, high]

/-- Rounding down to a multiple of a power of two. -/
lemma toNat_and_not (x : BitVec w) (k : Nat) :
    (x &&& ~~~BitVec.ofNat w (2 ^ k - 1)).toNat = x.toNat / 2 ^ k * 2 ^ k := by
  have le := Nat.div_mul_le_self x.toNat (2 ^ k)
  rw [and_not_eq_shift, BitVec.toNat_shiftLeft, BitVec.toNat_ushiftRight, Nat.shiftRight_eq_div_pow, Nat.shiftLeft_eq,
    Nat.mod_eq_of_lt (Nat.lt_of_le_of_lt le x.isLt)]

/-- The bytes of a word. -/
lemma bytes_append (x : BitVec 32) :
    x.extractLsb' 24 8 ++ x.extractLsb' 16 8 ++ x.extractLsb' 8 8 ++ x.extractLsb' 0 8 = x := by
  apply BitVec.eq_of_getLsbD_eq
  intro i lt
  simp only [BitVec.getLsbD_append, BitVec.getLsbD_extractLsb']
  by_cases h8 : i < 8
  · rw [if_pos h8, decide_eq_true h8, Bool.true_and, Nat.zero_add]
  by_cases h16 : i - 8 < 8
  · have e : 8 + (i - 8) = i := by omega
    rw [if_neg h8, if_pos h16, decide_eq_true h16, Bool.true_and, e]
  by_cases h24 : i - 8 - 8 < 8
  · have e : 16 + (i - 8 - 8) = i := by omega
    rw [if_neg h8, if_neg h16, if_pos h24, decide_eq_true h24, Bool.true_and, e]
  · have h32 : i - 8 - 8 - 8 < 8 := by omega
    have e : 24 + (i - 8 - 8 - 8) = i := by omega
    rw [if_neg h8, if_neg h16, if_neg h24, decide_eq_true h32, Bool.true_and, e]

/-- The halves of a word. -/
lemma halves_append (x : BitVec 32) :
    (x >>> 16).setWidth 16 ++ (x &&& BitVec.ofNat 32 (2 ^ 16 - 1)).setWidth 16 = x := by
  apply BitVec.eq_of_getLsbD_eq
  intro i lt
  simp only [BitVec.getLsbD_append, BitVec.getLsbD_setWidth, BitVec.getLsbD_and, BitVec.getLsbD_ushiftRight,
    BitVec.getLsbD_ofNat, Nat.testBit_two_pow_sub_one]
  by_cases low : i < 16
  · rw [if_pos low, decide_eq_true low, decide_eq_true lt, Bool.true_and, Bool.true_and, Bool.and_true]
  · have high : i - 16 < 16 := by omega
    have e : 16 + (i - 16) = i := by omega
    rw [if_neg low, decide_eq_true high, Bool.true_and, e]

end Twcos.Word
