import Mathlib.Algebra.BigOperators.Group.List.Basic
import Twcos.Tarfs.Scan
import Twcos.Tarfs.Walk

/-!
# Valid headers

`tarfs_validate` of `fs/tarfs/tarfs.c` against what a valid header is: the checksum is the sum of all bytes of the
block, and the magic and the version are one of two pairs. The code adds up the fields of `tarfs_header_t`, which end
twelve bytes before the block does, and accepts whatever the magic and the version are. `validate_iff` says for which
blocks the verdict is right.
-/

namespace Twcos.Tarfs
open Twcos.Text

def isOctal (c : Byte) : Bool := 0x30 ≤ c.toNat ∧ c.toNat ≤ 0x37

/-- The number that the octal digits before the NUL of a field make. -/
def octalNumber (cp : Str) : Nat := octal ((cp.takeWhile (· ≠ 0)).filter isOctal)

/-- The sum of the first bytes of a block, with the eight bytes of the checksum taken as spaces. -/
def blockSum (n : Nat) (h : Block) (value : Byte → Int) : Int :=
  ((List.range n).map fun i => if 148 ≤ i ∧ i < 156 then 0x20 else value (h i)).sum

/-- The checksum is the sum of the first bytes, all of them unsigned or all of them signed. -/
def SumsUp (n : Nat) (h : Block) : Prop :=
  octalNumber (field h 148 8) = blockSum n h (fun b => b.toNat) ∨ octalNumber (field h 148 8) = blockSum n h BitVec.toInt

/-- The pairs of POSIX and of pdtar. -/
def HasFormat (h : Block) : Prop :=
  field h 257 6 = [0x75, 0x73, 0x74, 0x61, 0x72, 0] ∧ field h 263 2 = [0x30, 0x30] ∨
    field h 257 6 = [0x75, 0x73, 0x74, 0x61, 0x72, 0x20] ∧ field h 263 2 = [0x20, 0]

/-- What a valid header is. -/
def Valid (h : Block) : Prop := SumsUp 512 h ∧ HasFormat h

/-! ### The number of the checksum -/

/-- The test of `tarfs_otoi`, which takes `char` as signed. -/
lemma digit_iff (c : Byte) : c.signExtend 32 - 0x30#32 < 8#32 ↔ isOctal c = true := by
  have all : ∀ n : Fin 256, (BitVec.ofFin (w := 8) n).signExtend 32 - 0x30#32 < 8#32 ↔
      isOctal (BitVec.ofFin (w := 8) n) = true := by
    decide +kernel
  exact all c.toFin

/-- `tarfs_otoi` skips everything but octal digits. -/
lemma otoi_eq (cp : Str) : tarfsOtoi cp = BitVec.ofNat 32 (octalNumber cp) := by
  have digits : ∀ c ∈ (cp.takeWhile (· ≠ 0)).filter isOctal, 0x30 ≤ c.toNat ∧ c.toNat ≤ 0x37 := by
    intro c hc
    exact of_decide_eq_true (List.mem_filter.mp hc).2
  rw [octalNumber, octal, ← otoi_digits _ 0 digits, List.foldl_filter, tarfsOtoi]
  congr 1
  funext v c
  dsimp only
  by_cases octal : isOctal c = true
  · rw [if_pos octal]
  · rw [if_neg octal]
    exact if_neg fun digit => octal ((digit_iff c).mp digit)

/-- Octal digits make a number below a power of eight. -/
lemma octal_lt {digits : Str} {v b : Nat} (h : ∀ c ∈ digits, isOctal c = true) (hv : v < b) :
    digits.foldl (fun v c => 8 * v + (c.toNat - 0x30)) v < 8 ^ digits.length * b := by
  induction digits generalizing v b with
  | nil => rwa [List.length_nil, Nat.pow_zero, Nat.one_mul]
  | cons c digits ih =>
    have digit : 0x30 ≤ c.toNat ∧ c.toNat ≤ 0x37 := of_decide_eq_true (h c List.mem_cons_self)
    rw [List.foldl_cons, List.length_cons, Nat.pow_succ, Nat.mul_assoc]
    apply ih
    · intro c hc
      exact h c (List.mem_cons_of_mem _ hc)
    · omega

/-- The number of a checksum fits into an `int`. -/
lemma otoi_checksum (h : Block) : (tarfsOtoi (field h 148 8)).toInt = octalNumber (field h 148 8) := by
  have digits : ∀ c ∈ ((field h 148 8).takeWhile (· ≠ 0)).filter isOctal, isOctal c = true := by
    intro c hc
    exact (List.mem_filter.mp hc).2
  have lt := octal_lt digits Nat.zero_lt_one
  have short : (((field h 148 8).takeWhile (· ≠ 0)).filter isOctal).length ≤ 8 := by
    apply le_trans (List.length_filter_le _ _)
    apply le_trans (List.takeWhile_sublist _).length_le
    rw [field, List.length_map, List.length_range]
  have bound : octalNumber (field h 148 8) < 8 ^ 8 := by
    rw [Nat.mul_one] at lt
    exact Nat.lt_of_lt_of_le lt (Nat.pow_le_pow_right (by decide) short)
  rw [otoi_eq, BitVec.toInt_eq_toNat_of_lt]
  · rw [BitVec.toNat_ofNat, Nat.mod_eq_of_lt (by omega)]
  · rw [BitVec.toNat_ofNat]
    omega

/-! ### The verdict -/

/-- The code checks the sum of the first 500 bytes, and nothing else. -/
lemma tarfsValidate_iff (h : Block) : tarfsValidate h = true ↔ SumsUp 500 h := by
  have sum := otoi_checksum h
  have usum : checksum h (fun b => b.toNat) = blockSum 500 h fun b => b.toNat := rfl
  have ssum : checksum h BitVec.toInt = blockSum 500 h BitVec.toInt := rfl
  rw [tarfsValidate, sum, usum, ssum, SumsUp]
  simp only [ite_self]
  split
  · next bad =>
    apply iff_of_false Bool.false_ne_true
    rintro (u | s)
    · exact bad.1 u.symm
    · exact bad.2 s.symm
  · next good =>
    apply iff_of_true rfl
    by_contra no
    rw [not_or] at no
    exact good ⟨Ne.symm no.1, Ne.symm no.2⟩

/-- Bytes of zeros do not change the sum. -/
lemma blockSum_padded {h : Block} {n k : Nat} (hn : 156 ≤ n) (zero : ∀ i, n ≤ i → i < n + k → h i = 0)
    {value : Byte → Int} (hv : value 0 = 0) : blockSum (n + k) h value = blockSum n h value := by
  have rest : (((List.range k).map (n + ·)).map fun i => if 148 ≤ i ∧ i < 156 then 0x20 else value (h i)).sum = 0 := by
    apply List.sum_eq_zero
    intro x hx
    obtain ⟨i, hi, rfl⟩ := List.mem_map.mp hx
    obtain ⟨j, hj, rfl⟩ := List.mem_map.mp hi
    rw [List.mem_range] at hj
    rw [if_neg (by omega), zero _ (by omega) (by omega), hv]
  rw [blockSum, blockSum, List.range_add, List.map_append, List.sum_append, rest, Int.add_zero]

/-- Zeros at the end of the header do not count in the sum. -/
lemma sumsUp_padded {h : Block} (zero : ∀ i, 500 ≤ i → i < 512 → h i = 0) : SumsUp 512 h ↔ SumsUp 500 h := by
  have usum : blockSum 512 h (fun b => b.toNat) = blockSum 500 h fun b => b.toNat :=
    blockSum_padded (n := 500) (k := 12) (by decide) zero rfl
  have ssum : blockSum 512 h BitVec.toInt = blockSum 500 h BitVec.toInt :=
    blockSum_padded (n := 500) (k := 12) (by decide) zero rfl
  rw [SumsUp, SumsUp, usum, ssum]

/-- The verdict is right exactly for blocks of a known format in which the last twelve bytes do not change whether the
    checksum is right, and for blocks of no known format whose checksum is not the sum of the first 500 bytes. When the
    last twelve bytes are zeros, these are the blocks that have a known format or a wrong checksum. -/
theorem validate_iff (h : Block) :
    ((tarfsValidate h = true ↔ Valid h) ↔
      HasFormat h ∧ (SumsUp 500 h ↔ SumsUp 512 h) ∨ ¬HasFormat h ∧ ¬SumsUp 500 h) ∧
    ((∀ i, 500 ≤ i → i < 512 → h i = 0) → ((tarfsValidate h = true ↔ Valid h) ↔ HasFormat h ∨ ¬SumsUp 512 h)) := by
  rw [tarfsValidate_iff, Valid]
  constructor
  · generalize SumsUp 500 h = code
    generalize SumsUp 512 h = block
    tauto
  · intro zero
    rw [sumsUp_padded zero]
    generalize SumsUp 500 h = code
    tauto

/-- A header with the right checksum and neither magic nor version. -/
theorem validate_no_magic : tarfsValidate headerAX = true ∧ ¬Valid headerAX := by
  refine ⟨by decide +kernel, fun valid => ?_⟩
  rcases valid.2 with ⟨magic, -⟩ | ⟨magic, -⟩
  · exact absurd magic (by decide)
  · exact absurd magic (by decide)

end Twcos.Tarfs
