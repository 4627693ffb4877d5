import Mathlib.Algebra.Ring.Nat
import Mathlib.Algebra.Ring.Int.Defs
import Mathlib.Data.List.Induction
import Mathlib.Data.Nat.Digits.Lemmas

/-!
# Numerals

Numbers in positional notation, as lists of digits from the most significant one on. `numeral b n` is the numeral of `n`
to the base `b`; it follows the recursion that divides by the base (`numeral_of_lt`, `numeral_of_le`).
-/

namespace Twcos.Numeral

/-- The numeral of a number. -/
def numeral (b n : Nat) : List Nat := if n = 0 then [0] else (Nat.digits b n).reverse

/-- The value of a numeral. -/
def value (b : Nat) (ds : List Nat) : Nat := ds.foldl (fun v d => b * v + d) 0

/-- Some digits, and no leading zero but the one of zero itself. -/
structure Canonical (b : Nat) (ds : List Nat) : Prop where
  digits : ∀ d ∈ ds, d < b
  nonempty : ds ≠ []
  lead : ds.head? = some 0 → ds = [0]

variable {b n d : Nat} {ds : List Nat}

/-- The value of digits with one more at the end. -/
lemma value_concat (b : Nat) (ds : List Nat) (d : Nat) : value b (ds ++ [d]) = b * value b ds + d := by
  rw [value, List.foldl_append]
  rfl

/-- The value, with Mathlib's order of digits. -/
lemma value_eq_ofDigits (b : Nat) (ds : List Nat) : value b ds = Nat.ofDigits b ds.reverse := by
  induction ds using List.reverseRecOn with
  | nil => rfl
  | append_singleton ds d ih =>
    rw [value_concat, ih, List.reverse_append, List.reverse_singleton, List.singleton_append, Nat.ofDigits_cons,
      Nat.add_comm]

/-- A single digit. -/
lemma numeral_of_lt (h : n < b) : numeral b n = [n] := by
  rw [numeral]
  split
  · next zero => rw [zero]
  · next nonzero => rw [Nat.digits_of_lt b n nonzero h, List.reverse_singleton]

/-- All digits but the last are those of the quotient. -/
lemma numeral_of_le (hb : 1 < b) (h : b ≤ n) : numeral b n = numeral b (n / b) ++ [n % b] := by
  have pos : 0 < n := by omega
  have quotient : n / b ≠ 0 := Nat.ne_of_gt (Nat.div_pos h (by omega))
  rw [numeral, if_neg (Nat.ne_of_gt pos), Nat.digits_def' hb pos, List.reverse_cons, numeral, if_neg quotient]

/-- The digits of a number have its value. -/
lemma value_numeral (b n : Nat) : value b (numeral b n) = n := by
  rw [numeral]
  split
  · next zero =>
    rw [zero]
    rfl
  · rw [value_eq_ofDigits, List.reverse_reverse, Nat.ofDigits_digits]

/-- The digits of a number have no zero in front. -/
lemma canonical_numeral (hb : 1 < b) (n : Nat) : Canonical b (numeral b n) := by
  rw [numeral]
  split
  · refine ⟨fun d hd => ?_, List.cons_ne_nil _ _, fun _ => rfl⟩
    rw [List.mem_singleton.mp hd]
    omega
  · next nonzero =>
    have some : Nat.digits b n ≠ [] := Nat.digits_ne_nil_iff_ne_zero.mpr nonzero
    refine ⟨fun d hd => Nat.digits_lt_base hb (List.mem_reverse.mp hd), ?_, fun zero => ?_⟩
    · exact fun nil => some (List.reverse_eq_nil_iff.mp nil)
    · rw [List.head?_reverse, List.getLast?_eq_some_getLast some] at zero
      exact absurd (Option.some.inj zero) (Nat.getLast_digit_ne_zero b nonzero)

end Twcos.Numeral
