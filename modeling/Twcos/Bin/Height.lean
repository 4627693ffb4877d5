import Mathlib.Tactic.Ring
import Twcos.Bin.Basic

/-!
# The height of a binary tree

A tree in which every left subtree has as many elements as the right one, or one more, is not higher than any other tree
with the same number of elements.
-/

namespace Twcos.Bin

variable {α β : Type}

/-- The number of elements on the longest way down. -/
def height : Bin α → Nat
  | nil => 0
  | node l _ r => 1 + max l.height r.height

/-- Every left subtree has as many elements as the right one, or one more. -/
def Halved : Bin α → Prop
  | nil => True
  | node l _ r => (l.size = r.size ∨ l.size = r.size + 1) ∧ l.Halved ∧ r.Halved

/-- A tree of some height has less than that power of two of nodes. -/
lemma size_lt_two_pow (t : Bin α) : t.size < 2 ^ t.height := by
  induction t with
  | nil => exact Nat.one_pos
  | node l x r ihl ihr =>
    have left : 2 ^ l.height ≤ 2 ^ max l.height r.height := Nat.pow_le_pow_right (by decide) (le_max_left _ _)
    have right : 2 ^ r.height ≤ 2 ^ max l.height r.height := Nat.pow_le_pow_right (by decide) (le_max_right _ _)
    rw [size, height, pow_add, pow_one]
    omega

/-- All levels of such a tree but the last are full. -/
lemma Halved.two_pow_le {t : Bin α} (h : t.Halved) : 2 ^ t.height ≤ max 1 (2 * t.size) := by
  induction t with
  | nil => exact le_refl 1
  | node l x r ihl ihr =>
    obtain ⟨sizes, hl, hr⟩ := h
    have left := ihl hl
    have right := ihr hr
    rw [size, height, pow_add, pow_one]
    rcases le_total l.height r.height with le | le
    · rw [max_eq_right le]
      omega
    · rw [max_eq_left le]
      omega

/-- No tree with as many elements is lower. -/
theorem Halved.height_le {t : Bin α} {v : Bin β} (h : t.Halved) (size : v.size = t.size) : t.height ≤ v.height := by
  have low := size_lt_two_pow v
  have high := h.two_pow_le
  by_contra lt
  have le : 2 ^ (v.height + 1) ≤ 2 ^ t.height := Nat.pow_le_pow_right (by decide) (Nat.lt_of_not_le lt)
  rw [pow_succ] at le
  omega

end Twcos.Bin
