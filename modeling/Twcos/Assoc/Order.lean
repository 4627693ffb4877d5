import Mathlib.Data.List.Lex
import Twcos.Assoc.Basic

/-!
# Comparators of an order

`compareIn` is the comparator of a linear order in the style of C. It meets the laws of a comparator, and is zero only for
equal keys. Another comparator with the same signs (`SameSign`) does so, too. Lists are compared in lexicographic order.

A list of bindings whose keys do not descend (`NonDescending`) may have equal keys; a binding can be inserted between any
two that are not above and not below it.
-/

namespace Twcos.Assoc

variable {α : Type} [LinearOrder α] {a b : α}

/-- The comparator of an order. -/
def compareIn (a b : α) : Int := if b < a then 1 else if a < b then -1 else 0

/-- Less is negative. -/
lemma compareIn_neg : compareIn a b < 0 ↔ a < b := by
  rw [compareIn]
  rcases lt_trichotomy a b with lt | rfl | gt
  · rw [if_neg lt.asymm, if_pos lt]
    exact iff_of_true (by decide) lt
  · rw [if_neg (lt_irrefl a), if_neg (lt_irrefl a)]
    exact iff_of_false (by decide) (lt_irrefl a)
  · rw [if_pos gt]
    exact iff_of_false (by decide) gt.asymm

/-- Greater is positive. -/
lemma compareIn_pos : 0 < compareIn a b ↔ b < a := by
  rw [compareIn]
  rcases lt_trichotomy a b with lt | rfl | gt
  · rw [if_neg lt.asymm, if_pos lt]
    exact iff_of_false (by decide) lt.asymm
  · rw [if_neg (lt_irrefl a), if_neg (lt_irrefl a)]
    exact iff_of_false (by decide) (lt_irrefl a)
  · rw [if_pos gt]
    exact iff_of_true (by decide) gt

/-- Less or equal is not positive. -/
lemma compareIn_nonpos : compareIn a b ≤ 0 ↔ a ≤ b := by
  rw [← Int.not_lt, compareIn_pos, not_lt]

/-- Equal is zero. -/
lemma compareIn_zero : compareIn a b = 0 ↔ a = b := by
  have below := compareIn_neg (a := a) (b := b)
  have above := compareIn_pos (a := a) (b := b)
  constructor
  · intro zero
    exact le_antisymm (not_lt.mp fun lt => by have := above.mpr lt; omega)
      (not_lt.mp fun lt => by have := below.mpr lt; omega)
  · rintro rfl
    rw [compareIn, if_neg (lt_irrefl a), if_neg (lt_irrefl a)]

/-- A linear order compares as `qsort` wants it. -/
lemma compareIn_signPreorder : SignPreorder (compareIn : α → α → Int) where
  flip _ _ := compareIn_neg.trans compareIn_pos.symm
  trans _ _ _ h h' := compareIn_nonpos.mpr ((compareIn_nonpos.mp h).trans (compareIn_nonpos.mp h'))

/-- The sign only depends on the order. -/
lemma compareIn_congr {β : Type} [LinearOrder β] {c d : β} (lt : a < b ↔ c < d) (gt : b < a ↔ d < c) :
    compareIn a b = compareIn c d := by
  rw [compareIn, compareIn]
  by_cases above : b < a
  · rw [if_pos above, if_pos (gt.mp above)]
  by_cases below : a < b
  · rw [if_neg above, if_pos below, if_neg fun h => above (gt.mpr h), if_pos (lt.mp below)]
  · rw [if_neg above, if_neg below, if_neg fun h => above (gt.mpr h), if_neg fun h => below (lt.mpr h)]

/-! ### Lists -/

section Lists
variable {l m : List α}

/-- The first elements decide if they differ. -/
lemma compareIn_cons (ne : a ≠ b) : compareIn (a :: l) (b :: m) = compareIn a b := by
  have heads {a b : α} {l m : List α} (ne : a ≠ b) : a :: l < b :: m ↔ a < b := by
    rw [List.cons_lt_cons_iff, or_iff_left fun e => ne e.1]
  exact compareIn_congr (heads ne) (heads ne.symm)

/-- Equal first elements do not decide. -/
lemma compareIn_cons_self (a : α) : compareIn (a :: l) (a :: m) = compareIn l m :=
  compareIn_congr List.cons_lt_cons_self List.cons_lt_cons_self

end Lists

/-! ### Signs -/

structure SameSign (x y : Int) : Prop where
  neg : x < 0 ↔ y < 0
  pos : 0 < x ↔ 0 < y

/-- Both are zero or none. -/
lemma SameSign.zero {x y : Int} (h : SameSign x y) : x = 0 ↔ y = 0 := by
  have := h.neg
  have := h.pos
  omega

/-- A difference has the sign of the comparison. -/
lemma sub_sameSign (x y : Int) : SameSign (x - y) (compareIn x y) :=
  ⟨by rw [compareIn_neg]; omega, by rw [compareIn_pos]; omega⟩

/-! ### Lists with equal keys -/

section NonDescending
variable {K V : Type} {comp : K → K → Int} (hc : SignPreorder comp) {before after : List (K × V)} {b : K × V} {k : K} {v : V}

/-- The keys do not descend. -/
def NonDescending (comp : K → K → Int) (l : List (K × V)) : Prop := l.Pairwise fun a b => comp a.1 b.1 ≤ 0

/-- The order does not depend on the data. -/
lemma NonDescending.replace (h : NonDescending comp (before ++ b :: after)) :
    NonDescending comp (before ++ (b.1, v) :: after) := by
  rw [NonDescending, List.pairwise_append, List.pairwise_cons] at h ⊢
  obtain ⟨hb, ha, hba⟩ := h
  refine ⟨hb, ha, fun a ma c mc => ?_⟩
  rcases List.mem_cons.mp mc with rfl | mc
  · exact hba a ma b List.mem_cons_self
  · exact hba a ma c (List.mem_cons_of_mem b mc)

/-- A new key above the keys before it and below those behind it keeps the order. -/
lemma NonDescending.insert (h : NonDescending comp (before ++ after)) (below : ∀ a ∈ before, comp a.1 k ≤ 0)
    (above : ∀ a ∈ after, comp k a.1 ≤ 0) : NonDescending comp (before ++ (k, v) :: after) := by
  rw [NonDescending, List.pairwise_append] at h ⊢
  obtain ⟨hb, ha, hba⟩ := h
  refine ⟨hb, List.pairwise_cons.mpr ⟨above, ha⟩, fun a ma c mc => ?_⟩
  rcases List.mem_cons.mp mc with rfl | mc
  · exact below a ma
  · exact hba a ma c mc

include hc

/-- A key not above a binding is not above anything behind it. -/
lemma NonDescending.le_after (h : NonDescending comp (before ++ b :: after)) (le : comp k b.1 ≤ 0) :
    ∀ a ∈ b :: after, comp k a.1 ≤ 0 := by
  rw [NonDescending, List.pairwise_append, List.pairwise_cons] at h
  intro a mem
  rcases List.mem_cons.mp mem with rfl | mem
  · exact le
  · exact hc.trans k b.1 a.1 le (h.2.1.1 a mem)

/-- A key not below a binding is not below anything before it. -/
lemma NonDescending.le_before (h : NonDescending comp (before ++ b :: after)) (le : comp b.1 k ≤ 0) :
    ∀ a ∈ before ++ [b], comp a.1 k ≤ 0 := by
  rw [NonDescending, List.pairwise_append] at h
  intro a mem
  rcases List.mem_append.mp mem with mem | mem
  · exact hc.trans a.1 b.1 k (h.2.2 a mem b List.mem_cons_self) le
  · cases List.mem_singleton.mp mem
    exact le

end NonDescending

end Twcos.Assoc
