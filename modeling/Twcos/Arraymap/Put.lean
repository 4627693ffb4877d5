import Twcos.Assoc.Order
import Twcos.Arraymap.Index

/-!
# Insertion into an array map

`arraymap_put` of `libk/arraymap.c` on a map with room, whose keys do not descend. Two keys may be equal here, as they come
to be where the first binding is not found. The search ends next to a binding above the key; the binding at its lower end
is below the key or the first one, which is compared once more.
-/

namespace Twcos.Arraymap
open Twcos.Prog Twcos.Assoc

variable {K V : Type} {comp : K → K → Int} {key : K} {m : ArrayMap K V} {l : List (K × V)}

/-- What `arraymap_put` may do to the bindings, and the data that it returns. -/
inductive PutStep [Zero V] (comp : K → K → Int) (key : K) (data : V) (l : List (K × V)) : V → List (K × V) → Prop
  | replace {before after : List (K × V)} {b : K × V} (split : l = before ++ b :: after) (equal : comp key b.1 = 0) :
      PutStep comp key data l b.2 (before ++ (b.1, data) :: after)
  | insert {before after : List (K × V)} (split : l = before ++ after) :
      PutStep comp key data l 0 (before ++ (key, data) :: after)

/-- Everything before the place where the key is inserted is not above it, everything behind is not below it. -/
lemma Missed.fits (hc : SignPreorder comp) (ordered : NonDescending comp l) {low : Nat} (missed : Missed comp key l low)
    {b : K × V} (hb : l[low]? = some b) :
    (∀ a ∈ l.take (insertAt comp key low b), comp a.1 key ≤ 0) ∧
      ∀ a ∈ l.drop (insertAt comp key low b), comp key a.1 ≤ 0 := by
  obtain ⟨-, below, above, -⟩ := missed
  have here := ordered
  rw [split_at hb] at here
  by_cases pos : 0 < comp key b.1
  · rw [insertAt, if_pos pos]
    have le : comp b.1 key ≤ 0 := ((hc.flip b.1 key).mpr pos).le
    constructor
    · rw [List.take_add_one, hb]
      exact here.le_before hc le
    · rcases above with last | ⟨c, hc', neg⟩
      · rw [last, List.drop_length]
        exact fun a mem => absurd mem List.not_mem_nil
      · -- the next binding is above the key
        have next := ordered
        rw [split_at hc'] at next
        obtain ⟨lt, rfl⟩ := List.getElem?_eq_some_iff.mp hc'
        rw [List.drop_eq_getElem_cons lt]
        exact next.le_after hc neg.le
  · -- only the first binding can be there without being below the key
    have first : low = 0 := by
      rcases below with zero | ⟨c, hc', pos'⟩
      · exact zero
      · cases hb.symm.trans hc'
        exact absurd pos' pos
    subst first
    rw [insertAt, if_neg pos]
    refine ⟨fun a mem => absurd mem List.not_mem_nil, fun a mem => ?_⟩
    rw [List.drop_zero, split_at hb, List.take_zero, List.nil_append] at mem
    exact here.le_after hc (not_lt.mp pos) a mem

/-- `arraymap_put` on a map that is neither empty nor full ends. It replaces the data of a binding with an equal key, or
    inserts the new binding among the others; the keys still do not descend. -/
theorem arraymapPut_nonDescending [Zero V] (comp : K → K → Int) (hc : SignPreorder comp) (m : ArrayMap K V)
    (l : List (K × V)) (h : Holds m l) (ordered : NonDescending comp l) (ne : l ≠ [])
    (room : (l.length : Int) < m.capacity) (key : K) (data : V) :
    ∃ old m' l', Returns (arraymapPut comp key data) m (.ok old) m' ∧ m'.capacity = m.capacity ∧ Holds m' l' ∧
      NonDescending comp l' ∧ PutStep comp key data l old l' := by
  rcases arraymapPut_returns comp key h ne data with ⟨i, b, hb, equal, run⟩ | ⟨low, b, hb, missed, ends⟩
  · have split := split_at hb
    refine ⟨_, _, _, run, rfl, h.set (lt_of_get hb) (b.1, data), ?_, .replace split equal⟩
    rw [split] at ordered
    exact ordered.replace
  · rcases ends with ⟨full, -⟩ | ⟨-, m', run, capacity, holds⟩
    · have count := h.count
      omega
    · obtain ⟨below, above⟩ := missed.fits hc ordered hb
      have split := (List.take_append_drop (insertAt comp key low b) l).symm
      refine ⟨_, m', _, run, capacity, holds, ?_, .insert split⟩
      rw [split] at ordered
      exact ordered.insert below above

/-- A key that goes between two others. -/
theorem arraymapPut_threeKeys : ∃ old m' l', Returns (arraymapPut compNat 15 4) threeKeys (.ok old) m' ∧
    m'.capacity = threeKeys.capacity ∧ Holds m' l' ∧ NonDescending compNat l' ∧
      PutStep compNat 15 4 [(10, 1), (20, 2), (30, 3)] old l' := by
  have ordered : NonDescending compNat [(10, 1), (20, 2), (30, 3)] := by
    unfold NonDescending
    decide
  exact arraymapPut_nonDescending compNat compNat_preorder threeKeys _ holds_threeKeys ordered (by decide)
    (by decide) 15 4

end Twcos.Arraymap
