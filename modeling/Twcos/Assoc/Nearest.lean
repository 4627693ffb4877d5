import Twcos.Assoc.Basic
import Twcos.Tree.Basic

/-!
# Nearest keys

What a lookup with one of the conditions of `map_eq_test` asks for. `Wanted` tells by the sign of the key against another
one if the condition holds, and `Nearest` says that a key is, of those that are wanted, the greatest for `MAP_LT` and
`MAP_LE` and the least for `MAP_GE` and `MAP_GT`.

In an ordered list a key has a place: the number of keys below it, and one or no key that is equal to it (`Ranked`). What
is wanted is then a matter of indices (`wanted_iff`, `nearest_iff`).
-/

namespace Twcos.Assoc
open Twcos.Tree

variable {K V : Type}

def Wanted : MapEqTest → Int → Prop
  | .lt, sign => 0 < sign
  | .le, sign => 0 ≤ sign
  | .eq, sign => sign = 0
  | .ge, sign => sign ≤ 0
  | .gt, sign => sign < 0

instance Wanted.decidable : (cond : MapEqTest) → (sign : Int) → Decidable (Wanted cond sign)
  | .lt, sign => inferInstanceAs (Decidable (0 < sign))
  | .le, sign => inferInstanceAs (Decidable (0 ≤ sign))
  | .eq, sign => inferInstanceAs (Decidable (sign = 0))
  | .ge, sign => inferInstanceAs (Decidable (sign ≤ 0))
  | .gt, sign => inferInstanceAs (Decidable (sign < 0))

/-- `k` is not farther away than `k'`, of two keys that are wanted. -/
def NotFarther (comp : K → K → Int) (k k' : K) : MapEqTest → Prop
  | .lt | .le => comp k' k ≤ 0
  | .eq => comp k' k = 0
  | .ge | .gt => comp k k' ≤ 0

structure Nearest (comp : K → K → Int) (key : K) (cond : MapEqTest) (S : K → Prop) (k : K) : Prop where
  wanted : Wanted cond (comp key k)
  nearest : ∀ k', S k' → Wanted cond (comp key k') → NotFarther comp k k' cond

/-! ### The place of a key -/

/-- `a` keys are below the key, and `e` are equal to it. -/
structure Ranked (comp : K → K → Int) (key : K) (l : List (K × V)) (a e : Nat) : Prop where
  one : e ≤ 1
  le : a + e ≤ l.length
  below : ∀ i b, l[i]? = some b → (0 < comp key b.1 ↔ i < a)
  equal : ∀ i b, l[i]? = some b → (comp key b.1 = 0 ↔ a ≤ i ∧ i < a + e)
  above : ∀ i b, l[i]? = some b → (comp key b.1 < 0 ↔ a + e ≤ i)

variable {comp : K → K → Int} {key : K} {l : List (K × V)} {a e : Nat}

/-- The rank of a key that the list is split around. -/
lemma ranked_of_between {x : Option (K × V)} {A B : List (K × V)} (hb : Between comp key A B)
    (hx : ∀ b ∈ x, comp key b.1 = 0) : Ranked comp key (A ++ (x.toList ++ B)) A.length x.toList.length := by
  have signs (i : Nat) (b : K × V) (h : (A ++ (x.toList ++ B))[i]? = some b) :
      0 < comp key b.1 ∧ i < A.length ∨ comp key b.1 = 0 ∧ A.length ≤ i ∧ i < A.length + x.toList.length ∨
        comp key b.1 < 0 ∧ A.length + x.toList.length ≤ i := by
    by_cases first : i < A.length
    · rw [List.getElem?_append_left first] at h
      exact .inl ⟨hb.before b (List.mem_of_getElem? h), first⟩
    · rw [List.getElem?_append_right (by omega)] at h
      by_cases second : i - A.length < x.toList.length
      · rw [List.getElem?_append_left second] at h
        exact .inr (.inl ⟨hx b (Option.mem_toList.mp (List.mem_of_getElem? h)), by omega, by omega⟩)
      · rw [List.getElem?_append_right (by omega)] at h
        exact .inr (.inr ⟨hb.after b (List.mem_of_getElem? h), by omega⟩)
  refine ⟨?_, ?_, fun i b h => ?_, fun i b h => ?_, fun i b h => ?_⟩
  · cases x with
    | none => exact Nat.zero_le 1
    | some b => exact le_refl 1
  · rw [List.length_append, List.length_append]
    omega
  · have := signs i b h
    omega
  · have := signs i b h
    omega
  · have := signs i b h
    omega

/-- An ordered list is made of the keys below a key, the one that is equal to it and those above it. -/
lemma exists_place (hc : SignPreorder comp) (ordered : Ordered comp l) (key : K) :
    ∃ (A : List (K × V)) (x : Option (K × V)) (B : List (K × V)), l = A ++ (x.toList ++ B) ∧ Between comp key A B ∧
      ∀ b ∈ x, comp key b.1 = 0 := by
  induction l with
  | nil => exact ⟨[], none, [], rfl, ⟨by simp, by simp⟩, by simp⟩
  | cons b l ih =>
    have whole : Ordered comp ([] ++ b :: l) := ordered
    rcases Int.lt_trichotomy (comp key b.1) 0 with lt | eq | gt
    · refine ⟨[], none, b :: l, rfl, ⟨by simp, fun c mem => ?_⟩, by simp⟩
      rcases List.mem_cons.mp mem with rfl | mem
      · exact lt
      · exact whole.lt_after hc lt.le c mem
    · exact ⟨[], some b, l, rfl, ⟨by simp, whole.lt_after hc eq.le⟩, by simpa using eq⟩
    · obtain ⟨A, x, B, e, between, equal⟩ := ih (List.pairwise_cons.mp ordered).2
      refine ⟨b :: A, x, B, by rw [e, List.cons_append], ⟨fun c mem => ?_, between.after⟩, equal⟩
      rcases List.mem_cons.mp mem with rfl | mem
      · exact gt
      · exact between.before c mem

/-- Every key has a rank in an ordered list. -/
lemma exists_ranked (hc : SignPreorder comp) (ordered : Ordered comp l) (key : K) : ∃ a e, Ranked comp key l a e := by
  obtain ⟨A, x, B, rfl, between, equal⟩ := exists_place hc ordered key
  exact ⟨_, _, ranked_of_between between equal⟩

/-- The indices that the condition asks for. -/
def WantedAt (a e i : Nat) : MapEqTest → Prop
  | .lt => i < a
  | .le => i < a + e
  | .eq => a ≤ i ∧ i < a + e
  | .ge => a ≤ i
  | .gt => a + e ≤ i

/-- Whether a binding satisfies the condition is seen from its index. -/
lemma Ranked.wanted_iff (h : Ranked comp key l a e) {i : Nat} {b : K × V} (hb : l[i]? = some b) (cond : MapEqTest) :
    Wanted cond (comp key b.1) ↔ WantedAt a e i cond := by
  have below := h.below i b hb
  have equal := h.equal i b hb
  have above := h.above i b hb
  cases cond with
  | lt => exact below
  | le =>
    show 0 ≤ comp key b.1 ↔ i < a + e
    omega
  | eq => exact equal
  | ge =>
    show comp key b.1 ≤ 0 ↔ a ≤ i
    omega
  | gt => exact above

/-- The order of the keys is that of the indices. -/
lemma Ordered.le_iff (hc : SignPreorder comp) (ordered : Ordered comp l) {i j : Nat} {b c : K × V} (hb : l[i]? = some b)
    (hd : l[j]? = some c) : comp b.1 c.1 ≤ 0 ↔ i ≤ j := by
  obtain ⟨hi, rfl⟩ := List.getElem?_eq_some_iff.mp hb
  obtain ⟨hj, rfl⟩ := List.getElem?_eq_some_iff.mp hd
  have ascending := List.pairwise_iff_getElem.mp ordered
  rcases Nat.lt_trichotomy i j with lt | rfl | gt
  · exact iff_of_true (ascending i j hi hj lt).le lt.le
  · exact iff_of_true (hc.refl _).le (le_refl i)
  · have flip := (hc.flip _ _).mp (ascending j i hj hi gt)
    exact iff_of_false (by omega) (by omega)

/-- Nearer in the order is nearer in the list. -/
def NotFartherAt (i j : Nat) : MapEqTest → Prop
  | .lt | .le => j ≤ i
  | .eq => j = i
  | .ge | .gt => i ≤ j

/-- Which of two bindings is nearer is seen from their indexes. -/
lemma Ordered.notFarther_iff (hc : SignPreorder comp) (ordered : Ordered comp l) {i j : Nat} {b c : K × V}
    (hb : l[i]? = some b) (hd : l[j]? = some c) (cond : MapEqTest) :
    NotFarther comp b.1 c.1 cond ↔ NotFartherAt i j cond := by
  have le := ordered.le_iff hc hb hd
  have ge := ordered.le_iff hc hd hb
  cases cond with
  | lt => exact ge
  | le => exact ge
  | eq =>
    have flip := hc.flip b.1 c.1
    have flip' := hc.flip c.1 b.1
    show comp c.1 b.1 = 0 ↔ j = i
    omega
  | ge => exact le
  | gt => exact le

/-- The index of the key that the condition asks for, where there is one. -/
def nearestIndex (a e n : Nat) : MapEqTest → Option Nat
  | .lt => if 0 < a then some (a - 1) else none
  | .le => if 0 < a + e then some (a + e - 1) else none
  | .eq => if 0 < e then some a else none
  | .ge => if a < n then some a else none
  | .gt => if a + e < n then some (a + e) else none

/-- The nearest index is the one that satisfies the condition with no other between. -/
lemma nearestIndex_some {n i : Nat} (one : e ≤ 1) (le : a + e ≤ n) (lt : i < n) (cond : MapEqTest) :
    nearestIndex a e n cond = some i ↔ WantedAt a e i cond ∧ ∀ j < n, WantedAt a e j cond → NotFartherAt i j cond := by
  cases cond with
  | lt =>
    simp only [nearestIndex, WantedAt, NotFartherAt, Option.ite_none_right_eq_some, Option.some.injEq]
    exact ⟨fun h => ⟨by omega, fun j _ _ => by omega⟩, fun h => by have := h.2 (a - 1); omega⟩
  | le =>
    simp only [nearestIndex, WantedAt, NotFartherAt, Option.ite_none_right_eq_some, Option.some.injEq]
    exact ⟨fun h => ⟨by omega, fun j _ _ => by omega⟩, fun h => by have := h.2 (a + e - 1); omega⟩
  | eq =>
    simp only [nearestIndex, WantedAt, NotFartherAt, Option.ite_none_right_eq_some, Option.some.injEq]
    exact ⟨fun h => ⟨by omega, fun j _ _ => by omega⟩, fun h => by omega⟩
  | ge =>
    simp only [nearestIndex, WantedAt, NotFartherAt, Option.ite_none_right_eq_some, Option.some.injEq]
    exact ⟨fun h => ⟨by omega, fun j _ _ => by omega⟩, fun h => by have := h.2 a; omega⟩
  | gt =>
    simp only [nearestIndex, WantedAt, NotFartherAt, Option.ite_none_right_eq_some, Option.some.injEq]
    exact ⟨fun h => ⟨by omega, fun j _ _ => by omega⟩, fun h => by have := h.2 (a + e); omega⟩

/-- The nearest index is one of the list. -/
lemma nearestIndex_lt {n i : Nat} (le : a + e ≤ n) {cond : MapEqTest} (h : nearestIndex a e n cond = some i) : i < n := by
  cases cond <;>
  · simp only [nearestIndex, Option.ite_none_right_eq_some, Option.some.injEq] at h
    omega

/-- There is none if no index satisfies the condition. -/
lemma nearestIndex_none {n : Nat} (le : a + e ≤ n) (cond : MapEqTest) :
    nearestIndex a e n cond = none ↔ ∀ i < n, ¬WantedAt a e i cond := by
  cases cond with
  | lt =>
    simp only [nearestIndex, WantedAt, ite_eq_right_iff, reduceCtorEq, imp_false]
    exact ⟨fun h i _ => by omega, fun h => by have := h 0; omega⟩
  | le =>
    simp only [nearestIndex, WantedAt, ite_eq_right_iff, reduceCtorEq, imp_false]
    exact ⟨fun h i _ => by omega, fun h => by have := h 0; omega⟩
  | eq =>
    simp only [nearestIndex, WantedAt, ite_eq_right_iff, reduceCtorEq, imp_false]
    exact ⟨fun h i _ => by omega, fun h => by have := h a; omega⟩
  | ge =>
    simp only [nearestIndex, WantedAt, ite_eq_right_iff, reduceCtorEq, imp_false]
    exact ⟨fun h i _ => by omega, fun h => by have := h a; omega⟩
  | gt =>
    simp only [nearestIndex, WantedAt, ite_eq_right_iff, reduceCtorEq, imp_false]
    exact ⟨fun h i _ => by omega, fun h => by have := h (a + e); omega⟩

/-- The nearest key is the one at the nearest index. -/
lemma Ranked.nearest_iff (h : Ranked comp key l a e) (hc : SignPreorder comp) (ordered : Ordered comp l) {i : Nat}
    {b : K × V} (hb : l[i]? = some b) (cond : MapEqTest) :
    Nearest comp key cond (fun k => ∃ c ∈ l, c.1 = k) b.1 ↔ nearestIndex a e l.length cond = some i := by
  obtain ⟨lt, -⟩ := List.getElem?_eq_some_iff.mp hb
  rw [nearestIndex_some h.one h.le lt, ← h.wanted_iff hb]
  constructor
  · intro nearest
    refine ⟨nearest.wanted, fun j hj wanted => ?_⟩
    have hd : l[j]? = some l[j] := List.getElem?_eq_getElem hj
    rw [← h.wanted_iff hd] at wanted
    rw [← ordered.notFarther_iff hc hb hd]
    exact nearest.nearest _ ⟨l[j], List.getElem_mem hj, rfl⟩ wanted
  · rintro ⟨wanted, nearest⟩
    refine ⟨wanted, ?_⟩
    rintro _ ⟨c, mem, rfl⟩ wanted
    obtain ⟨j, hj, rfl⟩ := List.getElem_of_mem mem
    have hd : l[j]? = some l[j] := List.getElem?_eq_getElem hj
    rw [h.wanted_iff hd] at wanted
    rw [ordered.notFarther_iff hc hb hd]
    exact nearest j hj wanted

/-- No key satisfies the condition if there is no nearest index. -/
lemma Ranked.none_iff (h : Ranked comp key l a e) (cond : MapEqTest) :
    (∀ b ∈ l, ¬Wanted cond (comp key b.1)) ↔ nearestIndex a e l.length cond = none := by
  rw [nearestIndex_none h.le]
  constructor
  · intro none i lt wanted
    rw [← h.wanted_iff (List.getElem?_eq_getElem lt)] at wanted
    exact none _ (List.getElem_mem lt) wanted
  · intro none b mem wanted
    obtain ⟨i, lt, rfl⟩ := List.getElem_of_mem mem
    rw [h.wanted_iff (List.getElem?_eq_getElem lt)] at wanted
    exact none i lt wanted

end Twcos.Assoc
