import Mathlib.Tactic.Common
import Mathlib.Data.List.Basic
import Mathlib.Data.Finmap

/-!
# Ordered lists of bindings

Comparators in the style of C, which tell the order of two keys by the sign of a number, and lists of
bindings in strict key order. Such a list stands for a finite map keyed by the equivalence of the
comparator (`Denotes`): inserting, replacing and taking out a binding at its place in the list are the
operations `insert` and `erase` of the map.
-/

namespace Twcos

variable {K V : Type}

/-- The sign of the comparator is a total preorder. -/
structure SignPreorder (comp : K → K → Int) : Prop where
  flip : ∀ a b, comp a b < 0 ↔ 0 < comp b a
  trans : ∀ a b c, comp a b ≤ 0 → comp b c ≤ 0 → comp a c ≤ 0

namespace SignPreorder
variable {comp : K → K → Int} (hc : SignPreorder comp) {a b c : K}

include hc

/-- Every key is equal to itself. -/
lemma refl (a : K) : comp a a = 0 := by
  have h := hc.flip a a
  omega

/-- Equality is symmetric. -/
lemma symm (h : comp a b = 0) : comp b a = 0 := by
  have h1 := hc.flip a b
  have h2 := hc.flip b a
  omega

/-- Transitivity, with the first comparison strict. -/
lemma lt_trans (h1 : comp a b < 0) (h2 : comp b c ≤ 0) : comp a c < 0 := by
  have le := hc.trans a b c (by omega) h2
  -- otherwise `b` would be below `a` through `c`
  by_contra h
  have ca := hc.symm (show comp a c = 0 by omega)
  have ba := hc.trans b c a h2 (by omega)
  have := hc.flip a b
  omega

/-- Transitivity, with the second comparison strict. -/
lemma trans_lt (h1 : comp a b ≤ 0) (h2 : comp b c < 0) : comp a c < 0 := by
  have le := hc.trans a b c h1 (by omega)
  by_contra h
  have ca := hc.symm (show comp a c = 0 by omega)
  have cb := hc.trans c a b (by omega) h1
  have := hc.flip b c
  omega

/-- Transitivity from the greater side. -/
lemma gt_trans (h1 : 0 < comp a b) (h2 : 0 ≤ comp b c) : 0 < comp a c := by
  have h3 := hc.flip b c
  have h4 := hc.flip c b
  have h5 : comp c b ≤ 0 := by
    rcases Int.lt_or_eq_of_le h2 with h | h
    · omega
    · have := hc.symm h.symm
      omega
  exact (hc.flip c a).mp (hc.trans_lt h5 ((hc.flip b a).mpr h1))

/-- Equivalence of keys. -/
def setoid : Setoid K where
  r a b := comp a b = 0
  iseqv :=
    { refl := hc.refl
      symm := hc.symm
      trans := by
        intro a b c h1 h2
        have h3 := hc.trans a b c (by omega) (by omega)
        have h4 := hc.trans c b a (by have := hc.symm h2; omega) (by have := hc.symm h1; omega)
        have := hc.flip a c
        omega }

/-- Equality is transitive. -/
lemma equiv_trans (h1 : comp a b = 0) (h2 : comp b c = 0) : comp a c = 0 := hc.setoid.trans h1 h2

omit hc in
/-- The equivalence classes of keys. -/
abbrev Class (hc : SignPreorder comp) : Type := Quotient hc.setoid

omit hc in
/-- The class of a key. -/
def classOf (hc : SignPreorder comp) (k : K) : hc.Class := Quotient.mk hc.setoid k

omit hc in
instance (hc : SignPreorder comp) : DecidableEq hc.Class :=
  @Quotient.decidableEq K hc.setoid fun a b => inferInstanceAs (Decidable (comp a b = 0))

/-- Two keys have the same class if they compare equal. -/
lemma classOf_eq : hc.classOf a = hc.classOf b ↔ comp a b = 0 :=
  @Quotient.eq K hc.setoid a b

end SignPreorder

namespace Assoc

/-- The keys ascend strictly. -/
def Ordered (comp : K → K → Int) (l : List (K × V)) : Prop := l.Pairwise fun a b => comp a.1 b.1 < 0

/-- A key fits between two lists. -/
structure Between (comp : K → K → Int) (k : K) (before after : List (K × V)) : Prop where
  before : ∀ a ∈ before, 0 < comp k a.1
  after : ∀ b ∈ after, comp k b.1 < 0

/-- The data bound to a key. -/
def lookup (comp : K → K → Int) (l : List (K × V)) (k : K) : Option V :=
  (l.find? fun b => comp k b.1 = 0).map Prod.snd

variable {comp : K → K → Int} (hc : SignPreorder comp) {l before after : List (K × V)} {b : K × V} {k : K}

/-- Nothing is found where no key compares equal. -/
lemma find?_none_of (h : ∀ a ∈ l, comp k a.1 ≠ 0) : l.find? (fun b => comp k b.1 = 0) = none := by
  rw [List.find?_eq_none]
  intro a ha
  simpa using h a ha

/-- Nothing is found between keys that are less and keys that are greater. -/
lemma lookup_between (h : Between comp k before after) : lookup comp (before ++ after) k = none := by
  rw [lookup, find?_none_of]
  · rfl
  · intro a ha
    rcases List.mem_append.mp ha with ha | ha
    · have := h.before a ha
      omega
    · have := h.after a ha
      omega

include hc

/-- A key not above a binding is below everything behind it. -/
lemma Ordered.lt_after (h : Ordered comp (before ++ b :: after)) (hk : comp k b.1 ≤ 0) :
    ∀ a ∈ after, comp k a.1 < 0 := by
  rw [Ordered, List.pairwise_append, List.pairwise_cons] at h
  exact fun a ha => hc.trans_lt hk (h.2.1.1 a ha)

/-- A key not below a binding is above everything before it. -/
lemma Ordered.gt_before (h : Ordered comp (before ++ b :: after)) (hk : 0 ≤ comp k b.1) :
    ∀ a ∈ before, 0 < comp k a.1 := by
  rw [Ordered, List.pairwise_append] at h
  intro a ha
  have lt := h.2.2 a ha b List.mem_cons_self
  rcases Int.lt_or_eq_of_le hk with gt | eq
  · exact hc.gt_trans gt ((hc.flip a.1 b.1).mp lt).le
  · exact (hc.flip a.1 k).mp (hc.lt_trans lt (hc.symm eq.symm).le)

/-- In an ordered list every binding sits between the others. -/
lemma Ordered.between (h : Ordered comp (before ++ b :: after)) (hk : comp k b.1 = 0) :
    Between comp k before after :=
  ⟨h.gt_before hc hk.ge, h.lt_after hc hk.le⟩

/-- Looking up in an ordered list, seen from one of its bindings. -/
lemma lookup_mid (h : Ordered comp (before ++ b :: after)) :
    lookup comp (before ++ b :: after) k =
      if comp k b.1 = 0 then some b.2 else lookup comp (before ++ after) k := by
  by_cases hk : comp k b.1 = 0
  · have none_before : before.find? (fun b => comp k b.1 = 0) = none := by
      apply find?_none_of
      intro a ha
      have := (h.between hc hk).before a ha
      omega
    rw [if_pos hk, lookup, List.find?_append, none_before, Option.none_or,
      List.find?_cons_of_pos (by simpa using hk)]
    rfl
  · rw [if_neg hk, lookup, lookup, List.find?_append, List.find?_append,
      List.find?_cons_of_neg (by simpa using hk)]

/-- A new key in its place keeps the order. -/
lemma Ordered.insert {v : V} (h : Ordered comp (before ++ after)) (hk : Between comp k before after) :
    Ordered comp (before ++ (k, v) :: after) := by
  rw [Ordered, List.pairwise_append] at h ⊢
  obtain ⟨hb, ha, hba⟩ := h
  refine ⟨hb, List.pairwise_cons.mpr ⟨hk.after, ha⟩, ?_⟩
  intro a hm c hc'
  rcases List.mem_cons.mp hc' with rfl | hc'
  · exact (hc.flip a.1 k).mpr (hk.before a hm)
  · exact hba a hm c hc'

omit hc in
/-- Taking a binding away keeps the order. -/
lemma Ordered.erase (h : Ordered comp (before ++ b :: after)) : Ordered comp (before ++ after) :=
  h.sublist (List.Sublist.append (.refl _) (List.sublist_cons_self _ _))

omit hc in
/-- The list stands for the map. -/
structure Denotes (hc : SignPreorder comp) (l : List (K × V)) (M : Finmap fun _ : hc.Class => V) : Prop where
  ordered : Ordered comp l
  agree : ∀ k, lookup comp l k = M.lookup (hc.classOf k)

omit hc in
/-- The empty list stands for the empty map. -/
lemma Denotes.nil (hc : SignPreorder comp) : Denotes hc ([] : List (K × V)) ∅ :=
  ⟨List.Pairwise.nil, fun _ => rfl⟩

/-- A list that looks up as after an insertion stands for the map after it. -/
lemma Denotes.insert {l l' : List (K × V)} {M : Finmap fun _ : hc.Class => V} {v : V}
    (h : Denotes hc l M) (ho : Ordered comp l')
    (hl : ∀ k', lookup comp l' k' = if comp k' k = 0 then some v else lookup comp l k') :
    Denotes hc l' (M.insert (hc.classOf k) v) := by
  refine ⟨ho, fun k' => ?_⟩
  rw [hl]
  by_cases hk : comp k' k = 0
  · rw [if_pos hk, hc.classOf_eq.mpr hk, Finmap.lookup_insert]
  · rw [if_neg hk, Finmap.lookup_insert_of_ne _ fun e => hk (hc.classOf_eq.mp e), h.agree]

/-- A list that looks up as after a removal stands for the map after it. -/
lemma Denotes.erase {l l' : List (K × V)} {M : Finmap fun _ : hc.Class => V}
    (h : Denotes hc l M) (ho : Ordered comp l')
    (hl : ∀ k', lookup comp l' k' = if comp k' k = 0 then none else lookup comp l k') :
    Denotes hc l' (M.erase (hc.classOf k)) := by
  refine ⟨ho, fun k' => ?_⟩
  rw [hl]
  by_cases hk : comp k' k = 0
  · rw [if_pos hk, hc.classOf_eq.mpr hk, Finmap.lookup_erase]
  · rw [if_neg hk, Finmap.lookup_erase_ne fun e => hk (hc.classOf_eq.mp e), h.agree]

/-- A binding put where its key fits. -/
lemma Denotes.put {M : Finmap fun _ : hc.Class => V} {v : V} (h : Denotes hc (before ++ after) M)
    (hk : Between comp k before after) :
    Denotes hc (before ++ (k, v) :: after) (M.insert (hc.classOf k) v) := by
  have ho : Ordered comp (before ++ (k, v) :: after) := h.ordered.insert hc hk
  exact h.insert hc ho fun _ => lookup_mid hc ho

/-- A binding put in the place of one with an equivalent key. -/
lemma Denotes.replace {M : Finmap fun _ : hc.Class => V} {v : V}
    (h : Denotes hc (before ++ b :: after) M) (hk : comp k b.1 = 0) :
    Denotes hc (before ++ (k, v) :: after) (M.insert (hc.classOf k) v) := by
  have ho : Ordered comp (before ++ (k, v) :: after) := h.ordered.erase.insert hc (h.ordered.between hc hk)
  apply h.insert hc ho
  intro k'
  rw [lookup_mid hc ho, lookup_mid hc h.ordered]
  by_cases hk' : comp k' k = 0
  · rw [if_pos hk', if_pos hk']
  · rw [if_neg hk', if_neg hk', if_neg fun e => hk' (hc.equiv_trans e (hc.symm hk))]

/-- A binding taken out. -/
lemma Denotes.remove {M : Finmap fun _ : hc.Class => V} (h : Denotes hc (before ++ b :: after) M)
    (hk : comp k b.1 = 0) : Denotes hc (before ++ after) (M.erase (hc.classOf k)) := by
  apply h.erase hc h.ordered.erase
  intro k'
  rw [lookup_mid hc h.ordered]
  by_cases hk' : comp k' k = 0
  · rw [if_pos hk', lookup_between (h.ordered.between hc (hc.equiv_trans hk' hk))]
  · rw [if_neg hk', if_neg fun e => hk' (hc.equiv_trans e (hc.symm hk))]

end Assoc

end Twcos
