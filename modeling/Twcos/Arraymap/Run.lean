import Twcos.Prog.Calls
import Twcos.Arraymap.Basic

/-!
# Runs of an array map

Any sequence of `arraymap_put`, `arraymap_get` for `MAP_EQ` and `arraymap_remove` on a map made by
`arraymap_new`, against a finite map of bounded size. Both searches start with a lower bound that they never
compare, so that the first binding is not found if there are others, and the search for a key in an empty map, or
for one below the only key, does not end. `agrees_of_safe` is about the runs in which this does not
happen.
-/

namespace Twcos.Arraymap
open Twcos.Prog Twcos.Assoc

variable {K V : Type}

inductive Call (K V : Type) where
  | put (key : K) (data : V)
  | get (key : K)
  | remove (key : K)

section Calls
variable [Zero K] [Zero V] (comp : K → K → Int)

/-- Run a call. -/
def call : Call K V → Code K V (Except Exn V)
  | .put key data => arraymapPut comp key data
  | .get key => do return .ok (← arraymapGet comp key .eq)
  | .remove key => do return .ok (← arraymapRemove comp key)

/-- The first binding is not the one that is looked for, if there are others. -/
def NotFirst (m : ArrayMap K V) (key : K) : Prop := 1 < m.count → comp key (m.data 0).1 ≠ 0

/-- The only binding is not above the key. -/
def NotBelow (m : ArrayMap K V) (key : K) : Prop := m.count = 1 → 0 ≤ comp key (m.data 0).1

/-- The calls for which the searches work. In an empty map, `arraymap_get` compares with the key that is left in
    the first place. -/
def Safe (m : ArrayMap K V) : Call K V → Prop
  | .put key _ => NotFirst comp m key
  | .get key => NotFirst comp m key ∧ NotBelow comp m key ∧ (m.count = 0 → comp key (m.data 0).1 = 0)
  | .remove key => NotFirst comp m key ∧ NotBelow comp m key ∧ m.count ≠ 0

end Calls

/-! ### Bounded maps -/

section Bounded
variable {comp : K → K → Int} (hc : SignPreorder comp) [Zero V] (capacity : Int)

/-- What the call returns on a finite map of bounded size, and the map after it. -/
def boundedStep (M : Finmap fun _ : hc.Class => V) :
    Call K V → Except Exn V × Finmap fun _ : hc.Class => V
  | .put key data =>
    match M.lookup (hc.classOf key) with
    | some old => (.ok old, M.insert (hc.classOf key) data)
    | none =>
      if (M.keys.card : Int) = capacity then (.error ⟨s!"Array Map full - capacity {capacity}"⟩, M)
      else (.ok 0, M.insert (hc.classOf key) data)
  | .get key => (.ok ((M.lookup (hc.classOf key)).getD 0), M)
  | .remove key => (.ok ((M.lookup (hc.classOf key)).getD 0), M.erase (hc.classOf key))

end Bounded

/-- The first `count` keys ascend strictly. -/
def Ascending (comp : K → K → Int) (m : ArrayMap K V) : Prop :=
  ∀ i j : Nat, i < j → (j : Int) < m.count → comp (m.data i).1 (m.data j).1 < 0

/-- The effect of a call: the keys ascend, there are as many as in the finite map, and a call that throws changes
    nothing. -/
def Effect {comp : K → K → Int} (hc : SignPreorder comp) (m : ArrayMap K V) (reply : Except Exn V)
    (m' : ArrayMap K V) (M' : Finmap fun _ : hc.Class => V) : Prop :=
  Ascending comp m' ∧ m'.count = M'.keys.card ∧ ∀ e, reply = .error e → m' = m

/-- All calls of a run return what they return on the finite map of bounded size. -/
def Agrees {comp : K → K → Int} (hc : SignPreorder comp) [Zero K] [Zero V] (capacity : Int)
    (calls : List (Call K V)) : Prop :=
  Simulates (call comp) (boundedStep hc capacity) (Effect hc) (arraymapNew capacity) ∅ calls

/-! ### Places and lists -/

section Lists
variable {comp : K → K → Int} {key : K} {l : List (K × V)} {i : Nat} {b : K × V}

/-- A list around one of its entries. -/
lemma split_at (hb : l[i]? = some b) : l = l.take i ++ b :: l.drop (i + 1) := by
  obtain ⟨lt, rfl⟩ := List.getElem?_eq_some_iff.mp hb
  rw [← List.drop_eq_getElem_cons lt, List.take_append_drop]

/-- Writing over an entry. -/
lemma Holds.set {m : ArrayMap K V} (h : Holds m l) (lt : i < l.length) (e : K × V) :
    Holds { m with data := Function.update m.data i e } (l.take i ++ e :: l.drop (i + 1)) := by
  have set : l.take i ++ e :: l.drop (i + 1) = l.set i e := by
    rw [List.set_eq_take_append_cons_drop, if_pos lt]
  rw [set]
  refine ⟨?_, ?_, fun j c hj => ?_⟩
  · rw [List.length_set]
    exact h.count
  · rw [List.length_set]
    exact h.fits
  · rw [List.getElem?_set] at hj
    show Function.update m.data i e j = c
    split at hj
    · rename_i same
      cases hj
      rw [← same, Function.update_self]
    · rename_i ne
      rw [Function.update_of_ne (Ne.symm ne)]
      exact h.data j c hj

/-- Moving the bindings from `i` on one place up makes room for another one. -/
lemma Holds.insert {m : ArrayMap K V} (h : Holds m l) (le : i ≤ l.length)
    (room : (l.length : Int) < m.capacity) {new : K × V} {data : Nat → K × V}
    (low : ∀ j < i, data j = m.data j) (here : data i = new)
    (high : ∀ j, i < j → j < l.length + 1 → data j = m.data (j - 1)) :
    Holds { m with count := m.count + 1, data := data } (l.take i ++ new :: l.drop i) := by
  have length : (l.take i ++ new :: l.drop i).length = l.length + 1 := by
    rw [List.length_append, List.length_cons, List.length_take, List.length_drop]
    omega
  have take : (l.take i).length = i := by
    rw [List.length_take]
    omega
  refine ⟨?_, ?_, fun j c hj => ?_⟩
  · rw [length]
    show m.count + 1 = _
    rw [h.count]
    rfl
  · rw [length]
    show ((l.length + 1 : Nat) : Int) ≤ m.capacity
    omega
  · have lt : j < l.length + 1 := length ▸ lt_of_get hj
    show data j = c
    rcases Nat.lt_trichotomy j i with less | rfl | more
    · rw [List.getElem?_append_left (by omega), List.getElem?_take_of_lt less] at hj
      rw [low j less, h.data j c hj]
    · rw [List.getElem?_append_right (by omega), take, Nat.sub_self, List.getElem?_cons_zero] at hj
      cases hj
      exact here
    · rw [List.getElem?_append_right (by omega), take, show j - i = (j - i - 1) + 1 by omega,
        List.getElem?_cons_succ, List.getElem?_drop, show i + (j - i - 1) = j - 1 by omega] at hj
      rw [high j more lt, h.data (j - 1) c hj]

/-- Moving the bindings behind `i` one place down takes one out. -/
lemma Holds.erase {m : ArrayMap K V} (h : Holds m l) (lt : i < l.length) {data : Nat → K × V}
    (low : ∀ j < i, data j = m.data j)
    (high : ∀ j, i ≤ j → j < l.length - 1 → data j = m.data (j + 1)) :
    Holds { m with count := m.count - 1, data := data } (l.take i ++ l.drop (i + 1)) := by
  have erase : l.take i ++ l.drop (i + 1) = l.eraseIdx i := (List.eraseIdx_eq_take_drop_succ l i).symm
  have length : (l.eraseIdx i).length = l.length - 1 := List.length_eraseIdx_of_lt lt
  have fits := h.fits
  rw [erase]
  refine ⟨?_, ?_, fun j c hj => ?_⟩
  · rw [length]
    show m.count - 1 = _
    rw [h.count]
    omega
  · rw [length]
    show ((l.length - 1 : Nat) : Int) ≤ m.capacity
    omega
  · have bound : j < l.length - 1 := length ▸ lt_of_get hj
    show data j = c
    by_cases less : j < i
    · rw [List.getElem?_eraseIdx_of_lt less] at hj
      rw [low j less, h.data j c hj]
    · rw [List.getElem?_eraseIdx_of_ge (by omega)] at hj
      rw [high j (by omega) bound, h.data (j + 1) c hj]

/-- Where `arraymap_put` inserts a key that it has not found. -/
def insertAt (comp : K → K → Int) (key : K) (low : Nat) (b : K × V) : Nat :=
  if 0 < comp key b.1 then low + 1 else low

/-- If the first binding does not have the key either, there is no binding with the key at the place. -/
lemma Missed.nonzero {low : Nat} (missed : Missed comp key l low) (hb : l[low]? = some b)
    (first : 1 < l.length → low = 0 → comp key b.1 ≠ 0) : comp key b.1 ≠ 0 := by
  rcases missed.below with zero | ⟨c, hc, below⟩
  · by_cases several : 1 < l.length
    · exact first several zero
    · have lt := missed.lt
      obtain ⟨c, rfl⟩ := List.length_eq_one_iff.mp (show l.length = 1 by omega)
      subst zero
      cases hb
      exact missed.only b rfl
  · rw [hb] at hc
    cases hc
    omega

/-- The key fits there. -/
lemma Missed.between (hc : SignPreorder comp) (ordered : Ordered comp l) {low : Nat}
    (missed : Missed comp key l low) (hb : l[low]? = some b) (nz : comp key b.1 ≠ 0) :
    Between comp key (l.take (insertAt comp key low b)) (l.drop (insertAt comp key low b)) := by
  obtain ⟨-, hlow, habove, -⟩ := missed
  have split := split_at hb
  have mid := ordered
  rw [split] at mid
  by_cases pos : 0 < comp key b.1
  · rw [insertAt, if_pos pos]
    constructor
    · intro a ha
      rw [List.take_add_one, hb, Option.toList_some] at ha
      rcases List.mem_append.mp ha with ha | ha
      · exact mid.gt_before hc pos.le a ha
      · cases List.mem_singleton.mp ha
        exact pos
    · rcases habove with last | ⟨c, hc', neg⟩
      · rw [last, List.drop_length]
        exact nofun
      · have mid' := ordered
        rw [split_at hc'] at mid'
        have next : l.drop (low + 1) = c :: l.drop (low + 1 + 1) := by
          obtain ⟨lt, rfl⟩ := List.getElem?_eq_some_iff.mp hc'
          exact List.drop_eq_getElem_cons lt
        rw [next]
        intro a ha
        rcases List.mem_cons.mp ha with rfl | ha
        · exact neg
        · exact mid'.lt_after hc neg.le a ha
  · have first : low = 0 := by
      rcases hlow with zero | ⟨c, hc', below⟩
      · exact zero
      · rw [hb] at hc'
        cases hc'
        exact absurd below pos
    subst first
    have neg : comp key b.1 < 0 := by omega
    rw [insertAt, if_neg pos]
    refine ⟨nofun, fun a ha => ?_⟩
    rw [List.drop_zero, split, List.take_zero, List.nil_append] at ha
    rcases List.mem_cons.mp ha with rfl | ha
    · exact neg
    · exact mid.lt_after hc neg.le a ha

end Lists

/-! ### What the functions do -/

section Returns
variable {comp : K → K → Int} {key : K} {m : ArrayMap K V} {l : List (K × V)}

/-- The first entry of an empty map. -/
lemma put_empty [Zero V] (count : m.count = 0) (room : 1 ≤ m.capacity) (data : V) :
    Returns (arraymapPut comp key data) m (.ok 0)
      { m with count := 1, data := Function.update m.data 0 (key, data) } := by
  refine .bind (.asks _ _) ?_
  rw [if_neg (by omega)]
  have set : Returns (setEntry ((0 : Nat) : Int) (key, data)) { m with count := 1 } ()
      { m with count := 1, data := Function.update m.data 0 (key, data) } :=
    setEntry_returns (m := { m with count := 1 }) (show ((0 : Nat) : Int) < m.capacity by omega) _
  exact .bind (.update _ _) (.bind set (.pure _ _))

/-- The place of a new entry is in the list, or at its end. -/
lemma insertAt_le {low : Nat} (lt : low < l.length) (b : K × V) : insertAt comp key low b ≤ l.length := by
  rw [insertAt]
  split <;> omega

/-- A binding that the search has found gets the new data. -/
lemma putSlot_found [Zero V] (h : Holds m l) {i : Nat} {b : K × V} (hb : l[i]? = some b) (data : V) (count : Int) :
    Returns (putSlot comp key data count (.found i)) m (.ok b.2)
      { m with data := Function.update m.data i (b.1, data) } := by
  have lt := lt_of_get hb
  have fits := h.fits
  exact .bind (h.entry hb) (.bind (setEntry_returns (by omega) _) (.pure _ _))

/-- Without room, there is an exception and nothing changes. -/
lemma putSlot_full [Zero V] {count : Int} (full : count = m.capacity) (data : V) (low : Int) :
    Returns (putSlot comp key data count (.missing low)) m
      (.error ⟨s!"Array Map full - capacity {m.capacity}"⟩) m := by
  refine .bind (.asks _ _) ?_
  rw [if_pos full]
  exact .pure _ _

/-- The bindings from the place on are shuffled along to make room for the new one. -/
lemma putSlot_missing [Zero V] (h : Holds m l) {low : Nat} {b : K × V} (hb : l[low]? = some b)
    (room : m.count ≠ m.capacity) (data : V) :
    ∃ m', Returns (putSlot comp key data m.count (.missing low)) m (.ok 0) m' ∧ m'.capacity = m.capacity ∧
      Holds m' (l.take (insertAt comp key low b) ++ (key, data) :: l.drop (insertAt comp key low b)) := by
  have lt := lt_of_get hb
  have count := h.count
  have fits := h.fits
  have le : insertAt comp key low b ≤ l.length := insertAt_le lt b
  obtain ⟨moved, shuffle, low', here, high⟩ := shuffle_returns
    (m := { m with count := m.count + 1 }) (c := l.length + 1) (i := insertAt comp key low b)
    (by show m.count + 1 = _; omega) (by show _ ≤ m.capacity; omega) (by omega) (key, data)
  have read : Returns (entry (low : Int)) { m with count := m.count + 1 } b { m with count := m.count + 1 } := by
    have bounds : InBounds { m with count := m.count + 1 } (low : Int) :=
      ⟨by omega, show (low : Int) < m.capacity by omega⟩
    apply Returns.demand
    rw [if_pos bounds, Int.toNat_natCast]
    exact congrArg some (h.data low b hb)
  refine ⟨{ m with count := m.count + 1, data := moved }, .bind (.asks _ _) ?_, rfl,
    h.insert le (by omega) low' (here (by omega)) high⟩
  rw [if_neg room]
  refine .bind (.update _ _) (.bind read ?_)
  have place : (if comp key b.1 > 0 then (low : Int) + 1 else low) = (insertAt comp key low b : Nat) := by
    rw [insertAt]
    split <;> rfl
  simp only [place]
  exact .bind shuffle (.pure _ _)

/-- `arraymap_put` on a map that is not empty: it replaces the data of a binding that the search has found, and
    otherwise inserts the new one, if there is room. -/
lemma arraymapPut_returns [Zero V] (comp : K → K → Int) (key : K) (h : Holds m l) (ne : l ≠ []) (data : V) :
    (∃ i b, l[i]? = some b ∧ comp key b.1 = 0 ∧ Returns (arraymapPut comp key data) m (.ok b.2)
      { m with data := Function.update m.data i (b.1, data) }) ∨
    ∃ low b, l[low]? = some b ∧ Missed comp key l low ∧
      (m.count = m.capacity ∧ Returns (arraymapPut comp key data) m
          (.error ⟨s!"Array Map full - capacity {m.capacity}"⟩) m ∨
        m.count ≠ m.capacity ∧ ∃ m', Returns (arraymapPut comp key data) m (.ok 0) m' ∧
          m'.capacity = m.capacity ∧ Holds m' (l.take (insertAt comp key low b) ++
            (key, data) :: l.drop (insertAt comp key low b))) := by
  have pos : 0 < l.length := List.length_pos_iff.mpr ne
  have count := h.count
  obtain ⟨slot, search, searched⟩ := putSearch_returns h (bounds_start comp key ne) (by omega)
  have enter : ∀ {r m'}, Returns (putSlot comp key data m.count slot) m r m' →
      Returns (arraymapPut comp key data) m r m' := by
    intro r m' rest
    refine .bind (.asks _ _) ?_
    rw [if_pos (by omega)]
    refine .bind ?_ rest
    rw [count]
    exact search
  cases searched with
  | @found i b hb zero => exact .inl ⟨i, b, hb, zero, enter (putSlot_found h hb data m.count)⟩
  | @missing low missed =>
    obtain ⟨b, hb⟩ : ∃ b, l[low]? = some b := ⟨_, List.getElem?_eq_getElem missed.lt⟩
    refine .inr ⟨low, b, hb, missed, ?_⟩
    by_cases full : m.count = m.capacity
    · exact .inl ⟨full, enter (putSlot_full full data low)⟩
    · obtain ⟨m', run, capacity, holds⟩ := putSlot_missing h hb full data
      exact .inr ⟨full, m', enter run, capacity, holds⟩

/-- `arraymap_get_index` for `MAP_EQ` on a map that is not empty. -/
lemma arraymapGetIndex_returns (h : Holds m l) (ne : l ≠ []) (notBelow : NotBelow comp m key) :
    ∃ i, Returns (arraymapGetIndex comp key .eq) m i m ∧ Indexed comp key l i := by
  have pos : 0 < l.length := List.length_pos_iff.mpr ne
  have count := h.count
  have wide : 0 + 1 < l.length ∨ l.length = 1 ∧ ∀ b, l[0]? = some b → 0 ≤ comp key b.1 := by
    by_cases one : l.length = 1
    · refine .inr ⟨one, fun b hb => ?_⟩
      have := notBelow (by omega)
      rw [h.data 0 b hb] at this
      exact this
    · exact .inl (by omega)
  obtain ⟨i, run, indexed⟩ := getIndex_returns h (bounds_start comp key ne) wide
  refine ⟨i, .bind (.asks _ _) ?_, indexed⟩
  rw [count]
  exact run

end Returns

/-! ### One call -/

section Refine
variable {comp : K → K → Int} (hc : SignPreorder comp) [Zero K] [Zero V]

/-- The array has the bindings of a finite map in order. The place of a binding that was taken out is zero. -/
structure Rep (m : ArrayMap K V) (l : List (K × V)) (M : Finmap fun _ : hc.Class => V) : Prop where
  holds : Holds m l
  denotes : Denotes hc l M
  card : M.keys.card = l.length
  stale : l = [] → (m.data 0).2 = 0

variable {hc} {m : ArrayMap K V} {l : List (K × V)} {M : Finmap fun _ : hc.Class => V} {key : K}

omit [Zero K] in
/-- The first entry is the first word of the array. -/
lemma Rep.first (h : Rep hc m l M) {b : K × V} (hb : l[0]? = some b) : m.data 0 = b := h.holds.data 0 b hb

omit [Zero K] [Zero V] in
/-- The keys after an insertion. -/
lemma card_insert (M : Finmap fun _ : hc.Class => V) (k : hc.Class) (v : V) :
    (M.insert k v).keys = insert k M.keys := by
  ext x
  simp only [Finmap.mem_keys, Finmap.mem_insert, Finset.mem_insert]

omit [Zero K] [Zero V] in
/-- A binding with the key is what the map has for it. -/
lemma lookup_of_found (denotes : Denotes hc l M) {i : Nat} {b : K × V} (hb : l[i]? = some b)
    (zero : comp key b.1 = 0) : M.lookup (hc.classOf key) = some b.2 := by
  have ordered := denotes.ordered
  rw [← denotes.agree]
  rw [split_at hb] at ordered ⊢
  rw [lookup_mid hc ordered, if_pos zero]

omit [Zero K] [Zero V] in
/-- A key that fits between bindings is not in the map. -/
lemma lookup_of_between (denotes : Denotes hc l M) {n : Nat}
    (between : Between comp key (l.take n) (l.drop n)) : M.lookup (hc.classOf key) = none := by
  rw [← denotes.agree, ← List.take_append_drop n l]
  exact lookup_between between

omit [Zero K] in
/-- Replacing the data of a binding. -/
lemma Rep.replace (h : Rep hc m l M) {i : Nat} {b : K × V} (hb : l[i]? = some b)
    (zero : comp key b.1 = 0) (data : V) :
    Rep hc { m with data := Function.update m.data i (b.1, data) }
      (l.take i ++ (b.1, data) :: l.drop (i + 1)) (M.insert (hc.classOf key) data) where
  holds := h.holds.set (lt_of_get hb) _
  denotes := by
    have denotes := h.denotes
    rw [split_at hb] at denotes
    rw [hc.classOf_eq.mpr zero]
    exact denotes.replace hc (hc.refl b.1)
  card := by
    have mem : hc.classOf key ∈ M.keys := by
      rw [Finmap.mem_keys, ← Finmap.lookup_isSome, lookup_of_found h.denotes hb zero]
      rfl
    rw [card_insert, Finset.insert_eq_of_mem mem, h.card]
    conv_lhs => rw [split_at hb]
    rw [List.length_append, List.length_append, List.length_cons, List.length_cons]
  stale := by
    intro e
    exact absurd e (by simp)

omit [Zero K] in
/-- Putting in a binding where its key fits. -/
lemma Rep.insert {m' : ArrayMap K V} (h : Rep hc m l M) {n : Nat} (le : n ≤ l.length)
    (between : Between comp key (l.take n) (l.drop n)) {data : V}
    (holds : Holds m' (l.take n ++ (key, data) :: l.drop n)) :
    Rep hc m' (l.take n ++ (key, data) :: l.drop n) (M.insert (hc.classOf key) data) where
  holds := holds
  denotes := by
    have denotes := h.denotes
    rw [← List.take_append_drop n l] at denotes
    exact denotes.put hc between
  card := by
    have notMem : hc.classOf key ∉ M.keys := by
      rw [Finmap.mem_keys, ← Finmap.lookup_eq_none]
      exact lookup_of_between h.denotes between
    rw [card_insert, Finset.card_insert_of_notMem notMem, h.card, List.length_append, List.length_cons,
      List.length_take, List.length_drop]
    omega
  stale := by
    intro e
    exact absurd e (by simp)

variable (hc) in
/-- The call returns what it returns on the finite map, and does to the array what it does to the map. -/
def Refines (m : ArrayMap K V) (M : Finmap fun _ : hc.Class => V) (c : Call K V) : Prop :=
  ∃ m' l', Returns (call comp c) m (boundedStep hc m.capacity M c).1 m' ∧
    Rep hc m' l' (boundedStep hc m.capacity M c).2 ∧ m'.capacity = m.capacity ∧
    ∀ e, (boundedStep hc m.capacity M c).1 = .error e → m' = m

/-- `arraymap_put`. -/
lemma put_refines (h : Rep hc m l M) (room : 1 ≤ m.capacity) {data : V}
    (safe : Safe comp m (.put key data)) : Refines hc m M (.put key data) := by
  have count := h.holds.count
  by_cases empty : l = []
  · subst empty
    have none : M.lookup (hc.classOf key) = none := (h.denotes.agree key).symm
    have notFull : ¬((M.keys.card : Int) = m.capacity) := by
      rw [h.card]
      show ¬((0 : Nat) : Int) = m.capacity
      omega
    have holds : Holds { m with count := 1, data := Function.update m.data 0 (key, data) }
        ([] ++ (key, data) :: []) := by
      refine ⟨rfl, room, fun i b hb => ?_⟩
      cases i with
      | zero =>
        cases hb
        rfl
      | succ i => cases hb
    simp only [Refines, boundedStep, none, if_neg notFull]
    exact ⟨_, _, put_empty count room data, h.insert (n := 0) (le_refl 0) ⟨nofun, nofun⟩ holds, rfl, nofun⟩
  · rcases arraymapPut_returns comp key h.holds empty data with
      ⟨i, b, hb, zero, run⟩ | ⟨low, b, hb, missed, ends⟩
    · simp only [Refines, boundedStep, lookup_of_found h.denotes hb zero]
      exact ⟨_, _, run, h.replace hb zero data, rfl, nofun⟩
    · have nz := missed.nonzero hb fun several zero => by
        subst zero
        have := safe (by omega)
        rw [h.first hb] at this
        exact this
      have between := missed.between hc h.denotes.ordered hb nz
      have none := lookup_of_between h.denotes between
      have le : insertAt comp key low b ≤ l.length := insertAt_le missed.lt b
      rcases ends with ⟨full, run⟩ | ⟨notFull, m', run, capacity, holds⟩
      · have full : (M.keys.card : Int) = m.capacity := by
          rw [h.card]
          omega
        simp only [Refines, boundedStep, none, if_pos full]
        exact ⟨m, l, run, h, rfl, fun _ _ => rfl⟩
      · have notFull : ¬((M.keys.card : Int) = m.capacity) := by
          rw [h.card]
          omega
        simp only [Refines, boundedStep, none, if_neg notFull]
        exact ⟨m', _, run, h.insert le between holds, capacity, nofun⟩

omit [Zero K] in
/-- A safe search that has found nothing tells that the map has nothing. -/
lemma lookup_of_missed (h : Rep hc m l M) {low : Nat} (missed : Missed comp key l low)
    (safe : NotFirst comp m key) : M.lookup (hc.classOf key) = none := by
  have count := h.holds.count
  obtain ⟨b, hb⟩ : ∃ b, l[low]? = some b := ⟨_, List.getElem?_eq_getElem missed.lt⟩
  have nz := missed.nonzero hb fun several zero => by
    subst zero
    have := safe (by omega)
    rw [h.first hb] at this
    exact this
  exact lookup_of_between h.denotes (missed.between hc h.denotes.ordered hb nz)

/-- `arraymap_get` for `MAP_EQ`. -/
lemma get_refines (h : Rep hc m l M) (room : 1 ≤ m.capacity) (safe : Safe comp m (.get key)) :
    Refines hc m M (.get key) := by
  have count := h.holds.count
  obtain ⟨notFirst, notBelow, stale⟩ := safe
  refine ⟨m, l, .bind ?_ (.pure _ _), h, rfl, nofun⟩
  by_cases empty : l = []
  · -- the search ends at once at the key that was left
    subst empty
    have count : m.count = 0 := count
    have none : M.lookup (hc.classOf key) = none := (h.denotes.agree key).symm
    have zero := stale count
    have bounds : InBounds m 0 := ⟨le_refl 0, by omega⟩
    have read : Returns (entry 0) m (m.data 0) m := .demand (if_pos bounds)
    have search : Returns (arraymapGetIndex comp key .eq) m 0 m := by
      refine .bind (.asks _ _) ?_
      rw [count]
      refine .exit (.bind read (.bind (.asks _ _) ?_))
      simp only [zero, lt_self_iff_false, if_false]
      exact .pure _ _
    rw [none]
    show Returns (arraymapGet comp key .eq) m 0 m
    rw [← h.stale rfl]
    exact .bind search (.bind read (.pure _ _))
  · obtain ⟨i, search, indexed⟩ := arraymapGetIndex_returns h.holds empty notBelow
    refine .bind search ?_
    cases indexed with
    | @found i b hb zero =>
      rw [lookup_of_found h.denotes hb zero, if_pos (by omega)]
      exact .bind (h.holds.entry hb) (.pure _ _)
    | missing missed =>
      rw [lookup_of_missed h missed notFirst, if_neg (by omega)]
      exact .pure _ _

/-- Taking out a binding. -/
lemma Rep.erase {m' : ArrayMap K V} (h : Rep hc m l M) {i : Nat} {b : K × V} (hb : l[i]? = some b)
    (zero : comp key b.1 = 0) (holds : Holds m' (l.take i ++ l.drop (i + 1)))
    (last : m'.data (l.length - 1) = 0) :
    Rep hc m' (l.take i ++ l.drop (i + 1)) (M.erase (hc.classOf key)) where
  holds := holds
  denotes := by
    have denotes := h.denotes
    rw [split_at hb] at denotes
    exact denotes.remove hc zero
  card := by
    have mem : hc.classOf key ∈ M.keys := by
      rw [Finmap.mem_keys, ← Finmap.lookup_isSome, lookup_of_found h.denotes hb zero]
      rfl
    rw [Finmap.keys_erase, Finset.card_erase_of_mem mem, h.card, ← List.eraseIdx_eq_take_drop_succ,
      List.length_eraseIdx_of_lt (lt_of_get hb)]
  stale := by
    intro e
    have length := congrArg List.length e
    rw [← List.eraseIdx_eq_take_drop_succ, List.length_eraseIdx_of_lt (lt_of_get hb)] at length
    rw [List.length_nil] at length
    rw [length] at last
    rw [last]
    rfl

/-- `arraymap_remove`. -/
lemma remove_refines (h : Rep hc m l M) (safe : Safe comp m (.remove key)) :
    Refines hc m M (.remove key) := by
  have count := h.holds.count
  have fits := h.holds.fits
  obtain ⟨notFirst, notBelow, notEmpty⟩ := safe
  have ne : l ≠ [] := by
    rintro rfl
    exact notEmpty count
  obtain ⟨i, search, indexed⟩ := arraymapGetIndex_returns h.holds ne notBelow
  cases indexed with
  | @found i b hb zero =>
    have lt := lt_of_get hb
    obtain ⟨data, moved, low, high⟩ := removeLoop_returns (m := { m with count := m.count - 1 })
      (c := l.length - 1) (i := i) (by show m.count - 1 = _; omega) (by show _ < m.capacity; omega)
      (by omega)
    have clear := setEntry_returns (m := { m with count := m.count - 1, data := data })
      (i := l.length - 1) (show _ < m.capacity by omega) ((0, 0) : K × V)
    have holds : Holds { m with count := m.count - 1, data := Function.update data (l.length - 1) (0, 0) }
        (l.take i ++ l.drop (i + 1)) := by
      refine h.holds.erase lt (fun j hj => ?_) fun j hj hjl => ?_
      · rw [Function.update_of_ne (by omega)]
        exact low j hj
      · rw [Function.update_of_ne (by omega)]
        exact high j hj hjl
    simp only [Refines, boundedStep, lookup_of_found h.denotes hb zero]
    refine ⟨_, _, .bind (.bind search ?_) (.pure _ _),
      h.erase hb zero holds (Function.update_self _ _ _), rfl, nofun⟩
    rw [if_pos (by omega)]
    exact .bind (h.holds.entry hb) (.bind (.asks _ _) (.bind (.update _ _) (.bind moved
      (.bind clear (.pure _ _)))))
  | missing missed =>
    have none := lookup_of_missed h missed notFirst
    have erase : M.erase (hc.classOf key) = M := by
      refine Finmap.ext_lookup fun k => ?_
      by_cases e : k = hc.classOf key
      · rw [e, Finmap.lookup_erase, none]
      · exact Finmap.lookup_erase_ne e
    simp only [Refines, boundedStep, none, erase]
    refine ⟨m, l, .bind (.bind search ?_) (.pure _ _), h, rfl, nofun⟩
    rw [if_neg (by omega)]
    exact .pure _ _

/-- Every safe call. -/
lemma call_refines (h : Rep hc m l M) (room : 1 ≤ m.capacity) {c : Call K V} (safe : Safe comp m c) :
    Refines hc m M c := by
  cases c with
  | put key data => exact put_refines h room safe
  | get key => exact get_refines h room safe
  | remove key => exact remove_refines h safe

omit [Zero K] in
/-- A map that represents something is in ascending order. -/
lemma Rep.ascending (h : Rep hc m l M) : Ascending comp m := by
  intro i j lt bound
  have count := h.holds.count
  have lj : j < l.length := by omega
  have li : i < l.length := by omega
  rw [h.holds.data i _ (List.getElem?_eq_getElem li), h.holds.data j _ (List.getElem?_eq_getElem lj)]
  exact List.pairwise_iff_getElem.mp h.denotes.ordered i j li lj lt

end Refine

section Runs
variable {comp : K → K → Int} (hc : SignPreorder comp) [Zero K] [Zero V]

/-- A new map represents the empty one. -/
lemma rep_new {capacity : Int} (room : 1 ≤ capacity) : Rep hc (arraymapNew capacity : ArrayMap K V) [] ∅ where
  holds := ⟨rfl, by show (0 : Int) ≤ capacity; omega, nofun⟩
  denotes := .nil hc
  card := rfl
  stale := fun _ => rfl

/-- Every run on a new map in which all calls are safe agrees with a finite map of bounded size. -/
theorem agrees_of_safe {capacity : Int} (room : 1 ≤ capacity) {calls : List (Call K V)}
    (safe : Meets (call comp) (Safe comp) (arraymapNew capacity) calls) : Agrees hc capacity calls := by
  refine simulates_of_meets (R := fun m M => (∃ l, Rep hc m l M) ∧ m.capacity = capacity)
    ?_ ⟨⟨[], rep_new hc room⟩, rfl⟩ safe
  rintro m M c ⟨⟨l, h⟩, rfl⟩ safe
  obtain ⟨m', l', run, rep, capacity, thrown⟩ := call_refines h room safe
  refine ⟨m', run, ⟨rep.ascending, ?_, thrown⟩, ⟨l', rep⟩, capacity⟩
  rw [rep.holds.count, rep.card]

end Runs

/-! ### Runs of numbers -/

/-- The comparison of numbers. -/
def compNat (a b : Nat) : Int := (a : Int) - b

/-- Numbers are ordered by their difference. -/
lemma compNat_preorder : SignPreorder compNat where
  flip := by
    intro a b
    rw [compNat, compNat]
    omega
  trans := by
    intro a b c
    rw [compNat, compNat, compNat]
    omega

/-- The map of the runs below with one binding. -/
def oneBound (capacity : Int) : ArrayMap Nat Nat :=
  ⟨capacity, 1, Function.update (fun _ => (0, 0)) 0 (1, 10)⟩

/-- The map with two bindings. -/
def twoBound (capacity : Int) : ArrayMap Nat Nat :=
  ⟨capacity, 2, Function.update (oneBound capacity).data 1 (2, 20)⟩

/-- The first call puts its entry at the start. -/
lemma put_first (capacity : Int) (room : 1 ≤ capacity) :
    Returns (call compNat (.put 1 10)) (arraymapNew capacity) (.ok 0) (oneBound capacity) :=
  put_empty rfl room 10

/-- The second one behind it. -/
lemma put_second : Returns (call compNat (.put 2 20)) (oneBound 2) (.ok 0) (twoBound 2) :=
  .of_add 4 fun _ => rfl

/-- Up to the capacity, and with the error beyond it, the calls agree. -/
theorem agrees_until_full : Agrees compNat_preorder 2
    [.put 1 10, .put 2 20, .put 3 30, .get 2, .remove 2] := by
  refine agrees_of_safe compNat_preorder (by decide) ?_
  have full : Returns (call compNat (.put 3 30)) (twoBound 2)
      (.error ⟨"Array Map full - capacity 2"⟩) (twoBound 2) :=
    .of_add 4 fun _ => rfl
  have get : Returns (call compNat (.get 2)) (twoBound 2) (.ok 20) (twoBound 2) :=
    .of_add 4 fun _ => rfl
  refine .cons (fun _ => by decide) (put_first 2 (by decide)) ?_
  refine .cons (fun _ => by decide) put_second ?_
  refine .cons (fun _ => by decide) full ?_
  refine .cons ⟨fun _ => by decide, fun h => absurd h (by decide), fun h => absurd h (by decide)⟩ get ?_
  exact ⟨⟨fun _ => by decide, fun h => absurd h (by decide), by decide⟩, fun _ _ _ => trivial⟩

/-- The binding of the lowest key is not found once there is another one. -/
theorem lowest_not_found : ¬Agrees compNat_preorder 2
    [.put 1 10, .put 2 20, .get (1 : Nat)] := by
  have get : Returns (call compNat (.get 1)) (twoBound 2) (.ok 0) (twoBound 2) :=
    .of_add 4 fun _ => rfl
  rintro ⟨m1, run1, -, m2, run2, -, m3, run3, -, -⟩
  obtain ⟨-, rfl⟩ := run1.unique (put_first 2 (by decide))
  obtain ⟨-, rfl⟩ := run2.unique put_second
  have wrong := (run3.unique get).1
  exact absurd wrong (by decide)

end Twcos.Arraymap
