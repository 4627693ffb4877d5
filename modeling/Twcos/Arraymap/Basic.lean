import Twcos.Prog.Basic
import Twcos.Assoc.Basic
import Twcos.Tree.Basic

/-!
# Array maps

Model of `libk/arraymap.c`: a map of bounded size, kept as an array of bindings in the order of their keys.
`arraymap_get_index` and `arraymap_put` search it by bisection. Reading or writing outside of the array is a
fault; the exception that `arraymap_put` throws is part of its result, so that the state in which it is thrown
can be spoken of.

C → Lean naming: `arraymap_t` → `ArrayMap`, `arraymap_get_index` → `arraymapGetIndex`, `arraymap_put` →
`arraymapPut` and so on. A loop of the C code has a definition of its own for its body.
-/

namespace Twcos.Arraymap
open Twcos.Prog Twcos.Tree

/-- `arraymap_t` without the comparator. -/
structure ArrayMap (K V : Type) where
  capacity : Int
  count : Int
  data : Nat → K × V

/-- An access outside of the array. -/
inductive Fault where
  | bounds (i : Int)

/-- `ArrayMapFullException` with its message. -/
structure Exn where
  message : String
deriving DecidableEq

variable {K V : Type}

abbrev Code (K V : Type) := Prog Fault (ArrayMap K V)

/-- The index is one of the array. -/
def InBounds (m : ArrayMap K V) (i : Int) : Prop := 0 ≤ i ∧ i < m.capacity

instance (m : ArrayMap K V) (i : Int) : Decidable (InBounds m i) := inferInstanceAs (Decidable (_ ∧ _))

/-- `amap->data[i]`. -/
def entry (i : Int) : Code K V (K × V) :=
  demand (fun m => if InBounds m i then some (m.data i.toNat) else none) (.bounds i)

/-- `amap->data[i] = e`. -/
def setEntry (i : Int) (e : K × V) : Code K V Unit := do
  let _ ← entry i
  update fun m => { m with data := Function.update m.data i.toNat e }

/-- `amap->count = n`. -/
def setCount (n : Int) : Code K V Unit := update fun m => { m with count := n }

section Code
variable (comp : K → K → Int) (key : K)

/-- The body of the loop of `arraymap_get_index`: the bounds of the next turn, or the index. -/
def getIndexBody (cond : MapEqTest) : Int × Int → Code K V ((Int × Int) ⊕ Int)
  | (low, high) => do
    let i := (low + high).tdiv 2
    let e ← entry i
    let count ← asks ArrayMap.count
    let diff := comp key e.1
    if diff < 0 then
      let high := i
      if low = high - 1 then
        match cond with
        | .gt | .ge => return .inr i
        | .lt | .le => return .inr (i - 1)
        | .eq => return .inr (-1)
      else return .inl (low, high)
    else if diff > 0 then
      let low := i
      if low = high - 1 then
        match cond with
        | .gt | .ge => return .inr (if i < count then i + 1 else -1)
        | .lt | .le => return .inr i
        | .eq => return .inr (-1)
      else return .inl (low, high)
    else
      match cond with
      | .lt => return .inr (i - 1)
      | .gt => return .inr (if i < count then i + 1 else -1)
      | _ => return .inr i

/-- `arraymap_get_index`. -/
def arraymapGetIndex (cond : MapEqTest) : Code K V Int := do
  let high ← asks ArrayMap.count
  loop (getIndexBody comp key cond) (0, high)

/-- Where the search of `arraymap_put` ends: at a binding with the key, or at `low`. -/
inductive Slot where
  | found (i : Int)
  | missing (low : Int)

/-- The body of the search loop of `arraymap_put`. -/
def putSearchBody : Int × Int → Code K V ((Int × Int) ⊕ Slot)
  | (low, high) => do
    let i := (low + high).tdiv 2
    let e ← entry i
    let diff := comp key e.1
    if diff = 0 then return .inr (.found i)
    else
      let (low, high) := if diff < 0 then (low, i) else (i, high)
      if low < high - 1 then return .inl (low, high) else return .inr (.missing low)

/-- The body of the loop of `arraymap_put` that shuffles bindings along. -/
def shuffleBody : Int × K × V → Code K V ((Int × K × V) ⊕ Unit)
  | (i, new) => do
    let count ← asks ArrayMap.count
    if i < count then
      let temp ← entry i
      setEntry i new
      return .inl (i + 1, temp)
    else return .inr ()

/-- `arraymap_put` after its search. -/
def putSlot [Zero V] (data : V) (count : Int) : Slot → Code K V (Except Exn V)
  | .found i => do
    -- replace existing data
    let old ← entry i
    setEntry i (old.1, data)
    return .ok old.2
  | .missing low => do
    let capacity ← asks ArrayMap.capacity
    if count = capacity then
      return .error ⟨s!"Array Map full - capacity {capacity}"⟩
    else
      setCount (count + 1)
      let e ← entry low
      let insert := if comp key e.1 > 0 then low + 1 else low
      loop shuffleBody (insert, key, data)
      return .ok 0

/-- `arraymap_put`. -/
def arraymapPut [Zero V] (data : V) : Code K V (Except Exn V) := do
  let count ← asks ArrayMap.count
  if count ≠ 0 then
    let slot ← loop (putSearchBody comp key) (0, count)
    putSlot comp key data count slot
  else
    -- previously empty
    setCount 1
    setEntry 0 (key, data)
    return .ok 0

/-- `arraymap_get`. -/
def arraymapGet [Zero V] (cond : MapEqTest) : Code K V V := do
  let i ← arraymapGetIndex comp key cond
  if i ≥ 0 then
    let e ← entry i
    return e.2
  else return 0

/-- The body of the loop of `arraymap_remove`. -/
def removeBody (i : Int) : Code K V (Int ⊕ Int) := do
  let count ← asks ArrayMap.count
  if i < count then
    let e ← entry (i + 1)
    setEntry i e
    return .inl (i + 1)
  else return .inr i

/-- `arraymap_remove`. -/
def arraymapRemove [Zero K] [Zero V] : Code K V V := do
  let i ← arraymapGetIndex comp key .eq
  if i ≥ 0 then
    let old ← entry i
    let count ← asks ArrayMap.count
    setCount (count - 1)
    let i ← loop removeBody i
    setEntry i (0, 0)
    return old.2
  else return 0

end Code

/-- `arraymap_new`. -/
def arraymapNew [Zero K] [Zero V] (capacity : Int) : ArrayMap K V := ⟨capacity, 0, fun _ => (0, 0)⟩

/-! ### Bindings in the array -/

/-- The first `count` places of the array have the bindings of the list. -/
structure Holds (m : ArrayMap K V) (l : List (K × V)) : Prop where
  count : m.count = l.length
  fits : (l.length : Int) ≤ m.capacity
  data : ∀ (i : Nat) b, l[i]? = some b → m.data i = b

variable {m : ArrayMap K V} {l : List (K × V)} {comp : K → K → Int} {key : K}

/-- There is an entry at an index below the length only. -/
lemma lt_of_get {i : Nat} {b : K × V} (hb : l[i]? = some b) : i < l.length := by
  obtain ⟨lt, -⟩ := List.getElem?_eq_some_iff.mp hb
  exact lt

/-- Reading an entry of the map. -/
lemma Holds.entry (h : Holds m l) {i : Nat} {b : K × V} (hb : l[i]? = some b) :
    Returns (entry (i : Int)) m b m := by
  have lt := lt_of_get hb
  have fits := h.fits
  have bounds : InBounds m i := ⟨by omega, by omega⟩
  apply Returns.demand
  rw [if_pos bounds, Int.toNat_natCast, h.data i b hb]

/-- The middle of the bounds, which are not negative. -/
lemma mid_eq (low high : Nat) : ((low : Int) + high).tdiv 2 = ((low + high) / 2 : Nat) := by
  rw [Int.tdiv_eq_ediv_of_nonneg (by omega)]
  omega

/-- The binding at a place is below the key. -/
def Below (comp : K → K → Int) (key : K) (l : List (K × V)) (i : Nat) : Prop :=
  ∃ b, l[i]? = some b ∧ 0 < comp key b.1

/-- The binding at a place is above the key. -/
def Above (comp : K → K → Int) (key : K) (l : List (K × V)) (i : Nat) : Prop :=
  ∃ b, l[i]? = some b ∧ comp key b.1 < 0

/-- What is known about the bounds of a search: they are places of bindings that were found to be below and above
    the key, or the ends of the array. The lower end is the place of a binding, which has not been compared. -/
structure Bounds (comp : K → K → Int) (key : K) (l : List (K × V)) (low high : Nat) : Prop where
  lt : low < high
  le : high ≤ l.length
  low : low = 0 ∨ Below comp key l low
  high : high = l.length ∨ Above comp key l high

/-- The search starts with bounds that have the key between them. -/
lemma bounds_start (comp : K → K → Int) (key : K) (h : l ≠ []) : Bounds comp key l 0 l.length :=
  ⟨List.length_pos_iff.mpr h, le_refl _, .inl rfl, .inl rfl⟩

/-- The place that the next turn looks at. -/
lemma Bounds.get {low high : Nat} (h : Bounds comp key l low high) :
    ∃ b, l[(low + high) / 2]? = some b := by
  have lt := h.lt
  have le := h.le
  exact ⟨_, List.getElem?_eq_getElem (show (low + high) / 2 < l.length by omega)⟩

/-- What is known where a search ends without finding the key: it was compared with the bindings at the place and
    behind it, except for the first one if there are others. -/
structure Missed (comp : K → K → Int) (key : K) (l : List (K × V)) (low : Nat) : Prop where
  lt : low < l.length
  below : low = 0 ∨ Below comp key l low
  above : low + 1 = l.length ∨ Above comp key l (low + 1)
  only : ∀ b, l = [b] → comp key b.1 ≠ 0

/-- A map of one entry, with another key than the one that is looked for. -/
lemma only_of_get {i : Nat} {b : K × V} (hb : l[i]? = some b) (nz : comp key b.1 ≠ 0) (b' : K × V)
    (e : l = [b']) : comp key b'.1 ≠ 0 := by
  subst e
  have lt := lt_of_get hb
  rw [List.length_singleton] at lt
  rw [show i = 0 by omega, List.getElem?_cons_zero] at hb
  cases hb
  exact nz

/-! ### A turn of a search -/

section Turn
variable {low high : Nat} {b : K × V} (h : Bounds comp key l low high) (hb : l[(low + high) / 2]? = some b)
include h hb

/-- The search goes on below a binding that is above the key. -/
lemma Bounds.below (neg : comp key b.1 < 0) (more : low + 1 < (low + high) / 2) :
    Bounds comp key l low ((low + high) / 2) := by
  have lt := h.lt
  have le := h.le
  exact ⟨by omega, by omega, h.low, .inr ⟨b, hb, neg⟩⟩

/-- The search goes on above a binding that is below the key. -/
lemma Bounds.above (pos : 0 < comp key b.1) (more : (low + high) / 2 + 1 < high) :
    Bounds comp key l ((low + high) / 2) high :=
  ⟨by omega, h.le, .inr ⟨b, hb, pos⟩, h.high⟩

/-- Nothing is left below it. -/
lemma Bounds.missed_below (neg : comp key b.1 < 0) (last : ¬low + 1 < (low + high) / 2)
    (wide : low + 1 < high ∨ l.length = 1) : Missed comp key l low := by
  have lt := h.lt
  have le := h.le
  refine ⟨by omega, h.low, ?_, only_of_get hb neg.ne⟩
  rcases wide with wide | one
  · refine .inr ⟨b, ?_, neg⟩
    rw [show low + 1 = (low + high) / 2 by omega]
    exact hb
  · exact .inl (by omega)

/-- Nothing is left above it. -/
lemma Bounds.missed_above (pos : 0 < comp key b.1) (last : ¬(low + high) / 2 + 1 < high) :
    Missed comp key l ((low + high) / 2) := by
  have lt := h.lt
  refine ⟨lt_of_get hb, .inr ⟨b, hb, pos⟩, ?_, only_of_get hb pos.ne'⟩
  rw [show (low + high) / 2 + 1 = high by omega]
  exact h.high

end Turn

/-- Where the search of `arraymap_put` ends. -/
inductive Searched (comp : K → K → Int) (key : K) (l : List (K × V)) : Slot → Prop where
  | found {i : Nat} {b : K × V} : l[i]? = some b → comp key b.1 = 0 → Searched comp key l (.found i)
  | missing {low : Nat} : Missed comp key l low → Searched comp key l (.missing low)

/-- The search of `arraymap_put` ends, whatever the order of the bindings. -/
lemma putSearch_returns (h : Holds m l) {low high : Nat} (bounds : Bounds comp key l low high)
    (wide : low + 1 < high ∨ l.length = 1) :
    ∃ slot, Returns (loop (putSearchBody comp key) ((low : Int), (high : Int))) m slot m ∧
      Searched comp key l slot := by
  induction width : high - low using Nat.strong_induction_on generalizing low high with
  | _ width ih =>
    have lt := bounds.lt
    obtain ⟨b, hb⟩ := bounds.get
    have read : Returns (entry (((low : Int) + high).tdiv 2)) m b m := by
      rw [mid_eq]
      exact h.entry hb
    rcases Int.lt_trichotomy (comp key b.1) 0 with neg | zero | pos
    · -- the key is below the binding
      have nz : comp key b.1 ≠ 0 := by omega
      by_cases more : low + 1 < (low + high) / 2
      · obtain ⟨slot, run, searched⟩ := ih ((low + high) / 2 - low) (by omega) (bounds.below hb neg more) (.inl more) rfl
        refine ⟨slot, .turn (.bind read ?_) run, searched⟩
        simp only [nz, if_false, if_pos neg, mid_eq]
        rw [if_pos (by omega)]
        exact .pure _ _
      · refine ⟨.missing low, .exit (.bind read ?_), .missing (bounds.missed_below hb neg more wide)⟩
        simp only [nz, if_false, if_pos neg, mid_eq]
        rw [if_neg (by omega)]
        exact .pure _ _
    · refine ⟨.found ((low + high) / 2 : Nat), .exit (.bind read ?_), .found hb zero⟩
      simp only [zero, if_true, mid_eq]
      exact .pure _ _
    · -- the key is above the binding
      have nz : comp key b.1 ≠ 0 := by omega
      have nn : ¬comp key b.1 < 0 := by omega
      by_cases more : (low + high) / 2 + 1 < high
      · obtain ⟨slot, run, searched⟩ := ih (high - (low + high) / 2) (by omega) (bounds.above hb pos more) (.inl more) rfl
        refine ⟨slot, .turn (.bind read ?_) run, searched⟩
        simp only [nz, if_false, if_neg nn, mid_eq]
        rw [if_pos (by omega)]
        exact .pure _ _
      · refine ⟨.missing ((low + high) / 2 : Nat), .exit (.bind read ?_), .missing (bounds.missed_above hb pos more)⟩
        simp only [nz, if_false, if_neg nn, mid_eq]
        rw [if_neg (by omega)]
        exact .pure _ _

/-- What `arraymap_get_index` returns when it has found the key. -/
def foundIndex (i : Int) : MapEqTest → Int
  | .lt => i - 1
  | .gt => i + 1
  | _ => i

/-- What `arraymap_get_index` returns when the bounds have met. -/
def missedIndex (low : Int) : MapEqTest → Int
  | .lt | .le => low
  | .eq => -1
  | .ge | .gt => low + 1

/-- Where the search of `arraymap_get_index` ends: at a binding with the key, which is the first one only if there is no
    other, or between two places. -/
inductive Answer (comp : K → K → Int) (key : K) (l : List (K × V)) (cond : MapEqTest) : Int → Prop where
  | found {i : Nat} {b : K × V} : l[i]? = some b → comp key b.1 = 0 → 0 < i ∨ l.length = 1 →
      Answer comp key l cond (foundIndex i cond)
  | missing {low : Nat} : Missed comp key l low → Answer comp key l cond (missedIndex low cond)

/-- The loop of `arraymap_get_index` ends if there are several bindings, or one that is not above the key. -/
lemma getIndexLoop_returns (cond : MapEqTest) (h : Holds m l) {low high : Nat} (bounds : Bounds comp key l low high)
    (wide : low + 1 < high ∨ l.length = 1 ∧ ∀ b, l[0]? = some b → 0 ≤ comp key b.1) :
    ∃ i, Returns (loop (getIndexBody comp key cond) ((low : Int), (high : Int))) m i m ∧
      Answer comp key l cond i := by
  have count := h.count
  induction width : high - low using Nat.strong_induction_on generalizing low high with
  | _ width ih =>
    have lt := bounds.lt
    obtain ⟨b, hb⟩ := bounds.get
    have inside := lt_of_get hb
    have read : Returns (entry (((low : Int) + high).tdiv 2)) m b m := by
      rw [mid_eq]
      exact h.entry hb
    have counted : (((low + high) / 2 : Nat) : Int) < m.count := by omega
    rcases Int.lt_trichotomy (comp key b.1) 0 with neg | zero | pos
    · have wide : low + 1 < high := by
        rcases wide with wide | ⟨one, first⟩
        · exact wide
        · have := first b (by rw [← hb]; congr 1; omega)
          omega
      by_cases more : low + 1 < (low + high) / 2
      · obtain ⟨i, run, answer⟩ := ih ((low + high) / 2 - low) (by omega) (bounds.below hb neg more) (.inl more) rfl
        refine ⟨i, .turn (.bind read (.bind (.asks _ _) ?_)) run, answer⟩
        simp only [if_pos neg, mid_eq]
        rw [if_neg (by omega)]
        exact .pure _ _
      · refine ⟨missedIndex low cond, .exit (.bind read (.bind (.asks _ _) ?_)),
          .missing (bounds.missed_below hb neg more (.inl wide))⟩
        simp only [if_pos neg, mid_eq]
        have up : (((low + high) / 2 : Nat) : Int) = low + 1 := by omega
        have down : (((low + high) / 2 : Nat) : Int) - 1 = low := by omega
        rw [if_pos (by omega), down, up]
        cases cond <;> exact .pure _ _
    · refine ⟨foundIndex ((low + high) / 2 : Nat) cond, .exit (.bind read (.bind (.asks _ _) ?_)),
        .found hb zero (by omega)⟩
      simp only [zero, lt_self_iff_false, if_false, mid_eq, if_pos counted]
      cases cond <;> exact .pure _ _
    · have nn : ¬comp key b.1 < 0 := by omega
      by_cases more : (low + high) / 2 + 1 < high
      · obtain ⟨i, run, answer⟩ := ih (high - (low + high) / 2) (by omega) (bounds.above hb pos more) (.inl more) rfl
        refine ⟨i, .turn (.bind read (.bind (.asks _ _) ?_)) run, answer⟩
        simp only [if_neg nn, gt_iff_lt, if_pos pos, mid_eq]
        rw [if_neg (by omega)]
        exact .pure _ _
      · refine ⟨missedIndex ((low + high) / 2 : Nat) cond, .exit (.bind read (.bind (.asks _ _) ?_)),
          .missing (bounds.missed_above hb pos more)⟩
        simp only [if_neg nn, gt_iff_lt, if_pos pos, mid_eq, if_pos counted]
        rw [if_pos (by omega)]
        cases cond <;> exact .pure _ _

/-- What `arraymap_get_index` finds for `MAP_EQ`. -/
inductive Indexed (comp : K → K → Int) (key : K) (l : List (K × V)) : Int → Prop where
  | found {i : Nat} {b : K × V} : l[i]? = some b → comp key b.1 = 0 → Indexed comp key l i
  | missing {low : Nat} : Missed comp key l low → Indexed comp key l (-1)

/-- The search ends, with the index of the key or none. -/
lemma getIndex_returns (h : Holds m l) {low high : Nat} (bounds : Bounds comp key l low high)
    (wide : low + 1 < high ∨ l.length = 1 ∧ ∀ b, l[0]? = some b → 0 ≤ comp key b.1) :
    ∃ i, Returns (loop (getIndexBody comp key .eq) ((low : Int), (high : Int))) m i m ∧
      Indexed comp key l i := by
  obtain ⟨i, run, answer⟩ := getIndexLoop_returns .eq h bounds wide
  refine ⟨i, run, ?_⟩
  cases answer with
  | found hb zero _ => exact .found hb zero
  | missing missed => exact .missing missed

/-! ### Moving bindings -/

/-- Writing an entry below the capacity. -/
lemma setEntry_returns {i : Nat} (lt : (i : Int) < m.capacity) (e : K × V) :
    Returns (setEntry (i : Int) e) m () { m with data := Function.update m.data i e } := by
  have bounds : InBounds m i := ⟨by omega, lt⟩
  refine .bind (.demand (if_pos bounds)) ?_
  exact .update _ _

/-- The loop of `arraymap_put` moves the bindings from `i` on one place up. -/
lemma shuffle_returns {c i : Nat} (hc : m.count = c) (fits : (c : Int) ≤ m.capacity) (le : i ≤ c)
    (new : K × V) : ∃ data, Returns (loop shuffleBody ((i : Int), new)) m () { m with data := data } ∧
      (∀ j < i, data j = m.data j) ∧ (i < c → data i = new) ∧
      ∀ j, i < j → j < c → data j = m.data (j - 1) := by
  induction width : c - i generalizing m i new with
  | zero =>
    refine ⟨m.data, .exit (.bind (.asks _ _) ?_), fun _ _ => rfl, by omega, by omega⟩
    rw [if_neg (by omega)]
    exact .pure _ _
  | succ width ih =>
    have lt : i < c := by omega
    obtain ⟨data, run, low, at_, high⟩ :=
      ih (m := { m with data := Function.update m.data i new }) (i := i + 1) hc fits (by omega)
        (m.data i) (by omega)
    have bounds : InBounds m i := ⟨by omega, by omega⟩
    refine ⟨data, .turn (.bind (.asks _ _) ?_) run, fun j hj => ?_, fun _ => ?_, fun j hj hjc => ?_⟩
    · rw [if_pos (by omega)]
      exact .bind (.demand (if_pos bounds)) (.bind (setEntry_returns (by omega) new) (.pure _ _))
    · rw [low j (by omega)]
      exact Function.update_of_ne (by omega) _ _
    · rw [low i (by omega)]
      exact Function.update_self _ _ _
    · by_cases next : j = i + 1
      · subst next
        rw [at_ hjc, Nat.add_sub_cancel]
      · rw [high j (by omega) hjc]
        exact Function.update_of_ne (by omega) _ _

/-- The loop of `arraymap_remove` moves the bindings behind `i` one place down. -/
lemma removeLoop_returns {c i : Nat} (hc : m.count = c) (fits : (c : Int) < m.capacity) (le : i ≤ c) :
    ∃ data, Returns (loop removeBody (i : Int)) m (c : Int) { m with data := data } ∧
      (∀ j < i, data j = m.data j) ∧ ∀ j, i ≤ j → j < c → data j = m.data (j + 1) := by
  induction width : c - i generalizing m i with
  | zero =>
    have done : i = c := by omega
    subst done
    refine ⟨m.data, .exit (.bind (.asks _ _) ?_), fun _ _ => rfl, by omega⟩
    rw [if_neg (by omega)]
    exact .pure _ _
  | succ width ih =>
    obtain ⟨data, run, low, high⟩ :=
      ih (m := { m with data := Function.update m.data i (m.data (i + 1)) }) (i := i + 1) hc fits
        (by omega) (by omega)
    have bounds : InBounds m ((i + 1 : Nat) : Int) := ⟨by omega, by omega⟩
    refine ⟨data, .turn (.bind (.asks _ _) ?_) run, fun j hj => ?_, fun j hj hjc => ?_⟩
    · rw [if_pos (by omega)]
      exact .bind (.demand (if_pos bounds)) (.bind (setEntry_returns (by omega) _) (.pure _ _))
    · rw [low j (by omega)]
      exact Function.update_of_ne (by omega) _ _
    · by_cases here : j = i
      · subst here
        rw [low j (by omega)]
        exact Function.update_self _ _ _
      · rw [high j (by omega) hjc]
        exact Function.update_of_ne (by omega) _ _

end Twcos.Arraymap
