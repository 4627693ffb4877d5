import Twcos.Arraymap.Run
import Twcos.Assoc.Nearest
import Twcos.Prog.Turns

/-!
# The index of a key

What `arraymap_get_index` returns for each of the conditions, against what the condition asks for. The search never
compares the first binding if there are others, goes round for ever with one binding that is above the key, reads a place
that is not in use if there is none, and takes the place behind the last binding for one above the key. `Reliable` are
the calls for which none of this matters.
-/

namespace Twcos.Arraymap
open Twcos.Prog Twcos.Tree Twcos.Assoc

variable {K V : Type} {comp : K → K → Int} {key : K} {m : ArrayMap K V} {l : List (K × V)} {cond : MapEqTest} {a e : Nat}

/-- The map with no place behind its bindings, so that reading one is a fault. -/
def ArrayMap.trim (m : ArrayMap K V) : ArrayMap K V := { m with capacity := m.count }

/-- The search returns the index, and looks at no place but those of bindings. -/
structure Gives (comp : K → K → Int) (key : K) (cond : MapEqTest) (m : ArrayMap K V) (i : Int) : Prop where
  returns : Returns (arraymapGetIndex comp key cond) m i m
  inside : Returns (arraymapGetIndex comp key cond) m.trim i m.trim

/-- The index is that of the nearest key that the condition asks for; it is negative if there is none. -/
inductive Right (comp : K → K → Int) (key : K) (cond : MapEqTest) (l : List (K × V)) : Int → Prop where
  | entry {i : Nat} {b : K × V} : l[i]? = some b → Nearest comp key cond (fun k => ∃ c ∈ l, c.1 = k) b.1 →
      Right comp key cond l i
  | none {i : Int} : i < 0 → (∀ b ∈ l, ¬Wanted cond (comp key b.1)) → Right comp key cond l i

/-- The calls that `arraymap_get_index` is right for, by the signs of the key against the first and the last key. -/
def Reliable (comp : K → K → Int) (key : K) (cond : MapEqTest) (l : List (K × V)) : Prop :=
  ∃ first ∈ l.head?, ∃ last ∈ l.getLast?, match cond with
    | .lt => if l.length = 1 then 0 ≤ comp key first.1 else 0 < comp key first.1
    | .le => 0 ≤ comp key first.1
    | .eq => if l.length = 1 then 0 ≤ comp key first.1 else comp key first.1 ≠ 0
    | .ge => if l.length = 1 then comp key first.1 = 0 else 0 < comp key first.1 ∧ comp key last.1 ≤ 0
    | .gt => 0 ≤ comp key first.1 ∧ comp key last.1 < 0

/-! ### By rank -/

/-- The right index, in terms of how many keys are less than the key or equal to it. -/
lemma right_iff (hc : SignPreorder comp) (ordered : Ordered comp l) (h : Ranked comp key l a e) {i : Int} :
    Right comp key cond l i ↔ match nearestIndex a e l.length cond with
      | some k => i = k
      | none => i < 0 := by
  constructor
  · rintro (⟨hb, nearest⟩ | ⟨neg, none⟩)
    · rw [h.nearest_iff hc ordered hb] at nearest
      rw [nearest]
    · rw [h.none_iff] at none
      rw [none]
      exact neg
  · intro right
    cases found : nearestIndex a e l.length cond with
    | none =>
      rw [found] at right
      exact .none right (h.none_iff cond |>.mpr found)
    | some k =>
      rw [found] at right
      subst right
      have hb := List.getElem?_eq_getElem (nearestIndex_lt h.le found)
      exact .entry hb ((h.nearest_iff hc ordered hb cond).mpr found)

/-- What the search returns, by rank. -/
def indexOf (a e n : Nat) (cond : MapEqTest) : Int :=
  if 0 < e ∧ (0 < a ∨ n = 1) then foundIndex a cond else missedIndex (a - 1 : Nat) cond

/-- What the search answers is the index that these numbers give. -/
lemma answer_eq (h : Ranked comp key l a e) {i : Int} (answer : Answer comp key l cond i) :
    i = indexOf a e l.length cond := by
  have one := h.one
  have le := h.le
  rw [indexOf]
  cases answer with
  | @found k b hb zero place =>
    have equal := (h.equal k b hb).mp zero
    rw [if_pos (by omega), show a = k by omega]
  | @missing low missed =>
    have lt := missed.lt
    have hb := List.getElem?_eq_getElem lt
    -- the place before the key, or the first one if the key is not above it
    have place : low = a - 1 ∧ (a = 0 ∨ e = 0) := by
      by_cases below : low < a
      · rcases missed.above with last | ⟨c, hd, neg⟩
        · omega
        · have := (h.above _ c hd).mp neg
          omega
      · rcases missed.below with zero | ⟨c, hd, pos⟩
        · omega
        · exact absurd ((h.below low c hd).mp pos) below
    have alone : l.length = 1 → e = 0 := by
      intro length
      obtain ⟨b, rfl⟩ := List.length_eq_one_iff.mp length
      have nz := missed.only b rfl
      by_contra some
      by_cases first : a = 0
      · exact nz ((h.equal 0 b rfl).mpr (by omega))
      · omega
    rw [if_neg (by omega), place.1]

/-- The map without what is behind its entries. -/
lemma Holds.trim (h : Holds m l) : Holds m.trim l where
  count := h.count
  fits := h.count.ge
  data := h.data

/-- The search ends, unless the only binding is above the key. -/
lemma getIndex_gives (h : Holds m l) (ranked : Ranked comp key l a e) (some : l ≠ []) (low : l.length = 1 → 0 < a + e) :
    Gives comp key cond m (indexOf a e l.length cond) := by
  have length := List.length_pos_iff.mpr some
  have wide : 0 + 1 < l.length ∨ l.length = 1 ∧ ∀ b, l[0]? = .some b → 0 ≤ comp key b.1 := by
    by_cases one : l.length = 1
    · refine .inr ⟨one, fun b hb => ?_⟩
      have := ranked.above 0 b hb
      have := low one
      omega
    · omega
  have run {m : ArrayMap K V} (h : Holds m l) : Returns (arraymapGetIndex comp key cond) m (indexOf a e l.length cond) m := by
    obtain ⟨i, run, answer⟩ := getIndexLoop_returns cond h (bounds_start comp key some) wide
    rw [answer_eq ranked answer] at run
    refine .bind (.asks _ _) ?_
    rw [h.count]
    exact run
  exact ⟨run h, run h.trim⟩

/-- A turn of the search only reads. -/
lemma getIndexBody_straight (bounds : Int × Int) :
    Straight (getIndexBody comp key cond bounds : Code K V ((Int × Int) ⊕ Int)) := by
  refine .bind (.demand _ _) fun b => .bind (.asks _) fun count => .ite (.ite ?_ (.pure _)) (.ite (.ite ?_ (.pure _)) ?_)
  · cases cond <;> exact .pure _
  · cases cond <;> exact .pure _
  · cases cond <;> exact .pure _

/-- With one binding, which is above the key, the bounds stay at the first place. -/
lemma getIndex_loops (h : Holds m l) {b : K × V} (only : l = [b]) (above : comp key b.1 < 0) :
    Endless (arraymapGetIndex comp key cond) m := by
  subst only
  have count : m.count = 1 := h.count
  have read : Returns (entry 0) m b m := h.entry (i := 0) rfl
  have stay (high : Int) (bound : high = 0 ∨ high = 1) : Returns (getIndexBody comp key cond (0, high)) m (.inl (0, 0)) m := by
    have mid : ((0 : Int) + high).tdiv 2 = 0 := by
      rcases bound with rfl | rfl
      · rfl
      · rfl
    have read : Returns (entry (((0 : Int) + high).tdiv 2)) m b m := by
      rw [mid]
      exact read
    refine .bind read (.bind (.asks _ _) ?_)
    rw [mid, if_pos above, if_neg (by decide)]
    exact .pure _ _
  have forever : Endless (loop (getIndexBody comp key cond) ((0 : Int), m.count)) m := by
    refine loop_forever (I := fun bounds s => bounds.1 = 0 ∧ (bounds.2 = 0 ∨ bounds.2 = 1) ∧ s = m) ?_
      ⟨rfl, .inr count, rfl⟩
    rintro ⟨_, high⟩ s n ⟨rfl, bound, rfl⟩
    exact ⟨_, _, (stay high bound).at_budget (getIndexBody_straight _) n, rfl, .inl rfl, rfl⟩
  exact .rest (.asks _ _) forever

/-- With no binding, a place is read that has none. -/
lemma getIndex_empty (h : Holds m ([] : List (K × V))) {i : Int} {m' : ArrayMap K V} :
    ¬Returns (arraymapGetIndex comp key cond) m.trim i m' := by
  have count : m.count = 0 := h.count
  have out : Raises (entry (((0 : Int) + m.count).tdiv 2)) m.trim (.bounds (((0 : Int) + m.count).tdiv 2)) := by
    apply Raises.demand
    rw [if_neg]
    rintro ⟨-, lt⟩
    rw [count] at lt
    exact absurd lt (by show ¬(0 : Int) < m.count; omega)
  have body : Raises (getIndexBody comp key cond ((0 : Int), m.trim.count)) m.trim _ := Raises.first out
  have fault : Raises (arraymapGetIndex comp key cond) m.trim _ := Raises.rest (.asks _ _) (Raises.loop body)
  exact fault.not_returns

/-- With no binding, the key that is left at the first place is compared. If it is not the one, the search goes round for
    ever, unless there is no place at all. -/
lemma getIndex_stale (h : Holds m ([] : List (K × V))) (ne : comp key (m.data 0).1 ≠ 0) :
    Endless (arraymapGetIndex comp key cond) m ∨ Raises (arraymapGetIndex comp key cond) m (.bounds 0) := by
  have count : m.count = 0 := h.count
  by_cases place : InBounds m 0
  · left
    have read : Returns (entry 0) m (m.data 0) m := .demand (if_pos place)
    have stay : Returns (getIndexBody comp key cond (0, 0)) m (.inl (0, 0)) m := by
      refine .bind read (.bind (.asks _ _) ?_)
      show Returns (if comp key (m.data 0).1 < 0 then _ else _) m _ m
      rw [show ((0 : Int) + 0).tdiv 2 = 0 from rfl]
      rcases lt_or_gt_of_ne ne with below | above
      · rw [if_pos below, if_neg (by decide)]
        exact .pure _ _
      · rw [if_neg (by omega), if_pos above, if_neg (by decide)]
        exact .pure _ _
    have forever : Endless (loop (getIndexBody comp key cond) ((0 : Int), m.count)) m := by
      rw [count]
      refine loop_forever (I := fun bounds s => bounds = (0, 0) ∧ s = m) ?_ ⟨rfl, rfl⟩
      rintro _ s n ⟨rfl, rfl⟩
      exact ⟨_, _, stay.at_budget (getIndexBody_straight _) n, rfl, rfl⟩
    exact .rest (.asks _ _) forever
  · right
    have out : Raises (getIndexBody comp key cond (0, m.count)) m (.bounds 0) := by
      rw [count]
      exact .first (.demand (if_neg place))
    exact .rest (.asks _ _) (.loop out)

/-- The first place is found if the key that is left there is the one. -/
lemma getIndex_left (h : Holds m ([] : List (K × V))) (zero : comp key (m.data 0).1 = 0) :
    Returns (arraymapGetIndex comp key .ge) m 0 m ∨ Raises (arraymapGetIndex comp key .ge) m (.bounds 0) := by
  have count : m.count = 0 := h.count
  by_cases place : InBounds m 0
  · left
    have read : Returns (entry 0) m (m.data 0) m := .demand (if_pos place)
    have found : Returns (getIndexBody comp key .ge (0, 0)) m (.inr 0) m := by
      refine .bind read (.bind (.asks _ _) ?_)
      show Returns (if comp key (m.data 0).1 < 0 then _ else _) m _ m
      rw [if_neg (by omega), if_neg (by omega)]
      exact .pure _ _
    refine .bind (.asks _ _) ?_
    rw [count]
    exact .exit found
  · right
    have out : Raises (getIndexBody comp key .ge (0, m.count)) m (.bounds 0) := by
      rw [count]
      exact .first (.demand (if_neg place))
    exact .rest (.asks _ _) (.loop out)

/-- The signs of the key against the first and the last key, by rank. -/
lemma reliable_iff (ranked : Ranked comp key l a e) : Reliable comp key cond l ↔
    0 < l.length ∧ match cond with
      | .lt => if l.length = 1 then 0 < a + e else 0 < a
      | .le => 0 < a + e
      | .eq => if l.length = 1 then 0 < a + e else (0 < a ∨ e = 0)
      | .ge => if l.length = 1 then 0 < e else 0 < a ∧ a < l.length
      | .gt => 0 < a + e ∧ a + e < l.length := by
  have one := ranked.one
  have le := ranked.le
  by_cases some : l = []
  · subst some
    exact iff_of_false (fun ⟨_, mem, _⟩ => by cases mem) fun h => absurd h.1 (lt_irrefl 0)
  · have length := List.length_pos_iff.mpr some
    have head : l.head? = .some l[0] := by rw [List.head?_eq_getElem?, List.getElem?_eq_getElem length]
    have last : l.getLast? = .some l[l.length - 1] := by
      rw [List.getLast?_eq_getElem?, List.getElem?_eq_getElem (by omega)]
    have below := ranked.below 0 _ (List.getElem?_eq_getElem length)
    have equal := ranked.equal 0 _ (List.getElem?_eq_getElem length)
    have above := ranked.above 0 _ (List.getElem?_eq_getElem length)
    have below' := ranked.below _ _ (List.getElem?_eq_getElem (show l.length - 1 < l.length by omega))
    have above' := ranked.above _ _ (List.getElem?_eq_getElem (show l.length - 1 < l.length by omega))
    simp only [Reliable, head, last, Option.mem_some_iff, exists_eq_left', length, true_and]
    cases cond with
    | lt =>
      dsimp only
      split_ifs <;> omega
    | le =>
      dsimp only
      omega
    | eq =>
      dsimp only
      split_ifs <;> omega
    | ge =>
      dsimp only
      split_ifs <;> omega
    | gt =>
      dsimp only
      omega

/-- Where the search ends, its result is the index that the condition asks for exactly if the call is reliable. -/
lemma indexOf_iff {n : Nat} (length : 0 < n) (one : e ≤ 1) (le : a + e ≤ n) (low : n = 1 → 0 < a + e) :
    (match nearestIndex a e n cond with
      | some k => indexOf a e n cond = k
      | none => indexOf a e n cond < 0) ↔
    match cond with
      | .lt => if n = 1 then 0 < a + e else 0 < a
      | .le => 0 < a + e
      | .eq => if n = 1 then 0 < a + e else (0 < a ∨ e = 0)
      | .ge => if n = 1 then 0 < e else 0 < a ∧ a < n
      | .gt => 0 < a + e ∧ a + e < n := by
  rw [indexOf]
  cases cond with
  | lt =>
    simp only [nearestIndex, foundIndex, missedIndex]
    split_ifs <;> dsimp only <;> omega
  | le =>
    simp only [nearestIndex, foundIndex, missedIndex]
    split_ifs <;> dsimp only <;> omega
  | eq =>
    simp only [nearestIndex, foundIndex, missedIndex]
    split_ifs <;> grind
  | ge =>
    simp only [nearestIndex, foundIndex, missedIndex]
    split_ifs <;> dsimp only <;> omega
  | gt =>
    simp only [nearestIndex, foundIndex, missedIndex]
    split_ifs <;> dsimp only <;> omega

/-- `arraymap_get_index` ends, reads only bindings and returns the index that the condition asks for exactly if the call
    is reliable. -/
theorem arraymapGetIndex_iff (comp : K → K → Int) (hc : SignPreorder comp) (m : ArrayMap K V) (l : List (K × V))
    (h : Holds m l) (ordered : Ordered comp l) (key : K) (cond : MapEqTest) :
    (∃ i, Gives comp key cond m i ∧ Right comp key cond l i) ↔ Reliable comp key cond l := by
  obtain ⟨a, e, ranked⟩ := exists_ranked hc ordered key
  have one := ranked.one
  have le := ranked.le
  rw [reliable_iff ranked]
  by_cases empty : l = []
  · subst empty
    refine iff_of_false ?_ fun h => absurd h.1 (lt_irrefl 0)
    rintro ⟨i, gives, -⟩
    exact absurd gives.inside (getIndex_empty h)
  · have length := List.length_pos_iff.mpr empty
    by_cases low : l.length = 1 → 0 < a + e
    · -- the search ends, and its result is right or not by rank
      have gives : Gives comp key cond m _ := getIndex_gives h ranked empty low
      have unique : (∃ i, Gives comp key cond m i ∧ Right comp key cond l i) ↔
          Right comp key cond l (indexOf a e l.length cond) := by
        refine ⟨fun ⟨i, gives', right⟩ => ?_, fun right => ⟨_, gives, right⟩⟩
        rw [(gives.returns.unique gives'.returns).1]
        exact right
      rw [unique, right_iff hc ordered ranked, and_iff_right length]
      exact indexOf_iff length one le low
    · rw [Classical.not_imp] at low
      obtain ⟨b, only⟩ := List.length_eq_one_iff.mp low.1
      have above : comp key b.1 < 0 := by
        refine (ranked.above 0 b (by rw [only]; rfl)).mpr ?_
        omega
      refine iff_of_false ?_ ?_
      · rintro ⟨i, gives, -⟩
        exact (getIndex_loops h only above).not_returns gives.returns
      · rintro ⟨-, reliable⟩
        cases cond <;> simp only [low.1, if_true] at reliable <;> omega

/-- Three keys, in a map with room for more. -/
def threeKeys : ArrayMap Nat Nat := ⟨5, 3, fun i => ([(10, 1), (20, 2), (30, 3)] : List (Nat × Nat)).getD i (0, 0)⟩

/-- Three entries in an array of four. -/
lemma holds_threeKeys : Holds threeKeys [(10, 1), (20, 2), (30, 3)] where
  count := rfl
  fits := by decide
  data i b h := by
    show List.getD _ i _ = b
    rw [List.getD_eq_getElem?_getD, h]
    rfl

/-- A search between the second key and the third. -/
theorem arraymapGetIndex_threeKeys :
    Holds threeKeys [(10, 1), (20, 2), (30, 3)] ∧ Ordered compNat [(10, 1), (20, 2), (30, 3)] ∧
      ∃ i, Gives compNat 25 .ge threeKeys i ∧ Right compNat 25 .ge [(10, 1), (20, 2), (30, 3)] i := by
  have ordered : Ordered compNat [(10, 1), (20, 2), (30, 3)] := by
    unfold Ordered
    decide
  refine ⟨holds_threeKeys, ordered, ?_⟩
  refine (arraymapGetIndex_iff compNat compNat_preorder threeKeys _ holds_threeKeys ordered 25 .ge).mpr ?_
  exact ⟨(10, 1), rfl, (30, 3), rfl, by decide, by decide⟩

/-- The first of three keys is not found. -/
theorem arraymapGetIndex_first :
    Holds threeKeys [(10, 1), (20, 2), (30, 3)] ∧ Returns (arraymapGetIndex compNat 10 .eq) threeKeys (-1) threeKeys ∧
      ¬∃ i, Gives compNat 10 .eq threeKeys i ∧ Right compNat 10 .eq [(10, 1), (20, 2), (30, 3)] i := by
  have run : Returns (arraymapGetIndex compNat 10 .eq) threeKeys (-1) threeKeys :=
    .of_add 4 fun _ => rfl
  refine ⟨holds_threeKeys, run, ?_⟩
  rintro ⟨i, gives, right⟩
  rw [← (run.unique gives.returns).1] at right
  cases right with
  | none _ absent => exact absent (10, 1) (by decide) rfl

end Twcos.Arraymap
