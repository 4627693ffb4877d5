import Twcos.Arraymap.Index
import Twcos.Prog.Emits
import Twcos.Tree.Traverse

/-!
# Walking over a range of keys

`map_walk_range` for both kinds of map. `tree_walk_range` and `arraymap_walk_range` look up where the range starts and
where it ends, with `MAP_GE` and `MAP_LT`, and step from the one to the other. The tree does not see that its last node is
before its first, or that there is none, and goes on to the end of the tree; the array takes over what is wrong with
`arraymap_get_index`. `treeRange_iff` and `arrayRange_iff` say for which ranges this does not matter.
-/

namespace Twcos.Map
open Twcos.Prog Twcos.Tree Twcos.Bin Twcos.Assoc Twcos.Arraymap

variable {K V : Type} {comp : K → K → Int} {start stop : K} {l : List (K × V)}

/-- `start <= k < stop`. -/
def InRange (comp : K → K → Int) (start stop k : K) : Prop := comp start k ≤ 0 ∧ 0 < comp stop k

/-- The walk ends, and calls the callback once for each binding in the range and for no other, in the order of the keys. -/
def Walks {ε σ : Type} (walk : Prog ε (σ × List (K × V)) Unit) (s : σ) (comp : K → K → Int) (start stop : K)
    (l : List (K × V)) : Prop :=
  ∃ calls s', Emits walk s () calls s' ∧ Ordered comp calls ∧ ∀ b, b ∈ calls ↔ b ∈ l ∧ InRange comp start stop b.1

/-- The ranges that `tree_walk_range` is right for: there is a key in the range, or none that is not below its start. -/
def TreeRange (comp : K → K → Int) (start stop : K) (l : List (K × V)) : Prop :=
  (∃ b ∈ l, InRange comp start stop b.1) ∨ ∀ b ∈ l, 0 < comp start b.1

/-- The ranges that `arraymap_walk_range` is right for: the first key is not in the range; if it is the only one, none of
    the bounds is below it. -/
def ArrayRange (comp : K → K → Int) (start stop : K) (first : K × V) (rest : List (K × V)) : Prop :=
  if rest = [] then 0 ≤ comp start first.1 ∧ 0 ≤ comp stop first.1 else ¬InRange comp start stop first.1

/-! ### By rank -/

/-- The elements between two indexes. -/
lemma getElem_mem_part {α : Type} {l : List α} (nodup : l.Nodup) {i j k : Nat} (lt : k < l.length) :
    l[k] ∈ (l.take j).drop i ↔ i ≤ k ∧ k < j := by
  rw [List.mem_iff_getElem]
  constructor
  · rintro ⟨n, hn, e⟩
    rw [List.length_drop, List.length_take] at hn
    rw [List.getElem_drop, List.getElem_take] at e
    have := (nodup.getElem_inj_iff).mp e
    omega
  · rintro ⟨le, hj⟩
    refine ⟨k - i, ?_, ?_⟩
    · rw [List.length_drop, List.length_take]
      omega
    · rw [List.getElem_drop, List.getElem_take]
      congr 1
      omega

/-- An ordered list has no element twice. -/
lemma Ordered.nodup (hc : SignPreorder comp) (ordered : Ordered comp l) : l.Nodup :=
  ordered.imp fun lt e => by
    subst e
    have := hc.refl
    grind

section
variable {a e b f : Nat} (low : Ranked comp start l a e) (high : Ranked comp stop l b f)

include low high

/-- What is in the range is between the ranks of its ends. -/
lemma inRange_iff {k : Nat} (lt : k < l.length) : InRange comp start stop l[k].1 ↔ a ≤ k ∧ k < b :=
  and_congr (low.wanted_iff (List.getElem?_eq_getElem lt) .ge) (high.wanted_iff (List.getElem?_eq_getElem lt) .lt)

/-- A walk over a part of the bindings is right if it is the part in the range. -/
lemma walks_part_iff {ε σ : Type} {walk : Prog ε (σ × List (K × V)) Unit} {s s' : σ} (hc : SignPreorder comp)
    (ordered : Ordered comp l) {i j : Nat} (run : Emits walk s () ((l.take j).drop i) s') :
    Walks walk s comp start stop l ↔ ∀ k < l.length, (i ≤ k ∧ k < j ↔ a ≤ k ∧ k < b) := by
  have nodup := Ordered.nodup hc ordered
  constructor
  · rintro ⟨calls, s1, run', -, mem⟩ k lt
    rw [← run.unique run'] at mem
    rw [← getElem_mem_part nodup lt, mem, and_iff_right (List.getElem_mem lt), inRange_iff low high lt]
  · intro same
    refine ⟨_, s', run, ordered.sublist ((List.drop_sublist _ _).trans (List.take_sublist _ _)), fun c => ?_⟩
    constructor
    · intro mem
      have inside := List.mem_of_mem_take (List.mem_of_mem_drop mem)
      obtain ⟨k, lt, rfl⟩ := List.getElem_of_mem inside
      rw [getElem_mem_part nodup lt, same k lt, ← inRange_iff low high lt] at mem
      exact ⟨inside, mem⟩
    · rintro ⟨inside, range⟩
      obtain ⟨k, lt, rfl⟩ := List.getElem_of_mem inside
      rwa [getElem_mem_part nodup lt, same k lt, ← inRange_iff low high lt]

end

/-! ### The tree -/

/-- Picking the elements before an index. -/
lemma filter_eq_take {α : Type} {p : α → Bool} {l : List α} {a : Nat}
    (h : ∀ i x, l[i]? = some x → (p x = true ↔ i < a)) : l.filter p = l.take a := by
  induction l generalizing a with
  | nil => rw [List.filter_nil, List.take_nil]
  | cons x l ih =>
    have first := h 0 x rfl
    cases a with
    | zero =>
      have none : ∀ y ∈ x :: l, ¬p y = true := fun y mem hp => by
        obtain ⟨i, hi⟩ := List.mem_iff_getElem?.mp mem
        exact absurd ((h i y hi).mp hp) (Nat.not_lt_zero i)
      rw [List.take_zero, List.filter_eq_nil_iff.mpr none]
    | succ a =>
      have rest := ih (a := a) fun i y hi => (h (i + 1) y hi).trans Nat.succ_lt_succ_iff
      rw [List.filter_cons_of_pos (first.mpr (Nat.succ_pos a)), List.take_succ_cons, rest]

/-- Picking the elements from an index on. -/
lemma filter_eq_drop {α : Type} {p : α → Bool} {l : List α} {a : Nat}
    (h : ∀ i x, l[i]? = some x → (p x = true ↔ a ≤ i)) : l.filter p = l.drop a := by
  induction l generalizing a with
  | nil => rw [List.filter_nil, List.drop_nil]
  | cons x l ih =>
    cases a with
    | zero =>
      refine List.filter_eq_self.mpr fun y mem => ?_
      obtain ⟨i, hi⟩ := List.mem_iff_getElem?.mp mem
      exact (h i y hi).mpr (Nat.zero_le i)
    | succ a =>
      have first : ¬p x = true := fun hp => absurd ((h 0 x rfl).mp hp) (Nat.not_succ_le_zero a)
      rw [List.filter_cons_of_neg first, List.drop_succ_cons]
      exact ih fun i y hi => (h (i + 1) y hi).trans Nat.succ_le_succ_iff

variable {t : TreeT K} {m : Mem K V} {u : Shape K V} {a e b f : Nat}

/-- The sign of a key against a node is that against its binding. -/
lemma getElem?_bindings {i : Nat} {x : Cell K V} (h : u.cells[i]? = some x) : (bindings u)[i]? = some x.binding := by
  rw [bindings, List.getElem?_map, h]
  rfl

/-- The first key from the start of the range on. -/
lemma pick_ge (low : Ranked t.comp start (bindings u) a e) :
    pick (signAt t start) u.cells .ge = (u.cells.drop a).head? := by
  rw [pick, filter_eq_drop fun i x hi => ?_]
  rw [decide_eq_true_iff]
  exact low.wanted_iff (getElem?_bindings hi) .ge

/-- The last key below the stop. -/
lemma pick_lt (high : Ranked t.comp stop (bindings u) b f) :
    pick (signAt t stop) u.cells .lt = (u.cells.take b).getLast? := by
  rw [pick, filter_eq_take fun i x hi => ?_]
  rw [decide_eq_true_iff]
  exact high.wanted_iff (getElem?_bindings hi) .lt

/-- The bindings that the walk comes to, from the place `a` to the node before the place `b`. -/
lemma upTo_part (links : Links m u) (le : b ≤ u.cells.length) :
    upTo (addrOf (u.cells.take b).getLast?) (u.cells.drop a) =
      ((bindings u).take (if a < b then b else u.cells.length)).drop a := by
  rw [bindings, ← List.map_take, ← List.map_drop]
  cases last : (u.cells.take b).getLast? with
  | none =>
    -- no node is below the end of the range
    have zero : b = 0 := by
      have empty := congrArg List.length (List.getLast?_eq_none_iff.mp last)
      rw [List.length_take, List.length_nil] at empty
      omega
    rw [if_neg (by omega), List.take_length]
    exact upTo_absent fun y mem => (links_deref links (List.mem_of_mem_drop mem)).1
  | some x =>
    obtain ⟨T, split⟩ := List.getLast?_eq_some_iff.mp last
    have whole : u.cells = T ++ x :: u.cells.drop b := by
      have join := List.take_append_drop b u.cells
      rw [split, List.append_assoc] at join
      exact join.symm
    have length : T.length + 1 = b := by
      have length := congrArg List.length split
      rw [List.length_take, List.length_append, List.length_singleton] at length
      omega
    have other := links.addr_ne whole
    by_cases lt : a < b
    · have tail : u.cells.drop a = T.drop a ++ x :: u.cells.drop b := by
        rw [whole, List.drop_append_of_le_length (by omega), ← whole]
      rw [if_pos lt, split, List.drop_append_of_le_length (by omega), tail]
      exact upTo_append fun y mem => other.1 y (List.mem_of_mem_drop mem)
    · rw [if_neg lt, List.take_length]
      refine upTo_absent fun y mem => other.2 y ?_
      rw [show a = b + (a - b) by omega, ← List.drop_drop] at mem
      exact List.mem_of_mem_drop mem

/-- The calls of `tree_walk_range`, by rank. -/
lemma treeWalkRange_emits (hc : SignPreorder t.comp) (links : Links m u) (ordered : Ordered t.comp (bindings u))
    (low : Ranked t.comp start (bindings u) a e) (high : Ranked t.comp stop (bindings u) b f) :
    ∃ m', Emits (treeWalkRange t start stop) m ()
      (((bindings u).take (if a < b then b else u.cells.length)).drop a) m' := by
  obtain ⟨m1, u1, first, links1, same1⟩ := treeGetNode_links hc start .ge links ordered
  have ordered1 : Ordered t.comp (bindings u1) := by rwa [bindings, same1]
  obtain ⟨m2, u2, last, links2, same2⟩ := treeGetNode_links hc stop .lt links1 ordered1
  have same : u2.cells = u.cells := same2.trans same1
  have le : b ≤ u2.cells.length := by
    have := high.le
    rw [bindings, List.length_map] at this
    rw [same]
    omega
  have walk := treeWalkNodes_emits links2 (addrOf (u2.cells.take b).getLast?) (List.take_append_drop a u2.cells).symm
  rw [upTo_part links2 le, show bindings u2 = bindings u by rw [bindings, same, bindings], same] at walk
  rw [pick_ge low] at first
  rw [same1, pick_lt high] at last
  exact ⟨m2, .andThen (.lift first) (.andThen (.lift last) walk)⟩

/-- The walk over a tree visits the range exactly under the condition. -/
lemma treeRange_iff (hc : SignPreorder t.comp) (links : Links m u) (ordered : Ordered t.comp (bindings u)) :
    Walks (treeWalkRange t start stop) m t.comp start stop (bindings u) ↔ TreeRange t.comp start stop (bindings u) := by
  obtain ⟨a, e, low⟩ := exists_ranked hc ordered start
  obtain ⟨b, f, high⟩ := exists_ranked hc ordered stop
  obtain ⟨m', run⟩ := treeWalkRange_emits hc links ordered low high
  have length : (bindings u).length = u.cells.length := List.length_map _
  have le := low.le
  have le' := high.le
  have some : (∃ c ∈ bindings u, InRange t.comp start stop c.1) ↔ a < b := by
    constructor
    · rintro ⟨c, mem, range⟩
      obtain ⟨k, lt, rfl⟩ := List.getElem_of_mem mem
      have := (inRange_iff low high lt).mp range
      omega
    · intro lt
      exact ⟨_, List.getElem_mem (show a < (bindings u).length by omega), (inRange_iff low high _).mpr ⟨le_refl a, lt⟩⟩
  have none : (∀ c ∈ bindings u, 0 < t.comp start c.1) ↔ a = (bindings u).length := by
    have absent := low.none_iff .ge
    simp only [Wanted, Int.not_le, nearestIndex, ite_eq_right_iff, reduceCtorEq, imp_false] at absent
    rw [absent]
    omega
  rw [walks_part_iff low high hc ordered run, TreeRange, some, none]
  constructor
  · intro same
    have := same a
    split_ifs at this <;> omega
  · rintro right k lt
    split_ifs <;> omega

/-! ### The array -/

/-- A turn of the loop of `arraymap_walk_range`. -/
def rangeStep (indexto i : Int) : Prog Arraymap.Fault (ArrayMap K V × List (K × V)) (Int ⊕ Unit) := do
  if i ≤ indexto then
    let e ← Prog.lift (entry i)
    emit e
    return .inl (i + 1)
  else return .inr ()

/-- `arraymap_walk_range`. -/
def arraymapWalkRange (comp : K → K → Int) (start stop : K) : Prog Arraymap.Fault (ArrayMap K V × List (K × V)) Unit := do
  let indexfrom ← Prog.lift (arraymapGetIndex comp start .ge)
  let indexto ← Prog.lift (arraymapGetIndex comp stop .lt)
  loop (rangeStep indexto) indexfrom

variable {w : ArrayMap K V}

/-- The loop over an array visits the entries from one index to another. -/
lemma rangeLoop_emits (h : Arraymap.Holds w l) {i j : Nat} (le : j ≤ l.length) {indexto : Int} (last : indexto = j - 1) :
    Emits (loop (rangeStep indexto) (i : Int)) w () ((l.take j).drop i) w := by
  induction width : j - i generalizing i with
  | zero =>
    have empty : (l.take j).drop i = [] := by
      rw [List.drop_eq_nil_iff, List.length_take]
      omega
    rw [empty]
    refine .exit ?_
    rw [rangeStep, if_neg (by omega)]
    exact .pure _ _
  | succ width ih =>
    have inside : i < (l.take j).length := by
      rw [List.length_take]
      omega
    have read := h.entry (List.getElem?_eq_getElem (show i < l.length by omega))
    rw [List.drop_eq_getElem_cons inside, List.getElem_take]
    have step : Emits (rangeStep indexto (i : Int)) w (.inl ((i + 1 : Nat) : Int)) [l[i]] w := by
      rw [rangeStep, if_pos (by omega)]
      exact .andThen (.lift read) (.bind (.emit _ _) (.pure _ _))
    exact .turn step (ih (by omega))

/-- What the searches return, by rank: the first place is passed over unless it is the only one. -/
def firstPlace (n a : Nat) : Nat := if n = 1 then a else max a 1

/-- The index that the search gives for the start. -/
lemma indexOf_ge {n : Nat} (one : e ≤ 1) (le : a + e ≤ n) (low : n = 1 → 0 < a + e) :
    indexOf a e n .ge = firstPlace n a := by
  simp only [indexOf, foundIndex, missedIndex, firstPlace]
  split_ifs <;> omega

/-- The index that it gives for the stop. -/
lemma indexOf_lt {n : Nat} (one : f ≤ 1) (le : b + f ≤ n) (low : n = 1 → 0 < b + f) :
    indexOf b f n .lt = firstPlace n b - 1 := by
  simp only [indexOf, foundIndex, missedIndex, firstPlace]
  split_ifs <;> omega

/-- The calls of `arraymap_walk_range`, by rank, where the searches end. -/
lemma arraymapWalkRange_emits (h : Arraymap.Holds w l) (some : l ≠ []) (low : Ranked comp start l a e)
    (high : Ranked comp stop l b f) (ends : l.length = 1 → 0 < a + e ∧ 0 < b + f) :
    Emits (arraymapWalkRange comp start stop) w ()
      ((l.take (firstPlace l.length b)).drop (firstPlace l.length a)) w := by
  have length := List.length_pos_iff.mpr some
  have inside : firstPlace l.length b ≤ l.length := by
    have := high.le
    rw [firstPlace]
    split_ifs <;> omega
  have first : Gives comp start .ge w _ := getIndex_gives h low some fun alone => (ends alone).1
  have last : Gives comp stop .lt w _ := getIndex_gives h high some fun alone => (ends alone).2
  rw [indexOf_ge low.one low.le fun alone => (ends alone).1] at first
  rw [indexOf_lt high.one high.le fun alone => (ends alone).2] at last
  exact .andThen (.lift first.returns) (.andThen (.lift last.returns) (rangeLoop_emits h inside rfl))

/-- With one binding, a bound that is below it is searched for ever. -/
lemma arraymapWalkRange_loops {only : K × V} (h : Arraymap.Holds w [only])
    (ends : comp start only.1 < 0 ∨ 0 ≤ comp start only.1 ∧ comp stop only.1 < 0) (ranked : Ranked comp start [only] a e) :
    Endless (arraymapWalkRange comp start stop) (w, []) := by
  rcases ends with below | ⟨ge, below⟩
  · exact .first (.lift (getIndex_loops h rfl below) [])
  · have first : Gives comp start .ge w _ := getIndex_gives h ranked (by simp) fun _ => by
      have := ranked.above 0 only rfl
      omega
    exact .rest (Emits.lift first.returns []) (.first (.lift (getIndex_loops h rfl below) _))

/-- With no binding, what is left at the first place is compared with both bounds; it is not equal to both, so that one of
    the searches does not end. -/
lemma arraymapWalkRange_empty (h : Arraymap.Holds w []) (apart : ∀ k, comp start k = 0 → comp stop k ≠ 0) :
    ¬Walks (arraymapWalkRange comp start stop) w comp start stop [] := by
  rintro ⟨calls, w', run, -⟩
  have run := run []
  by_cases left : comp start (w.data 0).1 = 0
  · rcases getIndex_left h left with first | fault
    · have first : Returns (Prog.lift (arraymapGetIndex comp start .ge)) (w, ([] : List (K × V))) 0 (w, []) :=
        Emits.lift first []
      rcases getIndex_stale h (apart _ left) with forever | fault
      · have last : Endless (arraymapWalkRange comp start stop) (w, []) := .rest first (.first (.lift forever []))
        exact last.not_returns run
      · have last : Raises (arraymapWalkRange comp start stop) (w, []) _ := .rest first (.first (.lift fault []))
        exact last.not_returns run
    · have first : Raises (arraymapWalkRange comp start stop) (w, []) _ := .first (.lift fault [])
      exact first.not_returns run
  · rcases getIndex_stale h left with forever | fault
    · have first : Endless (arraymapWalkRange comp start stop) (w, []) := .first (.lift forever [])
      exact first.not_returns run
    · have first : Raises (arraymapWalkRange comp start stop) (w, []) _ := .first (.lift fault [])
      exact first.not_returns run

/-- The walk over an array visits the range exactly under the condition. -/
lemma arrayRange_iff {first : K × V} {rest : List (K × V)} (hc : SignPreorder comp) (h : Arraymap.Holds w (first :: rest))
    (ordered : Ordered comp (first :: rest)) :
    Walks (arraymapWalkRange comp start stop) w comp start stop (first :: rest) ↔ ArrayRange comp start stop first rest := by
  obtain ⟨a, e, low⟩ := exists_ranked hc ordered start
  obtain ⟨b, f, high⟩ := exists_ranked hc ordered stop
  have above := low.above 0 first rfl
  have above' := high.above 0 first rfl
  have range := inRange_iff low high (show 0 < (first :: rest).length from Nat.succ_pos _)
  rw [List.getElem_cons_zero] at range
  rw [ArrayRange]
  split_ifs with alone
  · subst alone
    by_cases ends : 0 ≤ comp start first.1 ∧ 0 ≤ comp stop first.1
    · have run := arraymapWalkRange_emits h (by simp) low high fun _ => by omega
      rw [walks_part_iff low high hc ordered run, iff_true_right ends]
      intro k _
      rfl
    · have forever : Endless (arraymapWalkRange comp start stop) (w, []) :=
        arraymapWalkRange_loops h (by omega) low
      refine iff_of_false ?_ ends
      rintro ⟨calls, w', run, -⟩
      exact forever.not_returns (run [])
  · have length : 1 < (first :: rest).length := Nat.succ_lt_succ (List.length_pos_iff.mpr alone)
    have run := arraymapWalkRange_emits h (by simp) low high fun one => by omega
    rw [walks_part_iff low high hc ordered run, range, firstPlace, firstPlace, if_neg (by omega), if_neg (by omega)]
    have le' := high.le
    constructor
    · intro same inside
      have := same 0
      omega
    · intro outside k lt
      omega

/-- `map_walk_range` ends and calls the callback for the bindings in the range: for a tree that is linked correctly, in any
    mode, exactly if `TreeRange`, and for an array map that is not empty exactly if `ArrayRange`. -/
theorem mapWalkRange_iff (comp : K → K → Int) (hc : SignPreorder comp) (start stop : K) :
    (∀ (mode : Treemode) (m : Mem K V) (u : Shape K V), Links m u → Ordered comp (bindings u) →
      (Walks (treeWalkRange ⟨mode, comp⟩ start stop) m comp start stop (bindings u) ↔
        TreeRange comp start stop (bindings u))) ∧
    ∀ (w : ArrayMap K V) (first : K × V) (rest : List (K × V)), Arraymap.Holds w (first :: rest) →
      Ordered comp (first :: rest) →
      (Walks (arraymapWalkRange comp start stop) w comp start stop (first :: rest) ↔
        ArrayRange comp start stop first rest) := by
  constructor
  · intro mode m u links ordered
    exact treeRange_iff hc links ordered
  · intro w first rest h ordered
    exact arrayRange_iff hc h ordered

/-- Three bindings in order. -/
lemma ordered_threeKeys : Ordered mapKeycmp [(10, 1), (20, 2), (30, 3)] := by
  unfold Ordered
  decide

/-- A range with one of three keys, in both kinds of map. -/
theorem mapWalkRange_threeKeys :
    Links (threeNodes 0 0 0) threeShape ∧ Ordered mapKeycmp (bindings threeShape) ∧
    Arraymap.Holds threeKeys [(10, 1), (20, 2), (30, 3)] ∧ Ordered mapKeycmp [(10, 1), (20, 2), (30, 3)] ∧
    Walks (treeWalkRange ⟨.splay, mapKeycmp⟩ 15 25) (threeNodes 0 0 0) mapKeycmp 15 25 (bindings threeShape) ∧
    Walks (arraymapWalkRange mapKeycmp 15 25) threeKeys mapKeycmp 15 25 [(10, 1), (20, 2), (30, 3)] := by
  have right := mapWalkRange_iff (V := Nat) mapKeycmp mapKeycmp_signPreorder 15 25
  refine ⟨links_threeNodes 0 0 0, ordered_threeShape, holds_threeKeys, ordered_threeKeys, ?_, ?_⟩
  · refine (right.1 .splay _ _ (links_threeNodes 0 0 0) ordered_threeShape).mpr (.inl ⟨(20, 200), by decide, ?_⟩)
    exact ⟨by decide, by decide⟩
  · refine (right.2 _ _ _ holds_threeKeys ordered_threeKeys).mpr ?_
    rw [ArrayRange, if_neg (by simp)]
    exact fun range => absurd range.1 (by decide)

/-- A tree with the keys 10, 20 and 30 has none from 12 to 15, but the walk comes to the last two. An array map with these
    keys has the first one from 5 to 15, but the walk does not come to it. -/
theorem mapWalkRange_empty_range :
    Returns (treeWalkRange ⟨.default, mapKeycmp⟩ 12 15) (threeNodes 1 3 1, []) ()
      (threeNodes 1 3 1, [(20, 200), (30, 300)]) ∧
    Returns (arraymapWalkRange mapKeycmp 5 15) (threeKeys, []) () (threeKeys, []) ∧
    ¬Walks (treeWalkRange ⟨.default, mapKeycmp⟩ 12 15) (threeNodes 1 3 1) mapKeycmp 12 15 (bindings threeShape) ∧
    ¬Walks (arraymapWalkRange mapKeycmp 5 15) threeKeys mapKeycmp 5 15 [(10, 1), (20, 2), (30, 3)] := by
  have tree : Returns (treeWalkRange ⟨.default, mapKeycmp⟩ 12 15) (threeNodes 1 3 1, []) ()
      (threeNodes 1 3 1, [(20, 200), (30, 300)]) :=
    .of_add 12 fun _ => rfl
  have array : Returns (arraymapWalkRange mapKeycmp 5 15) (threeKeys, []) () (threeKeys, []) :=
    .of_add 12 fun _ => rfl
  refine ⟨tree, array, ?_, ?_⟩
  · rintro ⟨calls, m', run, -, mem⟩
    have called : calls = [(20, 200), (30, 300)] := congrArg Prod.snd ((run []).unique tree).2
    have wrong := (mem (20, 200)).mp (by rw [called]; exact List.mem_cons_self)
    exact absurd wrong.2.2 (by decide)
  · rintro ⟨calls, w', run, -, mem⟩
    have called : calls = [] := congrArg Prod.snd ((run []).unique array).2
    have wrong := (mem (10, 1)).mpr ⟨by decide, by decide, by decide⟩
    rw [called] at wrong
    exact absurd wrong List.not_mem_nil

end Twcos.Map
