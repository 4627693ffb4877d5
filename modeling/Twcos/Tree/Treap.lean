import Twcos.Bin.Heap
import Twcos.Prog.Calls
import Twcos.Tree.Run

/-!
# The order of priorities in a treap

In mode `TREE_TREAP` the priorities should grow from each node to those below it. `tree_put` and `tree_optimize` see to
that, whatever the comparator. `tree_remove` rotates the left child over the node that it takes out as long as there is
one, without a look at the priorities, so that the right subtree comes to hang below the last node of the left one.
-/

namespace Twcos.Tree
open Twcos.Prog Twcos.Bin

variable {K V : Type} {m : Mem K V} {t : TreeT K} {key : K}

/-- No node has a smaller priority than its parent. -/
def HeapOrdered (m : Mem K V) : Prop :=
  ∀ p n q, m.node p = some n → m.node n.parent = some q → q.priority ≤ n.priority

/-- The call takes out no node with two subtrees such that the last node of the left one has a greater priority than the
    top of the right one. -/
def Sinks (t : TreeT K) (m : Mem K V) : Call K V → Prop
  | .remove key => ∀ p n q b c, Returns (treeSearch t key) m (.node p) m → m.node p = some n → n.left ≠ 0 →
      Returns (descend .right n.left) m q m → m.node q = some b → m.node n.right = some c → b.priority ≤ c.priority
  | _ => True

/-- The order of two nodes by their priorities. -/
def Outranks (x y : Cell K V) : Prop := x.priority ≤ y.priority

instance outranks_isTrans : IsTrans (Cell K V) Outranks := ⟨fun _ _ _ => Int.le_trans⟩

/-- The nodes in memory are in heap order if the tree is. -/
lemma heapOrdered_iff {u : Shape K V} (h : Stores m u) : HeapOrdered m ↔ u.Heap Outranks := by
  rw [heap_iff]
  constructor
  · rintro ordered f p l x r rfl
    have above := ordered x.addr _ _ h.holds.top h.holds.parent
    rwa [record_priority, record_priority] at above
  · intro ordered p n q hn hq
    obtain ⟨path, l, x, r, rfl, rfl, rfl⟩ := focus_of_node h hn
    cases path with
    | nil =>
      rw [record_parent, above, h.holds.null] at hq
      cases hq
    | cons f path =>
      rw [record_parent, above, h.holds.parent] at hq
      cases hq
      rw [record_priority, record_priority]
      exact ordered f path l x r rfl

/-! ### Putting -/

/-- A node that is sifted up comes to a place in order. -/
lemma siftUp_heap {p : Path (Cell K V)} {u : Shape K V} (h : Rising Outranks p u) (ne : u ≠ .nil) :
    (siftUp p u).Heap Outranks := by
  induction p, u using siftUp.induct with
  | case1 u => exact h.tree
  | case2 f p u less ih =>
    rw [siftUp, if_pos less]
    cases u with
    | nil => exact absurd rfl ne
    | node l x r => exact ih (h.lift (show x.priority ≤ _ from less.le)) (lift_ne_nil ne)
  | case3 f p u less =>
    rw [siftUp, if_neg less]
    refine h.settle ?_
    cases u with
    | nil => trivial
    | node l x r => exact not_lt.mp less

/-- Writing over the data of a node keeps the heap order. -/
lemma heap_put_found {q : Path (Cell K V)} {l r : Shape K V} {x : Cell K V} (data : V)
    (h : (plug q (.node l x r)).Heap Outranks) :
    (plug q (.node l { x with key := key, data := data } r)).Heap Outranks := by
  obtain ⟨path, top, tree⟩ := heap_plug.mp h
  refine heap_plug.mpr ⟨path, ?_, tree⟩
  cases q with
  | nil => trivial
  | cons f q => exact top

/-- A new node is sifted up to its place. -/
lemma heap_put_new {q : Path (Cell K V)} {x : Cell K V} (priority : Int) (h : (plug q .nil).Heap Outranks) :
    (balanced .treap priority q x).Heap Outranks := by
  refine siftUp_heap ⟨(heap_plug.mp h).1, ⟨trivial, trivial, trivial, trivial⟩, fun s => ?_⟩ nofun
  cases s <;> trivial

/-! ### Removing -/

/-- The priority of a node in memory. -/
lemma Stores.priority {u : Shape K V} (h : Stores m u) {y : Cell K V} (mem : y ∈ u.cells) {n : Node K V}
    (hn : m.node y.addr = some n) : n.priority = y.priority := by
  obtain ⟨p, l, r, rfl⟩ := exists_position mem
  rw [h.holds.top] at hn
  cases hn
  exact record_priority ..

/-- The nodes of a tree are in memory. -/
lemma Stores.isSome {u : Shape K V} (h : Stores m u) {y : Cell K V} (mem : y ∈ u.cells) : ∃ n, m.node y.addr = some n := by
  obtain ⟨p, l, r, rfl⟩ := exists_position mem
  exact ⟨_, h.holds.top⟩

/-- The condition on a removal, on the tree. -/
lemma sinks_iff {q : Path (Cell K V)} {l r : Shape K V} {x : Cell K V} (h : Stores m (plug q (.node l x r)))
    (search : Returns (treeSearch t key) m (.node x.addr) m) :
    Sinks t m (.remove key) ↔ ∀ y ∈ outermost .right l, r.Top (Outranks y) := by
  have hl := (rep_plug.mp h.holds.rep).2.2.2.1
  have last {y : Cell K V} (mem : outermost .right l = some y) : y ∈ (plug q (.node l x r)).cells := by
    rw [plug_cells, cells]
    simp [mem_of_outermost mem]
  have top {a b : Shape K V} {z : Cell K V} (e : r = .node a z b) : z ∈ (plug q (.node l x r)).cells := by
    rw [plug_cells, cells, e, cells]
    simp
  constructor
  · intro sinks y found
    cases r with
    | nil => trivial
    | node a z b =>
      have ne : l ≠ .nil := by
        rintro rfl
        cases found
      have down := descend_returns (s := .right) hl ne
      rw [show outermost .right l = some y from found] at down
      obtain ⟨n, hn⟩ := h.isSome (last found)
      obtain ⟨n', hn'⟩ := h.isSome (top rfl)
      have below := sinks x.addr _ y.addr n n' search h.holds.top (fun e => ne (hl.root_eq_zero.mp e)) down hn hn'
      rwa [h.priority (last found) hn, h.priority (top rfl) hn'] at below
  · intro below p n y b c search' hn left down hb hd
    cases (search.unique search').1
    rw [h.holds.top] at hn
    cases hn
    have ne : l ≠ .nil := fun e => left (hl.root_eq_zero.mpr e)
    obtain ⟨z, found⟩ := exists_outermost .right ne
    have same := ((descend_returns (s := .right) hl ne).unique down).1
    rw [found] at same
    subst same
    cases r with
    | nil =>
      have null : m.node 0 = some c := hd
      rw [h.holds.null] at null
      cases null
    | node a w d =>
      rw [h.priority (last found) hb, h.priority (top rfl) hd]
      exact below z found

/-! ### Runs -/

/-- An optimized tree is in heap order. -/
lemma Optimal.heap {u : Shape K V} {level : Int} (h : Optimal level u) : u.Heap Outranks := by
  induction u generalizing level with
  | nil => trivial
  | node l x r ihl ihr =>
    obtain ⟨hx, -, hl, hr⟩ := h
    have below {v : Shape K V} (hv : Optimal (level + 10) v) : v.Top (Outranks x) := by
      cases v with
      | nil => trivial
      | node a y b =>
        show x.priority ≤ y.priority
        rw [hx, hv.1]
        omega
    exact ⟨below hl, below hr, ihl hl, ihr hr⟩

/-- A call on a treap ends, and leaves the priorities in order exactly if the condition is met. -/
lemma call_heap [Zero V] (env : Env K V) (mode : t.mode = .treap) {u : Shape K V} (h : Stores m u) (c : Call K V) :
    ∃ r m' u', Returns (call env t c) m r m' ∧ Stores m' u' ∧ (u.Heap Outranks → (u'.Heap Outranks ↔ Sinks t m c)) := by
  cases c with
  | put key data =>
    rcases treeSearch_returns t key h with ⟨q, l, x, r, rfl, -, search⟩ | ⟨q, rfl, -, search⟩
    · obtain ⟨m', run, hs⟩ := treePut_found env data h search
      exact ⟨_, m', _, .bind run (.pure _ _), hs, fun heap => iff_of_true (heap_put_found data heap) trivial⟩
    · obtain ⟨m', x, run, -, -, hs⟩ := treePut_new env data h search
      rw [mode] at hs
      exact ⟨_, m', _, .bind run (.pure _ _), hs, fun heap => iff_of_true (heap_put_new _ heap) trivial⟩
  | get key cond =>
    obtain ⟨A, x, B, -, m', u', run, hs, -, same⟩ := treeGet_ends t key cond h
    have same := same (by rw [mode]; nofun)
    subst same
    exact ⟨_, m', _, .bind run (.pure _ _), hs, fun heap => iff_of_true heap trivial⟩
  | remove key =>
    rcases treeSearch_returns t key h with ⟨q, l, x, r, rfl, -, search⟩ | ⟨q, rfl, -, search⟩
    · obtain ⟨m', run, hs⟩ := treeRemove_found h search
      refine ⟨_, m', _, .bind run (.pure _ _), hs, fun heap => ?_⟩
      rw [heap_remove heap, sinks_iff h search]
    · refine ⟨_, m, _, .bind (treeRemove_absent h search) (.pure _ _), h, fun heap => iff_of_true heap ?_⟩
      intro p n y b c search' _ _ _ _ _
      cases (search.unique search').1
  | optimize =>
    obtain ⟨m', u', run, hs, -, optimal⟩ := treeOptimize_returns h
    exact ⟨_, m', u', .bind run (.pure _ _), hs, fun _ => iff_of_true optimal.heap trivial⟩

/-- From the empty tree on, no node of a treap ever has a smaller priority than its parent exactly if no call of the run
    takes out a node with two subtrees such that the last node of the left one has a greater priority than the top of the
    right one. -/
theorem heapOrdered_always_iff [Zero V] (env : Env K V) (comp : K → K → Int) (calls : List (Call K V)) :
    Stays (call env ⟨.treap, comp⟩) HeapOrdered treeNew calls ↔
      Prog.Meets (call env ⟨.treap, comp⟩) (Sinks ⟨.treap, comp⟩) treeNew calls := by
  refine stays_iff_meets (I := fun m => ∃ u, Stores m u) ?_ ⟨_, stores_treeNew⟩ ?_
  · rintro m c ⟨u, h⟩
    obtain ⟨r, m', u', run, h', step⟩ := call_heap (t := ⟨.treap, comp⟩) env rfl h c
    refine ⟨r, m', run, ⟨u', h'⟩, fun ordered => ?_⟩
    rw [heapOrdered_iff h']
    exact step ((heapOrdered_iff h).mp ordered)
  · exact (heapOrdered_iff stores_treeNew).mpr trivial

/-- The priorities 0, 5 and 3 for the first three nodes. -/
noncomputable def threePriorities : Env Nat Nat :=
  { anyFree Nat Nat with priority := fun n _ => if n = 1 then 0 else if n = 2 then 5 else 3 }

/-- Taking out the top of a treap with three nodes puts the node with the priority 3 below that with the priority 5. -/
theorem remove_not_heapOrdered :
    ¬Stays (call threePriorities ⟨.treap, mapKeycmp⟩) HeapOrdered treeNew [.put 20 1, .put 10 2, .put 30 3, .remove 20] := by
  intro stays
  have search1 : Returns (treeSearch ⟨.treap, mapKeycmp⟩ 20) (treeNew : Mem Nat Nat) _ _ :=
    treeSearch_gap (q := []) stores_treeNew trivial
  obtain ⟨m1, x1, run1, binding1, allocs1, h1⟩ := treePut_new threePriorities 1 (q := []) stores_treeNew search1
  have key1 : x1.key = 20 := congrArg Prod.fst binding1
  let y1 : Cell Nat Nat := { x1 with priority := 0 }
  have s1 : Stores m1 (plug [⟨.left, y1, .nil⟩] .nil) := h1
  have search2 : Returns (treeSearch ⟨.treap, mapKeycmp⟩ 10) m1 _ _ :=
    treeSearch_gap s1 ⟨by show mapKeycmp 10 x1.key < 0; rw [key1]; decide, trivial⟩
  obtain ⟨m2, x2, run2, -, allocs2, h2⟩ := treePut_new threePriorities 2 s1 search2
  rw [allocs1] at h2 allocs2
  let y2 : Cell Nat Nat := { x2 with priority := 5 }
  have s2 : Stores m2 (plug [⟨.right, y1, .node .nil y2 .nil⟩] .nil) := h2
  have search3 : Returns (treeSearch ⟨.treap, mapKeycmp⟩ 30) m2 _ _ :=
    treeSearch_gap s2 ⟨by show 0 < mapKeycmp 30 x1.key; rw [key1]; decide, trivial⟩
  obtain ⟨m3, x3, run3, -, -, h3⟩ := treePut_new threePriorities 3 s2 search3
  rw [allocs2] at h3
  let y3 : Cell Nat Nat := { x3 with priority := 3 }
  have s3 : Stores m3 (plug [] (.node (.node .nil y2 .nil) y1 (.node .nil y3 .nil))) := h3
  have search4 : Returns (treeSearch ⟨.treap, mapKeycmp⟩ 20) m3 _ _ :=
    treeSearch_node s3 trivial (by show mapKeycmp 20 x1.key = 0; rw [key1]; decide)
  have before := ((stays.next (.bind run1 (.pure _ _))).next (.bind run2 (.pure _ _))).next (.bind run3 (.pure _ _))
  obtain ⟨r, m4, u4, run4, s4, step⟩ := call_heap (t := ⟨.treap, mapKeycmp⟩) threePriorities rfl s3 (.remove 20)
  have after := (before.next run4).head
  have sinks := (step ((heapOrdered_iff s3).mp before.head)).mp ((heapOrdered_iff s4).mp after)
  have le : (5 : Int) ≤ 3 := (sinks_iff s3 search4).mp sinks y2 rfl
  exact absurd le (by decide)

end Twcos.Tree
