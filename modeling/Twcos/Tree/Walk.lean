import Twcos.Tree.Balance

/-!
# Walking a tree in memory

The loops that follow links without changing any: to the root (`topOf`, `fixRoot`), to the neighbour of a
node in key order (`node_prev`, `node_next`), over all nodes (`tree_verify`), and to the node with a given
ordinal (`node_ordinal`). Each terminates on a tree in memory and ends where the shape of the tree says.
-/

namespace Twcos.Tree
open Twcos.Prog Twcos.Bin

variable {K V : Type} {m : Mem K V}

/-- Every node of the tree is at some position. -/
lemma exists_position {α : Type} {t : Bin α} {x : α} (h : x ∈ t.cells) :
    ∃ p l r, t = plug p (.node l x r) := by
  induction t with
  | nil => cases h
  | node l y r ihl ihr =>
    rcases (mem_cells_mk (s := .left)).mp h with h | rfl | h
    · obtain ⟨p, l', r', rfl⟩ := ihl h
      exact ⟨p ++ [⟨.left, y, r⟩], l', r', by rw [plug_append]; rfl⟩
    · exact ⟨[], l, r, rfl⟩
    · obtain ⟨p, l', r', rfl⟩ := ihr h
      exact ⟨p ++ [⟨.right, y, l⟩], l', r', by rw [plug_append]; rfl⟩

/-- A tree around one of its nodes. -/
lemma exists_focus {t : Shape K V} {q : Ptr} (h : q ∈ addrs t) :
    ∃ p l x r, t = plug p (.node l x r) ∧ x.addr = q := by
  obtain ⟨x, hx, rfl⟩ := List.mem_map.mp h
  obtain ⟨p, l, r, e⟩ := exists_position hx
  exact ⟨p, l, x, r, e, rfl⟩

/-- A tree around a node is not empty. -/
lemma plug_ne_nil {α : Type} (p : Path α) {t : Bin α} (ht : t ≠ .nil) : plug p t ≠ .nil := by
  induction p generalizing t with
  | nil => exact ht
  | cons f p ih => exact ih (attach_ne_nil f t)

/-- The root of a tree with nodes is not null. -/
lemma root_ne_zero {t : Shape K V} (h : Holds m.node t) (ht : t ≠ .nil) : root t ≠ 0 :=
  fun e => ht (h.rep.root_eq_zero.mp e)

/-! ### Up to the root -/

/-- Following the parents from any node ends at the root. -/
lemma topOf_returns {p : Path (Cell K V)} {t : Shape K V} (h : Holds m.node (plug p t)) (ht : t ≠ .nil) :
    Returns (topOf (root t)) m (root (plug p t)) m := by
  induction p generalizing t with
  | nil => exact .exit (.bind (returns_parentAbove h ht) (.pure _ _))
  | cons f p ih =>
    have h0 : f.elem.addr ≠ 0 := (rep_plug.mp h.rep).1.1
    have up := ih (t := attach f t) h (attach_ne_nil f t)
    rw [root_attach] at up
    exact .turn (.bind (returns_parentAbove h ht) (.ite_neg h0 (.pure _ _))) up

/-- The root is found again from a node. -/
lemma fixRoot_path {p : Path (Cell K V)} {t : Shape K V} (h : Holds m.node (plug p t)) (ht : t ≠ .nil)
    (hr : m.root = root t) : Returns fixRoot m () { m with root := root (plug p t) } := by
  induction p generalizing t m with
  | nil =>
    have test := returns_hasParent h ht
    rw [← hr] at test
    have same : m = { m with root := root (plug [] t) } := by rw [plug, ← hr]
    rw [← same]
    exact .whileExit (.bind (.asks _ _) test)
  | cons f p ih =>
    have test := returns_hasParent h ht
    have up := returns_parentAbove h ht
    rw [← hr] at test up
    have rest := ih (m := { m with root := f.elem.addr }) (t := attach f t) h (attach_ne_nil f t)
      (root_attach f t).symm
    exact .whileTurn (.bind (.asks _ _) test) (.bind (.asks _ _) (.bind up (.update _ _))) rest

/-- The root fix-up finds the root from wherever the root pointer was left. -/
lemma fixRoot_returns {t : Shape K V} (h : Holds m.node t) (hr : m.root ∈ addrs t) :
    Returns fixRoot m () { m with root := root t } := by
  obtain ⟨p, l, x, r, rfl, hx⟩ := exists_focus hr
  exact fixRoot_path h nofun hx.symm

/-! ### Verification -/

/-- What a call of `node_verify` does depends on its own calls. -/
lemma nodeVerifyBody_local (node : Ptr) : Local fun f => nodeVerifyBody (K := K) (V := V) f node := by
  refine .ite (.const _) (.bind (.const _) fun n => .bind (.when ?_) fun _ => .when ?_)
  · exact .bind (.const _) fun l => .bind (.const _) fun _ => .self _
  · exact .bind (.const _) fun r => .bind (.const _) fun _ => .self _

/-- `node_verify` comes to its end. -/
lemma nodeVerify_returns {t : Shape K V} {q : Ptr} (h : Rep m.node t q) :
    Returns (nodeVerify (root t)) m () m := by
  induction t generalizing q with
  | nil => exact .call (nodeVerifyBody_local _) (.ite_pos rfl (.pure _ _))
  | node l x r ihl ihr =>
    obtain ⟨h0, hx, hl, hr⟩ := h
    -- a child that is there points back, and its own subtree verifies
    have child : ∀ {t : Shape K V}, Rep m.node t x.addr → Returns (nodeVerify (root t)) m () m →
        Returns (when (root t ≠ 0) do
          let c ← deref (root t)
          assert (x.addr = c.parent)
          nodeVerify (root t)) m () m := by
      intro t ht hv
      cases t with
      | nil => exact .when_neg fun h => h rfl
      | node l' y r' =>
        exact .when_pos ht.1 (.bind (returns_deref ht.2.1) (.bind (returns_assert rfl) hv))
    refine .call (nodeVerifyBody_local _) (.ite_neg h0 (.bind (returns_deref hx) ?_))
    exact .bind (child hl (ihl hl)) (child hr (ihr hr))

/-- The checks at the root pass. -/
lemma verifyRoot_returns {t : Shape K V} (h : Holds m.node t) (hr : m.root = root t) :
    Returns (do
      let root ← asks Mem.root
      when (root ≠ 0) do
        let n ← deref root
        assert (n.count = (← nodeCount root))
        assert (n.parent = 0)
      nodeVerify root) m () m := by
  refine .bind (.asks _ _) ?_
  rw [hr]
  refine .bind (a := ()) ?_ (nodeVerify_returns h.rep)
  cases t with
  | nil => exact .when_neg fun h => h rfl
  | node l x r =>
    refine .when_pos h.rep.1 (.bind (returns_deref h.rep.2.1) (.bind (returns_nodeCount h.rep) ?_))
    exact .bind (returns_assert rfl) (returns_assert rfl)

/-- `tree_verify(tree, NULL)` passes on a tree in memory. -/
lemma treeVerify_null_returns {t : Shape K V} (h : Holds m.node t) (hr : m.root = root t) :
    Returns (treeVerify 0) m () m :=
  .bind (.when_neg fun h => h rfl) (verifyRoot_returns h hr)

/-- `tree_verify(tree, node)` passes for every node of a tree in memory. -/
lemma treeVerify_returns {p : Path (Cell K V)} {t : Shape K V} (h : Holds m.node (plug p t))
    (ht : t ≠ .nil) (hr : m.root = root (plug p t)) : Returns (treeVerify (root t)) m () m := by
  have h0 : root t ≠ 0 := fun e => ht ((rep_plug.mp h.rep).2.root_eq_zero.mp e)
  refine .bind (.when_pos h0 (.bind (topOf_returns h ht) (.bind (.asks _ _) ?_)))
    (verifyRoot_returns h hr)
  exact returns_assert hr

/-! ### Neighbours -/

/-- The address of a node that may be missing. -/
def addrOf : Option (Cell K V) → Ptr
  | none => 0
  | some x => x.addr

/-- Going down one side comes to the outermost node. -/
lemma descend_returns {s : Side} {t : Shape K V} {q : Ptr} (h : Rep m.node t q) (ht : t ≠ .nil) :
    Returns (descend s (root t)) m (addrOf (outermost s t)) m := by
  induction t generalizing q with
  | nil => exact absurd rfl ht
  | node l x r ihl ihr =>
    obtain ⟨h0, hx, hl, hr⟩ := h
    cases s with
    | left =>
      cases l with
      | nil => exact .exit (.bind (returns_deref hx) (.ite_pos rfl (.pure _ _)))
      | node l1 y l2 =>
        have down := ihl hl nofun
        have found : outermost .left (.node (.node l1 y l2) x r) = outermost .left (.node l1 y l2) := by
          simp only [outermost_left, cells, List.head?_append, List.head?_cons]
          cases l1.cells.head? <;> rfl
        rw [found]
        exact .turn (.bind (returns_deref hx) (.ite_neg hl.1 (.pure _ _))) down
    | right =>
      cases r with
      | nil => exact .exit (.bind (returns_deref hx) (.ite_pos rfl (.pure _ _)))
      | node r1 y r2 =>
        have down := ihr hr nofun
        have found : outermost .right (.node l x (.node r1 y r2)) = outermost .right (.node r1 y r2) := by
          simp only [outermost]
          cases outermost .right r2 <;> rfl
        rw [found]
        exact .turn (.bind (returns_deref hx) (.ite_neg hr.1 (.pure _ _))) down

/-- Going up while on side `s` ends below the neighbour on that side, if there is one. -/
lemma ascend_returns {s : Side} {p : Path (Cell K V)} {t : Shape K V} (h : Holds m.node (plug p t))
    (ht : t ≠ .nil) :
    ∃ q, Returns (ascend s (root t)) m q m ∧
      Returns (do if ← nodeIs s.opp q then parentOf q else return 0) m (addrOf (beside s p)) m := by
  induction p generalizing t with
  | nil =>
    refine ⟨root t, .exit (.bind (returns_nodeIs_top h ht) (.pure _ _)), ?_⟩
    exact .bind (returns_nodeIs_top h ht) (.pure _ _)
  | cons f p ih =>
    have is := returns_nodeIs (s := s) h ht
    have isOpp := returns_nodeIs (s := s.opp) h ht
    have up := returns_parentAbove h ht
    by_cases hs : f.side = s
    · rw [decide_eq_true hs] at is
      obtain ⟨q, hq, ha⟩ := ih (t := attach f t) h (attach_ne_nil f t)
      rw [root_attach] at hq
      refine ⟨q, .turn (.bind is (.bind up (.pure _ _))) hq, ?_⟩
      rwa [beside, if_pos hs]
    · have hs' : f.side = s.opp := by
        cases s <;> cases hf : f.side <;> simp_all [Side.opp]
      rw [decide_eq_false hs] at is
      rw [decide_eq_true hs'] at isOpp
      refine ⟨root t, .exit (.bind is (.pure _ _)), ?_⟩
      rw [beside, if_neg hs]
      exact .bind isOpp up

/-- `node_prev` gives the last node before a node, `node_next` the first one after it. -/
lemma nodeStep_returns {s : Side} {p : Path (Cell K V)} {l r : Shape K V} {x : Cell K V}
    (h : Holds m.node (plug p (.node l x r))) :
    Returns (nodeStep s x.addr) m
      (addrOf ((outermost s.opp (child s (.node l x r))).or (beside s p))) m := by
  obtain ⟨-, -, -, hl, hr⟩ := rep_plug.mp h.rep
  have hc : (record .left x (1 + l.size + r.size) (above p) (root l) (root r)).child s =
      root (child s (.node l x r)) := by cases s <;> rfl
  have hrep : Rep m.node (child s (.node l x r)) x.addr := by
    cases s with
    | left => exact hl
    | right => exact hr
  refine .bind (returns_deref h.top) ?_
  rw [hc]
  by_cases e : child s (.node l x r) = .nil
  · rw [e]
    obtain ⟨q, hq, ha⟩ := ascend_returns (s := s) h nofun
    exact .ite_neg (fun h => h rfl) (.bind hq ha)
  · obtain ⟨y, hy⟩ := exists_outermost s.opp e
    rw [hy, Option.some_or, ← hy]
    exact .ite_pos (fun e0 => e (hrep.root_eq_zero.mp e0)) (descend_returns hrep e)

/-- The node before. -/
lemma nodePrev_returns {p : Path (Cell K V)} {l r : Shape K V} {x : Cell K V}
    (h : Holds m.node (plug p (.node l x r))) :
    Returns (nodePrev x.addr) m (addrOf ((around p).1 ++ l.cells).getLast?) m := by
  have step := nodeStep_returns (s := .left) h
  rwa [Side.opp, outermost_right, beside_left, child, ← List.getLast?_append] at step

/-- The next node. -/
lemma nodeNext_returns {p : Path (Cell K V)} {l r : Shape K V} {x : Cell K V}
    (h : Holds m.node (plug p (.node l x r))) :
    Returns (nodeNext x.addr) m (addrOf (r.cells ++ (around p).2).head?) m := by
  have step := nodeStep_returns (s := .right) h
  rwa [Side.opp, outermost_left, beside_right, child, ← List.head?_append] at step

/-! ### Ordinals -/

/-- The loop of `node_ordinal` finds the node with `i` nodes before it. -/
lemma ordinalLoop_returns {p : Path (Cell K V)} {t : Shape K V} {i : Nat} (h : Holds m.node (plug p t))
    (hi : i < t.size) :
    ∃ q l x r, t = plug q (.node l x r) ∧ (around q).1.length + l.size = i ∧
      Returns (ordinalLoop (root t) i) m x.addr m := by
  induction t generalizing p i with
  | nil => exact absurd hi (Nat.not_lt_zero i)
  | node l x r ihl ihr =>
    obtain ⟨-, h0, -, hl, hr⟩ := rep_plug.mp h.rep
    have count := returns_nodeCount hl
    rw [size] at hi
    rcases Nat.lt_trichotomy i l.size with lt | rfl | gt
    · obtain ⟨q, l', y, r', rfl, hq, found⟩ := ihl (p := ⟨.left, x, r⟩ :: p) h lt
      refine ⟨q ++ [⟨.left, x, r⟩], l', y, r', by rw [plug_append]; rfl, ?_, ?_⟩
      · rw [around_append]
        exact hq
      · refine .turn (.ite_neg h0 (.bind (returns_deref h.top) (.bind count ?_))) found
        exact .ite_pos (Int.ofNat_lt.mpr lt) (.pure _ _)
    · refine ⟨[], l, x, r, rfl, Nat.zero_add _, ?_⟩
      refine .exit (.ite_neg h0 (.bind (returns_deref h.top) (.bind count ?_)))
      exact .ite_neg (lt_irrefl _) (.ite_pos rfl (.pure _ _))
    · have rest : ((i - (l.size + 1) : Nat) : Int) = i - (l.size + 1) := by omega
      obtain ⟨q, l', y, r', rfl, hq, found⟩ := ihr (p := ⟨.right, x, l⟩ :: p) (i := i - (l.size + 1)) h
        (by omega)
      rw [rest] at found
      refine ⟨q ++ [⟨.right, x, l⟩], l', y, r', by rw [plug_append]; rfl, ?_, ?_⟩
      · simp only [around_append, around, List.nil_append, List.length_append, List.length_singleton,
          length_cells]
        omega
      · refine .turn (.ite_neg h0 (.bind (returns_deref h.top) (.bind count ?_))) found
        exact .ite_neg (by omega) (.ite_neg (by omega) (.pure _ _))

/-- `node_ordinal` finds the node with `i` nodes of its subtree before it. -/
lemma nodeOrdinal_returns {p : Path (Cell K V)} {t : Shape K V} {i : Nat} (h : Holds m.node (plug p t))
    (hi : i < t.size) :
    ∃ q l x r, t = plug q (.node l x r) ∧ (around q).1.length + l.size = i ∧
      Returns (nodeOrdinal (root t) i) m x.addr m := by
  obtain ⟨q, l, x, r, ht, hq, found⟩ := ordinalLoop_returns h hi
  refine ⟨q, l, x, r, ht, hq, ?_⟩
  cases t with
  | nil => exact absurd hi (Nat.not_lt_zero i)
  | node l' y r' =>
    refine .bind (returns_deref h.top) (.bind (.check ?_) found)
    rw [record_count]
    rw [size] at hi
    omega

end Twcos.Tree
