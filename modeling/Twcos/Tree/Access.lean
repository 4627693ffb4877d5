import Twcos.Tree.Lookup

/-!
# The root of a splay tree

`node_splay` brings the node to the top, whatever the way up is: each turn takes one or two links off it, and what is left
is again a tree with correct links and counts and the same nodes in order (`nodeSplay_returns`). So `tree_put` leaves a
new node at the root, and `tree_get_node` the node that it has found.
-/

namespace Twcos.Tree
open Twcos.Prog Twcos.Bin Twcos.Assoc

variable {K V : Type} {m : Mem K V} {u : Shape K V} {t : TreeT K} {key : K}

/-- `node_splay` brings a node to the top. -/
lemma nodeSplay_top (h : Holds m.node u) {x : Cell K V} (mem : x ∈ u.cells) : ∃ g u',
    Returns (nodeSplay x.addr) m () { m with node := g } ∧ Holds g u' ∧ root u' = x.addr ∧ u'.cells = u.cells := by
  obtain ⟨p, l, r, rfl⟩ := exists_position mem
  obtain ⟨g, run, holds⟩ := nodeSplay_returns h node_ne_nil
  exact ⟨g, _, run, holds, root_splayUp p node_ne_nil, splayUp_cells p _⟩

/-- `tree_put` on a splay tree brings the new node to the top. -/
lemma treePut_top [Zero V] (env : Env K V) (data : V) (mode : t.mode = .splay) (h : Stores m u)
    (new : ∀ x ∈ u.cells, t.comp key x.key ≠ 0) : ∃ m' x u', Returns (treePut env t key data) m 0 m' ∧
      Stores m' u' ∧ m'.root = x.addr ∧ x ∈ u'.cells ∧
      ∃ l r, bindings u = l ++ r ∧ x.binding = (key, data) ∧ bindings u' = l ++ x.binding :: r := by
  rcases treeSearch_returns t key h with ⟨q, l, x, r, rfl, equal, -⟩ | ⟨q, rfl, -, search⟩
  · refine absurd equal (new x ?_)
    rw [plug_cells, cells]
    simp
  · obtain ⟨m', x, run, binding, -, stores⟩ := treePut_new env data h search
    rw [mode, balanced] at stores
    have same := splayUp_cells q (.node .nil x .nil)
    have top : root (splayUp q (.node .nil x .nil)) = x.addr := root_splayUp q node_ne_nil
    refine ⟨m', x, _, run, stores, stores.root.trans top, ?_, before q, after q, bindings_gap q, binding, ?_⟩
    · rw [same, plug_cells, cells]
      simp
    · rw [bindings, same, ← bindings, bindings_focus]
      simp [bindings, cells]

/-- With an order on the keys, the search ends at the node with an equal key. -/
lemma treeGetNode_top (hc : SignPreorder t.comp) (mode : t.mode = .splay) (h : Stores m u) (ordered : Ordered t.comp (bindings u))
    {cond : MapEqTest} (hit : Exact cond) {x : Cell K V} (mem : x ∈ u.cells) (equal : t.comp key x.key = 0) :
    ∃ m' u', Returns (treeGetNode t key cond) m x.addr m' ∧ Stores m' u' ∧ m'.root = x.addr ∧ u'.cells = u.cells := by
  obtain ⟨A, y, B, place, m', u', run, stores, same, -, top⟩ := treeGetNode_ends t key cond h
  have picked := place.pick_eq hc ordered .eq
  have found : y = some x := by
    cases y with
    | none => exact absurd equal (pick_none picked x mem)
    | some y =>
      -- another node would be before it or behind it
      have order : u.cells.Pairwise fun a b => t.comp a.key b.key < 0 := List.pairwise_map.mp ordered
      obtain ⟨equal', only⟩ := pick_some picked order
      rcases only x mem equal with same | behind
      · rw [same]
      · have zero := hc.equiv_trans (hc.symm equal') equal
        have behind : t.comp y.key x.key < 0 := behind
        omega
  subst found
  have result : pickAround A (some x) B cond = some x := by
    cases cond with
    | lt => exact absurd rfl hit.1
    | gt => exact absurd rfl hit.2
    | le => rfl
    | eq => rfl
    | ge => rfl
  rw [result] at run
  exact ⟨m', u', run, stores, stores.root.trans (top mode hit x rfl), same⟩

/-- On every tree with correct links and counts, `node_splay` ends with the node at the root, and leaves such a tree with the
    same nodes in order. In a splay tree, the root is the new node after `tree_put` with a key that is not equal to any,
    and the node that is found after a lookup that hits. -/
theorem nodeSplay_root [Zero V] (comp : K → K → Int) (m : Mem K V) (u : Shape K V) (h : Stores m u) :
    (∀ x ∈ u.cells, ∃ g u', Returns (nodeSplay x.addr) m () { m with node := g } ∧ Holds g u' ∧ root u' = x.addr ∧
      u'.cells = u.cells) ∧
    (∀ (env : Env K V) (key : K) (data : V), (∀ x ∈ u.cells, comp key x.key ≠ 0) →
      ∃ m' x u', Returns (treePut env ⟨.splay, comp⟩ key data) m 0 m' ∧ Stores m' u' ∧ m'.root = x.addr ∧ x ∈ u'.cells ∧
        ∃ l r, bindings u = l ++ r ∧ x.binding = (key, data) ∧ bindings u' = l ++ x.binding :: r) ∧
    (SignPreorder comp → Ordered comp (bindings u) → ∀ (key : K) (cond : MapEqTest), cond = .eq ∨ cond = .le ∨ cond = .ge →
      ∀ x ∈ u.cells, comp key x.key = 0 → ∃ m' u', Returns (treeGetNode ⟨.splay, comp⟩ key cond) m x.addr m' ∧
        Stores m' u' ∧ m'.root = x.addr ∧ u'.cells = u.cells) := by
  refine ⟨fun x mem => nodeSplay_top h.holds mem, fun env key data new => treePut_top env data rfl h new,
    fun hc ordered key cond hit x mem equal => treeGetNode_top hc rfl h ordered ?_ mem equal⟩
  rcases hit with rfl | rfl | rfl <;> exact ⟨by decide, by decide⟩

/-- The keys 10, 20 and 30, with 20 at the root, and a search for the last key that is not above 10. -/
theorem nodeSplay_root_threeNodes : Stores (threeNodes 1 3 1) threeShape ∧
    ∃ m' u', Returns (treeGetNode ⟨.splay, mapKeycmp⟩ 10 .le) (threeNodes 1 3 1) 1 m' ∧ Stores m' u' ∧ m'.root = 1 ∧
      u'.cells = threeShape.cells :=
  ⟨stores_threeNodes, (nodeSplay_root mapKeycmp _ _ stores_threeNodes).2.2 mapKeycmp_signPreorder ordered_threeShape 10 .le
    (.inr (.inl rfl)) ⟨1, 10, 100, 0⟩ List.mem_cons_self (by decide)⟩

end Twcos.Tree
