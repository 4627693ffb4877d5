import Twcos.Tree.Walk

/-!
# Linking in and taking out nodes

What the parts of `tree_put`, `tree_remove` and `tree_optimize` behind the search do to a tree in memory:
linking in a leaf and rebalancing, bubbling a node down and unlinking it, rebuilding the tree. Each is
described by its effect on the entries of the tree in key order.
-/

namespace Twcos.Tree
open Twcos.Prog Twcos.Bin

variable {K V : Type} {m : Mem K V}

/-- What a node binds. -/
def Cell.binding (x : Cell K V) : K × V := (x.key, x.data)

/-- A node without its priority. -/
def Cell.entry (x : Cell K V) : Ptr × K × V := (x.addr, x.binding)

/-- The nodes in order, without their priorities. -/
def entries (t : Shape K V) : List (Ptr × K × V) := t.cells.map Cell.entry

/-- The bindings in order. -/
def bindings (t : Shape K V) : List (K × V) := t.cells.map Cell.binding

/-- The bindings before a position. -/
def before (p : Path (Cell K V)) : List (K × V) := (around p).1.map Cell.binding

/-- The bindings after a position. -/
def after (p : Path (Cell K V)) : List (K × V) := (around p).2.map Cell.binding

/-- The memory holds the tree, and the root pointer points to it. -/
structure Stores (m : Mem K V) (t : Shape K V) : Prop where
  holds : Holds m.node t
  root : m.root = root t

/-- The addresses depend on the entries. -/
lemma addrs_of_entries {t t' : Shape K V} (h : entries t = entries t') : addrs t = addrs t' := by
  have fst := congrArg (List.map Prod.fst) h
  rwa [entries, entries, List.map_map, List.map_map] at fst

/-- The bindings depend on the entries. -/
lemma bindings_of_entries {t t' : Shape K V} (h : entries t = entries t') :
    bindings t = bindings t' := by
  have snd := congrArg (List.map Prod.snd) h
  rwa [entries, entries, List.map_map, List.map_map] at snd

/-- The entries depend on the cells. -/
lemma entries_of_cells {t t' : Shape K V} (h : t.cells = t'.cells) : entries t = entries t' :=
  congrArg (List.map _) h

/-- There are as many entries as nodes. -/
@[simp] lemma length_entries (t : Shape K V) : (entries t).length = t.size := by
  rw [entries, List.length_map, length_cells]

/-- The entries of a node. -/
lemma entries_node (l : Shape K V) (x : Cell K V) (r : Shape K V) :
    entries (.node l x r) = entries l ++ x.entry :: entries r := by
  simp only [entries, cells, List.map_append, List.map_cons]

/-- The entries of a tree around a subtree. -/
lemma entries_plug (p : Path (Cell K V)) (t : Shape K V) :
    entries (plug p t) = (around p).1.map Cell.entry ++ entries t ++ (around p).2.map Cell.entry := by
  simp only [entries, plug_cells, List.map_append]

/-- The bindings of a tree around a subtree. -/
lemma bindings_plug (p : Path (Cell K V)) (t : Shape K V) :
    bindings (plug p t) = before p ++ bindings t ++ after p := by
  simp only [bindings, before, after, plug_cells, List.map_append]

/-- The bindings of a node. -/
lemma bindings_node (l : Shape K V) (x : Cell K V) (r : Shape K V) :
    bindings (.node l x r) = bindings l ++ x.binding :: bindings r := by
  simp only [bindings, cells, List.map_append, List.map_cons]

/-- The bindings seen from a node. -/
lemma bindings_focus (p : Path (Cell K V)) (l : Shape K V) (x : Cell K V) (r : Shape K V) :
    bindings (plug p (.node l x r)) =
      (before p ++ bindings l) ++ x.binding :: (bindings r ++ after p) := by
  rw [bindings_plug, bindings_node]
  simp only [List.append_assoc, List.cons_append]

/-- The bindings seen from a place with no node. -/
lemma bindings_gap (p : Path (Cell K V)) : bindings (plug p .nil) = before p ++ after p := by
  have nil : bindings (.nil : Shape K V) = [] := rfl
  rw [bindings_plug, nil, List.append_nil]

/-- Another subtree with the same root. -/
lemma root_plug_congr (p : Path (Cell K V)) {t t' : Shape K V} (h : root t = root t') :
    root (plug p t) = root (plug p t') := by
  induction p generalizing t t' with
  | nil => exact h
  | cons f p ih => exact ih (by rw [root_attach, root_attach])

/-- Below the root, the root does not depend on the subtree. -/
lemma root_plug_cons (f : Frame (Cell K V)) (p : Path (Cell K V)) (t t' : Shape K V) :
    root (plug (f :: p) t) = root (plug (f :: p) t') :=
  root_plug_congr p (by rw [root_attach, root_attach])

/-! ### Counting along a path -/

/-- Counting a node in or out at all nodes above a position. -/
lemma countPath_returns {p : Path (Cell K V)} {r : Ptr} {n k : Nat} {d : Int}
    (h : RepPath m.node p r n) (hd : (pathAddrs p).Nodup) (hk : (k : Int) = n + d) :
    ∃ g, Returns (countPath d (above p)) m () { m with node := g } ∧ RepPath g p r k ∧
      ∀ q, q ∉ pathAddrs p → g q = m.node q := by
  induction p generalizing m r n k with
  | nil => exact ⟨m.node, .exit (.ite_pos rfl (.pure _ _)), trivial, fun _ _ => rfl⟩
  | cons f p ih =>
    obtain ⟨h0, hf, hs, hp⟩ := h
    simp only [pathAddrs_cons, List.cons_append, List.nodup_cons, List.mem_append, List.nodup_append,
      not_or] at hd
    obtain ⟨⟨fs, fp⟩, -, dp, dsp⟩ := hd
    let m1 := m.modify f.elem.addr fun n => { n with count := n.count + d }
    have hf1 : m1.node f.elem.addr =
        some (record f.side f.elem (1 + k + f.sibling.size) (above p) r (root f.sibling)) := by
      refine (modify_self hf).trans (congrArg some (record_setCount ?_))
      rw [record_count]
      omega
    have hp1 : RepPath m1.node p f.elem.addr (1 + n + f.sibling.size) :=
      hp.frame fun q hq => modify_ne fun e => fp (e ▸ hq)
    obtain ⟨g, hr, hg, keep⟩ := ih (k := 1 + k + f.sibling.size) hp1 dp (by omega)
    refine ⟨g, ?_, ⟨h0, ?_, hs.frame ?_, hg⟩, ?_⟩
    · have up := returns_parentOf hf1
      rw [record_parent] at up
      refine .turn (.ite_neg h0 (.bind (returns_store ?_) (.bind up (.pure _ _)))) hr
      exact Option.isSome_iff_exists.mpr ⟨_, hf⟩
    · rw [keep _ fp, hf1]
    · intro q hq
      rw [keep q fun hm => dsp q hq q hm rfl]
      exact modify_ne fun e => fs (e ▸ hq)
    · intro q hq
      simp only [pathAddrs_cons, List.cons_append, List.mem_cons, List.mem_append, not_or] at hq
      rw [keep q hq.2.2]
      exact modify_ne hq.1

/-! ### Linking in a leaf -/

/-- `tree_node_new` makes a leaf in a slot that was free, counted in above but not linked yet. -/
lemma treeNodeNew_returns (env : Env K V) {p : Path (Cell K V)} (key : K) (data : V)
    (h : Holds m.node (plug p .nil)) :
    ∃ x g, Returns (treeNodeNew env (above p) key data) m (Cell.addr x)
        { m with node := g, allocs := m.allocs + 1 } ∧
      x.key = key ∧ x.data = data ∧ x.addr ≠ 0 ∧ x.addr ∉ pathAddrs p ∧ RepPath g p 0 1 ∧
      g x.addr = some (record .left x 1 (above p) 0 0) ∧
      ∀ q, q ∉ pathAddrs p → q ≠ x.addr → g q = none := by
  obtain ⟨hq0, hq⟩ := env.slot_free m.allocs m.node (addrs (plug p .nil)) h.rest
  obtain ⟨hp, -⟩ := rep_plug.mp h.rep
  obtain ⟨dp, -, -⟩ := nodup_plug.mp h.nodup
  let x : Cell K V := ⟨env.slot m.allocs m.node, key, data, env.junk m.allocs⟩
  let m1 : Mem K V :=
    { m with
      node := fun q => if q = x.addr then some ⟨key, data, 1, x.priority, above p, 0, 0⟩ else m.node q
      allocs := m.allocs + 1 }
  have fresh : x.addr ∉ pathAddrs p := by
    intro hm
    obtain ⟨p', l, y, r, e, hy⟩ := exists_focus (mem_addrs_plug.mpr (.inl hm))
    rw [e] at h
    have used := h.top
    rw [hy] at used
    exact Option.some_ne_none _ (used.symm.trans hq)
  have hp1 : RepPath m1.node p 0 0 := by
    refine RepPath.frame hp fun q hm => if_neg ?_
    rintro rfl
    exact fresh hm
  obtain ⟨g, hr, hg, keep⟩ := countPath_returns (d := 1) (k := 1) hp1 dp rfl
  refine ⟨x, g, ?_, rfl, rfl, hq0, fresh, hg, ?_, ?_⟩
  · exact .bind (.asks _ _) (.bind (.asks _ _) (.bind (.update _ _) (.bind hr (.pure _ _))))
  · rw [keep _ fresh]
    exact if_pos rfl
  · intro q hm hne
    rw [keep q hm]
    refine (if_neg hne).trans (h.rest q fun hq => ?_)
    rcases mem_addrs_plug.mp hq with hq | hq
    · exact hm hq
    · cases hq

/-- The link that leads to a position. -/
def linkAbove : Path (Cell K V) → Link
  | [] => .root
  | f :: _ => .child f.elem.addr f.side

/-- Writing a child. -/
lemma setChild_record (s : Side) (x : Cell K V) (n : Nat) (q a a' b : Ptr) :
    (record s x n q a b).setChild s a' = record s x n q a' b := by cases s <;> rfl

/-- Linking in the new leaf completes the tree; the root pointer points into it. -/
lemma link_returns {p : Path (Cell K V)} {x : Cell K V} (h0 : x.addr ≠ 0) (hx : x.addr ∉ pathAddrs p)
    (dp : (pathAddrs p).Nodup) (hp : RepPath m.node p 0 1)
    (hl : m.node x.addr = some (record .left x 1 (above p) 0 0))
    (hrest : ∀ q, q ∉ pathAddrs p → q ≠ x.addr → m.node q = none)
    (hr : m.root = root (plug p .nil)) :
    ∃ m', Returns ((linkAbove p).set x.addr) m () m' ∧ Holds m'.node (plug p (.node .nil x .nil)) ∧
      m'.root ∈ addrs (plug p (.node .nil x .nil)) ∧ m'.allocs = m.allocs := by
  have leaf : addrs (.node .nil x .nil : Shape K V) = [x.addr] := rfl
  have nodup : (addrs (plug p (.node .nil x .nil))).Nodup := by
    rw [nodup_plug, leaf]
    exact ⟨dp, List.pairwise_singleton _ _, fun q hq hm => hx (List.mem_singleton.mp hm ▸ hq)⟩
  have none_of : ∀ q, q ∉ addrs (plug p (.node .nil x .nil)) → m.node q = none := by
    intro q hq
    rw [mem_addrs_plug, leaf, List.mem_singleton, not_or] at hq
    exact hrest q hq.1 hq.2
  cases p with
  | nil =>
    refine ⟨{ m with root := x.addr }, .update _ _, ⟨⟨h0, hl, trivial, trivial⟩, nodup, none_of⟩, ?_, rfl⟩
    exact List.mem_singleton.mpr rfl
  | cons f p =>
    have hf := hp.2.1
    let m' := m.modify f.elem.addr fun n => n.setChild f.side x.addr
    have hf' : m'.node f.elem.addr =
        some (record f.side f.elem (1 + 1 + f.sibling.size) (above p) x.addr (root f.sibling)) :=
      (modify_self hf).trans (congrArg some (setChild_record _ _ _ _ _ _ _))
    have hp' : RepPath m'.node (f :: p) x.addr 1 := hp.relink dp hf' fun q _ hne => modify_ne hne
    have xf : x.addr ≠ f.elem.addr := fun e => hx (by rw [e, pathAddrs_cons]; exact List.mem_cons_self)
    have hl' : m'.node x.addr = some (record .left x 1 f.elem.addr 0 0) := (modify_ne xf).trans hl
    have rep : Rep m'.node (plug (f :: p) (.node .nil x .nil)) 0 :=
      rep_plug.mpr ⟨hp', h0, hl', trivial, trivial⟩
    refine ⟨m', returns_store ?_, ⟨rep, nodup, ?_⟩, ?_, rfl⟩
    · exact Option.isSome_iff_exists.mpr ⟨_, hf⟩
    · exact fun q hq => modify_empty (none_of q hq)
    · have same : m'.root = root (plug (f :: p) (.node .nil x .nil)) :=
        hr.trans (root_plug_cons f p _ _)
      rw [same]
      refine root_mem fun e => ?_
      have ne : plug (f :: p) (.node .nil x .nil) ≠ .nil := plug_ne_nil (f :: p) node_ne_nil
      exact ne (rep.root_eq_zero.mp e)

/-- The tree that the balancing step of `tree_put` leaves, where `priority` is that of a new treap node. -/
def balanced (mode : Treemode) (priority : Int) (p : Path (Cell K V)) (x : Cell K V) : Shape K V :=
  match mode with
  | .splay => splayUp p (.node .nil x .nil)
  | .treap => siftUp p (.node .nil { x with priority := priority } .nil)
  | .count => countUp p (.node .nil x .nil)
  | .default => simpleUp p (.node .nil x .nil)

/-- Whatever the mode, the balancing step keeps the entries. -/
lemma balanced_entries (mode : Treemode) (priority : Int) (p : Path (Cell K V)) (x : Cell K V) :
    entries (balanced mode priority p x) = entries (plug p (.node .nil x .nil)) := by
  cases mode with
  | splay => exact entries_of_cells (splayUp_cells _ _)
  | treap =>
    rw [balanced, entries_of_cells (siftUp_cells _ _), entries_plug, entries_plug, entries_node, entries_node]
    rfl
  | count => exact entries_of_cells (countUp_cells _ _)
  | default => exact entries_of_cells (simpleUp_cells _ _)

/-- What each mode does with a new node. -/
lemma balance_returns (env : Env K V) (t : TreeT K) {p : Path (Cell K V)} {x : Cell K V}
    (h : Holds m.node (plug p (.node .nil x .nil))) :
    ∃ g, Returns (balance env t x.addr) m () { m with node := g } ∧
      Holds g (balanced t.mode (env.priority m.allocs x.addr) p x) := by
  unfold balance
  cases t.mode with
  | splay => exact nodeSplay_returns h node_ne_nil
  | treap =>
    obtain ⟨g, hr, hg⟩ := nodePrioritize_returns (env.priority m.allocs x.addr) h
    exact ⟨g, .bind (.asks _ _) hr, hg⟩
  | count => exact nodeCountBalance_returns h node_ne_nil
  | default => exact nodeSimpleBalance_returns h node_ne_nil

/-- The end of `tree_put`: the root pointer is repaired after the balancing step. -/
lemma repairRoot_returns {u : Shape K V} {q : Ptr} (h : Holds m.node u) (hq : q ∈ addrs u)
    (hr : m.root ∈ addrs u) :
    ∃ m', Returns (repairRoot q) m () m' ∧ Stores m' u ∧ m'.allocs = m.allocs := by
  refine ⟨{ m with root := root u }, ?_, ⟨h, rfl⟩, rfl⟩
  obtain ⟨p, l, x, r, rfl, rfl⟩ := exists_focus hq
  by_cases e : above p = 0
  · refine .bind (returns_parentOf h.top) (.bind (.when_pos e (.update _ _)) ?_)
    exact fixRoot_returns (m := { m with root := x.addr }) h hq
  · refine .bind (returns_parentOf h.top) (.bind (.when_neg e) ?_)
    exact fixRoot_returns h hr

/-! ### Taking out a node -/

/-- The root pointer is moved when a rotation has put another node on top. -/
lemma bubbleRoot_returns {f : Frame (Cell K V)} {p : Path (Cell K V)} {t : Shape K V}
    (h : Holds m.node (plug (f :: p) t)) (ht : t ≠ .nil)
    (hr : p ≠ [] → m.root = root (plug (f :: p) t)) :
    Returns (do
        let parent ← parentOf (root t)
        let above ← parentOf parent
        when (above = 0) do update fun m => { m with root := parent }) m ()
      { m with root := root (plug (f :: p) t) } := by
  have h' : Holds m.node (plug p (attach f t)) := h
  have up := returns_parentAbove h' (attach_ne_nil f t)
  rw [root_attach] at up
  refine .bind (returns_parentAbove h ht) (.bind up ?_)
  cases p with
  | nil =>
    have top : root (plug [f] t) = f.elem.addr := root_attach f t
    rw [top]
    exact .when_pos rfl (.update _ _)
  | cons f' p =>
    have h0 : f'.elem.addr ≠ 0 := (rep_plug.mp h.rep).1.2.2.2.1
    have same : m = { m with root := root (plug (f :: f' :: p) t) } := by rw [← hr nofun]
    rw [← same]
    exact .when_neg h0

/-- One rotation of the bubbling loop: the node goes below its left child, or below its right child if
    there is no left one. The tree without the node stays the same. -/
lemma bubbleRotate_returns {p : Path (Cell K V)} {l r : Shape K V} {x : Cell K V}
    (h : Holds m.node (plug p (.node l x r))) (hc : l ≠ .nil ∨ r ≠ .nil) :
    ∃ g f l' r', Returns (bubbleRotate x.addr) m () { m with node := g } ∧
      Holds g (plug (f :: p) (.node l' x r')) ∧ l'.size + r'.size < l.size + r.size ∧
      plug (f :: p) (graft l' r') = plug p (graft l r) := by
  have hl := (rep_plug.mp h.rep).2.2.2.1
  cases l with
  | node a y c =>
    obtain ⟨g, hr, hg⟩ := nodeRotate_returns (s := .right) (a := r) (x := x) (c := c) (y := y) (e := a) h
    refine ⟨g, ⟨.right, y, a⟩, c, r, ?_, hg, ?_, rfl⟩
    · exact .bind (returns_deref h.top) (.ite_pos hl.1 hr)
    · simp only [size]
      omega
  | nil =>
    cases r with
    | nil => exact absurd rfl (hc.resolve_left fun h => h rfl)
    | node c y e =>
      obtain ⟨g, hr, hg⟩ := nodeRotate_returns (s := .left) (a := .nil) (x := x) (c := c) (y := y) (e := e) h
      refine ⟨g, ⟨.left, y, e⟩, .nil, c, ?_, hg, ?_, rfl⟩
      · exact .bind (returns_deref h.top) (.ite_neg (fun h => h rfl) hr)
      · simp only [size]
        omega

/-- Asking whether a node has a child. -/
lemma returns_hasChild {p : Path (Cell K V)} {l r : Shape K V} {x : Cell K V} {b : Bool}
    (h : Holds m.node (plug p (.node l x r))) (hb : b = true ↔ l ≠ .nil ∨ r ≠ .nil) :
    Returns (hasChild x.addr) m b m := by
  obtain ⟨-, -, -, hl, hr⟩ := rep_plug.mp h.rep
  have test : decide (root l ≠ 0 ∨ root r ≠ 0) = b := by
    rw [Bool.eq_iff_iff, decide_eq_true_iff, hb, Ne, hl.root_eq_zero, Ne, hr.root_eq_zero]
  rw [← test]
  exact .bind (returns_deref h.top) (.pure _ _)

/-- Bubbling a node down makes it a leaf of the tree in which its right subtree hangs below the last node of the left
    one. -/
lemma bubbleDown_returns {p : Path (Cell K V)} {l r : Shape K V} {x : Cell K V}
    (h : Stores m (plug p (.node l x r))) :
    ∃ m' q, Returns (bubbleDown x.addr) m () m' ∧ Stores m' (plug q (.node .nil x .nil)) ∧
      plug q .nil = plug p (graft l r) := by
  -- on the number of nodes below
  induction k : l.size + r.size using Nat.strong_induction_on generalizing m p l r with
  | _ k ih =>
    subst k
    by_cases hc : l ≠ .nil ∨ r ≠ .nil
    · obtain ⟨g, f, l', r', turn, hg, less, same⟩ := bubbleRotate_returns h.holds hc
      have move := bubbleRoot_returns (m := { m with node := g }) hg nofun fun hp => by
        obtain ⟨f', p', rfl⟩ := List.exists_cons_of_ne_nil hp
        exact h.root.trans (root_plug_cons f' p' _ _)
      have hs : Stores { m with node := g, root := root (plug (f :: p) (.node l' x r')) }
        (plug (f :: p) (.node l' x r')) := ⟨hg, rfl⟩
      obtain ⟨m', q, rest, hm, shape⟩ := ih _ less hs rfl
      refine ⟨m', q, ?_, hm, shape.trans same⟩
      exact .whileTurn (returns_hasChild h.holds (by simpa using hc)) (.bind turn move) rest
    · simp only [not_or, not_not] at hc
      obtain ⟨rfl, rfl⟩ := hc
      exact ⟨m, p, .whileExit (returns_hasChild h.holds (by simp)), h, rfl⟩

/-- Clearing the link to a node. -/
lemma clearLinks_returns {f : Frame (Cell K V)} {p : Path (Cell K V)} {t : Shape K V}
    (h : Holds m.node (plug (f :: p) t)) (ht : t ≠ .nil) :
    Returns (clearLinks (root t) f.elem.addr) m () (m.modify f.elem.addr fun n => n.setChild f.side 0) := by
  have h0 : root t ≠ 0 := fun e => ht ((rep_plug.mp h.rep).2.root_eq_zero.mp e)
  have hs : root t ≠ root f.sibling := by
    intro e
    apply (nodup_plug.mp h.nodup).2.2 (root t) _ (root_mem h0)
    rw [e, pathAddrs_cons]
    exact List.mem_append_left _ (List.mem_cons_of_mem _ (root_mem (e ▸ h0)))
  have hf := h.parent
  have some_f : (m.node f.elem.addr).isSome := Option.isSome_iff_exists.mpr ⟨_, hf⟩
  obtain ⟨s, y, b⟩ := f
  refine .when_pos (rep_plug.mp h.rep).1.1 (.bind (returns_deref hf) ?_)
  cases s with
  | left =>
    refine .bind (.when_pos rfl (returns_store some_f)) (.bind (returns_deref (modify_self hf)) ?_)
    exact .when_neg hs
  | right =>
    exact .bind (.when_neg hs) (.bind (returns_deref hf) (.when_pos rfl (returns_store some_f)))

/-- The part of `node_unlink_leaf` before the counts: nothing links to the leaf any more. -/
lemma unlinkLeaf_links {p : Path (Cell K V)} {x : Cell K V} (h : Stores m (plug p (.node .nil x .nil))) :
    ∃ m1, RepPath m1.node p 0 1 ∧ m1.root = root (plug p .nil) ∧ (∀ q, q ∉ pathAddrs p → m1.node q = m.node q) ∧
      ∀ m2, Returns (do countPath (-1) (above p); slabFree x.addr) m1 () m2 → Returns (unlinkLeaf x.addr) m () m2 := by
  obtain ⟨hp, -, hx, -, -⟩ := rep_plug.mp h.holds.rep
  obtain ⟨dp, -, -⟩ := nodup_plug.mp h.holds.nodup
  cases p with
  | nil =>
    refine ⟨{ m with root := 0 }, trivial, rfl, fun _ _ => rfl, fun m2 h2 => ?_⟩
    refine .bind (returns_deref hx) (.bind (returns_assert rfl) (.bind (.when_neg fun h => h rfl) ?_))
    exact .bind (.when_pos rfl (.update _ _)) h2
  | cons f p =>
    have clear := clearLinks_returns h.holds nofun
    have hf := (modify_self (f := fun n => n.setChild f.side 0) hp.2.1).trans
      (congrArg some (setChild_record _ _ _ _ _ _ _))
    refine ⟨_, hp.relink dp hf fun q _ hne => modify_ne hne, ?_, ?_, fun m2 h2 => ?_⟩
    · exact h.root.trans (root_plug_cons f p _ _)
    · intro q hq
      apply modify_ne
      rintro rfl
      exact hq (by rw [pathAddrs_cons]; exact List.mem_cons_self)
    · refine .bind (returns_deref hx) (.bind (returns_assert rfl) (.bind clear ?_))
      exact .bind (.when_neg hp.1) h2

/-- Unlinking a leaf takes it out of the tree and frees its slot. -/
lemma unlinkLeaf_returns {p : Path (Cell K V)} {x : Cell K V}
    (h : Stores m (plug p (.node .nil x .nil))) :
    ∃ m', Returns (unlinkLeaf x.addr) m () m' ∧ Stores m' (plug p .nil) := by
  obtain ⟨dp, -, dpx⟩ := nodup_plug.mp h.holds.nodup
  have xp : x.addr ∉ pathAddrs p := fun hm => dpx _ hm (List.mem_singleton.mpr rfl)
  have rest : ∀ q, q ∉ pathAddrs p → q ≠ x.addr → m.node q = none := by
    intro q hq hne
    apply h.holds.rest
    rw [mem_addrs_plug]
    rintro (hm | hm)
    · exact hq hm
    · exact hne (List.mem_singleton.mp hm)
  obtain ⟨m1, hp1, hr1, keep1, run⟩ := unlinkLeaf_links h
  obtain ⟨g, hc, hg, keep⟩ := countPath_returns (d := -1) (k := 0) hp1 dp rfl
  let g' := fun q => if q = x.addr then none else g q
  have hg' : RepPath g' p 0 0 := by
    refine hg.frame fun q hq => if_neg ?_
    rintro rfl
    exact xp hq
  refine ⟨{ m1 with node := g' }, run _ (.bind hc (.update _ _)), ⟨?_, ?_, ?_⟩, hr1⟩
  · exact rep_plug.mpr ⟨hg', trivial⟩
  · rw [nodup_plug]
    exact ⟨dp, List.nodup_nil, fun _ _ => List.not_mem_nil⟩
  · intro q hq
    rw [mem_addrs_plug, not_or] at hq
    by_cases e : q = x.addr
    · exact if_pos e
    · exact (if_neg e).trans (by rw [keep q hq.1, keep1 q hq.1, rest q hq.1 e])

/-! ### Rebuilding the tree -/

/-- Raising a node to the one below another. -/
lemma raiseBelow_returns {q p : Path (Cell K V)} {t : Shape K V} (h : Holds m.node (plug (q ++ p) t))
    (ht : t ≠ .nil) :
    ∃ g, Returns (raiseBelow (root t) (above p)) m () { m with node := g } ∧
      Holds g (plug p (lifts q t)) := by
  induction q generalizing m t with
  | nil =>
    refine ⟨m.node, .whileExit (.bind (returns_parentAbove h ht) ?_), h⟩
    rw [decide_eq_false fun h => h rfl]
    exact .pure _ _
  | cons f q ih =>
    have up : Returns (parentOf (root t)) m f.elem.addr m := returns_parentAbove h ht
    have isLeft := returns_nodeIs (s := .left) (f := f) (p := q ++ p) h ht
    have ne : f.elem.addr ≠ above p := by
      intro e
      have h0 : f.elem.addr ≠ 0 := (rep_plug.mp h.rep).1.1
      have hm : above p ∈ pathAddrs (q ++ p) := by
        rw [pathAddrs, pathCells_append, List.map_append]
        exact List.mem_append_right _ (above_mem (e ▸ h0))
      have nodup := (nodup_plug.mp h.nodup).1
      rw [List.cons_append, pathAddrs_cons, List.cons_append, List.nodup_cons] at nodup
      exact nodup.1 (List.mem_append_right _ (e ▸ hm))
    obtain ⟨g, turn, hg⟩ := returns_rotateOver (f := f) (p := q ++ p) h ht
    obtain ⟨g', rest, hg'⟩ := ih (m := { m with node := g }) hg (lift_ne_nil ht)
    rw [root_lift ht] at rest
    have test : Returns (do return decide ((← parentOf (root t)) ≠ above p)) m true m := by
      refine .bind up ?_
      rw [decide_eq_true ne]
      exact .pure _ _
    refine ⟨g', .whileTurn test ?_ rest, hg'⟩
    obtain ⟨s, x, b⟩ := f
    cases s with
    | left => exact .bind isLeft (.bind up turn)
    | right => exact .bind isLeft (.bind up turn)

/-- The priority that `node_optimize` gives to the node at a position. -/
def levelBelow : Path (Cell K V) → Int
  | [] => 10
  | f :: _ => f.elem.priority + 10

/-- Comparing the priority of a node and the one above. -/
lemma returns_priorityBelow {p : Path (Cell K V)} {t : Shape K V} (h : Holds m.node (plug p t)) :
    Returns (priorityBelow (above p)) m (levelBelow p) m := by
  cases p with
  | nil => exact .ite_pos rfl (.pure _ _)
  | cons f p =>
    refine .ite_neg (rep_plug.mp h.rep).1.1 (.bind (returns_deref h.parent) ?_)
    rw [record_priority]
    exact .pure _ _

/-- The middle node of a subtree comes to its top. -/
lemma raiseMiddle_returns {p : Path (Cell K V)} {t : Shape K V} (h : Holds m.node (plug p t))
    (ht : t ≠ .nil) :
    ∃ g l x r, Returns (raiseMiddle (root t)) m (Cell.addr x) { m with node := g } ∧
      Holds g (plug p (.node l x r)) ∧ entries (.node l x r) = entries t ∧ x.priority = levelBelow p ∧
      l.size = t.size / 2 := by
  cases t with
  | nil => exact absurd rfl ht
  | node l0 y r0 =>
    obtain ⟨q, l, x, r, split, place, find⟩ := nodeOrdinal_returns (i := (1 + l0.size + r0.size) / 2) h
      (Nat.div_lt_self (by omega) (by decide))
    have hv := returns_priorityBelow h
    have hy := h.top
    rw [split, ← plug_append] at h
    let x' : Cell K V := { x with priority := levelBelow p }
    have hx := h.setCell (y := x') (f := fun n => { n with priority := levelBelow p }) rfl fun _ _ _ _ => rfl
    have some_x : (m.node x.addr).isSome := Option.isSome_iff_exists.mpr ⟨_, h.top⟩
    obtain ⟨g, up, hg⟩ := raiseBelow_returns hx nofun
    obtain ⟨l1, r1, top, left, -⟩ := lifts_top q l x' r
    have same := entries_of_cells (lifts_cells q (.node l x' r))
    rw [top] at hg same
    refine ⟨g, l1, x', r1, .bind (returns_deref hy) ?_, hg, ?_, rfl, ?_⟩
    · exact .bind find (.bind hv (.bind (returns_store some_x) (.bind up (.pure _ _))))
    · rw [same, split, entries_plug, entries_plug, entries_node, entries_node]
      rfl
    · rw [← length_cells l1, left, List.length_append, length_cells, place]
      rfl

/-- What a call of `node_optimize` does depends on its own calls. -/
lemma nodeOptimizeBody_local (root : Ptr) :
    Local fun f => nodeOptimizeBody (K := K) (V := V) f root := by
  refine .ite (.const _) (.bind (.const _) fun node => .bind (.const _) fun n => ?_)
  refine .bind (.self _) fun left => .bind (.const _) fun _ => .bind (.const _) fun n => ?_
  exact .bind (.self _) fun right => .const _

/-- A subtree that `node_optimize` has rebuilt: the middle node is on top, and the priorities are by level. -/
def Optimal : Int → Shape K V → Prop
  | _, .nil => True
  | level, .node l x r =>
    x.priority = level ∧ (l.size = r.size ∨ l.size = r.size + 1) ∧ Optimal (level + 10) l ∧ Optimal (level + 10) r

/-- `node_optimize` terminates, keeps the entries of the subtree it rebuilds and puts the middle node on top. -/
theorem nodeOptimize_returns {p : Path (Cell K V)} {t : Shape K V} (h : Holds m.node (plug p t)) :
    ∃ g u, Returns (nodeOptimize (root t)) m (root u) { m with node := g } ∧ Holds g (plug p u) ∧
      entries u = entries t ∧ Optimal (levelBelow p) u := by
  induction k : t.size using Nat.strong_induction_on generalizing m p t with
  | _ k ih =>
    subst k
    by_cases ht : t = .nil
    · subst ht
      exact ⟨m.node, .nil, .call (nodeOptimizeBody_local _) (.ite_pos rfl (.pure _ _)), h, rfl, trivial⟩
    · have h0 : root t ≠ 0 := fun e => ht ((rep_plug.mp h.rep).2.root_eq_zero.mp e)
      obtain ⟨g1, l, x, r, top, h1, same, level, half⟩ := raiseMiddle_returns h ht
      have less : 1 + l.size + r.size = t.size := by
        have len := congrArg List.length same
        rwa [length_entries, length_entries, size] at len
      -- the subtrees are rebuilt, and linked where they already hang
      let m1 : Mem K V := { m with node := g1 }
      have hl : Holds m1.node (plug (⟨.left, x, r⟩ :: p) l) := h1
      obtain ⟨g2, l', left, h2, el, ol⟩ := ih l.size (by omega) hl rfl
      let m2 : Mem K V := { m with node := g2 }
      have hr : Holds m2.node (plug (⟨.right, x, l'⟩ :: p) r) := h2
      obtain ⟨g3, r', right, h3, er, or⟩ := ih r.size (by omega) hr rfl
      let m3 : Mem K V := { m with node := g3 }
      have n1 := Holds.top (m := m1) (l := l) (r := r) h1
      have n2 := Holds.top (m := m2) (l := l') (r := r) h2
      have n3 := Holds.top (m := m3) (l := l') (r := r') h3
      have store2 := returns_store (f := fun n => { n with left := root l' })
        (Option.isSome_iff_exists.mpr ⟨_, n2⟩)
      have store3 := returns_store (f := fun n => { n with right := root r' })
        (Option.isSome_iff_exists.mpr ⟨_, n3⟩)
      rw [modify_same (by rw [n2]; rfl)] at store2
      rw [modify_same (by rw [n3]; rfl)] at store3
      refine ⟨g3, .node l' x r', .call (nodeOptimizeBody_local _) (.ite_neg h0 (.bind top ?_)), h3, ?_, level, ?_, ?_, ?_⟩
      · refine .bind (returns_deref n1) (.bind left (.bind store2 ?_))
        exact .bind (returns_deref n2) (.bind right (.bind store3 (.pure _ _)))
      · rw [← same, entries_node, entries_node, el, er]
      · have sizes : l'.size = l.size ∧ r'.size = r.size := by
          rw [← length_entries, ← length_entries, ← length_entries r', ← length_entries r, el, er]
          exact ⟨rfl, rfl⟩
        omega
      · rw [← level]
        exact ol
      · rw [← level]
        exact or

/-- `tree_optimize` terminates, keeps the entries and rebuilds the tree. -/
theorem treeOptimize_returns {t : Shape K V} (h : Stores m t) :
    ∃ m' u, Returns treeOptimize m () m' ∧ Stores m' u ∧ entries u = entries t ∧ Optimal 10 u := by
  obtain ⟨g, u, run, hg, same, optimal⟩ := nodeOptimize_returns (p := []) h.holds
  rw [← h.root] at run
  exact ⟨{ m with node := g, root := root u }, u, .bind (.asks _ _) (.bind run (.update _ _)), ⟨hg, rfl⟩, same, optimal⟩

end Twcos.Tree
