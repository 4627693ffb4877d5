import Twcos.Bin.Splay
import Twcos.Tree.Rotate

/-!
# Rebalancing

The four loops that `tree_put` runs after linking in a new node, each as a function on the position of
the node (`splayUp`, `siftUp`, `countUp`, `simpleUp`): the loop on the nodes terminates, none of its
assertions fails, and the tree it leaves in memory is the one the function gives. None of the functions
changes the sequence of elements.
-/

namespace Twcos.Tree
open Twcos.Prog Twcos.Bin

variable {K V : Type} {m : Mem K V}

/-! ### Steps up from a node -/

/-- A subtree with its parent is not empty. -/
lemma attach_ne_nil {α : Type} (f : Frame α) (t : Bin α) : attach f t ≠ .nil := by
  obtain ⟨s, x, b⟩ := f
  cases s <;> nofun

/-- The root of a subtree with its parent. -/
@[simp] lemma root_attach (f : Frame (Cell K V)) (t : Shape K V) : root (attach f t) = f.elem.addr :=
  root_mk _ _ _ _

/-- A rotation brings the lower node up. -/
lemma root_lift {f : Frame (Cell K V)} {t : Shape K V} (ht : t ≠ .nil) : root (lift f t) = root t := by
  cases t with
  | nil => exact absurd rfl ht
  | node l y r => exact root_mk _ _ _ _

/-- The record of the node at a position. -/
lemma Holds.top {p : Path (Cell K V)} {l r : Shape K V} {x : Cell K V}
    (h : Holds m.node (plug p (.node l x r))) :
    m.node x.addr = some (record .left x (1 + l.size + r.size) (above p) (root l) (root r)) :=
  (rep_plug.mp h.rep).2.2.1

/-- The record of the node above a position. -/
lemma Holds.parent {f : Frame (Cell K V)} {p : Path (Cell K V)} {t : Shape K V}
    (h : Holds m.node (plug (f :: p) t)) :
    m.node f.elem.addr =
      some (record f.side f.elem (1 + t.size + f.sibling.size) (above p) (root t) (root f.sibling)) :=
  (rep_plug.mp h.rep).1.2.1

/-- Reading the parent of a subtree. -/
lemma returns_parentAbove {p : Path (Cell K V)} {t : Shape K V} (h : Holds m.node (plug p t))
    (ht : t ≠ .nil) : Returns (parentOf (root t)) m (above p) m := by
  cases t with
  | nil => exact absurd rfl ht
  | node l x r => exact returns_parentOf h.top

/-- Asking whether there is one. -/
lemma returns_hasParent {p : Path (Cell K V)} {t : Shape K V} (h : Holds m.node (plug p t))
    (ht : t ≠ .nil) : Returns (hasParent (root t)) m (!p.isEmpty) m := by
  refine .bind (returns_parentAbove h ht) ?_
  cases p with
  | nil => exact .pure _ _
  | cons f p =>
    have h0 : f.elem.addr ≠ 0 := (rep_plug.mp h.rep).1.1
    have e : decide (above (f :: p) ≠ 0) = true := decide_eq_true h0
    rw [e]
    exact .pure _ _

/-- `node_is_left` and `node_is_right` tell the side a node hangs on. -/
lemma returns_nodeIs {s : Side} {f : Frame (Cell K V)} {p : Path (Cell K V)} {t : Shape K V}
    (h : Holds m.node (plug (f :: p) t)) (ht : t ≠ .nil) :
    Returns (nodeIs s (root t)) m (decide (f.side = s)) m := by
  have hp := (rep_plug.mp h.rep).1
  have h0 : root t ≠ 0 := fun e => ht ((rep_plug.mp h.rep).2.root_eq_zero.mp e)
  have hs : root t ≠ root f.sibling := by
    intro e
    refine (nodup_plug.mp h.nodup).2.2 (root t) ?_ (root_mem h0)
    rw [e, pathAddrs_cons]
    exact List.mem_append_left _ (List.mem_cons_of_mem _ (root_mem (e ▸ h0)))
  cases t with
  | nil => exact absurd rfl ht
  | node l x r =>
    refine .bind (returns_deref h.top) (.ite_neg hp.1 (.bind (returns_deref h.parent) ?_))
    have side : decide (f.side = s) = decide (root (.node l x r) =
        (record f.side f.elem (1 + (Bin.node l x r).size + f.sibling.size) (above p)
          (root (.node l x r)) (root f.sibling)).child s) := by
      obtain ⟨fs, fx, fb⟩ := f
      cases fs <;> cases s <;> simp [record, Node.child, hs]
    rw [side]
    exact .pure _ _

/-- A node with nothing above it hangs on neither side. -/
lemma returns_nodeIs_top {s : Side} {t : Shape K V} (h : Holds m.node t) (ht : t ≠ .nil) :
    Returns (nodeIs s (root t)) m false m := by
  cases t with
  | nil => exact absurd rfl ht
  | node l x r => exact .bind (returns_deref (h.top (p := []))) (.ite_pos rfl (.pure _ _))

/-- Rotating a node over its parent. -/
lemma returns_rotateOver {f : Frame (Cell K V)} {p : Path (Cell K V)} {t : Shape K V}
    (h : Holds m.node (plug (f :: p) t)) (ht : t ≠ .nil) :
    ∃ g, Returns (nodeRotate f.side.opp f.elem.addr) m () { m with node := g } ∧
      Holds g (plug p (lift f t)) := by
  cases t with
  | nil => exact absurd rfl ht
  | node l y r =>
    rw [plug, attach_eq, node_eq_mk f.side.opp l y r] at h
    rw [node_eq_mk f.side.opp l y r, lift_mk]
    exact nodeRotate_returns h

/-! ### Splaying -/

/-- `node_splay` on a position: two frames at a time when they are on the same side, or left below
    right; a single one when they are right below left. -/
def splayUp {α : Type} : Path α → Bin α → Bin α
  | [], t => t
  | [f], t => lift f t
  | f :: g :: p, t =>
    if f.side = g.side then
      splayUp p (lift ⟨f.side, f.elem, mk g.side f.sibling g.elem g.sibling⟩ t)
    else if f.side = .left then splayUp p (lift g (lift f t))
    else splayUp (g :: p) (lift f t)

/-- Splaying keeps the order of the cells. -/
lemma splayUp_cells {α : Type} (p : Path α) (t : Bin α) : (splayUp p t).cells = (plug p t).cells := by
  induction p, t using splayUp.induct with
  | case1 t => rfl
  | case2 f t => exact lift_cells f t
  | case3 f g p t same ih =>
    rw [splayUp, if_pos same, ih]
    refine plug_cells_congr ?_
    rw [lift_cells]
    exact (congrArg cells (lift_attach same t)).symm.trans (lift_cells g _)
  | case4 f g p t other hl ih =>
    rw [splayUp, if_neg other, if_pos hl, ih]
    refine plug_cells_congr ?_
    rw [lift_cells]
    exact plug_cells_congr (p := [g]) (lift_cells f t)
  | case5 f g p t other hl ih =>
    rw [splayUp, if_neg other, if_neg hl, ih]
    exact plug_cells_congr (p := g :: p) (lift_cells f t)

/-- The node comes to the top. -/
lemma root_splayUp (p : Path (Cell K V)) {t : Shape K V} (ht : t ≠ .nil) : root (splayUp p t) = root t := by
  induction p, t using splayUp.induct with
  | case1 t => rfl
  | case2 f t => exact root_lift ht
  | case3 f g p t same ih => rw [splayUp, if_pos same, ih (lift_ne_nil ht), root_lift ht]
  | case4 f g p t other hl ih =>
    rw [splayUp, if_neg other, if_pos hl, ih (lift_ne_nil (lift_ne_nil ht)), root_lift (lift_ne_nil ht), root_lift ht]
  | case5 f g p t other hl ih => rw [splayUp, if_neg other, if_neg hl, ih (lift_ne_nil ht), root_lift ht]

/-- A turn of the splay loop below a root. -/
lemma returns_splayStep_single {f : Frame (Cell K V)} {t : Shape K V}
    (h : Holds m.node (plug [f] t)) (ht : t ≠ .nil) :
    ∃ g, Returns (nodeSplayStep (root t)) m () { m with node := g } ∧ Holds g (lift f t) := by
  obtain ⟨g, hr, hg⟩ := returns_rotateOver h ht
  refine ⟨g, ?_, hg⟩
  have isLeft := returns_nodeIs (s := .left) h ht
  have isRight := returns_nodeIs (s := .right) h ht
  have up := returns_parentAbove h ht
  have top : ∀ s, Returns (nodeIs s f.elem.addr) m false m := fun s => by
    have ha : Holds m.node (attach f t) := h
    simpa only [root_attach] using returns_nodeIs_top (s := s) ha (attach_ne_nil f t)
  obtain ⟨sf, x, b⟩ := f
  cases sf with
  | left => exact .bind isLeft (.bind up (.bind (top _) (.bind up (.bind (top _) (.bind up hr)))))
  | right =>
    exact .bind isLeft (.bind isRight (.bind up (.bind (top _) (.bind up (.bind (top _) (.bind up hr))))))

/-- A turn of the splay loop with two frames on the same side. -/
lemma returns_splayStep_same {f g : Frame (Cell K V)} {p : Path (Cell K V)} {t : Shape K V}
    (h : Holds m.node (plug (f :: g :: p) t)) (ht : t ≠ .nil) (same : f.side = g.side) :
    ∃ gm, Returns (nodeSplayStep (root t)) m () { m with node := gm } ∧
      Holds gm (plug p (lift ⟨f.side, f.elem, mk g.side f.sibling g.elem g.sibling⟩ t)) := by
  have h1 : Holds m.node (plug (g :: p) (attach f t)) := h
  -- the parent goes over the grandparent, then the node over the parent
  obtain ⟨gm1, hr1, hg1⟩ := returns_rotateOver h1 (attach_ne_nil f t)
  rw [lift_attach same] at hg1
  obtain ⟨gm2, hr2, hg2⟩ := returns_rotateOver (m := { m with node := gm1 })
    (f := ⟨f.side, f.elem, mk g.side f.sibling g.elem g.sibling⟩) hg1 ht
  refine ⟨gm2, ?_, hg2⟩
  have isLeft := returns_nodeIs (s := .left) h ht
  have isRight := returns_nodeIs (s := .right) h ht
  have up := returns_parentAbove h ht
  have parentIs := fun s => returns_nodeIs (s := s) h1 (attach_ne_nil f t)
  have up2 := returns_parentAbove h1 (attach_ne_nil f t)
  have up' := returns_parentAbove (m := { m with node := gm1 })
    (p := ⟨f.side, f.elem, mk g.side f.sibling g.elem g.sibling⟩ :: p) hg1 ht
  simp only [root_attach] at parentIs up2
  obtain ⟨sf, x, b⟩ := f
  obtain ⟨sg, y, c⟩ := g
  subst same
  cases sf with
  | left =>
    refine .bind isLeft (.bind up (.bind (parentIs _) ?_))
    exact .bind up (.bind up2 (.bind hr1 (.bind up' hr2)))
  | right =>
    refine .bind isLeft (.bind isRight (.bind up (.bind (parentIs _) ?_)))
    exact .bind up (.bind up2 (.bind hr1 (.bind up' hr2)))

/-- A turn of the splay loop with a left frame below a right one. -/
lemma returns_splayStep_leftRight {f g : Frame (Cell K V)} {p : Path (Cell K V)} {t : Shape K V}
    (h : Holds m.node (plug (f :: g :: p) t)) (ht : t ≠ .nil) (other : f.side ≠ g.side)
    (hl : f.side = .left) :
    ∃ gm, Returns (nodeSplayStep (root t)) m () { m with node := gm } ∧
      Holds gm (plug p (lift g (lift f t))) := by
  have h1 : Holds m.node (plug (g :: p) (attach f t)) := h
  obtain ⟨gm1, hr1, hg1⟩ := returns_rotateOver h ht
  obtain ⟨gm2, hr2, hg2⟩ := returns_rotateOver (m := { m with node := gm1 }) hg1 (lift_ne_nil ht)
  refine ⟨gm2, ?_, hg2⟩
  have isLeft := returns_nodeIs (s := .left) h ht
  have up := returns_parentAbove h ht
  have parentIs := fun s => returns_nodeIs (s := s) h1 (attach_ne_nil f t)
  have up' := returns_parentAbove (m := { m with node := gm1 }) hg1 (lift_ne_nil ht)
  rw [root_lift ht] at up'
  simp only [root_attach] at parentIs
  obtain ⟨sf, x, b⟩ := f
  obtain ⟨sg, y, c⟩ := g
  subst hl
  cases sg with
  | left => exact absurd rfl other
  | right =>
    refine .bind isLeft (.bind up (.bind (parentIs _) (.bind up (.bind (parentIs _) ?_))))
    exact .bind up (.bind hr1 (.bind up' hr2))

/-- A turn of the splay loop with a right frame below a left one: the source rotates only once. -/
lemma returns_splayStep_rightLeft {f g : Frame (Cell K V)} {p : Path (Cell K V)} {t : Shape K V}
    (h : Holds m.node (plug (f :: g :: p) t)) (ht : t ≠ .nil) (other : f.side ≠ g.side)
    (hl : f.side ≠ .left) :
    ∃ gm, Returns (nodeSplayStep (root t)) m () { m with node := gm } ∧
      Holds gm (plug (g :: p) (lift f t)) := by
  have h1 : Holds m.node (plug (g :: p) (attach f t)) := h
  obtain ⟨gm, hr, hg⟩ := returns_rotateOver h ht
  refine ⟨gm, ?_, hg⟩
  have isLeft := returns_nodeIs (s := .left) h ht
  have isRight := returns_nodeIs (s := .right) h ht
  have up := returns_parentAbove h ht
  have parentIs := fun s => returns_nodeIs (s := s) h1 (attach_ne_nil f t)
  simp only [root_attach] at parentIs
  obtain ⟨sf, x, b⟩ := f
  obtain ⟨sg, y, c⟩ := g
  cases sf with
  | left => exact absurd rfl hl
  | right =>
    cases sg with
    | right => exact absurd rfl other
    | left =>
      refine .bind isLeft (.bind isRight (.bind up (.bind (parentIs _) ?_)))
      exact .bind up (.bind (parentIs _) (.bind up hr))

/-- `node_splay` terminates and leaves the splayed tree. -/
theorem nodeSplay_returns {p : Path (Cell K V)} {t : Shape K V} (h : Holds m.node (plug p t))
    (ht : t ≠ .nil) :
    ∃ g, Returns (nodeSplay (root t)) m () { m with node := g } ∧ Holds g (splayUp p t) := by
  have more := returns_hasParent h ht
  induction p, t using splayUp.induct generalizing m with
  | case1 t => exact ⟨m.node, .whileExit more, h⟩
  | case2 f t =>
    obtain ⟨g, hr, hg⟩ := returns_splayStep_single h ht
    have done := returns_hasParent (m := { m with node := g }) (p := []) (t := lift f t) hg
      (lift_ne_nil ht)
    rw [root_lift ht] at done
    exact ⟨g, .whileTurn more hr (.whileExit done), hg⟩
  | case3 f g p t same ih =>
    obtain ⟨gm, hr, hg⟩ := returns_splayStep_same h ht same
    obtain ⟨gm', hr', hg'⟩ := ih (m := { m with node := gm }) hg (lift_ne_nil ht)
      (returns_hasParent hg (lift_ne_nil ht))
    rw [root_lift ht] at hr'
    refine ⟨gm', .whileTurn more hr hr', ?_⟩
    rwa [splayUp, if_pos same]
  | case4 f g p t other hl ih =>
    obtain ⟨gm, hr, hg⟩ := returns_splayStep_leftRight h ht other hl
    have ht' := lift_ne_nil (f := g) (lift_ne_nil (f := f) ht)
    obtain ⟨gm', hr', hg'⟩ := ih (m := { m with node := gm }) hg ht' (returns_hasParent hg ht')
    rw [root_lift (lift_ne_nil ht), root_lift ht] at hr'
    refine ⟨gm', .whileTurn more hr hr', ?_⟩
    rwa [splayUp, if_neg other, if_pos hl]
  | case5 f g p t other hl ih =>
    obtain ⟨gm, hr, hg⟩ := returns_splayStep_rightLeft h ht other hl
    obtain ⟨gm', hr', hg'⟩ := ih (m := { m with node := gm }) hg (lift_ne_nil ht)
      (returns_hasParent hg (lift_ne_nil ht))
    rw [root_lift ht] at hr'
    refine ⟨gm', .whileTurn more hr hr', ?_⟩
    rwa [splayUp, if_neg other, if_neg hl]

/-! ### Treap order -/

/-- The priority of the topmost node. -/
def topPriority : Shape K V → Int
  | .nil => 0
  | .node _ x _ => x.priority

/-- `node_prioritize` on a position: up while the parent has a higher priority. -/
def siftUp : Path (Cell K V) → Shape K V → Shape K V
  | [], t => t
  | f :: p, t =>
    if topPriority t < f.elem.priority then siftUp p (lift f t) else plug (f :: p) t

/-- Sifting up keeps the order of the cells. -/
lemma siftUp_cells (p : Path (Cell K V)) (t : Shape K V) : (siftUp p t).cells = (plug p t).cells := by
  induction p, t using siftUp.induct with
  | case1 t => rfl
  | case2 f p t less ih =>
    rw [siftUp, if_pos less, ih]
    exact plug_cells_congr (lift_cells f t)
  | case3 f p t less => rw [siftUp, if_neg less]

/-- Changing the key, data or priority of a node in place. -/
lemma Holds.setCell {p : Path (Cell K V)} {l r : Shape K V} {x y : Cell K V}
    {f : Node K V → Node K V} (h : Holds m.node (plug p (.node l x r))) (ha : y.addr = x.addr)
    (hf : ∀ n q pa pb, f (record .left x n q pa pb) = record .left y n q pa pb) :
    Holds (m.modify x.addr f).node (plug p (.node l y r)) := by
  obtain ⟨hp, hx0, hx, hl, hr⟩ := rep_plug.mp h.rep
  obtain ⟨-, dt, dpt⟩ := nodup_plug.mp h.nodup
  obtain ⟨-, -, dxl, dxr, -⟩ := (nodup_mk (s := .left)).mp dt
  refine h.replace ?_ ?_ ⟨ha ▸ hx0, ?_, ?_, ?_⟩ fun q hq => modify_empty (h.rest q hq)
  · simp only [addrs, cells, List.map_append, List.map_cons, ha]
    exact .refl _
  · have hp' : RepPath (m.modify x.addr f).node p x.addr (1 + l.size + r.size) := by
      refine RepPath.frame hp fun q hq => modify_ne ?_
      rintro rfl
      exact dpt _ hq ((mem_addrs_mk (s := .left)).mpr (.inr (.inl rfl)))
    show RepPath _ p y.addr (1 + l.size + r.size)
    rw [ha]
    exact hp'
  · rw [ha, modify_self hx, hf]
  · rw [ha]
    exact hl.frame fun q hq => modify_ne fun e => dxl (e ▸ hq)
  · rw [ha]
    exact hr.frame fun q hq => modify_ne fun e => dxr (e ▸ hq)

/-- Comparing the priorities of a subtree and its parent. -/
lemma returns_priorityLess {f : Frame (Cell K V)} {p : Path (Cell K V)} {t : Shape K V}
    (h : Holds m.node (plug (f :: p) t)) (ht : t ≠ .nil) :
    Returns (priorityLess (root t)) m (decide (topPriority t < f.elem.priority)) m := by
  cases t with
  | nil => exact absurd rfl ht
  | node l x r =>
    refine .bind (returns_deref h.top) (.bind (returns_deref h.parent) ?_)
    simp only [record_priority, topPriority]
    exact .pure _ _

/-- Rotating up, as the treap loop does. -/
lemma returns_nodeRotateUp {f : Frame (Cell K V)} {p : Path (Cell K V)} {t : Shape K V}
    (h : Holds m.node (plug (f :: p) t)) (ht : t ≠ .nil) :
    ∃ g, Returns (nodeRotateUp (root t)) m () { m with node := g } ∧ Holds g (plug p (lift f t)) := by
  obtain ⟨g, hr, hg⟩ := returns_rotateOver h ht
  refine ⟨g, ?_, hg⟩
  have isLeft := returns_nodeIs (s := .left) h ht
  have isRight := returns_nodeIs (s := .right) h ht
  have up := returns_parentAbove h ht
  obtain ⟨sf, x, b⟩ := f
  cases sf with
  | left => exact .bind isLeft (.bind up hr)
  | right => exact .bind isLeft (.bind isRight (.bind up hr))

/-- The loop of the treap. -/
lemma siftLoop_returns {p : Path (Cell K V)} {t : Shape K V} (h : Holds m.node (plug p t))
    (ht : t ≠ .nil) :
    ∃ g, Returns (whileDo (both (hasParent (root t)) (priorityLess (root t))) (nodeRotateUp (root t)))
        m () { m with node := g } ∧ Holds g (siftUp p t) := by
  have more := returns_hasParent h ht
  induction p, t using siftUp.induct generalizing m with
  | case1 t => exact ⟨m.node, .whileExit (.both_false more), h⟩
  | case2 f p t less ih =>
    have test := returns_priorityLess h ht
    rw [decide_eq_true less] at test
    obtain ⟨g, hr, hg⟩ := returns_nodeRotateUp h ht
    obtain ⟨g', hr', hg'⟩ := ih (m := { m with node := g }) hg (lift_ne_nil ht)
      (returns_hasParent hg (lift_ne_nil ht))
    rw [root_lift ht] at hr'
    refine ⟨g', .whileTurn (.both_true more test) hr hr', ?_⟩
    rwa [siftUp, if_pos less]
  | case3 f p t less =>
    have test := returns_priorityLess h ht
    rw [decide_eq_false less] at test
    refine ⟨m.node, .whileExit (.both_true more test), ?_⟩
    rwa [siftUp, if_neg less]

/-- `node_prioritize` terminates and leaves the node sifted up with its new priority. -/
theorem nodePrioritize_returns {p : Path (Cell K V)} {l r : Shape K V} {x : Cell K V}
    (priority : Int) (h : Holds m.node (plug p (.node l x r))) :
    ∃ g, Returns (nodePrioritize priority x.addr) m () { m with node := g } ∧
      Holds g (siftUp p (.node l { x with priority := priority } r)) := by
  have hx := h.setCell (y := { x with priority := priority })
    (f := fun n => { n with priority := priority }) rfl fun _ _ _ _ => rfl
  obtain ⟨g, hr, hg⟩ := siftLoop_returns hx nofun
  refine ⟨g, .bind (returns_store ?_) hr, hg⟩
  exact Option.isSome_iff_exists.mpr ⟨_, h.top⟩

/-! ### Balancing by counts -/

/-- `node_count_balance` on a position: a node whose outer subtree outweighs its sibling goes over its
    parent. -/
def countUp {α : Type} : Path α → Bin α → Bin α
  | [], t => t
  | f :: p, t =>
    if f.sibling.size < (child f.side t).size then
      match p with
      | [] => lift f t
      | g :: p => countUp p (attach g (lift f t))
    else countUp p (attach f t)

/-- A subtree that is not heavier stays. -/
lemma countUp_light {α : Type} {f : Frame α} {p : Path α} {t : Bin α}
    (h : ¬f.sibling.size < (child f.side t).size) : countUp (f :: p) t = countUp p (attach f t) := by
  cases p <;> simp only [countUp, if_neg h]

/-- Rotating by the counts keeps the order of the cells. -/
lemma countUp_cells {α : Type} (p : Path α) (t : Bin α) : (countUp p t).cells = (plug p t).cells := by
  induction p, t using countUp.induct with
  | case1 t => rfl
  | case2 f t heavy =>
    rw [countUp, if_pos heavy]
    exact lift_cells f t
  | case3 f t heavy g p ih =>
    rw [countUp, if_pos heavy, ih]
    exact plug_cells_congr (p := g :: p) (lift_cells f t)
  | case4 f p t light ih =>
    rw [countUp_light light, ih]
    rfl

/-- Comparing the counts of two subtrees. -/
lemma returns_outweighs {s : Side} {f : Frame (Cell K V)} {p : Path (Cell K V)} {t : Shape K V}
    (h : Holds m.node (plug (f :: p) t)) (ht : t ≠ .nil) :
    Returns (outweighs s (root t)) m
      (decide (f.side = s) && decide (f.sibling.size < (child f.side t).size)) m := by
  have isSide := returns_nodeIs (s := s) h ht
  by_cases hs : f.side = s
  · rw [decide_eq_true hs] at isSide ⊢
    refine .both_true isSide ?_
    subst hs
    cases t with
    | nil => exact absurd rfl ht
    | node l x r =>
      obtain ⟨hp, -, -, hl, hr⟩ := rep_plug.mp h.rep
      refine .bind (returns_deref h.top) (.bind (returns_deref h.parent) ?_)
      rw [record_child_opp]
      refine .bind (returns_nodeCount hp.2.2.1) ?_
      have outer : Returns (nodeCount ((record .left x (1 + l.size + r.size) (above (f :: p)) (root l)
          (root r)).child f.side)) m (child f.side (.node l x r)).size m := by
        cases f.side with
        | left => exact returns_nodeCount hl
        | right => exact returns_nodeCount hr
      refine .bind outer ?_
      simp only [Int.ofNat_lt, Bool.true_and]
      exact .pure _ _
  · rw [decide_eq_false hs] at isSide ⊢
    exact .both_false isSide

/-- A rotation by the counts. -/
lemma returns_countRotate {f : Frame (Cell K V)} {p : Path (Cell K V)} {t : Shape K V}
    (h : Holds m.node (plug (f :: p) t)) (ht : t ≠ .nil) :
    ∃ g, Returns (countRotate (root t)) m () { m with node := g } ∧
      Holds g (if f.sibling.size < (child f.side t).size then plug p (lift f t) else plug (f :: p) t) := by
  have right := returns_outweighs (s := .right) h ht
  have left := returns_outweighs (s := .left) h ht
  have up := returns_parentAbove h ht
  by_cases heavy : f.sibling.size < (child f.side t).size
  · rw [if_pos heavy]
    rw [decide_eq_true heavy, Bool.and_true] at left right
    obtain ⟨g, hr, hg⟩ := returns_rotateOver h ht
    refine ⟨g, ?_, hg⟩
    obtain ⟨sf, x, b⟩ := f
    cases sf with
    | left => exact .bind right (.bind left (.bind up hr))
    | right => exact .bind right (.bind up hr)
  · rw [if_neg heavy]
    rw [decide_eq_false heavy, Bool.and_false] at left right
    exact ⟨m.node, .bind right (.bind left (.pure _ _)), h⟩

/-- `node_count_balance` terminates and leaves the balanced tree. -/
theorem nodeCountBalance_returns {p : Path (Cell K V)} {t : Shape K V} (h : Holds m.node (plug p t))
    (ht : t ≠ .nil) :
    ∃ g, Returns (nodeCountBalance (root t)) m () { m with node := g } ∧ Holds g (countUp p t) := by
  have h0 : root t ≠ 0 := fun e => ht ((rep_plug.mp h.rep).2.root_eq_zero.mp e)
  have more := returns_hasParent h ht
  induction p, t using countUp.induct generalizing m with
  | case1 t => exact ⟨m.node, .exit (.ite_neg h0 (.bind more (.pure _ _))), h⟩
  | case2 f t heavy =>
    obtain ⟨g, hr, hg⟩ := returns_countRotate h ht
    rw [if_pos heavy] at hg
    have up := returns_parentAbove (m := { m with node := g }) hg (lift_ne_nil ht)
    rw [root_lift ht] at up
    refine ⟨g, .turn (.ite_neg h0 (.bind more (.bind hr (.bind up (.pure _ _))))) ?_, ?_⟩
    · exact .exit (.ite_pos rfl (.pure _ _))
    · rwa [countUp, if_pos heavy]
  | case3 f t heavy g p ih =>
    obtain ⟨gm, hr, hg⟩ := returns_countRotate h ht
    rw [if_pos heavy] at hg
    have up := returns_parentAbove (m := { m with node := gm }) hg (lift_ne_nil ht)
    rw [root_lift ht] at up
    have hg' : Holds gm (plug p (attach g (lift f t))) := hg
    obtain ⟨gm', hr', hg''⟩ := ih (m := { m with node := gm }) hg' (attach_ne_nil _ _)
      (by rw [root_attach]; exact (rep_plug.mp hg.rep).1.1) (returns_hasParent hg' (attach_ne_nil _ _))
    rw [root_attach] at hr'
    refine ⟨gm', .turn (.ite_neg h0 (.bind more (.bind hr (.bind up (.pure _ _))))) hr', ?_⟩
    rwa [countUp, if_pos heavy]
  | case4 f p t light ih =>
    obtain ⟨gm, hr, hg⟩ := returns_countRotate h ht
    rw [if_neg light] at hg
    have up := returns_parentAbove (m := { m with node := gm }) hg ht
    have hg' : Holds gm (plug p (attach f t)) := hg
    obtain ⟨gm', hr', hg''⟩ := ih (m := { m with node := gm }) hg' (attach_ne_nil _ _)
      (by rw [root_attach]; exact (rep_plug.mp hg.rep).1.1) (returns_hasParent hg' (attach_ne_nil _ _))
    rw [root_attach] at hr'
    refine ⟨gm', .turn (.ite_neg h0 (.bind more (.bind hr (.bind up (.pure _ _))))) hr', ?_⟩
    rwa [countUp_light light]

/-! ### The default balancing -/

/-- One fix of `node_simple_balance`: a lone child with a lone child of its own goes up, by a double
    rotation if its child is on the inner side. -/
def simpleFix {α : Type} (f : Frame α) : Bin α → Bin α
  | .nil => attach f .nil
  | .node l x r =>
    match f.sibling, child f.side (.node l x r), child f.side.opp (.node l x r) with
    | .nil, .node _ _ _, .nil => lift f (.node l x r)
    | .nil, .nil, .node c y e => lift f (lift ⟨f.side.opp, x, .nil⟩ (.node c y e))
    | _, _, _ => attach f (.node l x r)

/-- `node_simple_balance` on a position. -/
def simpleUp {α : Type} : Path α → Bin α → Bin α
  | [], t => t
  | f :: p, t => simpleUp p (simpleFix f t)

/-- The node with its inner child on top. -/
lemma attach_inner {α : Type} (s : Side) (x : α) (t : Bin α) :
    attach ⟨s.opp, x, .nil⟩ t = mk s .nil x t := mk_opp s t x .nil

/-- The repair of a simple tree keeps the order of the cells. -/
lemma simpleFix_cells {α : Type} (f : Frame α) (t : Bin α) :
    (simpleFix f t).cells = (attach f t).cells := by
  cases t with
  | nil => rfl
  | node l x r =>
    obtain ⟨s, y, b⟩ := f
    cases b with
    | node _ _ _ => rfl
    | nil =>
      cases s <;> cases l <;> cases r <;>
        simp only [simpleFix, child, Side.opp, attach, mk, Bin.lift, cells, List.append_assoc,
          List.nil_append, List.cons_append]

/-- The repair of a simple tree, all the way up, keeps the order of the cells. -/
lemma simpleUp_cells {α : Type} (p : Path α) (t : Bin α) : (simpleUp p t).cells = (plug p t).cells := by
  induction p generalizing t with
  | nil => rfl
  | cons f p ih =>
    rw [simpleUp, ih]
    exact plug_cells_congr (simpleFix_cells f t)

/-- The repair of a simple tree leaves no empty tree. -/
lemma simpleFix_ne_nil {α : Type} (f : Frame α) (t : Bin α) : simpleFix f t ≠ .nil := by
  intro e
  have len := congrArg List.length (simpleFix_cells f t)
  rw [e, length_cells, length_cells, size_attach, size_nil] at len
  omega

/-- A node with two children needs no repair. -/
lemma simpleFix_idle {α : Type} {f : Frame α} (t : Bin α) (h : f.sibling ≠ .nil) :
    simpleFix f t = attach f t := by
  obtain ⟨s, y, b⟩ := f
  cases b with
  | nil => exact absurd rfl h
  | node _ _ _ => cases t <;> rfl

/-- A fix either does nothing, or leaves the old parent below a node with two children. -/
lemma simpleFix_cases {f : Frame (Cell K V)} {t : Shape K V} :
    simpleFix f t = attach f t ∨
      ∃ f' t', f'.sibling ≠ .nil ∧ t' ≠ .nil ∧ root t' = f.elem.addr ∧ simpleFix f t = attach f' t' := by
  cases t with
  | nil => exact .inl rfl
  | node l x r =>
    obtain ⟨s, y, b⟩ := f
    cases b with
    | node _ _ _ => exact .inl rfl
    | nil =>
      cases l with
      | nil =>
        cases r with
        | nil => cases s <;> exact .inl rfl
        | node c z e =>
          cases s with
          | left => exact .inr ⟨⟨.right, z, .node .nil x c⟩, .node e y .nil, nofun, nofun, rfl, rfl⟩
          | right => exact .inr ⟨⟨.left, x, .node c z e⟩, .node .nil y .nil, nofun, nofun, rfl, rfl⟩
      | node c z e =>
        cases r with
        | nil =>
          cases s with
          | left => exact .inr ⟨⟨.right, x, .node c z e⟩, .node .nil y .nil, nofun, nofun, rfl, rfl⟩
          | right => exact .inr ⟨⟨.left, z, .node e x .nil⟩, .node .nil y c, nofun, nofun, rfl, rfl⟩
        | node _ _ _ => cases s <;> exact .inl rfl

/-- Whether there is a subtree, as a bit. -/
def bit {α : Type} : Bin α → Nat
  | .nil => 0
  | .node _ _ _ => 1

/-- Whether there is a child, as a number. -/
lemma linkBit {g : Ptr → Option (Node K V)} {t : Shape K V} {q : Ptr} (h : Rep g t q) :
    (if root t ≠ 0 then 1 else 0) = bit t := by
  cases t with
  | nil => rfl
  | node l x r => exact if_pos h.1

/-- The link bits that the loop computes tell which subtrees there are. -/
lemma simpleRotate_bits {f : Frame (Cell K V)} {p : Path (Cell K V)} {l r : Shape K V} {x : Cell K V}
    {n : Mem K V} (h : Holds m.node (plug (f :: p) (.node l x r)))
    (hs : Returns (simpleSwitch ((match f.side with
        | .left => 8 + 4 * bit f.sibling
        | .right => 8 * bit f.sibling + 4) + 2 * bit l + bit r) x.addr f.elem.addr) m () n) :
    Returns (simpleRotate x.addr f.elem.addr) m () n := by
  obtain ⟨hp, ht⟩ := rep_plug.mp h.rep
  have hl := linkBit ht.2.2.1
  have hr := linkBit ht.2.2.2
  have hb := linkBit hp.2.2.1
  have hx := linkBit ht
  refine .bind (returns_deref h.parent) (.bind (returns_deref h.top) ?_)
  convert hs using 2
  rw [← hl, ← hr, ← hb]
  rw [bit] at hx
  obtain ⟨s, y, b⟩ := f
  cases s with
  | left =>
    show 8 * (if root (.node l x r) ≠ 0 then 1 else 0) + _ + _ + _ = _
    rw [hx]
    rfl
  | right =>
    show _ + 4 * (if root (.node l x r) ≠ 0 then 1 else 0) + _ + _ = _
    rw [hx]
    rfl

/-- The inner child of a node is rotated over the node, and then over the parent of the node. -/
lemma returns_rotateInner {f : Frame (Cell K V)} {p : Path (Cell K V)} {l r c e : Shape K V} {x z : Cell K V}
    (h : Holds m.node (plug (f :: p) (.node l x r))) (outer : child f.side (.node l x r) = .nil)
    (inner : child f.side.opp (.node l x r) = .node c z e) :
    ∃ g, Returns (do nodeRotate f.side x.addr; nodeRotate f.side.opp f.elem.addr) m () { m with node := g } ∧
      Holds g (plug p (lift f (lift ⟨f.side.opp, x, .nil⟩ (.node c z e)))) := by
  rw [node_eq_mk f.side l x r, outer, inner, ← attach_inner] at h
  obtain ⟨g1, r1, h1⟩ := returns_rotateOver (p := f :: p) h nofun
  obtain ⟨g2, r2, h2⟩ := returns_rotateOver (m := { m with node := g1 }) h1 (lift_ne_nil nofun)
  rw [Side.opp_opp] at r1
  exact ⟨g2, .bind r1 r2, h2⟩

/-- The turn of the loop at a node fixes its position. -/
lemma returns_simpleRotate {f : Frame (Cell K V)} {p : Path (Cell K V)} {t : Shape K V}
    (h : Holds m.node (plug (f :: p) t)) (ht : t ≠ .nil) :
    ∃ g, Returns (simpleRotate (root t) f.elem.addr) m () { m with node := g } ∧
      Holds g (plug p (simpleFix f t)) := by
  cases t with
  | nil => exact absurd rfl ht
  | node l x r =>
    have switch := fun n => simpleRotate_bits (n := n) h
    have idle : ∀ i, i ∉ [5, 6, 9, 10] → Returns (simpleSwitch i x.addr f.elem.addr) m () m := by
      intro i hi
      unfold simpleSwitch
      split <;> first | exact .pure _ _ | simp at hi
    have single := returns_rotateOver h ht
    obtain ⟨s, y, b⟩ := f
    cases b with
    | node b1 bx b2 =>
      refine ⟨m.node, switch _ (idle _ ?_), h⟩
      cases s <;> cases l <;> cases r <;> simp [bit]
    | nil =>
      cases l with
      | nil =>
        cases r with
        | nil =>
          refine ⟨m.node, switch _ (idle _ ?_), ?_⟩ <;> cases s
          · simp [bit]
          · simp [bit]
          · exact h
          · exact h
        | node c z e =>
          cases s with
          | left =>
            obtain ⟨g, hr, hg⟩ := returns_rotateInner h rfl rfl
            exact ⟨g, switch _ hr, hg⟩
          | right =>
            obtain ⟨g, hr, hg⟩ := single
            exact ⟨g, switch _ hr, hg⟩
      | node c z e =>
        cases r with
        | nil =>
          cases s with
          | left =>
            obtain ⟨g, hr, hg⟩ := single
            exact ⟨g, switch _ hr, hg⟩
          | right =>
            obtain ⟨g, hr, hg⟩ := returns_rotateInner h rfl rfl
            exact ⟨g, switch _ hr, hg⟩
        | node _ _ _ =>
          refine ⟨m.node, switch _ (idle _ ?_), ?_⟩ <;> cases s
          · simp [bit]
          · simp [bit]
          · exact h
          · exact h

/-- The loop of `node_simple_balance`. After a fix the old parent is below the new one, so its next turn
    finds a node with two children and does nothing. -/
lemma simpleLoop_returns {p : Path (Cell K V)} {t : Shape K V} (h : Holds m.node (plug p t))
    (ht : t ≠ .nil) :
    ∃ g, Returns (simpleLoop (root t) (above p)) m () { m with node := g } ∧
      Holds g (simpleUp p t) := by
  induction p generalizing m t with
  | nil => exact ⟨m.node, .exit (.ite_pos rfl (.pure _ _)), h⟩
  | cons f p ih =>
    have h0 : f.elem.addr ≠ 0 := (rep_plug.mp h.rep).1.1
    obtain ⟨g, hr, hg⟩ := returns_simpleRotate h ht
    have ht' := simpleFix_ne_nil f t
    rcases simpleFix_cases (f := f) (t := t) with same | ⟨f', t', full, ht2, root', fixed⟩
    · obtain ⟨g', hr', hg'⟩ := ih (m := { m with node := g }) hg ht'
      rw [same] at hg hr'
      have up := returns_parentAbove (m := { m with node := g }) hg (attach_ne_nil f t)
      rw [root_attach] at up hr'
      exact ⟨g', .turn (.ite_neg h0 (.bind hr (.bind up (.pure _ _)))) hr', hg'⟩
    · have h2 : Holds g (plug (f' :: p) t') := by rwa [fixed] at hg
      have up2 := returns_parentAbove (m := { m with node := g }) h2 ht2
      obtain ⟨g2, hr2, hg2⟩ := returns_simpleRotate (m := { m with node := g }) h2 ht2
      rw [simpleFix_idle t' full] at hg2
      have up3 := returns_parentAbove (m := { m with node := g2 }) hg2 (attach_ne_nil f' t')
      obtain ⟨g3, hr3, hg3⟩ := ih (m := { m with node := g2 }) hg2 (attach_ne_nil f' t')
      rw [root_attach] at up3 hr3
      rw [root'] at up2 hr2
      have h0' : f'.elem.addr ≠ 0 := (rep_plug.mp h2.rep).1.1
      refine ⟨g3, .turn (.ite_neg h0 (.bind hr (.bind up2 (.pure _ _)))) ?_, ?_⟩
      · exact .turn (.ite_neg h0' (.bind hr2 (.bind up3 (.pure _ _)))) hr3
      · rwa [simpleUp, fixed]

/-- `node_simple_balance` terminates and leaves the balanced tree. -/
theorem nodeSimpleBalance_returns {p : Path (Cell K V)} {t : Shape K V} (h : Holds m.node (plug p t))
    (ht : t ≠ .nil) :
    ∃ g, Returns (nodeSimpleBalance (root t)) m () { m with node := g } ∧ Holds g (simpleUp p t) := by
  obtain ⟨g, hr, hg⟩ := simpleLoop_returns h ht
  exact ⟨g, .bind (returns_parentAbove h ht) hr, hg⟩

end Twcos.Tree
