import Twcos.Tree.Lookup

/-!
# Splaying and its mirror image

`node_splay` against splaying as it should be, on a tree and on its mirror image. For a right child of a left child the
source tests `node_is_right` a second time where it should test `node_is_left`, so the node goes up a single step and
the steps above it are grouped differently. This makes no difference if the sides alternate up to the root, because then
all rotations are single ones in both groupings; otherwise it does (`splayUp_ne`).
-/

namespace Twcos.Tree
open Twcos.Prog Twcos.Bin

variable {K V : Type}

/-! ### The two groupings -/

section
variable {α : Type}

/-- Where a path alternates, splaying is rotating. -/
lemma splayUp_alternates {p : Path α} (h : Alternates p) (t : Bin α) : splayUp p t = lifts p t := by
  induction p, t using splayUp.induct with
  | case1 t => rfl
  | case2 f t => rfl
  | case3 f g p t same ih => exact absurd same h.1
  | case4 f g p t other hl ih =>
    rw [splayUp, if_neg other, if_pos hl]
    cases p with
    | nil => rfl
    | cons k p => exact ih h.2.2
  | case5 f g p t other hl ih =>
    rw [splayUp, if_neg other, if_neg hl]
    exact ih h.2

/-- Splaying only makes a flank longer. -/
lemma flank_prefix_splayUp (s : Side) (p : Path α) {t : Bin α} (ht : t ≠ .nil) :
    flank s t <+: flank s (splayUp p t) := by
  induction p, t using splayUp.induct with
  | case1 t => exact List.prefix_rfl
  | case2 f t => exact flank_prefix_lift s f ht
  | case3 f g p t same ih =>
    rw [splayUp, if_pos same]
    exact (flank_prefix_lift s _ ht).trans (ih (lift_ne_nil ht))
  | case4 f g p t other hl ih =>
    rw [splayUp, if_neg other, if_pos hl]
    have up := (flank_prefix_lift s f ht).trans (flank_prefix_lift s g (lift_ne_nil ht))
    exact up.trans (ih (lift_ne_nil (lift_ne_nil ht)))
  | case5 f g p t other hl ih =>
    rw [splayUp, if_neg other, if_neg hl]
    exact (flank_prefix_lift s f ht).trans (ih (lift_ne_nil ht))

/-- With a left step that is the first of a pair for the source and the second one for splaying, the trees differ, unless
    the sides alternate from there on. -/
lemma splayUp_ne {g : Frame α} {p : Path α} {t : Bin α} (ht : t ≠ .nil) (left : g.side = .left)
    (h : ¬Alternates (g :: p)) : splayUp (g :: p) t ≠ splay p (lift g t) := by
  -- two steps at a time, as long as the sides alternate
  induction k : p.length using Nat.strong_induction_on generalizing g p t with
  | _ k ih =>
    subst k
    cases p with
    | nil => exact absurd trivial h
    | cons f p =>
      by_cases same : g.side = f.side
      · rw [splayUp, if_pos same]
        exact ne_of_flank (f := g) (g := f) ht (flank_prefix_splayUp _ p (lift_ne_nil ht))
          (flank_prefix_splay _ (f :: p) (lift_ne_nil ht))
      · rw [splayUp, if_neg same, if_pos left]
        have rest : ¬Alternates (f :: p) := fun alternates => h ⟨same, alternates⟩
        cases p with
        | nil => exact absurd trivial rest
        | cons e p =>
          by_cases same' : f.side = e.side
          · rw [splay, if_pos same']
            refine (ne_of_flank (f := f) (g := e) (t := Bin.lift g t) (lift_ne_nil ht) ?_ ?_).symm
            · exact flank_prefix_splay _ p (lift_ne_nil (lift_ne_nil ht))
            · exact flank_prefix_splayUp _ (e :: p) (lift_ne_nil (lift_ne_nil ht))
          · rw [splay, if_neg same']
            have again : e.side = .left := by
              rw [Side.eq_opp same', Side.eq_opp same, left]
              rfl
            have less : p.length < (f :: e :: p).length := by
              rw [List.length_cons, List.length_cons]
              omega
            exact ih p.length less (lift_ne_nil (lift_ne_nil ht)) again (fun alternates => rest ⟨same', alternates⟩) rfl

/-- The ways up on which the source splays in both orientations: two steps at a time are on the same side, until the sides
    alternate up to the root. -/
def Tame : Path α → Prop
  | f :: g :: p => if f.side = g.side then Tame p else Alternates (f :: g :: p)
  | _ => True

/-- Both the tree and its mirror image are splayed exactly on these ways. -/
lemma tame_iff (p : Path α) {t : Bin α} (ht : t ≠ .nil) : Tame p ↔
    splayUp p t = splay p t ∧ splayUp (p.map Frame.mirror) t.mirror = splay (p.map Frame.mirror) t.mirror := by
  induction p, t using splay.induct with
  | case1 t => exact iff_of_true trivial ⟨rfl, rfl⟩
  | case2 f t => exact iff_of_true trivial ⟨rfl, rfl⟩
  | case3 f g p t same ih =>
    have same' := mirror_side_eq.mpr same
    rw [Tame, if_pos same, ih (lift_ne_nil ht), splayUp, if_pos same, splay, if_pos same, List.map_cons, List.map_cons,
      splayUp, if_pos same', splay, if_pos same', mirror_lift, mirror_zigzig]
    exact Iff.rfl
  | case4 f g p t other ih =>
    have other' := mt mirror_side_eq.mp other
    rw [Tame, if_neg other]
    constructor
    · intro alternates
      have mirrored := (alternates_mirror _).mpr alternates
      exact ⟨(splayUp_alternates alternates t).trans (splay_alternates alternates t).symm,
        (splayUp_alternates mirrored _).trans (splay_alternates mirrored _).symm⟩
    · rintro ⟨eq, eq'⟩
      by_contra h
      cases side : f.side with
      | right =>
        rw [splayUp, if_neg other, if_neg (fun left => by cases side.symm.trans left), splay, if_neg other] at eq
        refine splayUp_ne (lift_ne_nil ht) ?_ (fun alternates => h ⟨other, alternates⟩) eq
        rw [Side.eq_opp other, side]
        rfl
      | left =>
        have side' : f.mirror.side = .right := by rw [Frame.mirror, side]; rfl
        rw [List.map_cons, List.map_cons, splayUp, if_neg other', if_neg (fun left => by cases side'.symm.trans left), splay, if_neg other'] at eq'
        refine splayUp_ne (lift_ne_nil (mirror_ne_nil ht)) ?_ (fun alternates => h ⟨other, ?_⟩) eq'
        · rw [Side.eq_opp other', side']
          rfl
        · exact (alternates_mirror (g :: p)).mp alternates

end

/-! ### In memory -/

variable {m : Mem K V} {u v : Shape K V}

/-- The node with its children exchanged. -/
def Node.mirror (n : Node K V) : Node K V := { n with left := n.right, right := n.left }

/-- The mirror image of the nodes in memory. -/
def Mem.mirror (m : Mem K V) : Mem K V := { m with node := fun p => (m.node p).map Node.mirror }

/-- The nodes in memory form the tree, whatever their counts are. -/
def Forms (m : Mem K V) (u : Shape K V) : Prop := ∃ m', Holds m'.node u ∧ Alike (fun _ _ => True) m' m

/-- The links have the shape of the tree. -/
lemma Links.forms (h : Links m u) : Forms m u := by
  obtain ⟨m0, stores, alike⟩ := h
  exact ⟨m0, stores.holds, alike⟩

/-- The root of the mirror image. -/
lemma root_mirror (t : Shape K V) : root t.mirror = root t := by cases t <;> rfl

/-- The mirror image in memory. -/
lemma Rep.mirror {g : Ptr → Option (Node K V)} {t : Shape K V} {q : Ptr} (h : Rep g t q) :
    Rep (fun p => (g p).map Node.mirror) t.mirror q := by
  induction t generalizing q with
  | nil => trivial
  | node l x r ihl ihr =>
    obtain ⟨h0, hx, hl, hr⟩ := h
    refine ⟨h0, ?_, ihr hr, ihl hl⟩
    show (g x.addr).map _ = _
    rw [hx, root_mirror, root_mirror, size_mirror, size_mirror, show 1 + r.size + l.size = 1 + l.size + r.size by omega]
    rfl

/-- A tree and its mirror image, with nothing else in memory. -/
lemma Holds.mirror {g : Ptr → Option (Node K V)} {t : Shape K V} (h : Holds g t) :
    Holds (fun p => (g p).map Node.mirror) t.mirror := by
  have addrs_eq : addrs t.mirror = (addrs t).reverse := by rw [addrs, cells_mirror, List.map_reverse, addrs]
  refine ⟨h.rep.mirror, ?_, fun p hp => ?_⟩
  · rw [addrs_eq]
    exact List.nodup_reverse.mpr h.nodup
  · rw [addrs_eq, List.mem_reverse] at hp
    rw [h.rest p hp]
    rfl

/-- The mirror image has the mirrored shape. -/
lemma Forms.mirror (h : Forms m u) : Forms m.mirror u.mirror := by
  obtain ⟨m0, holds, alike⟩ := h
  refine ⟨m0.mirror, holds.mirror, fun p n hn => ?_, fun p hp => ?_, alike.root, alike.allocs⟩
  · obtain ⟨n0, hn0, rfl⟩ := Option.map_eq_some_iff.mp hn
    obtain ⟨n', hn', k, rfl, -⟩ := alike.node p n0 hn0
    exact ⟨_, by show (m.node p).map _ = _; rw [hn']; rfl, k, rfl, trivial⟩
  · show (m.node p).map _ = none
    rw [alike.empty p (Option.map_eq_none_iff.mp hp)]
    rfl

/-- A node that is at a position of the tree. -/
lemma Forms.top {p : Path (Cell K V)} {l r : Shape K V} {x : Cell K V} (h : Forms m (plug p (.node l x r))) :
    x.addr ≠ 0 ∧ ∃ k, m.node x.addr = some ⟨x.key, x.data, k, x.priority, above p, root l, root r⟩ := by
  obtain ⟨m0, holds, alike⟩ := h
  obtain ⟨n, hn, k, rfl, -⟩ := alike.node _ _ holds.top
  exact ⟨(rep_plug.mp holds.rep).2.1, k, hn⟩

/-- The subtree at an address is determined by the memory. -/
lemma Forms.subtree {p q : Path (Cell K V)} (h : Forms m (plug p u)) (h' : Forms m (plug q v))
    (same : root u = root v) : u = v := by
  induction u generalizing p q v with
  | nil =>
    cases v with
    | nil => rfl
    | node l x r => exact absurd same.symm h'.top.1
  | node l x r ihl ihr =>
    cases v with
    | nil => exact absurd same h.top.1
    | node l' x' r' =>
      obtain ⟨-, k, hx⟩ := h.top
      obtain ⟨-, k', hx'⟩ := h'.top
      rw [show x.addr = x'.addr from same, hx'] at hx
      have left := ihl (p := ⟨.left, x, r⟩ :: p) (q := ⟨.left, x', r'⟩ :: q) h h'
      have right := ihr (p := ⟨.right, x, l⟩ :: p) (q := ⟨.right, x', l'⟩ :: q) h h'
      obtain ⟨addr, key, data, priority⟩ := x
      obtain ⟨addr', key', data', priority'⟩ := x'
      simp only [Option.some.injEq, Node.mk.injEq] at hx
      obtain ⟨rfl, rfl, -, rfl, -, hl, hr⟩ := hx
      cases same
      rw [left hl.symm, right hr.symm]

/-- The tree is determined by the memory. -/
lemma Forms.unique (h : Forms m u) (h' : Forms m v) : u = v := by
  refine h.subtree (p := []) (q := []) h' ?_
  have above_eq {u v : Shape K V} (h : Forms m u) (h' : Forms m v) (ne : u ≠ .nil) : root u = root v := by
    cases u with
    | nil => exact absurd rfl ne
    | node l x r =>
      -- the top of the one tree has no parent, so it is the top of the other
      obtain ⟨h0, k, hx⟩ := h.top (p := [])
      obtain ⟨m0, holds, alike⟩ := id h'
      have mem : x.addr ∈ addrs v := by
        by_contra absent
        rw [alike.empty _ (holds.rest _ absent)] at hx
        cases hx
      obtain ⟨q, l', y, r', rfl, e⟩ := exists_focus mem
      obtain ⟨-, k', hy⟩ := h'.top
      rw [e, hx] at hy
      cases q with
      | nil => exact e.symm
      | cons f q =>
        have null : (0 : Ptr) = f.elem.addr := congrArg Node.parent (Option.some.inj hy)
        exact absurd null.symm (rep_plug.mp holds.rep).1.1
  by_cases ne : u = .nil
  · by_cases ne' : v = .nil
    · rw [ne, ne']
    · exact (above_eq h' h ne').symm
  · exact above_eq h h' ne

/-- `node_splay` on a tree that is linked correctly. -/
lemma nodeSplay_forms {p : Path (Cell K V)} {l r : Shape K V} {x : Cell K V} (h : Forms m (plug p (.node l x r))) :
    ∃ m', Returns (nodeSplay x.addr) m () m' ∧ Forms m' (splayUp p (.node l x r)) := by
  obtain ⟨m0, holds, alike⟩ := h
  obtain ⟨g, run, holds'⟩ := nodeSplay_returns holds nofun
  obtain ⟨m', run', alike'⟩ := blind_returns (fun C hC => blind_nodeSplay hC _) run alike
  exact ⟨m', run', { m0 with node := g }, holds', alike'⟩

/-- The nodes are determined by the tree, with correct counts. -/
lemma Holds.unique {w : Mem K V} (h : Holds m.node u) (h' : Holds w.node u) : m.node = w.node := by
  funext p
  by_cases mem : p ∈ addrs u
  · obtain ⟨q, l, x, r, rfl, rfl⟩ := exists_focus mem
    rw [h.top, h'.top]
  · rw [h.rest p mem, h'.rest p mem]

/-- With correct counts, the nodes that `node_splay` leaves are determined by the tree. -/
lemma nodeSplay_holds {p : Path (Cell K V)} {l r : Shape K V} {x : Cell K V} (h : Holds m.node (plug p (.node l x r)))
    {m' : Mem K V} (run : Returns (nodeSplay x.addr) m () m') :
    Holds m'.node (splayUp p (.node l x r)) ∧ m' = { m with node := m'.node } := by
  obtain ⟨g, run', holds⟩ := nodeSplay_returns h nofun
  have same := (run.unique run').2
  subst same
  exact ⟨holds, rfl⟩

/-- `node_splay` of a node and of its mirror image end in the splayed tree and its mirror image, with correct counts if
    the counts were correct, exactly if the way up from the node is tame. -/
theorem nodeSplay_symmetric_iff (m : Mem K V) (p : Path (Cell K V)) (l r : Shape K V) (x : Cell K V)
    (links : Links m (plug p (.node l x r))) :
    (∃ m1 m2, Returns (nodeSplay x.addr) m () m1 ∧ Returns (nodeSplay x.addr) m.mirror () m2 ∧
      Forms m1 (splay p (.node l x r)) ∧ Forms m2 (splay p (.node l x r)).mirror ∧
      (Holds m.node (plug p (.node l x r)) → Holds m1.node (splay p (.node l x r)) ∧ m2 = m1.mirror)) ↔ Tame p := by
  have forms := links.forms
  have mirrored := forms.mirror
  rw [mirror_plug] at mirrored
  obtain ⟨m1, run1, forms1⟩ := nodeSplay_forms forms
  obtain ⟨m2, run2, forms2⟩ := nodeSplay_forms (p := p.map Frame.mirror) (l := r.mirror) (x := x) (r := l.mirror) mirrored
  rw [tame_iff p (t := .node l x r) nofun, mirror_splay]
  constructor
  · rintro ⟨m1', m2', run1', run2', forms1', forms2', -⟩
    rw [← (run1.unique run1').2] at forms1'
    rw [← (run2.unique run2').2] at forms2'
    exact ⟨forms1.unique forms1', forms2.unique forms2'⟩
  · rintro ⟨eq, eq'⟩
    rw [eq] at forms1
    refine ⟨m1, m2, run1, run2, forms1, eq' ▸ forms2, fun holds => ?_⟩
    have holds' := holds.mirror
    rw [mirror_plug] at holds'
    obtain ⟨holds1, rest1⟩ := nodeSplay_holds holds run1
    obtain ⟨holds2, rest2⟩ := nodeSplay_holds (p := p.map Frame.mirror) (l := r.mirror) (x := x) (r := l.mirror) holds' run2
    rw [eq] at holds1
    have same : m2.node = m1.mirror.node := by
      refine Holds.unique (w := m1.mirror) holds2 ?_
      have image := holds1.mirror
      rw [mirror_splay] at image
      exact eq' ▸ image
    refine ⟨holds1, ?_⟩
    rw [rest2, rest1, same, rest1]
    rfl

/-- Splaying the left node of three, and its mirror image. -/
theorem nodeSplay_symmetric_threeNodes : Links (threeNodes 0 0 0) threeShape ∧
    ∃ m1 m2, Returns (nodeSplay 1) (threeNodes 0 0 0) () m1 ∧ Returns (nodeSplay 1) (threeNodes 0 0 0).mirror () m2 ∧
      Forms m1 (splay [⟨.left, ⟨2, 20, 200, 0⟩, .node .nil ⟨3, 30, 300, 0⟩ .nil⟩] (.node .nil ⟨1, 10, 100, 0⟩ .nil)) ∧
      Forms m2 (splay [⟨.left, ⟨2, 20, 200, 0⟩, .node .nil ⟨3, 30, 300, 0⟩ .nil⟩]
        (.node .nil ⟨1, 10, 100, 0⟩ .nil)).mirror := by
  obtain ⟨m1, m2, run1, run2, forms1, forms2, -⟩ := (nodeSplay_symmetric_iff (threeNodes 0 0 0)
    [⟨.left, ⟨2, 20, 200, 0⟩, _⟩] .nil .nil ⟨1, 10, 100, 0⟩ (links_threeNodes 0 0 0)).mpr trivial
  exact ⟨links_threeNodes 0 0 0, m1, m2, run1, run2, forms1, forms2⟩

/-- Four nodes in a row: 20 is the right child of 10, which is at the end of the left children of 30 and 40. -/
def fourNodes : Mem Nat Nat where
  node p := if p = 1 then some ⟨10, 100, 2, 0, 3, 0, 2⟩ else if p = 2 then some ⟨20, 200, 1, 0, 1, 0, 0⟩ else
    if p = 3 then some ⟨30, 300, 3, 0, 4, 1, 0⟩ else if p = 4 then some ⟨40, 400, 4, 0, 0, 3, 0⟩ else none
  root := 4
  allocs := 4

/-- The way up from 20. -/
def fourPath : Path (Cell Nat Nat) :=
  [⟨.right, ⟨1, 10, 100, 0⟩, .nil⟩, ⟨.left, ⟨3, 30, 300, 0⟩, .nil⟩, ⟨.left, ⟨4, 40, 400, 0⟩, .nil⟩]

/-- Four nodes on a path that turns. -/
lemma stores_fourNodes : Stores fourNodes (plug fourPath (.node .nil ⟨2, 20, 200, 0⟩ .nil)) where
  holds := by
    refine ⟨?_, by decide, fun p absent => ?_⟩
    · exact ⟨by decide, rfl, ⟨by decide, rfl, ⟨by decide, rfl, trivial, by decide, rfl, trivial, trivial⟩, trivial⟩, trivial⟩
    · have ne : p ≠ 1 ∧ p ≠ 2 ∧ p ≠ 3 ∧ p ≠ 4 := by
        simpa [addrs, fourPath, plug, attach, mk, cells] using absent
      show (if p = 1 then _ else _) = _
      rw [if_neg ne.1, if_neg ne.2.1, if_neg ne.2.2.1, if_neg ne.2.2.2]
  root := rfl

/-- The source brings 30 above 40, where splaying brings 40 above 30. -/
theorem nodeSplay_not_splay : Links fourNodes (plug fourPath (.node .nil ⟨2, 20, 200, 0⟩ .nil)) ∧
    ∃ m', Returns (nodeSplay 2) fourNodes () m' ∧
      Forms m' (.node (.node .nil ⟨1, 10, 100, 0⟩ .nil) ⟨2, 20, 200, 0⟩
        (.node .nil ⟨3, 30, 300, 0⟩ (.node .nil ⟨4, 40, 400, 0⟩ .nil))) ∧
      ¬Forms m' (splay fourPath (.node .nil ⟨2, 20, 200, 0⟩ .nil)) := by
  have links : Links fourNodes (plug fourPath (.node .nil ⟨2, 20, 200, 0⟩ .nil)) :=
    ⟨fourNodes, stores_fourNodes, fun p n hn => ⟨n, hn, n.count, rfl, trivial⟩, fun p hp => hp, rfl, rfl⟩
  obtain ⟨m', run, forms⟩ := nodeSplay_forms links.forms
  refine ⟨links, m', run, forms, fun splayed => ?_⟩
  have same := forms.unique splayed
  cases same

end Twcos.Tree
