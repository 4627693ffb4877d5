import Twcos.Tree.Rep

/-!
# Rotations in memory

The effect of `node_rotate_left` and `node_rotate_right` on a tree in memory (`nodeRotate_returns`): none
of their assertions fails, and the tree they leave is the rotated one, at whatever depth the node is.
-/

namespace Twcos.Tree
open Twcos.Prog Twcos.Bin

variable {K V : Type} {m : Mem K V}

/-- The node that is changed. -/
lemma modify_self {p : Ptr} {n : Node K V} {f : Node K V → Node K V} (h : m.node p = some n) :
    (m.modify p f).node p = some (f n) := by
  simp only [Mem.modify, if_pos, h, Option.map_some]

/-- Changing a node leaves the others. -/
lemma modify_ne {p q : Ptr} {f : Node K V → Node K V} (h : q ≠ p) :
    (m.modify p f).node q = m.node q := by
  simp only [Mem.modify, if_neg h]

/-- Changing a node makes none and deletes none. -/
@[simp] lemma modify_isSome (p q : Ptr) (f : Node K V → Node K V) :
    ((m.modify p f).node q).isSome = (m.node q).isSome := by
  by_cases e : q = p
  · subst e
    simp only [Mem.modify, if_pos, Option.isSome_map]
  · rw [modify_ne e]

/-- Empty slots stay empty. -/
lemma modify_empty {p q : Ptr} {f : Node K V → Node K V} (h : m.node q = none) :
    (m.modify p f).node q = none := by
  by_cases e : q = p
  · subst e
    simp only [Mem.modify, if_pos, h, Option.map_none]
  · rw [modify_ne e, h]

/-- A store that leaves the slot as it is changes nothing. -/
lemma modify_same {p : Ptr} {f : Node K V → Node K V} (h : (m.node p).map f = m.node p) : m.modify p f = m := by
  obtain ⟨node, root, allocs⟩ := m
  simp only [Mem.modify, Mem.mk.injEq, and_true]
  funext q
  by_cases e : q = p
  · subst e
    rw [if_pos rfl]
    exact h
  · rw [if_neg e]

/-- Changing a slot that holds no node changes nothing. -/
lemma modify_none {p : Ptr} {f : Node K V → Node K V} (h : m.node p = none) : m.modify p f = m :=
  modify_same (by rw [h, Option.map_none])

/-- Reading a node. -/
lemma returns_deref {p : Ptr} {n : Node K V} (h : m.node p = some n) : Returns (deref p) m n m :=
  .demand h

/-- Writing one. -/
lemma returns_store {p : Ptr} {f : Node K V → Node K V} (h : (m.node p).isSome) :
    Returns (store p f) m () (m.modify p f) := by
  obtain ⟨n, hn⟩ := Option.isSome_iff_exists.mp h
  exact .bind (returns_deref hn) (.update _ _)

/-- Reading the parent of a node. -/
lemma returns_parentOf {p : Ptr} {n : Node K V} (h : m.node p = some n) :
    Returns (parentOf p) m n.parent m :=
  .bind (returns_deref h) (.pure _ _)

/-- An assertion that holds. -/
lemma returns_assert {c : Prop} [Decidable c] (h : c) : Returns (assert (decide c)) m () m := .check h

/-- `node_count` of a subtree is its size. -/
lemma returns_nodeCount {t : Shape K V} {q : Ptr} (h : Rep m.node t q) :
    Returns (nodeCount (root t)) m t.size m := by
  cases t with
  | nil => exact .ite_pos rfl (.pure _ _)
  | node l x r =>
    obtain ⟨h0, hx, -, -⟩ := h
    exact .ite_neg h0 (.bind (returns_deref hx) (.pure _ _))

/-- `if (p) p->… = …`. -/
lemma returns_whenStore {p : Ptr} {f : Node K V → Node K V} (h0 : m.node 0 = none)
    (h : p ≠ 0 → (m.node p).isSome) :
    Returns (when (p ≠ 0) (store p f)) m () (m.modify p f) := by
  by_cases e : p = 0
  · subst e
    rw [modify_none h0]
    exact .when_neg fun h => h rfl
  · exact .when_pos e (returns_store (h e))

/-- Replace the link to `x` by one to `y`, looking at the left link first. -/
def relink (x y : Ptr) (n : Node K V) : Node K V :=
  if x = n.left then { n with left := y } else { n with right := y }

/-- Replacing a child. -/
lemma relink_record {s : Side} {z : Cell K V} {n : Nat} {q x y b : Ptr} (h : x ≠ b) :
    relink x y (record s z n q x b) = record s z n q y b := by
  cases s with
  | left => exact if_pos rfl
  | right => exact if_neg h

/-- The statement of a rotation that links the upper node into the parent. -/
lemma returns_relink {q x y : Ptr} (h0 : m.node 0 = none) (h : q ≠ 0 → (m.node q).isSome) :
    Returns (when (q ≠ 0) do
      let nq ← deref q
      if x = nq.left then store q fun n => { n with left := y }
      else store q fun n => { n with right := y }) m () (m.modify q (relink x y)) := by
  by_cases e : q = 0
  · subst e
    rw [modify_none h0]
    exact .when_neg fun h => h rfl
  · obtain ⟨n, hn⟩ := Option.isSome_iff_exists.mp (h e)
    refine .when_pos e (.bind (returns_deref hn) ?_)
    by_cases hx : x = n.left
    · have same : m.modify q (relink x y) = m.modify q fun n => { n with left := y } := by
        simp only [Mem.modify, hn, Option.map_some, relink, if_pos hx]
      rw [if_pos hx, same]
      exact returns_store (h e)
    · have same : m.modify q (relink x y) = m.modify q fun n => { n with right := y } := by
        simp only [Mem.modify, hn, Option.map_some, relink, if_neg hx]
      rw [if_neg hx, same]
      exact returns_store (h e)

/-- The linkage assertion at the top of a subtree in memory. -/
lemma returns_assertLinked {p : Path (Cell K V)} {x : Ptr} {n : Nat} {nx : Node K V}
    (hx : m.node x = some nx) (hp : nx.parent = above p) (h : RepPath m.node p x n) :
    Returns (assertLinked x) m () m := by
  refine .bind (returns_deref hx) ?_
  rw [hp]
  cases p with
  | nil => exact .when_neg fun h => h rfl
  | cons f p =>
    obtain ⟨h0, hf, -, -⟩ := h
    refine .when_pos h0 (.bind (returns_deref hf) (returns_assert ?_))
    cases f.side with
    | left => exact .inl rfl
    | right => exact .inr rfl

/-- The assertion that a child points back to its parent. -/
lemma returns_assertChild {t : Shape K V} {q : Ptr} (h : Rep m.node t q) :
    Returns (when (root t ≠ 0) do
      let n ← deref (root t)
      assert (n.parent = q)) m () m := by
  cases t with
  | nil => exact .when_neg fun h => h rfl
  | node l x r =>
    obtain ⟨h0, hx, -, -⟩ := h
    exact .when_pos h0 (.bind (returns_deref hx) (returns_assert rfl))

/-- The memory after a rotation of `y` over `x` has hung `x` below `y` and the subtree `c` below `x`;
    `q` is the old parent of `x`. -/
def Mem.hang (m : Mem K V) (s : Side) (x y c q : Ptr) : Mem K V :=
  ((((m.modify y fun n => { n with parent := q }).modify x fun n => { n with parent := y }).modify y
    fun n => n.setChild s x).modify x fun n => n.setChild s.opp c).modify c
    fun n => { n with parent := x }

/-- The memory after all pointer assignments of the rotation. -/
def Mem.turn (m : Mem K V) (s : Side) (x y c q : Ptr) : Mem K V :=
  (m.hang s x y c q).modify q (relink x y)

section Turn
variable {s : Side} {x y c q : Ptr}

/-- The lower node after the links are turned. -/
lemma turn_lower {nx : Node K V} (hx : m.node x = some nx) (xy : x ≠ y) (cx : c ≠ x) (qx : q ≠ x) :
    (m.turn s x y c q).node x = some ({ nx with parent := y }.setChild s.opp c) := by
  rw [Mem.turn, modify_ne qx.symm, Mem.hang, modify_ne cx.symm]
  apply modify_self
  rw [modify_ne xy]
  apply modify_self
  rw [modify_ne xy, hx]

/-- The upper node, before its subtree is hung in. -/
lemma hang_upper {ny : Node K V} (hy : m.node y = some ny) (xy : x ≠ y) (cy : c ≠ y) :
    (m.hang s x y c q).node y = some ({ ny with parent := q }.setChild s x) := by
  rw [Mem.hang, modify_ne cy.symm, modify_ne xy.symm]
  apply modify_self
  rw [modify_ne xy.symm]
  exact modify_self hy

/-- The upper node after its subtree is hung in. -/
lemma turn_upper {ny : Node K V} (hy : m.node y = some ny) (xy : x ≠ y) (cy : c ≠ y) (qy : q ≠ y) :
    (m.turn s x y c q).node y = some ({ ny with parent := q }.setChild s x) := by
  rw [Mem.turn, modify_ne qy.symm, hang_upper hy xy cy]

/-- The subtree between them. -/
lemma turn_middle {nc : Node K V} (hc : m.node c = some nc) (cx : c ≠ x) (cy : c ≠ y) (qc : q ≠ c) :
    (m.turn s x y c q).node c = some { nc with parent := x } := by
  rw [Mem.turn, modify_ne qc.symm, Mem.hang]
  apply modify_self
  rw [modify_ne cx, modify_ne cy, modify_ne cx, modify_ne cy, hc]

/-- The node above. -/
lemma turn_above {nq : Node K V} (hq : m.node q = some nq) (qx : q ≠ x) (qy : q ≠ y) (qc : q ≠ c) :
    (m.turn s x y c q).node q = some (relink x y nq) := by
  rw [Mem.turn]
  apply modify_self
  rw [Mem.hang, modify_ne qc, modify_ne qx, modify_ne qy, modify_ne qx, modify_ne qy, hq]

/-- All other nodes. -/
lemma turn_ne {p : Ptr} (px : p ≠ x) (py : p ≠ y) (pc : p ≠ c) (pq : p ≠ q) :
    (m.turn s x y c q).node p = m.node p := by
  rw [Mem.turn, modify_ne pq, Mem.hang, modify_ne pc, modify_ne px, modify_ne py, modify_ne px, modify_ne py]

/-- No node is made. -/
lemma turn_none {p : Ptr} (h : m.node p = none) : (m.turn s x y c q).node p = none :=
  modify_empty (modify_empty (modify_empty (modify_empty (modify_empty (modify_empty h)))))

end Turn

/-- What a tree in memory gives for a rotation of `y` over `x`: the two nodes, the three subtrees and the path above them,
    which have no slot in common. -/
structure Pivot (m : Mem K V) (s : Side) (p : Path (Cell K V)) (a c e : Shape K V) (x y : Cell K V) : Prop where
  path : RepPath m.node p x.addr (1 + a.size + (1 + c.size + e.size))
  lower_ne : x.addr ≠ 0
  lower : m.node x.addr = some (record s x (1 + a.size + (1 + c.size + e.size)) (above p) (root a) y.addr)
  upper_ne : y.addr ≠ 0
  upper : m.node y.addr = some (record s y (1 + c.size + e.size) x.addr (root c) (root e))
  inner : Rep m.node a x.addr
  middle : Rep m.node c y.addr
  outer : Rep m.node e y.addr
  nodup_path : (pathAddrs p).Nodup
  nodup_middle : (addrs c).Nodup
  ne : x.addr ≠ y.addr
  of_inner : ∀ q ∈ addrs a, q ≠ x.addr ∧ q ≠ y.addr ∧ q ∉ addrs c
  of_middle : ∀ q ∈ addrs c, q ≠ x.addr ∧ q ≠ y.addr
  of_outer : ∀ q ∈ addrs e, q ≠ x.addr ∧ q ≠ y.addr ∧ q ∉ addrs c
  of_path : ∀ q ∈ pathAddrs p, q ≠ x.addr ∧ q ≠ y.addr ∧ q ∉ addrs a ∧ q ∉ addrs c ∧ q ∉ addrs e

section Pivot
variable {s : Side} {p : Path (Cell K V)} {a c e : Shape K V} {x y : Cell K V}

/-- What a tree has around a rotation. -/
lemma pivot_of_holds (h : Holds m.node (plug p (mk s a x (mk s c y e)))) : Pivot m s p a c e x y := by
  obtain ⟨hp, ht⟩ := rep_plug.mp h.rep
  obtain ⟨dp, dt, dpt⟩ := nodup_plug.mp h.nodup
  obtain ⟨hx0, hx, ha, hyt⟩ := rep_mk.mp ht
  obtain ⟨hy0, hy, hc, he⟩ := rep_mk.mp hyt
  obtain ⟨-, dy, dxa, dxy, day⟩ := nodup_mk.mp dt
  obtain ⟨dc, -, dyc, dye, dce⟩ := nodup_mk.mp dy
  rw [root_mk, size_mk] at hx hp
  simp only [size_mk] at hp
  simp only [mem_addrs_mk, not_or] at dpt day dxy
  refine ⟨hp, hx0, hx, hy0, hy, ha, hc, he, dp, dc, dxy.2.1, fun q hq => ?_, fun q hq => ?_, fun q hq => ?_, fun q hq => ?_⟩
  · exact ⟨fun h => dxa (h ▸ hq), (day q hq).2.1, (day q hq).1⟩
  · exact ⟨fun h => dxy.1 (h ▸ hq), fun h => dyc (h ▸ hq)⟩
  · exact ⟨fun h => dxy.2.2 (h ▸ hq), fun h => dye (h ▸ hq), fun hm => dce q hm hq⟩
  · obtain ⟨qa, qx, qc, qy, qe⟩ := dpt q hq
    exact ⟨qx, qy, qa, qc, qe⟩

/-- A slot outside of the middle subtree is not its root. -/
lemma ne_root {q : Ptr} (h0 : q ≠ 0) (hq : q ∉ addrs c) : q ≠ root c := by
  rintro rfl
  exact hq (root_mem h0)

/-- An address that is not in the path is not that of the node above. -/
lemma ne_above {q : Ptr} (h0 : q ≠ 0) (hq : q ∉ pathAddrs p) : q ≠ above p := by
  rintro rfl
  exact hq (above_mem h0)

/-- The subtree in the middle is not the lower node. -/
lemma Pivot.root_lower (h : Pivot m s p a c e x y) : root c ≠ x.addr := by
  intro same
  have nonzero : root c ≠ 0 := same ▸ h.lower_ne
  exact (h.of_middle _ (root_mem nonzero)).1 same

/-- The subtree in the middle is not the upper node. -/
lemma Pivot.root_upper (h : Pivot m s p a c e x y) : root c ≠ y.addr := by
  intro same
  have nonzero : root c ≠ 0 := same ▸ h.upper_ne
  exact (h.of_middle _ (root_mem nonzero)).2 same

/-- The node above is not the lower node. -/
lemma Pivot.above_lower (h : Pivot m s p a c e x y) : above p ≠ x.addr := by
  intro same
  have nonzero : above p ≠ 0 := same ▸ h.lower_ne
  exact (h.of_path _ (above_mem nonzero)).1 same

/-- The node above is not the upper node. -/
lemma Pivot.above_upper (h : Pivot m s p a c e x y) : above p ≠ y.addr := by
  intro same
  have nonzero : above p ≠ 0 := same ▸ h.upper_ne
  exact (h.of_path _ (above_mem nonzero)).2.1 same

/-- The slots of a subtree stay, if it is not the middle one. -/
lemma turn_subtree {t : Shape K V} {q : Ptr} (rep : Rep m.node t q)
    (ofTree : ∀ q ∈ addrs t, q ≠ x.addr ∧ q ≠ y.addr ∧ q ∉ addrs c) (ofPath : ∀ q ∈ pathAddrs p, q ∉ addrs t) :
    Rep (m.turn s x.addr y.addr (root c) (above p)).node t q := by
  refine rep.frame fun r hr => ?_
  have h0 := rep.ne_zero hr
  obtain ⟨rx, ry, rc⟩ := ofTree r hr
  exact turn_ne rx ry (ne_root h0 rc) (ne_above h0 fun hm => ofPath r hm hr)

/-- The middle subtree gets another parent. -/
lemma Pivot.turn_middle (h : Pivot m s p a c e x y) (null : m.node 0 = none) :
    Rep (m.turn s x.addr y.addr (root c) (above p)).node c x.addr := by
  refine h.middle.reparent h.nodup_middle ?_ ?_
  · intro n hn
    have h0 : root c ≠ 0 := by
      intro zero
      rw [zero, null] at hn
      cases hn
    refine Tree.turn_middle hn h.root_lower h.root_upper fun same => ?_
    have nonzero : above p ≠ 0 := same ▸ h0
    exact (h.of_path _ (above_mem nonzero)).2.2.2.1 (same ▸ root_mem h0)
  · intro q hq hne
    have h0 := h.middle.ne_zero hq
    obtain ⟨qx, qy⟩ := h.of_middle q hq
    exact turn_ne qx qy hne (ne_above h0 fun hm => (h.of_path q hm).2.2.2.1 hq)

/-- The path has `y` in the place of `x`. -/
lemma Pivot.turn_path (h : Pivot m s p a c e x y) :
    RepPath (m.turn s x.addr y.addr (root c) (above p)).node p y.addr (1 + a.size + (1 + c.size + e.size)) := by
  cases p with
  | nil => trivial
  | cons f p =>
    have ⟨hf0, hf, _, _⟩ := h.path
    refine RepPath.relink h.path h.nodup_path ?_ ?_
    · have sibling : x.addr ≠ root f.sibling := by
        intro same
        have nonzero : root f.sibling ≠ 0 := same ▸ h.lower_ne
        refine (h.of_path x.addr ?_).1 rfl
        rw [same, pathAddrs_cons]
        exact List.mem_append_left _ (List.mem_cons_of_mem _ (root_mem nonzero))
      rw [← relink_record sibling]
      exact turn_above hf h.above_lower h.above_upper (ne_root hf0 (h.of_path _ (above_mem hf0)).2.2.2.1)
    · intro q hq hne
      obtain ⟨qx, qy, -, qc, -⟩ := h.of_path q hq
      exact turn_ne qx qy (ne_root (h.path.ne_zero hq) qc) hne

/-- The two nodes after the pointer assignments; their counts are still the old ones. -/
lemma Pivot.turn_lower (h : Pivot m s p a c e x y) :
    (m.turn s x.addr y.addr (root c) (above p)).node x.addr =
      some (record s x (1 + a.size + (1 + c.size + e.size)) y.addr (root a) (root c)) := by
  rw [Tree.turn_lower h.lower h.ne h.root_lower h.above_lower]
  cases s <;> rfl

/-- The upper node, with its counts. -/
lemma Pivot.turn_upper (h : Pivot m s p a c e x y) :
    (m.turn s x.addr y.addr (root c) (above p)).node y.addr =
      some (record s y (1 + c.size + e.size) (above p) x.addr (root e)) := by
  rw [Tree.turn_upper h.upper h.ne h.root_upper h.above_upper]
  cases s <;> rfl

/-- The slots that a rotation writes hold nodes. -/
lemma isSome_root {t : Shape K V} {q : Ptr} (rep : Rep m.node t q) (h0 : root t ≠ 0) : (m.node (root t)).isSome := by
  cases t with
  | nil => exact absurd rfl h0
  | node l z r => exact Option.isSome_iff_exists.mpr ⟨_, rep.2.1⟩

/-- The node above is there, if it is not null. -/
lemma isSome_above {n : Nat} {q : Ptr} (rep : RepPath m.node p q n) (h0 : above p ≠ 0) : (m.node (above p)).isSome := by
  cases p with
  | nil => exact absurd rfl h0
  | cons f p => exact Option.isSome_iff_exists.mpr ⟨_, rep.2.1⟩

/-- The counts are written last. -/
def Mem.recount (m : Mem K V) (x y : Ptr) (lower upper : Int) : Mem K V :=
  (m.modify x fun n => { n with count := lower }).modify y fun n => { n with count := upper }

/-- Counting changes the two nodes only. -/
lemma recount_ne {x y q : Ptr} {i j : Int} (qx : q ≠ x) (qy : q ≠ y) : (m.recount x y i j).node q = m.node q := by
  rw [Mem.recount, modify_ne qy, modify_ne qx]

end Pivot

/-- A rotation leaves the rotated tree in memory. -/
theorem nodeRotate_returns {s : Side} {p : Path (Cell K V)} {a c e : Shape K V} {x y : Cell K V}
    (h : Holds m.node (plug p (mk s a x (mk s c y e)))) :
    ∃ g, Returns (nodeRotate s x.addr) m () { m with node := g } ∧
      Holds g (plug p (mk s (mk s a x c) y e)) := by
  have null := h.null
  have pivot := pivot_of_holds h
  have sx : (m.node x.addr).isSome := Option.isSome_iff_exists.mpr ⟨_, pivot.lower⟩
  have sy : (m.node y.addr).isSome := Option.isSome_iff_exists.mpr ⟨_, pivot.upper⟩
  have gx := pivot.turn_lower
  have gy := pivot.turn_upper
  have ga := turn_subtree (s := s) pivot.inner pivot.of_inner fun q hq => (pivot.of_path q hq).2.2.1
  have gc := pivot.turn_middle null
  have ge := turn_subtree (s := s) pivot.outer pivot.of_outer fun q hq => (pivot.of_path q hq).2.2.2.2
  let m6 := m.turn s x.addr y.addr (root c) (above p)
  let m7 := m6.modify x.addr fun n => { n with count := 1 + (a.size : Int) + (c.size : Int) }
  let m8 := m6.recount x.addr y.addr (1 + (a.size : Int) + (c.size : Int))
    (1 + ((1 + a.size + c.size : Nat) : Int) + (e.size : Int))
  have x7 : m7.node x.addr = some (record s x (1 + a.size + c.size) y.addr (root a) (root c)) :=
    (modify_self gx).trans (congrArg some (record_setCount (by omega)))
  have x8 : m8.node x.addr = some (record s x (1 + a.size + c.size) y.addr (root a) (root c)) :=
    (modify_ne pivot.ne).trans x7
  have y8 : m8.node y.addr =
      some (record s y (1 + (1 + a.size + c.size) + e.size) (above p) x.addr (root e)) := by
    have y7 : m7.node y.addr = _ := (modify_ne pivot.ne.symm).trans gy
    exact (modify_self y7).trans (congrArg some (record_setCount (by omega)))
  have p8 : RepPath m8.node p y.addr (1 + (1 + a.size + c.size) + e.size) := by
    rw [show 1 + (1 + a.size + c.size) + e.size = 1 + a.size + (1 + c.size + e.size) by omega]
    exact pivot.turn_path.frame fun q hq => recount_ne (pivot.of_path q hq).1 (pivot.of_path q hq).2.1
  refine ⟨m8.node, ?_, ?_⟩
  · refine .bind (returns_deref pivot.lower) ?_
    simp only [record_child, record_child_opp, record_parent]
    refine .bind (returns_deref pivot.upper) ?_
    simp only [record_child, record_child_opp, record_parent]
    refine .bind (returns_assert pivot.upper_ne) (.bind (returns_assert trivial) ?_)
    refine .bind (returns_assertChild pivot.middle) (.bind (returns_assertLinked pivot.lower (by simp) pivot.path) ?_)
    refine .bind (returns_store sy) (.bind (returns_store (by simpa using sx)) ?_)
    refine .bind (returns_store (by simpa using sy)) (.bind (returns_store (by simpa using sx)) ?_)
    refine .bind (returns_whenStore ?_ ?_) ?_
    · exact modify_empty (modify_empty (modify_empty (modify_empty null)))
    · exact fun h0 => by simpa using isSome_root pivot.middle h0
    -- `y` has its new parent by now
    have y5 := hang_upper (s := s) (q := above p) pivot.upper pivot.ne pivot.root_upper
    have q5 : ({ record s y (1 + c.size + e.size) x.addr (root c) (root e) with
        parent := above p }.setChild s x.addr).parent = above p := by cases s <;> rfl
    refine .bind (returns_parentOf y5) ?_
    rw [q5]
    refine .bind (returns_relink ?_ ?_) ?_
    · exact modify_empty (modify_empty (modify_empty (modify_empty (modify_empty null))))
    · exact fun h0 => by simpa [Mem.hang] using isSome_above pivot.path h0
    refine .bind (returns_nodeCount ga) (.bind (returns_nodeCount gc) ?_)
    refine .bind (returns_store (Option.isSome_iff_exists.mpr ⟨_, gx⟩)) ?_
    refine .bind (.ite_neg pivot.lower_ne (.bind (returns_deref x7) (.pure _ _))) ?_
    rw [record_count]
    refine .bind (returns_nodeCount (t := e) (q := y.addr) ?_) ?_
    · exact ge.frame fun q hq => modify_ne (pivot.of_outer q hq).1
    refine .bind (returns_store ?_) ?_
    · exact Option.isSome_iff_exists.mpr ⟨_, (modify_ne pivot.ne.symm).trans gy⟩
    exact returns_assertLinked y8 (record_parent ..) p8
  · refine h.replace ?_ ?_ ?_ ?_
    · rw [addrs, addrs, cells_rotate]
    · rw [root_mk, size_mk, size_mk]
      exact p8
    · refine rep_mk.mpr ⟨pivot.upper_ne, ?_, rep_mk.mpr ⟨pivot.lower_ne, x8, ?_, ?_⟩, ?_⟩
      · rw [root_mk, size_mk]
        exact y8
      · exact ga.frame fun q hq => recount_ne (pivot.of_inner q hq).1 (pivot.of_inner q hq).2.1
      · exact gc.frame fun q hq => recount_ne (pivot.of_middle q hq).1 (pivot.of_middle q hq).2
      · exact ge.frame fun q hq => recount_ne (pivot.of_outer q hq).1 (pivot.of_outer q hq).2.1
    · exact fun q hq => modify_empty (modify_empty (turn_none (h.rest q hq)))

end Twcos.Tree
