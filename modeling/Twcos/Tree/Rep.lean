import Twcos.Tree.Basic

/-!
# Trees in memory

What it means for the node slots to hold a binary tree: every node is at its own address, its `left` and
`right` fields hold the addresses of its subtrees, its `parent` field the address of the node above it,
and its `count` the size of its subtree. `Rep` says this of a subtree, `RepPath` of the way from a subtree
to the root, and `Holds` of the whole memory: there is nothing in it but the nodes of the tree.
-/

namespace Twcos.Tree
open Twcos.Prog Twcos.Bin

variable {K V : Type}

/-- A node without its links and count, which follow from its place in the tree. -/
structure Cell (K V : Type) where
  addr : Ptr
  key : K
  data : V
  priority : Int

/-- The tree that the nodes form. -/
abbrev Shape (K V : Type) := Bin (Cell K V)

/-- The address of the topmost node. -/
def root : Shape K V → Ptr
  | .nil => 0
  | .node _ x _ => x.addr

/-- The addresses of the nodes. -/
def addrs (t : Shape K V) : List Ptr := t.cells.map Cell.addr

/-- The address above a position. -/
def above : Path (Cell K V) → Ptr
  | [] => 0
  | f :: _ => f.elem.addr

/-- The record of a node with `pa` on side `s` and `pb` on the other. -/
def record (s : Side) (x : Cell K V) (count : Nat) (parent pa pb : Ptr) : Node K V :=
  match s with
  | .left => ⟨x.key, x.data, count, x.priority, parent, pa, pb⟩
  | .right => ⟨x.key, x.data, count, x.priority, parent, pb, pa⟩

/-- The slots hold the subtree, hanging below `q`. -/
def Rep (g : Ptr → Option (Node K V)) : Shape K V → Ptr → Prop
  | .nil, _ => True
  | .node l x r, q =>
    x.addr ≠ 0 ∧ g x.addr = some (record .left x (1 + l.size + r.size) q (root l) (root r)) ∧
      Rep g l x.addr ∧ Rep g r x.addr

/-- The slots hold the nodes around a position where a subtree with `n` nodes rooted at `r` hangs. -/
def RepPath (g : Ptr → Option (Node K V)) : Path (Cell K V) → Ptr → Nat → Prop
  | [], _, _ => True
  | f :: p, r, n =>
    f.elem.addr ≠ 0 ∧
      g f.elem.addr = some (record f.side f.elem (1 + n + f.sibling.size) (above p) r (root f.sibling)) ∧
      Rep g f.sibling f.elem.addr ∧ RepPath g p f.elem.addr (1 + n + f.sibling.size)

/-- The slots hold the tree and nothing else. -/
structure Holds (g : Ptr → Option (Node K V)) (t : Shape K V) : Prop where
  rep : Rep g t 0
  nodup : (addrs t).Nodup
  rest : ∀ p, p ∉ addrs t → g p = none

/-- The child of a node on its own side. -/
@[simp] lemma record_child (s : Side) (x : Cell K V) (n : Nat) (q pa pb : Ptr) :
    (record s x n q pa pb).child s = pa := by cases s <;> rfl

/-- The child of a node on the other side. -/
@[simp] lemma record_child_opp (s : Side) (x : Cell K V) (n : Nat) (q pa pb : Ptr) :
    (record s x n q pa pb).child s.opp = pb := by cases s <;> rfl

/-- The parent of a node. -/
@[simp] lemma record_parent (s : Side) (x : Cell K V) (n : Nat) (q pa pb : Ptr) :
    (record s x n q pa pb).parent = q := by cases s <;> rfl

/-- The count of a node. -/
@[simp] lemma record_count (s : Side) (x : Cell K V) (n : Nat) (q pa pb : Ptr) :
    (record s x n q pa pb).count = n := by cases s <;> rfl

/-- The key of a node. -/
@[simp] lemma record_key (s : Side) (x : Cell K V) (n : Nat) (q pa pb : Ptr) :
    (record s x n q pa pb).key = x.key := by cases s <;> rfl

/-- The priority of a node. -/
@[simp] lemma record_priority (s : Side) (x : Cell K V) (n : Nat) (q pa pb : Ptr) :
    (record s x n q pa pb).priority = x.priority := by cases s <;> rfl

/-- Writing the count of a node. -/
lemma record_setCount {s : Side} {x : Cell K V} {n n' : Nat} {q pa pb : Ptr} {k : Int} (h : k = n') :
    { record s x n q pa pb with count := k } = record s x n' q pa pb := by
  subst h
  cases s <;> rfl

/-- The root of a node. -/
@[simp] lemma root_mk (s : Side) (a : Shape K V) (x : Cell K V) (b : Shape K V) :
    root (mk s a x b) = x.addr := by cases s <;> rfl

/-- The root of the empty tree is null. -/
@[simp] lemma root_nil : root (.nil : Shape K V) = 0 := rfl

/-- The addresses of a node. -/
lemma mem_addrs_mk {s : Side} {a b : Shape K V} {x : Cell K V} {p : Ptr} :
    p ∈ addrs (mk s a x b) ↔ p ∈ addrs a ∨ p = x.addr ∨ p ∈ addrs b := by
  simp only [addrs, List.mem_map, mem_cells_mk]
  constructor
  · rintro ⟨y, h | rfl | h, rfl⟩
    · exact .inl ⟨y, h, rfl⟩
    · exact .inr (.inl rfl)
    · exact .inr (.inr ⟨y, h, rfl⟩)
  · rintro (⟨y, h, rfl⟩ | rfl | ⟨y, h, rfl⟩)
    · exact ⟨y, .inl h, rfl⟩
    · exact ⟨x, .inr (.inl rfl), rfl⟩
    · exact ⟨y, .inr (.inr h), rfl⟩

/-- All nodes of a tree have different addresses. -/
lemma nodup_mk {s : Side} {a b : Shape K V} {x : Cell K V} :
    (addrs (mk s a x b)).Nodup ↔ (addrs a).Nodup ∧ (addrs b).Nodup ∧ x.addr ∉ addrs a ∧
      x.addr ∉ addrs b ∧ ∀ p ∈ addrs a, p ∉ addrs b := by
  cases s <;>
    simp only [addrs, mk, cells, List.map_append, List.map_cons, List.nodup_append, List.nodup_cons,
      List.mem_cons]
  · constructor
    · rintro ⟨ha, ⟨hx, hb⟩, h⟩
      exact ⟨ha, hb, fun hm => h _ hm _ (.inl rfl) rfl, hx, fun p hp hp' => h p hp p (.inr hp') rfl⟩
    · rintro ⟨ha, hb, hxa, hxb, h⟩
      refine ⟨ha, ⟨hxb, hb⟩, ?_⟩
      rintro p hp q (rfl | hq) rfl
      · exact hxa hp
      · exact h p hp hq
  · constructor
    · rintro ⟨hb, ⟨hx, ha⟩, h⟩
      exact ⟨ha, hb, hx, fun hm => h _ hm _ (.inl rfl) rfl, fun p hp hp' => h p hp' p (.inr hp) rfl⟩
    · rintro ⟨ha, hb, hxa, hxb, h⟩
      refine ⟨hb, ⟨hxa, ha⟩, ?_⟩
      rintro p hp q (rfl | hq) rfl
      · exact hxb hp
      · exact h p hq hp

/-- The root is one of the addresses. -/
lemma root_mem {t : Shape K V} (h : root t ≠ 0) : root t ∈ addrs t := by
  cases t with
  | nil => exact absurd rfl h
  | node l x r => exact (mem_addrs_mk (s := .left)).mpr (.inr (.inl rfl))

section Rep
variable {g g' : Ptr → Option (Node K V)}

/-- What a node has in memory. -/
lemma rep_mk {s : Side} {a b : Shape K V} {x : Cell K V} {q : Ptr} :
    Rep g (mk s a x b) q ↔
      x.addr ≠ 0 ∧ g x.addr = some (record s x (1 + a.size + b.size) q (root a) (root b)) ∧
        Rep g a x.addr ∧ Rep g b x.addr := by
  cases s with
  | left => exact Iff.rfl
  | right =>
    simp only [mk, Rep, record, show 1 + b.size + a.size = 1 + a.size + b.size by omega]
    tauto

/-- A subtree is empty exactly when its root pointer is null. -/
lemma Rep.root_eq_zero {t : Shape K V} {q : Ptr} (h : Rep g t q) : root t = 0 ↔ t = .nil := by
  cases t with
  | nil => simp
  | node l x r => simpa [root] using h.1

/-- No address of a tree is null. -/
lemma Rep.ne_zero {t : Shape K V} {q p : Ptr} (h : Rep g t q) (hp : p ∈ addrs t) : p ≠ 0 := by
  induction t generalizing q with
  | nil => cases hp
  | node l x r ihl ihr =>
    obtain ⟨h0, -, hl, hr⟩ := h
    rcases (mem_addrs_mk (s := .left)).mp hp with hp | rfl | hp
    · exact ihl hl hp
    · exact h0
    · exact ihr hr hp

/-- Slots outside the subtree do not matter. -/
lemma Rep.frame {t : Shape K V} {q : Ptr} (h : Rep g t q) (hg : ∀ p ∈ addrs t, g' p = g p) :
    Rep g' t q := by
  induction t generalizing q with
  | nil => trivial
  | node l x r ihl ihr =>
    obtain ⟨h0, hx, hl, hr⟩ := h
    refine ⟨h0, ?_, ihl hl ?_, ihr hr ?_⟩
    · rw [hg _ ((mem_addrs_mk (s := .left)).mpr (.inr (.inl rfl))), hx]
    · exact fun p hp => hg p ((mem_addrs_mk (s := .left)).mpr (.inl hp))
    · exact fun p hp => hg p ((mem_addrs_mk (s := .left)).mpr (.inr (.inr hp)))

/-- Hanging a subtree below another node changes the `parent` field of its root only. -/
lemma Rep.reparent {t : Shape K V} {q q' : Ptr} (h : Rep g t q) (hd : (addrs t).Nodup)
    (hr : ∀ n, g (root t) = some n → g' (root t) = some { n with parent := q' })
    (hg : ∀ p ∈ addrs t, p ≠ root t → g' p = g p) : Rep g' t q' := by
  cases t with
  | nil => trivial
  | node l x r =>
    obtain ⟨h0, hx, hl, hr'⟩ := h
    obtain ⟨-, -, hxl, hxr, -⟩ := (nodup_mk (s := .left)).mp hd
    refine ⟨h0, hr _ hx, hl.frame ?_, hr'.frame ?_⟩
    · intro p hp
      refine hg p ((mem_addrs_mk (s := .left)).mpr (.inl hp)) ?_
      rintro rfl
      exact hxl hp
    · intro p hp
      refine hg p ((mem_addrs_mk (s := .left)).mpr (.inr (.inr hp))) ?_
      rintro rfl
      exact hxr hp

end Rep

/-- The addresses of the nodes around a position. -/
def pathAddrs (p : Path (Cell K V)) : List Ptr := (pathCells p).map Cell.addr

/-- The addresses of a path. -/
@[simp] lemma pathAddrs_cons (f : Frame (Cell K V)) (p : Path (Cell K V)) :
    pathAddrs (f :: p) = f.elem.addr :: addrs f.sibling ++ pathAddrs p := by
  simp only [pathAddrs, pathCells, addrs, List.map_append, List.map_cons]

/-- The addresses of a tree around a subtree. -/
lemma addrs_plug_perm (p : Path (Cell K V)) (t : Shape K V) :
    (addrs (plug p t)).Perm (pathAddrs p ++ addrs t) := by
  simpa only [addrs, pathAddrs, List.map_append] using (plug_perm p t).map Cell.addr

/-- Each of them is in the path or in the subtree. -/
lemma mem_addrs_plug {p : Path (Cell K V)} {t : Shape K V} {q : Ptr} :
    q ∈ addrs (plug p t) ↔ q ∈ pathAddrs p ∨ q ∈ addrs t := by
  rw [(addrs_plug_perm p t).mem_iff, List.mem_append]

/-- The addresses of a tree are different if those of its parts are. -/
lemma nodup_plug {p : Path (Cell K V)} {t : Shape K V} :
    (addrs (plug p t)).Nodup ↔
      (pathAddrs p).Nodup ∧ (addrs t).Nodup ∧ ∀ q ∈ pathAddrs p, q ∉ addrs t := by
  rw [(addrs_plug_perm p t).nodup_iff, List.nodup_append]
  constructor
  · rintro ⟨hp, ht, h⟩
    exact ⟨hp, ht, fun q hq hq' => h q hq q hq' rfl⟩
  · rintro ⟨hp, ht, h⟩
    refine ⟨hp, ht, ?_⟩
    rintro q hq _ hq' rfl
    exact h q hq hq'

/-- The parent of a subtree is in the path. -/
lemma above_mem {p : Path (Cell K V)} (h : above p ≠ 0) : above p ∈ pathAddrs p := by
  cases p with
  | nil => exact absurd rfl h
  | cons f p => simp [above]

section RepPath
variable {g g' : Ptr → Option (Node K V)}

/-- The whole tree is in memory exactly when a subtree and the nodes around it are. -/
lemma rep_plug {p : Path (Cell K V)} {t : Shape K V} :
    Rep g (plug p t) 0 ↔ RepPath g p (root t) t.size ∧ Rep g t (above p) := by
  induction p generalizing t with
  | nil => simp [plug, RepPath, above]
  | cons f p ih =>
    rw [plug, ih, attach, rep_mk, root_mk, size_mk]
    simp only [RepPath, above]
    tauto

/-- A path whose nodes did not change. -/
lemma RepPath.frame {p : Path (Cell K V)} {r : Ptr} {n : Nat} (h : RepPath g p r n)
    (hg : ∀ q ∈ pathAddrs p, g' q = g q) : RepPath g' p r n := by
  induction p generalizing r n with
  | nil => trivial
  | cons f p ih =>
    obtain ⟨h0, hf, hs, hp⟩ := h
    simp only [pathAddrs_cons, List.cons_append, List.mem_cons, List.mem_append] at hg
    refine ⟨h0, ?_, hs.frame ?_, ih hp ?_⟩
    · rw [hg _ (.inl rfl), hf]
    · exact fun q hq => hg q (.inr (.inl hq))
    · exact fun q hq => hg q (.inr (.inr hq))

/-- Hanging another subtree of the same size at a position changes one link of the node above it. -/
lemma RepPath.relink {f : Frame (Cell K V)} {p : Path (Cell K V)} {r r' : Ptr} {n : Nat}
    (h : RepPath g (f :: p) r n) (hd : (pathAddrs (f :: p)).Nodup)
    (hf : g' f.elem.addr =
      some (record f.side f.elem (1 + n + f.sibling.size) (above p) r' (root f.sibling)))
    (hg : ∀ q ∈ pathAddrs (f :: p), q ≠ f.elem.addr → g' q = g q) : RepPath g' (f :: p) r' n := by
  obtain ⟨h0, -, hs, hp⟩ := h
  simp only [pathAddrs_cons, List.cons_append, List.nodup_cons, List.mem_append] at hd
  simp only [pathAddrs_cons, List.cons_append, List.mem_cons, List.mem_append] at hg
  refine ⟨h0, hf, hs.frame ?_, hp.frame ?_⟩
  · intro q hq
    exact hg q (.inr (.inl hq)) fun e => hd.1 (.inl (e ▸ hq))
  · intro q hq
    exact hg q (.inr (.inr hq)) fun e => hd.1 (.inr (e ▸ hq))

/-- No address of a path is null. -/
lemma RepPath.ne_zero {p : Path (Cell K V)} {r q : Ptr} {n : Nat} (h : RepPath g p r n)
    (hq : q ∈ pathAddrs p) : q ≠ 0 := by
  induction p generalizing r n with
  | nil => cases hq
  | cons f p ih =>
    obtain ⟨h0, -, hs, hp⟩ := h
    simp only [pathAddrs_cons, List.cons_append, List.mem_cons, List.mem_append] at hq
    rcases hq with rfl | hq | hq
    · exact h0
    · exact hs.ne_zero hq
    · exact ih hp hq

/-- Exchange the subtree at a position for one on the same addresses. -/
lemma Holds.replace {p : Path (Cell K V)} {t t' : Shape K V} (h : Holds g (plug p t))
    (ha : (addrs t').Perm (addrs t)) (hp : RepPath g' p (root t') t'.size) (ht : Rep g' t' (above p))
    (hr : ∀ q, q ∉ addrs (plug p t) → g' q = none) : Holds g' (plug p t') := by
  have perm : (addrs (plug p t')).Perm (addrs (plug p t)) :=
    (addrs_plug_perm p t').trans ((ha.append_left _).trans (addrs_plug_perm p t).symm)
  refine ⟨rep_plug.mpr ⟨hp, ht⟩, perm.nodup_iff.mpr h.nodup, fun q hq => hr q ?_⟩
  rwa [← perm.mem_iff]

/-- No node is at null. -/
lemma Holds.null {t : Shape K V} (h : Holds g t) : g 0 = none :=
  h.rest 0 fun hm => h.rep.ne_zero hm rfl

end RepPath

end Twcos.Tree
