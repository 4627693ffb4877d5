import Mathlib.Tactic.Common
import Mathlib.Data.List.Basic

/-!
# Binary trees with a focus

Binary trees over any element type, and the position of a subtree in a tree as a path of frames
(innermost first). `plug p t` puts the subtree `t` back at the position `p`. The mirror image of every
construction is had by exchanging the side, so `mk s a x b` is the node with `a` on side `s`.

Rotations are stated on a frame: `lift f t` rotates the root of `t` over its parent `f`. Every rotation
keeps the sequence of elements (`cells`) of the whole tree.
-/

namespace Twcos

/-- A side of a node. -/
inductive Side where
  | left
  | right
deriving DecidableEq, Repr

/-- The other side. -/
def Side.opp : Side → Side
  | .left => .right
  | .right => .left

/-- The other side of the other side. -/
@[simp] lemma Side.opp_opp (s : Side) : s.opp.opp = s := by cases s <;> rfl

/-- Sides are equal if the others are. -/
lemma Side.opp_inj {s s' : Side} : s.opp = s'.opp ↔ s = s' := by cases s <;> cases s' <;> decide

/-- There are two sides only. -/
lemma Side.eq_opp {s s' : Side} (h : s ≠ s') : s' = s.opp := by
  cases s <;> cases s' <;> first | rfl | exact absurd rfl h

/-- The other side is another one. -/
@[simp] lemma Side.opp_ne (s : Side) : s.opp ≠ s := by cases s <;> nofun

/-- Binary trees. -/
inductive Bin (α : Type) where
  | nil
  | node (l : Bin α) (x : α) (r : Bin α)

namespace Bin

variable {α β : Type}

/-- The number of elements. -/
def size : Bin α → Nat
  | nil => 0
  | node l _ r => 1 + l.size + r.size

/-- The elements in order. -/
def cells : Bin α → List α
  | nil => []
  | node l x r => l.cells ++ x :: r.cells

/-- The node with `a` on side `s` and `b` on the other. -/
def mk : Side → Bin α → α → Bin α → Bin α
  | .left, a, x, b => node a x b
  | .right, a, x, b => node b x a

/-- The subtree on a side. -/
def child : Side → Bin α → Bin α
  | _, nil => nil
  | .left, node l _ _ => l
  | .right, node _ _ r => r

/-- Building a node from the other side swaps the children. -/
lemma mk_opp (s : Side) (a : Bin α) (x : α) (b : Bin α) : mk s.opp a x b = mk s b x a := by
  cases s <;> rfl

/-- A node, built from either side. -/
lemma node_eq_mk (s : Side) (l : Bin α) (x : α) (r : Bin α) :
    node l x r = mk s (child s (node l x r)) x (child s.opp (node l x r)) := by
  cases s <;> rfl

/-- Counting the nodes of a node. -/
@[simp] lemma size_mk (s : Side) (a : Bin α) (x : α) (b : Bin α) :
    (mk s a x b).size = 1 + a.size + b.size := by
  cases s
  · rfl
  · simp only [mk, size]; omega

/-- The empty tree has no nodes. -/
@[simp] lemma size_nil : (nil : Bin α).size = 0 := rfl

/-- As many cells as nodes. -/
@[simp] lemma length_cells (t : Bin α) : t.cells.length = t.size := by
  induction t with
  | nil => rfl
  | node l x r ihl ihr => simp only [cells, size, List.length_append, List.length_cons, ihl, ihr]; omega

/-- The cells of a node. -/
lemma mem_cells_mk {s : Side} {a b : Bin α} {x y : α} :
    y ∈ (mk s a x b).cells ↔ y ∈ a.cells ∨ y = x ∨ y ∈ b.cells := by
  cases s <;> simp only [mk, cells, List.mem_append, List.mem_cons]
  tauto

/-- Rotation: both shapes have the same elements in the same order. -/
lemma cells_rotate (s : Side) (a c e : Bin α) (x y : α) :
    (mk s (mk s a x c) y e).cells = (mk s a x (mk s c y e)).cells := by
  cases s <;> simp only [mk, cells, List.append_assoc, List.cons_append]

end Bin

/-- One step up from a subtree: the side it hangs on, the parent, and the parent's other subtree. -/
structure Frame (α : Type) where
  side : Side
  elem : α
  sibling : Bin α

/-- The way from a subtree up to the root. -/
abbrev Path (α : Type) := List (Frame α)

namespace Bin

variable {α : Type}

/-- Put a subtree back under its parent. -/
def attach (f : Frame α) (t : Bin α) : Bin α := mk f.side t f.elem f.sibling

/-- Put a subtree back at its position. -/
def plug : Path α → Bin α → Bin α
  | [], t => t
  | f :: p, t => plug p (attach f t)

/-- Rotate the root of a subtree over its parent. -/
def lift (f : Frame α) (t : Bin α) : Bin α :=
  match t with
  | nil => attach f nil
  | node l y r =>
    mk f.side.opp (mk f.side.opp f.sibling f.elem (child f.side.opp (node l y r))) y
      (child f.side (node l y r))

/-- Rotate the root of a subtree up all of a path. -/
def lifts : Path α → Bin α → Bin α
  | [], t => t
  | f :: p, t => lifts p (lift f t)

/-- The elements before and after a position. -/
def around : Path α → List α × List α
  | [] => ([], [])
  | ⟨.left, x, t⟩ :: p => ((around p).1, x :: t.cells ++ (around p).2)
  | ⟨.right, x, t⟩ :: p => ((around p).1 ++ t.cells ++ [x], (around p).2)

/-- The elements of a path. -/
def pathCells : Path α → List α
  | [] => []
  | f :: p => f.elem :: f.sibling.cells ++ pathCells p

/-- Going up a path is going up its parts. -/
@[simp] lemma plug_append (p q : Path α) (t : Bin α) : plug (p ++ q) t = plug q (plug p t) := by
  induction p generalizing t with
  | nil => rfl
  | cons f p ih => exact ih (attach f t)

/-- Rotating at a node, in terms of sides. -/
lemma lift_mk (f : Frame α) (c : Bin α) (y : α) (e : Bin α) :
    lift f (mk f.side.opp c y e) = mk f.side.opp (mk f.side.opp f.sibling f.elem c) y e := by
  obtain ⟨s, x, a⟩ := f
  cases s <;> rfl

/-- Attaching a subtree, in terms of sides. -/
lemma attach_eq (f : Frame α) (t : Bin α) : attach f t = mk f.side.opp f.sibling f.elem t := by
  rw [attach, mk_opp]

/-- A rotation keeps the order of the cells. -/
lemma lift_cells (f : Frame α) (t : Bin α) : (lift f t).cells = (attach f t).cells := by
  cases t with
  | nil => rfl
  | node l y r =>
    rw [node_eq_mk f.side.opp l y r, lift_mk, cells_rotate, attach_eq]

/-- A node is not empty. -/
lemma node_ne_nil {l r : Bin α} {x : α} : Bin.node l x r ≠ .nil := by
  intro e
  cases e

/-- A rotation does not make a tree empty. -/
lemma lift_ne_nil {f : Frame α} {t : Bin α} (ht : t ≠ .nil) : lift f t ≠ .nil := by
  obtain ⟨s, x, b⟩ := f
  cases t with
  | nil => exact absurd rfl ht
  | node l y r => cases s <;> nofun

/-- The cells of a tree around a subtree. -/
lemma plug_cells (p : Path α) (t : Bin α) :
    (plug p t).cells = (around p).1 ++ t.cells ++ (around p).2 := by
  induction p generalizing t with
  | nil => simp only [plug, around, List.nil_append, List.append_nil]
  | cons f p ih =>
    obtain ⟨s, x, a⟩ := f
    cases s <;> simp only [plug, ih, attach, mk, cells, around, List.append_assoc, List.cons_append,
      List.nil_append]

/-- What is around a subtree, for a path in two parts. -/
lemma around_append (p q : Path α) :
    around (p ++ q) = ((around q).1 ++ (around p).1, (around p).2 ++ (around q).2) := by
  induction p with
  | nil => simp only [List.nil_append, around, List.append_nil]
  | cons f p ih =>
    obtain ⟨s, x, a⟩ := f
    cases s <;> simp only [List.cons_append, around, ih, List.append_assoc]

/-- Subtrees with the same elements are exchanged without changing the elements of the whole. -/
lemma plug_cells_congr {p : Path α} {t t' : Bin α} (h : t.cells = t'.cells) :
    (plug p t).cells = (plug p t').cells := by
  rw [plug_cells, plug_cells, h]

/-- Rotating all the way up keeps the order of the cells. -/
lemma lifts_cells (p : Path α) (t : Bin α) : (lifts p t).cells = (plug p t).cells := by
  induction p generalizing t with
  | nil => rfl
  | cons f p ih => exact (ih (lift f t)).trans (plug_cells_congr (lift_cells f t))

/-- The node that is rotated up is on top, between the elements before and after it. -/
lemma lifts_top (p : Path α) (l : Bin α) (x : α) (r : Bin α) :
    ∃ l' r', lifts p (node l x r) = node l' x r' ∧ l'.cells = (around p).1 ++ l.cells ∧
      r'.cells = r.cells ++ (around p).2 := by
  induction p generalizing l r with
  | nil => exact ⟨l, r, rfl, rfl, (List.append_nil _).symm⟩
  | cons f p ih =>
    obtain ⟨s, y, a⟩ := f
    cases s with
    | left =>
      obtain ⟨l', r', top, left, right⟩ := ih l (node r y a)
      refine ⟨l', r', top, left, ?_⟩
      rw [right, cells, List.append_assoc]
      rfl
    | right =>
      obtain ⟨l', r', top, left, right⟩ := ih (node a y l) r
      refine ⟨l', r', top, ?_, right⟩
      rw [left, cells, around, List.append_assoc, List.append_assoc]
      rfl

/-- Counting the nodes with the parent's other child. -/
lemma size_attach (f : Frame α) (t : Bin α) : (attach f t).size = 1 + t.size + f.sibling.size :=
  size_mk _ _ _ _

/-- The cells of a path in two parts. -/
lemma pathCells_append (p q : Path α) : pathCells (p ++ q) = pathCells p ++ pathCells q := by
  induction p with
  | nil => rfl
  | cons f p ih => simp only [List.cons_append, pathCells, ih, List.append_assoc]

/-- The elements of the whole are those of the path and those of the subtree. -/
lemma plug_perm (p : Path α) (t : Bin α) : (plug p t).cells.Perm (pathCells p ++ t.cells) := by
  induction p generalizing t with
  | nil => exact .refl _
  | cons f p ih =>
    classical
    refine (ih (attach f t)).trans (List.perm_iff_count.mpr fun z => ?_)
    obtain ⟨s, x, a⟩ := f
    cases s <;> simp only [attach, mk, cells, pathCells, List.count_append, List.count_cons] <;> omega

/-- Two trees as one: the second hangs below the last element of the first. -/
def graft : Bin α → Bin α → Bin α
  | nil, t => t
  | node l x r, t => node l x (graft r t)

/-- Grafting puts the cells of the second tree behind those of the first. -/
lemma graft_cells (t t' : Bin α) : (graft t t').cells = t.cells ++ t'.cells := by
  induction t with
  | nil => rfl
  | node l x r _ ih =>
    rw [graft, cells, ih, cells, List.append_assoc]
    rfl

/-- The last element towards a side. -/
def outermost (s : Side) : Bin α → Option α
  | nil => none
  | node l x r =>
    match s with
    | .left => (outermost s l).or (some x)
    | .right => (outermost s r).or (some x)

/-- The element next to a position on a side. -/
def beside (s : Side) : Path α → Option α
  | [] => none
  | f :: p => if f.side = s then beside s p else some f.elem

/-- The leftmost cell is the first. -/
lemma outermost_left (t : Bin α) : outermost .left t = t.cells.head? := by
  induction t with
  | nil => rfl
  | node l x r ihl ihr => rw [outermost, ihl, cells, List.head?_append, List.head?_cons]

/-- The rightmost cell is the last. -/
lemma outermost_right (t : Bin α) : outermost .right t = t.cells.getLast? := by
  induction t with
  | nil => rfl
  | node l x r ihl ihr =>
    rw [outermost, ihr, cells, List.getLast?_append, List.getLast?_cons]
    cases r.cells.getLast? <;> rfl

/-- A tree that is not empty has an outermost cell. -/
lemma exists_outermost {t : Bin α} (s : Side) (ht : t ≠ nil) : ∃ y, outermost s t = some y := by
  cases t with
  | nil => exact absurd rfl ht
  | node l x r =>
    cases s with
    | left => exact ⟨_, Option.or_some⟩
    | right => exact ⟨_, Option.or_some⟩

/-- The outermost cell is one of the tree. -/
lemma mem_of_outermost {t : Bin α} {s : Side} {y : α} (h : outermost s t = some y) : y ∈ t.cells := by
  cases s with
  | left =>
    rw [outermost_left] at h
    exact List.mem_of_mem_head? h
  | right =>
    rw [outermost_right] at h
    exact List.mem_of_getLast? h

/-- The cell on the left of a subtree is the last one before it. -/
lemma beside_left (p : Path α) : beside .left p = (around p).1.getLast? := by
  induction p with
  | nil => rfl
  | cons f p ih =>
    obtain ⟨s, x, a⟩ := f
    cases s with
    | left => exact ih
    | right => rw [around, List.getLast?_concat]; rfl

/-- The cell on the right of a subtree is the first one behind it. -/
lemma beside_right (p : Path α) : beside .right p = (around p).2.head? := by
  induction p with
  | nil => rfl
  | cons f p ih =>
    obtain ⟨s, x, a⟩ := f
    cases s with
    | left => rfl
    | right => exact ih

end Bin

end Twcos
