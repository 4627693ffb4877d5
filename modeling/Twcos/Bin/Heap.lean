import Mathlib.Order.Defs.Unbundled
import Twcos.Bin.Basic

/-!
# Heap order

Binary trees in which every element is related to the elements right below it. `heap_plug` takes the order of a tree apart
at a position. A tree whose only fault is that its top may not belong below the element above it (`Rising`) is brought in
order by rotating the top up; taking an element out and hanging its right subtree below the last element of the left one
keeps the order exactly if that element belongs above the right subtree.
-/

namespace Twcos.Bin

variable {α : Type} {R : α → α → Prop}

/-- The topmost element, if there is one, has the property. -/
def Top (P : α → Prop) : Bin α → Prop
  | nil => True
  | node _ x _ => P x

/-- Every element is related to the elements right below it. -/
def Heap (R : α → α → Prop) : Bin α → Prop
  | nil => True
  | node l x r => l.Top (R x) ∧ r.Top (R x) ∧ l.Heap R ∧ r.Heap R

/-- The element above a position, if there is one, is related to an element. -/
def Hangs (R : α → α → Prop) : Path α → α → Prop
  | [], _ => True
  | f :: _, x => R f.elem x

/-- The elements around a position are in order. -/
def HeapPath (R : α → α → Prop) : Path α → Prop
  | [] => True
  | f :: p => Hangs R p f.elem ∧ f.sibling.Top (R f.elem) ∧ f.sibling.Heap R ∧ HeapPath R p

/-- A weaker property of the root. -/
lemma Top.imp {P Q : α → Prop} (h : ∀ x, P x → Q x) {t : Bin α} (ht : t.Top P) : t.Top Q := by
  cases t with
  | nil => trivial
  | node l x r => exact h x ht

/-- A node is in heap order if its element is above both children, and they are in heap order. -/
lemma heap_mk {s : Side} {a b : Bin α} {x : α} :
    (mk s a x b).Heap R ↔ a.Top (R x) ∧ b.Top (R x) ∧ a.Heap R ∧ b.Heap R := by
  cases s with
  | left => exact Iff.rfl
  | right =>
    simp only [mk, Heap]
    tauto

/-- The root of a node is its element. -/
lemma top_mk {P : α → Prop} {s : Side} {a b : Bin α} {x : α} : (mk s a x b).Top P ↔ P x := by
  cases s <;> exact Iff.rfl

/-- A tree is in order if its two parts are and the one belongs below the other. -/
lemma heap_plug {p : Path α} {t : Bin α} : (plug p t).Heap R ↔ HeapPath R p ∧ t.Top (Hangs R p) ∧ t.Heap R := by
  induction p generalizing t with
  | nil =>
    have top : t.Top (Hangs R []) := by cases t <;> trivial
    exact ⟨fun h => ⟨trivial, top, h⟩, fun h => h.2.2⟩
  | cons f p ih =>
    rw [plug, ih, attach, top_mk, heap_mk, HeapPath]
    constructor
    · rintro ⟨hp, hf, ht, hs, h, h'⟩
      exact ⟨⟨hf, hs, h', hp⟩, ht, h⟩
    · rintro ⟨⟨hf, hs, h', hp⟩, ht, h⟩
      exact ⟨hp, hf, ht, hs, h, h'⟩

/-- The order, by positions. -/
lemma heap_iff {t : Bin α} : t.Heap R ↔ ∀ f p l x r, t = plug (f :: p) (.node l x r) → R f.elem x := by
  constructor
  · rintro h f p l x r rfl
    exact (heap_plug.mp h).2.1
  · intro h
    induction t with
    | nil => trivial
    | node l x r ihl ihr =>
      have below (s : Side) : (child s (node l x r)).Top (R x) := by
        cases e : child s (node l x r) with
        | nil => trivial
        | node a y b =>
          refine h ⟨s, x, child s.opp (node l x r)⟩ [] a y b ?_
          rw [plug, plug, attach, ← e]
          exact node_eq_mk s l x r
      refine ⟨below .left, below .right, ihl fun f p a y b e => ?_, ihr fun f p a y b e => ?_⟩
      · refine h f (p ++ [⟨.left, x, r⟩]) a y b ?_
        rw [← List.cons_append, plug_append, ← e]
        rfl
      · refine h f (p ++ [⟨.right, x, l⟩]) a y b ?_
        rw [← List.cons_append, plug_append, ← e]
        rfl

/-! ### Rotating up -/

/-- All is in order, but that the top of the subtree may not belong below the element above it. -/
structure Rising (R : α → α → Prop) (p : Path α) (t : Bin α) : Prop where
  path : HeapPath R p
  tree : t.Heap R
  below : ∀ s, (child s t).Top (Hangs R p)

/-- An element that has come up to where it hangs below its parent leaves a heap. -/
lemma Rising.settle {p : Path α} {t : Bin α} (h : Rising R p t) (top : t.Top (Hangs R p)) : (plug p t).Heap R :=
  heap_plug.mpr ⟨h.path, top, h.tree⟩

section
variable [IsTrans α R]

/-- What is below something that hangs in a place may hang there too. -/
lemma Hangs.trans {p : Path α} {x y : α} (h : Hangs R p x) (hx : R x y) : Hangs R p y := by
  cases p with
  | nil => trivial
  | cons f p => exact IsTrans.trans _ _ _ h hx

/-- Rotating the top over the element above it, if it belongs above that element. -/
lemma Rising.lift {f : Frame α} {p : Path α} {l r : Bin α} {x : α} (h : Rising R (f :: p) (node l x r)) (hx : R x f.elem) :
    Rising R p (lift f (node l x r)) := by
  obtain ⟨⟨hf, hs, hs', hp⟩, ⟨hl, hr, hl', hr'⟩, below⟩ := h
  have up {t : Bin α} (ht : t.Top (Hangs R (f :: p))) : t.Top (Hangs R p) := ht.imp fun y hy => hf.trans hy
  obtain ⟨s, y, a⟩ := f
  cases s with
  | left =>
    refine ⟨hp, ⟨hl, hx, hl', below .right, hs, hr', hs'⟩, fun s => ?_⟩
    cases s with
    | left => exact up (below .left)
    | right => exact hf
  | right =>
    refine ⟨hp, ⟨hx, hr, ⟨hs, below .left, hs', hl'⟩, hr'⟩, fun s => ?_⟩
    cases s with
    | left => exact hf
    | right => exact up (below .right)

/-! ### Taking out an element -/

omit [IsTrans α R] in
/-- Grafting keeps the heap order exactly if the outermost node may be above the other tree. -/
lemma heap_graft {l r : Bin α} : (graft l r).Heap R ↔ l.Heap R ∧ r.Heap R ∧ ∀ y ∈ outermost .right l, r.Top (R y) := by
  induction l with
  | nil => exact ⟨fun h => ⟨trivial, h, fun y mem => by cases mem⟩, fun h => h.2.1⟩
  | node a y c _ ih =>
    rw [graft, Heap, ih, Heap]
    cases c with
    | nil =>
      have only : (∀ z ∈ outermost .right (node a y nil), r.Top (R z)) ↔ r.Top (R y) :=
        ⟨fun h => h y rfl, fun h z mem => by cases mem; exact h⟩
      have none : ∀ z ∈ outermost .right (nil : Bin α), r.Top (R z) := fun z mem => by cases mem
      rw [only]
      constructor
      · rintro ⟨ha, hr, ha', -, hr', -⟩
        exact ⟨⟨ha, trivial, ha', trivial⟩, hr', hr⟩
      · rintro ⟨⟨ha, -, ha', -⟩, hr', hr⟩
        exact ⟨ha, hr, ha', trivial, hr', none⟩
    | node b z d =>
      have same : outermost .right (node a y (node b z d)) = outermost .right (node b z d) := by
        simp only [outermost, Option.or_assoc, Option.some_or]
      rw [same]
      constructor
      · rintro ⟨ha, hc, ha', hc', hr', hr⟩
        exact ⟨⟨ha, hc, ha', hc'⟩, hr', hr⟩
      · rintro ⟨⟨ha, hc, ha', hc'⟩, hr', hr⟩
        exact ⟨ha, hc, ha', hc', hr', hr⟩

omit [IsTrans α R] in
/-- The root of a graft is the root of one of the trees. -/
lemma top_graft {P : α → Prop} {l r : Bin α} (hl : l.Top P) (hr : r.Top P) : (graft l r).Top P := by
  cases l with
  | nil => exact hr
  | node a y c => exact hl

/-- Taking a node out keeps the heap order exactly if grafting its children does. -/
lemma heap_remove {p : Path α} {l r : Bin α} {x : α} (h : (plug p (node l x r)).Heap R) :
    (plug p (graft l r)).Heap R ↔ ∀ y ∈ outermost .right l, r.Top (R y) := by
  obtain ⟨hp, hx, hl, hr, hl', hr'⟩ := heap_plug.mp h
  have top : (graft l r).Top (Hangs R p) :=
    top_graft (hl.imp fun y hy => Hangs.trans hx hy) (hr.imp fun y hy => Hangs.trans hx hy)
  rw [heap_plug, heap_graft]
  exact ⟨fun h => h.2.2.2.2, fun h => ⟨hp, top, hl', hr', h⟩⟩

end

end Twcos.Bin
