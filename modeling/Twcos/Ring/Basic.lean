import Mathlib.Tactic.Common
import Mathlib.Data.List.Nodup
import Mathlib.Logic.Function.Basic

/-!
# Rings of nodes

Nodes that are linked into circular lists by a `next` and a `prev` pointer each. `Seg k a l b` says that following the
links from `a` leads through the nodes of `l` to `b`, and back; `Circle k l` says that the nodes of `l` form one circle in
this order. A segment depends only on the links of its own nodes (`Seg.congr`), and splits at each of its nodes
(`seg_append`); what an insertion or a removal does to a ring follows from these two.
-/

namespace Twcos.Ring

variable {T : Type}

/-- The links of all nodes. -/
structure Links (T : Type) where
  next : T → T
  prev : T → T

/-- From `a` through `l` to `b`. -/
def Seg (k : Links T) : T → List T → T → Prop
  | a, [], b => k.next a = b ∧ k.prev b = a
  | a, c :: l, b => (k.next a = c ∧ k.prev c = a) ∧ Seg k c l b

/-- The nodes form a circle. -/
def Circle (k : Links T) : List T → Prop
  | [] => True
  | a :: l => Seg k a l a

variable {k k' : Links T} {a b c : T} {l l1 l2 : List T}

/-- A segment in two parts. -/
lemma seg_append : Seg k a (l1 ++ c :: l2) b ↔ Seg k a l1 c ∧ Seg k c l2 b := by
  induction l1 generalizing a with
  | nil => rfl
  | cons d l1 ih =>
    rw [List.cons_append, Seg, Seg, ih]
    exact and_assoc.symm

/-- A segment and its last element. -/
lemma seg_concat : Seg k a (l ++ [c]) b ↔ Seg k a l c ∧ k.next c = b ∧ k.prev b = c := seg_append

/-- A way to a node is determined by the links. -/
lemma Seg.unique {l' : List T} (h : Seg k a l b) (h' : Seg k a l' b) (out : b ∉ l) (out' : b ∉ l') : l = l' := by
  induction l generalizing a l' with
  | nil =>
    cases l' with
    | nil => rfl
    | cons c l' => exact absurd (h'.1.1.symm.trans h.1 ▸ List.mem_cons_self) out'
  | cons c l ih =>
    cases l' with
    | nil => exact absurd (h.1.1.symm.trans h'.1 ▸ List.mem_cons_self) out
    | cons c' l' =>
      obtain rfl : c = c' := h.1.1.symm.trans h'.1.1
      rw [ih h.2 h'.2 (fun mem => out (List.mem_cons_of_mem c mem)) fun mem => out' (List.mem_cons_of_mem c mem)]

/-- A segment depends on the forward links of its nodes before the end, and the backward links of those after its
    start. -/
lemma Seg.congr (h : Seg k a l b) (next : ∀ x ∈ a :: l, k'.next x = k.next x)
    (prev : ∀ x ∈ l ++ [b], k'.prev x = k.prev x) : Seg k' a l b := by
  induction l generalizing a with
  | nil =>
    rw [Seg, next a List.mem_cons_self, prev b List.mem_cons_self]
    exact h
  | cons c l ih =>
    obtain ⟨link, rest⟩ := h
    refine ⟨?_, ih rest (fun x hx => next x (List.mem_cons_of_mem a hx))
      fun x hx => prev x (List.mem_cons_of_mem c hx)⟩
    rw [next a List.mem_cons_self, prev c List.mem_cons_self]
    exact link

/-- A ring depends on the links of its own nodes. -/
lemma Circle.congr (h : Circle k l) (same : ∀ x ∈ l, k'.next x = k.next x ∧ k'.prev x = k.prev x) : Circle k' l := by
  cases l with
  | nil => trivial
  | cons a l =>
    refine Seg.congr h (fun x hx => (same x hx).1) fun x hx => (same x ?_).2
    rcases List.mem_append.mp hx with hx | hx
    · exact List.mem_cons_of_mem a hx
    · cases List.mem_singleton.mp hx
      exact List.mem_cons_self

/-- A ring can be read from each of its nodes. -/
lemma ring_rotate : Circle k (a :: (l1 ++ b :: l2)) ↔ Circle k (b :: (l2 ++ a :: l1)) := by
  rw [Circle, Circle, seg_append, seg_append]
  exact and_comm

/-- The last element of a ring may as well be the first. -/
lemma ring_concat : Circle k (a :: (l ++ [b])) ↔ Circle k (b :: a :: l) := ring_rotate

/-- The links around the start of a ring: it is alone, or it has a neighbour behind it and one before it. -/
lemma Circle.cases (h : Circle k (a :: l)) :
    (l = [] ∧ k.next a = a ∧ k.prev a = a) ∨
    ∃ b c l1, l = b :: l1 ∧ k.next a = b ∧ k.prev b = a ∧ k.next c = a ∧ k.prev a = c ∧ c ∈ l := by
  cases l with
  | nil => exact .inl ⟨rfl, h⟩
  | cons b l =>
    obtain ⟨⟨nab, pba⟩, rest⟩ := h
    rcases List.eq_nil_or_concat l with rfl | ⟨l', c, rfl⟩
    · exact .inr ⟨b, b, [], rfl, nab, pba, rest.1, rest.2, List.mem_cons_self⟩
    · rw [List.concat_eq_append, seg_concat] at rest
      refine .inr ⟨b, c, _, rfl, nab, pba, rest.2.1, rest.2.2, ?_⟩
      rw [List.concat_eq_append]
      exact List.mem_cons_of_mem b (List.mem_append_right _ List.mem_cons_self)

/-- The element before is in the ring. -/
lemma prev_mem (h : Circle k (a :: l)) : k.prev a ∈ a :: l := by
  rcases h.cases with ⟨-, -, pa⟩ | ⟨b, c, l1, -, -, -, -, pa, mem⟩
  · rw [pa]
    exact List.mem_cons_self
  · rw [pa]
    exact List.mem_cons_of_mem a mem

/-- The element behind is in the ring. -/
lemma next_mem (h : Circle k (a :: l)) : k.next a ∈ a :: l := by
  rcases h.cases with ⟨-, na, -⟩ | ⟨b, c, l1, e, na, -⟩
  · rw [na]
    exact List.mem_cons_self
  · rw [na, e]
    exact List.mem_cons_of_mem a List.mem_cons_self

section Insert
variable [DecidableEq T]

/-- The links after putting `p` between two neighbours. -/
def between (k : Links T) (x p y : T) : Links T :=
  ⟨Function.update (Function.update k.next x p) p y, Function.update (Function.update k.prev y p) p x⟩

/-- The links after `x` and `y` have become neighbours and `p` stands alone. -/
def apart (k : Links T) (x p y : T) : Links T :=
  ⟨Function.update (Function.update k.next x y) p p, Function.update (Function.update k.prev y x) p p⟩

/-- Putting an element in changes two links forward only. -/
lemma between_next_of_ne {x p y z : T} (h1 : z ≠ p) (h2 : z ≠ x) : (between k x p y).next z = k.next z := by
  show Function.update (Function.update k.next x p) p y z = k.next z
  rw [Function.update_of_ne h1, Function.update_of_ne h2]

/-- Putting an element in changes two links back only. -/
lemma between_prev_of_ne {x p y z : T} (h1 : z ≠ p) (h2 : z ≠ y) : (between k x p y).prev z = k.prev z := by
  show Function.update (Function.update k.prev y p) p x z = k.prev z
  rw [Function.update_of_ne h1, Function.update_of_ne h2]

/-- The four links that change when an element is put in. -/
lemma between_links {x p y : T} (px : p ≠ x) (py : p ≠ y) :
    ((between k x p y).next x = p ∧ (between k x p y).prev p = x) ∧
    (between k x p y).next p = y ∧ (between k x p y).prev y = p := by
  refine ⟨⟨?_, Function.update_self _ _ _⟩, Function.update_self _ _ _, ?_⟩
  · show Function.update (Function.update k.next x p) p y x = p
    rw [Function.update_of_ne px.symm, Function.update_self]
  · show Function.update (Function.update k.prev y p) p x y = p
    rw [Function.update_of_ne py.symm, Function.update_self]

/-- Taking an element out changes one link forward. -/
lemma apart_next_of_ne {x p y z : T} (h1 : z ≠ p) (h2 : z ≠ x) : (apart k x p y).next z = k.next z := by
  show Function.update (Function.update k.next x y) p p z = k.next z
  rw [Function.update_of_ne h1, Function.update_of_ne h2]

/-- Taking an element out changes one link back. -/
lemma apart_prev_of_ne {x p y z : T} (h1 : z ≠ p) (h2 : z ≠ y) : (apart k x p y).prev z = k.prev z := by
  show Function.update (Function.update k.prev y x) p p z = k.prev z
  rw [Function.update_of_ne h1, Function.update_of_ne h2]

/-- The two links that change when an element is taken out. -/
lemma apart_links {x p y : T} (px : p ≠ x) (py : p ≠ y) :
    (apart k x p y).next x = y ∧ (apart k x p y).prev y = x := by
  constructor
  · show Function.update (Function.update k.next x y) p p x = y
    rw [Function.update_of_ne px.symm, Function.update_self]
  · show Function.update (Function.update k.prev y x) p p y = x
    rw [Function.update_of_ne py.symm, Function.update_self]

/-- Putting a node between the last and the first one of a circle. -/
lemma Circle.insert {p : T} (h : Circle k (a :: l)) (nodup : (a :: l).Nodup) (new : p ∉ a :: l) :
    Circle (between k (k.prev a) p a) (a :: (l ++ [p])) := by
  have px : p ≠ k.prev a := fun e => new (e ▸ prev_mem h)
  have pa : p ≠ a := fun e => new (e ▸ List.mem_cons_self)
  obtain ⟨first, second⟩ := between_links (k := k) px pa
  show Seg _ a (l ++ [p]) a
  rw [seg_concat]
  refine ⟨?_, second⟩
  rcases List.eq_nil_or_concat l with rfl | ⟨l', z, rfl⟩
  · have xa : k.prev a = a := h.2
    rw [xa] at first ⊢
    exact first
  · rw [List.concat_eq_append] at h nodup new ⊢
    have split : Seg k a l' z ∧ k.next z = a ∧ k.prev a = z := seg_concat.mp h
    rw [split.2.2] at first ⊢
    rw [seg_concat]
    refine ⟨split.1.congr (fun y hy => ?_) fun y hy => ?_, first⟩
    · refine between_next_of_ne (fun e => new ?_) fun e => ?_
      · rw [← e]
        rcases List.mem_cons.mp hy with rfl | hy
        · exact List.mem_cons_self
        · exact List.mem_cons_of_mem a (List.mem_append_left _ hy)
      · subst e
        have apart := List.nodup_append.mp (show ((a :: l') ++ [y]).Nodup from nodup)
        exact apart.2.2 y hy y List.mem_cons_self rfl
    · refine between_prev_of_ne (fun e => new ?_) fun e => ?_
      · rw [← e]
        exact List.mem_cons_of_mem a hy
      · subst e
        exact (List.nodup_cons.mp nodup).1 hy

/-- Taking a node out of a circle. -/
lemma Circle.remove {p : T} (h : Circle k (p :: l)) (nodup : (p :: l).Nodup) :
    Circle (apart k (k.prev p) p (k.next p)) l := by
  obtain ⟨notMem, nodup⟩ := List.nodup_cons.mp nodup
  cases l with
  | nil => trivial
  | cons y l =>
    obtain ⟨⟨npy, ppy⟩, rest⟩ := h
    rw [npy]
    have py : p ≠ y := fun e => notMem (e ▸ List.mem_cons_self)
    show Seg _ y l y
    rcases List.eq_nil_or_concat l with rfl | ⟨l', x, rfl⟩
    · rw [rest.2]
      exact apart_links py py
    · rw [List.concat_eq_append] at rest notMem nodup ⊢
      rw [seg_concat] at rest ⊢
      obtain ⟨seg, -, ppx⟩ := rest
      rw [ppx]
      have px : p ≠ x := fun e => notMem (by rw [e]; simp)
      refine ⟨seg.congr (fun z hz => ?_) fun z hz => ?_, apart_links px py⟩
      · refine apart_next_of_ne (fun e => notMem ?_) fun e => ?_
        · rw [← e]
          rcases List.mem_cons.mp hz with rfl | hz
          · exact List.mem_cons_self
          · exact List.mem_cons_of_mem y (List.mem_append_left _ hz)
        · subst e
          have apart := List.nodup_append.mp (show ((y :: l') ++ [z]).Nodup from nodup)
          exact apart.2.2 z hz z List.mem_cons_self rfl
      · refine apart_prev_of_ne (fun e => notMem ?_) fun e => ?_
        · rw [← e]
          exact List.mem_cons_of_mem y hz
        · subst e
          exact (List.nodup_cons.mp nodup).1 hz

end Insert

end Twcos.Ring
