import Twcos.Ring.Basic

/-!
# Intrusive lists

Model of the macros of `libk/list.c`. A list is a pointer to its first node, which is null if the list is empty; the
macros assign links of nodes and the pointer. `IsList` says that the pointer leads to the nodes of a list, in order.

C → Lean naming: `LIST_APPEND` → `listAppend`, `LIST_PREPEND` → `listPrepend`, `LIST_DELETE` → `listDelete`.
-/

namespace Twcos.Sched
open Twcos.Ring Function

variable {T : Type} [DecidableEq T]

/-- `p->next = q`. -/
def setNext (k : Links T) (p q : T) : Links T := { k with next := update k.next p q }

/-- `p->prev = q`. -/
def setPrev (k : Links T) (p q : T) : Links T := { k with prev := update k.prev p q }

/-- `LIST_APPEND(list, p)`: the links and the list. -/
def listAppend (k : Links T) (list : Option T) (p : T) : Links T × Option T :=
  match list with
  | some a =>
    let k := setNext k p a
    let k := setPrev k p (k.prev a)
    let k := setNext k (k.prev a) p
    (setPrev k a p, some a)
  | none => (setPrev (setNext k p p) p p, some p)

/-- `LIST_PREPEND(list, p)`. -/
def listPrepend (k : Links T) (list : Option T) (p : T) : Links T × Option T :=
  match list with
  | some a =>
    let k := setPrev k p a
    let k := setNext k p (k.next a)
    let k := setPrev k (k.next a) p
    (setNext k a p, some p)
  | none => (setNext (setPrev k p p) p p, some p)

/-- `LIST_DELETE(list, p)`. -/
def listDelete (k : Links T) (list : Option T) (p : T) : Links T × Option T :=
  let list := if k.next p = p then none else if list = some p then some (k.next p) else list
  let k := setNext k (k.prev p) (k.next p)
  let k := setPrev k (k.next p) (k.prev p)
  (setNext (setPrev k p p) p p, list)

/-- The list has these nodes. -/
structure IsList (k : Links T) (list : Option T) (l : List T) : Prop where
  head : list = l.head?
  circle : Circle k l
  nodup : l.Nodup

/-- Only links of these nodes have changed. -/
def Touches (k k' : Links T) (l : List T) : Prop := ∀ z, z ∉ l → k'.next z = k.next z ∧ k'.prev z = k.prev z

variable {k k' : Links T} {list : Option T} {l l' : List T} {a p x : T}

omit [DecidableEq T] in
/-- A list of other nodes stays as it is. -/
lemma IsList.congr (h : IsList k list l) (touches : Touches k k' l') (apart : ∀ z ∈ l, z ∉ l') : IsList k' list l :=
  ⟨h.head, h.circle.congr fun z hz => touches z (apart z hz), h.nodup⟩

omit [DecidableEq T] in
/-- A pointer leads to one list. -/
lemma IsList.unique (h : IsList k list l) (h' : IsList k list l') : l = l' := by
  have heads := h.head.symm.trans h'.head
  cases l with
  | nil => exact (List.head?_eq_none_iff.mp heads.symm).symm
  | cons a l =>
    cases l' with
    | nil => cases heads
    | cons b l' =>
      cases heads
      rw [h.circle.unique h'.circle (List.nodup_cons.mp h.nodup).1 (List.nodup_cons.mp h'.nodup).1]

/-- Putting an element in touches elements of the list only. -/
lemma between_touches {y : T} {l : List T} (hx : x ∈ l) (hp : p ∈ l) (hy : y ∈ l) : Touches k (between k x p y) l := by
  intro z hz
  have zx : z ≠ x := fun e => hz (e ▸ hx)
  have zp : z ≠ p := fun e => hz (e ▸ hp)
  have zy : z ≠ y := fun e => hz (e ▸ hy)
  exact ⟨between_next_of_ne zp zx, between_prev_of_ne zp zy⟩

/-- Taking an element out touches elements of the list only. -/
lemma apart_touches {y : T} {l : List T} (hx : x ∈ l) (hp : p ∈ l) (hy : y ∈ l) : Touches k (apart k x p y) l := by
  intro z hz
  have zx : z ≠ x := fun e => hz (e ▸ hx)
  have zp : z ≠ p := fun e => hz (e ▸ hp)
  have zy : z ≠ y := fun e => hz (e ▸ hy)
  exact ⟨apart_next_of_ne zp zx, apart_prev_of_ne zp zy⟩

/-- `LIST_APPEND` puts the element in before the head. -/
lemma append_links (pa : p ≠ a) (px : p ≠ k.prev a) :
    listAppend k (some a) p = (between k (k.prev a) p a, some a) := by
  have first : update k.prev p (k.prev a) a = k.prev a := update_of_ne pa.symm _ _
  simp only [listAppend, setNext, setPrev, first, between]
  rw [update_comm px, update_comm pa]

/-- `LIST_PREPEND` puts it in behind the head. -/
lemma prepend_links (pa : p ≠ a) (px : p ≠ k.next a) :
    listPrepend k (some a) p = (between k a p (k.next a), some p) := by
  have first : update k.next p (k.next a) a = k.next a := update_of_ne pa.symm _ _
  simp only [listPrepend, setNext, setPrev, first, between]
  rw [update_comm px, update_comm pa]

/-- `LIST_DELETE` takes the element out of the ring. -/
lemma delete_links (k : Links T) (list : Option T) (p : T) :
    (listDelete k list p).1 = apart k (k.prev p) p (k.next p) := by
  have same : update k.next (k.prev p) (k.next p) p = k.next p := by
    by_cases e : p = k.prev p
    · rw [← e, update_self]
    · exact update_of_ne e _ _
  simp only [listDelete, setNext, setPrev, same, apart]

/-- `LIST_APPEND` of a node that is not in the list. -/
lemma IsList.append (h : IsList k list l) (new : p ∉ l) :
    IsList (listAppend k list p).1 (listAppend k list p).2 (l ++ [p]) ∧
      Touches k (listAppend k list p).1 (p :: l) := by
  obtain ⟨rfl, circle, nodup⟩ := h
  cases l with
  | nil =>
    refine ⟨⟨rfl, ⟨update_self _ _ _, update_self _ _ _⟩, List.nodup_singleton p⟩, fun z hz => ?_⟩
    have zp : z ≠ p := fun e => hz (e ▸ List.mem_cons_self)
    exact ⟨update_of_ne zp _ _, update_of_ne zp _ _⟩
  | cons a l =>
    have pa : p ≠ a := fun e => new (e ▸ List.mem_cons_self)
    have px : p ≠ k.prev a := fun e => new (e ▸ prev_mem circle)
    rw [List.head?_cons, append_links pa px]
    refine ⟨⟨rfl, circle.insert nodup new, ?_⟩, ?_⟩
    · exact List.nodup_append.mpr ⟨nodup, List.nodup_singleton p, by
        rintro y hy _ hp rfl
        cases List.mem_singleton.mp hp
        exact new hy⟩
    · exact between_touches (List.mem_cons_of_mem p (prev_mem circle)) List.mem_cons_self
        (List.mem_cons_of_mem p List.mem_cons_self)

/-- `LIST_PREPEND` puts the node behind the first one and then starts the list with it, so that the first one is the
    last one afterwards. -/
lemma IsList.prepend (h : IsList k list l) (new : p ∉ l) :
    IsList (listPrepend k list p).1 (listPrepend k list p).2 (p :: (l.tail ++ l.take 1)) ∧
      Touches k (listPrepend k list p).1 (p :: l) := by
  obtain ⟨rfl, circle, nodup⟩ := h
  cases l with
  | nil =>
    refine ⟨⟨rfl, ⟨update_self _ _ _, update_self _ _ _⟩, List.nodup_singleton p⟩, fun z hz => ?_⟩
    have zp : z ≠ p := fun e => hz (e ▸ List.mem_cons_self)
    exact ⟨update_of_ne zp _ _, update_of_ne zp _ _⟩
  | cons a l =>
    have pa : p ≠ a := fun e => new (e ▸ List.mem_cons_self)
    have px : p ≠ k.next a := fun e => new (e ▸ next_mem circle)
    rw [List.head?_cons, prepend_links pa px]
    have perm : (l ++ [a]).Perm (a :: l) := List.perm_append_singleton a l
    refine ⟨⟨rfl, ?_, ?_⟩, ?_⟩
    · cases l with
      | nil =>
        -- the only node is both neighbours
        have next : k.next a = k.prev a := circle.1.trans circle.2.symm
        have here : k.prev a = a := circle.2
        have inserted := circle.insert nodup new
        rw [here] at inserted
        rw [next, here]
        exact ring_concat.mp inserted
      | cons b l =>
        obtain ⟨nab, pba⟩ := circle.1
        have rotated : Circle k (b :: (l ++ [a])) := ring_concat.mpr circle
        have inserted := rotated.insert (p := p) (perm.nodup_iff.mpr nodup) fun hp => new (perm.mem_iff.mp hp)
        rw [pba] at inserted
        rw [nab]
        exact ring_concat.mp inserted
    · exact List.nodup_cons.mpr ⟨fun hp => new (perm.mem_iff.mp hp), perm.nodup_iff.mpr nodup⟩
    · exact between_touches (List.mem_cons_of_mem p List.mem_cons_self) List.mem_cons_self
        (List.mem_cons_of_mem p (next_mem circle))

/-- `LIST_DELETE` of the first node. -/
lemma IsList.delete (h : IsList k list (p :: l)) :
    IsList (listDelete k list p).1 (listDelete k list p).2 l ∧ Touches k (listDelete k list p).1 (p :: l) := by
  obtain ⟨rfl, circle, nodup⟩ := h
  rw [delete_links]
  refine ⟨⟨?_, circle.remove nodup, (List.nodup_cons.mp nodup).2⟩,
    apart_touches (prev_mem circle) List.mem_cons_self (next_mem circle)⟩
  rcases circle.cases with ⟨rfl, next, -⟩ | ⟨b, c, l1, rfl, next, -⟩
  · simp only [listDelete, next, if_true]
    rfl
  · have ne : b ≠ p := fun e => (List.nodup_cons.mp nodup).1 (e ▸ List.mem_cons_self)
    simp only [listDelete, next, if_neg ne, List.head?_cons, if_true]

end Twcos.Sched
