import Twcos.Prog.Emits
import Twcos.Sched.List

/-!
# The members of a list

The rest of the macros of `libk/list.c`, and what all of them do to the members of a list. A circle can be read from each
of its nodes (`ring_append_comm`), so that an insertion or a removal anywhere is one at the start of the circle.

C → Lean naming: `LIST_NEXT` → `listNext`, `LIST_INSERT_BEFORE` → `listInsertBefore`, `LIST_INSERT_AFTER` →
`listInsertAfter`.
-/

namespace Twcos.Sched
open Twcos.Ring Twcos.Prog Function

variable {T : Type}

/-- `LIST_NEXT(list, p)`: the value of `p`. -/
def listNext [DecidableEq T] (k : Links T) (list : Option T) (p : T) : Option T :=
  if list ≠ some (k.next p) then some (k.next p) else none

/-- `LIST_INSERT_BEFORE(list, before, p)`. -/
def listInsertBefore [DecidableEq T] (k : Links T) (list before : Option T) (p : T) : Links T × Option T :=
  match before with
  | some b =>
    let k := setPrev k p (k.prev b)
    let k := setNext k p b
    let k := setNext k (k.prev b) p
    (setPrev k b p, list)
  | none => listPrepend k list p

/-- `LIST_INSERT_AFTER(list, after, p)`. -/
def listInsertAfter [DecidableEq T] (k : Links T) (list after : Option T) (p : T) : Links T × Option T :=
  match after with
  | some a =>
    let k := setPrev k p a
    let k := setNext k p (k.next a)
    let k := setPrev k (k.next a) p
    (setNext k a p, list)
  | none => listPrepend k list p

/-- A turn of `while (p) { ...; LIST_NEXT(list, p); }`. -/
def visitTurn [DecidableEq T] (k : Links T) (list : Option T) : Option T → Prog Empty (Unit × List T) (Option T ⊕ Unit)
  | none => pure (.inr ())
  | some p => do
    emit p
    pure (.inl (listNext k list p))

/-- The loop from the head, with the nodes that it comes to. -/
def visit [DecidableEq T] (k : Links T) (list : Option T) : Prog Empty (Unit × List T) Unit := loop (visitTurn k list) list

/-- The list has these members. -/
def HasMembers (k : Links T) (list : Option T) (members : List T) : Prop := ∃ l, IsList k list l ∧ l.Perm members

variable {k : Links T} {list : Option T} {l l1 l2 m : List T} {a b p : T}

/-- A ring may be cut anywhere. -/
lemma ring_append_comm : Circle k (l1 ++ l2) ↔ Circle k (l2 ++ l1) := by
  cases l1 with
  | nil => rw [List.nil_append, List.append_nil]
  | cons a l1 =>
    cases l2 with
    | nil => rw [List.nil_append, List.append_nil]
    | cons b l2 => exact ring_rotate

/-- A list as a circle from one of its nodes. -/
lemma IsList.fromNode (h : IsList k list l) (mem : a ∈ l) : ∃ m, Circle k (a :: m) ∧ (a :: m).Perm l ∧ (a :: m).Nodup := by
  obtain ⟨l1, l2, rfl⟩ := List.append_of_mem mem
  have perm : ((a :: l2) ++ l1).Perm (l1 ++ a :: l2) := List.perm_append_comm
  exact ⟨l2 ++ l1, ring_append_comm.mp h.circle, perm, perm.nodup_iff.mpr h.nodup⟩

/-- A circle as a list, with one of its nodes as the head. -/
lemma hasMembers_of_circle (circle : Circle k l) (nodup : l.Nodup) (mem : a ∈ l) : HasMembers k (some a) l := by
  obtain ⟨l1, l2, rfl⟩ := List.append_of_mem mem
  have perm : ((a :: l2) ++ l1).Perm (l1 ++ a :: l2) := List.perm_append_comm
  exact ⟨(a :: l2) ++ l1, ⟨rfl, ring_append_comm.mp circle, perm.nodup_iff.mpr nodup⟩, perm⟩

/-- The members in another order. -/
lemma HasMembers.congr (h : HasMembers k list l) (perm : l.Perm m) : HasMembers k list m := by
  obtain ⟨c, isList, same⟩ := h
  exact ⟨c, isList, same.trans perm⟩

section Macros
variable [DecidableEq T]

/-- `LIST_INSERT_BEFORE` puts the element in before the other. -/
lemma insertBefore_links (pb : p ≠ b) (px : p ≠ k.prev b) :
    listInsertBefore k list (some b) p = (between k (k.prev b) p b, list) := by
  have first : update k.prev p (k.prev b) b = k.prev b := update_of_ne pb.symm _ _
  simp only [listInsertBefore, setNext, setPrev, first, between]
  rw [update_comm px, update_comm pb]

/-- `LIST_INSERT_AFTER` puts it in behind the other. -/
lemma insertAfter_links (pa : p ≠ a) (py : p ≠ k.next a) :
    listInsertAfter k list (some a) p = (between k a p (k.next a), list) := by
  have first : update k.next p (k.next a) a = k.next a := update_of_ne pa.symm _ _
  simp only [listInsertAfter, setNext, setPrev, first, between]
  rw [update_comm py, update_comm pa]

/-- A node between a member and the one before it. -/
lemma IsList.between (h : IsList k list l) (mem : b ∈ l) (new : p ∉ l) :
    HasMembers (between k (k.prev b) p b) list (p :: l) := by
  obtain ⟨m, circle, perm, nodup⟩ := h.fromNode mem
  have new : p ∉ b :: m := fun hp => new (perm.mem_iff.mp hp)
  have inserted := circle.insert nodup new
  have same : ((b :: m) ++ [p]).Perm (p :: l) := (List.perm_append_singleton p _).trans (perm.cons p)
  have nodup' : ((b :: m) ++ [p]).Nodup := (List.perm_append_singleton p _).nodup_iff.mpr (List.nodup_cons.mpr ⟨new, nodup⟩)
  obtain ⟨head, -, -⟩ := h
  cases l with
  | nil => exact absurd mem List.not_mem_nil
  | cons a l =>
    rw [head]
    refine (hasMembers_of_circle inserted nodup' ?_).congr same
    exact same.mem_iff.mpr (List.mem_cons_of_mem p List.mem_cons_self)

/-- `LIST_INSERT_BEFORE` makes a list of one more member. -/
lemma IsList.insertBefore (h : IsList k list l) (mem : b ∈ l) (new : p ∉ l) :
    HasMembers (listInsertBefore k list (some b) p).1 (listInsertBefore k list (some b) p).2 (p :: l) := by
  obtain ⟨m, circle, perm, -⟩ := h.fromNode mem
  have px : p ≠ k.prev b := fun e => new (perm.mem_iff.mp (e ▸ prev_mem circle))
  have pb : p ≠ b := fun e => new (e ▸ mem)
  rw [insertBefore_links pb px]
  exact h.between mem new

/-- `LIST_INSERT_AFTER` makes a list of one more member. -/
lemma IsList.insertAfter (h : IsList k list l) (mem : a ∈ l) (new : p ∉ l) :
    HasMembers (listInsertAfter k list (some a) p).1 (listInsertAfter k list (some a) p).2 (p :: l) := by
  obtain ⟨m, circle, perm, -⟩ := h.fromNode mem
  have next := perm.mem_iff.mp (next_mem circle)
  have pa : p ≠ a := fun e => new (e ▸ mem)
  have py : p ≠ k.next a := fun e => new (e ▸ next)
  rw [insertAfter_links pa py]
  -- between the next node and the one before it
  have back : k.prev (k.next a) = a := by
    rcases circle.cases with ⟨-, na, pa⟩ | ⟨b, c, l1, -, na, pb, -⟩
    · rw [na, pa]
    · rw [na, pb]
  have inserted := h.between next new
  rwa [back] at inserted

/-- `LIST_DELETE` makes a list of one member less. -/
lemma IsList.deleteMember (h : IsList k list l) (mem : p ∈ l) :
    HasMembers (listDelete k list p).1 (listDelete k list p).2 (l.erase p) := by
  obtain ⟨m, circle, perm, nodup⟩ := h.fromNode mem
  have rest : m.Perm (l.erase p) := (perm.trans (List.perm_cons_erase mem)).cons_inv
  cases l with
  | nil => exact absurd mem List.not_mem_nil
  | cons a l =>
    by_cases first : a = p
    · subst first
      rw [List.erase_cons_head]
      exact ⟨l, h.delete.1, .refl l⟩
    · have other : a ∈ m := (List.mem_cons.mp (perm.mem_iff.mpr List.mem_cons_self)).resolve_left first
      have next : k.next p ≠ p := by
        rcases circle.cases with ⟨alone, -, -⟩ | ⟨b, c, m', e, np, -⟩
        · rw [alone] at other
          exact absurd other List.not_mem_nil
        · intro same
          rw [e, ← np, same] at nodup
          exact (List.nodup_cons.mp nodup).1 List.mem_cons_self
      have list : (listDelete k list p).2 = some a := by
        rw [h.head, List.head?_cons, listDelete, if_neg next, if_neg fun e => first (Option.some.inj e)]
      rw [delete_links, list]
      exact (hasMembers_of_circle (circle.remove nodup) (List.nodup_cons.mp nodup).2 other).congr rest

/-- From a node on, up to the head. -/
lemma Seg.visit (seg : Seg k a l b) (out : b ∉ l) : Emits (loop (visitTurn k (some b)) (some a)) () () (a :: l) () := by
  induction l generalizing a with
  | nil =>
    have last : listNext k (some b) a = none := if_neg fun ne => ne (congrArg some seg.1.symm)
    have turn : Emits (visitTurn k (some b) (some a)) () (.inl none) [a] () := .bind (.emit a ()) (last ▸ .pure _ ())
    have exit : Emits (loop (visitTurn k (some b)) none) () () [] () := .exit (.pure _ ())
    exact turn.turn exit
  | cons c l ih =>
    obtain ⟨⟨nac, -⟩, rest⟩ := seg
    have ne : b ≠ c := fun e => out (e ▸ List.mem_cons_self)
    have next : listNext k (some b) a = some c := by
      rw [listNext, nac, if_pos fun e => ne (Option.some.inj e)]
    have turn : Emits (visitTurn k (some b) (some a)) () (.inl (some c)) [a] () :=
      .bind (.emit a ()) (next ▸ .pure _ ())
    exact turn.turn (ih rest fun mem => out (List.mem_cons_of_mem c mem))

/-- A walk over the list comes to the members in their order. -/
lemma IsList.visit (h : IsList k list l) : Emits (visit k list) () () l () := by
  obtain ⟨rfl, circle, nodup⟩ := h
  cases l with
  | nil => exact .exit (.pure _ _)
  | cons a l => exact Seg.visit circle (List.nodup_cons.mp nodup).1

/-- All macros leave a list again, which has the node in addition or no longer, and the loop comes to every member once,
    as they are different, and ends. -/
theorem list_members (h : IsList k list l) :
    (∀ p, p ∉ l →
      HasMembers (listAppend k list p).1 (listAppend k list p).2 (p :: l) ∧
      HasMembers (listPrepend k list p).1 (listPrepend k list p).2 (p :: l) ∧
      (∀ before, (∀ b ∈ before, b ∈ l) →
        HasMembers (listInsertBefore k list before p).1 (listInsertBefore k list before p).2 (p :: l)) ∧
      ∀ after, (∀ a ∈ after, a ∈ l) →
        HasMembers (listInsertAfter k list after p).1 (listInsertAfter k list after p).2 (p :: l)) ∧
    (∀ p ∈ l, HasMembers (listDelete k list p).1 (listDelete k list p).2 (l.erase p)) ∧
    Emits (visit k list) () () l () ∧ l.Nodup := by
  refine ⟨fun p new => ?_, fun p => h.deleteMember, h.visit, h.nodup⟩
  have prepend : HasMembers (listPrepend k list p).1 (listPrepend k list p).2 (p :: l) := by
    refine ⟨_, (h.prepend new).1, .cons p ?_⟩
    have split := List.take_append_drop 1 l
    rw [List.drop_one] at split
    exact List.perm_append_comm.trans (.of_eq split)
  refine ⟨⟨_, (h.append new).1, List.perm_append_singleton p l⟩, prepend, fun before mem => ?_, fun after mem => ?_⟩
  · cases before with
    | none => exact prepend
    | some b => exact h.insertBefore (mem b rfl) new
  · cases after with
    | none => exact prepend
    | some a => exact h.insertAfter (mem a rfl) new

end Macros

/-- Two nodes of three. -/
def pair : Links (Fin 3) := ⟨fun p => if p = 2 then 2 else 1 - p, fun p => if p = 2 then 2 else 1 - p⟩

/-- Three elements in a list, one after the other. -/
theorem list_members_pair :
    HasMembers (listAppend pair (some 0) 2).1 (listAppend pair (some 0) 2).2 [2, 0, 1] ∧
      HasMembers (listInsertAfter pair (some 0) (some 1) 2).1 (listInsertAfter pair (some 0) (some 1) 2).2 [2, 0, 1] ∧
      HasMembers (listDelete pair (some 0) 0).1 (listDelete pair (some 0) 0).2 [1] ∧
      Emits (visit pair (some 0)) () () [0, 1] () := by
  have isList : IsList pair (some 0) [0, 1] := ⟨rfl, ⟨⟨rfl, rfl⟩, rfl, rfl⟩, by decide⟩
  obtain ⟨inserted, deleted, visited, -⟩ := list_members isList
  obtain ⟨appended, -, -, after⟩ := inserted 2 (by decide)
  exact ⟨appended, after (some 1) (by simp), deleted 0 (by decide), visited⟩

end Twcos.Sched
