import Mathlib.Algebra.Ring.Nat
import Mathlib.Algebra.Ring.Int.Defs
import Mathlib.Tactic.Common

/-!
# Bounded queues

`Bounded n α` is a first-in first-out queue with room for `n` elements, which drops what does not fit. An implementation
has its own `put` and `get`; `runs` is what a list of calls of them returns and leaves, and `runs_refines` the rule for
a relation between the states of two implementations.

`Window` says what a circular buffer has from a place on. The place is a counter that is never reduced, so that its
remainder by the size of the buffer is the index.
-/

namespace Twcos.Fifo

variable {α β σ τ : Type}

structure Bounded (n : Nat) (α : Type) where
  pending : List α
  fits : pending.length ≤ n

namespace Bounded
variable {n : Nat}

def empty : Bounded n α := ⟨[], Nat.zero_le n⟩

def put (a : α) (q : Bounded n α) : Bounded n α :=
  if h : q.pending.length < n then ⟨q.pending ++ [a], by rw [List.length_append]; exact h⟩ else q

/-- The oldest element, if there is one. -/
def get (q : Bounded n α) : Option α × Bounded n α :=
  (q.pending.head?, ⟨q.pending.tail, by rw [List.length_tail]; exact Nat.le_trans (Nat.sub_le _ 1) q.fits⟩)

/-- Putting into a queue that has room. -/
lemma put_pending {a : α} {q : Bounded n α} (h : q.pending.length < n) : (q.put a).pending = q.pending ++ [a] := by
  rw [put, dif_pos h]

/-- A full queue stays as it is. -/
lemma put_full {a : α} {q : Bounded n α} (h : ¬q.pending.length < n) : q.put a = q := dif_neg h

end Bounded

/-! ### Runs -/

inductive Call (α : Type) where
  | put (a : α)
  | get

/-- What the calls of `get` return, and the last state. -/
def runs (put : α → σ → σ) (get : σ → β × σ) : σ → List (Call α) → List β × σ
  | s, [] => ([], s)
  | s, .put a :: cs => runs put get (put a s) cs
  | s, .get :: cs => ((get s).1 :: (runs put get (get s).2 cs).1, (runs put get (get s).2 cs).2)

section Refines
variable {put : α → σ → σ} {get : σ → β × σ} {put' : α → τ → τ} {get' : τ → β × τ} {s : σ} {t : τ}

/-- Calls that simulate the calls of another queue give the same results, whatever their order. -/
lemma runs_refines (R : σ → τ → Prop) (puts : ∀ a s t, R s t → R (put a s) (put' a t))
    (gets : ∀ s t, R s t → (get s).1 = (get' t).1 ∧ R (get s).2 (get' t).2) (h : R s t) (cs : List (Call α)) :
    (runs put get s cs).1 = (runs put' get' t cs).1 ∧ R (runs put get s cs).2 (runs put' get' t cs).2 := by
  induction cs generalizing s t with
  | nil => exact ⟨rfl, h⟩
  | cons c cs ih =>
    cases c with
    | put a => exact ih (puts a s t h)
    | get =>
      obtain ⟨same, next⟩ := gets s t h
      obtain ⟨rest, last⟩ := ih next
      refine ⟨?_, last⟩
      rw [runs, runs, same, rest]

end Refines

/-! ### Circular buffers -/

/-- The cells from the place on, as many as the list is long. -/
def Window {m : Nat} (cell : Fin m → α) (first : Nat) (l : List α) : Prop :=
  ∀ (i : Nat) (lt : i < l.length) (j : Fin m), j.val = (first + i) % m → cell j = l[i]

section Window
variable {m first : Nat} {cell : Fin m → α} {l : List α} {a : α}

/-- A window without cells. -/
lemma Window.nil : Window cell first [] := fun _ lt => absurd lt (Nat.not_lt_zero _)

/-- Two places less than the size of the buffer apart have cells of their own. -/
lemma index_ne {i k : Nat} (lt : i < k) (near : k < m) : (first + i) % m ≠ (first + k) % m := by
  intro same
  have gap := Nat.sub_mod_eq_zero_of_mod_eq same.symm
  rw [Nat.add_sub_add_left, Nat.mod_eq_of_lt (Nat.lt_of_le_of_lt (Nat.sub_le k i) near)] at gap
  exact absurd gap (Nat.sub_ne_zero_of_lt lt)

/-- The next cell is filled. -/
lemma Window.put (h : Window cell first l) (room : l.length < m) {j : Fin m} (next : j.val = (first + l.length) % m) :
    Window (Function.update cell j a) first (l ++ [a]) := by
  intro i lt k here
  rw [List.length_append, List.length_singleton] at lt
  rcases Nat.lt_succ_iff_lt_or_eq.mp lt with old | rfl
  · have other : k ≠ j := by
      intro e
      subst e
      exact index_ne old room (here.symm.trans next)
    rw [Function.update_of_ne other, List.getElem_append_left old]
    exact h i old k here
  · obtain rfl : k = j := Fin.ext (here.trans next.symm)
    rw [Function.update_self, List.getElem_concat_length]
    rfl

/-- The first cell is taken. -/
lemma Window.get (h : Window cell first (a :: l)) {j : Fin m} (here : j.val = first % m) :
    cell j = a ∧ Window cell (first + 1) l := by
  refine ⟨h 0 (Nat.zero_lt_succ _) j here, fun i lt k place => ?_⟩
  exact h (i + 1) (Nat.succ_lt_succ lt) k (by rw [place, Nat.add_right_comm, Nat.add_assoc])

/-- Only the remainder of the place matters. -/
lemma Window.congr {first' : Nat} (h : Window cell first l) (same : first % m = first' % m) : Window cell first' l := by
  intro i lt j place
  refine h i lt j ?_
  rw [place, Nat.add_mod, ← same, ← Nat.add_mod]

end Window

end Twcos.Fifo
