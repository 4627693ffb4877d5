import Twcos.Bin.Height
import Twcos.Tree.Lookup

/-!
# Optimizing a tree

What `tree_optimize` leaves: the nodes that were there, in their order, linked to a tree that is as low as it can be, with
priorities that grow by 10 from each node to those below it.
-/

namespace Twcos.Tree
open Twcos.Prog Twcos.Bin

variable {K V : Type}

/-- A tree that was optimized is halved at every node. -/
lemma Optimal.halved {t : Shape K V} {level : Int} (h : Optimal level t) : t.Halved := by
  induction t generalizing level with
  | nil => trivial
  | node l x r ihl ihr =>
    obtain ⟨-, sizes, hl, hr⟩ := h
    exact ⟨sizes, ihl hl, ihr hr⟩

/-- The part of a rebuilt tree at a position. -/
lemma Optimal.part {p : Path (Cell K V)} {t : Shape K V} (h : Optimal 10 (plug p t)) : Optimal (levelBelow p) t := by
  induction p generalizing t with
  | nil => exact h
  | cons f p ih =>
    have whole := ih h
    obtain ⟨s, y, sibling⟩ := f
    cases s with
    | left =>
      obtain ⟨level, -, left, -⟩ := whole
      rwa [← level] at left
    | right =>
      obtain ⟨level, -, -, right⟩ := whole
      rwa [← level] at right

/-- `tree_optimize` ends and keeps the nodes in their order, with their links and counts. Every left subtree is as large as
    the right one or larger by one, so that no tree with as many nodes is lower, and the priority of every node is that of
    the node above it plus 10. -/
theorem treeOptimize_halves (m : Mem K V) (t : Shape K V) (h : Stores m t) :
    ∃ m' u, Returns treeOptimize m () m' ∧ Stores m' u ∧ bindings u = bindings t ∧ addrs u = addrs t ∧
      (∀ p l x r, u = plug p (.node l x r) → l.size = r.size ∨ l.size = r.size + 1) ∧
      (∀ (v : Shape K V), v.size = u.size → u.height ≤ v.height) ∧
      ∀ f p l x r, u = plug (f :: p) (.node l x r) → x.priority = f.elem.priority + 10 := by
  obtain ⟨m', u, run, stores, same, optimal⟩ := treeOptimize_returns h
  refine ⟨m', u, run, stores, bindings_of_entries same, addrs_of_entries same, ?_, ?_, ?_⟩
  · rintro p l x r rfl
    exact optimal.part.2.1
  · intro v size
    exact optimal.halved.height_le size
  · rintro f p l x r rfl
    exact optimal.part.1

/-- Optimizing a tree of three nodes. -/
theorem treeOptimize_threeNodes : Stores (threeNodes 1 3 1) threeShape ∧
    ∃ m' u, Returns treeOptimize (threeNodes 1 3 1) () m' ∧ Stores m' u ∧ bindings u = bindings threeShape ∧
      ∀ f p l x r, u = plug (f :: p) (.node l x r) → x.priority = f.elem.priority + 10 := by
  obtain ⟨m', u, run, stores, same, -, -, -, levels⟩ := treeOptimize_halves _ _ stores_threeNodes
  exact ⟨stores_threeNodes, m', u, run, stores, same, levels⟩

end Twcos.Tree
