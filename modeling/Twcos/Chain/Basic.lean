import Mathlib.Data.List.Nodup
import Mathlib.Logic.Function.Basic
import Mathlib.Tactic.Common

/-!
# Chains of nodes

Nodes that are linked by one pointer each, which may be null. `Chain next a l b` says that following the links from the
pointer `a` leads through the nodes of `l` to the pointer `b`. A chain depends only on the links of its own nodes
(`Chain.congr`), and its end is the link of its last node (`Chain.relink`).
-/

namespace Twcos

variable {T : Type}

/-- From `a` through `l` to `b`. -/
def Chain (next : T → Option T) : Option T → List T → Option T → Prop
  | a, [], b => a = b
  | a, x :: l, b => a = some x ∧ Chain next (next x) l b

variable {next next' : T → Option T} {a b c : Option T} {x : T} {l l1 l2 : List T}

/-- A chain in two parts. -/
lemma chain_append : Chain next a (l1 ++ l2) b ↔ ∃ c, Chain next a l1 c ∧ Chain next c l2 b := by
  induction l1 generalizing a with
  | nil => exact ⟨fun h => ⟨a, rfl, h⟩, fun ⟨_, e, h⟩ => e ▸ h⟩
  | cons x l1 ih =>
    rw [List.cons_append, Chain, ih]
    exact ⟨fun ⟨e, d, h1, h2⟩ => ⟨d, ⟨e, h1⟩, h2⟩, fun ⟨d, ⟨e, h1⟩, h2⟩ => ⟨e, d, h1, h2⟩⟩

/-- A chain depends on the links of its own nodes. -/
lemma Chain.congr (h : Chain next a l b) (same : ∀ y ∈ l, next' y = next y) : Chain next' a l b := by
  induction l generalizing a with
  | nil => exact h
  | cons x l ih =>
    obtain ⟨rfl, rest⟩ := h
    refine ⟨rfl, ?_⟩
    rw [same x List.mem_cons_self]
    exact ih rest fun y hy => same y (List.mem_cons_of_mem x hy)

/-- A chain does not depend on the link of what is not in it. -/
lemma Chain.update [DecidableEq T] (h : Chain next a l b) (hx : x ∉ l) (c : Option T) :
    Chain (Function.update next x c) a l b := by
  refine h.congr fun y hy => Function.update_of_ne (fun e => hx ?_) ..
  rwa [← e]

/-- The end of a chain can be set through its last node. -/
lemma Chain.relink [DecidableEq T] (h : Chain next a (l ++ [x]) b) (hx : x ∉ l) (c : Option T) :
    Chain (Function.update next x c) a (l ++ [x]) c := by
  obtain ⟨d, first, rfl, -⟩ := chain_append.mp h
  exact chain_append.mpr ⟨some x, first.update hx c, rfl, Function.update_self ..⟩

end Twcos
