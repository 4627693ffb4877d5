import Twcos.Tree.Run
import Twcos.Tree.Traverse

/-!
# Trees as functions

A tree in memory whose comparator tells all keys apart stands for a function from keys to data. The operations read and
update the function, and `tree_walk` goes through its graph.
-/

namespace Twcos.Tree
open Twcos.Prog Twcos.Bin Twcos.Assoc

variable {K V : Type}

/-- A comparator under which only equal keys are equivalent. -/
structure Strict (comp : K → K → Int) : Prop extends SignPreorder comp where
  eq : ∀ {a b : K}, comp a b = 0 → a = b

/-- Keys that are numbers. -/
lemma mapKeycmp_strict : Strict mapKeycmp where
  toSignPreorder := mapKeycmp_signPreorder
  eq := by
    intro a b h
    unfold mapKeycmp at h
    split_ifs at h <;> omega

section Strict
variable {t : TreeT K} (strict : Strict t.comp)

/-- The tree has the data of the function. -/
def Table (m : Mem K V) (f : K → Option V) : Prop :=
  ∃ u M, Stores m u ∧ Denotes strict.toSignPreorder (bindings u) M ∧
    ∀ k, f k = M.lookup (strict.toSignPreorder.classOf k)

variable {strict} {m : Mem K V} {f : K → Option V}

/-- A new table is empty. -/
lemma table_new : Table strict (treeNew : Mem K V) fun _ => none :=
  ⟨.nil, ∅, stores_treeNew, .nil _, fun _ => rfl⟩

/-- Different keys have different classes. -/
lemma Strict.classOf_ne (strict : Strict t.comp) {k key : K} (ne : k ≠ key) :
    strict.toSignPreorder.classOf k ≠ strict.toSignPreorder.classOf key := fun e =>
  ne (strict.eq (strict.toSignPreorder.classOf_eq.mp e))

/-- `tree_get` with `MAP_EQ`. -/
lemma Table.get [Zero V] (h : Table strict m f) (key : K) :
    ∃ m', Returns (treeGet t key .eq) m ((f key).getD 0) m' ∧ Table strict m' f := by
  obtain ⟨u, M, stores, denotes, data⟩ := h
  obtain ⟨m', u', run, stores', same⟩ := treeGet_returns strict.toSignPreorder key .eq stores denotes.ordered
  rw [pick_eq_lookup strict.toSignPreorder denotes, ← data] at run
  rw [← same] at denotes
  exact ⟨m', run, u', M, stores', denotes, data⟩

/-- Putting into a table. -/
lemma Table.put [Zero V] [DecidableEq K] (h : Table strict m f) (env : Env K V) (key : K) (d : V) :
    ∃ m', Returns (treePut env t key d) m ((f key).getD 0) m' ∧ Table strict m' (Function.update f key (some d)) := by
  obtain ⟨u, M, stores, denotes, data⟩ := h
  obtain ⟨m', u', run, stores', denotes'⟩ := treePut_returns strict.toSignPreorder env key d stores denotes
  rw [← data] at run
  refine ⟨m', run, u', _, stores', denotes', fun k => ?_⟩
  rcases eq_or_ne k key with rfl | ne
  · rw [Function.update_self, Finmap.lookup_insert]
  · rw [Function.update_of_ne ne, Finmap.lookup_insert_of_ne _ (strict.classOf_ne ne), data]

/-- Removing from a table. -/
lemma Table.remove [Zero V] [DecidableEq K] (h : Table strict m f) (key : K) :
    ∃ m', Returns (treeRemove t key) m ((f key).getD 0) m' ∧ Table strict m' (Function.update f key none) := by
  obtain ⟨u, M, stores, denotes, data⟩ := h
  obtain ⟨m', u', run, stores', denotes'⟩ := treeRemove_returns strict.toSignPreorder key stores denotes
  rw [← data] at run
  refine ⟨m', run, u', _, stores', denotes', fun k => ?_⟩
  rcases eq_or_ne k key with rfl | ne
  · rw [Function.update_self, Finmap.lookup_erase]
  · rw [Function.update_of_ne ne, Finmap.lookup_erase_ne (strict.classOf_ne ne), data]

/-- `tree_walk` calls the function once for each key that has data, in order. -/
lemma Table.walk (h : Table strict m f) : ∃ calls, Emits treeWalk m () calls m ∧ Ordered t.comp calls ∧
    ∀ k d, (k, d) ∈ calls ↔ f k = some d := by
  obtain ⟨u, M, stores, denotes, data⟩ := h
  refine ⟨bindings u, treeWalk_emits ⟨m, stores, ⟨fun p n hp => ⟨n, hp, n.count, rfl, trivial⟩, fun p hp => hp, rfl, rfl⟩⟩,
    denotes.ordered, fun k d => ?_⟩
  rw [data, ← denotes.agree]
  constructor
  · intro mem
    obtain ⟨before, after, split⟩ := List.mem_iff_append.mp mem
    have ordered := denotes.ordered
    rw [split] at ordered ⊢
    rw [lookup_mid strict.toSignPreorder ordered, if_pos (strict.toSignPreorder.refl k)]
  · intro found
    obtain ⟨b, first, rfl⟩ := Option.map_eq_some_iff.mp found
    have key := List.find?_some first
    rw [strict.eq (of_decide_eq_true key)]
    exact List.mem_of_find?_eq_some first

end Strict

end Twcos.Tree
