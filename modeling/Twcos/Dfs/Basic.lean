import Mathlib.Data.Finset.Card
import Twcos.Prog.Basic

/-!
# Depth-first marking

A marker follows pointers. A pointer into a node that is free takes the node, and the marker goes on with
the pointers it finds from there; any other pointer is skipped. Nodes can be shared and can form cycles:
`Marks.exists` says that marking always ends, as every call that goes on takes a node. The other lemmas say
what has been taken in the end: everything the pointers lead to, and nothing else.

The pointers found from a node are read one by one, each when its turn comes, from a state that marking
changes; a pointer to go on with is therefore a function of the state.
-/

namespace Twcos.Dfs
open Twcos.Prog

/-- A marker over states `σ`, pointers `A` and nodes `N`, with an invariant of its states. -/
structure Marker (σ A N : Type) [DecidableEq N] where
  enter : σ → A → Option σ
  scan : A → List (σ → A)
  node : A → Option N
  free : σ → Finset N
  Inv : σ → Prop
  enter_some : ∀ {s a s'}, Inv s → enter s a = some s' →
    Inv s' ∧ ∃ n ∈ free s, node a = some n ∧ free s' = (free s).erase n
  enter_none : ∀ {s a n}, Inv s → enter s a = none → node a = some n → n ∉ free s

variable {σ A N : Type} [DecidableEq N] (m : Marker σ A N)

/-- Marking from the pointers `fs` goes from `s` to `s'`; `es` are the calls that took a node, each with the
    state before it. -/
inductive Marks : σ → List (σ → A) → List (σ × A) → σ → Prop where
  | nil {s} : Marks s [] [] s
  | skip {s f fs es s'} :
    m.enter s (f s) = none →
    Marks s fs es s' →
    Marks s (f :: fs) es s'
  | enter {s f fs s1 es1 s2 es2 s'} :
    m.enter s (f s) = some s1 →
    Marks s1 (m.scan (f s)) es1 s2 →
    Marks s2 fs es2 s' →
    Marks s (f :: fs) ((s, f s) :: (es1 ++ es2)) s'

/-- The pointers that marking can come by: those it starts from, and those found from a node. -/
inductive Found (fs : List (σ → A)) : A → Prop where
  | start {f s} : f ∈ fs → m.Inv s → Found fs (f s)
  | scan {a n f s} : Found fs a → m.node a = some n → f ∈ m.scan a → m.Inv s → Found fs (f s)

variable {m} {s s' : σ} {fs : List (σ → A)} {es : List (σ × A)}

/-- Marking keeps the invariant of the marker. -/
lemma Marks.inv (h : Marks m s fs es s') (hs : m.Inv s) : m.Inv s' := by
  induction h with
  | nil => exact hs
  | skip _ _ ih => exact ih hs
  | enter he _ _ ih1 ih2 =>
    apply ih2
    apply ih1
    exact (m.enter_some hs he).1

/-- Marking only takes nodes. -/
lemma Marks.free_subset (h : Marks m s fs es s') (hs : m.Inv s) : m.free s' ⊆ m.free s := by
  induction h with
  | nil => exact Finset.Subset.refl _
  | skip _ _ ih => exact ih hs
  | enter he h1 _ ih1 ih2 =>
    obtain ⟨hs1, n, -, -, free⟩ := m.enter_some hs he
    have sub := (ih2 (h1.inv hs1)).trans (ih1 hs1)
    rw [free] at sub
    exact sub.trans (Finset.erase_subset _ _)

/-- Marking ends. -/
lemma Marks.exists (hs : m.Inv s) (fs : List (σ → A)) : ∃ es s', Marks m s fs es s' := by
  -- by the number of free nodes: a call that goes on leaves one less
  induction hk : (m.free s).card using Nat.strong_induction_on generalizing s fs with
  | _ k ih =>
    subst hk
    induction fs with
    | nil => exact ⟨[], s, .nil⟩
    | cons f fs ihf =>
      cases he : m.enter s (f s) with
      | none =>
        obtain ⟨es, s', h⟩ := ihf
        exact ⟨es, s', .skip he h⟩
      | some s1 =>
        obtain ⟨hs1, n, mem, -, free⟩ := m.enter_some hs he
        have lt : (m.free s1).card < (m.free s).card := by
          rw [free]
          exact Finset.card_erase_lt_of_mem mem
        obtain ⟨es1, s2, h1⟩ := ih _ lt hs1 (m.scan (f s)) rfl
        have le := Finset.card_le_card (h1.free_subset hs1)
        obtain ⟨es2, s', h2⟩ := ih _ (Nat.lt_of_le_of_lt le lt) (h1.inv hs1) fs rfl
        exact ⟨_, s', .enter he h1 h2⟩

/-- Where a fixed pointer to start from leads has been taken. -/
lemma Marks.start (h : Marks m s fs es s') (hs : m.Inv s) {f : σ → A} (hf : f ∈ fs) {a : A} {n : N}
    (fixed : ∀ t, m.Inv t → f t = a) (hn : m.node a = some n) : n ∉ m.free s' := by
  induction h with
  | nil => cases hf
  | @skip s g fs es s' he h ih =>
    rcases List.mem_cons.mp hf with rfl | hf
    · rw [fixed s hs] at he
      intro mem
      exact m.enter_none hs he hn (h.free_subset hs mem)
    · exact ih hs hf
  | @enter s g fs s1 es1 s2 es2 s' he h1 h2 _ ih2 =>
    obtain ⟨hs1, k, -, hk, free⟩ := m.enter_some hs he
    rcases List.mem_cons.mp hf with rfl | hf
    · rw [fixed s hs, hn] at hk
      cases hk
      intro mem
      have mem1 := h1.free_subset hs1 (h2.free_subset (h1.inv hs1) mem)
      rw [free] at mem1
      exact Finset.notMem_erase n _ mem1
    · exact ih2 (h1.inv hs1) hf

/-- A call that took a node: the node was free before it and is not in the end, and what its pointers lead
    to has been taken. -/
lemma Marks.call (h : Marks m s fs es s') (hs : m.Inv s) {t : σ} {a : A} (hc : (t, a) ∈ es) :
    m.Inv t ∧ m.free s' ⊆ m.free t ∧ (∃ n ∈ m.free t, m.node a = some n ∧ n ∉ m.free s') ∧
      ∀ f ∈ m.scan a, ∀ b n, (∀ t, m.Inv t → f t = b) → m.node b = some n → n ∉ m.free s' := by
  induction h with
  | nil => cases hc
  | skip _ _ ih => exact ih hs hc
  | @enter s g fs s1 es1 s2 es2 s' he h1 h2 ih1 ih2 =>
    obtain ⟨hs1, k, mem, hk, free⟩ := m.enter_some hs he
    have hs2 := h1.inv hs1
    have sub2 := h2.free_subset hs2
    have sub1 := h1.free_subset hs1
    rcases List.mem_cons.mp hc with e | hc
    · cases e
      have gone : k ∉ m.free s' := by
        intro mem'
        have mem1 := sub1 (sub2 mem')
        rw [free] at mem1
        exact Finset.notMem_erase k _ mem1
      have sub : m.free s' ⊆ m.free t := by
        have sub := sub2.trans sub1
        rw [free] at sub
        exact sub.trans (Finset.erase_subset _ _)
      refine ⟨hs, sub, ⟨k, mem, hk, gone⟩, ?_⟩
      intro f hf b n fixed hn mem'
      exact h1.start hs1 hf fixed hn (sub2 mem')
    · rcases List.mem_append.mp hc with hc | hc
      · obtain ⟨ht, sub, ⟨n, hn, hna, gone⟩, scan⟩ := ih1 hs1 hc
        refine ⟨ht, sub2.trans sub, ⟨n, hn, hna, fun mem' => gone (sub2 mem')⟩, ?_⟩
        intro f hf b n fixed hn mem'
        exact scan f hf b n fixed hn (sub2 mem')
      · exact ih2 hs2 hc

/-- Every node that has been taken was taken by a call. -/
lemma Marks.taken (h : Marks m s fs es s') (hs : m.Inv s) {n : N} (hn : n ∈ m.free s)
    (gone : n ∉ m.free s') : ∃ c ∈ es, m.node c.2 = some n := by
  induction h with
  | nil => exact absurd hn gone
  | skip _ _ ih => exact ih hs hn gone
  | @enter s g fs s1 es1 s2 es2 s' he h1 h2 ih1 ih2 =>
    obtain ⟨hs1, k, -, hk, free⟩ := m.enter_some hs he
    by_cases e : n = k
    · subst e
      exact ⟨_, List.mem_cons_self, hk⟩
    · have hn1 : n ∈ m.free s1 := by
        rw [free]
        exact Finset.mem_erase_of_ne_of_mem e hn
      by_cases hn2 : n ∈ m.free s2
      · obtain ⟨c, hc, hcn⟩ := ih2 (h1.inv hs1) hn2 gone
        exact ⟨c, List.mem_cons_of_mem _ (List.mem_append_right _ hc), hcn⟩
      · obtain ⟨c, hc, hcn⟩ := ih1 hs1 hn1 hn2
        exact ⟨c, List.mem_cons_of_mem _ (List.mem_append_left _ hc), hcn⟩

/-- What is found from what was found. -/
lemma Found.through {a : A} {n : N} (ha : Found m fs a) (hn : m.node a = some n) {b : A}
    (hb : Found m (m.scan a) b) : Found m fs b := by
  induction hb with
  | start hf ht => exact .scan ha hn hf ht
  | scan _ hc hf ht ih => exact .scan ih hc hf ht

/-- One more root finds no less. -/
lemma Found.cons {f : σ → A} {a : A} (ha : Found m fs a) : Found m (f :: fs) a := by
  induction ha with
  | start hf ht => exact .start (List.mem_cons_of_mem _ hf) ht
  | scan _ hn hf ht ih => exact .scan ih hn hf ht

/-- The calls are made with pointers that marking can come by. -/
lemma Marks.found (h : Marks m s fs es s') (hs : m.Inv s) {c : σ × A} (hc : c ∈ es) :
    Found m fs c.2 := by
  induction h with
  | nil => cases hc
  | skip _ _ ih => exact (ih hs hc).cons
  | enter he h1 _ ih1 ih2 =>
    obtain ⟨hs1, k, -, hk, -⟩ := m.enter_some hs he
    rcases List.mem_cons.mp hc with rfl | hc
    · exact .start List.mem_cons_self hs
    · rcases List.mem_append.mp hc with hc | hc
      · exact Found.through (.start List.mem_cons_self hs) hk (ih1 hs1 hc)
      · exact (ih2 (h1.inv hs1) hc).cons

/-- A program that skips and goes on as the marker does computes what marking gives. -/
lemma Marks.returns {ε : Type} {p : A → Prog ε σ Unit}
    (skip : ∀ {s a}, m.Inv s → m.enter s a = none → Returns (p a) s () s)
    (enter : ∀ {s a s1 s2}, m.Inv s → m.enter s a = some s1 →
      Returns (each (fun f => asks f >>= p) (m.scan a)) s1 () s2 → Returns (p a) s () s2)
    (h : Marks m s fs es s') (hs : m.Inv s) : Returns (each (fun f => asks f >>= p) fs) s () s' := by
  induction h with
  | nil => exact .pure () _
  | skip he _ ih => exact .bind (.bind (.asks _ _) (skip hs he)) (ih hs)
  | enter he h1 _ ih1 ih2 =>
    have hs1 := (m.enter_some hs he).1
    exact .bind (.bind (.asks _ _) (enter hs he (ih1 hs1))) (ih2 (h1.inv hs1))

end Twcos.Dfs
