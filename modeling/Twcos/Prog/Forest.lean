import Mathlib.Data.List.Nodup
import Twcos.Prog.Logs
import Twcos.Prog.Settles

/-!
# Walks over a forest

A walk over a graph that keeps no record of where it has been: at each node it lists the items of the node, and after an
item that has another node behind it what is there. `trace items next n a` is the list for the node `a`, down to the
depth `n`. If no two items have the same node behind them, and none has a root, then what is reachable is a forest, and
the list has every item that is reachable from `a`, once (`Forest.nodup_trace`, `mem_trace`).
-/

namespace Twcos.Prog

variable {α β : Type} {items : α → List β} {next : β → Option α}

/-- What is behind an item. -/
def behind (next : β → Option α) (L : α → List β) (b : β) : List β :=
  match next b with
  | some a => L a
  | none => []

/-- The items of a node, each with what is behind it. -/
def traceStep (items : α → List β) (next : β → Option α) (L : α → List β) (a : α) : List β :=
  (items a).flatMap fun b => b :: behind next L b

def trace (items : α → List β) (next : β → Option α) : Nat → α → List β := iterate (traceStep items next)

/-- The trace, one level at a time. -/
lemma trace_succ (n : Nat) (a : α) : trace items next (n + 1) a = (items a).flatMap fun b =>
    b :: behind next (trace items next n) b := rfl

/-- One of the items of a node has the other node behind it. -/
def Joins (items : α → List β) (next : β → Option α) (a c : α) : Prop := ∃ b ∈ items a, next b = some c

/-- What is behind an item. -/
lemma mem_behind {L : α → List β} {b x : β} : x ∈ behind next L b ↔ ∃ a, next b = some a ∧ x ∈ L a := by
  rw [behind]
  cases next b with
  | some a =>
    refine ⟨fun mem => ⟨a, rfl, mem⟩, ?_⟩
    rintro ⟨_, ⟨⟩, mem⟩
    exact mem
  | none =>
    refine ⟨fun mem => absurd mem List.not_mem_nil, ?_⟩
    rintro ⟨_, ⟨⟩, _⟩

/-- Within its depth, the list has what is reachable. -/
lemma mem_trace {n : Nat} {a : α} {x : β} (h : Within (Joins items next) n a) :
    x ∈ trace items next n a ↔ ∃ c, Relation.ReflTransGen (Joins items next) a c ∧ x ∈ items c := by
  induction n generalizing a with
  | zero => exact h.elim
  | succ n ih =>
    rw [trace_succ, List.mem_flatMap]
    constructor
    · rintro ⟨b, mem, here⟩
      rcases List.mem_cons.mp here with rfl | there
      · exact ⟨a, .refl, mem⟩
      · obtain ⟨c, e, there⟩ := mem_behind.mp there
        obtain ⟨d, path, mem'⟩ := (ih (h c ⟨b, mem, e⟩)).mp there
        exact ⟨d, .head ⟨b, mem, e⟩ path, mem'⟩
    · rintro ⟨c, path, mem⟩
      rcases Relation.ReflTransGen.cases_head path with rfl | ⟨d, ⟨b, here, e⟩, rest⟩
      · exact ⟨x, mem, List.mem_cons_self⟩
      · refine ⟨b, here, List.mem_cons_of_mem b (mem_behind.mpr ⟨d, e, ?_⟩)⟩
        exact (ih (h d ⟨b, here, e⟩)).mpr ⟨c, rest, mem⟩

/-- From some root. -/
def Reachable (items : α → List β) (next : β → Option α) (roots : List α) (a : α) : Prop :=
  ∃ root ∈ roots, Relation.ReflTransGen (Joins items next) root a

/-- What is joined to something that is reached is reached. -/
lemma Reachable.tail {roots : List α} {a c : α} (h : Reachable items next roots a) (joins : Joins items next a c) :
    Reachable items next roots c := by
  obtain ⟨root, mem, path⟩ := h
  exact ⟨root, mem, path.tail joins⟩

/-- What a path leads to from something that is reached is reached. -/
lemma Reachable.path {roots : List α} {a c : α} (h : Reachable items next roots a)
    (path : Relation.ReflTransGen (Joins items next) a c) : Reachable items next roots c := by
  obtain ⟨root, mem, first⟩ := h
  exact ⟨root, mem, first.trans path⟩

structure Forest (items : α → List β) (next : β → Option α) (roots : List α) : Prop where
  nodup : ∀ a, (items a).Nodup
  owner : ∀ a c b, b ∈ items a → b ∈ items c → a = c
  /-- No two items lead to one node. -/
  distinct : ∀ a c, Reachable items next roots a → Reachable items next roots c →
    ∀ b ∈ items a, ∀ d ∈ items c, next b ≠ none → next b = next d → b = d
  below : ∀ a, Reachable items next roots a → ∀ b ∈ items a, ∀ root ∈ roots, next b ≠ some root

namespace Forest
variable {roots : List α} {a b c x : α}

/-- In a forest every element has one parent. -/
lemma parent (h : Forest items next roots) (ha : Reachable items next roots a) (hb : Reachable items next roots b)
    (ac : Joins items next a c) (bc : Joins items next b c) : a = b := by
  obtain ⟨i, memi, ei⟩ := ac
  obtain ⟨j, memj, ej⟩ := bc
  have same := h.distinct a b ha hb i memi j memj (by rw [ei]; exact Option.some_ne_none c) (ei.trans ej.symm)
  subst same
  exact h.owner a b i memi memj

/-- No element is below itself. -/
lemma no_cycle (h : Forest items next roots) (ha : Reachable items next roots a) :
    ¬Relation.TransGen (Joins items next) a a := by
  obtain ⟨root, mem, path⟩ := ha
  induction path with
  | refl =>
    intro back
    obtain ⟨c, path, i, memi, ei⟩ := Relation.TransGen.tail'_iff.mp back
    exact h.below c ⟨root, mem, path⟩ i memi root mem ei
  | tail path joins ih =>
    intro back
    obtain ⟨c, rest, last⟩ := Relation.TransGen.tail'_iff.mp back
    have reach : Reachable items next roots _ := ⟨root, mem, path⟩
    obtain rfl := h.parent ((reach.tail joins).path rest) reach last joins
    exact ih (.head' joins rest)

/-- The walk does not loop. -/
lemma not_loops (h : Forest items next roots) (ha : Reachable items next roots a) : ¬Loops (Joins items next) a := by
  rintro ⟨c, path, back⟩
  exact h.no_cycle (ha.path path) back

/-- Two nodes above the same node are above each other. -/
lemma comparable (h : Forest items next roots) (ha : Reachable items next roots a) (hb : Reachable items next roots b)
    (ax : Relation.ReflTransGen (Joins items next) a x) (bx : Relation.ReflTransGen (Joins items next) b x) :
    Relation.ReflTransGen (Joins items next) a b ∨ Relation.ReflTransGen (Joins items next) b a := by
  induction ax with
  | refl => exact .inr bx
  | tail path joins ih =>
    rcases Relation.ReflTransGen.cases_tail bx with rfl | ⟨c, rest, last⟩
    · exact .inl (path.tail joins)
    · obtain rfl := h.parent (hb.path rest) (ha.path path) last joins
      exact ih rest

/-- What is behind an item of a node is not above what is behind another one. -/
lemma siblings (h : Forest items next roots) (ha : Reachable items next roots a) {i j : β} (memi : i ∈ items a)
    (memj : j ∈ items a) (ei : next i = some b) (ej : next j = some c)
    (path : Relation.ReflTransGen (Joins items next) b c) : i = j := by
  rcases Relation.ReflTransGen.cases_tail path with same | ⟨d, rest, last⟩
  · exact h.distinct a a ha ha i memi j memj (by rw [ei]; exact Option.some_ne_none b) (by rw [ei, ej, same])
  · obtain rfl := h.parent ((ha.tail ⟨i, memi, ei⟩).path rest) ha last ⟨j, memj, ej⟩
    exact absurd (.head' ⟨i, memi, ei⟩ rest) (h.no_cycle ha)

/-- Nothing is listed twice. -/
lemma nodup_trace (h : Forest items next roots) {n : Nat} (ha : Reachable items next roots a)
    (within : Within (Joins items next) n a) : (trace items next n a).Nodup := by
  induction n generalizing a with
  | zero => exact List.nodup_nil
  | succ n ih =>
    -- an item of this node is not behind another one
    have up : ∀ i ∈ items a, ∀ j ∈ items a, i ∉ behind next (trace items next n) j := by
      intro i memi j memj there
      obtain ⟨c, e, there⟩ := mem_behind.mp there
      obtain ⟨d, path, memd⟩ := (mem_trace (within c ⟨j, memj, e⟩)).mp there
      obtain rfl := h.owner a d i memi memd
      exact h.no_cycle ha (.head' ⟨j, memj, e⟩ path)
    rw [trace_succ, List.nodup_flatMap]
    refine ⟨fun i memi => List.nodup_cons.mpr ⟨up i memi i memi, ?_⟩, ?_⟩
    · rw [behind]
      split
      · next c e => exact ih (ha.tail ⟨i, memi, e⟩) (within c ⟨i, memi, e⟩)
      · exact List.nodup_nil
    · refine (h.nodup a).imp_of_mem fun {i j} memi memj ne => ?_
      rintro x here there
      rcases List.mem_cons.mp here with rfl | here
      · rcases List.mem_cons.mp there with rfl | there
        · exact ne rfl
        · exact up _ memi j memj there
      rcases List.mem_cons.mp there with rfl | there
      · exact up _ memj i memi here
      -- one of the nodes behind the two items would be above the other
      obtain ⟨c, ei, here⟩ := mem_behind.mp here
      obtain ⟨d, ej, there⟩ := mem_behind.mp there
      obtain ⟨y, cy, memy⟩ := (mem_trace (within c ⟨i, memi, ei⟩)).mp here
      obtain ⟨z, dz, memz⟩ := (mem_trace (within d ⟨j, memj, ej⟩)).mp there
      obtain rfl := h.owner y z x memy memz
      rcases h.comparable (ha.tail ⟨i, memi, ei⟩) (ha.tail ⟨j, memj, ej⟩) cy dz with cd | dc
      · exact ne (h.siblings ha memi memj ei ej cd)
      · exact ne (h.siblings ha memj memi ej ei dc).symm

end Forest

end Twcos.Prog
