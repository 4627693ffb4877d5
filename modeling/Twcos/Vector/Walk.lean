import Mathlib.Data.List.Range
import Mathlib.Tactic.Ring
import Twcos.Prog.Emits
import Twcos.Prog.Turns
import Twcos.Vector.Run

/-!
# Walking a vector

`vector_walk_table` and `vector_walk` of `libk/vector.c`. The walk makes an index from the top: the number of a table on
its level, times 64, and the place in it. `vector_entry_get` takes an index apart from the top as well, by shifts and
masks; `mem_calls` says that the two agree on every level. The index is an `int`, modulo `2 ^ 32`.
-/

namespace Twcos.Vector
open Twcos.Prog

/-- Code that calls a `walk_func` with an index and an entry. -/
abbrev WalkCode (α : Type) := Prog Fault (Mem × List (Nat × Word)) α

/-- An entry of a table in the loop of `vector_walk_table`. -/
def walkEntry (walk : Ptr × Nat → WalkCode Unit) (t : Ptr) (base i : Nat) : WalkCode Unit := do
  let d ← lift (load t i)
  when (d ≠ 0) do
    let table ← lift (deref t)
    if table.level ≠ 0 then
      walk (d, (base + i) * 64 % 2 ^ 32)
    else
      emit ((base + i) % 2 ^ 32, d)

def walkTableBody (walk : Ptr × Nat → WalkCode Unit) : Ptr × Nat → WalkCode Unit
  | (t, base) => each (walkEntry walk t base) (List.range 64)

def vectorWalkTable : Ptr × Nat → WalkCode Unit := recur walkTableBody

def vectorWalk : WalkCode Unit := do
  let v ← lift (asks Mem.table)
  when (v ≠ 0) (vectorWalkTable (v, 0))

/-! ### The calls -/

/-- The calls for a table of level `n` that is the one with the number `base`, in units of 64, on its level. -/
def calls (tables : Ptr → Option Table) : Nat → Ptr → Nat → List (Nat × Word)
  | 0, p, base => (List.range 64).flatMap fun i =>
    if entries tables 0 p i ≠ 0 then [(base + i, entries tables 0 p i)] else []
  | n + 1, p, base => (List.range 64).flatMap fun i =>
    if entries tables (n + 1) p i ≠ 0 then calls tables n (entries tables (n + 1) p i) ((base + i) * 64) else []

variable {m : Mem} {tables : Ptr → Option Table} {n : Nat} {p : Ptr} {base : Nat}

/-- The index of an entry and the index below it make one index. -/
lemma value_join {i j : Nat} (lt : j < 64 ^ (n + 1)) (nz : entries tables (n + 1) p i ≠ 0) :
    value tables (n + 1) p (i * 64 ^ (n + 1) + j) = value tables n (entries tables (n + 1) p i) j := by
  have div : (i * 64 ^ (n + 1) + j) / 64 ^ (n + 1) = i := by
    rw [Nat.add_comm, Nat.add_mul_div_right _ _ (span_pos _), Nat.div_eq_of_lt lt, Nat.zero_add]
  have mod : (i * 64 ^ (n + 1) + j) % 64 ^ (n + 1) = j := by
    rw [Nat.add_comm, Nat.add_mul_mod_self_right, Nat.mod_eq_of_lt lt]
  simp only [value, div, mod, if_neg nz]

/-- Indexes below the span of a table. -/
lemma join_lt {i j : Nat} (hi : i < 64) (hj : j < 64 ^ (n + 1)) : i * 64 ^ (n + 1) + j < 64 ^ (n + 1 + 1) := by
  have le : (i + 1) * 64 ^ (n + 1) ≤ 64 * 64 ^ (n + 1) := Nat.mul_le_mul_right _ hi
  rw [Nat.succ_mul] at le
  rw [pow_succ' 64 (n + 1)]
  omega

/-- A call is for an index that is made from the number of the table and an index in it. -/
lemma mem_calls {k : Nat} {w : Word} :
    (k, w) ∈ calls tables n p base ↔ ∃ i < 64 ^ (n + 1), k = base * 64 ^ n + i ∧ value tables n p i = w ∧ w ≠ 0 := by
  induction n generalizing p base with
  | zero =>
    simp only [calls, List.mem_flatMap, List.mem_range, List.mem_ite_nil_right, List.mem_singleton, Prod.mk.injEq]
    constructor
    · rintro ⟨i, lt, nz, rfl, rfl⟩
      exact ⟨i, lt, by rw [pow_zero, Nat.mul_one], rfl, nz⟩
    · rintro ⟨i, lt, rfl, rfl, nz⟩
      exact ⟨i, lt, nz, by rw [pow_zero, Nat.mul_one], rfl⟩
  | succ n ih =>
    simp only [calls, List.mem_flatMap, List.mem_range, List.mem_ite_nil_right, ih]
    constructor
    · rintro ⟨i, hi, nz, j, hj, rfl, rfl, hw⟩
      refine ⟨i * 64 ^ (n + 1) + j, join_lt hi hj, ?_, value_join hj nz, hw⟩
      rw [pow_succ' 64 n]
      ring
    · rintro ⟨x, hx, rfl, rfl, hw⟩
      have split := Nat.div_add_mod x (64 ^ (n + 1))
      have nz : entries tables (n + 1) p (x / 64 ^ (n + 1)) ≠ 0 := by
        intro zero
        rw [value, if_pos zero] at hw
        exact hw rfl
      refine ⟨x / 64 ^ (n + 1), index_lt hx, nz, x % 64 ^ (n + 1), rest_lt x (n + 1), ?_, ?_, hw⟩
      · calc base * 64 ^ (n + 1) + x = base * 64 ^ (n + 1) + (64 ^ (n + 1) * (x / 64 ^ (n + 1)) + x % 64 ^ (n + 1)) := by
              rw [split]
          _ = (base + x / 64 ^ (n + 1)) * 64 * 64 ^ n + x % 64 ^ (n + 1) := by
              rw [pow_succ' 64 n]
              ring
      · rw [value, if_neg nz]

/-- The calls for one table are for the indices of the table. -/
lemma calls_bounds {c : Nat × Word} (h : c ∈ calls tables n p base) :
    base * 64 ^ n ≤ c.1 ∧ c.1 < base * 64 ^ n + 64 ^ (n + 1) := by
  obtain ⟨i, lt, e, -⟩ := mem_calls.mp (show (c.1, c.2) ∈ _ from h)
  omega

/-- The calls come in ascending order. -/
lemma calls_ascending : (calls tables n p base).Pairwise fun c c' => c.1 < c'.1 := by
  induction n generalizing p base with
  | zero =>
    rw [calls, List.pairwise_flatMap]
    refine ⟨fun i _ => ?_, List.pairwise_lt_range.imp fun lt c hc c' hc' => ?_⟩
    · split
      · exact List.pairwise_singleton ..
      · exact .nil
    · rw [List.mem_ite_nil_right, List.mem_singleton] at hc hc'
      rw [hc.2, hc'.2]
      exact Nat.add_lt_add_left lt base
  | succ n ih =>
    rw [calls, List.pairwise_flatMap]
    refine ⟨fun i _ => ?_, List.pairwise_lt_range.imp fun {i j} lt c hc c' hc' => ?_⟩
    · split
      · exact ih
      · exact .nil
    · rw [List.mem_ite_nil_right] at hc hc'
      -- the indices of one entry are before those of the next
      have below := (calls_bounds hc.2).2
      have above := (calls_bounds hc'.2).1
      have le : (base + i + 1) * 64 ^ (n + 1) ≤ (base + j) * 64 ^ (n + 1) := Nat.mul_le_mul_right _ (by omega)
      rw [mul_assoc, ← pow_succ'] at below above
      rw [Nat.succ_mul] at le
      omega

/-! ### The walk -/

/-- What the walk over a table does depends on the walks below. -/
lemma walkTableBody_local (a : Ptr × Nat) : Local fun walk => walkTableBody walk a := by
  refine .each (fun i => .bind (.const _) fun d => .when (.bind (.const _) fun table => ?_)) _
  exact .ite (.self _) (.const _)

/-- An entry that is not null is walked, or called for on level 0. -/
lemma walkEntry_emits {walk : Ptr × Nat → WalkCode Unit} {i : Nat} {cs : List (Nat × Word)} (hp : IsTable m.tables n p)
    (lt : i < 64)
    (go : entries m.tables n p i ≠ 0 → Emits (if n ≠ 0 then walk (entries m.tables n p i, (base + i) * 64 % 2 ^ 32) else
      emit ((base + i) % 2 ^ 32, entries m.tables n p i)) m () cs m) :
    Emits (walkEntry walk p base i) m () (if entries m.tables n p i ≠ 0 then cs else []) m := by
  refine .andThen (.lift (load_returns hp lt)) ?_
  rw [Prog.when]
  by_cases nz : entries m.tables n p i ≠ 0
  · obtain ⟨d, hd⟩ := hp
    rw [if_pos (decide_eq_true nz), if_pos nz]
    exact .andThen (.lift (.demand hd)) (go nz)
  · rw [if_neg fun e => nz (of_decide_eq_true e), if_neg nz]
    exact .pure () m

/-- The walk over a table makes its calls. -/
lemma walkTable_emits (hp : Levelled m.tables n p) (bound : (base + 64) * 64 ^ n ≤ 2 ^ 30) :
    Emits (vectorWalkTable (p, base)) m () (calls m.tables n p base) m := by
  induction n generalizing p base with
  | zero =>
    refine .call (walkTableBody_local _) (.each fun i mem => ?_)
    have lt : i < 64 := List.mem_range.mp mem
    refine walkEntry_emits hp lt fun _ => ?_
    have small : (base + i) % 2 ^ 32 = base + i := Nat.mod_eq_of_lt (by omega)
    rw [if_neg (not_not.mpr rfl), small]
    exact .emit _ m
  | succ n ih =>
    refine .call (walkTableBody_local _) (.each fun i mem => ?_)
    have lt : i < 64 := List.mem_range.mp mem
    refine walkEntry_emits hp.isTable lt fun nz => ?_
    -- the indices of the next table are among those of this one
    have inner : ((base + i) * 64 + 64) * 64 ^ n ≤ 2 ^ 30 := by
      refine le_trans ?_ bound
      rw [← Nat.succ_mul, mul_assoc, ← pow_succ']
      exact Nat.mul_le_mul_right _ (by omega)
    have small : (base + i) * 64 % 2 ^ 32 = (base + i) * 64 := by
      have := Nat.le_mul_of_pos_right ((base + i) * 64 + 64) (span_pos n)
      exact Nat.mod_eq_of_lt (by omega)
    rw [if_pos (Nat.succ_ne_zero n), small]
    exact ih (hp.2 i lt nz) inner

/-- The entry that `vector_entry_get` finds for an index. -/
def Entry (env : Env) (m : Mem) (p : Ptr) (k : Nat) (w : Word) : Prop :=
  ∃ q j, Returns (vectorEntryGet env p k false) m (some (q, j)) m ∧ Returns (load q j) m w m

/-- The entries of a table are its values. -/
lemma entry_iff (env : Env) (hp : Levelled m.tables n p) (level : n ≤ 4) {k : Nat} {w : Word} (nz : w ≠ 0) :
    Entry env m p k w ↔ k < 64 ^ (n + 1) ∧ value m.tables n p k = w := by
  constructor
  · rintro ⟨q, j, run, read⟩
    by_cases lt : k < 64 ^ (n + 1)
    · rcases entryGet_returns env hp level lt with ⟨run', -⟩ | ⟨q', j', run', reaches⟩
      · cases (run.unique run').1
      · cases (run.unique run').1
        rw [← reaches.value]
        exact ⟨lt, ((load_returns reaches.leaf.1 reaches.leaf.2).unique read).1⟩
    · cases n with
      | zero =>
        -- the entry would be outside of the table
        obtain ⟨d, hd⟩ := hp
        have run' : Returns (vectorEntryGet env p k false) m (some (p, k)) m := .exit (.bind (.demand hd) (.pure _ _))
        cases (run.unique run').1
        have out : Raises (load p k) m (.bounds k) := by
          refine .rest (.demand hd) ?_
          rw [if_neg (show ¬k < 64 from lt)]
          exact ⟨0, fun _ _ => rfl⟩
        exact absurd read out.not_returns
      | succ n => cases (run.unique (entryGet_beyond env hp.isTable (by omega) (by omega))).1
  · rintro ⟨lt, rfl⟩
    rcases entryGet_returns env hp level lt with ⟨-, zero⟩ | ⟨q, j, run, reaches⟩
    · exact absurd zero nz
    · have read := load_returns reaches.leaf.1 reaches.leaf.2
      rw [reaches.value] at read
      exact ⟨q, j, run, read⟩

/-- A vector whose table has a level of at most 4. -/
structure Tables (m : Mem) (n : Nat) : Prop where
  null : m.tables 0 = none
  level : n ≤ 4
  levelled : Levelled m.tables n m.table

/-- The root is not null. -/
lemma Tables.ne_zero (h : Tables m n) : m.table ≠ 0 := by
  intro e
  obtain ⟨d, hd⟩ := h.levelled.isTable
  rw [e, h.null] at hd
  cases hd

/-- The walk over a vector makes its calls. -/
lemma vectorWalk_emits (h : Tables m n) : Emits vectorWalk m () (calls m.tables n m.table 0) m := by
  have le : 64 ^ (n + 1) ≤ 64 ^ 5 := Nat.pow_le_pow_right (by decide) (Nat.succ_le_succ h.level)
  have bound : (0 + 64) * 64 ^ n ≤ 2 ^ 30 := by
    rw [Nat.zero_add, ← pow_succ']
    omega
  refine .andThen (.lift (.asks _ _)) ?_
  rw [Prog.when, if_pos (decide_eq_true h.ne_zero)]
  exact walkTable_emits h.levelled bound

/-- `vector_walk` calls the callback once for each entry that is not null, in the order of the indices. -/
theorem vectorWalk_calls (env : Env) (m : Mem) (n : Nat) (h : Tables m n) :
    ∃ cs, Emits vectorWalk m () cs m ∧ cs.Pairwise (fun c c' => c.1 < c'.1) ∧
      ∀ k w, (k, w) ∈ cs ↔ Entry env m m.table k w ∧ w ≠ 0 := by
  refine ⟨_, vectorWalk_emits h, calls_ascending, fun k w => ?_⟩
  rw [mem_calls]
  constructor
  · rintro ⟨i, lt, e, hw, nz⟩
    rw [Nat.zero_mul, Nat.zero_add] at e
    subst e
    exact ⟨(entry_iff env h.levelled h.level nz).mpr ⟨lt, hw⟩, nz⟩
  · rintro ⟨entry, nz⟩
    obtain ⟨lt, hw⟩ := (entry_iff env h.levelled h.level nz).mp entry
    exact ⟨k, lt, by rw [Nat.zero_mul, Nat.zero_add], hw, nz⟩

/-- A table of level 1 with one table below it, which has one entry. -/
def twoTables : Mem where
  tables p := if p = 1 then some ⟨1, fun i => if i = 2 then 5 else 0⟩ else
    if p = 5 then some ⟨0, fun i => if i = 3 then 7 else 0⟩ else none
  table := 1

/-- A vector of two tables. -/
lemma tables_twoTables : Tables twoTables 1 where
  null := rfl
  level := by decide
  levelled := by
    refine ⟨⟨_, rfl⟩, fun j _ nz => ?_⟩
    have entry : entries twoTables.tables 1 twoTables.table j = if j = 2 then 5 else 0 := rfl
    rw [Nat.zero_add, entry] at nz ⊢
    split at nz
    · next h =>
      rw [if_pos h]
      exact ⟨_, rfl⟩
    · exact absurd rfl nz

/-- A walk over them. -/
theorem vectorWalk_twoTables : Tables twoTables 1 ∧
    ∃ cs, Emits vectorWalk twoTables () cs twoTables ∧ cs.Pairwise (fun c c' => c.1 < c'.1) ∧
      ∀ k w, (k, w) ∈ cs ↔ Entry oneFirst twoTables twoTables.table k w ∧ w ≠ 0 :=
  ⟨tables_twoTables, vectorWalk_calls oneFirst twoTables 1 tables_twoTables⟩

end Twcos.Vector
