import Twcos.Vector.Walk

/-!
# Growth of a vector

`vector_checksize` of `libk/vector.c` puts new tables above the old ones and leaves those as they are. An index of the old
vector has zeros for its first digits in the new one, which lead to the old table at the first entry of each new one
(`raise_finds`); the other entries of the new tables are null.
-/

namespace Twcos.Vector
open Twcos.Prog

/-- What `vector_entry_get` finds for an index: the place of an entry and the data there, or no entry. -/
inductive Finds (env : Env) (m : Mem) (k : Nat) : Option (Ptr × Nat × Word) → Prop where
  | entry {q j : Nat} {w : Word} : Returns (vectorEntryGet env m.table k false) m (some (q, j)) m →
      Returns (load q j) m w m → Finds env m k (some (q, j, w))
  | none : Returns (vectorEntryGet env m.table k false) m none m → Finds env m k none

/-- The tables that there were are as before. -/
def Kept (tables tables' : Ptr → Option Table) : Prop := ∀ p t, tables p = some t → tables' p = some t

variable {tables tables' : Ptr → Option Table} {m m' : Mem} {n : Nat} {p q : Ptr} {i k : Nat}

/-- Tables that are kept twice. -/
lemma Kept.trans {tables'' : Ptr → Option Table} (h : Kept tables tables') (h' : Kept tables' tables'') :
    Kept tables tables'' :=
  fun p t ht => h' p t (h p t ht)

/-- A table is kept. -/
lemma Kept.isTable (h : Kept tables tables') (hp : IsTable tables n p) : IsTable tables' n p := by
  obtain ⟨d, hd⟩ := hp
  exact ⟨d, h p _ hd⟩

/-- The entries of a table are kept. -/
lemma Kept.entries (h : Kept tables tables') (hp : IsTable tables n p) : entries tables' n p = entries tables n p := by
  obtain ⟨d, hd⟩ := hp
  rw [entries_of hd, entries_of (h p _ hd)]

/-- A table is kept with all below it. -/
lemma Kept.levelled (h : Kept tables tables') (hp : Levelled tables n p) : Levelled tables' n p := by
  induction n generalizing p with
  | zero => exact h.isTable hp
  | succ n ih =>
    obtain ⟨table, below⟩ := hp
    refine ⟨h.isTable table, fun j lt nz => ?_⟩
    rw [h.entries table] at nz ⊢
    exact ih (below j lt nz)

/-- A new table changes no other one. -/
lemma attached_kept {c : Ptr} (free : tables q = none) : Kept tables (attached tables q n q 0 c) := by
  intro p t ht
  have ne : p ≠ q := by
    rintro rfl
    cases free.symm.trans ht
  rw [attached, put_of_ne ne, Function.update_of_ne ne, ht]

/-! ### Looking up an index -/

/-- The way to the entry of an index leads through the tables that are kept. -/
lemma entryGet_kept (env : Env) (kept : Kept m.tables m'.tables) (hp : Levelled m.tables n p) (level : n ≤ 4)
    (lt : i < 64 ^ (n + 1)) : ∃ r, Returns (vectorEntryGet env p i false) m r m ∧
      Returns (vectorEntryGet env p i false) m' r m' ∧ ∀ q j, r = some (q, j) → IsTable m.tables 0 q ∧ j < 64 := by
  induction n generalizing p i with
  | zero =>
    obtain ⟨d, hd⟩ := id hp
    refine ⟨some (p, i), .exit (.bind (.demand hd) (.pure _ _)), .exit (.bind (.demand (kept p _ hd)) (.pure _ _)),
      fun q j e => ?_⟩
    cases e
    exact ⟨hp, lt⟩
  | succ n ih =>
    obtain ⟨table, below⟩ := hp
    have table' := kept.isTable table
    have same := kept.entries table
    by_cases zero : entries m.tables (n + 1) p (i / 64 ^ (n + 1)) = 0
    · have zero' : entries m'.tables (n + 1) p (i / 64 ^ (n + 1)) = 0 := by rw [same, zero]
      exact ⟨none, entryGet_null env table (by omega) lt zero, entryGet_null env table' (by omega) lt zero',
        fun q j e => by cases e⟩
    · have zero' : ¬entries m'.tables (n + 1) p (i / 64 ^ (n + 1)) = 0 := by rwa [same]
      have step := step_returns env false table (by omega) lt (by simp [zero]) (.when_neg zero)
        (load_returns table (index_lt lt))
      have step' := step_returns env false table' (by omega) lt (by simp [zero']) (.when_neg zero')
        (load_returns table' (index_lt lt))
      rw [same] at step'
      obtain ⟨r, run, run', place⟩ := ih (below _ (index_lt lt) zero) (by omega) (rest_lt i (n + 1))
      exact ⟨r, .turn step run, .turn step' run', place⟩

/-- There is only one result. -/
lemma Finds.unique {env : Env} {r r' : Option (Ptr × Nat × Word)} (h : Finds env m k r) (h' : Finds env m k r') : r = r' := by
  cases h with
  | entry get read =>
    cases h' with
    | entry get' read' =>
      cases (get.unique get').1
      rw [(read.unique read').1]
    | none get' => cases (get.unique get').1
  | none get =>
    cases h' with
    | entry get' read' => cases (get.unique get').1
    | none get' => rfl

/-- An index inside the vector is found. -/
lemma finds_some (env : Env) (h : Tables m n) (lt : k < 64 ^ (n + 1)) : ∃ r, Finds env m k r := by
  have kept : Kept m.tables m.tables := fun _ _ => id
  obtain ⟨r, run, -, place⟩ := entryGet_kept env kept h.levelled h.level lt
  cases r with
  | none => exact ⟨none, .none run⟩
  | some entry =>
    obtain ⟨table, lt⟩ := place entry.1 entry.2 rfl
    exact ⟨_, .entry run (load_returns table lt)⟩

/-! ### A new level -/

/-- The memory with a new table at `q` above the others. -/
def raised (m : Mem) (n : Nat) (q : Ptr) : Mem := ⟨attached m.tables q (n + 1) q 0 m.table, q⟩

section Raised
variable (h : Tables m n) (level : n < 4) (nz : q ≠ 0) (free : m.tables q = none)
include free

/-- The entries of the new root. -/
lemma raised_entries (j : Nat) : entries (raised m n q).tables (n + 1) q j = if j = 0 then m.table else 0 := by
  show entries (attached m.tables q (n + 1) q 0 m.table) (n + 1) q j = _
  rw [raise_entries free, entries_none free]
  simp only [true_and]

omit free in
/-- The new root is a table. -/
lemma raised_isTable : IsTable (raised m n q).tables (n + 1) q := (isTable_new m.tables q (n + 1)).put

include h level

include nz in
/-- The vector is in order with one level more. -/
lemma Tables.raise : Tables (raised m n q) (n + 1) where
  null := by
    show attached m.tables q (n + 1) q 0 m.table 0 = none
    rw [attached, put_of_ne nz.symm, Function.update_of_ne nz.symm]
    exact h.null
  level := level
  levelled := by
    refine ⟨raised_isTable, fun j _ nonzero => ?_⟩
    rw [show (raised m n q).table = q from rfl, raised_entries free] at nonzero ⊢
    split at nonzero
    · next first =>
      rw [if_pos first]
      exact (attached_kept free).levelled h.levelled
    · exact absurd rfl nonzero

/-- An index of the old tables resolves as before. -/
lemma raise_finds {env : Env} {r : Option (Ptr × Nat × Word)} (lt : k < 64 ^ (n + 1)) (found : Finds env m k r) :
    Finds env (raised m n q) k r := by
  have kept : Kept m.tables (raised m n q).tables := attached_kept free
  have wide : k < 64 ^ (n + 1 + 1) := lt_of_lt_of_le lt (Nat.pow_le_pow_right (by decide) (Nat.le_succ _))
  have first : entries (raised m n q).tables (n + 1) q (k / 64 ^ (n + 1)) = m.table := by
    rw [raised_entries free, if_pos (Nat.div_eq_of_lt lt)]
  have nonzero : ¬entries (raised m n q).tables (n + 1) q (k / 64 ^ (n + 1)) = 0 := by
    rw [first]
    exact h.ne_zero
  -- the first digit is zero, and the others are those of the old index
  have turn := step_returns env false raised_isTable level wide (by simp [nonzero]) (.when_neg nonzero)
    (load_returns (raised_isTable (m := m)) (index_lt wide))
  rw [first, Nat.mod_eq_of_lt lt] at turn
  obtain ⟨place, run, run', inside⟩ := entryGet_kept env kept h.levelled h.level lt
  have run' : Returns (vectorEntryGet env (raised m n q).table k false) (raised m n q) place (raised m n q) :=
    .turn turn run'
  cases found with
  | entry get read =>
    cases (get.unique run).1
    obtain ⟨table, lt⟩ := inside _ _ rfl
    have read' := load_returns (kept.isTable table) lt
    rw [kept.entries table, ← (read.unique (load_returns table lt)).1] at read'
    exact .entry run' read'
  | none get =>
    cases (get.unique run).1
    exact .none run'

omit h in
/-- The new indices resolve to nothing. -/
lemma raise_finds_none {env : Env} (le : 64 ^ (n + 1) ≤ k) (lt : k < 64 ^ (n + 1 + 1)) :
    Finds env (raised m n q) k none := by
  have digit : k / 64 ^ (n + 1) ≠ 0 := by
    rw [Ne, Nat.div_eq_zero_iff, not_or]
    exact ⟨pow_ne_zero _ (by decide), Nat.not_lt.mpr le⟩
  have zero : entries (raised m n q).tables (n + 1) q (k / 64 ^ (n + 1)) = 0 := by
    rw [raised_entries free, if_neg digit]
  exact .none (entryGet_null env raised_isTable level lt zero)

end Raised

/-! ### The loop -/

/-- `vector_checksize` ends, and the index is not above the size then. It keeps all tables; every index of the old vector
    resolves to the same entry as before, or to no entry as before, and the others to no entry. -/
theorem vectorChecksize_grows (env : Env) (m : Mem) (n : Nat) (h : Tables m n)
    (finite : ∃ used : List Ptr, ∀ p, p ∉ used → m.tables p = none) (i : Nat) (bound : i ≤ 2 ^ 30) :
    ∃ m' n', Returns (vectorChecksize env i) m () m' ∧ Tables m' n' ∧ n ≤ n' ∧ i ≤ 64 ^ (n' + 1) ∧
      Kept m.tables m'.tables ∧ (∀ k < 64 ^ (n + 1), ∃ r, Finds env m k r ∧ Finds env m' k r) ∧
      ∀ k, 64 ^ (n + 1) ≤ k → k < 64 ^ (n' + 1) → Finds env m' k none := by
  by_cases more : 64 ^ (n + 1) < i
  · have level : n < 4 := level_lt h.level bound more
    obtain ⟨q, nz, free, alloc⟩ := vectorTableNew_returns env finite (n + 1)
    obtain ⟨m', n', run, h', le, size, kept, old, new⟩ := vectorChecksize_grows env (raised m n q) (n + 1)
      (h.raise level nz free) (attached_finite finite q (n + 1) q 0 m.table) i bound
    refine ⟨m', n', .turn (checksize_turn env h.levelled.isTable level more alloc) run, h', by omega, size,
      (attached_kept free).trans kept, fun k lt => ?_, fun k ge lt => ?_⟩
    · obtain ⟨r, found⟩ := finds_some env h lt
      have wide : k < 64 ^ (n + 1 + 1) := lt_of_lt_of_le lt (Nat.pow_le_pow_right (by decide) (Nat.le_succ _))
      obtain ⟨r', found', end'⟩ := old k wide
      rw [found'.unique (raise_finds h level free lt found)] at end'
      exact ⟨r, found, end'⟩
    · by_cases wide : k < 64 ^ (n + 1 + 1)
      · obtain ⟨r', found', end'⟩ := old k wide
        rw [found'.unique (raise_finds_none level free ge wide)] at end'
        exact end'
      · exact new k (Nat.not_lt.mp wide) lt
  · refine ⟨m, n, .exit (checksize_exit env h.levelled.isTable h.level (Nat.not_lt.mp more)), h, le_refl n,
      Nat.not_lt.mp more, fun _ _ => id, fun k lt => ?_, fun k ge lt => absurd lt (Nat.not_lt.mpr ge)⟩
    obtain ⟨r, found⟩ := finds_some env h lt
    exact ⟨r, found, found⟩
termination_by 4 - n

/-- There are free addresses. -/
lemma finite_twoTables : ∃ used : List Ptr, ∀ p, p ∉ used → twoTables.tables p = none := by
  refine ⟨[1, 5], fun p notMem => ?_⟩
  rw [List.mem_cons, List.mem_singleton, not_or] at notMem
  show (if p = 1 then _ else if p = 5 then _ else none) = none
  rw [if_neg notMem.1, if_neg notMem.2]

/-- Two levels more. -/
theorem vectorChecksize_twoTables : ∃ m' n', Returns (vectorChecksize oneFirst (2 ^ 20)) twoTables () m' ∧
    Tables m' n' ∧ 1 ≤ n' ∧ 2 ^ 20 ≤ 64 ^ (n' + 1) ∧ Kept twoTables.tables m'.tables ∧
      (∀ k < 64 ^ (1 + 1), ∃ r, Finds oneFirst twoTables k r ∧ Finds oneFirst m' k r) ∧
        ∀ k, 64 ^ (1 + 1) ≤ k → k < 64 ^ (n' + 1) → Finds oneFirst m' k none :=
  vectorChecksize_grows oneFirst twoTables 1 tables_twoTables finite_twoTables (2 ^ 20) (by decide)

end Twcos.Vector
