import Twcos.Prog.Basic
import Mathlib.Logic.Function.Basic
import Mathlib.Tactic.NormNum

/-!
# Vectors

Model of `libk/vector.c`: a tree of tables with 64 entries each. The entries of a table of level 0 are data, those of
a table of a higher level point to tables of the level below it or are null. The tree grows at its root, one level at
a time. A table lives at an address; reading through an address that has none, an index outside of a table and a
shift by more than an `int` can take are faults.

C → Lean naming: `vector_table_t` → `Table`, `vector_entry_get` → `vectorEntryGet`, `vector_checksize` →
`vectorChecksize` and so on. The tail call of `vector_entry_get` is a turn of a loop.
-/

namespace Twcos.Vector
open Twcos.Prog

/-- An address; `0` is `NULL`. -/
abbrev Ptr := Nat

/-- `intptr_t`, which holds data or an address. -/
abbrev Word := Nat

/-- `vector_table_t`. -/
structure Table where
  level : Nat
  d : Nat → Word

inductive Fault where
  | null
  | bounds (i : Nat)
  | shift (n : Nat)

/-- The tables and `v->table`. -/
structure Mem where
  tables : Ptr → Option Table
  table : Ptr

abbrev Code (α : Type) := Prog Fault Mem α

/-- The address that `slab_calloc` returns: it is not null and not in use. -/
structure Env where
  slot : (Ptr → Option Table) → Ptr
  slot_free : ∀ (tables : Ptr → Option Table) (used : List Ptr),
    (∀ p, p ∉ used → tables p = none) → slot tables ≠ 0 ∧ tables (slot tables) = none

/-- `*p`. -/
def deref (p : Ptr) : Code Table := demand (fun m => m.tables p) .null

/-- `p->d[i]`. -/
def load (p : Ptr) (i : Nat) : Code Word := do
  let t ← deref p
  if i < 64 then return t.d i else raise (.bounds i)

/-- The tables after `p->d[i] = w`. -/
def put (tables : Ptr → Option Table) (p : Ptr) (i : Nat) (w : Word) : Ptr → Option Table :=
  Function.update tables p ((tables p).map fun t => { t with d := Function.update t.d i w })

/-- `p->d[i] = w`. -/
def store (p : Ptr) (i : Nat) (w : Word) : Code Unit := do
  let _ ← load p i
  update fun m => { m with tables := put m.tables p i w }

/-- `1 << n`. -/
def shiftOne (n : Nat) : Code Nat := if n < 31 then return 2 ^ n else raise (.shift n)

/-- `i >> n`. -/
def shiftRight (i n : Nat) : Code Nat := if n < 32 then return i >>> n else raise (.shift n)

section Code
variable (env : Env)

/-- `vector_table_new`. -/
def vectorTableNew (level : Nat) : Code Ptr := do
  let p ← asks fun m => env.slot m.tables
  update fun m => { m with tables := Function.update m.tables p (some ⟨level, fun _ => 0⟩) }
  return p

/-- The body of `vector_entry_get`: the arguments of the next call, or the place of the entry. -/
def entryGetBody (create : Bool) : Ptr × Nat → Code ((Ptr × Nat) ⊕ Option (Ptr × Nat))
  | (table, i) => do
    let t ← deref table
    if t.level ≠ 0 then
      let shift := 6 * t.level
      let index ← shiftRight i shift
      if 64 ≤ index then
        -- beyond the bounds of the vector
        return .inr none
      else
        let d ← load table index
        if d = 0 ∧ create = false then return .inr none
        else
          when (d = 0) do
            let new ← vectorTableNew env (t.level - 1)
            store table index new
          let next ← load table index
          let one ← shiftOne shift
          return .inl (next, i &&& (one - 1))
    else return .inr (some (table, i))

/-- `vector_entry_get`. -/
def vectorEntryGet (table : Ptr) (i : Nat) (create : Bool) : Code (Option (Ptr × Nat)) :=
  loop (entryGetBody env create) (table, i)

/-- The body of the loop of `vector_checksize`. -/
def checksizeBody (i : Nat) : Unit → Code (Unit ⊕ Unit)
  | () => do
    let v ← asks Mem.table
    let t ← deref v
    let size ← shiftOne (6 * (t.level + 1))
    if size < i then
      let new ← vectorTableNew env (t.level + 1)
      store new 0 v
      update fun m => { m with table := new }
      return .inl ()
    else return .inr ()

/-- `vector_checksize`. -/
def vectorChecksize (i : Nat) : Code Unit := loop (checksizeBody env i) ()

/-- `vector_put`. -/
def vectorPut (i : Nat) (d : Word) : Code Word := do
  vectorChecksize env i
  let v ← asks Mem.table
  let entry ← vectorEntryGet env v i true
  match entry with
  | none => raise .null
  | some (p, j) =>
    let old ← load p j
    store p j d
    return old

/-- `vector_get`. -/
def vectorGet (i : Nat) : Code Word := do
  let v ← asks Mem.table
  let entry ← vectorEntryGet env v i false
  match entry with
  | none => return 0
  | some (p, j) => load p j

end Code

/-- `vector_new`: one table of level 0. -/
def vectorNew (env : Env) : Mem :=
  ⟨Function.update (fun _ => none) (env.slot fun _ => none) (some ⟨0, fun _ => 0⟩), env.slot fun _ => none⟩

/-! ### What an index resolves to -/

/-- The entries of a table of the level; there are none elsewhere. -/
def entries (tables : Ptr → Option Table) (n : Nat) (p : Ptr) : Nat → Word :=
  match tables p with
  | some t => if t.level = n then t.d else fun _ => 0
  | none => fun _ => 0

/-- What an index resolves to, from a table of level `n`. -/
def value (tables : Ptr → Option Table) : Nat → Ptr → Nat → Word
  | 0, p, i => entries tables 0 p i
  | n + 1, p, i =>
    let c := entries tables (n + 1) p (i / 64 ^ (n + 1))
    if c = 0 then 0 else value tables n c (i % 64 ^ (n + 1))

/-- There is a table of the level. -/
def IsTable (tables : Ptr → Option Table) (n : Nat) (p : Ptr) : Prop := ∃ d, tables p = some ⟨n, d⟩

/-- The tables are linked as a tree below `v`: an entry above level 0 points to a table of the level below, and no
    two entries point to the same one. -/
structure Linked (tables : Ptr → Option Table) (v : Ptr) : Prop where
  finite : ∃ used : List Ptr, ∀ p, p ∉ used → tables p = none
  null : tables 0 = none
  child : ∀ n p j, entries tables (n + 1) p j ≠ 0 → IsTable tables n (entries tables (n + 1) p j)
  only : ∀ n p j p' j', entries tables (n + 1) p j ≠ 0 →
    entries tables (n + 1) p' j' = entries tables (n + 1) p j → p' = p ∧ j' = j
  top : ∀ n p j, entries tables (n + 1) p j ≠ v

/-- A table of level `n`, with tables of the level below it at its entries, and so on. -/
def Levelled (tables : Ptr → Option Table) : Nat → Ptr → Prop
  | 0, p => IsTable tables 0 p
  | n + 1, p => IsTable tables (n + 1) p ∧
    ∀ j < 64, entries tables (n + 1) p j ≠ 0 → Levelled tables n (entries tables (n + 1) p j)

variable {tables tables' : Ptr → Option Table} {n : Nat} {p q v : Ptr} {i j : Nat} {w : Word}

/-- A table with all below it. -/
lemma Levelled.isTable (h : Levelled tables n p) : IsTable tables n p := by
  cases n with
  | zero => exact h
  | succ n => exact h.1

/-- A vector has all below its tables. -/
lemma Linked.levelled (h : Linked tables v) (hp : IsTable tables n p) : Levelled tables n p := by
  induction n generalizing p with
  | zero => exact hp
  | succ n ih => exact ⟨hp, fun j _ nz => ih (h.child n p j nz)⟩

/-- The entries of a table. -/
lemma entries_of {d : Nat → Word} (h : tables p = some ⟨n, d⟩) : entries tables n p = d := by
  simp only [entries, h, if_true]

/-- A table has no entries of another level. -/
lemma entries_other {d : Nat → Word} (h : tables p = some ⟨n, d⟩) {k : Nat} (ne : n ≠ k) :
    entries tables k p = fun _ => 0 := by
  simp only [entries, h, if_neg ne]

/-- Where there is no table there are no entries. -/
lemma entries_none (h : tables p = none) (n : Nat) : entries tables n p = fun _ => 0 := by
  simp only [entries, h]

/-- A new table. -/
lemma isTable_new (tables : Ptr → Option Table) (q : Ptr) (n : Nat) :
    IsTable (Function.update tables q (some ⟨n, fun _ => 0⟩)) n q :=
  ⟨_, Function.update_self _ _ _⟩

/-- No table is at null. -/
lemma IsTable.ne_zero (h : IsTable tables n p) (linked : Linked tables v) : p ≠ 0 := by
  rintro rfl
  obtain ⟨d, hd⟩ := h
  cases linked.null.symm.trans hd

/-- A new table has no entries, as if it were not there. -/
lemma entries_new (free : tables q = none) (n k : Nat) (p : Ptr) :
    entries (Function.update tables q (some ⟨n, fun _ => 0⟩)) k p = entries tables k p := by
  by_cases e : p = q
  · subst e
    rw [entries_none free]
    simp only [entries, Function.update_self]
    split <;> rfl
  · simp only [entries, Function.update_of_ne e]

/-- The table that is written. -/
lemma put_same {d : Nat → Word} (h : tables p = some ⟨n, d⟩) :
    put tables p i w p = some ⟨n, Function.update d i w⟩ := by
  rw [put, Function.update_self, h]
  rfl

/-- Writing a table leaves the others. -/
lemma put_of_ne (ne : q ≠ p) : put tables p i w q = tables q := Function.update_of_ne ne _ _

/-- The entries of the table that is written. -/
lemma entries_put_same (h : IsTable tables n p) :
    entries (put tables p i w) n p = Function.update (entries tables n p) i w := by
  obtain ⟨d, hd⟩ := h
  rw [entries_of (put_same hd), entries_of hd]

/-- Writing an entry changes no table but its own. -/
lemma entries_put_of_ne (h : IsTable tables n p) {k : Nat} (ne : ¬(k = n ∧ q = p)) :
    entries (put tables p i w) k q = entries tables k q := by
  by_cases e : q = p
  · subst e
    obtain ⟨d, hd⟩ := h
    have nk : n ≠ k := fun h => ne ⟨h.symm, rfl⟩
    rw [entries_other (put_same hd) nk, entries_other hd nk]
  · simp only [entries, put_of_ne e]

/-- Writing keeps the tables. -/
lemma IsTable.put {k : Nat} (h : IsTable tables k q) : IsTable (put tables p i w) k q := by
  obtain ⟨d, hd⟩ := h
  by_cases e : q = p
  · subst e
    exact ⟨_, put_same hd⟩
  · exact ⟨d, (put_of_ne e).trans hd⟩

/-- A new table keeps the others. -/
lemma IsTable.new {k l : Nat} (h : IsTable tables k p) (free : tables q = none) :
    IsTable (Function.update tables q (some ⟨l, fun _ => 0⟩)) k p := by
  obtain ⟨d, hd⟩ := h
  have ne : p ≠ q := by
    rintro rfl
    cases free.symm.trans hd
  exact ⟨d, (Function.update_of_ne ne _ _).trans hd⟩

/-- What an index resolves to depends only on the entries of the levels below. -/
lemma value_congr (same : ∀ k ≤ n, ∀ p, entries tables' k p = entries tables k p) (p : Ptr) (i : Nat) :
    value tables' n p i = value tables n p i := by
  induction n generalizing p i with
  | zero => rw [value, value, same 0 (le_refl 0)]
  | succ n ih => simp only [value, same (n + 1) (le_refl _), ih fun k le => same k (by omega)]

/-- An empty table has no values. -/
lemma value_of_empty (empty : entries tables n p = fun _ => 0) (i : Nat) : value tables n p i = 0 := by
  cases n with
  | zero => rw [value, empty]
  | succ n => simp only [value, empty, if_true]

end Twcos.Vector
