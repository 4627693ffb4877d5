import Twcos.Prog.Calls
import Twcos.Vector.Entry
import Mathlib.Data.Fintype.EquivFin

/-!
# Runs of a vector

Any sequence of `vector_put` and `vector_get` on a vector made by `vector_new`, against a function that gives the data
last put at each index. `vector_checksize` stops one index short when the index is the number of entries of the
vector, and cannot go beyond `2 ^ 30` indices at all; `vector_get` does not look at the size of a vector of level 0.
`agrees_of_fits` is about the runs in which this does not happen.
-/

namespace Twcos.Vector
open Twcos.Prog

/-- A call, with an index of 32 bits. -/
inductive Call where
  | put (i : BitVec 32) (d : Word)
  | get (i : BitVec 32)

/-- Run a call. -/
def call (env : Env) : Call → Code Word
  | .put i d => vectorPut env i.toNat d
  | .get i => vectorGet env i.toNat

/-- What the call returns if `f` is the data last put at each index, and the function after it. -/
def lastPut (f : BitVec 32 → Word) : Call → Word × (BitVec 32 → Word)
  | .put i d => (f i, Function.update f i d)
  | .get i => (f i, f)

/-- All calls of a run on a new vector return what was put last. -/
def Agrees (env : Env) (calls : List Call) : Prop :=
  Simulates (call env) lastPut (fun _ _ _ _ => True) (vectorNew env) (fun _ => 0) calls

/-- `v->table->level`. -/
def levelOf (m : Mem) : Nat := ((m.tables m.table).map Table.level).getD 0

/-- The calls for which the size of the vector is right. -/
def Fits (m : Mem) : Call → Prop
  | .put i _ => i.toNat < 2 ^ 30 ∧ ∀ k, i.toNat = 64 ^ k → k ≤ levelOf m
  | .get i => levelOf m = 0 → i.toNat < 64

/-- The vector has the data of the function. -/
structure Rep (m : Mem) (f : BitVec 32 → Word) : Prop where
  linked : Linked m.tables m.table
  root : IsTable m.tables (levelOf m) m.table
  level : levelOf m ≤ 4
  data : ∀ i : BitVec 32, f i = if i.toNat < 64 ^ (levelOf m + 1) then
    value m.tables (levelOf m) m.table i.toNat else 0

/-- The level of a vector is that of its root. -/
lemma levelOf_eq {m : Mem} {n : Nat} (h : IsTable m.tables n m.table) : levelOf m = n := by
  obtain ⟨d, hd⟩ := h
  rw [levelOf, hd]
  rfl

/-- A table of level 4 is large enough. -/
lemma level_lt {n i : Nat} (level : n ≤ 4) (bound : i ≤ 2 ^ 30) (more : 64 ^ (n + 1) < i) : n < 4 := by
  refine lt_of_le_of_ne level ?_
  rintro rfl
  norm_num at bound more
  omega

/-- The loop of `vector_checksize` raises the vector until the index is not above its size. -/
lemma checksize_returns (env : Env) {m : Mem} {n i : Nat} (linked : Linked m.tables m.table)
    (root : IsTable m.tables n m.table) (level : n ≤ 4) (bound : i ≤ 2 ^ 30) :
    ∃ m' n', Returns (vectorChecksize env i) m () m' ∧ Linked m'.tables m'.table ∧
      IsTable m'.tables n' m'.table ∧ n' ≤ 4 ∧ n ≤ n' ∧ i ≤ 64 ^ (n' + 1) ∧
      ∀ k, (if k < 64 ^ (n' + 1) then value m'.tables n' m'.table k else 0) =
        if k < 64 ^ (n + 1) then value m.tables n m.table k else 0 := by
  by_cases more : 64 ^ (n + 1) < i
  · -- there is room for another level, as the index is not above the size of the highest one
    have lt : n < 4 := level_lt level bound more
    obtain ⟨new, nz, free, alloc⟩ := vectorTableNew_returns env linked.finite (n + 1)
    have linked' := raise_linked linked root nz free
    have isNew := isTable_new m.tables new (n + 1)
    obtain ⟨m', n', run, linked'', root', level', le, fits, same⟩ :=
      checksize_returns env (m := ⟨attached m.tables new (n + 1) new 0 m.table, new⟩) linked' isNew.put lt bound
    refine ⟨m', n', .turn (checksize_turn env root lt more alloc) run, linked'', root', level', by omega, fits,
      fun k => ?_⟩
    rw [same k]
    show (if k < 64 ^ (n + 1 + 1) then value (attached m.tables new (n + 1) new 0 m.table) (n + 1) new k else 0) = _
    rw [raise_value linked root free]
    have grows : 64 ^ (n + 1) ≤ 64 ^ (n + 1 + 1) := Nat.pow_le_pow_right (by decide) (by omega)
    by_cases low : k < 64 ^ (n + 1)
    · rw [if_pos low, if_pos (by omega)]
    · rw [if_neg low, ite_self]
  · exact ⟨m, n, .exit (checksize_exit env root level (Nat.not_lt.mp more)), linked, root, level, le_refl n,
      Nat.not_lt.mp more, fun k => rfl⟩
termination_by 4 - n

/-- `vector_get`. -/
lemma get_returns (env : Env) {m : Mem} {f : BitVec 32 → Word} (h : Rep m f) {i : BitVec 32}
    (fits : Fits m (.get i)) : Returns (call env (.get i)) m (f i) m := by
  have data := h.data i
  by_cases lt : i.toNat < 64 ^ (levelOf m + 1)
  · rw [if_pos lt] at data
    rw [data]
    rcases entryGet_returns env (h.linked.levelled h.root) h.level lt with ⟨run, zero⟩ | ⟨q, j, run, reaches⟩
    · rw [zero]
      exact .bind (.asks _ _) (.bind run (.pure _ _))
    · rw [← reaches.value]
      exact .bind (.asks _ _) (.bind run (load_returns reaches.leaf.1 reaches.leaf.2))
  · rw [if_neg lt] at data
    rw [data]
    have root := h.root
    have level := h.level
    cases hl : levelOf m with
    | zero =>
      rw [hl] at lt
      exact absurd (fits hl) lt
    | succ n =>
      rw [hl] at lt root level
      exact .bind (.asks _ _) (.bind (entryGet_beyond env root (by omega) (by omega)) (.pure _ _))

/-- `vector_put`. -/
lemma put_returns (env : Env) {m : Mem} {f : BitVec 32 → Word} (h : Rep m f) {i : BitVec 32} {w : Word}
    (fits : Fits m (.put i w)) :
    ∃ m', Returns (call env (.put i w)) m (f i) m' ∧ Rep m' (Function.update f i w) := by
  obtain ⟨m1, n, grow, linked, root, level, le, bound, same⟩ :=
    checksize_returns env h.linked h.root h.level fits.1.le
  have lt : i.toNat < 64 ^ (n + 1) := by
    refine lt_of_le_of_ne bound fun e => ?_
    have := fits.2 (n + 1) e
    omega
  obtain ⟨tables, q, j, run, linked', grown, reaches⟩ := entryCreate_returns env linked root root level lt
  have data : ∀ k : BitVec 32, f k = if k.toNat < 64 ^ (n + 1) then value tables n m1.table k.toNat else 0 := by
    intro k
    rw [h.data, ← same, grown.value]
  have read := load_returns (m := { m1 with tables := tables }) reaches.leaf.1 reaches.leaf.2
  have write := store_returns (m := { m1 with tables := tables }) reaches.leaf.1 reaches.leaf.2 w
  have old : entries tables 0 q j = f i := by
    rw [reaches.value, data, if_pos lt]
  have root' : IsTable (put tables q j w) n m1.table := (grown.isTable n m1.table root).put
  have level' : levelOf { m1 with tables := put tables q j w } = n := levelOf_eq root'
  refine ⟨{ m1 with tables := put tables q j w }, ?_, linked'.put reaches.leaf.1 j w, ?_, ?_, fun k => ?_⟩
  · rw [← old]
    exact .bind grow (.bind (.asks _ _) (.bind run (.bind read (.bind write (.pure _ _)))))
  · rw [level']
    exact root'
  · rw [level']
    exact level
  · rw [level', Function.update_apply, data]
    show _ = if k.toNat < 64 ^ (n + 1) then value (put tables q j w) n m1.table k.toNat else 0
    rw [reaches.value_put linked']
    by_cases e : k = i
    · subst e
      rw [if_pos rfl, if_pos lt, if_pos ⟨rfl, rfl⟩]
    · have ne : ¬(m1.table = m1.table ∧ k.toNat = i.toNat) := fun h => e (BitVec.eq_of_toNat_eq h.2)
      rw [if_neg e, if_neg ne]

/-- A new vector has one table. -/
lemma new_self (env : Env) : (vectorNew env).tables (vectorNew env).table = some ⟨0, fun _ => 0⟩ := by
  simp only [vectorNew, Function.update_self]

/-- A new vector has no other table. -/
lemma new_other (env : Env) {p : Ptr} (ne : p ≠ (vectorNew env).table) : (vectorNew env).tables p = none := by
  simp only [vectorNew] at ne ⊢
  rw [Function.update_of_ne ne]

/-- A new vector. -/
lemma rep_new (env : Env) : Rep (vectorNew env) fun _ => 0 := by
  obtain ⟨nz, -⟩ := env.slot_free (fun _ => none) [] fun _ _ => rfl
  have table : IsTable (vectorNew env).tables 0 (vectorNew env).table := ⟨_, new_self env⟩
  have empty : ∀ n p, entries (vectorNew env).tables n p = fun _ => 0 := by
    intro n p
    exact entries_new rfl 0 n p
  have level := levelOf_eq table
  refine ⟨⟨⟨[(vectorNew env).table], fun p notMem => ?_⟩, ?_, fun n p j => ?_, fun n p j => ?_, fun n p j => ?_⟩,
    ?_, ?_, fun i => ?_⟩
  · exact new_other env fun e => notMem (List.mem_singleton.mpr e)
  · exact new_other env nz.symm
  · exact fun h => absurd (congrFun (empty (n + 1) p) j) h
  · exact fun _ _ h => absurd (congrFun (empty (n + 1) p) j) h
  · exact (congrFun (empty (n + 1) p) j).trans_ne nz.symm
  · rw [level]
    exact table
  · rw [level]
    omega
  · rw [value_of_empty (empty _ _), ite_self]

/-- Every run on a new vector in which the sizes are right returns the data put last. -/
theorem agrees_of_fits (env : Env) {calls : List Call} (fits : Meets (call env) Fits (vectorNew env) calls) :
    Agrees env calls := by
  refine simulates_of_meets (R := Rep) ?_ (rep_new env) fits
  intro m f c h fits
  cases c with
  | put i w =>
    obtain ⟨m', run, h'⟩ := put_returns env h fits
    exact ⟨m', run, trivial, h'⟩
  | get i => exact ⟨m, get_returns env h fits, trivial, h⟩

/-- An allocator that hands out address 1 first. -/
noncomputable def oneFirst : Env where
  slot tables := if (tables 1).isNone then 1 else Classical.epsilon fun p => p ≠ 0 ∧ tables p = none
  slot_free := by
    intro tables used hu
    have free : ∃ p, p ≠ 0 ∧ tables p = none := by
      obtain ⟨p, hp⟩ := Infinite.exists_notMem_finset (0 :: used).toFinset
      rw [List.mem_toFinset, List.mem_cons, not_or] at hp
      exact ⟨p, hp.1, hu p hp.2⟩
    by_cases one : (tables 1).isNone = true
    · rw [if_pos one]
      exact ⟨by decide, Option.isNone_iff_eq_none.mp one⟩
    · rw [if_neg one]
      exact Classical.epsilon_spec free

/-- An index that is no power of 64. -/
lemma ne_power {i : Nat} (odd : i % 64 ≠ 0) (ne : i ≠ 1) (k : Nat) : i ≠ 64 ^ k := by
  rintro rfl
  cases k with
  | zero => exact ne rfl
  | succ k =>
    rw [pow_succ, Nat.mul_mod_left] at odd
    exact odd rfl

/-- Calls in a vector of two levels. -/
theorem agrees_two_levels : Agrees oneFirst [.put 3 7, .get 3, .put 67 9, .get 3, .put 67 8] := by
  have put3 : ∀ m d, Fits m (.put 3 d) := fun m d =>
    ⟨by decide, fun k e => absurd e (ne_power (by decide) (by decide) k)⟩
  have put67 : ∀ m d, Fits m (.put 67 d) := fun m d =>
    ⟨by decide, fun k e => absurd e (ne_power (by decide) (by decide) k)⟩
  have low : ∀ m, Fits m (.get 3) := fun _ _ => by decide
  exact agrees_of_fits oneFirst ⟨put3 _ 7, fun _ m1 _ => ⟨low m1, fun _ m2 _ => ⟨put67 m2 9, fun _ m3 _ =>
    ⟨low m3, fun _ m4 _ => ⟨put67 m4 8, fun _ _ _ => trivial⟩⟩⟩⟩⟩

/-- A new vector has 64 entries, and `vector_put` writes behind them. -/
theorem put_at_size_faults : ¬Agrees oneFirst [.put 64 7] := by
  rintro ⟨m, ⟨N, run⟩, -⟩
  have wrong := run (N + 2) (by omega)
  have faults : call oneFirst (.put 64 7) (N + 2) (vectorNew oneFirst) = .error (.fault (.bounds 64)) := rfl
  cases wrong.symm.trans faults

end Twcos.Vector
