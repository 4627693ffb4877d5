import Twcos.Vector.Basic

/-!
# The entry of an index

What `vector_entry_get` and `vector_checksize` do to the tables. Both only ever link a table at a place where there was
none, which changes nothing that an index resolved to before.
-/

namespace Twcos.Vector
open Twcos.Prog

variable {tables tables' : Ptr → Option Table} {n : Nat} {p q v : Ptr} {i j : Nat} {w : Word}

/-! ### Linking a table -/

/-- There is one more link, to a table that nothing pointed to. -/
lemma Linked.link {c v' : Ptr} (h : Linked tables v) (finite : ∃ used : List Ptr, ∀ p, p ∉ used → tables' p = none)
    (null : tables' 0 = none) (mono : ∀ k a, IsTable tables k a → IsTable tables' k a)
    (link : ∀ k a b, entries tables' (k + 1) a b = if k = n ∧ a = p ∧ b = j then c else entries tables (k + 1) a b)
    (fresh : ∀ k a b, entries tables (k + 1) a b ≠ c) (table : IsTable tables' n c)
    (top : c ≠ v' ∧ ∀ k a b, entries tables (k + 1) a b ≠ v') : Linked tables' v' where
  finite := finite
  null := null
  child := by
    intro k a b
    rw [link]
    split
    · rename_i here
      rw [here.1]
      exact fun _ => table
    · exact fun nz => mono _ _ (h.child k a b nz)
  only := by
    intro k a b a' b'
    rw [link, link]
    split <;> split
    · rename_i here there
      exact fun _ _ => ⟨there.2.1.trans here.2.1.symm, there.2.2.trans here.2.2.symm⟩
    · exact fun _ e => absurd e (fresh k a' b')
    · exact fun _ e => absurd e.symm (fresh k a b)
    · exact h.only k a b a' b'
  top := by
    intro k a b
    rw [link]
    split
    · exact top.1
    · exact top.2 k a b

/-- Nothing points to an address that is not in use. -/
lemma Linked.fresh (h : Linked tables v) (nz : q ≠ 0) (free : tables q = none) (k : Nat) (a : Ptr) (b : Nat) :
    entries tables (k + 1) a b ≠ q := by
  intro e
  obtain ⟨d, hd⟩ := h.child k a b (e ▸ nz)
  rw [e, free] at hd
  cases hd

/-- The tables with a new one at `q`, to which `p` points. -/
def attached (tables : Ptr → Option Table) (q : Ptr) (n : Nat) (p : Ptr) (j : Nat) (c : Ptr) : Ptr → Option Table :=
  put (Function.update tables q (some ⟨n, fun _ => 0⟩)) p j c

/-- There are still free addresses. -/
lemma attached_finite (finite : ∃ used : List Ptr, ∀ a, a ∉ used → tables a = none) (q : Ptr) (n : Nat) (p : Ptr) (j : Nat)
    (c : Ptr) : ∃ used : List Ptr, ∀ a, a ∉ used → attached tables q n p j c a = none := by
  obtain ⟨used, hu⟩ := finite
  refine ⟨p :: q :: used, fun a notMem => ?_⟩
  rw [List.mem_cons, List.mem_cons, not_or, not_or] at notMem
  rw [attached, put_of_ne notMem.1, Function.update_of_ne notMem.2.1]
  exact hu a notMem.2.2

/-- No table is made at null. -/
lemma attached_null (h : Linked tables v) {c : Ptr} (nz : q ≠ 0) (np : p ≠ 0) : attached tables q n p j c 0 = none := by
  rw [attached, put_of_ne np.symm, Function.update_of_ne nz.symm]
  exact h.null

/-- The tables that were there. -/
lemma attached_isTable {c : Ptr} (free : tables q = none) (k : Nat) (a : Ptr) (h : IsTable tables k a) :
    IsTable (attached tables q n p j c) k a :=
  (h.new free).put

/-- What is kept while tables are linked. -/
structure Grown (tables tables' : Ptr → Option Table) : Prop where
  isTable : ∀ n p, IsTable tables n p → IsTable tables' n p
  kept : ∀ n p j, entries tables (n + 1) p j ≠ 0 → entries tables' (n + 1) p j = entries tables (n + 1) p j
  value : ∀ n p i, value tables' n p i = value tables n p i

/-- Tables that are the same have not lost anything. -/
lemma Grown.refl (tables : Ptr → Option Table) : Grown tables tables :=
  ⟨fun _ _ => id, fun _ _ _ _ => rfl, fun _ _ _ => rfl⟩

/-- Growing twice loses nothing. -/
lemma Grown.trans {tables'' : Ptr → Option Table} (h : Grown tables tables') (h' : Grown tables' tables'') :
    Grown tables tables'' where
  isTable n p ht := h'.isTable n p (h.isTable n p ht)
  kept n p j nz := by
    have e := h.kept n p j nz
    rw [h'.kept n p j (e ▸ nz), e]
  value n p i := (h'.value n p i).trans (h.value n p i)

section Attach
variable (h : Linked tables v) (hp : IsTable tables (n + 1) p) (nz : q ≠ 0) (free : tables q = none)
include h hp nz free

omit h nz in
/-- The entries after a table is attached. -/
lemma attach_entries (k : Nat) (a : Ptr) (b : Nat) : entries (attached tables q n p j q) (k + 1) a b =
    if k = n ∧ a = p ∧ b = j then q else entries tables (k + 1) a b := by
  by_cases here : k + 1 = n + 1 ∧ a = p
  · obtain ⟨e, rfl⟩ := here
    cases Nat.succ.inj e
    rw [attached, entries_put_same (hp.new free), entries_new free, Function.update_apply]
    simp only [true_and]
  · rw [attached, entries_put_of_ne (hp.new free) here, entries_new free, if_neg fun e => here ⟨by rw [e.1], e.2.1⟩]

omit h nz in
/-- The values are the same. -/
lemma attach_leaves (a : Ptr) : entries (attached tables q n p j q) 0 a = entries tables 0 a := by
  rw [attached, entries_put_of_ne (hp.new free) fun e => absurd e.1 (by omega), entries_new free]

omit h hp nz free in
/-- The new table. -/
lemma attach_new : IsTable (attached tables q n p j q) n q := (isTable_new tables q n).put

/-- A new table, linked where there was none. -/
lemma attach_linked {l : Nat} (hv : IsTable tables l v) : Linked (attached tables q n p j q) v := by
  have qv : q ≠ v := by
    rintro rfl
    obtain ⟨d, hd⟩ := hv
    cases free.symm.trans hd
  exact h.link (attached_finite h.finite q n p j q) (attached_null h nz (hp.ne_zero h)) (attached_isTable free)
    (attach_entries hp free) (h.fresh nz free) attach_new ⟨qv, h.top⟩

omit h nz in
/-- Attaching a table where there was none loses nothing. -/
lemma attach_grown (zero : entries tables (n + 1) p j = 0) : Grown tables (attached tables q n p j q) where
  isTable := attached_isTable free
  kept := by
    intro k a b nonzero
    rw [attach_entries hp free, if_neg]
    rintro ⟨rfl, rfl, rfl⟩
    exact nonzero zero
  value := by
    -- the new table is empty
    have ne : q ≠ p := by
      rintro rfl
      obtain ⟨d, hd⟩ := hp
      cases free.symm.trans hd
    have empty : ∀ i, value (attached tables q n p j q) n q i = 0 := by
      refine value_of_empty ?_
      rw [attached, entries_put_of_ne (hp.new free) fun e => ne e.2, entries_new free, entries_none free]
    intro k
    induction k with
    | zero =>
      intro a i
      rw [value, value, attach_leaves hp free]
    | succ k ih =>
      intro a i
      simp only [value, attach_entries hp free]
      split
      · rename_i here
        obtain ⟨rfl, rfl, index⟩ := here
        rw [index, zero, if_pos rfl, empty]
        split <;> rfl
      · simp only [ih]

end Attach

section Raise
variable (h : Linked tables v) (hv : IsTable tables n v) (nz : q ≠ 0) (free : tables q = none)
include h hv nz free

omit h hv nz in
/-- The entries after a level is added. -/
lemma raise_entries (k : Nat) (a : Ptr) (b : Nat) : entries (attached tables q (n + 1) q 0 v) (k + 1) a b =
    if k = n ∧ a = q ∧ b = 0 then v else entries tables (k + 1) a b := by
  have new := isTable_new tables q (n + 1)
  by_cases here : k + 1 = n + 1 ∧ a = q
  · obtain ⟨e, rfl⟩ := here
    cases Nat.succ.inj e
    rw [attached, entries_put_same new, entries_new free, Function.update_apply]
    simp only [true_and]
  · rw [attached, entries_put_of_ne new here, entries_new free, if_neg fun e => here ⟨by rw [e.1], e.2.1⟩]

/-- A new table above the others. -/
lemma raise_linked : Linked (attached tables q (n + 1) q 0 v) q := by
  have vq : v ≠ q := by
    rintro rfl
    obtain ⟨d, hd⟩ := hv
    cases free.symm.trans hd
  exact h.link (attached_finite h.finite q (n + 1) q 0 v) (attached_null h nz nz) (attached_isTable free)
    (raise_entries free) h.top (attached_isTable free n v hv) ⟨vq, h.fresh nz free⟩

omit nz in
/-- The indices of the old tree resolve as before, the others to nothing. -/
lemma raise_value (i : Nat) : value (attached tables q (n + 1) q 0 v) (n + 1) q i =
    if i < 64 ^ (n + 1) then value tables n v i else 0 := by
  have below : ∀ k ≤ n, ∀ a, entries (attached tables q (n + 1) q 0 v) k a = entries tables k a := by
    intro k le a
    rw [attached, entries_put_of_ne (isTable_new tables q (n + 1)) fun e => absurd e.1 (by omega), entries_new free]
  rw [value, raise_entries free, entries_none free]
  by_cases low : i < 64 ^ (n + 1)
  · simp only [Nat.div_eq_of_lt low, and_self, if_true, if_neg (hv.ne_zero h), if_pos low,
      Nat.mod_eq_of_lt low, value_congr below]
  · have high : i / 64 ^ (n + 1) ≠ 0 := by
      rw [Ne, Nat.div_eq_zero_iff, not_or]
      exact ⟨pow_ne_zero _ (by decide), low⟩
    simp only [high, and_false, if_false, if_true, if_neg low]

end Raise

/-! ### The place of an entry -/

/-- The index leads from a table of level `n` to the entry `j` of the table `q`. -/
def Reaches (tables : Ptr → Option Table) : Nat → Ptr → Nat → Ptr → Nat → Prop
  | 0, p, i, q, j => IsTable tables 0 p ∧ i < 64 ∧ q = p ∧ j = i
  | n + 1, p, i, q, j => entries tables (n + 1) p (i / 64 ^ (n + 1)) ≠ 0 ∧
    Reaches tables n (entries tables (n + 1) p (i / 64 ^ (n + 1))) (i % 64 ^ (n + 1)) q j

/-- The leaf that an index comes to. -/
lemma Reaches.leaf (h : Reaches tables n p i q j) : IsTable tables 0 q ∧ j < 64 := by
  induction n generalizing p i with
  | zero =>
    obtain ⟨table, lt, rfl, rfl⟩ := h
    exact ⟨table, lt⟩
  | succ n ih => exact ih h.2

/-- What is at the place is what the index resolves to. -/
lemma Reaches.value (h : Reaches tables n p i q j) : entries tables 0 q j = value tables n p i := by
  induction n generalizing p i with
  | zero =>
    obtain ⟨-, -, rfl, rfl⟩ := h
    rfl
  | succ n ih =>
    rw [Vector.value, if_neg h.1]
    exact ih h.2

/-- Writing at the place changes what this index resolves to, and no other one. -/
lemma Reaches.value_put (h : Reaches tables n p i q j) (linked : Linked tables v) (w : Word) (p' : Ptr) (i' : Nat) :
    Vector.value (put tables q j w) n p' i' = if p' = p ∧ i' = i then w else Vector.value tables n p' i' := by
  have leaf := h.leaf.1
  induction n generalizing p i p' i' with
  | zero =>
    obtain ⟨-, -, rfl, rfl⟩ := h
    by_cases e : p' = q
    · subst e
      rw [Vector.value, entries_put_same leaf, Function.update_apply]
      simp only [true_and]
      rfl
    · rw [Vector.value, entries_put_of_ne leaf fun h => e h.2, if_neg fun h => e h.1]
      rfl
  | succ n ih =>
    obtain ⟨nz, rest⟩ := h
    have same : ∀ a, entries (put tables q j w) (n + 1) a = entries tables (n + 1) a := fun a =>
      entries_put_of_ne leaf fun e => absurd e.1 (by omega)
    simp only [Vector.value, same]
    by_cases zero : entries tables (n + 1) p' (i' / 64 ^ (n + 1)) = 0
    · rw [if_pos zero, if_pos zero, if_neg]
      rintro ⟨rfl, rfl⟩
      exact nz zero
    · rw [if_neg zero, if_neg zero, ih rest]
      refine if_congr ⟨fun e => ?_, fun e => ?_⟩ rfl rfl
      · obtain ⟨hp, hd⟩ := linked.only n p _ p' _ nz e.1
        exact ⟨hp, (Nat.ext_div_mod_iff _ _ _).mpr ⟨hd, e.2⟩⟩
      · rw [e.1, e.2]
        exact ⟨rfl, rfl⟩

/-- Writing data keeps the links. -/
lemma Linked.put (h : Linked tables v) (leaf : IsTable tables 0 q) (j : Nat) (w : Word) :
    Linked (put tables q j w) v := by
  have same : ∀ k a, entries (Vector.put tables q j w) (k + 1) a = entries tables (k + 1) a := fun k a =>
    entries_put_of_ne leaf fun e => absurd e.1 (by omega)
  obtain ⟨used, hu⟩ := h.finite
  refine ⟨⟨q :: used, fun a notMem => ?_⟩, ?_, fun k a b => ?_, fun k a b a' b' => ?_, fun k a b => ?_⟩
  · rw [List.mem_cons, not_or] at notMem
    rw [put_of_ne notMem.1]
    exact hu a notMem.2
  · rw [put_of_ne (leaf.ne_zero h).symm]
    exact h.null
  · rw [same]
    exact fun nz => (h.child k a b nz).put
  · rw [same, same]
    exact h.only k a b a' b'
  · rw [same]
    exact h.top k a b

/-! ### The functions -/

section Returns
variable {m : Mem}

/-- Reading an entry. -/
lemma load_returns (h : IsTable m.tables n p) (lt : j < 64) :
    Returns (load p j) m (entries m.tables n p j) m := by
  obtain ⟨d, hd⟩ := h
  refine .bind (.demand hd) ?_
  rw [if_pos lt, entries_of hd]
  exact .pure _ _

/-- Writing an entry. -/
lemma store_returns (h : IsTable m.tables n p) (lt : j < 64) (w : Word) :
    Returns (store p j w) m () { m with tables := put m.tables p j w } :=
  .bind (load_returns h lt) (.update _ _)

/-- A power of two, as the code computes it. -/
lemma shiftOne_returns (lt : n < 31) : Returns (shiftOne n) m (2 ^ n) m := by
  rw [shiftOne, if_pos lt]
  exact .pure _ _

/-- A division by one. -/
lemma shiftRight_returns (lt : n < 32) : Returns (shiftRight i n) m (i / 2 ^ n) m := by
  rw [shiftRight, if_pos lt, Nat.shiftRight_eq_div_pow]
  exact .pure _ _

/-- A new table is free and empty. -/
lemma vectorTableNew_returns (env : Env) (finite : ∃ used : List Ptr, ∀ p, p ∉ used → m.tables p = none) (n : Nat) :
    ∃ q, q ≠ 0 ∧ m.tables q = none ∧ Returns (vectorTableNew env n) m q
      { m with tables := Function.update m.tables q (some ⟨n, fun _ => 0⟩) } := by
  obtain ⟨used, hu⟩ := finite
  obtain ⟨nz, free⟩ := env.slot_free m.tables used hu
  exact ⟨_, nz, free, .bind (.asks _ _) (.bind (.update _ _) (.pure _ _))⟩

/-- The span of a table in bits. -/
lemma two_pow_six (n : Nat) : 2 ^ (6 * n) = 64 ^ n := by
  rw [pow_mul]
  norm_num

/-- A table spans something. -/
lemma span_pos (n : Nat) : 0 < 64 ^ n := Nat.pow_pos (by decide)

/-- The index of the entry, within the table. -/
lemma index_lt (lt : i < 64 ^ (n + 1 + 1)) : i / 64 ^ (n + 1) < 64 := by
  rw [Nat.div_lt_iff_lt_mul (span_pos _), ← pow_succ']
  exact lt

/-- The rest of an index is inside the table below. -/
lemma rest_lt (i n : Nat) : i % 64 ^ n < 64 ^ n := Nat.mod_lt _ (span_pos n)

/-- The part of `vector_entry_get` that finds the next table. -/
lemma step_returns (env : Env) (create : Bool) {m' : Mem} (hp : IsTable m.tables (n + 1) p) (level : n < 4)
    (lt : i < 64 ^ (n + 1 + 1)) {c : Ptr} (some : ¬(entries m.tables (n + 1) p (i / 64 ^ (n + 1)) = 0 ∧ create = false))
    (link : Returns (when (decide (entries m.tables (n + 1) p (i / 64 ^ (n + 1)) = 0)) do
      let new ← vectorTableNew env (n + 1 - 1)
      store p (i / 64 ^ (n + 1)) new) m () m')
    (next : Returns (load p (i / 64 ^ (n + 1))) m' c m') :
    Returns (entryGetBody env create (p, i)) m (.inl (c, i % 64 ^ (n + 1))) m' := by
  have index := index_lt lt
  have read := load_returns hp index
  obtain ⟨d, hd⟩ := hp
  refine .bind (.demand hd) ?_
  rw [if_pos (by show n + 1 ≠ 0; omega)]
  refine .bind (shiftRight_returns (show 6 * (n + 1) < 32 by omega)) ?_
  rw [two_pow_six, if_neg (Nat.not_le.mpr index)]
  refine .bind read ?_
  rw [if_neg some]
  refine .bind link (.bind next (.bind (shiftOne_returns (show 6 * (n + 1) < 31 by omega)) ?_))
  rw [two_pow_six, ← two_pow_six, Nat.and_two_pow_sub_one_eq_mod]
  exact .pure _ _

/-- An entry above level 0 that is null. -/
lemma entryGet_null (env : Env) (hp : IsTable m.tables (n + 1) p) (level : n < 4) (lt : i < 64 ^ (n + 1 + 1))
    (zero : entries m.tables (n + 1) p (i / 64 ^ (n + 1)) = 0) : Returns (vectorEntryGet env p i false) m none m := by
  have index := index_lt lt
  have read := load_returns hp index
  obtain ⟨d, hd⟩ := hp
  refine .exit (.bind (.demand hd) ?_)
  rw [if_pos (by show n + 1 ≠ 0; omega)]
  refine .bind (shiftRight_returns (show 6 * (n + 1) < 32 by omega)) ?_
  rw [two_pow_six, if_neg (Nat.not_le.mpr index)]
  refine .bind read ?_
  rw [if_pos ⟨zero, rfl⟩]
  exact .pure _ _

/-- `vector_entry_get` without `create`. -/
lemma entryGet_returns (env : Env) (hp : Levelled m.tables n p) (level : n ≤ 4) (lt : i < 64 ^ (n + 1)) :
    (Returns (vectorEntryGet env p i false) m none m ∧ value m.tables n p i = 0) ∨
    ∃ q j, Returns (vectorEntryGet env p i false) m (some (q, j)) m ∧ Reaches m.tables n p i q j := by
  induction n generalizing p i with
  | zero =>
    obtain ⟨d, hd⟩ := hp
    refine .inr ⟨p, i, .exit (.bind (.demand hd) (.pure _ _)), ⟨d, hd⟩, lt, rfl, rfl⟩
  | succ n ih =>
    by_cases zero : entries m.tables (n + 1) p (i / 64 ^ (n + 1)) = 0
    · exact .inl ⟨entryGet_null env hp.isTable (by omega) lt zero, by rw [value, if_pos zero]⟩
    · have step := step_returns env false hp.isTable (by omega) lt (by simp [zero])
        (.when_neg zero) (load_returns hp.isTable (index_lt lt))
      rcases ih (hp.2 _ (index_lt lt) zero) (by omega) (rest_lt i (n + 1)) with ⟨run, none⟩ | ⟨q, j, run, reaches⟩
      · exact .inl ⟨.turn step run, by rw [value, if_neg zero, none]⟩
      · exact .inr ⟨q, j, .turn step run, zero, reaches⟩

/-- An index beyond the bounds. -/
lemma entryGet_beyond (env : Env) (hp : IsTable m.tables (n + 1) p) (level : n < 4) (le : 64 ^ (n + 1 + 1) ≤ i) :
    Returns (vectorEntryGet env p i false) m none m := by
  obtain ⟨d, hd⟩ := hp
  have index : 64 ≤ i / 64 ^ (n + 1) := by
    rw [Nat.le_div_iff_mul_le (span_pos _), ← pow_succ']
    exact le
  refine .exit (.bind (.demand hd) ?_)
  rw [if_pos (by show n + 1 ≠ 0; omega)]
  refine .bind (shiftRight_returns (show 6 * (n + 1) < 32 by omega)) ?_
  rw [two_pow_six, if_pos index]
  exact .pure _ _

/-- `vector_entry_get` with `create` makes the tables on the way to the entry. -/
lemma entryCreate_returns (env : Env) {l : Nat} (linked : Linked m.tables v) (hv : IsTable m.tables l v)
    (hp : IsTable m.tables n p) (level : n ≤ 4) (lt : i < 64 ^ (n + 1)) :
    ∃ tables' q j, Returns (vectorEntryGet env p i true) m (some (q, j)) { m with tables := tables' } ∧
      Linked tables' v ∧ Grown m.tables tables' ∧ Reaches tables' n p i q j := by
  induction n generalizing m p i with
  | zero =>
    obtain ⟨d, hd⟩ := hp
    exact ⟨m.tables, p, i, .exit (.bind (.demand hd) (.pure _ _)), linked, .refl _, ⟨d, hd⟩, lt, rfl, rfl⟩
  | succ n ih =>
    have index := index_lt lt
    by_cases zero : entries m.tables (n + 1) p (i / 64 ^ (n + 1)) = 0
    · obtain ⟨new, nz, free, alloc⟩ := vectorTableNew_returns env linked.finite n
      have linked' := attach_linked (j := i / 64 ^ (n + 1)) linked hp nz free hv
      have grown := attach_grown hp free zero
      have isNew : IsTable (attached m.tables new n p (i / 64 ^ (n + 1)) new) n new := attach_new
      have entry : entries (attached m.tables new n p (i / 64 ^ (n + 1)) new) (n + 1) p (i / 64 ^ (n + 1)) = new := by
        rw [attach_entries hp free, if_pos ⟨rfl, rfl, rfl⟩]
      obtain ⟨tables', q, j, run, linked'', grown', reaches⟩ :=
        ih (m := { m with tables := attached m.tables new n p (i / 64 ^ (n + 1)) new }) linked'
          (grown.isTable l v hv) isNew (by omega) (rest_lt i (n + 1))
      have next := load_returns (m := { m with tables := attached m.tables new n p (i / 64 ^ (n + 1)) new })
        (grown.isTable _ p hp) index
      rw [entry] at next
      have link : Returns (when (decide (entries m.tables (n + 1) p (i / 64 ^ (n + 1)) = 0)) do
          let new ← vectorTableNew env (n + 1 - 1)
          store p (i / 64 ^ (n + 1)) new) m ()
          { m with tables := attached m.tables new n p (i / 64 ^ (n + 1)) new } :=
        .when_pos zero (.bind alloc (store_returns (m := { m with tables := Function.update m.tables new _ })
          (hp.new free) index new))
      have step := step_returns env true hp (by omega) lt (by simp) link next
      have kept := grown'.kept n p (i / 64 ^ (n + 1)) (ne_of_eq_of_ne entry nz)
      rw [entry] at kept
      exact ⟨tables', q, j, .turn step run, linked'', grown.trans grown', kept ▸ nz, kept ▸ reaches⟩
    · have step := step_returns env true hp (by omega) lt (by simp) (.when_neg zero)
        (load_returns hp index)
      obtain ⟨tables', q, j, run, linked', grown, reaches⟩ :=
        ih linked hv (linked.child n p _ zero) (by omega) (rest_lt i (n + 1))
      have kept := grown.kept n p (i / 64 ^ (n + 1)) zero
      exact ⟨tables', q, j, .turn step run, linked', grown, kept ▸ zero, kept ▸ reaches⟩

/-- A turn of `vector_checksize` that puts a new table above the others. -/
lemma checksize_turn (env : Env) (root : IsTable m.tables n m.table) (level : n < 4) (more : 64 ^ (n + 1) < i)
    (alloc : Returns (vectorTableNew env (n + 1)) m q
      { m with tables := Function.update m.tables q (some ⟨n + 1, fun _ => 0⟩) }) :
    Returns (checksizeBody env i ()) m (.inl ()) ⟨attached m.tables q (n + 1) q 0 m.table, q⟩ := by
  obtain ⟨d, hd⟩ := root
  refine .bind (.asks _ _) (.bind (.demand hd) (.bind (shiftOne_returns (show 6 * (n + 1) < 31 by omega)) ?_))
  rw [two_pow_six, if_pos more]
  have link := store_returns (m := { m with tables := Function.update m.tables q _ }) (isTable_new m.tables q (n + 1))
    (show 0 < 64 by decide) m.table
  exact .bind alloc (.bind link (.bind (.update _ _) (.pure _ _)))

/-- The last turn. -/
lemma checksize_exit (env : Env) (root : IsTable m.tables n m.table) (level : n ≤ 4) (le : i ≤ 64 ^ (n + 1)) :
    Returns (checksizeBody env i ()) m (.inr ()) m := by
  obtain ⟨d, hd⟩ := root
  refine .bind (.asks _ _) (.bind (.demand hd) (.bind (shiftOne_returns (show 6 * (n + 1) < 31 by omega)) ?_))
  rw [two_pow_six, if_neg (Nat.not_lt.mpr le)]
  exact .pure _ _

end Returns

end Twcos.Vector
