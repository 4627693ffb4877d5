import Twcos.Machine.Basic

/-!
# What writes leave as it was

`Inside a n` are the `n` bytes from `a` on, `Apart` says that two such ranges have no byte in common. `Changes R` relates
memories which differ in bytes of `R` only; what lies outside is read as before.
-/

namespace Twcos.Machine

/-- One of the `n` bytes from `a` on. -/
def Inside (a : BitVec 32) (n : Nat) (x : BitVec 32) : Prop := (x - a).toNat < n

/-- The `n` bytes from `a` on and the `k` bytes from `b` on. -/
def Apart (a : BitVec 32) (n : Nat) (b : BitVec 32) (k : Nat) : Prop := n ≤ (b - a).toNat ∧ k ≤ (a - b).toNat

instance Inside.decidable (a : BitVec 32) (n : Nat) (x : BitVec 32) : Decidable (Inside a n x) :=
  Nat.decLt _ _

instance Apart.decidable (a : BitVec 32) (n : Nat) (b : BitVec 32) (k : Nat) : Decidable (Apart a n b k) :=
  inferInstanceAs (Decidable (_ ∧ _))

/-- Only bytes of `R` may differ. -/
def Changes (R : BitVec 32 → Prop) (m m' : Memory) : Prop := ∀ a, ¬R a → m' a = m a

/-- The memory with other words from an address on. -/
def storeWords : Memory → BitVec 32 → List (BitVec 32) → Memory
  | m, _, [] => m
  | m, a, x :: xs => storeWords (store m a x) (a + 4) xs

section Ranges
variable {a b x : BitVec 32} {n k i : Nat}

/-- Regions are apart both ways. -/
lemma Apart.symm (h : Apart a n b k) : Apart b k a n := ⟨h.2, h.1⟩

/-- A byte of one region is not in the other. -/
lemma Apart.not_inside (h : Apart a n b k) (hx : Inside a n x) : ¬Inside b k x := by
  intro hx'
  rw [Apart, BitVec.toNat_sub, BitVec.toNat_sub] at h
  rw [Inside, BitVec.toNat_sub] at hx hx'
  omega

/-- A part of a region is apart from what the region is apart from. -/
lemma Apart.mono {n' : Nat} (h : Apart a n b k) (le : n' ≤ n) : Apart a n' b k := ⟨Nat.le_trans le h.1, h.2⟩

/-- A longer region has all bytes of a shorter one. -/
lemma Inside.mono (h : Inside a n x) (le : n ≤ k) : Inside a k x := Nat.lt_of_lt_of_le h le

/-- Within a larger range. -/
lemma Inside.of_add (h : Inside (a + BitVec.ofNat 32 i) k x) (le : i + k ≤ n) (fits : n ≤ 2 ^ 32) : Inside a n x := by
  rw [Inside, BitVec.toNat_sub, BitVec.toNat_add, BitVec.toNat_ofNat] at h
  rw [Inside, BitVec.toNat_sub]
  omega

/-- A place in a range, from its start. -/
lemma sub_eq_add (le : k ≤ (x - a).toNat) : x - BitVec.ofNat 32 k = a + BitVec.ofNat 32 ((x - a).toNat - k) := by
  apply BitVec.eq_of_toNat_eq
  rw [BitVec.toNat_sub] at le
  rw [BitVec.toNat_sub, BitVec.toNat_add, BitVec.toNat_ofNat, BitVec.toNat_ofNat, BitVec.toNat_sub]
  omega

/-- Regions without a common byte are apart. -/
lemma apart_of (some : 0 < n ∧ 0 < k) (out : ∀ x, Inside a n x → ¬Inside b k x) : Apart a n b k := by
  have self : ∀ (c : BitVec 32) (l : Nat), 0 < l → Inside c l c := fun c l pos => by
    rw [Inside, BitVec.sub_self]
    exact pos
  exact ⟨Nat.le_of_not_lt fun lt => out b lt (self b k some.2), Nat.le_of_not_lt fun lt => out a (self a n some.1) lt⟩

/-- Two parts of a range, one behind the other. -/
lemma apart_add {j : Nat} (lt : i < j ∧ j < 2 ^ 32) (le : i + n ≤ j) (fits : j + k ≤ 2 ^ 32) :
    Apart (a + BitVec.ofNat 32 i) n (a + BitVec.ofNat 32 j) k := by
  rw [Apart, BitVec.toNat_sub, BitVec.toNat_sub, BitVec.toNat_add, BitVec.toNat_add, BitVec.toNat_ofNat,
    BitVec.toNat_ofNat]
  omega

end Ranges

section Changes
variable {R R' : BitVec 32 → Prop} {m m' m'' : Memory} {a x : BitVec 32} {xs : List (BitVec 32)}

/-- Memory that is the same has not changed. -/
lemma Changes.refl (R : BitVec 32 → Prop) (m : Memory) : Changes R m m := fun _ _ => rfl

/-- Two changes, one after the other. -/
lemma Changes.trans (h : Changes R m m') (h' : Changes R m' m'') : Changes R m m'' := fun a out =>
  (h' a out).trans (h a out)

/-- A larger region is changed as well. -/
lemma Changes.mono (h : Changes R m m') (sub : ∀ a, R a → R' a) : Changes R' m m' := fun a out =>
  h a fun mem => out (sub a mem)

/-- A store changes a word. -/
lemma changes_store (m : Memory) (a x : BitVec 32) : Changes (Inside a 4) m (store m a x) := fun _ out =>
  store_far (Nat.le_of_not_lt out)

/-- A word that is not in the region is the same. -/
lemma Changes.load (h : Changes R m m') (out : ∀ x, Inside a 4 x → ¬R x) : load m' a = load m a :=
  load_congr fun k lt => h _ (out _ (by
    rw [Inside, add_sub_self]
    omega))

/-- A list of words that is not in the region is the same. -/
lemma Changes.words (h : Changes R m m')
    (out : ∀ x, Inside a (4 * xs.length) x → ¬R x) : Words m' a xs ↔ Words m a xs :=
  words_congr fun k lt => h _ (out _ (by
    rw [Inside, add_sub_self]
    exact Nat.lt_of_le_of_lt (Nat.mod_le k (2 ^ 32)) lt))

/-- Storing words changes these words. -/
lemma changes_storeWords (m : Memory) (a : BitVec 32) (xs : List (BitVec 32)) (fits : 4 * xs.length ≤ 2 ^ 32) :
    Changes (Inside a (4 * xs.length)) m (storeWords m a xs) := by
  induction xs generalizing m a with
  | nil => exact Changes.refl _ m
  | cons x xs ih =>
    rw [List.length_cons] at fits ⊢
    have first := (changes_store m a x).mono fun b mem => mem.mono (k := 4 * (xs.length + 1)) (by omega)
    have rest := (ih (store m a x) (a + 4) (by omega)).mono fun b mem =>
      Inside.of_add (i := 4) (n := 4 * (xs.length + 1)) mem (by omega) fits
    exact first.trans rest

/-- The words that were stored are in memory. -/
lemma words_storeWords (m : Memory) (a : BitVec 32) (xs : List (BitVec 32)) (fits : 4 * xs.length ≤ 2 ^ 32) :
    Words (storeWords m a xs) a xs := by
  induction xs generalizing m a with
  | nil => trivial
  | cons x xs ih =>
    rw [List.length_cons] at fits
    refine ⟨?_, ih _ _ (by omega)⟩
    have rest := changes_storeWords (store m a x) (a + 4) xs (by omega)
    rw [storeWords, rest.load fun y mem mem' => ?_]
    · exact load_store
    · have apart : Apart (a + BitVec.ofNat 32 0) 4 (a + BitVec.ofNat 32 4) (4 * xs.length) :=
        apart_add (by omega) (by omega) (by omega)
      rw [BitVec.add_zero] at apart
      exact apart.not_inside mem mem'

/-- A loop that writes words of a range, each one from a word that the other turns do not write. -/
lemma foldl_words {turn : Memory → Nat → Memory} {r : BitVec 32 → BitVec 32} {s : Nat → BitVec 32} {n : Nat}
    {is : List Nat} (nodup : is.Nodup) (bound : ∀ i ∈ is, i < n) (fits : 4 * n ≤ 2 ^ 32)
    (keeps : ∀ m, ∀ i ∈ is, Changes (Inside (a + BitVec.ofNat 32 (4 * i)) 4) m (turn m i))
    (value : ∀ m, ∀ i ∈ is, Machine.load (turn m i) (a + BitVec.ofNat 32 (4 * i)) = r (Machine.load m (s i)))
    (other : ∀ i ∈ is, ∀ j ∈ is, i ≠ j → ∀ x, Inside (s i) 4 x → ¬Inside (a + BitVec.ofNat 32 (4 * j)) 4 x) (m : Memory) :
    Changes (Inside a (4 * n)) m (is.foldl turn m) ∧
      (∀ i ∈ is, Machine.load (is.foldl turn m) (a + BitVec.ofNat 32 (4 * i)) = r (Machine.load m (s i))) ∧
      ∀ i < n, i ∉ is →
        Machine.load (is.foldl turn m) (a + BitVec.ofNat 32 (4 * i)) = Machine.load m (a + BitVec.ofNat 32 (4 * i)) := by
  have apart : ∀ i j, i < n → j < n → i ≠ j →
      Apart (a + BitVec.ofNat 32 (4 * i)) 4 (a + BitVec.ofNat 32 (4 * j)) 4 := by
    intro i j hi hj ne
    rcases Nat.lt_or_gt_of_ne ne with lt | gt
    · exact apart_add (by omega) (by omega) (by omega)
    · exact (apart_add (by omega) (by omega) (by omega)).symm
  induction is generalizing m with
  | nil => exact ⟨Changes.refl _ m, fun i mem => absurd mem List.not_mem_nil, fun _ _ _ => rfl⟩
  | cons i is ih =>
    obtain ⟨new, nodup⟩ := List.nodup_cons.mp nodup
    obtain ⟨lt, bound⟩ := List.forall_mem_cons.mp bound
    have head := List.mem_cons_self (a := i) (l := is)
    obtain ⟨changes, values, others⟩ := ih nodup bound (fun m j mem => keeps m j (List.mem_cons_of_mem i mem))
      (fun m j mem => value m j (List.mem_cons_of_mem i mem))
      (fun j mem k mem' => other j (List.mem_cons_of_mem i mem) k (List.mem_cons_of_mem i mem')) (turn m i)
    refine ⟨((keeps m i head).mono fun x mem => mem.of_add (by omega) fits).trans changes, fun j mem => ?_,
      fun j hj out => ?_⟩
    · rcases List.mem_cons.mp mem with rfl | later
      · exact (others j lt new).trans (value m j head)
      · have ne : j ≠ i := fun e => new (e ▸ later)
        rw [List.foldl_cons, values j later, (keeps m i head).load (other j mem i head ne)]
    · obtain ⟨ne, out⟩ := List.ne_and_not_mem_of_not_mem_cons out
      rw [List.foldl_cons, others j hj out, (keeps m i head).load fun x => (apart j i hj lt ne).not_inside]

/-- Pushing writes to the stack below. -/
lemma Cpu.Uses.changes {k j : Nat} {s : Cpu} (h : Cpu.Uses a k m j s) (le : k < 2 ^ 32) :
    Changes (Inside (a - BitVec.ofNat 32 k) k) m s.mem := fun b out => h.mem b (by
  rw [Inside, BitVec.toNat_sub, BitVec.toNat_sub, BitVec.toNat_ofNat] at out
  rw [BitVec.toNat_sub]
  omega)

end Changes

end Twcos.Machine
