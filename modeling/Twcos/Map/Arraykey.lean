import Twcos.Assoc.Order
import Twcos.Map.Range

/-!
# Arrays of keys

The comparator of `libk/map.c` for keys that are arrays, which end in a zero, and the functions that make such arrays of up
to three keys. The arrays are in memory; what `malloc` returns is an argument.

`mapArraycmp_returns` says what the loop returns for two arrays, whatever their lengths: the comparison of the two lists of
keys in lexicographic order (`compareIn`). That is a total order, so that the laws need no induction of their own, and the
lists from `[k]` up to `[k + 1]` are those that start with `k`. A walk over that range is to be a scan for these
(`PrefixScan`); `mapArraycmp_scan_iff` says for which keys those of the maps are.

C → Lean naming: `map_arraycmp` → `mapArraycmp`, `map_arraykey1` → `mapArraykey1` and so on; `map_keycmp` is that of the
trees.
-/

namespace Twcos.Map
open Twcos.Prog Twcos.Tree Twcos.Bin Twcos.Assoc

/-- The words in memory, by address. -/
abbrev Words := BitVec 32 → BitVec 32

/-- A turn of the loop of `map_arraycmp`, and what it returns. -/
def arraycmpTurn (a1 a2 : BitVec 32) : Prog Empty Words ((BitVec 32 × BitVec 32) ⊕ Int) := do
  let k1 ← asks fun m => m a1
  let k2 ← asks fun m => m a2
  if k1 ≠ 0 ∧ k2 ≠ 0 ∧ k1 = k2 then return .inl (a1 + 4, a2 + 4)
  else return .inr (mapKeycmp k1.toNat k2.toNat)

def mapArraycmp (k1 k2 : BitVec 32) : Prog Empty Words Int := loop (fun a => arraycmpTurn a.1 a.2) (k1, k2)

/-- `key[0] = ...; key[1] = ...;` and so on, with a zero at the end. -/
def storeKeys (key : BitVec 32) : List (BitVec 32) → Words → Words
  | [], m => Function.update m key 0
  | k :: ks, m => storeKeys (key + 4) ks (Function.update m key k)

def mapArraykey1 (key k : BitVec 32) : Words → Words := storeKeys key [k]

def mapArraykey2 (key k1 k2 : BitVec 32) : Words → Words := storeKeys key [k1, k2]

def mapArraykey3 (key k1 k2 k3 : BitVec 32) : Words → Words := storeKeys key [k1, k2, k3]

/-- The array at an address, up to the zero. -/
def IsArray (m : Words) : BitVec 32 → List Nat → Prop
  | p, [] => m p = 0
  | p, k :: l => (m p ≠ 0 ∧ (m p).toNat = k) ∧ IsArray m (p + 4) l

/-! ### The loop -/

/-- Numbers compare by their order. -/
lemma mapKeycmp_compareIn (k1 k2 : Nat) : mapKeycmp k1 k2 = compareIn k1 k2 := rfl

section Loop
variable {m : Words} {p q : BitVec 32} {a b : List Nat}

/-- The zero at the end is below all keys. -/
lemma compareIn_nil_cons {l : Nat} (pos : 0 < l) : mapKeycmp 0 l = compareIn [] (l :: b) := by
  rw [mapKeycmp, compareIn, if_neg (Nat.not_lt_zero l), if_pos pos, if_neg (List.not_lt_nil _), if_pos (List.nil_lt_cons l b)]

/-- An array is greater than the empty one. -/
lemma compareIn_cons_nil {k : Nat} (pos : 0 < k) : mapKeycmp k 0 = compareIn (k :: a) [] := by
  rw [mapKeycmp, compareIn, if_pos pos, if_pos (List.nil_lt_cons k a)]

/-- A word that is not zero is positive. -/
lemma word_pos {w : BitVec 32} (ne : w ≠ 0) : 0 < w.toNat :=
  Nat.pos_of_ne_zero fun e => ne (BitVec.eq_of_toNat_eq e)

/-- The first unequal keys decide, or the end of one of the arrays. -/
lemma mapArraycmp_returns (ha : IsArray m p a) (hb : IsArray m q b) : Returns (mapArraycmp p q) m (compareIn a b) m := by
  have leaves {p q : BitVec 32} {c : Int} (stop : ¬(m p ≠ 0 ∧ m q ≠ 0 ∧ m p = m q))
      (result : mapKeycmp (m p).toNat (m q).toNat = c) : Returns (mapArraycmp p q) m c m := by
    refine .exit (.bind (.asks _ m) (.bind (.asks _ m) (.ite_neg stop ?_)))
    rw [result]
    exact .pure _ m
  induction a generalizing p q b with
  | nil =>
    have ha : m p = 0 := ha
    refine leaves (fun go => go.1 ha) ?_
    cases b with
    | nil => rw [ha, show m q = 0 from hb]; rfl
    | cons l b =>
      obtain ⟨⟨ne, rfl⟩, -⟩ := hb
      rw [ha]
      exact compareIn_nil_cons (word_pos ne)
  | cons k a ih =>
    obtain ⟨⟨ne, rfl⟩, rest⟩ := ha
    cases b with
    | nil =>
      have hb : m q = 0 := hb
      refine leaves (fun go => go.2.1 hb) ?_
      rw [hb]
      exact compareIn_cons_nil (word_pos ne)
    | cons l b =>
      obtain ⟨⟨ne', rfl⟩, rest'⟩ := hb
      by_cases same : m p = m q
      · rw [same, compareIn_cons_self]
        refine .turn (.bind (.asks _ m) (.bind (.asks _ m) (.ite_pos ⟨ne, ne', same⟩ (.pure _ m)))) (ih rest rest')
      · refine leaves (fun go => same go.2.2) ?_
        rw [compareIn_cons fun e => same (BitVec.eq_of_toNat_eq e), mapKeycmp_compareIn]

end Loop

/-! ### Making arrays -/

/-- What is stored from an address on is not before it. -/
lemma storeKeys_before {m : Words} {key q : BitVec 32} {ks : List (BitVec 32)}
    (before : ∀ i ≤ ks.length, key + BitVec.ofNat 32 (4 * i) ≠ q) : storeKeys key ks m q = m q := by
  induction ks generalizing key m with
  | nil =>
    have ne := before 0 (Nat.le_refl 0)
    exact Function.update_of_ne (by simpa using ne.symm) _ _
  | cons k ks ih =>
    rw [storeKeys, ih, Function.update_of_ne]
    · have ne := before 0 (Nat.zero_le _)
      simpa using ne.symm
    · intro i le
      have ne := before (i + 1) (Nat.succ_le_succ le)
      rwa [Nat.mul_succ, Nat.add_comm, BitVec.ofNat_add, ← BitVec.add_assoc] at ne

/-- A key of several words is an array that ends with a zero. -/
lemma storeKeys_isArray {m : Words} {key : BitVec 32} {ks : List (BitVec 32)} (nonzero : ∀ k ∈ ks, k ≠ 0)
    (fits : 4 * ks.length < 2 ^ 32) : IsArray (storeKeys key ks m) key (ks.map BitVec.toNat) := by
  induction ks generalizing key m with
  | nil => exact Function.update_self _ _ _
  | cons k ks ih =>
    rw [List.length_cons] at fits
    have first : storeKeys (key + 4) ks (Function.update m key k) key = k := by
      rw [storeKeys_before, Function.update_self]
      intro i le same
      have same := congrArg BitVec.toNat same
      have lt := key.isLt
      rw [BitVec.toNat_add, BitVec.toNat_add, BitVec.toNat_ofNat, show (4 : BitVec 32).toNat = 4 from rfl] at same
      omega
    refine ⟨⟨?_, ?_⟩, ih (fun k mem => nonzero k (List.mem_cons_of_mem _ mem)) (by omega)⟩
    · rw [storeKeys, first]
      exact nonzero k List.mem_cons_self
    · rw [storeKeys, first]

/-- A key of one word is an array that ends with a zero. -/
lemma mapArraykey1_isArray {m : Words} {key k : BitVec 32} (pos : 0 < k.toNat) :
    IsArray (mapArraykey1 key k m) key [k.toNat] := by
  refine storeKeys_isArray (fun l mem => ?_) (by rw [List.length_singleton]; decide)
  rw [List.mem_singleton.mp mem]
  rintro rfl
  exact Nat.lt_irrefl 0 pos

/-! ### Ranges -/

/-- Only the first key of a list matters against one that has a single key. -/
lemma lt_singleton {k l : Nat} {a : List Nat} : l :: a < [k] ↔ l < k := by
  rw [List.cons_lt_cons_iff, or_iff_left fun e => List.not_lt_nil a e.2]

/-- The lists from the one that has only a key up to the one that has only the next key. -/
lemma inRange_head {k : Nat} {a : List Nat} : InRange compareIn [k] [k + 1] a ↔ a.head? = some k := by
  rw [InRange, compareIn_nonpos, compareIn_pos, ← not_lt]
  cases a with
  | nil => exact iff_of_false (fun range => range.1 (List.nil_lt_cons k [])) (Option.some_ne_none k).symm
  | cons l a =>
    rw [lt_singleton, lt_singleton, List.head?_cons, Option.some_inj]
    omega

/-! ### Maps of arrays -/

/-- An array of keys in memory. -/
structure KeyArray (m : Words) where
  address : BitVec 32
  keys : List Nat
  isArray : IsArray m address keys

section KeyArray
variable {m : Words} {k : Nat}

/-- The order of the keys, which is what `map_arraycmp` returns for the addresses. -/
def KeyArray.comp (a b : KeyArray m) : Int := compareIn a.keys b.keys

/-- The laws are those of lists of keys. -/
lemma KeyArray.comp_preorder : SignPreorder (KeyArray.comp : KeyArray m → KeyArray m → Int) where
  flip a b := compareIn_signPreorder.flip a.keys b.keys
  trans a b c := compareIn_signPreorder.trans a.keys b.keys c.keys

/-- The walk ends, and calls the callback once for each binding whose array starts with the key and for no other, in the
    order of the arrays. -/
def PrefixScan {V ε σ : Type} (walk : Prog ε (σ × List (KeyArray m × V)) Unit) (s : σ) (k : Nat)
    (l : List (KeyArray m × V)) : Prop :=
  ∃ calls s', Emits walk s () calls s' ∧ Ordered KeyArray.comp calls ∧ ∀ b, b ∈ calls ↔ b ∈ l ∧ b.1.keys.head? = some k

/-- The keys that `tree_walk_range` is a scan for: some array starts with it, or all are before the one that has only this
    key. -/
def TreeScan {V : Type} (k : Nat) (l : List (KeyArray m × V)) : Prop :=
  (∃ b ∈ l, b.1.keys.head? = some k) ∨ ∀ b ∈ l, b.1.keys < [k]

/-- The keys that `arraymap_walk_range` is a scan for: the first array does not start with it; if it is the only one, it is
    not behind the one that has only this key. -/
def ArrayScan {V : Type} (k : Nat) : List (KeyArray m × V) → Prop
  | [] => False
  | [b] => b.1.keys ≤ [k]
  | b :: _ => b.1.keys.head? ≠ some k

variable {start stop a : KeyArray m}

/-- The arrays from the one that has only a key up to the one that has only the next key. -/
lemma KeyArray.inRange_iff (hs : start.keys = [k]) (hp : stop.keys = [k + 1]) :
    InRange KeyArray.comp start stop a ↔ a.keys.head? = some k := by
  rw [InRange, KeyArray.comp, KeyArray.comp, hs, hp]
  exact inRange_head

/-- A walk over the range is right if it is a scan. -/
lemma walks_iff_scan {V ε σ : Type} {walk : Prog ε (σ × List (KeyArray m × V)) Unit} {s : σ} {l : List (KeyArray m × V)}
    (hs : start.keys = [k]) (hp : stop.keys = [k + 1]) :
    Walks walk s KeyArray.comp start stop l ↔ PrefixScan walk s k l := by
  simp only [Walks, PrefixScan, KeyArray.inRange_iff hs hp]

/-- Where `tree_walk_range` is right. -/
lemma treeScan_iff {V : Type} {l : List (KeyArray m × V)} (hs : start.keys = [k]) (hp : stop.keys = [k + 1]) :
    TreeRange KeyArray.comp start stop l ↔ TreeScan k l := by
  simp only [TreeRange, TreeScan, KeyArray.inRange_iff hs hp, KeyArray.comp, compareIn_pos, hs]

/-- Where `arraymap_walk_range` is right, for a map that is not empty. -/
lemma arrayScan_iff {V : Type} {first : KeyArray m × V} {rest : List (KeyArray m × V)} (hs : start.keys = [k])
    (hp : stop.keys = [k + 1]) : ArrayRange KeyArray.comp start stop first rest ↔ ArrayScan k (first :: rest) := by
  rw [ArrayRange]
  cases rest with
  | nil =>
    have below : [k] < [k + 1] := lt_singleton.mpr (Nat.lt_succ_self k)
    rw [if_pos rfl, ArrayScan, KeyArray.comp, KeyArray.comp, hs, hp, ← Int.not_lt, ← Int.not_lt, compareIn_neg, compareIn_neg,
      not_lt, not_lt]
    exact ⟨fun le => le.1, fun le => ⟨le, le.trans below.le⟩⟩
  | cons b rest =>
    rw [if_neg (List.cons_ne_nil b rest), ArrayScan, KeyArray.inRange_iff hs hp]
    exact List.cons_ne_nil b rest

/-- `tree_walk_range` over the range. -/
lemma treeWalkRange_scan {V : Type} {mode : Treemode} {mem : Mem (KeyArray m) V} {u : Shape (KeyArray m) V}
    (hs : start.keys = [k]) (hp : stop.keys = [k + 1]) (links : Links mem u) (ordered : Ordered KeyArray.comp (bindings u)) :
    PrefixScan (treeWalkRange ⟨mode, KeyArray.comp⟩ start stop) mem k (bindings u) ↔ TreeScan k (bindings u) := by
  rw [← walks_iff_scan hs hp, ← treeScan_iff hs hp]
  exact treeRange_iff KeyArray.comp_preorder links ordered

/-- `arraymap_walk_range` over the range. -/
lemma arraymapWalkRange_scan {V : Type} {w : Arraymap.ArrayMap (KeyArray m) V} {l : List (KeyArray m × V)}
    (hs : start.keys = [k]) (hp : stop.keys = [k + 1]) (holds : Arraymap.Holds w l) (ordered : Ordered KeyArray.comp l) :
    PrefixScan (arraymapWalkRange KeyArray.comp start stop) w k l ↔ ArrayScan k l := by
  rw [← walks_iff_scan hs hp]
  cases l with
  | nil =>
    refine iff_of_false (arraymapWalkRange_empty holds fun a zero zero' => ?_) id
    rw [KeyArray.comp, compareIn_zero, hs] at zero
    rw [KeyArray.comp, compareIn_zero, hp, ← zero] at zero'
    exact absurd (List.cons.inj zero').1 (Nat.succ_ne_self k)
  | cons first rest =>
    rw [← arrayScan_iff hs hp]
    exact arrayRange_iff KeyArray.comp_preorder holds ordered

end KeyArray

/-- `map_arraycmp` returns for any two arrays, and what it returns is a total order of their keys. For a key that is neither
    0 nor the last one, the arrays from the one with this key up to the one with the next key are those that start with the
    key. The walk of a tree over this range is a scan for them exactly if `TreeScan`, that of an array map exactly if
    `ArrayScan`. -/
theorem mapArraycmp_scan_iff (m : Words) :
    (∀ a b : KeyArray m, Returns (mapArraycmp a.address b.address) m (a.comp b) m) ∧
    (∀ a b : KeyArray m, a.comp b < 0 ↔ 0 < b.comp a) ∧
    (∀ a b c : KeyArray m, a.comp b ≤ 0 → b.comp c ≤ 0 → a.comp c ≤ 0) ∧
    (∀ a b : KeyArray m, a.comp b = 0 ↔ a.keys = b.keys) ∧
    ∀ k : BitVec 32, 0 < k.toNat → k.toNat < 2 ^ 32 - 1 →
      (∀ key, IsArray (mapArraykey1 key k m) key [k.toNat] ∧ IsArray (mapArraykey1 key (k + 1) m) key [k.toNat + 1]) ∧
      ∀ start stop : KeyArray m, start.keys = [k.toNat] → stop.keys = [k.toNat + 1] →
        (∀ a : KeyArray m, start.comp a ≤ 0 ∧ a.comp stop < 0 ↔ a.keys.head? = some k.toNat) ∧
        (∀ {V : Type} (mode : Treemode) (mem : Mem (KeyArray m) V) (u : Shape (KeyArray m) V), Links mem u →
          Ordered KeyArray.comp (bindings u) →
          (PrefixScan (treeWalkRange ⟨mode, KeyArray.comp⟩ start stop) mem k.toNat (bindings u) ↔
            TreeScan k.toNat (bindings u))) ∧
        ∀ {V : Type} (w : Arraymap.ArrayMap (KeyArray m) V) (l : List (KeyArray m × V)), Arraymap.Holds w l →
          Ordered KeyArray.comp l →
          (PrefixScan (arraymapWalkRange KeyArray.comp start stop) w k.toNat l ↔ ArrayScan k.toNat l) := by
  refine ⟨fun a b => mapArraycmp_returns a.isArray b.isArray, KeyArray.comp_preorder.flip,
    KeyArray.comp_preorder.trans, fun a b => compareIn_zero,
    fun k pos below => ⟨fun key => ?_, fun start stop hs hp => ⟨fun a => ?_, ?_, ?_⟩⟩⟩
  · have next : (k + 1).toNat = k.toNat + 1 := by
      rw [BitVec.toNat_add, show (1 : BitVec 32).toNat = 1 from rfl]
      omega
    refine ⟨mapArraykey1_isArray pos, ?_⟩
    rw [← next]
    exact mapArraykey1_isArray (next ▸ Nat.succ_pos _)
  · rw [KeyArray.comp_preorder.flip a]
    exact KeyArray.inRange_iff hs hp
  · exact fun mode mem u links ordered => treeWalkRange_scan hs hp links ordered
  · exact fun w l holds ordered => arraymapWalkRange_scan hs hp holds ordered

/-- The arrays of 3, of 4, of 3 and 5, of 1, and of 5. -/
def someArrays : Words :=
  mapArraykey1 64 5 (mapArraykey1 48 1 (mapArraykey2 32 3 5 (mapArraykey1 16 4 (mapArraykey1 0 3 fun _ => 0))))

def arrayThree : KeyArray someArrays := ⟨0, [3], ⟨by decide, rfl⟩, rfl⟩

def arrayFour : KeyArray someArrays := ⟨16, [4], ⟨by decide, rfl⟩, rfl⟩

def arrayThreeFive : KeyArray someArrays := ⟨32, [3, 5], ⟨by decide, rfl⟩, ⟨by decide, rfl⟩, rfl⟩

def arrayOne : KeyArray someArrays := ⟨48, [1], ⟨by decide, rfl⟩, rfl⟩

def arrayFive : KeyArray someArrays := ⟨64, [5], ⟨by decide, rfl⟩, rfl⟩

/-- A node for each of two arrays, the second one to the right of the first. -/
def twoNodes (first second : KeyArray someArrays) : Mem (KeyArray someArrays) Nat where
  node p := if p = 1 then some ⟨first, 10, 2, 0, 0, 0, 2⟩ else if p = 2 then some ⟨second, 20, 1, 0, 1, 0, 0⟩ else none
  root := 1
  allocs := 2

def twoShape (first second : KeyArray someArrays) : Shape (KeyArray someArrays) Nat :=
  .node .nil ⟨1, first, 10, 0⟩ (.node .nil ⟨2, second, 20, 0⟩ .nil)

/-- The nodes are linked. -/
lemma links_twoNodes (first second : KeyArray someArrays) : Links (twoNodes first second) (twoShape first second) := by
  have stores : Stores (twoNodes first second) (twoShape first second) := by
    refine ⟨⟨⟨one_ne_zero, rfl, trivial, two_ne_zero, rfl, trivial, trivial⟩, ?_, fun p absent => ?_⟩, rfl⟩
    · simp [addrs, twoShape, cells]
    · have ne : ¬p = 1 ∧ ¬p = 2 := by simpa [addrs, twoShape, cells, eq_comm] using absent
      show (if p = 1 then _ else _) = _
      rw [if_neg ne.1, if_neg ne.2]
  exact ⟨_, stores, fun p n found => ⟨n, found, n.count, rfl, trivial⟩, fun p empty => empty, rfl, rfl⟩

/-- Two arrays in order. -/
lemma ordered_twoShape {first second : KeyArray someArrays} (lt : first.comp second < 0) :
    Ordered KeyArray.comp (bindings (twoShape first second)) :=
  List.pairwise_pair.mpr lt

/-- Both arrays that start with 3 are in the range. -/
theorem mapArraycmp_scan_three : Links (twoNodes arrayThree arrayThreeFive) (twoShape arrayThree arrayThreeFive) ∧
    Returns (mapArraycmp 0 32) someArrays (arrayThree.comp arrayThreeFive) someArrays ∧
    PrefixScan (treeWalkRange ⟨.default, KeyArray.comp⟩ arrayThree arrayFour) (twoNodes arrayThree arrayThreeFive) 3
      (bindings (twoShape arrayThree arrayThreeFive)) := by
  have links := links_twoNodes arrayThree arrayThreeFive
  obtain ⟨returns, -, -, -, ranges⟩ := mapArraycmp_scan_iff someArrays
  obtain ⟨-, range⟩ := ranges 3 (by decide) (by decide)
  obtain ⟨-, scan, -⟩ := range arrayThree arrayFour rfl rfl
  refine ⟨links, returns arrayThree arrayThreeFive, ?_⟩
  exact (scan .default _ _ links (ordered_twoShape (by decide))).mpr (.inl ⟨(arrayThree, 10), List.mem_cons_self, rfl⟩)

/-- No array starts with 3, and the walk comes to the one that starts with 5. -/
theorem mapArraycmp_scan_beyond : Links (twoNodes arrayOne arrayFive) (twoShape arrayOne arrayFive) ∧
    Ordered KeyArray.comp (bindings (twoShape arrayOne arrayFive)) ∧
    Returns (treeWalkRange ⟨.default, KeyArray.comp⟩ arrayThree arrayFour) (twoNodes arrayOne arrayFive, []) ()
      (twoNodes arrayOne arrayFive, [(arrayFive, 20)]) ∧
    ¬PrefixScan (treeWalkRange ⟨.default, KeyArray.comp⟩ arrayThree arrayFour) (twoNodes arrayOne arrayFive) 3
      (bindings (twoShape arrayOne arrayFive)) := by
  have walk : Returns (treeWalkRange ⟨.default, KeyArray.comp⟩ arrayThree arrayFour) (twoNodes arrayOne arrayFive, []) ()
      (twoNodes arrayOne arrayFive, [(arrayFive, 20)]) := .of_add 12 fun _ => rfl
  refine ⟨links_twoNodes arrayOne arrayFive, ordered_twoShape (by decide), walk, ?_⟩
  rintro ⟨calls, m', run, -, mem⟩
  have called : calls = [(arrayFive, 20)] := congrArg Prod.snd ((run []).unique walk).2
  have wrong := ((mem (arrayFive, 20)).mp (by rw [called]; exact List.mem_cons_self)).2
  exact absurd wrong (by decide)

end Twcos.Map
