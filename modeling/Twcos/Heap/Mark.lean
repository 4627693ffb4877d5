import Mathlib.Data.Finset.Prod
import Twcos.Dfs.Basic
import Twcos.Heap.Finalize

/-!
# Marking

Model of the recursive `slab_gc_mark` of `libk/slab.c` on a heap with slabs of any types. A slot is scanned
by the `mark` callback of its type, given here by the pointers that the callback passes on, or word by word
from the pointer that the slot was entered with. The scan can run over the end of the page into the header
of the next one, so a word is read when its turn comes, from the bitmaps as they are then.

`slabGcMark_reachable` is about heaps whose pointers are all to the first bytes of slots: marking is exact.
`slabGc_keeps` is about all heaps without callbacks: what is reachable is kept as long as every slot that is
entered through a pointer to its middle is scanned for all that its words point to.

C → Lean naming: `slab_gc_mark` → `slabGcMark`; `slabGc` is a whole collection, such as `thread_gc`.
-/

namespace Twcos.Heap
open Twcos.Prog Twcos.Dfs

/-- A heap with slabs of any types, and the bytes of memory. Its slabs are as `slab_new` lays them out for
    element sizes that fit, on different pages. -/
structure Arena extends Region where
  memory : Nat → BitVec 8
  top : nextalloc < 2 ^ 32
  page : ∀ slab ∈ slabs, slab.page % 4096 = 0 ∧ base ≤ slab.page ∧ slab.page + 4096 ≤ nextalloc
  pages : (slabs.map Slab.page).Nodup
  type : ∀ slab ∈ slabs, Fits slab.type ∧ slab.magic = slab.type.magic
  bits : ∀ slab ∈ slabs, ∀ i, slab.available.test i = true → i < slab.type.count

/-- The slabs of one type are a heap in every run of the allocator. -/
def Inv.toArena {stype : SlabType} {s : State} (h : Inv stype s) (fits : Fits stype)
    (memory : Nat → BitVec 8) : Arena where
  toRegion := s.toRegion
  memory := memory
  top := h.top
  page := fun _ hs => h.slabPage hs
  pages := (List.nodup_append.mp h.pages).2.1
  type := fun slab hs => by
    rw [(h.type slab hs).1]
    exact ⟨fits, (h.type slab hs).2⟩
  bits := fun slab hs i test => by
    rw [(h.type slab hs).1]
    exact ((h.bits slab hs i).mp test).1

/-- The byte at an address; the available bits are in memory too. -/
def Region.byteAt (r : Region) (memory : Nat → BitVec 8) (x : Nat) : BitVec 8 :=
  match r.slabs.find? fun slab =>
    slab.page + sizeofSlab ≤ x ∧ x < slab.page + sizeofSlab + 4 * slab.type.words with
  | some slab =>
    let k := x - (slab.page + sizeofSlab)
    (slab.available (k / 4) >>> (8 * (k % 4))).setWidth 8
  | none => memory x

/-- Four bytes as a word, the lowest first. -/
def word (byte : Nat → BitVec 8) (x : Nat) : Nat :=
  (byte x).toNat + 2 ^ 8 * (byte (x + 1)).toNat + 2 ^ 16 * (byte (x + 2)).toNat +
    2 ^ 24 * (byte (x + 3)).toNat

/-- The `mark` callbacks of the types: the pointers that are passed on. -/
abbrev Callbacks := SlabType → Option (Nat → List Nat)

/-- The pointers that `slab_gc_mark` goes on with from `root`, each read when its turn comes. -/
def pointers (memory : Nat → BitVec 8) (mark : Callbacks) (stype : SlabType) (root : Nat) :
    List (Region → Nat) :=
  match mark stype with
  | some callback => (callback root).map fun p _ => p
  | none => (List.range (stype.esize.toNat / 4)).map fun k r => word (r.byteAt memory) (root + 4 * k)

/-- The slot that a pointer is into is taken, if it is available. -/
def Region.enter (r : Region) (root : Nat) : Option (Slab × Region) :=
  match r.slabGet root with
  | none => none
  | some slab =>
    let i := slab.index root
    if slab.available.test i then
      some (slab, { r with slabs := updateAvailable r.slabs slab.page fun b => b.clear i })
    else none

/-- The body of `slab_gc_mark`, with `self` for its recursive calls. -/
def slabGcMarkBody (memory : Nat → BitVec 8) (mark : Callbacks) (self : Nat → Prog Empty Region Unit)
    (root : Nat) : Prog Empty Region Unit := do
  match ← asks fun r => r.enter root with
  | none => return ()
  | some (slab, r) =>
    update fun _ => r
    each (fun p => asks p >>= self) (pointers memory mark slab.type root)

def slabGcMark (memory : Nat → BitVec 8) (mark : Callbacks) : Nat → Prog Empty Region Unit :=
  recur (slabGcMarkBody memory mark)

/-- `slab_gc_begin`, and `slab_gc_mark` on every root. -/
def slabGcMarkAll (memory : Nat → BitVec 8) (mark : Callbacks) (roots : List Nat) :
    Prog Empty Region Unit := do
  update Region.slabGcBegin
  each (slabGcMark memory mark) roots

/-- A whole collection. -/
def slabGc (memory : Nat → BitVec 8) (mark : Callbacks) (finalize : SlabType → Bool) (roots : List Nat) :
    Prog Empty Region Unit := do
  slabGcMarkAll memory mark roots
  update fun r => (r.slabGcEnd finalize).2

/-- Whether the slot is available. -/
def Region.availableAt (r : Region) (page i : Nat) : Bool :=
  r.slabs.any fun slab => slab.page = page ∧ slab.available.test i

/-- The pointers that are marked when a slot is entered at its first byte. -/
def Arena.pointersOf (h : Arena) (mark : Callbacks) (slab : Slab) (i : Nat) : List Nat :=
  match mark slab.type with
  | some callback => callback (slab.slot i)
  | none =>
    (List.range (slab.type.esize.toNat / 4)).map fun k => word h.memory (slab.slot i + 4 * k)

/-- The slots that the roots lead to. -/
inductive Reachable (h : Arena) (mark : Callbacks) (roots : List Nat) : Slab → Nat → Prop where
  | root {p slab} :
    p ∈ roots →
    h.slabGet p = some slab →
    Reachable h mark roots slab (slab.index p)
  | pointer {slab i p slab'} :
    Reachable h mark roots slab i →
    p ∈ h.pointersOf mark slab i →
    h.slabGet p = some slab' →
    Reachable h mark roots slab' (slab'.index p)

/-- A pointer that is taken for one into a slab is to the first byte of a slot. -/
def Arena.AtSlot (h : Arena) (p : Nat) : Prop :=
  ∀ slab, h.slabGet p = some slab → ∃ i < slab.type.count, slab.slot i = p

/-- All roots and all pointers in slots are to the first bytes of slots. -/
structure Precise (h : Arena) (mark : Callbacks) (roots : List Nat) : Prop where
  roots : ∀ p ∈ roots, h.AtSlot p
  slots : ∀ slab ∈ h.slabs, ∀ i < slab.type.count, ∀ p ∈ h.pointersOf mark slab i, h.AtSlot p

/-! ### Where pointers lead -/

section Pointers
variable (h : Arena) {slab : Slab}

/-- The address is in the slot. -/
def Slab.Inside (slab : Slab) (i p : Nat) : Prop :=
  slab.slot i ≤ p ∧ p < slab.slot i + slab.type.esize.toNat

/-- Slabs are known by their pages. -/
lemma Arena.slab_unique {a b : Slab} (ha : a ∈ h.slabs) (hb : b ∈ h.slabs) (e : a.page = b.page) : a = b :=
  List.inj_on_of_nodup_map h.pages ha hb e

/-- `slab_get` finds the slab of a pointer into a slot, and the slot is computed from it. -/
lemma Arena.slabGet_inside (hs : slab ∈ h.slabs) {i p : Nat} (hi : i < slab.type.count)
    (hp : slab.Inside i p) : h.slabGet p = some slab ∧ slab.index p = i := by
  obtain ⟨fits, magic⟩ := h.type slab hs
  obtain ⟨aligned, base, top⟩ := h.page slab hs
  have top' := h.top
  obtain ⟨lo, hi'⟩ := slot_inside fits rfl (by omega) hi
  have slot := slot_eq fits rfl (by omega) hi
  have data := data_eq (rfl : slab.type = slab.type)
  obtain ⟨le, lt⟩ := hp
  constructor
  · have page : slab.page = pageAlign p := by
      rw [pageAlign]
      omega
    apply Region.slabGet_of_owns h.pages hs (by omega) page
    rw [Slab.owns, decide_eq_true_iff]
    refine ⟨?_, magic, by omega⟩
    rw [data, pageAlign]
    omega
  · rw [Slab.index, data]
    apply Nat.div_eq_of_lt_le
    · rw [Nat.mul_comm i]
      omega
    · rw [Nat.add_mul, Nat.one_mul, Nat.mul_comm i]
      omega

/-- A pointer to the first byte of a slot. -/
lemma Arena.slabGet_slot (hs : slab ∈ h.slabs) {i : Nat} (hi : i < slab.type.count) :
    h.slabGet (slab.slot i) = some slab ∧ slab.index (slab.slot i) = i := by
  apply h.slabGet_inside hs hi
  have := (h.type slab hs).1.1
  exact ⟨Nat.le_refl _, by omega⟩

/-- There are at most as many slots as bytes in a page. -/
lemma Fits.count_le {stype : SlabType} (fits : Fits stype) : stype.count < 4096 := by
  obtain ⟨h0, fits⟩ := fits
  have le : stype.count ≤ stype.esize.toNat * stype.count := Nat.le_mul_of_pos_left _ h0
  rw [sizeofSlab] at fits
  omega

end Pointers

/-! ### The marker -/

section Marker
variable (h : Arena) (mark : Callbacks)

/-- In the middle of marking, with the available bits `g`. -/
def Arena.marking (g : Slab → Bitmap) : Region :=
  ⟨h.base, h.nextalloc, h.slabs.map fun x => x.during (g x)⟩

/-- Only the available bits have changed since `slab_gc_begin`. -/
def Arena.During (r : Region) : Prop :=
  ∃ g : Slab → Bitmap, r = h.marking g ∧ ∀ x ∈ h.slabs, ∀ i, (g x).test i = true → i < x.type.count

/-- The available slots. -/
def Arena.free (r : Region) : Finset (Nat × Nat) :=
  ((h.slabs.map Slab.page).toFinset ×ˢ Finset.range 4096).filter fun n => r.availableAt n.1 n.2

/-- The page and the number of the slot that a pointer is into. -/
def Arena.node (p : Nat) : Option (Nat × Nat) := (h.slabGet p).map fun slab => (slab.page, slab.index p)

/-- The pointers that marking goes on with from a pointer into a slot. -/
def Arena.scan (p : Nat) : List (Region → Nat) :=
  match h.slabGet p with
  | none => []
  | some slab => pointers h.memory mark slab.type p

variable {h}

/-- Whether a slot is available during a collection. -/
lemma availableAt_marking {g : Slab → Bitmap} {slab : Slab} (hs : slab ∈ h.slabs) {i : Nat} :
    (h.marking g).availableAt slab.page i = (g slab).test i := by
  rw [Region.availableAt, Bool.eq_iff_iff, List.any_eq_true]
  constructor
  · rintro ⟨x, hx, test⟩
    obtain ⟨y, hy, rfl⟩ := List.mem_map.mp hx
    rw [decide_eq_true_iff] at test
    cases h.slab_unique hy hs test.1
    exact test.2
  · intro test
    exact ⟨slab.during (g slab), List.mem_map_of_mem hs, decide_eq_true ⟨rfl, test⟩⟩

/-- The nodes that are still free are those whose slots are available. -/
lemma Arena.During.mem_free {r : Region} (hr : h.During r) {slab : Slab} (hs : slab ∈ h.slabs) {i : Nat} :
    (slab.page, i) ∈ h.free r ↔ r.availableAt slab.page i = true := by
  rw [Arena.free, Finset.mem_filter, Finset.mem_product, List.mem_toFinset, Finset.mem_range]
  refine ⟨And.right, fun test => ⟨⟨List.mem_map_of_mem hs, ?_⟩, test⟩⟩
  obtain ⟨g, rfl, bits⟩ := hr
  rw [availableAt_marking hs] at test
  have := bits slab hs i test
  have := (h.type slab hs).1.count_le
  show i < 4096
  omega

/-- A node is one of a slab. -/
lemma mem_free_page {r : Region} {n : Nat × Nat} (hn : n ∈ h.free r) :
    ∃ slab ∈ h.slabs, slab.page = n.1 := by
  rw [Arena.free, Finset.mem_filter, Finset.mem_product, List.mem_toFinset] at hn
  exact List.mem_map.mp hn.1.1

/-- The start of a collection. -/
lemma during_begin : h.During h.slabGcBegin := by
  refine ⟨fun x => allAvailable x.type x.available, rfl, fun x hx i test => ?_⟩
  by_cases used : i / 32 < x.type.used
  · rw [test_allAvailable used, decide_eq_true_iff] at test
    exact test
  · have word : allAvailable x.type x.available (i / 32) = x.available (i / 32) := if_neg used
    apply h.bits x hx
    rw [Bitmap.test_eq, ← word, ← Bitmap.test_eq]
    exact test

/-- At first all slots are available. -/
lemma mem_free_begin {slab : Slab} (hs : slab ∈ h.slabs) {i : Nat} (hi : i < slab.type.count) :
    (slab.page, i) ∈ h.free h.slabGcBegin := by
  rw [during_begin.mem_free hs]
  have same := availableAt_marking (g := fun x => allAvailable x.type x.available) hs (i := i)
  refine same.trans ?_
  rw [test_allAvailable (used_spec hi)]
  exact decide_eq_true hi

/-- The slab of a pointer during a collection. -/
lemma marking_slabGet (g : Slab → Bitmap) (p : Nat) :
    (h.marking g).slabGet p = (h.slabGet p).map fun x => x.during (g x) :=
  Region.slabGet_map h.toRegion (g := fun x => x.during (g x)) (fun _ => ⟨rfl, rfl, rfl⟩) p

/-- Entering takes a slot that is available, and changes nothing else. -/
lemma enter_marking {g : Slab → Bitmap} {p : Nat} :
    (h.marking g).enter p = (h.slabGet p).bind fun x =>
      if (g x).test (x.index p) then
        some (x.during (g x), h.marking fun y =>
          if y.page = x.page then (g y).clear (x.index p) else g y)
      else none := by
  rw [Region.enter, marking_slabGet]
  cases h.slabGet p with
  | none => rfl
  | some x =>
    show (if (g x).test (x.index p) then some (x.during (g x), { h.marking g with
      slabs := updateAvailable (h.marking g).slabs x.page fun b => b.clear (x.index p) }) else none) = _
    rw [Arena.marking, updateAvailable_during]
    rfl

/-- Entering a slot takes its node away. -/
lemma enter_some {r r' : Region} {p : Nat} {slab : Slab} (hr : h.During r)
    (he : r.enter p = some (slab, r')) :
    h.During r' ∧ (∃ x, h.slabGet p = some x ∧ x.type = slab.type) ∧
      ∃ n ∈ h.free r, h.node p = some n ∧ h.free r' = (h.free r).erase n := by
  have hr0 := hr
  obtain ⟨g, rfl, bits⟩ := hr
  rw [enter_marking] at he
  obtain ⟨x, found, he⟩ := Option.bind_eq_some_iff.mp he
  obtain ⟨hx, -⟩ := Region.slabGet_some found
  split at he
  · next test =>
    cases he
    have bit : ∀ y i, (if y.page = x.page then (g y).clear (x.index p) else g y).test i = true ↔
        (y.page, i) ≠ (x.page, x.index p) ∧ (g y).test i = true := by
      intro y i
      split
      · next page =>
        rw [Bitmap.test_clear, Bool.and_eq_true, Bool.not_eq_true', decide_eq_false_iff_not, page]
        simp only [ne_eq, Prod.mk.injEq, true_and]
      · next page => simp [page]
    have hr' : h.During (h.marking fun y => if y.page = x.page then (g y).clear (x.index p) else g y) :=
      ⟨_, rfl, fun y hy i test => bits y hy i ((bit y i).mp test).2⟩
    refine ⟨hr', ⟨x, found, rfl⟩, (x.page, x.index p), ?_, ?_, ?_⟩
    · rw [hr0.mem_free hx, availableAt_marking hx]
      exact test
    · rw [Arena.node, found, Option.map_some]
    · ext ⟨page, i⟩
      rw [Finset.mem_erase]
      constructor
      · intro mem
        obtain ⟨y, hy, rfl⟩ := mem_free_page mem
        rw [hr'.mem_free hy, availableAt_marking hy, bit] at mem
        rw [hr0.mem_free hy, availableAt_marking hy]
        exact mem
      · intro mem
        obtain ⟨y, hy, rfl⟩ := mem_free_page mem.2
        rw [hr0.mem_free hy, availableAt_marking hy] at mem
        rw [hr'.mem_free hy, availableAt_marking hy, bit]
        exact mem
  · cases he

/-- A pointer into a slot that is taken is not entered. -/
lemma enter_none {r : Region} {p : Nat} {n : Nat × Nat} (hr : h.During r) (he : r.enter p = none)
    (hn : h.node p = some n) : n ∉ h.free r := by
  have hr0 := hr
  obtain ⟨g, rfl, -⟩ := hr
  obtain ⟨x, found, rfl⟩ := Option.map_eq_some_iff.mp hn
  obtain ⟨hx, -⟩ := Region.slabGet_some found
  rw [enter_marking, found, Option.bind_some] at he
  split at he
  · cases he
  · next test =>
    rw [hr0.mem_free hx, availableAt_marking hx]
    exact test

variable (h)

/-- `slab_gc_mark` as a marker. -/
def Arena.marker : Marker Region Nat (Nat × Nat) where
  enter := fun r p => (r.enter p).map Prod.snd
  scan := h.scan mark
  node := h.node
  free := h.free
  Inv := h.During
  enter_some := by
    intro r p r' hr he
    obtain ⟨⟨slab, r''⟩, entered, rfl⟩ := Option.map_eq_some_iff.mp he
    obtain ⟨hr', -, rest⟩ := enter_some hr entered
    exact ⟨hr', rest⟩
  enter_none := by
    intro r p n hr he hn
    rw [Option.map_eq_none_iff] at he
    exact enter_none hr he hn

variable {h mark}

/-- What a turn of the marking does depends on what it calls in turn. -/
lemma slabGcMarkBody_local (memory : Nat → BitVec 8) (root : Nat) :
    Local fun self => slabGcMarkBody memory mark self root := by
  apply Local.bind (.const _)
  intro r
  cases r with
  | none => exact .const _
  | some r => exact .bind (.const _) fun _ => .each (fun p => .bind (.const _) fun a => .self a) _

/-- The code goes the way of the marker. -/
lemma slabGcMark_returns {fs : List (Region → Nat)} {r r' : Region} {es : List (Region × Nat)}
    (hr : h.During r) (hm : Marks (h.marker mark) r fs es r') :
    Returns (each (fun f => asks f >>= slabGcMark h.memory mark) fs) r () r' := by
  refine hm.returns ?_ ?_ hr
  · intro r p _ he
    change (r.enter p).map Prod.snd = none at he
    rw [Option.map_eq_none_iff] at he
    apply Returns.call (slabGcMarkBody_local _ p)
    apply Returns.bind (.asks _ r)
    rw [he]
    exact .pure () r
  · intro r p r1 r2 hr he hrest
    change (r.enter p).map Prod.snd = some r1 at he
    obtain ⟨⟨slab, r''⟩, entered, rfl⟩ := Option.map_eq_some_iff.mp he
    obtain ⟨-, ⟨x, found, type⟩, -⟩ := enter_some hr entered
    have scan : (h.marker mark).scan p = pointers h.memory mark slab.type p := by
      show h.scan mark p = _
      rw [Arena.scan, found, ← type]
    rw [scan] at hrest
    apply Returns.call (slabGcMarkBody_local _ p)
    apply Returns.bind (.asks _ r)
    rw [entered]
    exact .bind (.update _ r) hrest

/-- Marking all roots ends. -/
lemma exists_marks (h : Arena) (mark : Callbacks) (roots : List Nat) :
    ∃ es r, Marks (h.marker mark) h.slabGcBegin (roots.map fun p _ => p) es r ∧
      Returns (slabGcMarkAll h.memory mark roots) h.toRegion () r := by
  obtain ⟨es, r, hm⟩ := Marks.exists (m := h.marker mark) during_begin (roots.map fun p _ => p)
  refine ⟨es, r, hm, .bind (.update _ _) ?_⟩
  have run := slabGcMark_returns during_begin hm
  rw [each_asks] at run
  exact run

/-! ### The words of a slot -/

/-- Behind the bitmaps, marking does not change the bytes of a slab. -/
lemma Arena.During.byteAt {r : Region} (hr : h.During r) {slab : Slab} (hs : slab ∈ h.slabs) {x : Nat}
    (lo : slab.data ≤ x) (hi : x < slab.page + 4096) : r.byteAt h.memory x = h.memory x := by
  obtain ⟨g, rfl, -⟩ := hr
  have none : (h.marking g).slabs.find? (fun y =>
      y.page + sizeofSlab ≤ x ∧ x < y.page + sizeofSlab + 4 * y.type.words) = none := by
    rw [List.find?_eq_none]
    intro y hy inside
    obtain ⟨z, hz, rfl⟩ := List.mem_map.mp hy
    rw [decide_eq_true_iff] at inside
    have inside : z.page + sizeofSlab ≤ x ∧ x < z.page + sizeofSlab + 4 * z.type.words := inside
    obtain ⟨aligned, -, -⟩ := h.page slab hs
    obtain ⟨aligned', -, -⟩ := h.page z hz
    have fits := (h.type z hz).1.2
    have data := data_eq (rfl : slab.type = slab.type)
    have same : z.page = slab.page := by omega
    cases h.slab_unique hz hs same
    omega
  rw [Region.byteAt, none]

/-- The words of slots do not change during a collection. -/
lemma Arena.During.word {r : Region} (hr : h.During r) {slab : Slab} (hs : slab ∈ h.slabs) {x : Nat}
    (lo : slab.data ≤ x) (hi : x + 4 ≤ slab.page + 4096) :
    word (r.byteAt h.memory) x = word h.memory x := by
  rw [Heap.word, Heap.word, hr.byteAt hs lo (by omega), hr.byteAt hs (by omega) (by omega),
    hr.byteAt hs (by omega) (by omega), hr.byteAt hs (by omega) (by omega)]

/-- A word of a slot. -/
lemma Arena.During.slot_word {r : Region} (hr : h.During r) {slab : Slab} (hs : slab ∈ h.slabs) {i k : Nat}
    (hi : i < slab.type.count) (hk : k < slab.type.esize.toNat / 4) :
    Heap.word (r.byteAt h.memory) (slab.slot i + 4 * k) = Heap.word h.memory (slab.slot i + 4 * k) := by
  obtain ⟨fits, -⟩ := h.type slab hs
  obtain ⟨-, -, top⟩ := h.page slab hs
  have top' := h.top
  obtain ⟨lo, hi'⟩ := slot_inside fits rfl (by omega) hi
  have data := data_eq (rfl : slab.type = slab.type)
  exact hr.word hs (by omega) (by omega)

/-- The pointers read from the first byte of a slot on are those of the slot. -/
lemma scan_slot {slab : Slab} (hs : slab ∈ h.slabs) {i : Nat} (hi : i < slab.type.count) {f : Region → Nat}
    (hf : f ∈ h.scan mark (slab.slot i)) :
    ∃ p ∈ h.pointersOf mark slab i, ∀ r, h.During r → f r = p := by
  rw [Arena.scan, (h.slabGet_slot hs hi).1] at hf
  rw [Arena.pointersOf]
  dsimp only [pointers] at hf
  cases he : mark slab.type with
  | some callback =>
    rw [he] at hf
    obtain ⟨p, hp, rfl⟩ := List.mem_map.mp hf
    exact ⟨p, hp, fun _ _ => rfl⟩
  | none =>
    rw [he] at hf
    obtain ⟨k, hk, rfl⟩ := List.mem_map.mp hf
    exact ⟨_, List.mem_map_of_mem hk, fun r hr => hr.slot_word hs hi (List.mem_range.mp hk)⟩

/-- The pointers of a slot are among what is scanned. -/
lemma mem_scan_slot {slab : Slab} (hs : slab ∈ h.slabs) {i : Nat} (hi : i < slab.type.count) {p : Nat}
    (hp : p ∈ h.pointersOf mark slab i) :
    ∃ f ∈ h.scan mark (slab.slot i), ∀ r, h.During r → f r = p := by
  rw [Arena.pointersOf] at hp
  rw [Arena.scan, (h.slabGet_slot hs hi).1]
  dsimp only [pointers]
  cases he : mark slab.type with
  | some callback =>
    rw [he] at hp
    exact ⟨_, List.mem_map_of_mem hp, fun _ _ => rfl⟩
  | none =>
    rw [he] at hp
    obtain ⟨k, hk, rfl⟩ := List.mem_map.mp hp
    exact ⟨_, List.mem_map_of_mem hk, fun r hr => hr.slot_word hs hi (List.mem_range.mp hk)⟩

/-! ### Exact marking -/

variable {roots : List Nat} {es : List (Region × Nat)} {r : Region}

/-- The node of a pointer to a slot. -/
lemma Arena.AtSlot.node {p : Nat} (hp : h.AtSlot p) {n : Nat × Nat} (hn : h.node p = some n) :
    ∃ slab ∈ h.slabs, h.slabGet p = some slab ∧ n = (slab.page, slab.index p) ∧
      slab.index p < slab.type.count ∧ slab.slot (slab.index p) = p := by
  obtain ⟨slab, found, rfl⟩ := Option.map_eq_some_iff.mp hn
  obtain ⟨hs, -⟩ := Region.slabGet_some found
  obtain ⟨i, hi, slot⟩ := hp slab found
  have index : slab.index p = i := by
    rw [← slot]
    exact (h.slabGet_slot hs hi).2
  refine ⟨slab, hs, found, rfl, ?_, ?_⟩
  · rw [index]
    exact hi
  · rw [index]
    exact slot

/-- All that marking comes by are pointers to reachable slots. -/
lemma Precise.found (precise : Precise h mark roots) {p : Nat}
    (hp : Found (h.marker mark) (roots.map fun p _ => p) p) :
    h.AtSlot p ∧ ∀ slab, h.slabGet p = some slab → Reachable h mark roots slab (slab.index p) := by
  induction hp with
  | start hf hr =>
    obtain ⟨p, hp, rfl⟩ := List.mem_map.mp hf
    exact ⟨precise.roots p hp, fun slab found => .root hp found⟩
  | @scan q n f r _ hn hf hr ih =>
    obtain ⟨atSlot, reach⟩ := ih
    obtain ⟨slab, hs, found, -, hi, slot⟩ := atSlot.node hn
    have hf : f ∈ h.scan mark (slab.slot (slab.index q)) := by
      rw [slot]
      exact hf
    obtain ⟨p, hp, fixed⟩ := scan_slot hs hi hf
    rw [fixed r hr]
    exact ⟨precise.slots slab hs _ hi p hp, fun slab' found' => .pointer (reach slab found) hp found'⟩

/-- What is reachable is a slot. -/
lemma Precise.reachable (precise : Precise h mark roots) {slab : Slab} {i : Nat}
    (hr : Reachable h mark roots slab i) :
    slab ∈ h.slabs ∧ i < slab.type.count := by
  have at_slot : ∀ {p x}, h.AtSlot p → h.slabGet p = some x → x ∈ h.slabs ∧ x.index p < x.type.count := by
    intro p x hp found
    have hn : h.node p = some (x.page, x.index p) := by
      rw [Arena.node, found, Option.map_some]
    obtain ⟨y, hy, found', -, hi, -⟩ := hp.node hn
    rw [found] at found'
    cases found'
    exact ⟨hy, hi⟩
  induction hr with
  | root hp found => exact at_slot (precise.roots _ hp) found
  | pointer _ hp found ih => exact at_slot (precise.slots _ ih.1 _ ih.2 _ hp) found

/-- Every reachable slot is taken in the end. -/
lemma Precise.taken (precise : Precise h mark roots)
    (hm : Marks (h.marker mark) h.slabGcBegin (roots.map fun p _ => p) es r) {slab : Slab} {i : Nat}
    (hr : Reachable h mark roots slab i) : (slab.page, i) ∉ h.free r := by
  have node : ∀ {p x}, h.slabGet p = some x → h.node p = some (x.page, x.index p) := by
    intro p x found
    rw [Arena.node, found, Option.map_some]
  induction hr with
  | root hp found =>
    exact hm.start during_begin (List.mem_map_of_mem hp) (fun _ _ => rfl) (node found)
  | @pointer slab i p slab' hr hp found ih =>
    obtain ⟨hs, hi⟩ := precise.reachable hr
    -- the slot was entered, and it can only have been entered at its first byte
    obtain ⟨⟨t, q⟩, hc, hq⟩ := hm.taken during_begin (mem_free_begin hs hi) ih
    obtain ⟨x, hx, found', e, hi', slot⟩ := (precise.found (hm.found during_begin hc)).1.node hq
    obtain ⟨page, index⟩ := Prod.ext_iff.mp e
    cases h.slab_unique hs hx page
    have slot : slab.slot i = q := by
      rw [show i = slab.index q from index]
      exact slot
    obtain ⟨f, hf, fixed⟩ := mem_scan_slot hs hi hp
    rw [slot] at hf
    exact (hm.call during_begin hc).2.2.2 f hf p _ fixed (node found)

/-- The available bits in the end. -/
lemma Precise.bits (precise : Precise h mark roots) {g : Slab → Bitmap}
    (hm : Marks (h.marker mark) h.slabGcBegin (roots.map fun p _ => p) es (h.marking g)) {slab : Slab}
    (hs : slab ∈ h.slabs) (i : Nat) :
    (g slab).test i = true ↔ i < slab.type.count ∧ ¬Reachable h mark roots slab i := by
  have hr : h.During (h.marking g) := hm.inv during_begin
  have free : (slab.page, i) ∈ h.free (h.marking g) ↔ (g slab).test i = true := by
    rw [hr.mem_free hs, availableAt_marking hs]
  rw [← free]
  constructor
  · intro mem
    refine ⟨?_, fun reach => precise.taken hm reach mem⟩
    obtain ⟨g', e, bits⟩ := hr
    apply bits slab hs
    rw [← availableAt_marking (h := h) hs, ← e, availableAt_marking hs, ← free]
    exact mem
  · intro ⟨hi, unreach⟩
    by_contra gone
    obtain ⟨⟨t, p⟩, hc, hn⟩ := hm.taken during_begin (mem_free_begin hs hi) gone
    obtain ⟨atSlot, reach⟩ := precise.found (hm.found during_begin hc)
    obtain ⟨x, hx, found, e, -, -⟩ := atSlot.node hn
    obtain ⟨page, index⟩ := Prod.ext_iff.mp e
    cases h.slab_unique hs hx page
    apply unreach
    rw [show i = slab.index p from index]
    exact reach slab found

/-- More roots reach no less. -/
lemma Reachable.of_subset {roots' : List Nat} (sub : roots ⊆ roots') {slab : Slab} {i : Nat}
    (hr : Reachable h mark roots slab i) : Reachable h mark roots' slab i := by
  induction hr with
  | root hp found => exact .root (sub hp) found
  | pointer _ hp found ih => exact .pointer ih hp found

end Marker

/-- A heap of one slab with all slots allocated. -/
def oneSlab (stype : SlabType) (fits : Fits stype) (memory : Nat → BitVec 8) : Arena where
  base := 0xc0400000
  nextalloc := 0xc0401000
  slabs := [{ slabNew stype 0xc0400000 with available := fun _ => 0 }]
  memory := memory
  top := by decide
  page := by
    intro slab hs
    rw [List.mem_singleton.mp hs]
    exact ⟨show 0xc0400000 % 4096 = 0 by decide, Nat.le_refl _, Nat.le_refl _⟩
  pages := List.nodup_singleton _
  type := by
    intro slab hs
    rw [List.mem_singleton.mp hs]
    exact ⟨fits, rfl⟩
  bits := by
    intro slab hs i test
    rw [List.mem_singleton.mp hs, Bitmap.test_eq, BitVec.ofNat_eq_ofNat, BitVec.getLsbD_zero] at test
    cases test

/-- When all pointers are to the first bytes of slots, marking ends with exactly the slots taken that the
    roots lead to, for the roots in any order. -/
theorem slabGcMark_reachable (h : Arena) (mark : Callbacks) (roots : List Nat)
    (precise : Precise h mark roots) :
    ∃ r, (∀ roots', roots'.Perm roots →
        Returns (slabGcMarkAll h.memory mark roots') h.toRegion () r) ∧
      ∀ slab ∈ h.slabs, ∀ i < slab.type.count,
        (r.availableAt slab.page i = false ↔ Reachable h mark roots slab i) := by
  obtain ⟨es, r, hm, -⟩ := exists_marks h mark roots
  have hr : h.During r := hm.inv during_begin
  obtain ⟨g, rfl, -⟩ := hr
  refine ⟨h.marking g, fun roots' perm => ?_, fun slab hs i hi => ?_⟩
  · have precise' : Precise h mark roots' :=
      ⟨fun p hp => precise.roots p (perm.mem_iff.mp hp), precise.slots⟩
    obtain ⟨es', r', hm', run⟩ := exists_marks h mark roots'
    have hr' : h.During r' := hm'.inv during_begin
    obtain ⟨g', rfl, -⟩ := hr'
    have same : h.marking g' = h.marking g := by
      rw [Arena.marking, Arena.marking]
      congr 1
      apply List.map_congr_left
      intro x hx
      congr 1
      apply Bitmap.ext_test
      intro i
      rw [Bool.eq_iff_iff, precise'.bits hm' hx, precise.bits hm hx]
      refine and_congr_right fun _ => not_congr ⟨fun hr => ?_, fun hr => ?_⟩
      · exact hr.of_subset perm.subset
      · exact hr.of_subset perm.symm.subset
    rw [same] at run
    exact run
  · rw [availableAt_marking hs, ← Bool.not_eq_true, precise.bits hm hs]
    simp [hi]

/-- Two slots whose callback leads from each to the other. -/
theorem slabGcMark_reachable_pair :
    let fits : Fits ⟨0x1000, 1536⟩ := fits_of_lt (by decide) (by decide)
    let h := oneSlab ⟨0x1000, 1536⟩ fits fun _ => 0
    let mark : Callbacks := fun _ => some fun p => if p = 0xc0400024 then [0xc0400624] else [0xc0400024]
    Precise h mark [0xc0400624] ∧ ∃ r,
      (∀ roots', roots'.Perm [0xc0400624] → Returns (slabGcMarkAll h.memory mark roots') h.toRegion () r) ∧
      ∀ slab ∈ h.slabs, ∀ i < slab.type.count,
        (r.availableAt slab.page i = false ↔ Reachable h mark [0xc0400624] slab i) := by
  intro fits h mark
  have hs : ∀ {slab}, slab ∈ h.slabs → slab = { slabNew ⟨0x1000, 1536⟩ 0xc0400000 with
      available := fun _ => 0 } := fun hs => List.mem_singleton.mp hs
  have first : h.AtSlot 0xc0400024 := by
    intro slab found
    rw [hs (Region.slabGet_some found).1]
    exact ⟨0, by decide, by decide⟩
  have second : h.AtSlot 0xc0400624 := by
    intro slab found
    rw [hs (Region.slabGet_some found).1]
    exact ⟨1, by decide, by decide⟩
  have precise : Precise h mark [0xc0400624] := by
    constructor
    · intro p hp
      rw [List.mem_singleton.mp hp]
      exact second
    · intro slab _ i _ p hp
      change p ∈ (if slab.slot i = 0xc0400024 then [0xc0400624] else [0xc0400024]) at hp
      split at hp
      · rw [List.mem_singleton.mp hp]
        exact second
      · rw [List.mem_singleton.mp hp]
        exact first
  exact ⟨precise, slabGcMark_reachable h mark [0xc0400624] precise⟩

/-! ### Pointers into the middle of slots -/

/-- The addresses of the words of a slot that are aligned for pointers. -/
def Slab.Word (slab : Slab) (i x : Nat) : Prop :=
  x % 4 = 0 ∧ slab.slot i ≤ x ∧ x + 4 ≤ slab.slot i + slab.type.esize.toNat

/-- The slots that the roots lead to, when a slot leads wherever one of its words points into. -/
inductive Reaches (h : Arena) (roots : List Nat) : Slab → Nat → Prop where
  | root {p slab i} :
    p ∈ roots →
    slab ∈ h.slabs →
    i < slab.type.count →
    slab.Inside i p →
    Reaches h roots slab i
  | word {slab i x slab' j} :
    Reaches h roots slab i →
    slab.Word i x →
    slab' ∈ h.slabs →
    j < slab'.type.count →
    slab'.Inside j (word h.memory x) →
    Reaches h roots slab' j

/-- The calls of `slab_gc_mark` that enter a slot, each with the heap before it. -/
def Entered (h : Arena) (roots : List Nat) (calls : List (Region × Nat)) : Prop :=
  ∃ r, Marks (h.marker fun _ => none) h.slabGcBegin (roots.map fun p _ => p) calls r

/-- A call that enters a slot misses none of the slots that the words of the slot point into: for each one
    that is still available there is a word among those that are scanned. -/
def Whole (h : Arena) (r : Region) (p : Nat) : Prop :=
  ∀ slab, h.slabGet p = some slab → ∀ x, slab.Word (slab.index p) x →
    ∀ slab' ∈ h.slabs, ∀ j < slab'.type.count, slab'.Inside j (word h.memory x) →
      r.availableAt slab'.page j = true → (slab'.page, j) ≠ (slab.page, slab.index p) →
      ∃ k < slab.type.esize.toNat / 4, p + 4 * k + 4 ≤ slab.page + 4096 ∧
        slab'.Inside j (word h.memory (p + 4 * k))

section Interior
variable {h : Arena} {roots : List Nat} {calls : List (Region × Nat)} {r : Region}

/-- The node of a pointer into a slot. -/
lemma node_inside {slab : Slab} (hs : slab ∈ h.slabs) {i p : Nat} (hi : i < slab.type.count)
    (hp : slab.Inside i p) : h.node p = some (slab.page, i) := by
  obtain ⟨found, index⟩ := h.slabGet_inside hs hi hp
  rw [Arena.node, found, Option.map_some, index]

/-- What is reached is a slot. -/
lemma Reaches.slot {slab : Slab} {i : Nat} (hr : Reaches h roots slab i) :
    slab ∈ h.slabs ∧ i < slab.type.count := by
  cases hr with
  | root _ hs hi _ => exact ⟨hs, hi⟩
  | word _ _ hs hi _ => exact ⟨hs, hi⟩

/-- When no call misses anything, all that the roots lead to is taken in the end. -/
lemma Reaches.taken (hm : Marks (h.marker fun _ => none) h.slabGcBegin (roots.map fun p _ => p) calls r)
    (whole : ∀ c ∈ calls, Whole h c.1 c.2) {slab : Slab} {i : Nat} (hr : Reaches h roots slab i) :
    (slab.page, i) ∉ h.free r := by
  induction hr with
  | root hp hs hi inside =>
    exact hm.start during_begin (List.mem_map_of_mem hp) (fun _ _ => rfl) (node_inside hs hi inside)
  | @word slab i x slab' j hr hx hs' hj inside ih =>
    obtain ⟨hs, hi⟩ := hr.slot
    -- the call that entered the slot
    obtain ⟨⟨t, p⟩, hc, hn⟩ := hm.taken during_begin (mem_free_begin hs hi) ih
    obtain ⟨ht, sub, -, scan⟩ := hm.call during_begin hc
    obtain ⟨y, found, e⟩ := Option.map_eq_some_iff.mp hn
    obtain ⟨hy, page, data, -⟩ := Region.slabGet_some found
    cases h.slab_unique hy hs (Prod.ext_iff.mp e).1
    cases (Prod.ext_iff.mp e).2
    by_cases same : (slab'.page, j) = (slab.page, slab.index p)
    · rw [same]
      exact ih
    · intro mem
      have available := (Arena.During.mem_free ht hs').mp (sub mem)
      obtain ⟨k, hk, end_le, inside'⟩ :=
        whole _ hc slab found x hx slab' hs' j hj inside available same
      apply scan (fun r => Heap.word (r.byteAt h.memory) (p + 4 * k)) _ _ _ _
        (node_inside hs' hj inside') mem
      · show _ ∈ h.scan (fun _ => none) p
        rw [Arena.scan, found]
        exact List.mem_map_of_mem (List.mem_range.mpr hk)
      · intro r hr
        exact Arena.During.word hr hs (by omega) end_le

/-- Where slots are aligned and all pointers are to the first bytes of slots, no call misses anything. -/
lemma Precise.whole (precise : Precise h (fun _ => none) roots)
    (aligned : ∀ slab ∈ h.slabs, ∀ i < slab.type.count, slab.slot i % 4 = 0) (entered : Entered h roots calls) :
    ∀ c ∈ calls, Whole h c.1 c.2 := by
  obtain ⟨r, hm⟩ := entered
  rintro ⟨t, p⟩ hc slab found x ⟨align, lo, hi⟩ slab' _ j _ inside _ _
  obtain ⟨i, lt, slot⟩ := (precise.found (hm.found during_begin hc)).1 slab found
  obtain ⟨hs, -⟩ := Region.slabGet_some found
  have slot : slab.slot i = p := slot
  have index : slab.index p = i := by
    rw [← slot]
    exact (h.slabGet_slot hs lt).2
  have aligned := aligned slab hs i lt
  obtain ⟨-, -, top⟩ := h.page slab hs
  have top' := h.top
  obtain ⟨-, end_le⟩ := slot_inside (h.type slab hs).1 rfl (by omega) lt
  rw [index, slot] at lo hi
  rw [slot] at aligned end_le
  have same : p + 4 * ((x - p) / 4) = x := by omega
  have scanned : (x - p) / 4 < slab.type.esize.toNat / 4 := by omega
  have within : p + 4 * ((x - p) / 4) + 4 ≤ slab.page + 4096 := by omega
  refine ⟨(x - p) / 4, scanned, within, ?_⟩
  show slab'.Inside j (word h.memory (p + 4 * ((x - p) / 4)))
  rw [same]
  exact inside

end Interior

/-- `slab_gc_end` leaves the available bits alone. -/
lemma availableAt_end (r : Region) (finalize : SlabType → Bool) (page i : Nat) :
    (r.slabGcEnd finalize).2.availableAt page i = r.availableAt page i := by
  rw [Region.availableAt, Region.availableAt, Region.slabGcEnd, List.any_map]
  congr 1
  funext slab
  simp only [Function.comp_apply]
  split <;> rfl

/-- A collection without callbacks ends, and it keeps every allocated slot that the roots lead to if none of
    its calls that enter a slot misses what the words of the slot point into. -/
theorem slabGc_keeps (h : Arena) (finalize : SlabType → Bool) (roots : List Nat) :
    ∃ calls r, Entered h roots calls ∧
      Returns (slabGc h.memory (fun _ => none) finalize roots) h.toRegion () r ∧
      ((∀ c ∈ calls, Whole h c.1 c.2) → ∀ slab ∈ h.slabs, ∀ i < slab.type.count,
        slab.available.test i = false → Reaches h roots slab i → r.availableAt slab.page i = false) := by
  obtain ⟨calls, r, hm, run⟩ := exists_marks h (fun _ => none) roots
  refine ⟨calls, (r.slabGcEnd finalize).2, ⟨r, hm⟩, .bind run (.update _ _), ?_⟩
  intro whole slab hs i _ _ reaches
  have hr : h.During r := hm.inv during_begin
  have taken := reaches.taken hm whole
  rw [hr.mem_free hs, Bool.not_eq_true] at taken
  rw [availableAt_end]
  exact taken

/-- The first word of slot 0 points to slot 1, and there is no other pointer. -/
def linkBytes (x : Nat) : BitVec 8 :=
  if x = 0xc040009c then 0xa4 else if x = 0xc040009e then 0x40 else if x = 0xc040009f then 0xc0 else 0

/-- There is no pointer behind the first word. -/
lemma word_linkBytes {x : Nat} (le : 0xc04000a0 ≤ x) : word linkBytes x = 0 := by
  have zero : ∀ y, 0xc04000a0 ≤ y → linkBytes y = 0 := fun y le => by
    rw [linkBytes, if_neg (by omega), if_neg (by omega), if_neg (by omega)]
  rw [word, zero x le, zero (x + 1) (by omega), zero (x + 2) (by omega), zero (x + 3) (by omega)]
  rfl

/-- The places of the slots of 8 bytes. -/
lemma slot_slabNew_eight (available : Bitmap) {i : Nat} (lt : i < SlabType.count ⟨0x1000, 8⟩) :
    Slab.slot { slabNew ⟨0x1000, 8⟩ 0xc0400000 with available := available } i = 0xc040009c + 8 * i := by
  have count : SlabType.count ⟨0x1000, 8⟩ = 492 := by decide
  have data : (slabNew ⟨0x1000, 8⟩ 0xc0400000).data = 0xc040009c := by decide
  have size : (slabNew ⟨0x1000, 8⟩ 0xc0400000).type.esize.toNat = 8 := rfl
  rw [count] at lt
  show (slabNew ⟨0x1000, 8⟩ 0xc0400000).slot i = _
  rw [Slab.slot, data, size]
  omega

/-- The root points to the first byte of slot 0: no call misses anything, and slot 1 is kept. -/
theorem slabGc_keeps_linked :
    let fits : Fits ⟨0x1000, 8⟩ := fits_of_lt (by decide) (by decide)
    let h := oneSlab ⟨0x1000, 8⟩ fits linkBytes
    ∃ calls r, Entered h [0xc040009c] calls ∧ (∀ c ∈ calls, Whole h c.1 c.2) ∧
      Returns (slabGc h.memory (fun _ => none) (fun _ => false) [0xc040009c]) h.toRegion () r ∧
      r.availableAt 0xc0400000 1 = false := by
  intro fits h
  have only : ∀ {slab}, slab ∈ h.slabs → slab = { slabNew ⟨0x1000, 8⟩ 0xc0400000 with available := fun _ => 0 } :=
    fun hs => List.mem_singleton.mp hs
  have first : h.AtSlot 0xc040009c := by
    intro slab found
    rw [only (Region.slabGet_some found).1]
    exact ⟨0, by decide, by decide⟩
  have second : h.AtSlot 0xc04000a4 := by
    intro slab found
    rw [only (Region.slabGet_some found).1]
    exact ⟨1, by decide, by decide⟩
  have nowhere : h.AtSlot 0 := by
    intro slab found
    cases found
  have precise : Precise h (fun _ => none) [0xc040009c] := by
    refine ⟨fun p hp => List.mem_singleton.mp hp ▸ first, fun slab hs i lt p hp => ?_⟩
    cases only hs
    obtain ⟨k, hk, rfl⟩ := List.mem_map.mp hp
    show h.AtSlot (word linkBytes _)
    rw [slot_slabNew_eight _ lt]
    by_cases link : 8 * i + 4 * k = 0
    · rw [Nat.add_assoc, link]
      exact second
    · rw [word_linkBytes (by omega)]
      exact nowhere
  have aligned : ∀ slab ∈ h.slabs, ∀ i < slab.type.count, slab.slot i % 4 = 0 := by
    intro slab hs i lt
    cases only hs
    rw [slot_slabNew_eight _ lt]
    omega
  obtain ⟨calls, r, entered, run, keeps⟩ := slabGc_keeps h (fun _ => false) [0xc040009c]
  have whole := precise.whole aligned entered
  refine ⟨calls, r, entered, whole, run, keeps whole _ (List.mem_singleton_self _) 1 (by decide) (by decide) ?_⟩
  have zero : Reaches h [0xc040009c] { slabNew ⟨0x1000, 8⟩ 0xc0400000 with available := fun _ => 0 } 0 :=
    .root List.mem_cons_self (List.mem_singleton_self _) (by decide) ⟨by decide, by decide⟩
  exact .word zero ⟨show 0xc040009c % 4 = 0 by decide, by decide, by decide⟩ (List.mem_singleton_self _)
    (by decide) ⟨by decide, by decide⟩

/-- The only root points to the second word of slot 0, so the first one is not scanned, and slot 1 is available
    after the collection. -/
theorem interior_root_loses_slot :
    let fits : Fits ⟨0x1000, 8⟩ := fits_of_lt (by decide) (by decide)
    let h := oneSlab ⟨0x1000, 8⟩ fits linkBytes
    ∃ r, Returns (slabGc h.memory (fun _ => none) (fun _ => false) [0xc04000a0]) h.toRegion () r ∧
      ∃ slab ∈ h.slabs, slab.available.test 1 = false ∧ Reaches h [0xc04000a0] slab 1 ∧
        r.availableAt slab.page 1 = true := by
  intro fits h
  have marks : ∃ es r, Marks (h.marker fun _ => none) h.slabGcBegin [fun _ => 0xc04000a0] es r ∧
      r.availableAt 0xc0400000 1 = true := by
    refine ⟨_, _, .enter rfl (.skip rfl (.skip rfl .nil)) .nil, ?_⟩
    decide +kernel
  obtain ⟨es, r, hm, available⟩ := marks
  have run := slabGcMark_returns during_begin hm
  rw [show [fun _ => 0xc04000a0] = [0xc04000a0].map fun p (_ : Region) => p from rfl, each_asks] at run
  refine ⟨(r.slabGcEnd fun _ => false).2, .bind (.bind (.update _ _) run) (.update _ _), _,
    List.mem_singleton_self _, by decide, ?_, ?_⟩
  · have zero : Reaches h [0xc04000a0] { slabNew ⟨0x1000, 8⟩ 0xc0400000 with available := fun _ => 0 } 0 :=
      .root List.mem_cons_self (List.mem_singleton_self _) (by decide) ⟨by decide, by decide⟩
    exact .word zero ⟨show 0xc040009c % 4 = 0 by decide, by decide, by decide⟩ (List.mem_singleton_self _)
      (by decide) ⟨by decide, by decide⟩
  · rw [availableAt_end]
    exact available

end Twcos.Heap
