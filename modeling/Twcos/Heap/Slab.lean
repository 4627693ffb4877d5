import Mathlib.Algebra.Ring.Nat
import Mathlib.Algebra.Ring.Int.Defs
import Mathlib.Data.List.Nodup
import Twcos.Bitmap.Basic

/-!
# Slabs

Model of the data of `libk/slab.c`. A slab is a page of the heap that starts with a `slab_t`, followed by
two bitmaps and the slots:

    | slab_t | available | finalize | slot 0 | slot 1 | … |

The number of slots follows from the element size by a division in `size_t` arithmetic, which wraps at
`2 ^ 32`; so do the address computations of `slab_alloc`.

C → Lean naming: `slab_type_t` → `SlabType`, `slab_t` → `Slab`; `slab_new` → `slabNew` and so on. The page
addresses are natural numbers.
-/

namespace Twcos.Heap

/-- `slab_type_t`: its address and the element size. -/
structure SlabType where
  addr : BitVec 32
  esize : BitVec 32
deriving DecidableEq

/-- `997 * 0xaf653de9 * (uint32_t)stype`. -/
def SlabType.magic (stype : SlabType) : BitVec 32 := 997 * 0xaf653de9 * stype.addr

/-- `sizeof(slab_t)`: seven fields of four bytes. -/
def sizeofSlab : Nat := 28

/-- `(8*(ARCH_PAGE_SIZE-sizeof(slab_t))-64) / (8 * stype->esize + 2)`. -/
def SlabType.count (stype : SlabType) : Nat :=
  ((8 * (4096 - BitVec.ofNat 32 sizeofSlab) - 64) / (8 * stype.esize + 2)).toNat

/-- The words of each bitmap: `(slab->type->count+32)/32`. -/
def SlabType.words (stype : SlabType) : Nat := (stype.count + 32) / 32

/-- The words of a bitmap that hold bits of slots. -/
def SlabType.used (stype : SlabType) : Nat := (stype.count + 31) / 32

/-- `slab_t`, with the bitmaps that follow it. -/
structure Slab where
  page : Nat
  magic : BitVec 32
  type : SlabType
  available : Bitmap
  finalize : Bitmap

/-- `slab->data`. -/
def Slab.data (slab : Slab) : Nat := slab.page + sizeofSlab + 4 * slab.type.words + 4 * slab.type.words

/-- `slab->data + slab->type->esize*slot`. -/
def Slab.slot (slab : Slab) (i : Nat) : Nat :=
  (slab.data + slab.type.esize.toNat * i % 2 ^ 32) % 2 ^ 32

/-- The words of a bitmap with a bit for every slot, as `slab_new` and `slab_mark_available_all` write
    them; the rest of the page is as it was. -/
def allAvailable (stype : SlabType) (b : Bitmap) : Bitmap := fun k =>
  if k < stype.used then Bitmap.ones stype.count k else b k

/-- `slab_new` on a page, which `page_heap_alloc` has cleared. -/
def slabNew (stype : SlabType) (page : Nat) : Slab where
  page := page
  magic := stype.magic
  type := stype
  available := allAvailable stype fun _ => 0
  finalize := fun _ => 0

/-- `slab_mark_available_all`. -/
def slabMarkAvailableAll (slab : Slab) : Slab :=
  { slab with
    finalize := fun k => if k < slab.type.used then slab.available k else slab.finalize k
    available := allAvailable slab.type slab.available }

/-- `ARCH_PAGE_ALIGN`. -/
def pageAlign (p : Nat) : Nat := p / 4096 * 4096

/-- The checks of `slab_get` on the page of a heap pointer. -/
def Slab.owns (slab : Slab) (p : Nat) : Bool :=
  slab.page = pageAlign slab.data ∧ slab.magic = slab.type.magic ∧ slab.data ≤ p

/-- `((char*)p - slab->data) / slab->type->esize`. -/
def Slab.index (slab : Slab) (p : Nat) : Nat := (p - slab.data) / slab.type.esize.toNat

/-- Change the available bits of the slab on a page. -/
def updateAvailable (slabs : List Slab) (page : Nat) (f : Bitmap → Bitmap) : List Slab :=
  slabs.map fun x => if x.page = page then { x with available := f x.available } else x

/-- The addresses of the heap, from `_bootstrap_nextalloc` up to `nextalloc`, and the slabs in it. -/
structure Region where
  base : Nat
  nextalloc : Nat
  slabs : List Slab

/-- `slab_get`. A page that is no slab does not pass for one. -/
def Region.slabGet (r : Region) (p : Nat) : Option Slab :=
  if r.base ≤ p ∧ p < r.nextalloc then
    r.slabs.find? fun slab => slab.page = pageAlign p ∧ slab.owns p
  else none

/-- `slab_gc_begin`. -/
def Region.slabGcBegin (r : Region) : Region := { r with slabs := r.slabs.map slabMarkAvailableAll }

/-- Changing a bitmap leaves the pages. -/
lemma map_updateAvailable (slabs : List Slab) (page : Nat) (f : Bitmap → Bitmap) :
    (updateAvailable slabs page f).map Slab.page = slabs.map Slab.page := by
  rw [updateAvailable, List.map_map]
  apply List.map_congr_left
  intro x hx
  simp only [Function.comp_apply]
  split <;> rfl

/-- `slab_get` looks at nothing but the headers. -/
lemma Region.slabGet_map (r : Region) {g : Slab → Slab}
    (same : ∀ x, (g x).page = x.page ∧ (g x).magic = x.magic ∧ (g x).type = x.type) (p : Nat) :
    Region.slabGet { r with slabs := r.slabs.map g } p = (r.slabGet p).map g := by
  have owns : ∀ x, (g x).owns p = x.owns p := by
    intro x
    obtain ⟨page, magic, type⟩ := same x
    rw [Slab.owns, Slab.owns, Slab.data, Slab.data, page, magic, type]
  rw [Region.slabGet, Region.slabGet]
  split
  · rw [List.find?_map]
    congr 2
    funext x
    simp only [Function.comp_apply, (same x).1, owns]
  · rfl

/-- What `slab_get` finds. -/
lemma Region.slabGet_some {r : Region} {p : Nat} {slab : Slab} (h : r.slabGet p = some slab) :
    slab ∈ r.slabs ∧ slab.page = pageAlign p ∧ slab.data ≤ p ∧ p < r.nextalloc := by
  rw [Region.slabGet] at h
  split at h
  · next range =>
    have found := List.find?_some h
    simp only [Slab.owns, decide_eq_true_eq, Bool.decide_and, Bool.and_eq_true] at found
    exact ⟨List.mem_of_find?_eq_some h, found.1, found.2.2.2, range.2⟩
  · cases h

/-- `slab_get` finds a slab that owns the pointer, when no other slab is on its page. -/
lemma Region.slabGet_of_owns {r : Region} (pages : (r.slabs.map Slab.page).Nodup) {slab : Slab}
    (hs : slab ∈ r.slabs) {p : Nat} (range : r.base ≤ p ∧ p < r.nextalloc) (page : slab.page = pageAlign p)
    (owns : slab.owns p = true) : r.slabGet p = some slab := by
  rw [Region.slabGet, if_pos range]
  cases hf : r.slabs.find? fun x => x.page = pageAlign p ∧ x.owns p with
  | none =>
    rw [List.find?_eq_none] at hf
    exact absurd (decide_eq_true ⟨page, owns⟩) (hf slab hs)
  | some x =>
    have hx := List.find?_some hf
    rw [decide_eq_true_iff] at hx
    rw [List.inj_on_of_nodup_map pages (List.mem_of_find?_eq_some hf) hs (hx.1.trans page.symm)]

/-- The word of a slot is one of the bitmap. -/
lemma used_spec {stype : SlabType} {i : Nat} (h : i < stype.count) : i / 32 < stype.used := by
  rw [SlabType.used]
  omega

/-- Every slot is available when the words are written. -/
lemma test_allAvailable {stype : SlabType} {b : Bitmap} {i : Nat} (h : i / 32 < stype.used) :
    (allAvailable stype b).test i = decide (i < stype.count) :=
  Bitmap.test_ones (if_pos h)

/-- A new slab has exactly its slots available. -/
lemma test_slabNew (stype : SlabType) (page i : Nat) :
    (slabNew stype page).available.test i = decide (i < stype.count) := by
  by_cases h : i / 32 < stype.used
  · exact test_allAvailable h
  · have no : ¬i < stype.count := fun lt => h (used_spec lt)
    have zero : (slabNew stype page).available (i / 32) = 0 := if_neg h
    rw [Bitmap.test_eq, zero, decide_eq_false no]
    exact BitVec.getLsbD_zero

end Twcos.Heap
