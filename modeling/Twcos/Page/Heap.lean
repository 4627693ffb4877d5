import Mathlib.Data.List.Perm.Basic
import Mathlib.Data.List.Nodup
import Twcos.Word.Basic
import Twcos.Page.Boot

/-!
# Pages of the heap

Model of `page_heap_alloc` and `page_heap_free` (`kernel/core.c`), with `arch_heap_page` and `bootstrap_finish` of
`arch/i386/init.c`. Pages that are freed stay mapped; their first words link them to a list that starts at `heap_cache`.
When the list is empty, the next page of the heap is mapped to a new frame; where the heap comes to addresses without a
page table, another frame becomes the page table.

C → Lean naming: `heap_cache`, `nextalloc` → the fields of `Kas`; `page_heap_alloc`, `page_heap_free`, `arch_heap_page`,
`memset` → `pageHeapAlloc`, `pageHeapFree`, `archHeapPage`, `memset`; `vmap_map` → `vmapMap`. The page tables are the same
in all directories (`Twcos.Vmap`). `Kas.tables` has their frames, and `Kas.map` what their entries say.
-/

namespace Twcos.Page
open Twcos.Run

abbrev Addr := BitVec 32

/-- The ranges of `page_alloc`, the frames of the page tables (`0` where there is none), the frames of the kernel's pages,
    the bytes of the frames, and the variables. -/
structure Kas where
  mmap : List Mmap
  tables : BitVec 10 → BitVec 20
  map : BitVec 20 → Option (BitVec 20)
  frame : BitVec 20 → BitVec 12 → BitVec 8
  nextalloc : Addr
  heap_cache : Addr

abbrev KasCode (α : Type) := StateT Kas Option α

def pageOf (p : Addr) : BitVec 20 := p.extractLsb' 12 20

def offsetOf (p : Addr) : BitVec 12 := p.extractLsb' 0 12

/-- The byte at an offset of a page. -/
def Kas.byte (s : Kas) (v : BitVec 20) (o : BitVec 12) : Option (BitVec 8) := (s.map v).map fun f => s.frame f o

/-- Writing a byte of a page. -/
def Kas.set (s : Kas) (v : BitVec 20) (o : BitVec 12) (x : BitVec 8) : Option Kas :=
  (s.map v).map fun f => { s with frame := Function.update s.frame f (Function.update (s.frame f) o x) }

def loadByte (p : Addr) : KasCode (BitVec 8) := fun s => (s.byte (pageOf p) (offsetOf p)).map fun x => (x, s)

def storeByte (p : Addr) (x : BitVec 8) : KasCode Unit := fun s => (s.set (pageOf p) (offsetOf p) x).map fun s => ((), s)

/-- The word at `p`. -/
def load (p : Addr) : KasCode (BitVec 32) := do
  let b0 ← loadByte p
  let b1 ← loadByte (p + 1)
  let b2 ← loadByte (p + 2)
  let b3 ← loadByte (p + 3)
  return b3 ++ b2 ++ b1 ++ b0

/-- Writing the word at `p`. -/
def store (p : Addr) (x : BitVec 32) : KasCode Unit := do
  storeByte p (x.extractLsb' 0 8)
  storeByte (p + 1) (x.extractLsb' 8 8)
  storeByte (p + 2) (x.extractLsb' 16 8)
  storeByte (p + 3) (x.extractLsb' 24 8)

/-- The turns of `memset` from an index on. -/
def memsetFrom (s : Addr) (c : BitVec 8) : Nat → Nat → KasCode Unit
  | _, 0 => return ()
  | i, n + 1 => do
    storeByte (s + BitVec.ofNat 32 i) c
    memsetFrom s c (i + 1) n

/-- `memset`. -/
def memset (s : Addr) (c : BitVec 8) (n : Nat) : KasCode Unit := memsetFrom s c 0 n

def ARCH_PAGE_SIZE : Nat := 4096

/-- `bootstrap_finish`. -/
def bootstrapFinish (nextalloc : Addr) : Addr := (nextalloc + 4096) &&& ~~~4095

/-- `arch_heap_page`. -/
def archHeapPage : KasCode Addr := fun s => some (s.nextalloc, { s with nextalloc := s.nextalloc + 4096 })

/-- The page table of an address, and its entry there. -/
def region (vaddress : Addr) : BitVec 10 := vaddress.extractLsb' 22 10
@[inherit_doc region] def regionOf (v : BitVec 20) : BitVec 10 := v.extractLsb' 10 10
@[inherit_doc region] def slotOf (v : BitVec 20) : BitVec 10 := v.extractLsb' 0 10

/-- What an entry of a page table says. -/
def shown (pte : BitVec 32) : Option (BitVec 20) := if pte &&& 1 ≠ 0 then some (pte.extractLsb' 12 20) else none

/-- The word of a page that is the entry of a page table. -/
def entryAt (g : BitVec 12 → BitVec 8) (slot : BitVec 10) : BitVec 32 :=
  let o : BitVec 12 := slot ++ (0 : BitVec 2)
  g (o + 3) ++ g (o + 2) ++ g (o + 1) ++ g o

/-- A frame becomes a page table. Nobody clears it: what it holds is taken for entries. -/
def Kas.enter (s : Kas) (k : BitVec 10) (table : BitVec 20) : Kas :=
  { s with
    tables := Function.update s.tables k table
    map := fun v => if regionOf v = k then shown (entryAt (s.frame table) (slotOf v)) else s.map v }

/-- The page table that `vmap_set_pte` allocates, if there is none. -/
def Kas.setTable (s : Kas) (k : BitVec 10) : Kas :=
  if s.tables k = 0 then
    let (table, mmap) := pageAlloc s.mmap
    { s with mmap := mmap }.enter k (table.setWidth 20)
  else s

/-- The first of the page tables in which the page tables are mapped (`pgtbls`). -/
def WINDOWS : BitVec 10 := 1016

/-- `vmap_map(0, vaddress, page, 1, 0)`, for addresses below the page tables. -/
def vmapMap (vaddress : Addr) (page : PageNo) : KasCode Unit := fun s =>
  if region vaddress < WINDOWS then
    let s := s.setTable (region vaddress)
    some ((), { s with map := Function.update s.map (pageOf vaddress) (some (page.setWidth 20)) })
  else none

/-- `page_heap_alloc`. -/
def pageHeapAlloc : KasCode Addr := do
  let s ← get
  let p ← if s.heap_cache ≠ 0 then do
      let p := s.heap_cache
      let next ← load p
      modify fun s => { s with heap_cache := next }
      pure p
    else do
      let p ← archHeapPage
      let s ← get
      let (page, mmap) := pageAlloc s.mmap
      set { s with mmap := mmap }
      vmapMap p page
      pure p
  memset p 0 ARCH_PAGE_SIZE
  return p

/-- `page_heap_free`. -/
def pageHeapFree (p : Addr) : KasCode Unit := do
  let s ← get
  store p s.heap_cache
  modify fun s => { s with heap_cache := p }

/-! ### Runs -/

/-- The memory, the heap pages that are held by somebody, and the frames that are held by others. -/
structure Holders where
  kas : Kas
  held : List (BitVec 20)
  frames : List PageNo

/-- Allocating, freeing and writing to heap pages and to frames. -/
inductive Act where
  | alloc
  | free (v : BitVec 20)
  | write (v : BitVec 20) (o : BitVec 12) (x : BitVec 8)
  | frame
  | release (page : PageNo)
  | fill (page : PageNo) (x : BitVec 12 → BitVec 8)

/-- The first address of a page. -/
def base (v : BitVec 20) : Addr := v ++ (0 : BitVec 12)

/-- Everybody keeps to what he holds. -/
def act (s : Holders) : Act → Option Holders
  | .alloc => (pageHeapAlloc s.kas).map fun (p, kas) => { s with kas := kas, held := pageOf p :: s.held }
  | .free v =>
    if v ∈ s.held then
      (pageHeapFree (base v) s.kas).map fun (_, kas) => { s with kas := kas, held := s.held.erase v }
    else none
  | .write v o x => if v ∈ s.held then (s.kas.set v o x).map fun kas => { s with kas := kas } else none
  | .frame =>
    let (page, mmap) := pageAlloc s.kas.mmap
    some { s with
      kas := { s.kas with mmap := mmap }
      frames := if page = 0 then s.frames else page :: s.frames }
  | .release page =>
    if s.frames.contains page then
      some { s with kas := { s.kas with mmap := pageFree page s.kas.mmap }, frames := s.frames.erase page }
    else none
  | .fill page x =>
    if s.frames.contains page then
      some { s with kas := { s.kas with frame := Function.update s.kas.frame (page.setWidth 20) x } }
    else none

/-- `page_alloc` has a frame for the next page of the heap and one for its page table, if that is missing. The next page
    is below the page tables. -/
structure Grows (s : Kas) : Prop where
  nonzero : s.nextalloc ≠ 0
  below : region s.nextalloc < WINDOWS
  page : (pageAlloc s.mmap).1 ≠ 0
  table : s.tables (region s.nextalloc) = 0 → (pageAlloc (pageAlloc s.mmap).2).1 ≠ 0

/-- There is a page on the list, or the heap can grow. -/
def Room (s : Kas) : Prop := s.heap_cache = 0 → Grows s

/-- Allocations with room for them. -/
def Roomy (s : Holders) : Act → Prop
  | .alloc => Room s.kas
  | _ => True

/-- An allocation gives a page that nobody holds, with zeros, next to the pages that are held, whose bytes stay as they
    are. The frames of these are different ones, and neither page tables, nor held by others, nor free. Nobody holds a page
    table. Pages that were freed are used before the heap grows. -/
structure Fresh (start : Addr) (s : Holders) : Prop where
  gives : Room s.kas → ∃ v kas, pageHeapAlloc s.kas = some (base v, kas) ∧ v ∉ s.held ∧
    (∀ o, kas.byte v o = some 0) ∧ ∀ w ∈ s.held, ∀ o, kas.byte w o = s.kas.byte w o
  mapped : ∀ v ∈ s.held, (s.kas.map v).isSome
  apart : ∀ v ∈ s.held, ∀ w ∈ s.held, s.kas.map v = s.kas.map w → v = w
  others : ∀ page ∈ s.frames, ∀ v ∈ s.held, s.kas.map v ≠ some (page.setWidth 20)
  tables : ∀ k, s.kas.tables k ≠ 0 → (∀ v ∈ s.held, s.kas.map v ≠ some (s.kas.tables k)) ∧
    ∀ page ∈ s.frames, page.setWidth 20 ≠ s.kas.tables k
  free : (pageAlloc s.kas.mmap).1 ≠ 0 → ∀ v ∈ s.held, s.kas.map v ≠ some ((pageAlloc s.kas.mmap).1.setWidth 20)
  nodup : s.held.Nodup
  used : s.kas.heap_cache = 0 → s.kas.nextalloc = start + BitVec.ofNat 32 (ARCH_PAGE_SIZE * s.held.length)

/-! ### Pages and their bytes -/

section Bytes
variable {v w : BitVec 20} {f : BitVec 20} {s : Kas}

/-- The first address of a page. -/
lemma base_toNat (v : BitVec 20) : (base v).toNat = 4096 * v.toNat := by
  rw [base, BitVec.toNat_append, Nat.shiftLeft_eq]
  simp [Nat.mul_comm]

/-- An address of a page. -/
lemma base_add_toNat (v : BitVec 20) {i : Nat} (lt : i < 4096) :
    (base v + BitVec.ofNat 32 i).toNat = 4096 * v.toNat + i := by
  have bound := v.isLt
  rw [BitVec.toNat_add, base_toNat, BitVec.toNat_ofNat]
  omega

/-- The page of an address in it. -/
lemma pageOf_add (v : BitVec 20) {i : Nat} (lt : i < 4096) : pageOf (base v + BitVec.ofNat 32 i) = v := by
  have bound := v.isLt
  apply BitVec.eq_of_toNat_eq
  rw [pageOf, BitVec.extractLsb'_toNat, base_add_toNat v lt, Nat.shiftRight_eq_div_pow]
  omega

/-- The place of an address in its page. -/
lemma offsetOf_add (v : BitVec 20) {i : Nat} (lt : i < 4096) :
    offsetOf (base v + BitVec.ofNat 32 i) = BitVec.ofNat 12 i := by
  apply BitVec.eq_of_toNat_eq
  rw [offsetOf, BitVec.extractLsb'_toNat, base_add_toNat v lt, Nat.shiftRight_eq_div_pow, BitVec.toNat_ofNat]
  omega

/-- The page of the first address. -/
lemma pageOf_base (v : BitVec 20) : pageOf (base v) = v := by
  have first := pageOf_add v (i := 0) (by omega)
  rwa [BitVec.add_zero] at first

/-- The memory with other bytes in one frame. -/
def Kas.with (s : Kas) (f : BitVec 20) (g : BitVec 12 → BitVec 8) : Kas := { s with frame := Function.update s.frame f g }

/-- Storing a byte in a page that is mapped. -/
lemma storeByte_eq (hv : s.map v = some f) {i : Nat} (lt : i < 4096) (x : BitVec 8) :
    storeByte (base v + BitVec.ofNat 32 i) x s =
      some ((), s.with f (Function.update (s.frame f) (BitVec.ofNat 12 i) x)) := by
  rw [storeByte, pageOf_add v lt, offsetOf_add v lt, Kas.set, hv]
  rfl

/-- Loading a byte of a page that is mapped. -/
lemma loadByte_eq (hv : s.map v = some f) {i : Nat} (lt : i < 4096) :
    loadByte (base v + BitVec.ofNat 32 i) s = some (s.frame f (BitVec.ofNat 12 i), s) := by
  rw [loadByte, pageOf_add v lt, offsetOf_add v lt, Kas.byte, hv]
  rfl

/-- The last write of a frame counts. -/
lemma Kas.with_with (s : Kas) (f : BitVec 20) (g g' : BitVec 12 → BitVec 8) : (s.with f g).with f g' = s.with f g' := by
  rw [Kas.with, Kas.with, Kas.with, Function.update_idem]

/-- The frame that was written. -/
lemma Kas.with_frame (s : Kas) (f : BitVec 20) (g : BitVec 12 → BitVec 8) : (s.with f g).frame f = g :=
  Function.update_self ..

/-- Writing a frame leaves the others. -/
lemma with_frame_ne {s : Kas} {f f' : BitVec 20} (ne : f' ≠ f) (g : BitVec 12 → BitVec 8) :
    (s.with f g).frame f' = s.frame f' :=
  Function.update_of_ne ne _ _

/-- The first word of a page. -/
def word (g : BitVec 12 → BitVec 8) : BitVec 32 := g 3 ++ g 2 ++ g 1 ++ g 0

/-- A page with another first word. -/
def setWord (g : BitVec 12 → BitVec 8) (x : BitVec 32) : BitVec 12 → BitVec 8 :=
  Function.update (Function.update (Function.update (Function.update g 0 (x.extractLsb' 0 8)) 1 (x.extractLsb' 8 8)) 2
    (x.extractLsb' 16 8)) 3 (x.extractLsb' 24 8)

/-- The word that was written. -/
lemma word_setWord (g : BitVec 12 → BitVec 8) (x : BitVec 32) : word (setWord g x) = x := by
  have parts : word (setWord g x) =
      x.extractLsb' 24 8 ++ x.extractLsb' 16 8 ++ x.extractLsb' 8 8 ++ x.extractLsb' 0 8 := rfl
  rw [parts]
  exact Word.bytes_append x

/-- Loading the first word of a page. -/
lemma load_base (hv : s.map v = some f) : load (base v) s = some (word (s.frame f), s) := by
  have b0 := loadByte_eq hv (i := 0) (by omega)
  have b1 := loadByte_eq hv (i := 1) (by omega)
  have b2 := loadByte_eq hv (i := 2) (by omega)
  have b3 := loadByte_eq hv (i := 3) (by omega)
  rw [BitVec.add_zero] at b0
  show (loadByte (base v) s).bind _ = _
  rw [b0]
  show (loadByte (base v + BitVec.ofNat 32 1) s).bind _ = _
  rw [b1]
  show (loadByte (base v + BitVec.ofNat 32 2) s).bind _ = _
  rw [b2]
  show (loadByte (base v + BitVec.ofNat 32 3) s).bind _ = _
  rw [b3]
  rfl

/-- Storing the first word of a page. -/
lemma store_base (hv : s.map v = some f) (x : BitVec 32) :
    store (base v) x s = some ((), s.with f (setWord (s.frame f) x)) := by
  have b0 := storeByte_eq hv (i := 0) (by omega) (x.extractLsb' 0 8)
  rw [BitVec.add_zero] at b0
  show (storeByte (base v) _ s).bind _ = _
  rw [b0]
  show (storeByte (base v + BitVec.ofNat 32 1) _ (s.with f _)).bind _ = _
  rw [storeByte_eq (s := s.with f _) hv (by omega), Kas.with_with, Kas.with_frame]
  show (storeByte (base v + BitVec.ofNat 32 2) _ (s.with f _)).bind _ = _
  rw [storeByte_eq (s := s.with f _) hv (by omega), Kas.with_with, Kas.with_frame]
  show storeByte (base v + BitVec.ofNat 32 3) _ (s.with f _) = _
  rw [storeByte_eq (s := s.with f _) hv (by omega), Kas.with_with, Kas.with_frame]
  rfl

/-- The turns of `memset`. -/
lemma memsetFrom_eq (hv : s.map v = some f) (c : BitVec 8) {i n : Nat} (le : i + n ≤ 4096) :
    memsetFrom (base v) c i n s =
      some ((), s.with f fun o => if i ≤ o.toNat ∧ o.toNat < i + n then c else s.frame f o) := by
  induction n generalizing i s with
  | zero =>
    have same : (fun o : BitVec 12 => if i ≤ o.toNat ∧ o.toNat < i + 0 then c else s.frame f o) = s.frame f := by
      funext o
      exact if_neg (by omega)
    rw [same, Kas.with, Function.update_eq_self]
    rfl
  | succ n ih =>
    show (storeByte (base v + BitVec.ofNat 32 i) c s).bind _ = _
    rw [storeByte_eq hv (by omega)]
    show memsetFrom (base v) c (i + 1) n (s.with f _) = _
    rw [ih (s := s.with f _) hv (by omega), Kas.with_with, Kas.with_frame]
    congr 3
    funext o
    have bound := o.isLt
    rcases eq_or_ne o (BitVec.ofNat 12 i) with rfl | ne
    · rw [Function.update_self, BitVec.toNat_ofNat, Nat.mod_eq_of_lt (by omega), if_neg (by omega), if_pos (by omega)]
    · have other : o.toNat ≠ i := by
        intro e
        apply ne
        rw [← e, BitVec.ofNat_toNat, BitVec.setWidth_eq]
      rw [Function.update_of_ne ne]
      congr 1
      exact propext ⟨by omega, by omega⟩

/-- `memset` of a page. -/
lemma memset_page (hv : s.map v = some f) (c : BitVec 8) :
    memset (base v) c ARCH_PAGE_SIZE s = some ((), s.with f fun _ => c) := by
  rw [memset, ARCH_PAGE_SIZE, memsetFrom_eq hv c (by omega)]
  congr 3
  funext o
  exact if_pos ⟨by omega, by have := o.isLt; omega⟩

end Bytes

/-! ### Frames and their owners -/

section Own
variable {S : PageNo → Prop} {mmap : List Mmap} {usage : PageNo → Usage}

/-- What `page_alloc` gives is free, and is not free any more. -/
lemma pageAlloc_spec (inv : Inv ⟨mmap, usage⟩) : ∃ usage', Inv ⟨(pageAlloc mmap).2, usage'⟩ ∧
    (∀ page, usage page = .outstanding → usage' page = .outstanding) ∧
    (∀ page, usage page ≠ .free → usage' page ≠ .free) ∧ ((pageAlloc mmap).1 ≠ 0 →
      usage (pageAlloc mmap).1 = .free ∧ usage' (pageAlloc mmap).1 = .outstanding) := by
  have next : Inv ⟨(pageAlloc mmap).2, if (pageAlloc mmap).1 = 0 then usage
      else Function.update usage (pageAlloc mmap).1 .outstanding⟩ := inv_step (e := .alloc) inv rfl
  by_cases zero : (pageAlloc mmap).1 = 0
  · rw [if_pos zero] at next
    exact ⟨usage, next, fun _ h => h, fun _ h => h, fun nz => absurd zero nz⟩
  · rw [if_neg zero] at next
    refine ⟨_, next, fun page h => ?_, fun page h => ?_, fun _ => ⟨inv.sound.fresh zero, Function.update_self ..⟩⟩
    · rw [Function.update_apply]
      split
      · rfl
      · exact h
    · rw [Function.update_apply]
      split
      · exact Usage.noConfusion
      · exact h

/-- The pages of the heap have frames of their own, which are neither free nor held by others. So have the page tables. -/
structure Own (mmap : List Mmap) (tables : BitVec 10 → BitVec 20) (map : BitVec 20 → Option (BitVec 20))
    (heap : List (BitVec 20)) (frames : List PageNo) (usage : PageNo → Usage) : Prop where
  inv : Inv ⟨mmap, usage⟩
  only : Only (fun page => page.toNat < 2 ^ 20) mmap
  mapped : ∀ v ∈ heap, ∃ f, map v = some f ∧ usage (f.setWidth 32) = .outstanding
  apart : ∀ v ∈ heap, ∀ w ∈ heap, map v = map w → v = w
  taken : ∀ page ∈ frames, usage page = .outstanding ∧ page.toNat < 2 ^ 20
  others : ∀ page ∈ frames, ∀ v ∈ heap, map v ≠ some (page.setWidth 20)
  nodup : frames.Nodup
  present : ∀ v ∈ heap, tables (regionOf v) ≠ 0
  reserved : ∀ k, tables k ≠ 0 → usage ((tables k).setWidth 32) ≠ .free
  unmapped : ∀ k, tables k ≠ 0 → ∀ v ∈ heap, map v ≠ some (tables k)
  kept : ∀ k, tables k ≠ 0 → ∀ page ∈ frames, page.setWidth 20 ≠ tables k

variable {tables : BitVec 10 → BitVec 20} {map : BitVec 20 → Option (BitVec 20)} {heap heap' : List (BitVec 20)}
  {frames : List PageNo} {page : PageNo} {k : BitVec 10}

/-- A small page number is the same in 20 bits. -/
lemma setWidth_setWidth (small : page.toNat < 2 ^ 20) : (page.setWidth 20).setWidth 32 = page := by
  apply BitVec.eq_of_toNat_eq
  rw [BitVec.toNat_setWidth, BitVec.toNat_setWidth]
  omega

/-- A small page number that is not zero is not zero in 20 bits. -/
lemma setWidth_ne_zero (small : page.toNat < 2 ^ 20) (nz : page ≠ 0) : page.setWidth 20 ≠ 0 := by
  intro e
  have e := congrArg (BitVec.setWidth 32) e
  rw [setWidth_setWidth small] at e
  exact nz e

/-- A frame is the same in 32 bits. -/
lemma setWidth_setWidth' (f : BitVec 20) : (f.setWidth 32).setWidth 20 = f := by
  apply BitVec.eq_of_toNat_eq
  rw [BitVec.toNat_setWidth, BitVec.toNat_setWidth]
  have := f.isLt
  omega

/-- A frame that is not outstanding is not one of the heap's. -/
lemma Own.other (h : Own mmap tables map heap frames usage) (small : page.toNat < 2 ^ 20)
    (free : usage page ≠ .outstanding) : ∀ v ∈ heap, map v ≠ some (page.setWidth 20) := by
  intro v mem e
  obtain ⟨f, hf, used⟩ := h.mapped v mem
  cases Option.some.inj (hf.symm.trans e)
  rw [setWidth_setWidth small] at used
  exact free used

/-- A free page is no frame of the heap. -/
lemma Own.free (h : Own mmap tables map heap frames usage) (nz : (pageAlloc mmap).1 ≠ 0) :
    ∀ v ∈ heap, map v ≠ some ((pageAlloc mmap).1.setWidth 20) := by
  have free : usage (pageAlloc mmap).1 = .free := h.inv.sound.fresh nz
  exact h.other (h.only.pageAlloc.1 nz) fun e => Usage.noConfusion (free.symm.trans e)

/-- Fewer pages of the heap own no more. -/
lemma Own.congr (h : Own mmap tables map heap frames usage) (sub : ∀ v ∈ heap', v ∈ heap) :
    Own mmap tables map heap' frames usage where
  inv := h.inv
  only := h.only
  mapped v mem := h.mapped v (sub v mem)
  apart v hv w hw := h.apart v (sub v hv) w (sub w hw)
  taken := h.taken
  others page hp v hv := h.others page hp v (sub v hv)
  nodup := h.nodup
  present v hv := h.present v (sub v hv)
  reserved := h.reserved
  unmapped k hk v hv := h.unmapped k hk v (sub v hv)
  kept := h.kept

/-- A frame is allocated. -/
lemma Own.frame (h : Own mmap tables map heap frames usage) : ∃ usage', Own (pageAlloc mmap).2 tables map heap
    (if (pageAlloc mmap).1 = 0 then frames else (pageAlloc mmap).1 :: frames) usage' := by
  obtain ⟨usage', inv, still, kept, fresh⟩ := pageAlloc_spec h.inv
  obtain ⟨small, only⟩ := h.only.pageAlloc
  have mapped : ∀ v ∈ heap, ∃ f, map v = some f ∧ usage' (f.setWidth 32) = .outstanding := fun v mem => by
    obtain ⟨f, hf, used⟩ := h.mapped v mem
    exact ⟨f, hf, still _ used⟩
  have taken : ∀ page ∈ frames, usage' page = .outstanding ∧ page.toNat < 2 ^ 20 := fun page mem =>
    ⟨still _ (h.taken page mem).1, (h.taken page mem).2⟩
  have reserved : ∀ k, tables k ≠ 0 → usage' ((tables k).setWidth 32) ≠ .free := fun k nz => kept _ (h.reserved k nz)
  refine ⟨usage', ?_⟩
  by_cases zero : (pageAlloc mmap).1 = 0
  · rw [if_pos zero]
    exact ⟨inv, only, mapped, h.apart, taken, h.others, h.nodup, h.present, reserved, h.unmapped, h.kept⟩
  · obtain ⟨free, used⟩ := fresh zero
    rw [if_neg zero]
    refine ⟨inv, only, mapped, h.apart, List.forall_mem_cons.mpr ⟨⟨used, small zero⟩, taken⟩,
      List.forall_mem_cons.mpr ⟨h.free zero, h.others⟩, List.nodup_cons.mpr ⟨fun mem => ?_, h.nodup⟩, h.present, reserved,
      h.unmapped, fun k nz => List.forall_mem_cons.mpr ⟨fun e => ?_, h.kept k nz⟩⟩
    · rw [(h.taken _ mem).1] at free
      cases free
    · apply h.reserved k nz
      rw [← e, setWidth_setWidth (small zero)]
      exact free

/-- A frame becomes a page of the heap. -/
lemma Own.grow (h : Own mmap tables map heap (page :: frames) usage) {v : BitVec 20} (new : v ∉ heap)
    (table : tables (regionOf v) ≠ 0) :
    Own mmap tables (Function.update map v (some (page.setWidth 20))) (v :: heap) frames usage := by
  obtain ⟨⟨used, small⟩, taken⟩ := List.forall_mem_cons.mp h.taken
  obtain ⟨here, others⟩ := List.forall_mem_cons.mp h.others
  obtain ⟨once, nodup⟩ := List.nodup_cons.mp h.nodup
  have same : ∀ w ∈ heap, Function.update map v (some (page.setWidth 20)) w = map w := fun w hw =>
    Function.update_of_ne (ne_of_mem_of_not_mem hw new) _ _
  have self : Function.update map v (some (page.setWidth 20)) v = some (page.setWidth 20) := Function.update_self ..
  refine ⟨h.inv, h.only, ?_, ?_, taken, ?_, nodup, List.forall_mem_cons.mpr ⟨table, h.present⟩, h.reserved, ?_,
    fun k nz q hq => h.kept k nz q (List.mem_cons_of_mem page hq)⟩
  · refine List.forall_mem_cons.mpr ⟨⟨_, self, ?_⟩, fun w hw => ?_⟩
    · rw [setWidth_setWidth small]
      exact used
    · obtain ⟨f, hf, used⟩ := h.mapped w hw
      exact ⟨f, (same w hw).trans hf, used⟩
  · intro w hw w' hw' e
    rcases List.mem_cons.mp hw with rfl | old <;> rcases List.mem_cons.mp hw' with rfl | old'
    · rfl
    · rw [self, same w' old'] at e
      exact absurd e.symm (here w' old')
    · rw [self, same w old] at e
      exact absurd e (here w old)
    · rw [same w old, same w' old'] at e
      exact h.apart w old w' old' e
  · intro q mem w hw e
    rcases List.mem_cons.mp hw with rfl | hw
    · have e := congrArg (BitVec.setWidth 32) (Option.some.inj (self.symm.trans e))
      rw [setWidth_setWidth small, setWidth_setWidth (taken q mem).2] at e
      exact once (e ▸ mem)
    · rw [same w hw] at e
      exact others q mem w hw e
  · intro k nz w hw e
    rcases List.mem_cons.mp hw with rfl | hw
    · exact h.kept k nz page List.mem_cons_self (Option.some.inj (self.symm.trans e))
    · rw [same w hw] at e
      exact h.unmapped k nz w hw e

/-- A frame becomes a page table, for addresses at which the heap has no pages. -/
lemma Own.enter (h : Own mmap tables map heap (page :: frames) usage) (nz : page ≠ 0) (none : tables k = 0)
    {map' : BitVec 20 → Option (BitVec 20)} (same : ∀ v, regionOf v ≠ k → map' v = map v) :
    Own mmap (Function.update tables k (page.setWidth 20)) map' heap frames usage := by
  obtain ⟨⟨used, small⟩, taken⟩ := List.forall_mem_cons.mp h.taken
  obtain ⟨here, others⟩ := List.forall_mem_cons.mp h.others
  obtain ⟨once, nodup⟩ := List.nodup_cons.mp h.nodup
  have same : ∀ v ∈ heap, map' v = map v := fun v hv => same v fun e => h.present v hv (e ▸ none)
  -- what holds of the new table and of the old ones holds of all
  have all : ∀ P : BitVec 20 → Prop, P (page.setWidth 20) → (∀ k, tables k ≠ 0 → P (tables k)) →
      ∀ j, Function.update tables k (page.setWidth 20) j ≠ 0 → P (Function.update tables k (page.setWidth 20) j) := by
    intro P new old j hj
    rcases eq_or_ne j k with rfl | ne
    · rw [Function.update_self]
      exact new
    · rw [Function.update_of_ne ne] at hj ⊢
      exact old j hj
  refine ⟨h.inv, h.only, fun v hv => same v hv ▸ h.mapped v hv, fun v hv w hw => ?_, taken,
    fun q hq v hv => same v hv ▸ others q hq v hv, nodup, fun v hv => ?_, all (fun t => usage (t.setWidth 32) ≠ .free) ?_
    h.reserved, all (fun t => ∀ v ∈ heap, map' v ≠ some t) (fun v hv => same v hv ▸ here v hv)
    fun j hj v hv => same v hv ▸ h.unmapped j hj v hv, all (fun t => ∀ q ∈ frames, q.setWidth 20 ≠ t) ?_
    fun j hj q hq => h.kept j hj q (List.mem_cons_of_mem page hq)⟩
  · rw [same v hv, same w hw]
    exact h.apart v hv w hw
  · rw [Function.update_apply]
    split
    · exact setWidth_ne_zero small nz
    · exact h.present v hv
  · rw [setWidth_setWidth small, used]
    exact Usage.noConfusion
  · intro q hq e
    have e := congrArg (BitVec.setWidth 32) e
    rw [setWidth_setWidth small, setWidth_setWidth (taken q hq).2] at e
    exact once (e ▸ hq)

/-- A page table for the addresses of the next page. -/
lemma Own.setTable {s : Kas} (h : Own s.mmap s.tables s.map heap frames usage)
    (table : s.tables k = 0 → (pageAlloc s.mmap).1 ≠ 0) : ∃ usage',
      Own (s.setTable k).mmap (s.setTable k).tables (s.setTable k).map heap frames usage' ∧
      (s.setTable k).tables k ≠ 0 ∧ ∀ v ∈ heap, (s.setTable k).map v = s.map v := by
  by_cases zero : s.tables k = 0
  · have nz := table zero
    obtain ⟨usage', own⟩ := h.frame
    rw [if_neg nz] at own
    have same : ∀ v, regionOf v ≠ k → (if regionOf v = k then
        shown (entryAt (s.frame ((pageAlloc s.mmap).1.setWidth 20)) (slotOf v)) else s.map v) = s.map v :=
      fun v ne => if_neg ne
    have next := own.enter nz zero same
    rw [Kas.setTable, if_pos zero]
    refine ⟨usage', next, ?_, fun v hv => same v fun e => h.present v hv (e ▸ zero)⟩
    show Function.update s.tables k _ k ≠ 0
    rw [Function.update_self]
    exact setWidth_ne_zero (h.only.pageAlloc.1 nz) nz
  · rw [Kas.setTable, if_neg zero]
    exact ⟨usage, h, zero, fun _ _ => rfl⟩

/-- A frame may be given back. -/
lemma Own.release (h : Own mmap tables map heap frames usage) (mem : page ∈ frames) :
    ∃ usage', Own (pageFree page mmap) tables map heap (frames.erase page) usage' := by
  obtain ⟨used, small⟩ := h.taken page mem
  obtain ⟨usage', inv, other⟩ : ∃ usage', Inv ⟨pageFree page mmap, usage'⟩ ∧ ∀ q, q ≠ page → usage' q = usage q := by
    rcases pageFree_cases page mmap with ⟨-, e⟩ | ⟨l1, r, l2, split, acc, e⟩
    · rw [e]
      exact ⟨usage, h.inv, fun _ _ => rfl⟩
    · rw [e]
      have held : usage page ≠ .free := fun e => Usage.noConfusion (used.symm.trans e)
      exact ⟨_, h.inv.mark split acc held, fun q ne => Function.update_of_ne ne _ _⟩
  have rest : ∀ q ∈ frames.erase page, q ∈ frames ∧ q ≠ page := fun q hq =>
    ⟨List.mem_of_mem_erase hq, ((List.Nodup.mem_erase_iff h.nodup).mp hq).1⟩
  refine ⟨usage', inv, h.only.pageFree small, fun v hv => ?_, h.apart, fun q hq => ?_, fun q hq => ?_, h.nodup.erase page,
    h.present, fun k nz => ?_, h.unmapped, fun k nz q hq => h.kept k nz q (rest q hq).1⟩
  · obtain ⟨f, hf, used⟩ := h.mapped v hv
    refine ⟨f, hf, ?_⟩
    rwa [other]
    rintro rfl
    apply h.others _ mem v hv
    rw [hf, setWidth_setWidth']
  · obtain ⟨hq, ne⟩ := rest q hq
    rw [other q ne]
    exact h.taken q hq
  · exact h.others q (rest q hq).1
  · rw [other]
    · exact h.reserved k nz
    · intro e
      apply h.kept k nz page mem
      rw [← e, setWidth_setWidth']

end Own

/-! ### The list of free pages -/

/-- From `p` the first words of the pages lead through these pages. -/
def Links (s : Kas) : List (BitVec 20) → Addr → Prop
  | [], p => p = 0
  | v :: l, p => p = base v ∧ ∃ f, s.map v = some f ∧ Links s l (word (s.frame f))

section Links
variable {s s' : Kas} {l : List (BitVec 20)} {p : Addr} {v f : BitVec 20}

/-- A list in pages that did not change. -/
lemma Links.congr (h : Links s l p)
    (same : ∀ v ∈ l, ∀ f, s.map v = some f → s'.map v = some f ∧ s'.frame f = s.frame f) : Links s' l p := by
  induction l generalizing p with
  | nil => exact h
  | cons v l ih =>
    obtain ⟨rfl, f, hf, rest⟩ := h
    obtain ⟨map, frame⟩ := same v List.mem_cons_self f hf
    refine ⟨rfl, f, map, ?_⟩
    rw [frame]
    exact ih rest fun w hw => same w (List.mem_cons_of_mem v hw)

/-- The first address of a page is not null. -/
lemma base_ne_zero (nz : v ≠ 0) : base v ≠ 0 := by
  intro e
  apply nz
  rw [← pageOf_base v, e]
  rfl

/-- Heap code in sequence. -/
lemma bind_eq {α β : Type} (x : KasCode α) (k : α → KasCode β) (s : Kas) :
    (x >>= k) s = (x s).bind fun r => k r.1 r.2 := rfl

/-- Heap code that only gives a value. -/
lemma pure_eq {α : Type} (x : α) (s : Kas) : (pure x : KasCode α) s = some (x, s) := rfl

/-- Reading the state of the heap. -/
lemma get_eq (s : Kas) : (get : KasCode Kas) s = some (s, s) := rfl

/-- Writing the state of the heap. -/
lemma set_eq (t s : Kas) : (set t : KasCode PUnit) s = some ((), t) := rfl

/-- Changing the state of the heap. -/
lemma modify_eq (k : Kas → Kas) (s : Kas) : (modify k : KasCode PUnit) s = some ((), k s) := rfl

/-- A page of the list is taken off it. -/
lemma pageHeapAlloc_cached (cache : s.heap_cache = base v) (nz : base v ≠ 0) (hv : s.map v = some f) :
    pageHeapAlloc s = some (base v, { s with heap_cache := word (s.frame f) }.with f fun _ => 0) := by
  have next := load_base hv
  have clear := memset_page (s := { s with heap_cache := word (s.frame f) }) hv 0
  simp only [pageHeapAlloc, bind_eq, get_eq, pure_eq, modify_eq, Option.bind_some, if_pos nz, cache, next, clear]

/-- The region of a page. -/
lemma region_base (v : BitVec 20) : region (base v) = regionOf v := by
  apply BitVec.eq_of_toNat_eq
  rw [region, regionOf, BitVec.extractLsb'_toNat, BitVec.extractLsb'_toNat, base_toNat, Nat.shiftRight_eq_div_pow,
    Nat.shiftRight_eq_div_pow]
  omega

/-- The memory when the next page has a frame and a page table. -/
def Kas.ready (s : Kas) (v : BitVec 20) : Kas :=
  { s with nextalloc := base v + 4096, mmap := (pageAlloc s.mmap).2 }.setTable (regionOf v)

/-- A new page table leaves the bytes of the frames and the variables as they are. -/
lemma Kas.ready_rest (s : Kas) (v : BitVec 20) : (s.ready v).frame = s.frame ∧ (s.ready v).heap_cache = s.heap_cache ∧
    (s.ready v).nextalloc = base v + 4096 := by
  rw [Kas.ready, Kas.setTable]
  split <;> exact ⟨rfl, rfl, rfl⟩

/-- The memory when the next page is mapped to the frame, with zeros in it. -/
def Kas.grown (s : Kas) (v : BitVec 20) : Kas :=
  { s.ready v with map := Function.update (s.ready v).map v (some ((pageAlloc s.mmap).1.setWidth 20)) }.with
    ((pageAlloc s.mmap).1.setWidth 20) fun _ => 0

/-- The new page has zeros. -/
lemma Kas.grown_self (s : Kas) (v : BitVec 20) (o : BitVec 12) : (s.grown v).byte v o = some 0 := by
  rw [Kas.byte]
  show (Function.update (s.ready v).map v _ v).map _ = _
  rw [Function.update_self, Option.map_some, Kas.grown, Kas.with_frame]

/-- The other pages keep their bytes. -/
lemma Kas.grown_other {w : BitVec 20} (ne : w ≠ v) (hf : (s.ready v).map w = some f)
    (other : f ≠ (pageAlloc s.mmap).1.setWidth 20) (o : BitVec 12) : (s.grown v).byte w o = some (s.frame f o) := by
  obtain ⟨frame, -, -⟩ := s.ready_rest v
  rw [Kas.byte]
  show (Function.update (s.ready v).map v _ w).map _ = _
  rw [Function.update_of_ne ne, hf, Option.map_some, Kas.grown, with_frame_ne other]
  show some ((s.ready v).frame f o) = _
  rw [frame]

/-- The heap grows. -/
lemma pageHeapAlloc_grow (cache : s.heap_cache = 0) (next : s.nextalloc = base v) (below : regionOf v < WINDOWS) :
    pageHeapAlloc s = some (base v, s.grown v) := by
  have clear := memset_page (s := { s.ready v with
    map := Function.update (s.ready v).map v (some ((pageAlloc s.mmap).1.setWidth 20)) }) (Function.update_self ..) 0
  have none : ¬s.heap_cache ≠ 0 := fun nz => nz cache
  rw [Kas.ready] at clear
  simp only [pageHeapAlloc, bind_eq, get_eq, pure_eq, set_eq, Option.bind_some, if_neg none, archHeapPage, next, vmapMap,
    region_base, if_pos below, pageOf_base, clear, Kas.grown, Kas.ready]

/-- Freeing a page puts it in front of the list. -/
lemma pageHeapFree_eq (hv : s.map v = some f) : pageHeapFree (base v) s =
    some ((), { s.with f (setWord (s.frame f) s.heap_cache) with heap_cache := base v }) := by
  have link := store_base hv s.heap_cache
  simp only [pageHeapFree, bind_eq, get_eq, modify_eq, link, Option.bind_some]

end Links

/-! ### The invariant -/

/-- The pages of the heap are those on the list and those that are held. -/
structure Good (a : Nat) (s : Holders) (cached : List (BitVec 20)) (usage : PageNo → Usage) : Prop where
  own : Own s.kas.mmap s.kas.tables s.kas.map (cached ++ s.held) s.frames usage
  links : Links s.kas cached s.kas.heap_cache
  nonzero : ∀ v ∈ cached ++ s.held, v ≠ 0
  extent : ∃ n, ((cached ++ s.held).map BitVec.toNat).Perm (List.range' a n) ∧
    s.kas.nextalloc = BitVec.ofNat 32 (4096 * (a + n))

section Good
variable {a : Nat} {s s' : Holders} {cached : List (BitVec 20)} {usage : PageNo → Usage}
  {v w f : BitVec 20}

/-- Pages are not both in the list and held, and not twice. -/
lemma Good.nodup (h : Good a s cached usage) : (cached ++ s.held).Nodup := by
  obtain ⟨n, perm, -⟩ := h.extent
  exact (perm.nodup_iff.mpr List.nodup_range').of_map _

/-- The frame of a page is not the one of another. -/
lemma Good.frame_ne (h : Good a s cached usage) (hv : v ∈ cached ++ s.held) (hf : s.kas.map v = some f)
    (hw : w ∈ cached ++ s.held) (ne : w ≠ v) {f' : BitVec 20} (hf' : s.kas.map w = some f') : f' ≠ f := by
  rintro rfl
  exact ne (h.own.apart w hw v hv (hf'.trans hf.symm))

/-- The place of the next page. -/
lemma Good.next (h : Good a s cached usage) (low : a < 2 ^ 20) (nz : s.kas.nextalloc ≠ 0) :
    ∃ v n, s.kas.nextalloc = base v ∧ v.toNat = a + n ∧ ((cached ++ s.held).map BitVec.toNat).Perm (List.range' a n) := by
  obtain ⟨n, perm, next⟩ := h.extent
  have le : a + n ≤ 2 ^ 20 := by
    rcases Nat.eq_zero_or_pos n with rfl | pos
    · omega
    · have mem : a + (n - 1) ∈ List.range' a n := List.mem_range'_1.mpr ⟨by omega, by omega⟩
      obtain ⟨v, -, e⟩ := List.mem_map.mp (perm.mem_iff.mpr mem)
      have := v.isLt
      omega
  have lt : a + n < 2 ^ 20 := by
    rcases Nat.lt_or_eq_of_le le with lt | e
    · exact lt
    · rw [next, e] at nz
      exact absurd rfl nz
  have place : (BitVec.ofNat 20 (a + n)).toNat = a + n := by
    rw [BitVec.toNat_ofNat, Nat.mod_eq_of_lt lt]
  refine ⟨BitVec.ofNat 20 (a + n), n, ?_, place, perm⟩
  apply BitVec.eq_of_toNat_eq
  rw [next, base_toNat, place, BitVec.toNat_ofNat, Nat.mod_eq_of_lt (by omega)]

/-- The list is empty if it has no first page. -/
lemma Good.cached_nil (h : Good a s cached usage) (cache : s.kas.heap_cache = 0) : cached = [] := by
  cases cached with
  | nil => rfl
  | cons v l =>
    have head := h.links.1
    exact absurd (head.symm.trans cache) (base_ne_zero (h.nonzero v List.mem_cons_self))

/-- An allocation gives the page `v`, with the memory `kas` after it. -/
structure Allocates (s : Holders) (v : BitVec 20) (kas : Kas) : Prop where
  alloc : pageHeapAlloc s.kas = some (base v, kas)
  new : v ∉ s.held
  zeros : ∀ o, kas.byte v o = some 0
  same : ∀ w ∈ s.held, ∀ o, kas.byte w o = s.kas.byte w o

/-- The next page is none that is there already. -/
lemma notMem_of_next {n : Nat} {l : List (BitVec 20)} (place : v.toNat = a + n)
    (perm : (l.map BitVec.toNat).Perm (List.range' a n)) : v ∉ l := by
  intro mem
  have mem := perm.mem_iff.mp (List.mem_map_of_mem (f := BitVec.toNat) mem)
  rw [place, List.mem_range'_1] at mem
  omega

/-- The pages with the next one. -/
lemma perm_next {n : Nat} {l : List (BitVec 20)} (place : v.toNat = a + n)
    (perm : (l.map BitVec.toNat).Perm (List.range' a n)) :
    ((v :: l).map BitVec.toNat).Perm (List.range' a (n + 1)) := by
  rw [List.map_cons, List.range'_concat, place, Nat.one_mul]
  exact (perm.cons _).trans (List.perm_append_singleton _ _).symm

/-- The address behind the next page. -/
lemma base_add_page {n : Nat} (place : v.toNat = a + n) :
    base v + 4096 = BitVec.ofNat 32 (4096 * (a + (n + 1))) := by
  apply BitVec.eq_of_toNat_eq
  have size : (4096 : BitVec 32).toNat = 4096 := rfl
  rw [BitVec.toNat_add, base_toNat, place, BitVec.toNat_ofNat, size, ← Nat.add_assoc, Nat.mul_succ]

/-- An allocation that the heap grows for. -/
lemma Good.alloc_grow (h : Good a s [] usage) (low : a < 2 ^ 20) (grows : Grows s.kas) :
    ∃ v kas usage', Allocates s v kas ∧ Good a { s with kas := kas, held := v :: s.held } [] usage' := by
  have cache : s.kas.heap_cache = 0 := h.links
  obtain ⟨v, n, next, place, perm⟩ := h.next low grows.nonzero
  have below := grows.below
  have table := grows.table
  rw [next, region_base] at below table
  have new : v ∉ s.held := notMem_of_next place perm
  -- the frame is allocated first, then the page table
  obtain ⟨usage1, own⟩ := h.own.frame
  rw [if_neg grows.page] at own
  obtain ⟨usage', own, present, mapped⟩ := Own.setTable (k := regionOf v)
    (s := { s.kas with nextalloc := base v + 4096, mmap := (pageAlloc s.kas.mmap).2 }) own table
  have other : ∀ w ∈ s.held, ∀ f, s.kas.map w = some f → f ≠ (pageAlloc s.kas.mmap).1.setWidth 20 := by
    rintro w hw f hf rfl
    exact h.own.free grows.page w hw hf
  obtain ⟨-, heap_cache, nextalloc⟩ := s.kas.ready_rest v
  have nonzero : v ≠ 0 := by
    rintro rfl
    exact grows.nonzero next
  have good : Good a { s with kas := s.kas.grown v, held := v :: s.held } [] usage' :=
    ⟨own.grow new present, heap_cache.trans cache, List.forall_mem_cons.mpr ⟨nonzero, h.nonzero⟩, n + 1,
      perm_next place perm, nextalloc.trans (base_add_page place)⟩
  refine ⟨v, s.kas.grown v, usage', ⟨pageHeapAlloc_grow cache next below, new, s.kas.grown_self v, fun w hw o => ?_⟩, good⟩
  obtain ⟨f, hf, -⟩ := h.own.mapped w hw
  have kept : (s.kas.ready v).map w = some f := (mapped w hw).trans hf
  rw [Kas.grown_other (ne_of_mem_of_not_mem hw new) kept (other w hw f hf), Kas.byte, hf, Option.map_some]

/-- An allocation that takes a page off the list. -/
lemma Good.alloc_cached {l : List (BitVec 20)} (h : Good a s (v :: l) usage) :
    ∃ kas, Allocates s v kas ∧ Good a { s with kas := kas, held := v :: s.held } l usage := by
  obtain ⟨cache, f, hf, links⟩ := h.links
  have nodup := h.nodup
  obtain ⟨new, -⟩ := List.nodup_cons.mp nodup
  have here : v ∈ v :: l ++ s.held := List.mem_cons_self
  have other : ∀ w ∈ l ++ s.held, ∀ f', s.kas.map w = some f' → f' ≠ f := fun w hw f' hf' =>
    h.frame_ne here hf (List.mem_cons_of_mem v hw) (ne_of_mem_of_not_mem hw new) hf'
  have move : (v :: l ++ s.held).Perm (l ++ v :: s.held) := List.perm_middle.symm
  have sub : ∀ w ∈ l ++ v :: s.held, w ∈ v :: l ++ s.held := fun w hw => move.mem_iff.mpr hw
  obtain ⟨n, perm, next⟩ := h.extent
  refine ⟨_, ⟨pageHeapAlloc_cached cache (base_ne_zero (h.nonzero v here)) hf,
    fun mem => new (List.mem_append_right l mem), fun o => ?_, fun w hw o => ?_⟩,
    ⟨h.own.congr sub,
      links.congr fun w hw f' hf' => ⟨hf', with_frame_ne (other w (List.mem_append_left _ hw) f' hf') _⟩,
      fun w hw => h.nonzero w (sub w hw), n, (move.map _).symm.trans perm, next⟩⟩
  · rw [Kas.byte]
    show (s.kas.map v).map _ = _
    rw [hf, Option.map_some, Kas.with_frame]
  · rw [Kas.byte, Kas.byte]
    show (s.kas.map w).map _ = _
    obtain ⟨f', hf', -⟩ := h.own.mapped w (List.mem_cons_of_mem v (List.mem_append_right l hw))
    rw [hf', Option.map_some, Option.map_some, with_frame_ne (other w (List.mem_append_right l hw) f' hf')]

/-- What an allocation does, if there is room for it. -/
lemma Good.alloc (h : Good a s cached usage) (low : a < 2 ^ 20) (room : Room s.kas) :
    ∃ v kas cached' usage', Allocates s v kas ∧ Good a { s with kas := kas, held := v :: s.held } cached' usage' := by
  cases cached with
  | nil =>
    have cache : s.kas.heap_cache = 0 := h.links
    obtain ⟨v, kas, usage', allocates, good⟩ := h.alloc_grow low (room cache)
    exact ⟨v, kas, [], usage', allocates, good⟩
  | cons v l =>
    obtain ⟨kas, allocates, good⟩ := h.alloc_cached
    exact ⟨v, kas, l, usage, allocates, good⟩

/-- Other bytes in a frame that is not one of the list. -/
lemma Good.with (h : Good a s cached usage) (g : BitVec 12 → BitVec 8)
    (ne : ∀ w ∈ cached, ∀ f', s.kas.map w = some f' → f' ≠ f) :
    Good a { s with kas := s.kas.with f g } cached usage :=
  ⟨h.own, h.links.congr fun w hw f' hf' => ⟨hf', with_frame_ne (ne w hw f' hf') g⟩, h.nonzero, h.extent⟩

/-- Other ranges and frames of others. -/
lemma Good.others (h : Good a s cached usage) {mmap : List Mmap} {frames : List PageNo} {usage' : PageNo → Usage}
    (own : Own mmap s.kas.tables s.kas.map (cached ++ s.held) frames usage') :
    Good a { s with kas := { s.kas with mmap := mmap }, frames := frames } cached usage' :=
  ⟨own, h.links.congr fun _ _ _ hf => ⟨hf, rfl⟩, h.nonzero, h.extent⟩

/-- Freeing a page that is held keeps everything in order. -/
lemma Good.freePage (h : Good a s cached usage) (mem : v ∈ s.held) :
    ∃ kas, pageHeapFree (base v) s.kas = some ((), kas) ∧
      Good a { s with kas := kas, held := s.held.erase v } (v :: cached) usage := by
  have here : v ∈ cached ++ s.held := List.mem_append_right cached mem
  obtain ⟨f, hf, -⟩ := h.own.mapped v here
  have new : v ∉ cached := fun listed => (List.nodup_append.mp h.nodup).2.2 v listed v mem rfl
  have move : (cached ++ s.held).Perm (v :: cached ++ s.held.erase v) :=
    ((List.perm_cons_erase mem).append_left cached).trans List.perm_middle
  have sub : ∀ w ∈ v :: cached ++ s.held.erase v, w ∈ cached ++ s.held := fun w hw => move.mem_iff.mpr hw
  obtain ⟨n, perm, next⟩ := h.extent
  refine ⟨_, pageHeapFree_eq hf, h.own.congr sub, ⟨rfl, f, hf, ?_⟩, fun w hw => h.nonzero w (sub w hw), n,
    (move.map _).symm.trans perm, next⟩
  show Links _ cached (word ((s.kas.with f _).frame f))
  rw [Kas.with_frame, word_setWord]
  refine h.links.congr fun w hw f' hf' => ⟨hf', with_frame_ne ?_ _⟩
  exact h.frame_ne here hf (List.mem_append_left _ hw) (ne_of_mem_of_not_mem hw new) hf'

/-- What every step keeps. -/
lemma Good.act (h : Good a s cached usage) (low : a < 2 ^ 20) {e : Act} (run : act s e = some s')
    (roomy : Roomy s e) : ∃ cached' usage', Good a s' cached' usage' := by
  cases e with
  | alloc =>
    obtain ⟨v, kas, cached', usage', ⟨alloc, -, -, -⟩, good⟩ := h.alloc low roomy
    rw [Page.act, alloc] at run
    cases run
    show ∃ cached' usage', Good a { s with kas := kas, held := pageOf (base v) :: s.held } cached' usage'
    rw [pageOf_base]
    exact ⟨cached', usage', good⟩
  | free v =>
    obtain ⟨mem, run⟩ := Option.ite_none_right_eq_some.mp run
    obtain ⟨kas, free, good⟩ := h.freePage mem
    rw [free] at run
    cases run
    exact ⟨_, usage, good⟩
  | write v o x =>
    obtain ⟨mem, run⟩ := Option.ite_none_right_eq_some.mp run
    obtain ⟨kas, set, rfl⟩ := Option.map_eq_some_iff.mp run
    obtain ⟨f, hf, rfl⟩ := Option.map_eq_some_iff.mp set
    refine ⟨cached, usage, h.with _ fun w hw f' hf' => ?_⟩
    have new : w ≠ v := fun e => (List.nodup_append.mp h.nodup).2.2 w hw v mem e
    exact h.frame_ne (List.mem_append_right cached mem) hf (List.mem_append_left _ hw) new hf'
  | frame =>
    cases run
    obtain ⟨usage', own⟩ := h.own.frame
    exact ⟨cached, usage', h.others own⟩
  | release page =>
    obtain ⟨mem, ⟨⟩⟩ := Option.ite_none_right_eq_some.mp run
    obtain ⟨usage', own⟩ := h.own.release (List.contains_iff_mem.mp mem)
    exact ⟨cached, usage', h.others own⟩
  | fill page x =>
    obtain ⟨mem, ⟨⟩⟩ := Option.ite_none_right_eq_some.mp run
    refine ⟨cached, usage, h.with x fun w hw f' hf' => ?_⟩
    rintro rfl
    exact h.own.others page (List.contains_iff_mem.mp mem) w (List.mem_append_left _ hw) hf'

/-- What every state shows. -/
lemma Good.fresh (h : Good a s cached usage) (low : a < 2 ^ 20) : Fresh (BitVec.ofNat 32 (4096 * a)) s where
  gives room := by
    obtain ⟨v, kas, -, -, given, -⟩ := h.alloc low room
    exact ⟨v, kas, given.alloc, given.new, given.zeros, given.same⟩
  mapped v hv := by
    obtain ⟨f, hf, -⟩ := h.own.mapped v (List.mem_append_right cached hv)
    exact hf ▸ rfl
  apart v hv w hw := h.own.apart v (List.mem_append_right cached hv) w (List.mem_append_right cached hw)
  others page mem v hv := h.own.others page mem v (List.mem_append_right cached hv)
  tables k nz := ⟨fun v hv => h.own.unmapped k nz v (List.mem_append_right cached hv), h.own.kept k nz⟩
  free page v hv := h.own.free page v (List.mem_append_right cached hv)
  nodup := (List.nodup_append.mp h.nodup).2.1
  used cache := by
    obtain ⟨n, perm, next⟩ := h.extent
    have length := perm.length_eq
    rw [h.cached_nil cache, List.nil_append, List.length_map, List.length_range'] at length
    rw [next, length, ARCH_PAGE_SIZE, Nat.mul_add, BitVec.ofNat_add]

end Good

/-! ### From boot on -/

/-- The start of the heap is the start of a page. -/
lemma bootstrapFinish_page (p : Addr) : ∃ a, a < 2 ^ 20 ∧ bootstrapFinish p = BitVec.ofNat 32 (4096 * a) := by
  have bound := (p + 4096).isLt
  have round : bootstrapFinish p = (p + 4096) >>> 12 <<< 12 := Word.and_not_eq_shift (p + 4096) 12
  refine ⟨(p + 4096).toNat / 4096, by omega, ?_⟩
  rw [round]
  apply BitVec.eq_of_toNat_eq
  rw [BitVec.toNat_shiftLeft, BitVec.toNat_ushiftRight, BitVec.toNat_ofNat, Nat.shiftLeft_eq, Nat.shiftRight_eq_div_pow,
    Nat.mul_comm]

/-- Memory below 4 GiB has page numbers of 20 bits. -/
lemma booted_low {es : List MmapEntry} (low : ∀ e ∈ es, e.page.toNat + e.count.toNat ≤ 2 ^ 20) (pstart pend : PageNo) :
    Only (fun page => page.toNat < 2 ^ 20) (booted es pstart pend) := by
  apply Only.freeAll
  · intro r mem i bit
    obtain ⟨e, -, rfl⟩ := List.mem_map.mp mem
    exact absurd ((test_empty i).symm.trans bit) Bool.false_ne_true
  · intro page mem
    obtain ⟨e, he, mem⟩ := List.mem_flatMap.mp mem
    have has := BitVec.lt_def.mp (mem_freed.mp mem).1
    have low := low e he
    rw [BitVec.toNat_sub] at has
    omega

/-- The memory when the heap starts: no page was freed. -/
def Boot.kas (s : Boot) (tables : BitVec 10 → BitVec 20) (map : BitVec 20 → Option (BitVec 20))
    (frame : BitVec 20 → BitVec 12 → BitVec 8) : Kas where
  mmap := s.mmap
  tables := tables
  map := map
  frame := frame
  -- `vmap_init` takes a page to know where the image ends
  nextalloc := bootstrapFinish (s.nextalloc + 4096)
  heap_cache := 0

/-- After the passes over the memory map, on a machine without memory above 4 GB and with page tables in the kernel image:
    whatever is allocated, freed and written, in heap pages and in other frames, as long as there is room for the
    allocations, `page_heap_alloc` gives out fresh pages only. -/
theorem heap_pages_always (img : Image) (info : Option MultibootInfo) (few : (available info).length ≤ 32)
    (disjoint : (available info).Pairwise fun a b => ∀ page, ¬(a.Has page ∧ b.Has page))
    (low : ∀ e ∈ available info, e.page.toNat + e.count.toNat ≤ 2 ^ 20) (s : Boot)
    (run : Prog.Returns (archInitMmap img info) ⟨[], img.bootstrap_nextalloc⟩ () s) (tables : BitVec 10 → BitVec 20)
    (image : ∀ k, tables k ≠ 0 → Kernel img s ((tables k).setWidth 32)) (map : BitVec 20 → Option (BitVec 20))
    (frame : BitVec 20 → BitVec 12 → BitVec 8) (events : List Act)
    (meets : Meets act Roomy ⟨s.kas tables map frame, [], []⟩ events) :
    Always act (Fresh (s.kas tables map frame).nextalloc) ⟨s.kas tables map frame, [], []⟩ events := by
  have fits : ∀ e ∈ available info, e.count.toNat < 2 ^ 31 ∧ e.page.toNat + e.count.toNat ≤ 2 ^ 32 := fun e he => by
    have := low e he
    omega
  obtain ⟨-, state⟩ := Prog.Returns.unique run (archInitMmap_returns img few)
  obtain ⟨usage, complete, free⟩ := booted_complete few disjoint fits img.pstart (img.pend (img.behind (available info)))
  obtain ⟨a, small, start⟩ := bootstrapFinish_page (s.nextalloc + 4096)
  have begin : (s.kas tables map frame).nextalloc = BitVec.ofNat 32 (4096 * a) := start
  have good : Good a ⟨s.kas tables map frame, [], []⟩ [] usage := by
    have nobody : ∀ {α : Type} (P : α → Prop), ∀ x ∈ ([] : List α), P x := fun P x mem => absurd mem List.not_mem_nil
    refine ⟨⟨?_, ?_, nobody _, nobody _, nobody _, nobody _, .nil, nobody _, fun k nz mem => ?_, fun _ _ => nobody _,
      fun _ _ => nobody _⟩, rfl, nobody _, 0, .refl _, begin⟩
    · rw [state]
      exact complete.toInv
    · rw [state]
      exact booted_low low _ _
    · -- the pages of the kernel image are not free
      obtain ⟨ge, le⟩ := image k nz
      rw [state] at le
      rcases of_decide_eq_true ((free _).mp mem).2 with lt | lt
      · exact absurd lt (BitVec.not_lt.mpr ge)
      · exact absurd lt (BitVec.not_lt.mpr le)
  have inv : Always act (fun s => ∃ cached usage, Good a s cached usage) ⟨s.kas tables map frame, [], []⟩ events :=
    always_of_meets (fun _ _ _ h run roomy => by
      obtain ⟨cached, usage, h⟩ := h
      exact h.act small run roomy) ⟨[], usage, good⟩ meets
  rw [begin]
  refine inv.imp fun s h => ?_
  obtain ⟨cached, usage, h⟩ := h
  exact h.fresh small

/-- A memory map with one entry of four pages. -/
def tinyMap : MultibootInfo where
  flags := 0x40
  mmap_length := 24
  mmap _ := ⟨0x200000, 0x4000, 1⟩

def tinyBoot : Boot := ⟨booted [⟨0x200000, 0x4000, 1⟩] 0x100 0x125, 0xf0125010⟩

/-- The page table of the kernel image is a page of the image. -/
def tinyTables (k : BitVec 10) : BitVec 20 := if k = 0x3c0 then 0x120 else 0

/-- A frame is taken, then a page of the heap. -/
theorem heap_pages_tiny : Prog.Returns (archInitMmap smallImage (some tinyMap)) ⟨[], 0xf0125000⟩ () tinyBoot ∧
    ∀ map frame, Always act (Fresh (tinyBoot.kas tinyTables map frame).nextalloc)
      ⟨tinyBoot.kas tinyTables map frame, [], []⟩ [.frame, .alloc] := by
  have few : (available (some tinyMap)).length ≤ 32 := by decide
  have entries : available (some tinyMap) = [⟨0x200000, 0x4000, 1⟩] := by decide
  have run : Prog.Returns (archInitMmap smallImage (some tinyMap)) ⟨[], 0xf0125000⟩ () tinyBoot := by
    have run := archInitMmap_returns smallImage few
    rw [entries] at run
    exact run
  have page : (pageAlloc (pageAlloc tinyBoot.mmap).2).1 ≠ 0 := by decide
  have nonzero : bootstrapFinish (tinyBoot.nextalloc + 4096) ≠ 0 := by decide
  have here : region (bootstrapFinish (tinyBoot.nextalloc + 4096)) = 0x3c0 := by decide
  have grows : ∀ kas : Kas, kas.tables = tinyTables → kas.nextalloc = bootstrapFinish (tinyBoot.nextalloc + 4096) →
      (pageAlloc kas.mmap).1 ≠ 0 → Grows kas := by
    intro kas tables next page
    refine ⟨next ▸ nonzero, ?_, page, fun none => ?_⟩
    · rw [next, here]
      decide
    · rw [tables, next, here] at none
      exact absurd none (by decide)
  refine ⟨run, fun map frame => heap_pages_always smallImage (some tinyMap) few ?_ (by decide) tinyBoot run tinyTables
    (fun k nz => ?_) map frame _ ?_⟩
  · rw [entries]
    exact List.pairwise_singleton _ _
  · rw [tinyTables] at nz ⊢
    split at nz
    · next here =>
      rw [if_pos here]
      exact ⟨by decide, by decide⟩
    · exact absurd rfl nz
  · intro s step
    refine ⟨trivial, fun s' step' => ⟨fun _ => ?_, trivial⟩⟩
    rw [← Option.some.inj step]
    exact grows _ rfl rfl page

end Twcos.Page
