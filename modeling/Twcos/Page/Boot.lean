import Mathlib.Data.List.Nodup
import Twcos.Page.Alloc
import Twcos.Prog.Basic

/-!
# Memory at boot

Model of the part of `arch_init` (`arch/i386/init.c`) that hands physical memory to the page allocator, with
`multiboot_init` and `multiboot_mmap` of `arch/i386/multiboot.c`. A first pass over the memory map registers the
available ranges; the bitmaps are taken from behind the kernel image by `bootstrap_alloc`. A second pass frees the pages
of the ranges, except those of the image and the bitmaps. What `arch_init` does after the passes (`vmap_init`, `vm_init`,
the segments of the kernel, `pci_scan`) is not part of the model.

C → Lean naming: the two passes of `arch_init` → `archInitMmap`; `multiboot_info_t` → `MultibootInfo`,
`multiboot_memory_map_t` → `MmapEntry` with the fields that are read; `bootstrap_alloc` → `bootstrapAlloc`; the loops over
`multiboot_mmap(i)` → `forEntries`, the loop over the pages of an entry → `freePages`.
-/

namespace Twcos.Page
open Twcos.Run Twcos.Prog

/-- `multiboot_memory_map_t`. -/
structure MmapEntry where
  addr : BitVec 64
  len : BitVec 64
  type : BitVec 32
deriving DecidableEq

/-- `multiboot_info_t`; `mmap` is the table at `mmap_addr`. -/
structure MultibootInfo where
  flags : BitVec 32
  mmap_length : BitVec 32
  mmap : Nat → MmapEntry

def MULTIBOOT_BOOTLOADER_MAGIC : BitVec 32 := 0x2BADB002

def MULTIBOOT_INFO_MEM_MAP : BitVec 32 := 0x40

def MULTIBOOT_MEMORY_AVAILABLE : BitVec 32 := 1

/-- `multiboot_init`. -/
def multibootInit (magic : BitVec 32) (p : MultibootInfo) : Option MultibootInfo :=
  if MULTIBOOT_BOOTLOADER_MAGIC = magic then some p else none

/-- The number of entries of the table, which have 24 bytes each. -/
def MultibootInfo.entries (info : MultibootInfo) : Nat :=
  if info.flags &&& MULTIBOOT_INFO_MEM_MAP ≠ 0 then info.mmap_length.toNat / 24 else 0

/-- `multiboot_mmap`. -/
def multibootMmap (info : Option MultibootInfo) (index : Nat) : Option MmapEntry :=
  info.bind fun info => if index < info.entries then some (info.mmap index) else none

/-- The first page of an entry. -/
def MmapEntry.page (e : MmapEntry) : PageNo := (e.addr >>> 12).setWidth 32

def MmapEntry.count (e : MmapEntry) : BitVec 32 := (e.len >>> 12).setWidth 32

/-- What the linker says: `_bootstrap_start`, `_bootstrap_nextalloc`, and how far the kernel's addresses are above the
    physical ones. -/
structure Image where
  bootstrap_start : BitVec 32
  bootstrap_nextalloc : BitVec 32
  koffset : BitVec 32

/-- The table of ranges, and `nextalloc`. -/
structure Boot where
  mmap : List Mmap
  nextalloc : BitVec 32

/-- The table of ranges is full. -/
inductive BootFault where
  | table

section Boot
variable (img : Image) (info : Option MultibootInfo)

abbrev BootCode (α : Type) := Prog BootFault Boot α

/-- `bootstrap_alloc`. -/
def bootstrapAlloc (size : BitVec 32) : BootCode (BitVec 32) := do
  let m ← asks Boot.nextalloc
  let size := (size + (16 - 1)) &&& ~~~(16 - 1)
  update fun s => { s with nextalloc := s.nextalloc + size }
  return m

/-- `page_add_range`, with the bitmap. -/
def addRange (base : PageNo) (count : BitVec 32) : BootCode Unit := do
  match pageAddRange (← asks Boot.mmap) base count with
  | none => raise .table
  | some mmap => do
    let _ ← bootstrapAlloc (4 * BitVec.ofNat 32 (bitmapsize count))
    update fun s => { s with mmap := mmap }

/-- A loop over the memory map, up to the first index that has no entry. -/
def forEntries (body : MmapEntry → BootCode Unit) : BootCode Unit :=
  loop (fun i =>
    match multibootMmap info i with
    | none => return .inr ()
    | some mmap => do
      when (MULTIBOOT_MEMORY_AVAILABLE = mmap.type) (body mmap)
      return .inl (i + 1)) 0

/-- `page<pstart || page > pend`. -/
def outside (pstart pend page : PageNo) : Bool := page < pstart ∨ pend < page

/-- A turn of the loop over the pages of an entry, with the index and the page. -/
def freeTurn (pstart pend : PageNo) (count : BitVec 32) (cur : BitVec 32 × PageNo) :
    BootCode ((BitVec 32 × PageNo) ⊕ Unit) := do
  if cur.1 < count then
    when (outside pstart pend cur.2) (update fun s => { s with mmap := pageFree cur.2 s.mmap })
    return .inl (cur.1 + 1, cur.2 + 1)
  else return .inr ()

/-- The loop over the pages of an entry. -/
def freePages (pstart pend : PageNo) (count : BitVec 32) (page : PageNo) : BootCode Unit :=
  loop (freeTurn pstart pend count) (0, page)

def Image.pstart : PageNo := img.bootstrap_start >>> 12

def Image.pend (nextalloc : BitVec 32) : PageNo := (nextalloc - img.koffset) >>> 12

/-- The two passes of `arch_init` over the memory map. -/
def archInitMmap : BootCode Unit := do
  forEntries info fun mmap => addRange mmap.page mmap.count
  let nextalloc ← asks Boot.nextalloc
  forEntries info fun mmap => freePages img.pstart (img.pend nextalloc) mmap.count mmap.page

/-- A page of the kernel image, or of the bitmaps behind it. -/
def Kernel (s : Boot) (page : PageNo) : Prop := img.pstart ≤ page ∧ page ≤ img.pend s.nextalloc

/-- The available entries from an index on. -/
def MultibootInfo.available (info : MultibootInfo) (i : Nat) : List MmapEntry :=
  ((List.range' i (info.entries - i)).map info.mmap).filter fun e => MULTIBOOT_MEMORY_AVAILABLE = e.type

/-- The available entries. -/
def available : List MmapEntry := info.elim [] fun info => info.available 0

def MmapEntry.Has (e : MmapEntry) (page : PageNo) : Prop := page - e.page < e.count

end Boot

/-! ### Later runs -/

/-- The table, and the pages that were allocated and not freed since. -/
structure Users where
  mmap : List Mmap
  out : List PageNo

/-- Only pages that were allocated are freed. -/
def use (s : Users) : Event → Option Users
  | .alloc =>
    let (page, mmap) := pageAlloc s.mmap
    some ⟨mmap, if page = 0 then s.out else page :: s.out⟩
  | .free page => if page ∈ s.out then some ⟨pageFree page s.mmap, s.out.erase page⟩ else none

/-! ### The passes -/

section Passes
variable {img : Image} {info : Option MultibootInfo} {body : MmapEntry → BootCode Unit} {s s' : Boot}

/-- No entries are left behind the last. -/
lemma available_ge {info : MultibootInfo} {i : Nat} (ge : info.entries ≤ i) : info.available i = [] := by
  rw [MultibootInfo.available, Nat.sub_eq_zero_of_le ge]
  rfl

/-- The available entries from one index on. -/
lemma available_lt {info : MultibootInfo} {i : Nat} (lt : i < info.entries) :
    info.available i = (if MULTIBOOT_MEMORY_AVAILABLE = (info.mmap i).type then [info.mmap i] else []) ++
      info.available (i + 1) := by
  have more : info.entries - i = (info.entries - (i + 1)) + 1 := by omega
  rw [MultibootInfo.available, MultibootInfo.available, more, List.range'_succ, List.map_cons, List.filter_cons]
  split <;> simp_all

/-- The loop runs through the available entries, if every turn leads to a state in which the rest can be done. -/
lemma forEntries_returns {g : Boot → MmapEntry → Boot} {Good : List MmapEntry → Boot → Prop}
    (turn : ∀ e es s, Good (e :: es) s → Returns (body e) s () (g s e) ∧ Good es (g s e))
    (good : Good (available info) s) :
    Returns (forEntries info body) s () ((available info).foldl g s) := by
  cases info with
  | none => exact .exit (.pure _ _)
  | some info =>
    have all : ∀ n i s, info.entries - i = n → Good (info.available i) s → Returns (loop (fun i =>
        match multibootMmap (some info) i with
        | none => (return .inr () : BootCode (Nat ⊕ Unit))
        | some mmap => do
          when (MULTIBOOT_MEMORY_AVAILABLE = mmap.type) (body mmap)
          return .inl (i + 1)) i) s () ((info.available i).foldl g s) := by
      intro n
      induction n with
      | zero =>
        intro i s rest _
        have ge : ¬i < info.entries := by omega
        have none : multibootMmap (some info) i = none := if_neg ge
        rw [available_ge (by omega)]
        apply Returns.exit
        rw [none]
        exact .pure _ _
      | succ n ih =>
        intro i s rest good
        have lt : i < info.entries := by omega
        have found : multibootMmap (some info) i = some (info.mmap i) := if_pos lt
        rw [available_lt lt] at good ⊢
        by_cases type : MULTIBOOT_MEMORY_AVAILABLE = (info.mmap i).type
        · rw [if_pos type] at good ⊢
          obtain ⟨run, good⟩ := turn _ _ _ good
          refine .turn ?_ (ih (i + 1) (g s (info.mmap i)) (by omega) good)
          rw [found]
          exact .bind (.when_pos type run) (.pure _ _)
        · rw [if_neg type] at good ⊢
          refine .turn ?_ (ih (i + 1) s (by omega) good)
          rw [found]
          exact .bind (.when_neg type) (.pure _ _)
    exact all _ 0 s rfl good

/-- The pages of the loop from an index on. -/
def pagesFrom (count i : BitVec 32) (page : PageNo) : List PageNo :=
  (List.range (count.toNat - i.toNat)).map fun k => page + BitVec.ofNat 32 k

/-- Freeing pages, one after the other. -/
def freeAll (mmap : List Mmap) (pages : List PageNo) : List Mmap :=
  pages.foldl (fun mmap page => pageFree page mmap) mmap

/-- The pages of an entry from one index on. -/
lemma pagesFrom_lt {count i : BitVec 32} (lt : i < count) (page : PageNo) :
    pagesFrom count i page = page :: pagesFrom count (i + 1) (page + 1) := by
  have lt := BitVec.lt_def.mp lt
  have bound := count.isLt
  have small : (i + 1).toNat = i.toNat + 1 := by
    have one : (1 : BitVec 32).toNat = 1 := rfl
    rw [BitVec.toNat_add_of_lt (by omega)]
    rfl
  have more : count.toNat - i.toNat = (count.toNat - (i + 1).toNat) + 1 := by omega
  rw [pagesFrom, pagesFrom, more, List.range_succ_eq_map, List.map_cons, List.map_map]
  congr 1
  · exact BitVec.add_zero page
  · apply List.map_congr_left
    intro k _
    show page + BitVec.ofNat 32 (k + 1) = page + 1 + BitVec.ofNat 32 k
    rw [BitVec.add_assoc, Nat.add_comm, BitVec.ofNat_add]
    rfl

/-- The loop over the pages of an entry frees those that are outside. -/
lemma freeLoop_returns (pstart pend : PageNo) (count i : BitVec 32) (page : PageNo) (s : Boot) :
    Returns (loop (freeTurn pstart pend count) (i, page)) s ()
      { s with mmap := freeAll s.mmap ((pagesFrom count i page).filter (outside pstart pend)) } := by
  obtain ⟨n, hn⟩ : ∃ n, count.toNat - i.toNat = n := ⟨_, rfl⟩
  induction n generalizing i page s with
  | zero =>
    have ge : ¬i < count := by
      rw [BitVec.lt_def]
      omega
    rw [pagesFrom, hn]
    exact .exit (.ite_neg ge (.pure _ _))
  | succ n ih =>
    have lt : i < count := by
      rw [BitVec.lt_def]
      omega
    have rest : count.toNat - (i + 1).toNat = n := by
      have length := congrArg List.length (pagesFrom_lt lt page)
      simp only [pagesFrom, List.length_map, List.length_range, List.length_cons] at length
      omega
    rw [pagesFrom_lt lt, List.filter_cons]
    by_cases out : outside pstart pend page = true
    · rw [if_pos out]
      refine .turn (.ite_pos lt (.bind (a := ()) ?_ (.pure _ _)))
        (ih (i + 1) (page + 1) { s with mmap := pageFree page s.mmap } rest)
      rw [when, if_pos out]
      exact .update _ _
    · rw [if_neg out]
      refine .turn (.ite_pos lt (.bind (a := ()) ?_ (.pure _ _))) (ih (i + 1) (page + 1) s rest)
      rw [when, if_neg out]
      exact .pure _ _

/-- The empty range of an entry. -/
def MmapEntry.range (e : MmapEntry) : Mmap := ⟨e.page, e.count, 0, fun _ => 0⟩

/-- The pages of an entry that are freed. -/
def MmapEntry.freed (e : MmapEntry) (pstart pend : PageNo) : List PageNo :=
  (pagesFrom e.count 0 e.page).filter (outside pstart pend)

/-- The table after both passes. -/
def booted (es : List MmapEntry) (pstart pend : PageNo) : List Mmap :=
  freeAll (es.map MmapEntry.range) (es.flatMap fun e => e.freed pstart pend)

/-- `bootstrap_alloc` gives the next address, and moves on by the rounded size. -/
lemma bootstrapAlloc_returns (size : BitVec 32) (s : Boot) :
    Returns (bootstrapAlloc size) s s.nextalloc
      { s with nextalloc := s.nextalloc + ((size + (16 - 1)) &&& ~~~(16 - 1)) } :=
  .bind (.asks _ _) (.bind (.update _ _) (.pure _ _))

/-- A turn of the first pass. -/
def addTurn (s : Boot) (e : MmapEntry) : Boot :=
  { mmap := s.mmap ++ [e.range]
    nextalloc := s.nextalloc + ((4 * BitVec.ofNat 32 (bitmapsize e.count) + (16 - 1)) &&& ~~~(16 - 1)) }

/-- A turn of the first pass, if there is room in the table. -/
lemma addRange_returns (e : MmapEntry) (room : s.mmap.length < 32) :
    Returns (addRange e.page e.count) s () (addTurn s e) := by
  refine .bind (.asks _ _) ?_
  rw [pageAddRange, if_pos room]
  exact .bind (bootstrapAlloc_returns _ s) (.update _ _)

/-- The ranges after the first pass. -/
lemma addTurns_mmap (es : List MmapEntry) (s : Boot) :
    (es.foldl addTurn s).mmap = s.mmap ++ es.map MmapEntry.range := by
  induction es generalizing s with
  | nil => exact (List.append_nil _).symm
  | cons e es ih =>
    rw [List.foldl_cons, ih, addTurn, List.append_assoc]
    rfl

/-- A turn of the second pass. -/
def freeTurns (pstart pend : PageNo) (s : Boot) (e : MmapEntry) : Boot :=
  { s with mmap := freeAll s.mmap (e.freed pstart pend) }

/-- The ranges after the second pass. -/
lemma freeTurns_eq (pstart pend : PageNo) (es : List MmapEntry) (s : Boot) : es.foldl (freeTurns pstart pend) s =
    { s with mmap := freeAll s.mmap (es.flatMap fun e => e.freed pstart pend) } := by
  induction es generalizing s with
  | nil => rfl
  | cons e es ih => rw [List.foldl_cons, ih, freeTurns, List.flatMap_cons, freeAll, freeAll, freeAll, List.foldl_append]

/-- Where the bitmaps end. -/
def Image.behind (img : Image) (es : List MmapEntry) : BitVec 32 :=
  (es.foldl addTurn ⟨[], img.bootstrap_nextalloc⟩).nextalloc

/-- The table has room for 32 ranges; then both passes come to their end. -/
lemma archInitMmap_returns (img : Image) (few : (available info).length ≤ 32) :
    Returns (archInitMmap img info) ⟨[], img.bootstrap_nextalloc⟩ ()
      ⟨booted (available info) img.pstart (img.pend (img.behind (available info))), img.behind (available info)⟩ := by
  have room : ∀ e es s, s.mmap.length + (e :: es).length ≤ 32 →
      Returns (addRange e.page e.count) s () (addTurn s e) ∧ (addTurn s e).mmap.length + es.length ≤ 32 := by
    intro e es s le
    rw [List.length_cons] at le
    refine ⟨addRange_returns e (by omega), ?_⟩
    rw [addTurn, List.length_append, List.length_singleton]
    omega
  have first := @forEntries_returns info (fun mmap => addRange mmap.page mmap.count) ⟨[], img.bootstrap_nextalloc⟩ addTurn
    (fun es s => s.mmap.length + es.length ≤ 32) room ((Nat.zero_add _).trans_le few)
  have mmap := addTurns_mmap (available info) ⟨[], img.bootstrap_nextalloc⟩
  rw [Image.behind]
  generalize (available info).foldl addTurn ⟨[], img.bootstrap_nextalloc⟩ = s1 at first mmap ⊢
  have free : ∀ (e : MmapEntry) (_ : List MmapEntry) (s : Boot), True →
      Returns (freePages img.pstart (img.pend s1.nextalloc) e.count e.page) s ()
        (freeTurns img.pstart (img.pend s1.nextalloc) s e) ∧ True := fun e _ s _ =>
    ⟨freeLoop_returns _ _ e.count 0 e.page s, trivial⟩
  have second := @forEntries_returns info
    (fun mmap => freePages img.pstart (img.pend s1.nextalloc) mmap.count mmap.page) s1
    (freeTurns img.pstart (img.pend s1.nextalloc)) (fun _ _ => True) free trivial
  rw [freeTurns_eq, mmap] at second
  exact .bind first (.bind (.asks _ _) second)

end Passes

/-! ### The kernel image is not given out -/

/-- All pages that are marked as free meet a condition. -/
def Only (S : PageNo → Prop) (mmap : List Mmap) : Prop :=
  ∀ r ∈ mmap, ∀ i, r.available.test i = true → S (r.base + BitVec.ofNat 32 i)

section Only
variable {S : PageNo → Prop} {mmap : List Mmap} {page : PageNo}

/-- Freeing a page of a set keeps all pages in it. -/
lemma Only.pageFree (h : Only S mmap) (hp : S page) : Only S (pageFree page mmap) := by
  rcases pageFree_cases page mmap with ⟨-, e⟩ | ⟨l1, r, l2, split, -, e⟩
  · rwa [e]
  · rw [e]
    intro o mem i bit
    rcases mem_replace mem with rfl | mem
    · rcases (r.mark_test page i).mp bit with rfl | bit
      · show S (r.base + _)
        rwa [add_sub_ofNat]
      · exact h r (mem_split split r (.inl rfl)) i bit
    · exact h o (mem_split split o (.inr mem)) i bit

/-- Freeing many pages of a set keeps all pages in it. -/
lemma Only.freeAll (h : Only S mmap) {pages : List PageNo} (hp : ∀ page ∈ pages, S page) :
    Only S (freeAll mmap pages) := by
  induction pages generalizing mmap with
  | nil => exact h
  | cons page pages ih =>
    obtain ⟨first, rest⟩ := List.forall_mem_cons.mp hp
    exact ih (h.pageFree first) rest

/-- What is allocated is one of them, and the others are left. -/
lemma Only.pageAlloc (h : Only S mmap) : ((pageAlloc mmap).1 ≠ 0 → S (pageAlloc mmap).1) ∧ Only S (pageAlloc mmap).2 := by
  rw [Page.pageAlloc]
  cases found : rangesAlloc mmap with
  | none => exact ⟨fun nz => absurd rfl nz, h⟩
  | some result =>
    obtain ⟨l1, r, l2, p, split, rest, -, bit, page⟩ := rangesAlloc_some found
    refine ⟨fun _ => ?_, ?_⟩
    · show S result.1
      rw [page]
      exact h r (mem_split split r (.inl rfl)) p bit
    · show Only S result.2
      rw [rest]
      intro o mem i bit
      rcases mem_replace mem with rfl | mem
      · exact h r (mem_split split r (.inl rfl)) i ((r.without_test p i).mp bit).2
      · exact h o (mem_split split o (.inr mem)) i bit

/-- Using the allocator keeps all pages in the set. -/
lemma use_only {s s' : Users} {e : Event} (h : Only S s.mmap ∧ ∀ page ∈ s.out, S page) (run : use s e = some s') :
    Only S s'.mmap ∧ ∀ page ∈ s'.out, S page := by
  obtain ⟨only, out⟩ := h
  cases e with
  | alloc =>
    cases run
    obtain ⟨page, rest⟩ := only.pageAlloc
    refine ⟨rest, ?_⟩
    show ∀ q ∈ (if (Page.pageAlloc s.mmap).1 = 0 then s.out else (Page.pageAlloc s.mmap).1 :: s.out), S q
    split
    · exact out
    · next nz => exact List.forall_mem_cons.mpr ⟨page nz, out⟩
  | free page =>
    obtain ⟨mem, ⟨⟩⟩ := Option.ite_none_right_eq_some.mp run
    exact ⟨only.pageFree (out page mem), fun q hq => out q (List.mem_of_mem_erase hq)⟩

end Only

/-- An empty bitmap has no bits. -/
lemma test_empty (i : Nat) : Bitmap.test (fun _ => 0) i = false := by
  rw [Bitmap.test_eq]
  exact BitVec.getLsbD_zero

/-- After the passes the free pages are outside of the kernel. -/
lemma booted_only (es : List MmapEntry) (pstart pend : PageNo) :
    Only (fun page => outside pstart pend page = true) (booted es pstart pend) := by
  apply Only.freeAll
  · intro r mem i bit
    obtain ⟨e, -, rfl⟩ := List.mem_map.mp mem
    exact absurd ((test_empty i).symm.trans bit) Bool.false_ne_true
  · intro page mem
    obtain ⟨e, -, mem⟩ := List.mem_flatMap.mp mem
    exact (List.mem_filter.mp mem).2

/-- A memory map with two available entries and a hole. -/
def smallMap : MultibootInfo where
  flags := 0x40
  mmap_length := 72
  mmap i := [⟨0, 0x9fc00, 1⟩, ⟨0xf0000, 0x10000, 2⟩, ⟨0x100000, 0x3f00000, 1⟩].getD i ⟨0, 0, 0⟩

def smallImage : Image := ⟨0x100000, 0xf0125000, 0xf0000000⟩

/-- The numbers of a range do not wrap around, and its `count` is an `int`. -/
structure Mmap.Fits (r : Mmap) : Prop where
  count : r.count.toNat < 2 ^ 31
  within : r.base.toNat + r.count.toNat ≤ 2 ^ 32

/-- The page is one of a range, but not its first. -/
def Inner (mmap : List Mmap) (page : PageNo) : Prop := ∃ r ∈ mmap, r.Has page ∧ page ≠ r.base

section Complete
variable {mmap : List Mmap} {page q : PageNo} {r : Mmap} {usage : PageNo → Usage}

/-- A range accepts its pages, except for the first. -/
lemma Mmap.Fits.accepts_iff (fits : r.Fits) : r.Accepts page ↔ r.Has page ∧ page ≠ r.base := by
  constructor
  · rintro ⟨pos, lt⟩
    have has : r.Has (r.base + BitVec.ofNat 32 (page - r.base).toNat) := by
      obtain ⟨index, -⟩ := toInt_of_pos pos
      exact r.has_of_lt (by omega)
    rw [add_sub_ofNat] at has
    refine ⟨has, fun e => ?_⟩
    rw [e, BitVec.sub_self] at pos
    exact absurd pos (by decide)
  · rintro ⟨has, ne⟩
    have lt := BitVec.lt_def.mp has
    have positive : 0 < r.count.toInt := by
      rw [BitVec.toInt_eq_toNat_of_lt (by have := fits.count; omega)]
      omega
    exact has.accepts ne positive

/-- Page `0` is only ever the first one. -/
lemma Mmap.Fits.zero (fits : r.Fits) (has : r.Has 0) : r.base = 0 := by
  have lt := BitVec.lt_def.mp has
  have within := fits.within
  have bound := r.base.isLt
  have zero : (0 : BitVec 32).toNat = 0 := rfl
  rw [BitVec.toNat_sub, zero] at lt
  apply BitVec.eq_of_toNat_eq
  rw [zero]
  omega

/-- Freeing a page leaves the ranges as they are, apart from what they count. -/
lemma pageFree_ranges (page : PageNo) (mmap : List Mmap) :
    (pageFree page mmap).map (fun r => (r.base, r.count)) = mmap.map fun r => (r.base, r.count) := by
  rcases pageFree_cases page mmap with ⟨-, e⟩ | ⟨l1, r, l2, rfl, -, e⟩
  · rw [e]
  · rw [e, List.map_append, List.map_append]
    rfl

/-- Freeing a page keeps the sizes of the ranges. -/
lemma fits_pageFree (page : PageNo) (fits : ∀ r ∈ mmap, r.Fits) : ∀ r ∈ pageFree page mmap, r.Fits := by
  intro r mem
  have mem := List.mem_map_of_mem (f := fun r => (r.base, r.count)) mem
  rw [pageFree_ranges] at mem
  obtain ⟨o, mem, e⟩ := List.mem_map.mp mem
  obtain ⟨base, count⟩ := Prod.mk.inj e
  exact ⟨count ▸ (fits o mem).count, base ▸ count ▸ (fits o mem).within⟩

/-- What only looks at the base and the count of a range. -/
lemma exists_pageFree (page : PageNo) (mmap : List Mmap) (P : PageNo → BitVec 32 → Prop) :
    (∃ r ∈ pageFree page mmap, P r.base r.count) ↔ ∃ r ∈ mmap, P r.base r.count := by
  have shape : ∀ mmap : List Mmap, (∃ r ∈ mmap, P r.base r.count) ↔
      ∃ x ∈ mmap.map (fun r => (r.base, r.count)), P x.1 x.2 := fun mmap => by
    simp only [List.mem_map, exists_exists_and_eq_and]
  rw [shape, shape, pageFree_ranges]

/-- Freeing a page keeps which pages are inside a range. -/
lemma inner_pageFree (page : PageNo) (mmap : List Mmap) : Inner (pageFree page mmap) q ↔ Inner mmap q :=
  exists_pageFree page mmap fun base count => q - base < count ∧ q ≠ base

/-- Pages that are freed one after the other are free then, if they are not the first of a range. -/
lemma Complete.freeAll (h : Complete ⟨mmap, usage⟩) (fits : ∀ r ∈ mmap, r.Fits) {pages : List PageNo}
    (nodup : pages.Nodup) (new : ∀ page ∈ pages, usage page ≠ .free ∧ ∃ r ∈ mmap, r.Has page) :
    ∃ usage', Complete ⟨freeAll mmap pages, usage'⟩ ∧
      ∀ q, usage' q = .free ↔ usage q = .free ∨ q ∈ pages ∧ Inner mmap q := by
  induction pages generalizing mmap usage with
  | nil => exact ⟨usage, h, fun q => by simp⟩
  | cons page pages ih =>
    obtain ⟨notin, nodup⟩ := List.nodup_cons.mp nodup
    obtain ⟨⟨used, -⟩, new⟩ := List.forall_mem_cons.mp new
    have still : ∀ q ∈ pages, ∃ r ∈ pageFree page mmap, r.Has q := fun q hq =>
      (exists_pageFree page mmap fun base count => q - base < count).mpr (new q hq).2
    rw [Page.freeAll, List.foldl_cons]
    by_cases inner : Inner mmap page
    · have marked : Complete ⟨pageFree page mmap, Function.update usage page .free⟩ := by
        obtain ⟨r, mem, has⟩ := inner
        rcases pageFree_cases page mmap with ⟨none, -⟩ | ⟨l1, r', l2, split, acc, e⟩
        · exact absurd ((fits r mem).accepts_iff.mpr has) (none r mem)
        · rw [e]
          refine h.mark split acc (fun zero => ?_) used
          have fits := fits r' (mem_split split r' (.inl rfl))
          obtain ⟨has, ne⟩ := fits.accepts_iff.mp acc
          rw [zero] at has ne
          exact ne (fits.zero has).symm
      have used : ∀ q ∈ pages, Function.update usage page .free q ≠ .free ∧ ∃ r ∈ pageFree page mmap, r.Has q := by
        intro q hq
        have ne : q ≠ page := fun e => notin (e ▸ hq)
        rw [Function.update_of_ne ne]
        exact ⟨(new q hq).1, still q hq⟩
      obtain ⟨usage', complete, free⟩ := ih marked (fits_pageFree page fits) nodup used
      refine ⟨usage', complete, fun q => ?_⟩
      rw [free, inner_pageFree, List.mem_cons]
      rcases eq_or_ne q page with rfl | ne
      · rw [Function.update_self]
        exact iff_of_true (.inl rfl) (.inr ⟨.inl rfl, inner⟩)
      · rw [Function.update_of_ne ne, or_iff_right ne]
    · -- the first page of its range: nothing is done
      have same : pageFree page mmap = mmap := by
        rcases pageFree_cases page mmap with ⟨-, e⟩ | ⟨l1, r, l2, split, acc, -⟩
        · exact e
        · have mem := mem_split split r (.inl rfl)
          exact absurd ⟨r, mem, (fits r mem).accepts_iff.mp acc⟩ inner
      rw [same]
      obtain ⟨usage', complete, free⟩ := ih h fits nodup new
      refine ⟨usage', complete, fun q => ?_⟩
      rw [free, List.mem_cons]
      rcases eq_or_ne q page with rfl | ne
      · simp only [inner, and_false]
      · rw [or_iff_right ne]

end Complete

section Entries
variable {es : List MmapEntry} {e : MmapEntry} {page pstart pend : PageNo}

/-- The pages of an entry are those that it has. -/
lemma mem_pagesFrom {count : BitVec 32} {first : PageNo} : page ∈ pagesFrom count 0 first ↔ page - first < count := by
  rw [pagesFrom, List.mem_map, BitVec.lt_def]
  constructor
  · rintro ⟨k, hk, rfl⟩
    have lt : k < count.toNat - 0 := List.mem_range.mp hk
    have bound := count.isLt
    rw [BitVec.add_comm, BitVec.add_sub_cancel, BitVec.toNat_ofNat, Nat.mod_eq_of_lt] <;> omega
  · intro lt
    exact ⟨(page - first).toNat, List.mem_range.mpr lt, add_sub_ofNat first page⟩

/-- No page of an entry comes twice. -/
lemma nodup_pagesFrom (count : BitVec 32) (first : PageNo) : (pagesFrom count 0 first).Nodup := by
  refine List.Nodup.map_on ?_ List.nodup_range
  intro i hi j hj e
  have lti : i < count.toNat - 0 := List.mem_range.mp hi
  have ltj : j < count.toNat - 0 := List.mem_range.mp hj
  have bound := count.isLt
  have e := congrArg BitVec.toNat ((BitVec.add_right_inj first).mp e)
  rwa [BitVec.toNat_ofNat, BitVec.toNat_ofNat, Nat.mod_eq_of_lt, Nat.mod_eq_of_lt] at e <;> omega

/-- The pages that are freed for an entry. -/
lemma mem_freed : page ∈ e.freed pstart pend ↔ e.Has page ∧ outside pstart pend page = true := by
  rw [MmapEntry.freed, List.mem_filter, mem_pagesFrom]
  rfl

/-- What is freed at boot: each page once, if no two entries have a page in common. -/
lemma nodup_freed (disjoint : es.Pairwise fun a b => ∀ page, ¬(a.Has page ∧ b.Has page)) (pstart pend : PageNo) :
    (es.flatMap fun e => e.freed pstart pend).Nodup := by
  rw [List.nodup_flatMap]
  refine ⟨fun e _ => (nodup_pagesFrom e.count e.page).filter _, disjoint.imp fun apart => ?_⟩
  intro page ha hb
  exact apart page ⟨(mem_freed.mp ha).1, (mem_freed.mp hb).1⟩

/-- Up to 32 ranges can be registered. -/
lemma addRanges_few {ranges : List (PageNo × BitVec 32)} (few : ranges.length ≤ 32) :
    addRanges ranges = some (ranges.map fun range => ⟨range.1, range.2, 0, fun _ => 0⟩) := by
  have general : ∀ {ranges : List (PageNo × BitVec 32)} {before : List Mmap}, before.length + ranges.length ≤ 32 →
      ranges.foldlM (fun mmap range => pageAddRange mmap range.1 range.2) before =
        some (before ++ ranges.map fun range => ⟨range.1, range.2, 0, fun _ => 0⟩) := by
    intro ranges
    induction ranges with
    | nil => exact fun _ => congrArg some (List.append_nil _).symm
    | cons range ranges ih =>
      intro before le
      rw [List.length_cons] at le
      have room : before.length < 32 := by omega
      obtain ⟨last, hl⟩ : ∃ last : Mmap, last = ⟨range.1, range.2, 0, fun _ => 0⟩ := ⟨_, rfl⟩
      have le : (before ++ [last]).length + ranges.length ≤ 32 := by
        rw [List.length_append, List.length_singleton]
        omega
      have next := ih le
      rw [hl] at next
      rw [List.append_assoc] at next
      rw [List.foldlM_cons, pageAddRange, if_pos room]
      exact next
  exact general ((Nat.zero_add _).trans_le few)

/-- Ranges that were just registered. -/
lemma complete_ranges (few : es.length ≤ 32) (disjoint : es.Pairwise fun a b => ∀ page, ¬(a.Has page ∧ b.Has page)) :
    Complete ⟨es.map MmapEntry.range, fun _ => .reserved⟩ := by
  have few : (es.map fun e => (e.page, e.count)).length ≤ 32 := (List.length_map _).trans_le few
  have add := addRanges_few few
  rw [List.map_map] at add
  refine { toInv := inv_addRanges add ?_, nonzero := Usage.noConfusion, marked := fun _ free => Usage.noConfusion free }
  rw [Disjoint, List.pairwise_map]
  exact disjoint

end Entries

/-- The free pages after the passes, if no two available entries have a page in common. -/
lemma booted_complete {es : List MmapEntry} (few : es.length ≤ 32)
    (disjoint : es.Pairwise fun a b => ∀ page, ¬(a.Has page ∧ b.Has page))
    (fits : ∀ e ∈ es, e.count.toNat < 2 ^ 31 ∧ e.page.toNat + e.count.toNat ≤ 2 ^ 32) (pstart pend : PageNo) :
    ∃ usage, Complete ⟨booted es pstart pend, usage⟩ ∧ ∀ page, usage page = .free ↔
      (∃ e ∈ es, e.Has page ∧ page ≠ e.page) ∧ outside pstart pend page = true := by
  have ranges : ∀ P : PageNo → BitVec 32 → Prop,
      (∃ r ∈ es.map MmapEntry.range, P r.base r.count) ↔ ∃ e ∈ es, P e.page e.count := fun P => by
    simp only [List.mem_map, exists_exists_and_eq_and, MmapEntry.range]
  have fits : ∀ r ∈ es.map MmapEntry.range, r.Fits := by
    intro r mem
    obtain ⟨e, he, rfl⟩ := List.mem_map.mp mem
    exact ⟨(fits e he).1, (fits e he).2⟩
  have new : ∀ page ∈ es.flatMap fun e => e.freed pstart pend,
      Usage.reserved ≠ .free ∧ ∃ r ∈ es.map MmapEntry.range, r.Has page := by
    intro page mem
    obtain ⟨e, mem, freed⟩ := List.mem_flatMap.mp mem
    exact ⟨Usage.noConfusion, _, List.mem_map_of_mem mem, (mem_freed.mp freed).1⟩
  obtain ⟨usage, complete, free⟩ := (complete_ranges few disjoint).freeAll fits (nodup_freed disjoint _ _) new
  refine ⟨usage, complete, fun page => ?_⟩
  have inner : Inner (es.map MmapEntry.range) page ↔ ∃ e ∈ es, e.Has page ∧ page ≠ e.page :=
    ranges fun base count => page - base < count ∧ page ≠ base
  rw [free, inner, List.mem_flatMap, or_iff_right Usage.noConfusion]
  constructor
  · rintro ⟨⟨e, -, freed⟩, entry⟩
    exact ⟨entry, (mem_freed.mp freed).2⟩
  · rintro ⟨⟨e, he, has, ne⟩, out⟩
    exact ⟨⟨e, he, mem_freed.mpr ⟨has, out⟩⟩, e, he, has, ne⟩

end Twcos.Page
