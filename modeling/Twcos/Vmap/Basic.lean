import Twcos.Prog.Turns
import Mathlib.Data.List.FinRange
import Mathlib.Logic.Function.Basic

/-!
# Page tables

Model of the page tables of `arch/i386/vmap.c`, down to physical memory. An address is translated in two steps, by a page
directory and a page table. The upper 32 MiB of the address space are eight windows of 4 MiB: the window `i` shows the page
tables of the directory `pgdirs[i]`, as every directory has all eight of them as the page tables of its last entries. All
accesses to page tables go through the windows.

An address space has one of the eight directories, as long as it is in the table `asids`.

C → Lean naming: `vmap_get_pgtable` → `vmapGetPgtable`, `vmap_set_pte` → `vmapSetPte` and so on. `pgtbl i vpage` is the
address of entry `vpage` in the window `i`. `page_alloc` gives pages one after the other, which are a parameter of the code;
it does not clear them. Following an address for which there is no page faults: `vmap_fault` returns for addresses in the
windows, so that the access is tried again for ever.
-/

namespace Twcos.Vmap
open Twcos.Prog Function

abbrev Addr := BitVec 32

/-- The number of a physical page. -/
abbrev Page := BitVec 20

/-- Physical memory, as pages of 1024 words. -/
abbrev Memory := Page → BitVec 10 → BitVec 32

/-- `asids`, and the `seq` of `vmap_get_pgtable`. -/
structure Asids where
  vid : Fin 8 → BitVec 32
  seqs : Fin 8 → BitVec 32
  seq : BitVec 32

/-- The state of the machine: memory, the page directory in use, and what the code keeps. -/
structure Machine where
  mem : Memory
  cr3 : Page
  asids : Asids
  allocs : Nat

/-- There is no page at an address, or a variable is used that was not set. -/
inductive Fault where
  | page (p : Addr)
  | lowi

abbrev Code (α : Type) := Prog Fault Machine α

/-! ### The processor -/

/-- The page directory entry for an address, the page table entry, and the word in the page. -/
def region (p : Addr) : BitVec 10 := p.extractLsb' 22 10
@[inherit_doc region] def slot (p : Addr) : BitVec 10 := p.extractLsb' 12 10
@[inherit_doc region] def word (p : Addr) : BitVec 10 := p.extractLsb' 2 10

/-- The page that an entry points to. -/
def pageOf (pte : BitVec 32) : Page := pte.extractLsb' 12 20

/-- The physical page and the word in it for an address. -/
def translate (mem : Memory) (cr3 : Page) (p : Addr) : Option (Page × BitVec 10) :=
  let pde := mem cr3 (region p)
  if pde &&& 1 = 0 then none
  else
    let pte := mem (pageOf pde) (slot p)
    if pte &&& 1 = 0 then none else some (pageOf pte, word p)

def load (p : Addr) : Code (BitVec 32) :=
  demand (fun s => (translate s.mem s.cr3 p).map fun w => s.mem w.1 w.2) (.page p)

/-- Assign a word of physical memory. -/
def Machine.set (s : Machine) (page : Page) (i : BitVec 10) (x : BitVec 32) : Machine :=
  { s with mem := update s.mem page (update (s.mem page) i x) }

/-- The page that is written. -/
lemma Machine.set_mem (s : Machine) (page : Page) (i : BitVec 10) (x : BitVec 32) :
    (s.set page i x).mem page = update (s.mem page) i x :=
  update_self ..

/-- The word that is written. -/
lemma Machine.set_mem_self (s : Machine) (page : Page) (i : BitVec 10) (x : BitVec 32) :
    (s.set page i x).mem page i = x := by
  rw [s.set_mem, update_self]

/-- Writing leaves the other pages. -/
lemma Machine.set_mem_page (s : Machine) {page page' : Page} (ne : page' ≠ page) (i : BitVec 10) (x : BitVec 32) :
    (s.set page i x).mem page' = s.mem page' :=
  update_of_ne ne ..

/-- Writing leaves the other words. -/
lemma Machine.set_mem_word (s : Machine) (page page' : Page) {i i' : BitVec 10} (ne : i' ≠ i) (x : BitVec 32) :
    (s.set page i x).mem page' i' = s.mem page' i' := by
  by_cases same : page' = page
  · rw [same, s.set_mem, update_of_ne ne]
  · rw [s.set_mem_page same]

def store (p : Addr) (x : BitVec 32) : Code Unit := do
  let w ← demand (fun s => translate s.mem s.cr3 p) (.page p)
  update fun s => s.set w.1 w.2 x

/-! ### Address spaces -/

/-- The first loop of `vmap_get_pgtable`. -/
def Asids.find (a : Asids) (vid : BitVec 32) : Option (Fin 8) := (List.finRange 8).find? fun i => a.vid i = vid

/-- The second loop: the slot with the lowest `seq` below `INT32_MAX`. -/
def Asids.lowest (a : Asids) : Option (Fin 8) :=
  ((List.finRange 8).foldl
    (fun (low : BitVec 32 × Option (Fin 8)) i => if (a.seqs i).slt low.1 then (a.seqs i, some i) else low)
    (0x7fffffff, none)).2

/-- The slot of an address space. -/
def Asids.get (a : Asids) (vid : BitVec 32) : Option (Fin 8 × Asids) :=
  match a.find vid with
  | some i => some (i, { a with seqs := update a.seqs i a.seq })
  | none => a.lowest.map fun i =>
      (i, { vid := update a.vid i vid, seqs := update a.seqs i (a.seq + 1), seq := a.seq + 1 })

/-- `vmap_get_pgtable`: the number of a window. -/
def vmapGetPgtable (vid : BitVec 32) : Code (Fin 8) :=
  if vid = 0 then return 0
  else do
    let r ← demand (fun s => s.asids.get vid) .lowi
    update fun s => { s with asids := r.2 }
    return r.1

/-- `&pgtbls[ARCH_PAGE_TABLE_SIZE*i + vpage]`. -/
def pgtbl (i : Fin 8) (vpage : BitVec 32) : Addr := 0xfe000000#32 + (BitVec.ofNat 32 i <<< 22) + (vpage <<< 2)

/-- The page of an entry, or `0`. -/
def shows (pte : BitVec 32) : BitVec 32 := if pte &&& 1 ≠ 0 then pte >>> 12 else 0

/-- `vmap_get_page`. -/
def vmapGetPage (vid : BitVec 32) (vaddress : Addr) : Code (BitVec 32) := do
  let i ← vmapGetPgtable vid
  let pte ← load (pgtbl i (vaddress >>> 12))
  return shows pte

/-- The entry that `vmap_map` makes. -/
def pteOf (page : BitVec 32) (rw user : Bool) : BitVec 32 :=
  let pte := page <<< 12 ||| 0x1
  let pte := if rw then pte ||| 0x2 else pte
  if user then pte ||| 0x4 else pte

section Vmap
variable (fresh : Nat → Page)

/-- `page_alloc`. -/
def pageAlloc : Code (BitVec 32) := do
  let n ← asks Machine.allocs
  update fun s => { s with allocs := s.allocs + 1 }
  return (fresh n).setWidth 32

/-- The arguments of `vmap_set_pte`. -/
structure SetPte where
  vid : BitVec 32
  vaddress : Addr
  pte : BitVec 32

/-- The body of `vmap_set_pte`. It calls itself, by `vmap_map`, to enter a new page table into all directories. -/
def setPteBody (vmapSetPte : SetPte → Code Unit) (c : SetPte) : Code Unit := do
  let vpage := c.vaddress >>> 12
  let i ← vmapGetPgtable c.vid
  let present ← vmapGetPage c.vid (pgtbl 0 vpage)
  when (present = 0) do
    let page ← pageAlloc fresh
    each (fun j => vmapSetPte ⟨0, pgtbl j vpage, pteOf page true false⟩) (List.finRange 8)
  store (pgtbl i vpage) c.pte

/-- `vmap_set_pte`. -/
def vmapSetPte : SetPte → Code Unit := recur (setPteBody fresh)

/-- `vmap_map`. -/
def vmapMap (vid : BitVec 32) (vaddress : Addr) (page : BitVec 32) (rw user : Bool) : Code Unit :=
  vmapSetPte fresh ⟨vid, vaddress, pteOf page rw user⟩

/-- `vmap_mapn`. -/
def vmapMapn (vid : BitVec 32) (n : Nat) (vaddress : Addr) (page : BitVec 32) (rw user : Bool) : Code Unit :=
  each (fun i => vmapMap fresh vid (vaddress + BitVec.ofNat 32 (4096 * i)) (page + BitVec.ofNat 32 i) rw user)
    (List.range n)

/-- `vmap_unmap`. -/
def vmapUnmap (vid : BitVec 32) (vaddress : Addr) : Code Unit := vmapSetPte fresh ⟨vid, vaddress, 0⟩

end Vmap

end Twcos.Vmap
