import Mathlib.Logic.Function.Basic
import Twcos.Vm.Segment

/-!
# Page faults

Model of the virtual memory of `kernel/vm.c` under page faults and forks: the objects that supply the pages
of segments, the page cache of `kernel/vfs.c`, the page tables, and `process_fork` of `kernel/process.c`.

Pages come from a pool; `page_alloc` gives the page `0` when the pool is empty, and a file system reads into
a page that it takes from the pool. `files` has the contents of files, by the offset that a page is read
from. The address space `0` is `kas`, the others are those of the processes. `tables` maps virtual pages,
and `tbl` tells which table an address space uses. It is the same one for all of them in `arch/i386/vmap.c`,
where `vmap_set_pte` enters a new page table into the directories of all address spaces. The reverse map
`vmpages` is left out, as nothing here reads it.

The maps `page_cache` and `pages` are functions here. `Twcos.Vfs.Pagecache` has the tree that the page cache is.
The `pages` of an anonymous object are a vector, and vectors go wrong at the indices `64 ^ (k + 1)`
(`Twcos.Vector.Run`): no page of a segment is put there first, it is assumed.

C → Lean naming: `vmobject_t` → `Object`, `page_t` → `Page`, `off_t` → `Offset`; `vm_page_fault` →
`vmPageFault` and so on.
-/

namespace Twcos.Vm
open Twcos.Tree Function

/-- A physical page; `0` stands for none. -/
abbrev Page := BitVec 32

/-- An offset in a file or a segment. -/
abbrev Offset := BitVec 64

abbrev Vnode := Nat

/-- The clean object of an anonymous one: that of a vnode or, behind the copy of a direct segment, a direct one. -/
inductive Clean where
  | vnode (vnode : Vnode)
  | direct (base : Page) (size : BitVec 32)

/-- `vmobject_t`. -/
inductive Object where
  | direct (base : Page) (size : BitVec 32)
  | anon (pages : Offset → Page) (clean : Option Clean)
  | vnode (vnode : Vnode)

/-- A page table entry. -/
structure Pte where
  page : Page
  rw : Bool
  user : Bool

/-- The state of virtual memory; pages have contents of type `D`. -/
structure Kernel (D : Type) where
  objects : Nat → Option Object
  fresh : Nat
  page_cache : Vnode → Offset → Page
  contents : Page → D
  pool : List Page
  tables : Nat → BitVec 32 → Option Pte
  kas : List Segment
  procs : List (List Segment)

/-- The segments of an address space. -/
def Kernel.space {D : Type} (s : Kernel D) : Nat → List Segment
  | 0 => s.kas
  | i + 1 => s.procs.getD i []

section Fault
variable {D : Type} (files : Vnode → Offset → D) (tbl : Nat → Nat)

/-- `page_alloc`. -/
def pageAlloc (s : Kernel D) : Page × Kernel D :=
  match s.pool with
  | [] => (0, s)
  | page :: pool => (page, { s with pool := pool })

/-- `vnode->fs->fsops->get_page`. -/
def fsGetPage (s : Kernel D) (vnode : Vnode) (offset : Offset) : Page × Kernel D :=
  let (page, s) := pageAlloc s
  (page, { s with contents := update s.contents page (files vnode offset) })

/-- `vnode_get_page`. -/
def vnodeGetPage (s : Kernel D) (vnode : Vnode) (offset : Offset) : Page × Kernel D :=
  let page := s.page_cache vnode offset
  if page = 0 then
    let (page, s) := fsGetPage files s vnode offset
    (page, { s with
      page_cache := update s.page_cache vnode (update (s.page_cache vnode) offset page) })
  else (page, s)

/-- `vm_direct_get_page`, for the offset in the segment. -/
def vmDirectGetPage (base : Page) (size : BitVec 32) (offset : Offset) : Page :=
  if offset.toNat < size.toNat then base + (offset >>> 12).setWidth 32 else 0

/-- `get_page` of a clean object. -/
def Clean.getPage (s : Kernel D) : Clean → Offset → Page × Kernel D
  | .vnode v, offset => vnodeGetPage files s v offset
  | .direct base size, offset => (vmDirectGetPage base size offset, s)

/-- A page of the anonymous object `o` that is not in its clean object: it gets a page of its own. -/
def anonAddPage (s : Kernel D) (o : Nat) (pages : Offset → Page) (clean : Option Clean) (k : Offset) :
    Page × Kernel D :=
  let (page, s) := pageAlloc s
  (page, { s with objects := update s.objects o (some (.anon (update pages k page) clean)) })

/-- `vm_anon_get_page`. -/
def vmAnonGetPage (s : Kernel D) (o : Nat) (pages : Offset → Page) (clean : Option Clean)
    (offset : Offset) : Page × Kernel D :=
  let page := pages (offset >>> 12)
  if page ≠ 0 then (page, s)
  else
    match clean with
    | none => anonAddPage s o pages clean (offset >>> 12)
    | some object =>
      let (page, s) := object.getPage files s offset
      if page ≠ 0 then (page, s) else anonAddPage s o pages clean (offset >>> 12)

/-- `object->ops->get_page(object, offset)`; a null pointer traps. -/
def getPage (s : Kernel D) (o : Nat) (offset : Offset) : Option (Page × Kernel D) :=
  match s.objects o with
  | none => none
  | some (.direct base size) => some (vmDirectGetPage base size offset, s)
  | some (.anon pages clean) => some (vmAnonGetPage files s o pages clean offset)
  | some (.vnode vnode) => some (vnodeGetPage files s vnode offset)

/-- `vm_get_segment`. -/
def vmGetSegment (segments : List Segment) (p : Addr) : Option Segment := pick (keySign p) segments .le

/-- `vm_resolve_address`: the address space, the segment, and the offset in it, a difference of pointers
    that is converted to `off_t`. The kernel's address space is tried first. -/
def vmResolveAddress (s : Kernel D) (cur : Nat) (p : Addr) : Option (Nat × Segment × Offset) :=
  match vmGetSegment s.kas p with
  | some seg => some (0, seg, (p - seg.base).signExtend 64)
  | none => (vmGetSegment (s.space cur) p).map fun seg => (cur, seg, (p - seg.base).signExtend 64)

/-- `vmap_map`. -/
def vmapMap (s : Kernel D) (as : Nat) (p : Addr) (page : Page) (rw user : Bool) : Kernel D :=
  { s with tables := update s.tables (tbl as) (update (s.tables (tbl as)) (p >>> 12)
      (some ⟨page, rw, user⟩)) }

/-- `vmap_unmap`. -/
def vmapUnmap (s : Kernel D) (as : Nat) (p : Addr) : Kernel D :=
  { s with tables := update s.tables (tbl as) (update (s.tables (tbl as)) (p >>> 12) none) }

/-- `SEGMENT_U & seg->perms`. -/
def Segment.User (seg : Segment) : Bool := seg.perms &&& SEGMENT_U ≠ 0

/-- The branch of `vm_page_fault` for a page that is not present. -/
def faultAbsent (s : Kernel D) (as : Nat) (seg : Segment) (offset : Offset) (p : Addr) (write : Bool) :
    Option (Kernel D) := do
  let (page, s) ← getPage files s seg.dirty offset
  if page = 0 then
    -- not in the dirty pages
    let (page, s) ← getPage files s seg.clean (offset + seg.read_offset)
    return vmapMap tbl s as p page false seg.User
  else return vmapMap tbl s as p page (write && seg.Writable) seg.User

/-- `vm_page_fault` for the process `cur`, with the present flag as the page tables say; an invalid pointer is
    a panic. -/
def vmPageFault (s : Kernel D) (cur : Nat) (p : Addr) (write : Bool) : Option (Kernel D) :=
  match vmResolveAddress s cur p with
  | none => none
  | some (as, seg, offset) =>
    if offset.toNat < seg.size.toNat then
      let p := archPageAlign p
      match s.tables (tbl as) (p >>> 12) with
      | none => faultAbsent files tbl s as seg offset p write
      | some pte =>
        if write && seg.Writable then some (vmapMap tbl s as p pte.page (write && seg.Writable) seg.User)
        else none
    else none

/-! ### Segments and forks -/

/-- `slab_alloc(objects)` for an object with the given fields. -/
def newObject (s : Kernel D) (object : Object) : Nat × Kernel D :=
  (s.fresh, { s with objects := update s.objects s.fresh (some object), fresh := s.fresh + 1 })

/-- `vm_segment_vnode`. The perms of all such segments say that they are private; only those that were asked
    to be have a dirty object of their own. -/
def vmSegmentVnode (s : Kernel D) (p : Addr) (size perms : BitVec 32) (vnode : Vnode) (offset : Offset) :
    Segment × Kernel D :=
  let (vobject, s) := newObject s (.vnode vnode)
  let seg : Segment := ⟨p, size, perms ||| SEGMENT_P, vobject, offset, vobject⟩
  if perms &&& SEGMENT_P ≠ 0 then
    let (dirty, s) := newObject s (.anon (fun _ => 0) (some (.vnode vnode)))
    ({ seg with dirty := dirty }, s)
  else (seg, s)

/-- `vm_segment_anonymous`. -/
def vmSegmentAnonymous (s : Kernel D) (p : Addr) (size perms : BitVec 32) : Segment × Kernel D :=
  let (dirty, s) := newObject s (.anon (fun _ => 0) none)
  (⟨p, size, perms ||| SEGMENT_P, dirty, 0, 0⟩, s)

/-- `vm_object_anon_copy`; copying an object that is not anonymous is an error. -/
def vmObjectAnonCopy (s : Kernel D) (o : Nat) : Option (Nat × Kernel D) :=
  match s.objects o with
  | some (.anon pages clean) => some (newObject s (.anon pages clean))
  | _ => none

/-- `vm_object_anon`: an object without pages, in front of the clean object `o`. No segment has an anonymous object both
    as its clean and as its dirty one. -/
def vmObjectAnon (s : Kernel D) (o : Nat) : Option (Nat × Kernel D) :=
  match s.objects o with
  | none => some (newObject s (.anon (fun _ => 0) none))
  | some (.vnode vnode) => some (newObject s (.anon (fun _ => 0) (some (.vnode vnode))))
  | some (.direct base size) => some (newObject s (.anon (fun _ => 0) (some (.direct base size))))
  | some (.anon _ _) => none

/-- `vm_segment_copy(from, 1)`. -/
def vmSegmentCopy (s : Kernel D) (seg : Segment) : Option (Segment × Kernel D) := do
  let (dirty, s) ←
    if seg.clean ≠ seg.dirty then vmObjectAnonCopy s seg.dirty
    else vmObjectAnon s seg.clean
  return ({ seg with perms := seg.perms ||| SEGMENT_P, dirty := dirty }, s)

/-- `process_duplicate_as`. -/
def processDuplicateAs (s : Kernel D) : List Segment → Option (List Segment × Kernel D)
  | [] => some ([], s)
  | seg :: rest => do
    let (seg, s) ← vmSegmentCopy s seg
    let (rest, s) ← processDuplicateAs s rest
    return (seg :: rest, s)

/-- `process_fork` in the process `cur`: the new process comes last. -/
def processFork (s : Kernel D) (cur : Nat) : Option (Kernel D) := do
  let (as, s) ← processDuplicateAs s (s.space cur)
  return { s with procs := s.procs ++ [as] }

/-! ### Pages of files -/

variable {files} {s : Kernel D} {vnode : Vnode} {offset : Offset}

/-- A page that is in the page cache. -/
lemma vnodeGetPage_cached (h : s.page_cache vnode offset ≠ 0) :
    vnodeGetPage files s vnode offset = (s.page_cache vnode offset, s) := by
  rw [vnodeGetPage, if_neg h]

/-- A page that is read in. -/
lemma vnodeGetPage_read {page : Page} {pool : List Page} (h : s.page_cache vnode offset = 0)
    (free : s.pool = page :: pool) :
    vnodeGetPage files s vnode offset = (page, { s with
      pool := pool
      contents := update s.contents page (files vnode offset)
      page_cache := update s.page_cache vnode (update (s.page_cache vnode) offset page) }) := by
  rw [vnodeGetPage, if_pos h, fsGetPage, pageAlloc, free]

/-- Without pages the page cache stays as it is. -/
lemma vnodeGetPage_empty (h : s.page_cache vnode offset = 0) (empty : s.pool = []) :
    vnodeGetPage files s vnode offset =
      (0, { s with contents := update s.contents 0 (files vnode offset) }) := by
  have cache : update (s.page_cache vnode) offset 0 = s.page_cache vnode := by rw [← h, update_eq_self]
  simp only [vnodeGetPage, if_pos h, fsGetPage, pageAlloc, empty, cache, update_eq_self]

end Fault

end Twcos.Vm
