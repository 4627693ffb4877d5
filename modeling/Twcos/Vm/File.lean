import Twcos.Vm.Fault

/-!
# Faults in file segments

Which page of the page cache a fault in a vnode segment maps. `vm_page_fault` hands the offset of the faulting
address in the segment down to the page cache as it is: not rounded to a page, and without the `read_offset`
of the segment. `fileFaults_iff` says for which segments and addresses the right page comes out of that. `files` may
be any file system; `Tarfs/Mapped` takes the files of an archive for it.
-/

namespace Twcos.Vm
open Function

/-- A segment whose base and read offset are aligned to pages, and which does not wrap around. -/
structure FileSegment extends Segment where
  base_aligned : base.toNat % 4096 = 0
  read_aligned : read_offset.toNat % 4096 = 0
  fits : base.toNat + size.toNat ≤ 2 ^ 32

section File
variable {D : Type} (files : Vnode → Offset → D) (tbl : Nat → Nat)

/-- The offset in the file of the page that an address is in. -/
def FileSegment.fileOffset (seg : FileSegment) (p : Addr) : Offset :=
  seg.read_offset + (archPageAlign p - seg.base).setWidth 64

/-- The segment has its pages from the vnode, at least the one at the offset: a private segment has no dirty
    page there. -/
def Backed (s : Kernel D) (seg : FileSegment) (vnode : Vnode) (offset : Offset) : Prop :=
  s.objects seg.dirty = some (.vnode vnode) ∨
    ∃ pages, s.objects seg.dirty = some (.anon pages (some (.vnode vnode))) ∧ pages (offset >>> 12) = 0

/-- A fault at the address is one in the segment; the page is not present, and there is a page to read
    into. -/
structure Ready (s : Kernel D) (cur as : Nat) (seg : FileSegment) (vnode : Vnode) (p : Addr) : Prop where
  resolve : vmResolveAddress s cur p = some (as, seg.toSegment, (p - seg.base).signExtend 64)
  backed : Backed s seg vnode ((p - seg.base).signExtend 64)
  absent : s.tables (tbl as) (archPageAlign p >>> 12) = none
  cached : ∀ offset, s.page_cache vnode offset ≠ 0 →
    s.contents (s.page_cache vnode offset) = files vnode offset
  free : ∃ page pool, s.pool = page :: pool ∧ page ≠ 0

/-- The fault at `p` maps the page of the page cache that has the bytes of the file from the right offset on,
    and a fault at `p'`, once the page is not mapped any more, maps the same page. -/
def FileFaults (s : Kernel D) (cur as : Nat) (seg : FileSegment) (vnode : Vnode) (p p' : Addr)
    (write write' : Bool) : Prop :=
  ∃ s1 pte, vmPageFault files tbl s cur p write = some s1 ∧
    s1.tables (tbl as) (archPageAlign p >>> 12) = some pte ∧ pte.page ≠ 0 ∧
    s1.page_cache vnode (seg.fileOffset p) = pte.page ∧
    s1.contents pte.page = files vnode (seg.fileOffset p) ∧
    ∃ s2 pte', vmPageFault files tbl (vmapUnmap tbl s1 as (archPageAlign p)) cur p' write' = some s2 ∧
      s2.tables (tbl as) (archPageAlign p' >>> 12) = some pte' ∧ pte'.page = pte.page

variable {files tbl} {s : Kernel D} {cur as : Nat} {seg : FileSegment} {vnode : Vnode} {p p' : Addr}

/-! ### What a fault maps -/

/-- Both kinds of vnode segments get their pages from the page cache. -/
lemma getPage_backed {offset : Offset} (backed : Backed s seg vnode offset)
    (nonzero : (vnodeGetPage files s vnode offset).1 ≠ 0) :
    getPage files s seg.dirty offset = some (vnodeGetPage files s vnode offset) := by
  rcases backed with backed | ⟨pages, backed, none⟩
  · rw [getPage, backed]
  · rw [getPage, backed]
    simp only [vmAnonGetPage, none, ne_eq, not_true_eq_false, if_false]
    exact congrArg some (if_pos nonzero)

/-- The page cache has the page afterwards. -/
lemma vnodeGetPage_spec (cached : ∀ offset, s.page_cache vnode offset ≠ 0 →
    s.contents (s.page_cache vnode offset) = files vnode offset)
    (free : ∃ page pool, s.pool = page :: pool ∧ page ≠ 0) (offset : Offset) :
    ∃ page s1, vnodeGetPage files s vnode offset = (page, s1) ∧ page ≠ 0 ∧
      s1.page_cache vnode offset = page ∧ s1.contents page = files vnode offset ∧
      s1.objects = s.objects ∧ s1.tables = s.tables ∧ s1.kas = s.kas ∧ s1.procs = s.procs := by
  by_cases h : s.page_cache vnode offset = 0
  · obtain ⟨page, pool, free, nonzero⟩ := free
    refine ⟨page, _, vnodeGetPage_read h free, nonzero, ?_⟩
    simp only [update_self, and_self]
  · exact ⟨_, s, vnodeGetPage_cached h, h, rfl, cached offset h, rfl, rfl, rfl, rfl⟩

/-- A fault for which the page cache has a page. -/
lemma vmPageFault_backed {page : Page} {s1 : Kernel D} {w : Bool}
    (resolve : vmResolveAddress s cur p = some (as, seg.toSegment, (p - seg.base).signExtend 64))
    (inside : ((p - seg.base).signExtend 64 : Offset).toNat < seg.size.toNat)
    (backed : Backed s seg vnode ((p - seg.base).signExtend 64))
    (absent : s.tables (tbl as) (archPageAlign p >>> 12) = none)
    (get : vnodeGetPage files s vnode ((p - seg.base).signExtend 64) = (page, s1)) (nonzero : page ≠ 0) :
    vmPageFault files tbl s cur p w =
      some (vmapMap tbl s1 as (archPageAlign p) page (w && seg.Writable) seg.User) := by
  have got : getPage files s seg.dirty ((p - seg.base).signExtend 64) = some (page, s1) := by
    rw [getPage_backed backed, get]
    rw [get]
    exact nonzero
  simp only [vmPageFault, resolve, if_pos inside, absent, faultAbsent, got, Option.bind_eq_bind,
    Option.bind_some, if_neg nonzero]
  rfl

/-- The entry that was mapped. -/
@[simp] lemma vmapMap_entry (s : Kernel D) (as : Nat) (q : Addr) (page : Page) (rw user : Bool) :
    (vmapMap tbl s as q page rw user).tables (tbl as) (q >>> 12) = some ⟨page, rw, user⟩ := by
  rw [vmapMap]
  simp only [update_self]

/-- Resolving depends on the segments only. -/
lemma vmResolveAddress_congr {s1 : Kernel D} (kas : s1.kas = s.kas) (procs : s1.procs = s.procs)
    (cur : Nat) (p : Addr) : vmResolveAddress s1 cur p = vmResolveAddress s cur p := by
  have space : s1.space cur = s.space cur := by
    cases cur with
    | zero => exact kas
    | succ i => rw [Kernel.space, Kernel.space, procs]
  rw [vmResolveAddress, vmResolveAddress, kas, space]

/-! ### Offsets -/

/-- A difference of pointers of less than `2 ^ 31` is the offset. -/
lemma signExtend_small {d : BitVec 32} (h : d.toNat < 2 ^ 31) : d.signExtend 64 = d.setWidth 64 := by
  apply BitVec.signExtend_eq_setWidth_of_msb_false
  rw [BitVec.msb_eq_decide, decide_eq_false_iff_not]
  omega

/-- A larger one is negative, and gives an offset beyond every segment. -/
lemma signExtend_large {d : BitVec 32} (h : 2 ^ 31 ≤ d.toNat) : 2 ^ 32 ≤ (d.signExtend 64).toNat := by
  have msb : d.msb = true := by
    rw [BitVec.msb_eq_decide, decide_eq_true_iff]
    omega
  rw [BitVec.toNat_signExtend, msb, if_pos rfl]
  omega

/-- An address in the first half of memory behind the base is taken to be inside. -/
lemma inside_of_small (hp : seg.Has p) (small : (p - seg.base).toNat < 2 ^ 31) :
    ((p - seg.base).signExtend 64 : Offset).toNat < seg.size.toNat := by
  rw [signExtend_small small, BitVec.toNat_setWidth]
  have := BitVec.lt_def.mp hp
  omega

/-- A fault at the first byte of a page of a segment that starts at the beginning of the file. -/
lemma Ready.fileFaults (h : Ready files tbl s cur as seg vnode p) (hp : seg.Has p)
    (read : seg.read_offset = 0) (aligned : archPageAlign p = p) (small : (p - seg.base).toNat < 2 ^ 31)
    (write write' : Bool) : FileFaults files tbl s cur as seg vnode p p write write' := by
  have offset : seg.fileOffset p = (p - seg.base).signExtend 64 := by
    rw [FileSegment.fileOffset, read, aligned, signExtend_small small]
    exact BitVec.zero_add _
  have inside := inside_of_small hp small
  obtain ⟨page, s1, get, nonzero, cache, contents, objects, tables, kas, procs⟩ :=
    vnodeGetPage_spec h.cached h.free ((p - seg.base).signExtend 64)
  have fault := vmPageFault_backed (w := write) h.resolve inside h.backed h.absent get nonzero
  refine ⟨_, _, fault, vmapMap_entry _ _ _ _ _ _, nonzero, ?_, ?_, ?_⟩
  · rw [offset]
    exact cache
  · rw [offset]
    exact contents
  · -- the second fault finds the page in the cache
    generalize mapped : vmapMap tbl s1 as (archPageAlign p) page (write && seg.Writable) seg.User = s2
    have cache2 : (vmapUnmap tbl s2 as (archPageAlign p)).page_cache vnode
        ((p - seg.base).signExtend 64) = page := by
      rw [← mapped]
      exact cache
    have get2 : vnodeGetPage files (vmapUnmap tbl s2 as (archPageAlign p)) vnode
        ((p - seg.base).signExtend 64) = (page, vmapUnmap tbl s2 as (archPageAlign p)) := by
      rw [vnodeGetPage_cached, cache2]
      rw [cache2]
      exact nonzero
    have resolve2 : vmResolveAddress (vmapUnmap tbl s2 as (archPageAlign p)) cur p =
        some (as, seg.toSegment, (p - seg.base).signExtend 64) := by
      rw [← mapped, ← h.resolve]
      exact vmResolveAddress_congr kas procs cur p
    have backed2 : Backed (vmapUnmap tbl s2 as (archPageAlign p)) seg vnode
        ((p - seg.base).signExtend 64) := by
      have same : (vmapUnmap tbl s2 as (archPageAlign p)).objects = s.objects := by
        rw [← mapped]
        exact objects
      rw [Backed, same]
      exact h.backed
    have absent2 : (vmapUnmap tbl s2 as (archPageAlign p)).tables (tbl as) (archPageAlign p >>> 12) =
        none := by
      rw [vmapUnmap]
      simp only [update_self]
    have fault2 := vmPageFault_backed (w := write') resolve2 inside backed2
      absent2 get2 nonzero
    exact ⟨_, _, fault2, vmapMap_entry _ _ _ _ _ _, rfl⟩

/-! ### Where it goes wrong -/

variable (files)

/-- One process with the segment, and two pages to read into. -/
def fileKernel (seg : FileSegment) : Kernel D where
  objects := fun o => if o = seg.dirty ∨ o = seg.clean then some (.vnode 0) else none
  fresh := seg.dirty + seg.clean + 1
  page_cache := fun _ _ => 0
  contents := fun _ => files 0 0
  pool := [1, 2]
  tables := fun _ _ => none
  kas := []
  procs := [[seg.toSegment]]

variable {files}

/-- The base is at or below the addresses of the segment. -/
lemma FileSegment.base_le (hp : seg.Has p) : seg.base.toNat ≤ p.toNat ∧
    (p - seg.base).toNat = p.toNat - seg.base.toNat := by
  have lt := BitVec.lt_def.mp hp
  have fits := seg.fits
  rw [BitVec.toNat_sub] at lt ⊢
  omega

/-- Every address of the segment is resolved to it. -/
lemma fileKernel_resolve (hp : seg.Has p) :
    vmResolveAddress (fileKernel files seg) 1 p =
      some (1, seg.toSegment, (p - seg.base).signExtend 64) := by
  have low : 0 ≤ keySign p seg.toSegment := by
    rw [keySign_nonneg, BitVec.le_def]
    exact (FileSegment.base_le hp).1
  simp only [vmResolveAddress, vmGetSegment, fileKernel, Kernel.space, Tree.pick, List.filter_nil,
    List.getLast?_nil, List.getD_cons_zero, List.filter_cons, low, decide_true, if_true,
    List.getLast?_singleton, Option.map_some]

/-- Everything is ready for a fault. -/
lemma fileKernel_ready (hp : seg.Has p) : Ready files tbl (fileKernel files seg) 1 1 seg 0 p where
  resolve := fileKernel_resolve hp
  backed := .inl (if_pos (.inl rfl))
  absent := rfl
  cached := fun _ h => absurd rfl h
  free := ⟨1, [2], rfl, by decide⟩

/-- What the first fault leaves behind: the page is in the cache under the offset in the segment. -/
def fileKernelRead (files : Vnode → Offset → D) (seg : FileSegment) (offset : Offset) : Kernel D :=
  { fileKernel files seg with
    pool := [2]
    contents := update (fun _ => files 0 0) 1 (files 0 offset)
    page_cache := update (fun _ _ => 0) 0 (update (fun _ => 0) offset 1) }

/-- What the first fault does. -/
lemma fileKernel_fault (hp : seg.Has p) (small : (p - seg.base).toNat < 2 ^ 31) (write : Bool) :
    vmPageFault files tbl (fileKernel files seg) 1 p write =
      some (vmapMap tbl (fileKernelRead files seg ((p - seg.base).signExtend 64)) 1 (archPageAlign p) 1
        (write && seg.Writable) seg.User) := by
  have ready : Ready files tbl (fileKernel files seg) 1 1 seg 0 p := fileKernel_ready hp
  exact vmPageFault_backed ready.resolve (inside_of_small hp small) ready.backed ready.absent
    (vnodeGetPage_read rfl rfl) (by decide)

/-- The page cache has no page for other offsets. -/
lemma fileKernelRead_cache (files : Vnode → Offset → D) (seg : FileSegment) {o offset : Offset} (ne : o ≠ offset) :
    (fileKernelRead files seg offset).page_cache 0 o = 0 := by
  simp only [fileKernelRead, update_self, update_of_ne ne]

/-- A fault elsewhere in the page reads in another page. -/
lemma fileKernel_second (files : Vnode → Offset → D) (tbl : Nat → Nat) (hp' : seg.Has p') (small : (p' - seg.base).toNat < 2 ^ 31)
    (same : archPageAlign p' = archPageAlign p) {offset : Offset}
    (ne : (p' - seg.base).signExtend 64 ≠ offset) (page : Page) (rw user write : Bool) :
    ∃ s2, vmPageFault files tbl (vmapUnmap tbl (vmapMap tbl (fileKernelRead files seg offset) 1
        (archPageAlign p) page rw user) 1 (archPageAlign p)) 1 p' write =
      some (vmapMap tbl s2 1 (archPageAlign p') 2 (write && seg.Writable) seg.User) := by
  generalize unmapped : vmapUnmap tbl (vmapMap tbl (fileKernelRead files seg offset) 1
    (archPageAlign p) page rw user) 1 (archPageAlign p) = s
  have resolve : vmResolveAddress s 1 p' = some (1, seg.toSegment, (p' - seg.base).signExtend 64) := by
    rw [← unmapped]
    exact (vmResolveAddress_congr rfl rfl 1 p').trans (fileKernel_resolve hp' : vmResolveAddress
      (fileKernel files seg) 1 p' = _)
  have backed : Backed s seg 0 ((p' - seg.base).signExtend 64) := by
    rw [← unmapped]
    exact .inl (if_pos (.inl rfl))
  have absent : s.tables (tbl 1) (archPageAlign p' >>> 12) = none := by
    rw [← unmapped, same, vmapUnmap]
    simp only [update_self]
  have cache : s.page_cache 0 ((p' - seg.base).signExtend 64) = 0 := by
    rw [← unmapped]
    exact fileKernelRead_cache files seg ne
  have pool : s.pool = [2] := by
    rw [← unmapped]
    rfl
  exact ⟨_, vmPageFault_backed resolve (inside_of_small hp' small) backed absent
    (vnodeGetPage_read cache pool) (by decide)⟩

/-- A fault beyond `2 ^ 31` is taken for one outside of the segment. -/
lemma vmPageFault_large (hp : seg.Has p) (large : 2 ^ 31 ≤ (p - seg.base).toNat) (write : Bool) :
    vmPageFault files tbl (fileKernel files seg) 1 p write = none := by
  have outside : ¬((p - seg.base).signExtend 64 : Offset).toNat < seg.size.toNat := by
    have := signExtend_large large
    have := seg.size.isLt
    omega
  simp only [vmPageFault, fileKernel_resolve hp, if_neg outside]

/-- The offsets agree at the first bytes of pages, when the segment starts at the beginning of the file. -/
lemma fileOffset_eq (hp : seg.Has p) (small : (p - seg.base).toNat < 2 ^ 31)
    (h : seg.fileOffset p = (p - seg.base).signExtend 64) : seg.read_offset = 0 ∧ archPageAlign p = p := by
  obtain ⟨le, sub⟩ := FileSegment.base_le hp
  have aligned := seg.base_aligned
  have read := seg.read_aligned
  have align := archPageAlign_toNat p
  have sub' : (archPageAlign p - seg.base).toNat = p.toNat / 4096 * 4096 - seg.base.toNat := by
    rw [BitVec.toNat_sub, align]
    have := p.isLt
    omega
  rw [signExtend_small small, FileSegment.fileOffset] at h
  have h := congrArg BitVec.toNat h
  rw [BitVec.toNat_add, BitVec.toNat_setWidth, BitVec.toNat_setWidth, sub', sub] at h
  rw [sub] at small
  have := seg.read_offset.isLt
  have := p.isLt
  constructor
  · apply BitVec.eq_of_toNat_eq
    show seg.read_offset.toNat = 0
    omega
  · apply BitVec.eq_of_toNat_eq
    rw [align]
    omega

end File

/-- Faults at two addresses in one page of a vnode segment map the right page of the file, and the same one,
    exactly if the segment starts at the beginning of the file, both are at the first byte of the page, and
    that is less than `2 ^ 31` bytes into the segment. -/
theorem fileFaults_iff {D : Type} (files : Vnode → Offset → D) (tbl : Nat → Nat) (seg : FileSegment)
    (p p' : Addr) (hp : seg.Has p) (hp' : seg.Has p') (same : archPageAlign p' = archPageAlign p) :
    (∀ s cur as vnode write write', Ready files tbl s cur as seg vnode p →
      Ready files tbl s cur as seg vnode p' →
      FileFaults files tbl s cur as seg vnode p p' write write') ↔
      seg.read_offset = 0 ∧ archPageAlign p = p ∧ p' = p ∧ (p - seg.base).toNat < 2 ^ 31 := by
  constructor
  · intro all
    obtain ⟨s1, pte, fault, entry, nonzero, cache, -, s2, pte', fault', entry', page'⟩ :=
      all (fileKernel files seg) 1 1 0 false false (fileKernel_ready hp) (fileKernel_ready hp')
    have small : (p - seg.base).toNat < 2 ^ 31 := by
      by_contra large
      rw [vmPageFault_large hp (by omega)] at fault
      cases fault
    rw [fileKernel_fault hp small] at fault
    cases fault
    rw [vmapMap_entry] at entry
    cases entry
    -- the page is in the cache under the offset in the segment only
    have offset : seg.fileOffset p = (p - seg.base).signExtend 64 := by
      by_contra ne
      have other : (0 : Page) = 1 := (fileKernelRead_cache files seg ne).symm.trans cache
      exact absurd other (by decide)
    obtain ⟨read, aligned⟩ := fileOffset_eq hp small offset
    refine ⟨read, aligned, ?_, small⟩
    obtain ⟨le, sub⟩ := FileSegment.base_le hp
    obtain ⟨le', sub'⟩ := FileSegment.base_le hp'
    have align := archPageAlign_toNat p'
    rw [same, aligned] at align
    have base := seg.base_aligned
    have small' : (p' - seg.base).toNat < 2 ^ 31 := by
      rw [sub] at small
      rw [sub']
      omega
    by_contra ne
    have ne' : (p' - seg.base).signExtend 64 ≠ ((p - seg.base).signExtend 64 : Offset) := by
      rw [signExtend_small small, signExtend_small small']
      intro e
      apply ne
      have e := congrArg BitVec.toNat e
      rw [BitVec.toNat_setWidth, BitVec.toNat_setWidth, sub, sub'] at e
      apply BitVec.eq_of_toNat_eq
      have := p.isLt
      have := p'.isLt
      omega
    obtain ⟨s3, second⟩ := fileKernel_second files tbl hp' small' same ne' 1 (false && seg.Writable)
      seg.User false
    rw [second] at fault'
    cases fault'
    rw [vmapMap_entry] at entry'
    cases entry'
    have two : (2 : Page) = 1 := page'
    exact absurd two (by decide)
  · rintro ⟨read, aligned, rfl, small⟩ s cur as vnode write write' ready -
    exact ready.fileFaults hp read aligned small write write'

/-- Two pages of a file from the offset on, as at the start of a program. -/
def textSegment (read_offset : Offset) (aligned : read_offset.toNat % 4096 = 0) : FileSegment where
  base := 0x10000
  size := 0x2000
  perms := SEGMENT_R ||| SEGMENT_U ||| SEGMENT_P
  clean := 1
  read_offset := read_offset
  dirty := 1
  base_aligned := by decide
  read_aligned := aligned
  fits := by decide

/-- Faults in the second page of a file. -/
theorem fileFaults_second_page : (textSegment 0 rfl).Has 0x11000 ∧
    FileFaults (fun _ offset => offset) id (fileKernel (fun _ offset => offset) (textSegment 0 rfl)) 1 1
      (textSegment 0 rfl) 0 0x11000 0x11000 true false := by
  have has : (textSegment 0 rfl).Has 0x11000 := by
    show (0x11000 - 0x10000 : Addr) < 0x2000
    decide
  refine ⟨has, ?_⟩
  exact (fileFaults_iff (fun _ offset => offset) id (textSegment 0 rfl) 0x11000 0x11000 has has rfl).mpr
    ⟨rfl, by decide, rfl, by decide⟩ _ 1 1 0 true false (fileKernel_ready has) (fileKernel_ready has)

/-- With a read offset of one page, the first page of the segment is read from the beginning of the file. -/
theorem read_offset_ignored : (textSegment 0x1000 rfl).Has 0x10000 ∧
    Ready (fun _ offset => offset) id (fileKernel (fun _ offset => offset) (textSegment 0x1000 rfl)) 1 1
      (textSegment 0x1000 rfl) 0 0x10000 ∧
    ¬FileFaults (fun _ offset => offset) id (fileKernel (fun _ offset => offset) (textSegment 0x1000 rfl))
      1 1 (textSegment 0x1000 rfl) 0 0x10000 0x10000 false false := by
  have has : (textSegment 0x1000 rfl).Has 0x10000 := by
    show (0x10000 - 0x10000 : Addr) < 0x2000
    decide
  refine ⟨has, fileKernel_ready has, ?_⟩
  rintro ⟨s1, pte, fault, entry, -, -, contents, -⟩
  rw [fileKernel_fault has (by decide)] at fault
  cases fault
  rw [vmapMap_entry] at entry
  cases entry
  have read : (0 : Offset) = 0x1000 := contents
  exact absurd read (by decide)

end Twcos.Vm
