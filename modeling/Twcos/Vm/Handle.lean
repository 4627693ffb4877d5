import Twcos.Vm.Fault

/-!
# The fault handler

Model of `vm_page_fault` of `kernel/vm.c` with all that it is given: the present flag comes from the processor, and
the objects that supply pages are a parameter. `getPage objects o offset` is what `ops->get_page` of the object `o`
gives, which may change the objects; it is `none` if there is no such object, as following a null pointer traps.
`handleFault_vmPageFault` says that for the objects of `Twcos.Vm.Fault`, and the present flag that the page table
shows, this is the function modelled there.

The address space `0` is `kas`.
-/

namespace Twcos.Vm
open Function

/-- Objects, page tables and address spaces. -/
structure Space (σ : Type) where
  objects : σ
  tables : Nat → BitVec 32 → Option Pte
  spaces : Nat → List Segment

/-- What a call of `vm_page_fault` ends in: an entry for a page has been made in an address space, or
    `vm_invalid_pointer` was called, or a null pointer was followed. -/
inductive Outcome (σ : Type) where
  | mapped (page : Page) (as : Nat) (s : Space σ)
  | invalid (p : Addr)
  | trap

section Handle
variable {σ : Type} (getPage : σ → Nat → Offset → Option (Page × σ)) (tbl : Nat → Nat)

/-- `vm_resolve_address`; `cur` is the address space of the current process, if there is one. -/
def Space.resolve (s : Space σ) (cur : Option Nat) (p : Addr) : Option (Nat × Segment × Offset) :=
  match vmGetSegment (s.spaces 0) p with
  | some seg => some (0, seg, (p - seg.base).signExtend 64)
  | none => cur.bind fun as =>
      (vmGetSegment (s.spaces as) p).map fun seg => (as, seg, (p - seg.base).signExtend 64)

/-- The entry of the page table for the page that an address is in. -/
def Space.pte (s : Space σ) (as : Nat) (p : Addr) : Option Pte := s.tables (tbl as) (archPageAlign p >>> 12)

/-- `vmap_map`. -/
def Space.vmapMap (s : Space σ) (as : Nat) (p : Addr) (page : Page) (rw user : Bool) : Space σ :=
  { s with tables := update s.tables (tbl as) (update (s.tables (tbl as)) (p >>> 12) (some ⟨page, rw, user⟩)) }

/-- `vmap_get_page`. -/
def Space.vmapGetPage (s : Space σ) (as : Nat) (p : Addr) : Page :=
  match s.tables (tbl as) (p >>> 12) with
  | none => 0
  | some pte => pte.page

/-- The branch of `vm_page_fault` for a page that is not present. -/
def handleAbsent (s : Space σ) (as : Nat) (seg : Segment) (offset : Offset) (p : Addr) (write : Bool) : Outcome σ :=
  match getPage s.objects seg.dirty offset with
  | none => .trap
  | some (page, objects) =>
    if page = 0 then
      -- not in the dirty pages
      match getPage objects seg.clean (offset + seg.read_offset) with
      | none => .trap
      | some (page, objects) =>
        .mapped page as (Space.vmapMap tbl { s with objects := objects } as p page false seg.User)
    else
      .mapped page as (Space.vmapMap tbl { s with objects := objects } as p page (write && seg.Writable) seg.User)

/-- `vm_page_fault`. Its argument `user` is only handed on to `vm_invalid_pointer`, which does not use it. -/
def handleFault (s : Space σ) (cur : Option Nat) (p : Addr) (write present : Bool) : Outcome σ :=
  match s.resolve cur p with
  | none => .invalid p
  | some (as, seg, offset) =>
    if offset.toNat < seg.size.toNat then
      let p := archPageAlign p
      if !present then handleAbsent getPage tbl s as seg offset p write
      else if write && seg.Writable then
        let page := s.vmapGetPage tbl as p
        .mapped page as (s.vmapMap tbl as p page (write && seg.Writable) seg.User)
      else .invalid p
    else .invalid p

/-- The present flag for an address: whether the page table has an entry. -/
def Space.shown (s : Space σ) (cur : Option Nat) (p : Addr) : Bool :=
  match s.resolve cur p with
  | none => false
  | some (as, _, _) => (s.pte tbl as p).isSome

end Handle

/-! ### The objects of a kernel -/

section Kernel
variable {D : Type} {files : Vnode → Offset → D} {tbl : Nat → Nat} {s s' : Kernel D}

/-- The address spaces of a kernel, which has its own objects. -/
def Kernel.toSpace (s : Kernel D) : Space (Kernel D) := ⟨s, s.tables, s.space⟩

/-- The page tables and the address spaces are the same. -/
structure Keeps (s s' : Kernel D) : Prop where
  tables : s'.tables = s.tables
  space : s'.space = s.space

/-- Two changes, one after the other. -/
lemma Keeps.trans {s1 s2 s3 : Kernel D} (h : Keeps s1 s2) (h' : Keeps s2 s3) : Keeps s1 s3 :=
  ⟨h'.tables.trans h.tables, h'.space.trans h.space⟩

/-- Taking a page of the pool keeps processes and tables. -/
lemma pageAlloc_keeps (s : Kernel D) : Keeps s (pageAlloc s).2 := by
  rw [pageAlloc]
  cases s.pool with
  | nil => exact ⟨rfl, rfl⟩
  | cons page pool => exact ⟨rfl, rfl⟩

/-- Reading a page of a file keeps processes and tables. -/
lemma vnodeGetPage_keeps (s : Kernel D) (vnode : Vnode) (offset : Offset) :
    Keeps s (vnodeGetPage files s vnode offset).2 := by
  rw [vnodeGetPage]
  by_cases h : s.page_cache vnode offset = 0
  · rw [if_pos h]
    exact (pageAlloc_keeps s).trans ⟨rfl, rfl⟩
  · rw [if_neg h]
    exact ⟨rfl, rfl⟩

/-- Taking a page of a clean object keeps processes and tables. -/
lemma Clean.getPage_keeps (s : Kernel D) (object : Clean) (offset : Offset) :
    Keeps s (object.getPage files s offset).2 := by
  cases object with
  | vnode v => exact vnodeGetPage_keeps s v offset
  | direct base size => exact ⟨rfl, rfl⟩

/-- Adding a page keeps processes and tables. -/
lemma anonAddPage_keeps (s : Kernel D) (o : Nat) (pages : Offset → Page) (clean : Option Clean) (k : Offset) :
    Keeps s (anonAddPage s o pages clean k).2 :=
  (pageAlloc_keeps s).trans ⟨rfl, rfl⟩

/-- Taking a page of an anonymous object keeps processes and tables. -/
lemma vmAnonGetPage_keeps (s : Kernel D) (o : Nat) (pages : Offset → Page) (clean : Option Clean) (offset : Offset) :
    Keeps s (vmAnonGetPage files s o pages clean offset).2 := by
  unfold vmAnonGetPage
  by_cases h : pages (offset >>> 12) ≠ 0
  · simp only [if_pos h]
    exact ⟨rfl, rfl⟩
  · simp only [if_neg h]
    cases clean with
    | none => exact anonAddPage_keeps s o pages none _
    | some object =>
      have keeps := @Clean.getPage_keeps D files s object offset
      dsimp only
      by_cases h' : (object.getPage files s offset).1 ≠ 0
      · rw [if_pos h']
        exact keeps
      · rw [if_neg h']
        exact keeps.trans (anonAddPage_keeps _ o pages (some object) _)

/-- Getting a page changes neither the page tables nor the address spaces. -/
lemma getPage_keeps {o : Nat} {offset : Offset} {page : Page} (h : getPage files s o offset = some (page, s')) :
    Keeps s s' := by
  rw [getPage] at h
  cases ho : s.objects o with
  | none =>
    rw [ho] at h
    cases h
  | some object =>
    rw [ho] at h
    cases object with
    | direct base size =>
      cases h
      exact ⟨rfl, rfl⟩
    | anon pages clean =>
      have keeps := @vmAnonGetPage_keeps D files s o pages clean offset
      rwa [Option.some.inj h] at keeps
    | vnode vnode =>
      have keeps := @vnodeGetPage_keeps D files s vnode offset
      rwa [Option.some.inj h] at keeps

/-- The handler has made an entry: the kernel has the page tables and the objects that it left. -/
def Entered (s' : Kernel D) : Outcome (Kernel D) → Prop
  | .mapped _ _ t => t.tables = s'.tables ∧ t.spaces = s'.space ∧ { t.objects with tables := s'.tables } = s'
  | _ => False

/-- Mapping a page enters the same in both models. -/
lemma entered_vmapMap {s2 : Kernel D} (keeps : Keeps s s2) (as : Nat) (p : Addr) (page : Page) (rw user : Bool) :
    Entered (vmapMap tbl s2 as p page rw user)
      (.mapped page as (Space.vmapMap tbl { s.toSpace with objects := s2 } as p page rw user)) := by
  obtain ⟨tables, space⟩ := keeps
  refine ⟨?_, space.symm, rfl⟩
  show update s.tables _ (update (s.tables _) _ _) = update s2.tables _ (update (s2.tables _) _ _)
  rw [tables]

/-- A fault without an entry enters the same in both models. -/
lemma handleAbsent_faultAbsent {as : Nat} {seg : Segment} {offset : Offset} {p : Addr} {write : Bool}
    (h : faultAbsent files tbl s as seg offset p write = some s') :
    Entered s' (handleAbsent (getPage files) tbl s.toSpace as seg offset p write) := by
  rw [faultAbsent] at h
  obtain ⟨⟨page, s1⟩, get, h⟩ := Option.bind_eq_some_iff.mp h
  have get' : getPage files s.toSpace.objects seg.dirty offset = some (page, s1) := get
  rw [handleAbsent, get']
  dsimp only at h ⊢
  by_cases zero : page = 0
  · rw [if_pos zero] at h ⊢
    obtain ⟨⟨page2, s2⟩, get2, h⟩ := Option.bind_eq_some_iff.mp h
    cases h
    rw [get2]
    exact entered_vmapMap ((getPage_keeps get).trans (getPage_keeps get2)) ..
  · rw [if_neg zero] at h ⊢
    cases h
    exact entered_vmapMap (getPage_keeps get) ..

/-- With the objects of a kernel, and the present flag that the page table shows, the handler does what
    `vmPageFault` does. -/
theorem handleFault_vmPageFault {cur : Nat} {p : Addr} {write : Bool}
    (h : vmPageFault files tbl s cur p write = some s') :
    Entered s' (handleFault (getPage files) tbl s.toSpace (some cur) p write (s.toSpace.shown tbl (some cur) p)) := by
  have same : s.toSpace.resolve (some cur) p = vmResolveAddress s cur p := by
    rw [Space.resolve, vmResolveAddress]
    rfl
  rw [vmPageFault] at h
  cases hr : vmResolveAddress s cur p with
  | none =>
    rw [hr] at h
    cases h
  | some r =>
    obtain ⟨as, seg, offset⟩ := r
    rw [hr] at h same
    dsimp only at h
    by_cases lt : offset.toNat < seg.size.toNat
    · rw [if_pos lt] at h
      have shown : s.toSpace.shown tbl (some cur) p = (s.tables (tbl as) (archPageAlign p >>> 12)).isSome := by
        rw [Space.shown, same]
        rfl
      rw [handleFault, same]
      dsimp only
      rw [if_pos lt]
      cases entry : s.tables (tbl as) (archPageAlign p >>> 12) with
      | none =>
        rw [entry] at h shown
        rw [shown]
        exact handleAbsent_faultAbsent h
      | some pte =>
        rw [entry] at h shown
        rw [shown]
        dsimp only at h
        have page : s.toSpace.vmapGetPage tbl as (archPageAlign p) = pte.page := by
          rw [Space.vmapGetPage]
          show (match s.tables _ _ with | none => 0 | some pte => pte.page) = _
          rw [entry]
        by_cases writable : (write && seg.Writable) = true
        · rw [if_pos writable] at h
          cases h
          rw [page]
          simp only [Option.isSome_some, Bool.not_true, Bool.false_eq_true, if_false, writable, if_true]
          exact entered_vmapMap ⟨rfl, rfl⟩ ..
        · rw [if_neg writable] at h
          cases h
    · rw [if_neg lt] at h
      cases h

end Kernel

end Twcos.Vm
