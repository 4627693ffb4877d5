import Twcos.Vm.Cow
import Twcos.Vm.Vmpage
import Mathlib.Logic.Relation
import Mathlib.Data.List.GetD

/-!
# Stealing pages

`vm_page_steal` of `kernel/vm.c` takes the page at an address away from its segment: from the dirty object, the page
table and the reverse map. It takes whatever page the dirty object gives, also one that is only shared with it, by the
page cache or by the objects of other address spaces after a fork, and these keep it. `steal_iff` says when the page is
really nobody's afterwards.

What holds of all steps is said once, in `Flows`: pages that come into use come from the pool. So a page that is neither
in the pool nor in use stays so (`Gone`), whatever faults, forks and steals happen.

C → Lean naming: `vm_page_steal` → `vmPageSteal`; `put_page` of an object is `putPage`. An address space is known to the
reverse map by its pointer, `ptr`.
-/

namespace Twcos.Vm
open Function

section Steal
variable {D : Type} (files : Vnode → Offset → D) (tbl : Nat → Nat) (ptr : Nat → Addr)

/-- `object->ops->put_page(object, offset, page)`. Only anonymous objects have it, and a null pointer traps. -/
def putPage (s : Kernel D) (o : Nat) (offset : Offset) (page : Page) : Option (Kernel D) :=
  match s.objects o with
  | some (.anon pages clean) =>
    some { s with objects := update s.objects o (some (.anon (update pages (offset >>> 12) page) clean)) }
  | _ => none

/-- `vmap_ismapped`. -/
def vmapIsmapped (s : Kernel D) (as : Nat) (p : Addr) : Bool := (s.tables (tbl as) (p >>> 12)).isSome

/-- `vm_page_steal` for the process `cur`. -/
def vmPageSteal (s : Kernel D) (vm : Vmpages) (cur : Nat) (p : Addr) : Option (Page × Kernel D × Vmpages) :=
  match vmResolveAddress s cur p with
  | none => some (0, s, vm)
  | some (as, seg, offset) =>
    -- pages of segments that are not private cannot be stolen
    if seg.perms &&& SEGMENT_P = 0 then some (0, s, vm)
    else do
      let (page, s) ← getPage files s seg.dirty offset
      if page ≠ 0 then do
        let s ← putPage s seg.dirty offset 0
        let vm ← vmVmpageUnmap vm page ⟨ptr as, p⟩
        return (page, if vmapIsmapped tbl s as p then vmapUnmap tbl s as p else s, vm)
      else
        let (page, s) := pageAlloc s
        return (page, s, vm)

/-! ### Pages in use -/

/-- A page that the page cache has, or an object of a segment supplies. -/
def InUse (s : Kernel D) (page : Page) : Prop := Cached s page ∨ ∃ a, Holds s a page

/-- The pages of the pool are different, and not in use. -/
structure PoolFree (s : Kernel D) : Prop where
  nodup : s.pool.Nodup
  nonzero : 0 ∉ s.pool
  free : ∀ page ∈ s.pool, ¬InUse s page

/-- What happens: a fault, a fork or a steal. -/
inductive Happens : Kernel D → Kernel D → Prop where
  | fault {s s'} (cur : Nat) (p : Addr) (write : Bool) : vmPageFault files tbl s cur p write = some s' → Happens s s'
  | fork {s s'} (cur : Nat) : processFork s cur = some s' → Happens s s'
  | steal {s s' vm vm' page} (cur : Nat) (p : Addr) :
      vmPageSteal files tbl ptr s vm cur p = some (page, s', vm') → Happens s s'

/-! ### The property -/

/-- The page that an anonymous object has. -/
def Kernel.pageAt (s : Kernel D) (o : Nat) (k : Offset) : Page :=
  match s.objects o with
  | some (.anon pages _) => pages k
  | _ => 0

/-- Nothing changes but the page at the offset, and the entries for it in the table and in the reverse map. -/
structure Unaffected (s s' : Kernel D) (vm vm' : Vmpages) (as : Nat) (seg : Segment) (offset : Offset) (p : Addr)
    (page : Page) : Prop where
  pages : ∀ k, k ≠ offset >>> 12 → s'.pageAt seg.dirty k = s.pageAt seg.dirty k
  objects : ∀ o, o ≠ seg.dirty → s'.objects o = s.objects o
  cache : s'.page_cache = s.page_cache
  contents : s'.contents = s.contents
  tables : ∀ t vp, ¬(t = tbl as ∧ vp = p >>> 12) → s'.tables t vp = s.tables t vp
  records : ∀ q m, ¬(q = page ∧ m = ⟨ptr as, p⟩) → (m ∈ vm'.entries q ↔ m ∈ vm.entries q)

/-- The page is nobody's: it is not in use and not mapped at the address, in the page table and in the reverse map, and
    it is not mapped there again, whatever happens. -/
structure Stolen (s s' : Kernel D) (vm vm' : Vmpages) (as : Nat) (seg : Segment) (offset : Offset) (p : Addr)
    (page : Page) : Prop where
  unused : ¬InUse s' page
  unmapped : s'.tables (tbl as) (p >>> 12) = none
  reverse : ⟨ptr as, p⟩ ∉ vm'.entries page
  later : ∀ s'', Relation.ReflTransGen (Happens files tbl ptr) s' s'' →
    ∀ pte, s''.tables (tbl as) (p >>> 12) = some pte → pte.page ≠ page
  others : Unaffected tbl ptr s s' vm vm' as seg offset p page

/-- A page that is returned is stolen. -/
def StealOk (s : Kernel D) (vm : Vmpages) (cur : Nat) (p : Addr) (as : Nat) (seg : Segment) (offset : Offset) : Prop :=
  ∀ page s' vm', vmPageSteal files tbl ptr s vm cur p = some (page, s', vm') → page ≠ 0 →
    Stolen files tbl ptr s s' vm vm' as seg offset p page

/-! ### The condition -/

/-- The page of the dirty object is not in the page cache, and neither another offset, nor what is behind the object, nor
    another object has it. -/
structure Unshared (s : Kernel D) (seg : Segment) (pages : Offset → Page) (k : Offset) : Prop where
  cached : ¬Cached s (pages k)
  offsets : ∀ k', k' ≠ k → pages k' ≠ pages k
  behind : ∀ pages' object, s.objects seg.dirty = some (.anon pages' (some object)) →
    ∀ i, object.pageAt s.page_cache i ≠ pages k
  objects : ∀ a, ∀ seg' ∈ s.space a, ∀ o, o = seg'.dirty ∨ o = seg'.clean → o ≠ seg.dirty → ¬Supplies s o (pages k)

/-- The page of the dirty object is not shared. Or it has none, and there is no page of a device behind it, and no file, or
    no page to read the file into. -/
def StealFits (s : Kernel D) (seg : Segment) (offset : Offset) : Prop :=
  ∀ pages clean, s.objects seg.dirty = some (.anon pages clean) →
    if pages (offset >>> 12) ≠ 0 then Unshared s seg pages (offset >>> 12)
    else ∀ object, clean = some object →
      object.pageAt s.page_cache offset = 0 ∧ ∀ vnode, object = .vnode vnode → s.pool = []

/-- The segment is anonymous, one of a vnode, or the copy of a direct one. -/
def Ordinary (s : Kernel D) (seg : Segment) : Prop :=
  (∃ pages clean, s.objects seg.dirty = some (.anon pages clean)) ∨ ∃ vnode, s.objects seg.dirty = some (.vnode vnode)

end Steal

/-! ### How pages come into use -/

/-- What a step does with pages: those that come into use come from the pool. -/
structure Flows {D : Type} (s s1 : Kernel D) : Prop where
  used : ∀ q, InUse s1 q → InUse s q ∨ q ∈ s.pool ∧ q ∉ s1.pool
  pool : s1.pool <:+ s.pool

section Flows
variable {D : Type} {files : Vnode → Offset → D} {tbl : Nat → Nat} {s s1 s2 : Kernel D}

/-- Where nothing changes no page flows. -/
lemma Flows.refl (s : Kernel D) : Flows s s := ⟨fun _ => .inl, List.suffix_refl _⟩

/-- Two changes, one after the other. -/
lemma Flows.trans (h : Flows s s1) (h' : Flows s1 s2) : Flows s s2 := by
  refine ⟨fun q hq => ?_, h'.pool.trans h.pool⟩
  rcases h'.used q hq with hq | ⟨taken, out⟩
  · rcases h.used q hq with hq | ⟨taken, out⟩
    · exact .inl hq
    · exact .inr ⟨taken, fun mem => out (h'.pool.subset mem)⟩
  · exact .inr ⟨h.pool.subset taken, out⟩

/-- The pool stays free. -/
lemma Flows.poolFree (h : Flows s s1) (free : PoolFree s) : PoolFree s1 where
  nodup := free.nodup.sublist h.pool.sublist
  nonzero mem := free.nonzero (h.pool.subset mem)
  free q mem hq := by
    rcases h.used q hq with hq | ⟨-, out⟩
    · exact free.free q (h.pool.subset mem) hq
    · exact out mem

/-- The pages that an object supplies with this page cache. -/
def Object.Gives (cache : Vnode → Offset → Page) (object : Object) (page : Page) : Prop :=
  match object with
  | .direct base size => ∃ offset, vmDirectGetPage base size offset = page
  | .anon pages clean =>
    (∃ k, pages k = page) ∨ ∃ object, clean = some object ∧ ∃ offset, object.pageAt cache offset = page
  | .vnode v => ∃ offset, cache v offset = page

/-- An object supplies a page if it gives it. -/
lemma supplies_iff {o : Nat} {page : Page} :
    Supplies s o page ↔ ∃ object, s.objects o = some object ∧ object.Gives s.page_cache page := by
  rw [Supplies]
  cases h : s.objects o with
  | none =>
    refine iff_of_false id ?_
    rintro ⟨object, none, -⟩
    cases none
  | some object =>
    constructor
    · intro supplies
      refine ⟨object, rfl, ?_⟩
      cases object <;> exact supplies
    · rintro ⟨_, ⟨⟩, gives⟩
      cases object <;> exact gives

/-- More pages in the page cache. -/
lemma Object.Gives.mono {cache cache' : Vnode → Offset → Page} {object : Object} {page : Page}
    (h : object.Gives cache' page) : object.Gives cache page ∨ ∃ v offset, cache' v offset = page := by
  cases object with
  | direct base size => exact .inl h
  | anon pages clean =>
    rcases h with h | ⟨object, hc, offset, h⟩
    · exact .inl (.inl h)
    · cases object with
      | vnode v => exact .inr ⟨v, offset, h⟩
      | direct base size => exact .inl (.inr ⟨_, hc, offset, h⟩)
  | vnode v =>
    obtain ⟨offset, h⟩ := h
    exact .inr ⟨v, offset, h⟩

/-- Pages come into use through objects and the page cache only. -/
lemma inUse_cases {q : Page} {R : Prop} (h : InUse s1 q) (spaces : ∀ a, s1.space a = s.space a)
    (objects : ∀ o object, s1.objects o = some object → object.Gives s1.page_cache q → q ≠ 0 →
      (∃ old, s.objects o = some old ∧ old.Gives s.page_cache q) ∨ InUse s q ∨ R ∨ Cached s1 q) :
    InUse s q ∨ R ∨ Cached s1 q := by
  rcases h with cached | ⟨a, nz, seg, mem, supplies⟩
  · exact .inr (.inr cached)
  · rw [spaces] at mem
    rcases supplies with supplies | supplies
    · obtain ⟨object, ho, gives⟩ := supplies_iff.mp supplies
      rcases objects _ _ ho gives nz with ⟨old, hold, gives⟩ | h
      · exact .inl (.inr ⟨a, nz, seg, mem, .inl (supplies_iff.mpr ⟨old, hold, gives⟩)⟩)
      · exact h
    · obtain ⟨object, ho, gives⟩ := supplies_iff.mp supplies
      rcases objects _ _ ho gives nz with ⟨old, hold, gives⟩ | h
      · exact .inl (.inr ⟨a, nz, seg, mem, .inr (supplies_iff.mpr ⟨old, hold, gives⟩)⟩)
      · exact h

/-- Contents and page tables have nothing to do with it. -/
lemma Flows.same (h : Same s s1) : Flows s s1 := by
  obtain ⟨c, rfl⟩ := h
  exact ⟨fun _ => .inl, List.suffix_refl _⟩

/-- Mapping a page adds nothing to the pool. -/
lemma flows_vmapMap (as : Nat) (p : Addr) (page : Page) (rw user : Bool) : Flows s (vmapMap tbl s as p page rw user) :=
  ⟨fun _ => .inl, List.suffix_refl _⟩

/-- The first page of the pool is not in the rest of it. -/
lemma PoolFree.head {page : Page} {pool : List Page} (free : PoolFree s) (h : s.pool = page :: pool) :
    page ∈ s.pool ∧ page ∉ pool ∧ pool <:+ s.pool := by
  have nodup := free.nodup
  rw [h] at nodup ⊢
  exact ⟨List.mem_cons_self, (List.nodup_cons.mp nodup).1, List.suffix_cons _ _⟩

/-- A page that is read comes into use by the page cache. -/
lemma Flows.read {page : Page} (free : PoolFree s) (h : Read s s1 page) : Flows s s1 := by
  have cached (q : Page) : Cached s1 q → Cached s q ∨ q = page := h.cached
  obtain ⟨c, pool, vnode, offset, hp, rfl⟩ := h
  obtain ⟨mem, out, suffix⟩ := free.head hp
  refine ⟨fun q hq => ?_, suffix⟩
  have more := @inUse_cases _ s _ q False hq (fun _ => rfl) (fun o object ho gives nz => ?_)
  · rcases more with hq | hq | hq
    · exact .inl hq
    · exact hq.elim
    · rcases cached q hq with hq | rfl
      · exact .inl (.inl hq)
      · exact .inr ⟨mem, out⟩
  · rcases Object.Gives.mono gives with old | ⟨v, i, e⟩
    · exact .inl ⟨object, ho, old⟩
    · exact .inr (.inr (.inr ⟨nz, v, i, e⟩))

/-- A page that is added comes into use by the object. -/
lemma Flows.added {o : Nat} {pages : Offset → Page} {clean : Option Clean} {page : Page} (free : PoolFree s)
    (dirty : s.objects o = some (.anon pages clean)) (h : Added s s1 o pages clean page) : Flows s s1 := by
  obtain ⟨pool, k, hp, rfl⟩ := h
  obtain ⟨mem, out, suffix⟩ := free.head hp
  refine ⟨fun q hq => ?_, suffix⟩
  have more := @inUse_cases _ s _ q (q = page) hq (fun _ => rfl) (fun o' object ho gives nz => ?_)
  · rcases more with hq | rfl | hq
    · exact .inl hq
    · exact .inr ⟨mem, out⟩
    · exact .inl (.inl hq)
  · have ho : update s.objects o (some (.anon (update pages k page) clean)) o' = some object := ho
    by_cases here : o' = o
    · subst here
      rw [update_self] at ho
      cases ho
      rcases gives with ⟨k', e⟩ | behind
      · by_cases at_k : k' = k
        · subst at_k
          rw [update_self] at e
          exact .inr (.inr (.inl e.symm))
        · rw [update_of_ne at_k] at e
          exact .inl ⟨_, dirty, .inl ⟨k', e⟩⟩
      · exact .inl ⟨_, dirty, .inr behind⟩
    · rw [update_of_ne here] at ho
      exact .inl ⟨object, ho, gives⟩

/-- How an object gets a page: it supplies it, or it reads or adds one from the pool. -/
lemma getPage_cases {o : Nat} {offset : Offset} {page : Page} (nonzero : 0 ∉ s.pool)
    (get : getPage files s o offset = some (page, s1)) :
    Same s s1 ∧ (page = 0 ∨ Supplies s o page) ∨ Read s s1 page ∨
      ∃ pages clean, s.objects o = some (.anon pages clean) ∧ Added s s1 o pages clean page := by
  cases ho : s.objects o with
  | none =>
    rw [getPage, ho] at get
    cases get
  | some object =>
    cases object with
    | direct base size =>
      rw [getPage, ho] at get
      cases get
      exact .inl ⟨⟨_, rfl⟩, .inr (supplies_iff.mpr ⟨_, ho, offset, rfl⟩)⟩
    | anon pages clean =>
      cases got_of_getPage nonzero ho get with
      | dirty nz => exact .inl ⟨⟨_, rfl⟩, .inr (supplies_iff.mpr ⟨_, ho, .inl ⟨_, rfl⟩⟩)⟩
      | @cached object _ hc nz => exact .inl ⟨⟨_, rfl⟩, .inr (supplies_iff.mpr ⟨_, ho, .inr ⟨object, hc, offset, rfl⟩⟩)⟩
      | read _ _ _ read => exact .inr (.inl read)
      | added _ hc added => exact .inr (.inr ⟨pages, clean, rfl, added⟩)
      | empty _ _ _ same => exact .inl ⟨same, .inl rfl⟩
    | vnode v =>
      have get' : vnodeGetPage files s v offset = (page, s1) := by
        rw [getPage, ho] at get
        exact Option.some.inj get
      by_cases cached : s.page_cache v offset = 0
      · cases hp : s.pool with
        | nil =>
          rw [vnodeGetPage_empty cached hp] at get'
          cases get'
          exact .inl ⟨⟨_, rfl⟩, .inl rfl⟩
        | cons q pool =>
          rw [vnodeGetPage_read cached hp] at get'
          cases get'
          exact .inr (.inl ⟨_, pool, v, offset, hp, rfl⟩)
      · rw [vnodeGetPage_cached cached] at get'
        cases get'
        exact .inl ⟨⟨_, rfl⟩, .inr (supplies_iff.mpr ⟨_, ho, offset, rfl⟩)⟩

/-- The page that is added. -/
lemma getPage_added {o : Nat} {pages : Offset → Page} {clean : Option Clean} {offset : Offset} {page : Page}
    {pool : List Page} (dirty : s.objects o = some (.anon pages clean)) (empty : pages (offset >>> 12) = 0)
    (lacks : Lacks clean offset) (hp : s.pool = page :: pool) :
    getPage files s o offset = some (page, { s with
      pool := pool
      objects := update s.objects o (some (.anon (update pages (offset >>> 12) page) clean)) }) := by
  have add : vmAnonGetPage files s o pages clean offset = anonAddPage s o pages clean (offset >>> 12) := by
    simp only [vmAnonGetPage, empty, ne_eq, not_true_eq_false, if_false]
    cases clean with
    | none => rfl
    | some object =>
      obtain ⟨base, size, rfl, zero⟩ := lacks object rfl
      exact if_neg (not_not.mpr zero)
  rw [getPage, dirty]
  show some (vmAnonGetPage files s o pages clean offset) = _
  rw [add, anonAddPage, pageAlloc, hp]

/-- No page of a file is got if there is none to read it into. -/
lemma getPage_zero_empty {o : Nat} {v : Vnode} {offset : Offset} (nonzero : 0 ∉ s.pool)
    (dirty : s.objects o = some (.vnode v)) (get : getPage files s o offset = some (0, s1)) : s1.pool = [] := by
  have get' : vnodeGetPage files s v offset = (0, s1) := by
    rw [getPage, dirty] at get
    exact Option.some.inj get
  by_cases cached : s.page_cache v offset = 0
  · cases hp : s.pool with
    | nil =>
      rw [vnodeGetPage_empty cached hp] at get'
      cases get'
      exact hp
    | cons q pool =>
      rw [vnodeGetPage_read cached hp] at get'
      cases get'
      exact absurd (hp ▸ List.mem_cons_self) nonzero
  · rw [vnodeGetPage_cached cached] at get'
    exact absurd (congrArg Prod.fst get') cached

/-- Getting a page takes it out of the pool at most. -/
lemma Flows.getPage {o : Nat} {offset : Offset} {page : Page} (free : PoolFree s)
    (get : getPage files s o offset = some (page, s1)) : Flows s s1 := by
  rcases getPage_cases free.nonzero get with ⟨same, -⟩ | read | ⟨pages, clean, dirty, added⟩
  · exact .same same
  · exact .read free read
  · exact .added free dirty added

/-! ### Forks -/

/-- More objects, which give only pages that are in use. -/
def Shares (s s1 : Kernel D) : Prop :=
  ∃ objects fresh, s1 = { s with objects := objects, fresh := fresh } ∧ ∀ o object, objects o = some object →
    s.objects o = some object ∨ ∀ q, q ≠ 0 → object.Gives s.page_cache q → InUse s q

/-- What is supplied later was supplied before, or in use. -/
lemma Shares.supplies (h : Shares s s1) {o : Nat} {q : Page} (nz : q ≠ 0) (supplies : Supplies s1 o q) :
    Supplies s o q ∨ InUse s q := by
  obtain ⟨objects, fresh, rfl, same⟩ := h
  obtain ⟨object, ho, gives⟩ := supplies_iff.mp supplies
  rcases same o object ho with ho | used
  · exact .inl (supplies_iff.mpr ⟨object, ho, gives⟩)
  · exact .inr (used q nz gives)

/-- A page that a segment supplies is in use. -/
lemma inUse_of_supplies {a o : Nat} {seg : Segment} {q : Page} (nz : q ≠ 0) (mem : seg ∈ s.space a)
    (ho : o = seg.dirty ∨ o = seg.clean) (supplies : Supplies s o q) : InUse s q := by
  refine .inr ⟨a, nz, seg, mem, ?_⟩
  rcases ho with rfl | rfl
  · exact .inl supplies
  · exact .inr supplies

/-- A page in use later was in use before. -/
lemma Shares.inUse (h : Shares s s1) {q : Page} (hq : InUse s1 q) : InUse s q := by
  rcases hq with cached | ⟨a, nz, seg, mem, supplies⟩
  · obtain ⟨objects, fresh, rfl, -⟩ := h
    exact .inl cached
  · have mem : seg ∈ s.space a := by
      obtain ⟨objects, fresh, rfl, -⟩ := h
      exact mem
    rcases supplies with supplies | supplies
    · exact (h.supplies nz supplies).elim (inUse_of_supplies nz mem (.inl rfl)) id
    · exact (h.supplies nz supplies).elim (inUse_of_supplies nz mem (.inr rfl)) id

/-- Two copies, one after the other. -/
lemma Shares.trans (h : Shares s s1) (h' : Shares s1 s2) : Shares s s2 := by
  have inUse (q : Page) : InUse s1 q → InUse s q := h.inUse
  obtain ⟨objects, fresh, rfl, same⟩ := h
  obtain ⟨objects', fresh', rfl, same'⟩ := h'
  refine ⟨objects', fresh', rfl, fun o object ho => ?_⟩
  rcases same' o object ho with ho | used
  · exact same o object ho
  · exact .inr fun q nz gives => inUse q (used q nz gives)

/-- A new object. -/
lemma newObject_shares {object : Object} (used : ∀ q, q ≠ 0 → object.Gives s.page_cache q → InUse s q) :
    Shares s (newObject s object).2 := by
  refine ⟨update s.objects s.fresh (some object), s.fresh + 1, rfl, fun o object' ho => ?_⟩
  by_cases here : o = s.fresh
  · rw [here, update_self] at ho
    cases ho
    exact .inr used
  · rw [update_of_ne here] at ho
    exact .inl ho

/-- A new object in front of a clean one has what that supplies. -/
lemma vmObjectAnon_eq {o : Nat} {r : Nat × Kernel D} (made : vmObjectAnon s o = some r) :
    ∃ clean, r = newObject s (.anon (fun _ => 0) clean) ∧
      ∀ object, clean = some object → ∀ i, Supplies s o (object.pageAt s.page_cache i) := by
  rw [vmObjectAnon] at made
  split at made
  · cases made
    exact ⟨none, rfl, fun _ h => nomatch h⟩
  · next v found =>
    cases made
    refine ⟨_, rfl, ?_⟩
    rintro _ ⟨⟩ i
    exact supplies_iff.mpr ⟨_, found, i, rfl⟩
  · next base size found =>
    cases made
    refine ⟨_, rfl, ?_⟩
    rintro _ ⟨⟩ i
    exact supplies_iff.mpr ⟨_, found, i, rfl⟩
  · cases made

/-- A segment that is copied shares its pages with the one that it is copied from. -/
lemma vmSegmentCopy_shares {a : Nat} {seg seg' : Segment} (mem : seg ∈ s.space a)
    (copy : vmSegmentCopy s seg = some (seg', s1)) :
    Shares s s1 ∧ seg'.clean = seg.clean ∧ ∀ q, q ≠ 0 → Supplies s1 seg'.dirty q → InUse s q := by
  have made {object : Object} (used : ∀ q, q ≠ 0 → object.Gives s.page_cache q → InUse s q) :
      Shares s (newObject s object).2 ∧ ∀ q, q ≠ 0 → Supplies (newObject s object).2 s.fresh q → InUse s q := by
    refine ⟨newObject_shares used, fun q nz supplies => ?_⟩
    obtain ⟨object', ho, gives⟩ := supplies_iff.mp supplies
    have ho : update s.objects s.fresh (some object) s.fresh = some object' := ho
    rw [update_self] at ho
    cases ho
    exact used q nz gives
  rw [vmSegmentCopy] at copy
  by_cases ne : seg.clean = seg.dirty
  · rw [if_neg fun h => h ne] at copy
    obtain ⟨r, anon, copy⟩ := Option.bind_eq_some_iff.mp copy
    obtain ⟨clean, rfl, behind⟩ := vmObjectAnon_eq anon
    cases copy
    obtain ⟨shares, used⟩ := @made (.anon (fun _ => 0) clean) fun q nz gives => by
      rcases gives with ⟨k, e⟩ | ⟨object, hc, i, rfl⟩
      · exact absurd e.symm nz
      · exact inUse_of_supplies nz mem (.inr rfl) (behind object hc i)
    exact ⟨shares, rfl, used⟩
  · rw [if_pos ne, vmObjectAnonCopy] at copy
    split at copy
    · next pages clean dirty =>
      cases copy
      obtain ⟨shares, used⟩ := @made (.anon pages clean) fun q nz gives =>
        inUse_of_supplies nz mem (.inl rfl) (supplies_iff.mpr ⟨_, dirty, gives⟩)
      exact ⟨shares, rfl, used⟩
    · cases copy

/-- The copies of the segments supply no new pages. -/
lemma processDuplicateAs_shares {a : Nat} {segs segs' : List Segment} (sub : ∀ seg ∈ segs, seg ∈ s.space a)
    (copy : processDuplicateAs s segs = some (segs', s1)) :
    Shares s s1 ∧ ∀ seg' ∈ segs', ∀ q, q ≠ 0 → Supplies s1 seg'.dirty q ∨ Supplies s1 seg'.clean q → InUse s q := by
  induction segs generalizing s segs' with
  | nil =>
    cases copy
    exact ⟨⟨s1.objects, s1.fresh, rfl, fun _ _ => .inl⟩, fun seg' mem => absurd mem List.not_mem_nil⟩
  | cons seg segs ih =>
    obtain ⟨⟨seg1, s2⟩, first, copy⟩ := Option.bind_eq_some_iff.mp copy
    obtain ⟨⟨rest, s3⟩, second, copy⟩ := Option.bind_eq_some_iff.mp copy
    cases copy
    have mem := sub seg List.mem_cons_self
    obtain ⟨shares1, clean, dirty⟩ := vmSegmentCopy_shares mem first
    have spaces : ∀ b, s2.space b = s.space b := by
      obtain ⟨objects, fresh, rfl, -⟩ := shares1
      exact fun _ => rfl
    obtain ⟨shares2, used⟩ := ih (fun seg' mem' => by rw [spaces]; exact sub seg' (List.mem_cons_of_mem _ mem')) second
    refine ⟨shares1.trans shares2, ?_⟩
    intro seg' mem' q nz supplies
    rcases List.mem_cons.mp mem' with rfl | mem'
    · rcases supplies with supplies | supplies
      · exact (shares2.supplies nz supplies).elim (dirty q nz) shares1.inUse
      · rw [clean] at supplies
        exact ((shares1.trans shares2).supplies nz supplies).elim (inUse_of_supplies nz mem (.inr rfl)) id
    · exact shares1.inUse (used seg' mem' q nz supplies)

/-- A fork takes nothing from the pool, and maps nothing. -/
lemma processFork_flows {cur : Nat} (fork : processFork s cur = some s1) : Flows s s1 ∧ s1.tables = s.tables := by
  obtain ⟨⟨segs, s2⟩, copy, fork⟩ := Option.bind_eq_some_iff.mp fork
  cases fork
  obtain ⟨shares, used⟩ := processDuplicateAs_shares (fun _ mem => mem) copy
  have inUse (q : Page) : InUse s2 q → InUse s q := shares.inUse
  obtain ⟨objects, fresh, rfl, -⟩ := shares
  refine ⟨⟨fun q hq => .inl ?_, List.suffix_refl _⟩, rfl⟩
  rcases hq with cached | ⟨a, nz, seg, mem, supplies⟩
  · exact .inl cached
  · have space : seg ∈ s.space a ∨ seg ∈ segs := by
      cases a with
      | zero => exact .inl mem
      | succ i =>
        have mem : seg ∈ (s.procs ++ [segs]).getD i [] := mem
        rcases Nat.lt_trichotomy i s.procs.length with lt | rfl | gt
        · rw [List.getD_append _ _ _ _ lt] at mem
          exact .inl mem
        · rw [List.getD_append_right _ _ _ _ (Nat.le_refl _), Nat.sub_self] at mem
          exact .inr mem
        · rw [List.getD_eq_default _ _ (by rw [List.length_append, List.length_singleton]; omega)] at mem
          exact absurd mem List.not_mem_nil
    rcases space with mem | mem
    · exact inUse q (.inr ⟨a, nz, seg, mem, supplies⟩)
    · exact used seg mem q nz supplies

/-! ### Steals -/

/-- Putting a page into an anonymous object. -/
lemma putPage_anon {o : Nat} {pages : Offset → Page} {clean : Option Clean}
    (dirty : s.objects o = some (.anon pages clean)) (offset : Offset) (page : Page) : putPage s o offset page =
      some { s with objects := update s.objects o (some (.anon (update pages (offset >>> 12) page) clean)) } := by
  rw [putPage, dirty]

/-- Putting no page in the place of one. -/
lemma putPage_flows {o : Nat} {offset : Offset} (put : putPage s o offset 0 = some s1) :
    Flows s s1 ∧ s1.tables = s.tables := by
  rw [putPage] at put
  split at put
  · next pages clean dirty =>
    cases put
    refine ⟨⟨fun q hq => ?_, List.suffix_refl _⟩, rfl⟩
    have more := @inUse_cases _ s _ q False hq (fun _ => rfl) (fun o' object ho gives nz => ?_)
    · rcases more with hq | hq | hq
      · exact .inl hq
      · exact hq.elim
      · exact .inl (.inl hq)
    · have ho : update s.objects o (some (.anon (update pages (offset >>> 12) 0) clean)) o' = some object := ho
      by_cases here : o' = o
      · subst here
        rw [update_self] at ho
        cases ho
        rcases gives with ⟨k, e⟩ | behind
        · by_cases at_k : k = offset >>> 12
          · subst at_k
            rw [update_self] at e
            exact absurd e.symm nz
          · rw [update_of_ne at_k] at e
            exact .inl ⟨_, dirty, .inl ⟨k, e⟩⟩
        · exact .inl ⟨_, dirty, .inr behind⟩
      · rw [update_of_ne here] at ho
        exact .inl ⟨object, ho, gives⟩
  · cases put

/-- Taking a page of the pool. -/
lemma pageAlloc_flows (s : Kernel D) : Flows s (pageAlloc s).2 ∧ (pageAlloc s).2.tables = s.tables := by
  rw [pageAlloc]
  split
  · exact ⟨.refl s, rfl⟩
  · next page pool hp =>
    refine ⟨⟨fun _ => .inl, ?_⟩, rfl⟩
    show pool <:+ s.pool
    rw [hp]
    exact List.suffix_cons _ _

/-- The entry is taken out of the table, if there is one. -/
lemma unmap_tables (s : Kernel D) (as : Nat) (p : Addr) (t : Nat) (vp : BitVec 32) :
    (if vmapIsmapped tbl s as p then vmapUnmap tbl s as p else s).tables t vp =
      if t = tbl as ∧ vp = p >>> 12 then none else s.tables t vp := by
  rw [vmapIsmapped]
  by_cases here : t = tbl as ∧ vp = p >>> 12
  · obtain ⟨rfl, rfl⟩ := here
    refine Eq.trans ?_ (if_pos ⟨rfl, rfl⟩).symm
    cases entry : s.tables (tbl as) (p >>> 12) with
    | none => exact entry
    | some pte =>
      show update s.tables (tbl as) (update (s.tables (tbl as)) (p >>> 12) none) (tbl as) (p >>> 12) = none
      rw [update_self, update_self]
  · rw [if_neg here]
    split
    · show update s.tables (tbl as) (update (s.tables (tbl as)) (p >>> 12) none) t vp = s.tables t vp
      by_cases ht : t = tbl as
      · subst ht
        rw [update_self, update_of_ne fun hv => here ⟨rfl, hv⟩]
      · rw [update_of_ne ht]
    · rfl

/-- Unmapping a page. -/
lemma unmap_flows (s : Kernel D) (as : Nat) (p : Addr) :
    Flows s (if vmapIsmapped tbl s as p then vmapUnmap tbl s as p else s) := by
  split
  · exact ⟨fun _ => .inl, List.suffix_refl _⟩
  · exact .refl s

/-! ### A page that is gone -/

/-- A page that is nobody's. -/
structure Out (s : Kernel D) (q : Page) : Prop where
  nonzero : q ≠ 0
  pool : q ∉ s.pool
  unused : ¬InUse s q

/-- The page is nobody's, and not mapped at this place of a table. -/
structure Gone (s : Kernel D) (q : Page) (t : Nat) (vp : BitVec 32) : Prop where
  free : PoolFree s
  out : Out s q
  unmapped : ∀ pte, s.tables t vp = some pte → pte.page ≠ q

variable {q : Page} {t : Nat} {vp : BitVec 32}

/-- A page that is out stays out. -/
lemma Flows.out (h : Flows s s1) (out : Out s q) : Out s1 q where
  nonzero := out.nonzero
  pool mem := out.pool (h.pool.subset mem)
  unused hq := by
    rcases h.used q hq with hq | ⟨mem, -⟩
    · exact out.unused hq
    · exact out.pool mem

/-- What the objects of segments give is not a page that is nobody's. -/
lemma getPage_ne {a o : Nat} {seg : Segment} {offset : Offset} {page : Page} (free : PoolFree s) (out : Out s q)
    (mem : seg ∈ s.space a) (ho : o = seg.dirty ∨ o = seg.clean) (get : getPage files s o offset = some (page, s1)) :
    page ≠ q := by
  intro e
  subst e
  rcases getPage_cases free.nonzero get with ⟨-, zero | supplies⟩ | ⟨-, pool, -, -, hp, -⟩ | ⟨-, -, -, pool, -, hp, -⟩
  · exact out.nonzero zero
  · exact out.unused (inUse_of_supplies out.nonzero mem ho supplies)
  · exact out.pool (hp ▸ List.mem_cons_self)
  · exact out.pool (hp ▸ List.mem_cons_self)

/-- A page that is gone stays gone over a step that does not map it. -/
lemma Gone.step (h : Gone s q t vp) (flows : Flows s s1)
    (unmapped : ∀ pte, s1.tables t vp = some pte → s.tables t vp = some pte ∨ pte.page ≠ q) : Gone s1 q t vp where
  free := flows.poolFree h.free
  out := flows.out h.out
  unmapped pte entry := (unmapped pte entry).elim (h.unmapped pte) id

/-- A page is mapped that is not the one that is gone, or somewhere else. -/
lemma Gone.vmapMap (h : Gone s q t vp) {as : Nat} {p : Addr} {page : Page} {rw user : Bool}
    (ne : t = tbl as → vp = p >>> 12 → page ≠ q) : Gone (vmapMap tbl s as p page rw user) q t vp := by
  refine h.step (flows_vmapMap ..) fun pte entry => ?_
  rw [vmapMap_tables] at entry
  split at entry
  · next here =>
    cases entry
    exact .inr (ne here.1 here.2)
  · exact .inl entry

/-- The tables are as they were after a page has been got. -/
lemma getPage_tables {o : Nat} {offset : Offset} {page : Page} (nonzero : 0 ∉ s.pool)
    (get : getPage files s o offset = some (page, s1)) : s1.tables = s.tables ∧ ∀ a, s1.space a = s.space a := by
  rcases getPage_cases nonzero get with ⟨⟨c, rfl⟩, -⟩ | ⟨c, pool, v, i, -, rfl⟩ | ⟨pages, clean, -, pool, k, -, rfl⟩
  · exact ⟨rfl, fun _ => rfl⟩
  · exact ⟨rfl, fun _ => rfl⟩
  · exact ⟨rfl, fun _ => rfl⟩

/-- What a fault maps at the address: the page that is there, or one that the objects of the segment give. -/
lemma vmPageFault_result {cur : Nat} {p : Addr} {write : Bool} (free : PoolFree s)
    (fault : vmPageFault files tbl s cur p write = some s1) :
    ∃ s2 as page rw user, s1 = vmapMap tbl s2 as (archPageAlign p) page rw user ∧ Flows s s2 ∧ s2.tables = s.tables ∧
      ((∃ pte, s.tables (tbl as) (archPageAlign p >>> 12) = some pte ∧ pte.page = page) ∨
        ∀ q, Out s q → page ≠ q) := by
  rw [vmPageFault] at fault
  split at fault
  · cases fault
  · next as seg offset resolve =>
    have mem := mem_of_resolve resolve
    split at fault
    · dsimp only at fault
      split at fault
      · -- not present
        obtain ⟨⟨page, s2⟩, get, fault⟩ := Option.bind_eq_some_iff.mp fault
        have flows := Flows.getPage free get
        have same := getPage_tables free.nonzero get
        by_cases zero : page = 0
        · simp only [if_pos zero] at fault
          obtain ⟨⟨page', s3⟩, get', fault⟩ := Option.bind_eq_some_iff.mp fault
          cases fault
          have free' := flows.poolFree free
          have mem' : seg ∈ s2.space as := by
            rw [same.2]
            exact mem
          refine ⟨s3, as, page', _, _, rfl, flows.trans (.getPage free' get'), ?_, .inr fun q out => ?_⟩
          · rw [(getPage_tables free'.nonzero get').1, same.1]
          · exact getPage_ne free' (flows.out out) mem' (.inr rfl) get'
        · simp only [if_neg zero] at fault
          cases fault
          exact ⟨s2, as, page, _, _, rfl, flows, same.1, .inr fun q out => getPage_ne free out mem (.inl rfl) get⟩
      · next pte entry =>
        split at fault
        · cases fault
          exact ⟨s, as, pte.page, _, _, rfl, .refl s, rfl, .inl ⟨pte, entry, rfl⟩⟩
        · cases fault
    · cases fault

/-- A page that is gone stays gone over a fault. -/
lemma Gone.fault (h : Gone s q t vp) {cur : Nat} {p : Addr} {write : Bool}
    (fault : vmPageFault files tbl s cur p write = some s1) : Gone s1 q t vp := by
  obtain ⟨s2, as, page, rw, user, rfl, flows, tables, from_where⟩ := vmPageFault_result h.free fault
  have gone := h.step flows fun pte entry => .inl (by rwa [tables] at entry)
  refine gone.vmapMap fun ht hv => ?_
  rcases from_where with ⟨pte, entry, rfl⟩ | other
  · subst ht hv
    exact h.unmapped pte entry
  · exact other q h.out

end Flows

section Result
variable {D : Type} {files : Vnode → Offset → D} {tbl : Nat → Nat} {ptr : Nat → Addr} {s s1 s' : Kernel D}
  {vm vm' : Vmpages} {cur as : Nat} {p : Addr} {seg : Segment} {offset : Offset} {page : Page}

/-- The steal of a page that is not there, or of one that the dirty object gives. -/
lemma vmPageSteal_result (run : vmPageSteal files tbl ptr s vm cur p = some (page, s', vm')) :
    page = 0 ∧ s' = s ∨ ∃ as seg offset page1 s1, vmResolveAddress s cur p = some (as, seg, offset) ∧
      getPage files s seg.dirty offset = some (page1, s1) ∧
      (page1 = 0 ∧ (page, s') = pageAlloc s1 ∨ page1 ≠ 0 ∧ page = page1 ∧ ∃ s2,
        putPage s1 seg.dirty offset 0 = some s2 ∧ vmVmpageUnmap vm page ⟨ptr as, p⟩ = some vm' ∧
        s' = if vmapIsmapped tbl s2 as p then vmapUnmap tbl s2 as p else s2) := by
  rw [vmPageSteal] at run
  split at run
  · cases run
    exact .inl ⟨rfl, rfl⟩
  · next as seg offset resolve =>
    split at run
    · cases run
      exact .inl ⟨rfl, rfl⟩
    · obtain ⟨⟨page1, s1⟩, get, run⟩ := Option.bind_eq_some_iff.mp run
      refine .inr ⟨as, seg, offset, page1, s1, resolve, get, ?_⟩
      by_cases zero : page1 = 0
      · simp only [if_neg (not_not.mpr zero)] at run
        cases run
        exact .inl ⟨zero, rfl⟩
      · simp only [if_pos zero] at run
        obtain ⟨s2, put, run⟩ := Option.bind_eq_some_iff.mp run
        obtain ⟨vm2, unmap, run⟩ := Option.bind_eq_some_iff.mp run
        cases run
        exact .inr ⟨zero, rfl, s2, put, unmap, rfl⟩

/-- A theft takes pages of the pool, and maps none. -/
lemma vmPageSteal_flows (free : PoolFree s) (run : vmPageSteal files tbl ptr s vm cur p = some (page, s', vm')) :
    Flows s s' ∧ ∀ t vp pte, s'.tables t vp = some pte → s.tables t vp = some pte := by
  rcases vmPageSteal_result run with ⟨-, rfl⟩ | ⟨as, seg, offset, page1, s1, -, get, none | ⟨-, -, s2, put, -, rfl⟩⟩
  · exact ⟨.refl s', fun _ _ _ => id⟩
  · obtain ⟨flows, tables⟩ := pageAlloc_flows s1
    rw [← none.2] at flows tables
    refine ⟨(Flows.getPage free get).trans flows, fun t vp pte entry => ?_⟩
    rwa [tables, (getPage_tables free.nonzero get).1] at entry
  · obtain ⟨flows, tables⟩ := putPage_flows put
    refine ⟨((Flows.getPage free get).trans flows).trans (unmap_flows ..), fun t vp pte entry => ?_⟩
    rw [unmap_tables] at entry
    split at entry
    · cases entry
    · rwa [tables, (getPage_tables free.nonzero get).1] at entry

/-! ### Runs -/

/-- Pages that come into use come from the pool, whatever happens. -/
lemma Happens.flows (free : PoolFree s) (next : Happens files tbl ptr s s') : Flows s s' := by
  cases next with
  | fault cur p write fault =>
    obtain ⟨s2, as, page, rw, user, rfl, flows, -, -⟩ := vmPageFault_result free fault
    exact flows.trans (flows_vmapMap ..)
  | fork cur fork => exact (processFork_flows fork).1
  | steal cur p run => exact (vmPageSteal_flows free run).1

/-- The pool stays free in any run. -/
theorem PoolFree.run (free : PoolFree s) (run : Relation.ReflTransGen (Happens files tbl ptr) s s') : PoolFree s' := by
  induction run with
  | refl => exact free
  | tail _ next ih => exact (next.flows ih).poolFree ih

/-- Well-formed states have a free pool. -/
lemma WF.poolFree (wf : WF s) : PoolFree s where
  nodup := wf.nodup
  nonzero := wf.nonzero
  free q mem hq := by
    by_cases cached : Cached s q
    · exact wf.free q mem (.inl cached)
    · rcases hq with hq | ⟨a, holds⟩
      · exact cached hq
      · exact wf.free q mem (.inr (.inl ⟨a, (wf.holds_iff cached a).mp holds⟩))

/-- What is gone stays so. -/
lemma Gone.happens {q : Page} {t : Nat} {vp : BitVec 32} (h : Gone s q t vp) (next : Happens files tbl ptr s s') :
    Gone s' q t vp := by
  cases next with
  | fault cur p write fault => exact h.fault fault
  | fork cur fork =>
    obtain ⟨flows, tables⟩ := processFork_flows fork
    exact h.step flows fun pte entry => .inl (by rwa [tables] at entry)
  | steal cur p run =>
    obtain ⟨flows, tables⟩ := vmPageSteal_flows h.free run
    exact h.step flows fun pte entry => .inl (tables _ _ pte entry)

/-- A page that is gone stays gone over a whole run. -/
lemma Gone.run {q : Page} {t : Nat} {vp : BitVec 32} (h : Gone s q t vp)
    (run : Relation.ReflTransGen (Happens files tbl ptr) s s') : Gone s' q t vp := by
  induction run with
  | refl => exact h
  | tail _ next ih => exact ih.happens next

/-! ### What is taken away -/

/-- The state without the page of the dirty object at the offset. -/
def withdrawn (s : Kernel D) (pool : List Page) (o : Nat) (pages : Offset → Page) (clean : Option Clean) (k : Offset) :
    Kernel D :=
  { s with pool := pool, objects := update s.objects o (some (.anon (update pages k 0) clean)) }

/-- A page that was withdrawn is stolen. -/
lemma stolen_of_withdrawn {pool : List Page} {pages : Offset → Page} {clean : Option Clean}
    (dirty : s.objects seg.dirty = some (.anon pages clean))
    (free : PoolFree (withdrawn s pool seg.dirty pages clean (offset >>> 12)))
    (out : Out (withdrawn s pool seg.dirty pages clean (offset >>> 12)) page)
    (effect : Effect vm vm' page fun x => x ∈ vm.entries page ∧ x ≠ ⟨ptr as, p⟩)
    (hs : s' = if vmapIsmapped tbl (withdrawn s pool seg.dirty pages clean (offset >>> 12)) as p then
        vmapUnmap tbl (withdrawn s pool seg.dirty pages clean (offset >>> 12)) as p
      else withdrawn s pool seg.dirty pages clean (offset >>> 12)) :
    Stolen files tbl ptr s s' vm vm' as seg offset p page := by
  have tables (t : Nat) (vp : BitVec 32) :
      s'.tables t vp = if t = tbl as ∧ vp = p >>> 12 then none else s.tables t vp := by
    rw [hs, unmap_tables]
    rfl
  have flows : Flows (withdrawn s pool seg.dirty pages clean (offset >>> 12)) s' := by
    rw [hs]
    exact unmap_flows ..
  have objects : s'.objects = update s.objects seg.dirty (some (.anon (update pages (offset >>> 12) 0) clean)) := by
    rw [hs]
    split
    · rfl
    · rfl
  have unmapped : s'.tables (tbl as) (p >>> 12) = none := by rw [tables, if_pos ⟨rfl, rfl⟩]
  refine ⟨(flows.out out).unused, unmapped, ?_, ?_, ?_, ?_, ?_, ?_, ?_, ?_⟩
  · intro mem
    exact ((effect.mem _).mp mem).2 rfl
  · intro s'' run pte entry
    have gone : Gone s' page (tbl as) (p >>> 12) := by
      refine ⟨flows.poolFree free, flows.out out, fun pte entry => ?_⟩
      rw [unmapped] at entry
      cases entry
    exact (gone.run run).unmapped pte entry
  · intro k ne
    rw [Kernel.pageAt, Kernel.pageAt, objects, update_self, dirty]
    exact update_of_ne ne _ _
  · intro o ne
    rw [objects, update_of_ne ne]
  · rw [hs]
    split
    · rfl
    · rfl
  · rw [hs]
    split
    · rfl
    · rfl
  · intro t vp ne
    rw [tables, if_neg ne]
  · intro q m ne
    by_cases same : q = page
    · subst same
      rw [effect.mem]
      exact and_iff_left fun e => ne ⟨rfl, e⟩
    · rw [effect.entries same]

/-- The page is not in use any more if it was not shared. -/
lemma unshared_iff {pages : Offset → Page} {clean : Option Clean} {k : Offset} (mem : seg ∈ s.space as)
    (dirty : s.objects seg.dirty = some (.anon pages clean)) (nz : pages k ≠ 0) :
    ¬InUse (withdrawn s s.pool seg.dirty pages clean k) (pages k) ↔ Unshared s seg pages k := by
  have objects : (withdrawn s s.pool seg.dirty pages clean k).objects =
      update s.objects seg.dirty (some (.anon (update pages k 0) clean)) := rfl
  constructor
  · intro unused
    have own : (withdrawn s s.pool seg.dirty pages clean k).objects seg.dirty =
        some (.anon (update pages k 0) clean) := by rw [objects, update_self]
    refine ⟨fun cached => unused (.inl cached), fun k' ne same => ?_, fun pages' object dirty' i same => ?_,
      fun a seg' mem' o ho ne supplies => ?_⟩
    · have again : update pages k 0 k' = pages k := by rw [update_of_ne ne, same]
      exact unused (.inr ⟨as, nz, seg, mem, .inl (supplies_iff.mpr ⟨_, own, .inl ⟨k', again⟩⟩)⟩)
    · cases dirty.symm.trans dirty'
      exact unused (.inr ⟨as, nz, seg, mem, .inl (supplies_iff.mpr ⟨_, own, .inr ⟨object, rfl, i, same⟩⟩)⟩)
    · obtain ⟨object, found, gives⟩ := supplies_iff.mp supplies
      have supplies' : Supplies (withdrawn s s.pool seg.dirty pages clean k) o (pages k) := by
        refine supplies_iff.mpr ⟨object, ?_, gives⟩
        rw [objects, update_of_ne ne, found]
      exact unused (inUse_of_supplies nz mem' ho supplies')
  · rintro unshared (cached | ⟨a, -, seg', mem', supplies⟩)
    · exact unshared.cached cached
    · obtain ⟨o, ho, supplies⟩ : ∃ o, (o = seg'.dirty ∨ o = seg'.clean) ∧
          Supplies (withdrawn s s.pool seg.dirty pages clean k) o (pages k) := by
        rcases supplies with supplies | supplies
        · exact ⟨_, .inl rfl, supplies⟩
        · exact ⟨_, .inr rfl, supplies⟩
      obtain ⟨object, found, gives⟩ := supplies_iff.mp supplies
      rw [objects] at found
      by_cases own : o = seg.dirty
      · rw [own, update_self] at found
        cases found
        rcases gives with ⟨k', same⟩ | ⟨object', rfl, i, same⟩
        · by_cases at_k : k' = k
          · rw [at_k, update_self] at same
            exact nz same.symm
          · rw [update_of_ne at_k] at same
            exact unshared.offsets k' at_k same
        · exact unshared.behind pages object' dirty i same
      · rw [update_of_ne own] at found
        exact unshared.objects a seg' mem' o ho own (supplies_iff.mpr ⟨object, found, gives⟩)

/-- Unmapping leaves what is in use. -/
lemma inUse_unmap {q : Page} : InUse (if vmapIsmapped tbl s as p then vmapUnmap tbl s as p else s) q ↔ InUse s q := by
  split
  · exact Iff.rfl
  · exact Iff.rfl

/-- A page that the dirty object gives is returned. -/
lemma vmPageSteal_returns (tbl : Nat → Nat) (ptr : Nat → Addr) (inv : vm.Inv)
    (resolve : vmResolveAddress s cur p = some (as, seg, offset))
    (priv : seg.perms &&& SEGMENT_P ≠ 0) (get : getPage files s seg.dirty offset = some (page, s1)) (nz : page ≠ 0)
    {s2 : Kernel D} (put : putPage s1 seg.dirty offset 0 = some s2) :
    ∃ vm', vmPageSteal files tbl ptr s vm cur p =
        some (page, if vmapIsmapped tbl s2 as p then vmapUnmap tbl s2 as p else s2, vm') ∧
      Effect vm vm' page fun x => x ∈ vm.entries page ∧ x ≠ ⟨ptr as, p⟩ := by
  obtain ⟨vm', unmap, effect⟩ := @vmVmpageUnmap_effect vm page ⟨ptr as, p⟩ inv
  refine ⟨vm', ?_, effect⟩
  simp only [vmPageSteal, resolve, if_neg priv, get, Option.bind_eq_bind, Option.bind_some, if_pos nz, put, unmap]
  rfl

/-- One result is all. -/
lemma stealOk_iff (run : vmPageSteal files tbl ptr s vm cur p = some (page, s', vm')) (nz : page ≠ 0) :
    StealOk files tbl ptr s vm cur p as seg offset ↔ Stolen files tbl ptr s s' vm vm' as seg offset p page := by
  constructor
  · intro ok
    exact ok page s' vm' run nz
  · intro stolen page' s'' vm'' run' nz'
    cases run.symm.trans run'
    exact stolen

/-- No page is returned. -/
lemma stealOk_zero (resolve : vmResolveAddress s cur p = some (as, seg, offset))
    (get : getPage files s seg.dirty offset = some (0, s1)) (empty : s1.pool = []) :
    StealOk files tbl ptr s vm cur p as seg offset := by
  intro page s' vm' run nz
  rcases vmPageSteal_result run with ⟨zero, -⟩ | ⟨as', seg', offset', page1, s2, resolve', get', steal⟩
  · exact absurd zero nz
  · cases resolve.symm.trans resolve'
    cases get.symm.trans get'
    rcases steal with ⟨-, alloc⟩ | ⟨nz', -⟩
    · rw [pageAlloc, empty] at alloc
      cases alloc
      exact absurd rfl nz
    · exact absurd rfl nz'

/-- The page is the dirty object's own. -/
lemma stealOk_own {pages : Offset → Page} {clean : Option Clean} (free : PoolFree s) (inv : vm.Inv)
    (resolve : vmResolveAddress s cur p = some (as, seg, offset)) (priv : seg.perms &&& SEGMENT_P ≠ 0)
    (dirty : s.objects seg.dirty = some (.anon pages clean)) (nz : pages (offset >>> 12) ≠ 0)
    (get : getPage files s seg.dirty offset = some (pages (offset >>> 12), s)) :
    StealOk files tbl ptr s vm cur p as seg offset ↔ Unshared s seg pages (offset >>> 12) := by
  have mem := mem_of_resolve resolve
  have put : putPage s seg.dirty offset 0 = some (withdrawn s s.pool seg.dirty pages clean (offset >>> 12)) :=
    putPage_anon dirty offset 0
  obtain ⟨vm', run, effect⟩ := vmPageSteal_returns tbl ptr inv resolve priv get nz put
  rw [stealOk_iff run nz, ← @unshared_iff D s as seg pages clean _ mem dirty nz]
  constructor
  · intro stolen inUse
    exact stolen.unused (inUse_unmap.mpr inUse)
  · intro unused
    have own : Supplies s seg.dirty (pages (offset >>> 12)) := supplies_iff.mpr ⟨_, dirty, .inl ⟨_, rfl⟩⟩
    have out : pages (offset >>> 12) ∉ s.pool := fun pool => free.free _ pool (inUse_of_supplies nz mem (.inl rfl) own)
    exact stolen_of_withdrawn dirty ((putPage_flows put).1.poolFree free) ⟨nz, out, unused⟩ effect rfl

/-- A page that stays in use without the dirty object. -/
lemma not_stealOk {pages : Offset → Page} {clean : Option Clean} (inv : vm.Inv)
    (resolve : vmResolveAddress s cur p = some (as, seg, offset)) (priv : seg.perms &&& SEGMENT_P ≠ 0)
    (get : getPage files s seg.dirty offset = some (page, s1)) (nz : page ≠ 0)
    (dirty : s1.objects seg.dirty = some (.anon pages clean))
    (used : InUse (withdrawn s1 s1.pool seg.dirty pages clean (offset >>> 12)) page) :
    ¬StealOk files tbl ptr s vm cur p as seg offset := by
  obtain ⟨vm', run, -⟩ := vmPageSteal_returns tbl ptr inv resolve priv get nz (putPage_anon dirty offset 0)
  intro ok
  have stolen := (stealOk_iff run nz).mp ok
  exact stolen.unused (inUse_unmap.mpr used)

/-- The page is new, and nobody had it. -/
lemma stealOk_added {pages : Offset → Page} {clean : Option Clean} {pool : List Page} (free : PoolFree s) (inv : vm.Inv)
    (resolve : vmResolveAddress s cur p = some (as, seg, offset)) (priv : seg.perms &&& SEGMENT_P ≠ 0)
    (dirty : s.objects seg.dirty = some (.anon pages clean)) (empty : pages (offset >>> 12) = 0)
    (lacks : Lacks clean offset) (hp : s.pool = page :: pool) : StealOk files tbl ptr s vm cur p as seg offset := by
  have get := @getPage_added D files s _ _ _ _ _ _ dirty empty lacks hp
  obtain ⟨inPool, out, -⟩ := free.head hp
  have nz : page ≠ 0 := by
    rintro rfl
    exact free.nonzero inPool
  have unchanged : withdrawn s pool seg.dirty pages clean (offset >>> 12) = { s with pool := pool } := by
    have pages' : update pages (offset >>> 12) 0 = pages := by rw [← empty, update_eq_self]
    rw [withdrawn, pages', ← dirty, update_eq_self]
  -- what was added is taken out again
  have put : putPage { s with
        pool := pool
        objects := update s.objects seg.dirty (some (.anon (update pages (offset >>> 12) page) clean)) } seg.dirty offset 0 =
      some (withdrawn s pool seg.dirty pages clean (offset >>> 12)) := by
    rw [putPage_anon (update_self ..), withdrawn]
    simp only [update_idem]
  obtain ⟨vm', run, effect⟩ := vmPageSteal_returns tbl ptr inv resolve priv get nz put
  have free' := (putPage_flows put).1.poolFree ((Flows.getPage free get).poolFree free)
  refine (stealOk_iff run nz).mpr (stolen_of_withdrawn dirty free' ⟨nz, out, ?_⟩ effect rfl)
  rw [unchanged]
  exact fun inUse => free.free page inPool inUse

/-- The object of a vnode has no `put_page`, so that no page of it is returned. -/
lemma stealOk_vnode {v : Vnode} (free : PoolFree s) (resolve : vmResolveAddress s cur p = some (as, seg, offset))
    (dirty : s.objects seg.dirty = some (.vnode v)) : StealOk files tbl ptr s vm cur p as seg offset := by
  have kept {page : Page} {s1 : Kernel D} (get : getPage files s seg.dirty offset = some (page, s1)) :
      s1.objects seg.dirty = some (.vnode v) := by
    rcases getPage_cases free.nonzero get with ⟨⟨c, rfl⟩, -⟩ | ⟨c, pool, v', i, -, rfl⟩ | ⟨pages, clean, anon, -⟩
    · exact dirty
    · exact dirty
    · cases dirty.symm.trans anon
  intro page s' vm' run nz
  rcases vmPageSteal_result run with ⟨zero, -⟩ | ⟨as', seg', offset', page1, s1, resolve', get, steal⟩
  · exact absurd zero nz
  · cases resolve.symm.trans resolve'
    rcases steal with ⟨rfl, alloc⟩ | ⟨-, -, s2, put, -⟩
    · exact stealOk_zero resolve get (getPage_zero_empty free.nonzero dirty get) page s' vm' run nz
    · rw [putPage, kept get] at put
      cases put

/-- When a page can be stolen from an anonymous object. -/
lemma stealFits_anon {pages : Offset → Page} {clean : Option Clean}
    (dirty : s.objects seg.dirty = some (.anon pages clean)) :
    StealFits s seg offset ↔ if pages (offset >>> 12) ≠ 0 then Unshared s seg pages (offset >>> 12)
      else ∀ object, clean = some object →
        object.pageAt s.page_cache offset = 0 ∧ ∀ v, object = .vnode v → s.pool = [] := by
  constructor
  · exact fun fits => fits pages clean dirty
  · intro fits pages' clean' dirty'
    cases dirty.symm.trans dirty'
    exact fits

end Result

end Twcos.Vm
