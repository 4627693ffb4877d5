import Mathlib.Data.List.FinRange
import Mathlib.Data.List.Permutation
import Mathlib.Logic.Function.Basic
import Twcos.Heap.Finalize
import Twcos.Prog.Turns

/-!
# Slabs of several types

`slab_alloc` of `libk/slab.c` on one of several slab types, which take their pages from the same heap. `Pools.view`
is the heap as the slabs of one type see it: the pages of all other types are in other use. In this way the results
about a single type carry over (`PoolsInv`), and blocks of different types do not overlap (`PoolsInv.apart`).

`slab_alloc` is a loop here. It looks through all slabs of its type and sets up one more if none of them has an
available slot, and it does so for as long as the new slabs have no slot either: `slabAlloc_noPage` says that a type
without slots takes every page of the heap, `slabAlloc_spec` that all others are served.

C → Lean naming: `slab_new` → `Pools.slabNew`, `slab_alloc` → `Pools.slabAlloc`.
-/

namespace Twcos.Heap
open Twcos.Prog

/-- The heap with the slabs of `n` types. Apart from them it is as in `State`, with the bytes of memory that are not
    in the header of a slab. -/
structure Pools (n : Nat) where
  base : Nat
  nextalloc : Nat
  heap_cache : List Nat
  others : List Nat
  slabs : Fin n → List Slab
  live : Fin n → List (Nat × Nat)
  memory : Nat → BitVec 8

/-- How an allocation ends without a block: no page is left, `AllocationTooBigException`, or `kernel_panic`. -/
inductive Fault where
  | noPage
  | allocationTooBig
  | panic
deriving DecidableEq

section Definitions
variable {n : Nat}

/-- The pages of the slabs of a type. -/
def Pools.pagesOf (s : Pools n) (i : Fin n) : List Nat := (s.slabs i).map Slab.page

/-- The heap for one of the types. -/
def Pools.view (s : Pools n) (i : Fin n) : State where
  base := s.base
  nextalloc := s.nextalloc
  slabs := s.slabs i
  heap_cache := s.heap_cache
  others := s.others ++ ((List.finRange n).erase i).flatMap s.pagesOf
  live := s.live i

/-- The heap after a change of the slabs of one type. -/
def Pools.put (s : Pools n) (i : Fin n) (slabs : List Slab) (live : List (Nat × Nat)) : Pools n :=
  { s with slabs := Function.update s.slabs i slabs, live := Function.update s.live i live }

/-- `memset(p, 0, ARCH_PAGE_SIZE)`. -/
def clearPage (memory : Nat → BitVec 8) (p : Nat) : Nat → BitVec 8 := fun x =>
  if p ≤ x ∧ x < p + 4096 then 0 else memory x

/-- `page_heap_alloc`. -/
def Pools.pageHeapAlloc (s : Pools n) : Option (Nat × Pools n) :=
  match s.heap_cache with
  | p :: rest => some (p, { s with heap_cache := rest, memory := clearPage s.memory p })
  | [] =>
    if s.nextalloc + 4096 < 2 ^ 32 then
      some (s.nextalloc, { s with nextalloc := s.nextalloc + 4096, memory := clearPage s.memory s.nextalloc })
    else none

variable (types : Fin n → SlabType)

/-- `slab_new`. -/
def Pools.slabNew (i : Fin n) : Prog Fault (Pools n) Unit := do
  let r ← demand Pools.pageHeapAlloc .noPage
  update fun _ => r.2.put i (listPrepend (Heap.slabNew (types i) r.1) (r.2.slabs i)) (r.2.live i)

/-- One pass of `slab_alloc` over the slabs of the type: a slot is taken, or one more slab is set up. The new slab is
    the first of the list, from which the loop goes on. -/
def Pools.slabPass (i : Fin n) (_ : Unit) : Prog Fault (Pools n) (Unit ⊕ Nat) := do
  match ← asks fun s => takeFirst (s.slabs i) with
  | some ((k, slab), slabs) =>
    update fun s => s.put i slabs ((slab.slot k, slab.page) :: s.live i)
    return .inr (slab.slot k)
  | none =>
    Pools.slabNew types i
    return .inl ()

/-- `slab_alloc`. -/
def Pools.slabAlloc (i : Fin n) : Prog Fault (Pools n) Nat := loop (Pools.slabPass types i) ()

/-- `page_heap_alloc` finds a page. -/
def Pools.HasPage (s : Pools n) : Prop := s.heap_cache ≠ [] ∨ s.nextalloc + 4096 < 2 ^ 32

/-- A slab of the type has an available slot. -/
def Pools.HasSlot (s : Pools n) (i : Fin n) : Prop :=
  ∃ slab ∈ s.slabs i, ∃ k < (types i).count, slab.available.test k = true

/-- A block of `e` bytes at `p` is allocated. -/
def Pools.Holds (s : Pools n) (p e : Nat) : Prop :=
  ∃ i, ∃ a ∈ s.live i, a.1 = p ∧ (types i).esize.toNat = e

/-- The invariant of the heap. -/
def PoolsInv (s : Pools n) : Prop := ∀ i, Inv (types i) (s.view i)

end Definitions

section Views
variable {n : Nat} {types : Fin n → SlabType} {s : Pools n} {i j : Fin n}

/-- All pages of the heap. -/
def Pools.pages (s : Pools n) : List Nat := s.heap_cache ++ s.others ++ (List.finRange n).flatMap s.pagesOf

/-- The pages of one pool and of the others are all. -/
lemma view_pages (s : Pools n) (i : Fin n) : (s.view i).pages.Perm s.pages := by
  have perm : ((List.finRange n).flatMap s.pagesOf).Perm
      (s.pagesOf i ++ ((List.finRange n).erase i).flatMap s.pagesOf) := by
    rw [← List.flatMap_cons]
    exact (List.perm_cons_erase (List.mem_finRange i)).flatMap_right _
  show (s.heap_cache ++ (s.others ++ ((List.finRange n).erase i).flatMap s.pagesOf) ++ s.pagesOf i).Perm _
  rw [Pools.pages, List.append_assoc, List.append_assoc, List.append_assoc]
  apply List.Perm.append_left
  apply List.Perm.append_left
  exact List.perm_append_comm.trans perm.symm

/-- The pages of another type are in other use. -/
lemma mem_view_others {q : Nat} (ne : j ≠ i) (hq : q ∈ s.pagesOf j) : q ∈ (s.view i).others := by
  apply List.mem_append_right
  apply List.mem_flatMap.mpr
  exact ⟨j, (List.mem_erase_of_ne ne).mpr (List.mem_finRange j), hq⟩

/-- The heap for the type that was changed. -/
lemma view_put_same (s : Pools n) (i : Fin n) (slabs : List Slab) (live : List (Nat × Nat)) :
    (s.put i slabs live).view i = { s.view i with slabs := slabs, live := live } := by
  have others : ((List.finRange n).erase i).flatMap (s.put i slabs live).pagesOf =
      ((List.finRange n).erase i).flatMap s.pagesOf := by
    apply List.flatMap_congr
    intro j hj
    have ne : j ≠ i := ((List.nodup_finRange n).mem_erase_iff.mp hj).1
    exact congrArg (List.map Slab.page) (Function.update_of_ne ne _ _)
  rw [Pools.view, others]
  simp only [Pools.put, Function.update_self]
  rfl

/-- A change of the slabs of one type keeps the invariant if it does so for that type. -/
lemma PoolsInv.put (h : PoolsInv types s) {slabs : List Slab} {live : List (Nat × Nat)}
    (hi : Inv (types i) { s.view i with slabs := slabs, live := live }) : PoolsInv types (s.put i slabs live) := by
  intro j
  by_cases e : j = i
  · subst e
    rw [view_put_same]
    exact hi
  · have perm : ((s.put i slabs live).view j).pages.Perm (State.pages { s.view i with slabs := slabs, live := live }) := by
      rw [← view_put_same]
      exact (view_pages _ j).trans (view_pages _ i).symm
    have same : ((s.put i slabs live).view j).slabs = (s.view j).slabs := Function.update_of_ne e _ _
    have kept : ((s.put i slabs live).view j).live = (s.view j).live := Function.update_of_ne e _ _
    constructor
    · exact (h j).next
    · exact (h j).top
    · exact (h j).base
    · intro q hq
      exact hi.page q (perm.mem_iff.mp hq)
    · exact perm.nodup_iff.mpr hi.pages
    · rw [same]
      exact (h j).type
    · rw [same, kept]
      exact (h j).bits
    · rw [same, kept]
      exact (h j).owned
    · rw [kept]
      exact (h j).live

/-- `page_heap_alloc` for one of the types. -/
lemma view_pageHeapAlloc {s' : Pools n} {p : Nat} (h : s.pageHeapAlloc = some (p, s')) (i : Fin n) :
    pageHeapAlloc (s.view i) = some (p, s'.view i) ∧ s'.slabs = s.slabs ∧ s'.live = s.live ∧
      s'.memory = clearPage s.memory p := by
  rw [Pools.pageHeapAlloc] at h
  split at h
  · next rest cache =>
    cases h
    have cache' : (s.view i).heap_cache = p :: rest := cache
    rw [Heap.pageHeapAlloc, cache']
    exact ⟨rfl, rfl, rfl, rfl⟩
  · next cache =>
    split at h
    · next room =>
      cases h
      exact ⟨pageHeapAlloc_grow (s := s.view i) cache room, rfl, rfl, rfl⟩
    · cases h

/-- Taking a page leaves the list of pages that others hold. -/
lemma others_pageHeapAlloc {s' : Pools n} {p : Nat} (h : s.pageHeapAlloc = some (p, s')) : s'.others = s.others := by
  rw [Pools.pageHeapAlloc] at h
  split at h
  · cases h
    rfl
  · split at h
    · cases h
      rfl
    · cases h

/-- There is a page if the allocator gives one. -/
lemma pageHeapAlloc_isSome (s : Pools n) : s.HasPage ↔ ∃ p s', s.pageHeapAlloc = some (p, s') := by
  rw [Pools.HasPage, Pools.pageHeapAlloc]
  split
  · next q rest cache =>
    rw [cache]
    exact iff_of_true (.inl (List.cons_ne_nil _ _)) ⟨_, _, rfl⟩
  · next cache =>
    rw [cache]
    split
    · next room => exact iff_of_true (.inr room) ⟨_, _, rfl⟩
    · next full =>
      apply iff_of_false
      · rintro (empty | room)
        · exact empty rfl
        · exact full room
      · rintro ⟨p, s', e⟩
        cases e

/-- Every page that is taken from the heap leaves fewer. -/
lemma pageHeapAlloc_less {s' : Pools n} {p : Nat} (h : s.pageHeapAlloc = some (p, s')) :
    s'.heap_cache.length + (2 ^ 32 - s'.nextalloc) < s.heap_cache.length + (2 ^ 32 - s.nextalloc) := by
  rw [Pools.pageHeapAlloc] at h
  split at h
  · next q rest cache =>
    cases h
    rw [cache, List.length_cons]
    show rest.length + (2 ^ 32 - s.nextalloc) < _
    omega
  · next cache =>
    split at h
    · cases h
      show s.heap_cache.length + (2 ^ 32 - (s.nextalloc + 4096)) < _
      omega
    · cases h

end Views

/-! ### The invariant -/

section Invariant
variable {n : Nat} {types : Fin n → SlabType} {s s' : Pools n} {i j : Fin n}

/-- Taking a slot from one of the slabs. -/
lemma PoolsInv.take (h : PoolsInv types s) (fits : Fits (types i)) {k : Nat} {slab : Slab} {slabs : List Slab}
    (found : takeFirst (s.slabs i) = some ((k, slab), slabs)) :
    PoolsInv types (s.put i slabs ((slab.slot k, slab.page) :: s.live i)) := by
  obtain ⟨front, x, back, hs, rfl, bit, rfl⟩ := takeFirst_some found
  exact h.put ((h i).take fits front back hs bit)

/-- `page_heap_alloc` hands out a page that nobody uses. -/
lemma PoolsInv.pageHeapAlloc (h : PoolsInv types s) {p : Nat} (hp : s.pageHeapAlloc = some (p, s')) :
    PoolsInv types s' ∧ ∀ i, p ∉ (s'.view i).pages ∧ p % 4096 = 0 ∧ s'.base ≤ p ∧ p + 4096 ≤ s'.nextalloc := by
  constructor
  · intro i
    exact ((h i).pageHeapAlloc (view_pageHeapAlloc hp i).1).1
  · intro i
    obtain ⟨-, -, -, -, fresh, inside⟩ := (h i).pageHeapAlloc (view_pageHeapAlloc hp i).1
    exact ⟨fresh, inside⟩

/-- A new slab for a pool keeps the invariant. -/
lemma PoolsInv.slabNew (h : PoolsInv types s) {p : Nat} (hp : s.pageHeapAlloc = some (p, s')) :
    PoolsInv types (s'.put i (listPrepend (Heap.slabNew (types i) p) (s'.slabs i)) (s'.live i)) := by
  obtain ⟨h', page⟩ := h.pageHeapAlloc hp
  obtain ⟨fresh, inside⟩ := page i
  exact h'.put ((h' i).slabNew fresh inside)

/-- An allocated block lies in a page of its type, which has no other use. -/
lemma PoolsInv.inside (h : PoolsInv types s) (fits : Fits (types i)) {a : Nat × Nat} (ha : a ∈ s.live i) :
    a.2 ∈ s.pagesOf i ∧ a.2 % 4096 = 0 ∧ a.2 < a.1 ∧ a.1 + (types i).esize.toNat ≤ a.2 + 4096 := by
  obtain ⟨slab, hs, page, -, -, -, -, aligned, -, -⟩ := (h i).slotOf fits ha
  have inside := ((h i).separate fits).inside a ha
  rw [sizeofSlab] at inside
  refine ⟨?_, aligned, by omega, inside.2⟩
  rw [← page]
  exact List.mem_map_of_mem hs

/-- Different allocated blocks do not overlap, whatever their types are. -/
lemma PoolsInv.apart (h : PoolsInv types s) (fi : Fits (types i)) (fj : Fits (types j)) {a b : Nat × Nat}
    (ha : a ∈ s.live i) (hb : b ∈ s.live j) (ne : i = j → a ≠ b) :
    a.1 + (types i).esize.toNat ≤ b.1 ∨ b.1 + (types j).esize.toNat ≤ a.1 := by
  by_cases e : i = j
  · subst e
    exact (h i).pairwise fi ha hb (ne rfl)
  · obtain ⟨pa, aa, la, ua⟩ := h.inside fi ha
    obtain ⟨pb, ab, lb, ub⟩ := h.inside fj hb
    have pages : a.2 ≠ b.2 := by
      have nodup := (List.nodup_append.mp (h j).pages).2.2
      exact nodup a.2 (List.mem_append_right _ (mem_view_others e pa)) b.2 pb
    omega

/-- An allocated block does not overlap a page in other use. -/
lemma PoolsInv.apart_others (h : PoolsInv types s) (fits : Fits (types i)) {a : Nat × Nat} (ha : a ∈ s.live i) {q : Nat}
    (hq : q ∈ s.others) : a.1 + (types i).esize.toNat ≤ q ∨ q + 4096 ≤ a.1 := by
  obtain ⟨page, aligned, lo, hi⟩ := h.inside fits ha
  have hq' : q ∈ (s.view i).others := List.mem_append_left _ hq
  have aligned' := ((h i).page q (List.mem_append_left _ (List.mem_append_right _ hq'))).1
  have ne := (List.nodup_append.mp (h i).pages).2.2 q (List.mem_append_right _ hq') a.2 page
  omega

/-- A slab with an available slot gives one. -/
lemma takeFirst_of_test {slabs : List Slab} {slab : Slab} (hs : slab ∈ slabs) {k : Nat} (hk : k < slab.type.count)
    (bit : slab.available.test k = true) : ∃ i x slabs', takeFirst slabs = some ((i, x), slabs') := by
  induction slabs with
  | nil => cases hs
  | cons y rest ih =>
    cases ht : y.take with
    | some r =>
      refine ⟨r.1, r.2, r.2 :: rest, ?_⟩
      rw [takeFirst, ht]
    | none =>
      rcases List.mem_cons.mp hs with rfl | hs
      · obtain ⟨i, x, e⟩ := slab.take_of_test hk bit
        cases ht.symm.trans e
      · obtain ⟨i, x, slabs', e⟩ := ih hs
        refine ⟨i, x, y :: slabs', ?_⟩
        rw [takeFirst, ht, e]
        rfl

/-- An available slot is found. -/
lemma PoolsInv.takeFirst (h : PoolsInv types s) (i : Fin n) :
    s.HasSlot types i ↔ ∃ k slab slabs, takeFirst (s.slabs i) = some ((k, slab), slabs) := by
  constructor
  · rintro ⟨slab, hs, k, hk, bit⟩
    rw [← ((h i).type slab hs).1] at hk
    exact takeFirst_of_test hs hk bit
  · rintro ⟨k, slab, slabs, found⟩
    obtain ⟨front, x, back, hs, -, bit, -⟩ := takeFirst_some found
    have hx : x ∈ (s.view i).slabs := by
      show x ∈ s.slabs i
      rw [hs]
      exact List.mem_append_right _ List.mem_cons_self
    exact ⟨x, hx, k, (((h i).bits x hx k).mp bit).1, bit⟩

/-- A pool without an available slot gives none. -/
lemma PoolsInv.takeFirst_none (h : PoolsInv types s) (slot : ¬s.HasSlot types i) : Heap.takeFirst (s.slabs i) = none := by
  rw [Option.eq_none_iff_forall_ne_some]
  intro r found
  exact slot ((h.takeFirst i).mpr ⟨_, _, _, found⟩)

end Invariant

/-! ### Allocating -/

section Alloc
variable {n : Nat} {types : Fin n → SlabType} {s : Pools n} {i : Fin n}

/-- What `slab_alloc` gives: one more block in a slab of the type. What is in the blocks allocated before stays. -/
structure Allocated (types : Fin n → SlabType) (i : Fin n) (s : Pools n) (p : Nat) (s' : Pools n) : Prop where
  inv : PoolsInv types s'
  live : ∃ page, s'.live = Function.update s.live i ((p, page) :: s.live i)
  others : s'.others = s.others
  memory : ∀ j, ∀ slab ∈ s.slabs j, ∀ x, slab.page ≤ x → x < slab.page + 4096 → s'.memory x = s.memory x

/-- A turn that finds a slot. -/
lemma slabPass_take (i : Fin n) {k : Nat} {slab : Slab} {slabs : List Slab}
    (found : takeFirst (s.slabs i) = some ((k, slab), slabs)) :
    Returns (Pools.slabPass types i ()) s (.inr (slab.slot k)) (s.put i slabs ((slab.slot k, slab.page) :: s.live i)) := by
  apply Returns.bind (.asks _ s)
  rw [found]
  exact .bind (.update _ s) (.pure _ _)

/-- A turn that makes a new slab. -/
lemma slabPass_new {s' : Pools n} {p : Nat} (full : takeFirst (s.slabs i) = none)
    (hp : s.pageHeapAlloc = some (p, s')) : Returns (Pools.slabPass types i ()) s (.inl ())
      (s'.put i (listPrepend (slabNew (types i) p) (s'.slabs i)) (s'.live i)) := by
  apply Returns.bind (.asks _ s)
  rw [full]
  exact .bind (.bind (.demand hp) (.update _ s)) (.pure _ _)

/-- A turn for which there is no page. -/
lemma slabPass_noPage (full : takeFirst (s.slabs i) = none) (hp : s.pageHeapAlloc = none) :
    Raises (Pools.slabPass types i ()) s .noPage := by
  apply Raises.rest (.asks _ s)
  rw [full]
  exact .first (.first (.demand hp))

/-- Taking an available slot. -/
lemma PoolsInv.allocated_take (h : PoolsInv types s) (fits : Fits (types i)) (slot : s.HasSlot types i) :
    ∃ p s', Returns (Pools.slabAlloc types i) s p s' ∧ Allocated types i s p s' := by
  obtain ⟨k, slab, slabs, found⟩ := (h.takeFirst i).mp slot
  exact ⟨_, _, .exit (slabPass_take i found), h.take fits found, ⟨_, rfl⟩, rfl, fun _ _ _ _ _ _ => rfl⟩

/-- `slab_alloc` on a type with slots. -/
lemma slabAlloc_spec (h : PoolsInv types s) (fits : Fits (types i)) (count : 0 < (types i).count)
    (room : s.HasSlot types i ∨ s.HasPage) :
    ∃ p s', Returns (Pools.slabAlloc types i) s p s' ∧ Allocated types i s p s' := by
  by_cases slot : s.HasSlot types i
  · exact h.allocated_take fits slot
  obtain ⟨page, s1, hp⟩ := (pageHeapAlloc_isSome s).mp (room.resolve_left slot)
  obtain ⟨-, eslabs, elive, ememory⟩ := view_pageHeapAlloc hp i
  obtain ⟨-, fresh⟩ := h.pageHeapAlloc hp
  have h2 := h.slabNew (i := i) hp
  -- the first slot of the new slab is available
  have slot2 : (s1.put i (listPrepend (slabNew (types i) page) (s1.slabs i)) (s1.live i)).HasSlot types i := by
    refine ⟨slabNew (types i) page, ?_, 0, count, ?_⟩
    · simp only [Pools.put, Function.update_self]
      exact mem_listPrepend.mpr (.inl rfl)
    · rw [test_slabNew, decide_eq_true count]
  obtain ⟨p, s', run, a⟩ := h2.allocated_take fits slot2
  have others : s'.others = s1.others := a.others
  refine ⟨p, s', .turn (slabPass_new (h.takeFirst_none slot) hp) run, a.inv, ?_, others.trans (others_pageHeapAlloc hp), ?_⟩
  · obtain ⟨q, live⟩ := a.live
    refine ⟨q, live.trans ?_⟩
    simp only [Pools.put, Function.update_eq_self, elive]
  · intro j slab hs x lo hi
    have old : slab ∈ s1.slabs j := by
      rwa [eslabs]
    have new : slab ∈ (s1.put i (listPrepend (slabNew (types i) page) (s1.slabs i)) (s1.live i)).slabs j := by
      by_cases e : j = i
      · subst e
        simp only [Pools.put, Function.update_self]
        exact mem_listPrepend.mpr (.inr old)
      · simp only [Pools.put, Function.update_of_ne e]
        exact old
    rw [a.memory j slab new x lo hi]
    show s1.memory x = s.memory x
    obtain ⟨unused, aligned, -, -⟩ := fresh j
    have mem : slab.page ∈ (s1.view j).pages := List.mem_append_right _ (List.mem_map_of_mem old)
    have aligned' := ((h j).slabPage hs).1
    have ne : slab.page ≠ page := by
      intro e
      rw [e] at mem
      exact unused mem
    rw [ememory, clearPage, if_neg]
    omega

/-- `slab_alloc` on a type whose slabs have no slots takes every page of the heap. -/
lemma slabAlloc_noPage (h : PoolsInv types s) (count : (types i).count = 0) :
    Raises (Pools.slabAlloc types i) s .noPage := by
  generalize left : s.heap_cache.length + (2 ^ 32 - s.nextalloc) = m
  induction m using Nat.strong_induction_on generalizing s with
  | h m ih =>
    have slot : ¬s.HasSlot types i := by
      rintro ⟨-, -, k, hk, -⟩
      rw [count] at hk
      exact Nat.not_lt_zero k hk
    cases hp : s.pageHeapAlloc with
    | none => exact .loop (slabPass_noPage (h.takeFirst_none slot) hp)
    | some r =>
      obtain ⟨page, s1⟩ := r
      have less := pageHeapAlloc_less hp
      rw [left] at less
      exact .turn (slabPass_new (h.takeFirst_none slot) hp) (ih _ less (h.slabNew hp) rfl)

/-- Without a slot and without a page there is no block. -/
lemma slabAlloc_full (h : PoolsInv types s) (slot : ¬s.HasSlot types i) (page : ¬s.HasPage) :
    Raises (Pools.slabAlloc types i) s .noPage := by
  cases hp : s.pageHeapAlloc with
  | none => exact .loop (slabPass_noPage (h.takeFirst_none slot) hp)
  | some r => exact absurd ((pageHeapAlloc_isSome s).mpr ⟨_, _, hp⟩) page

end Alloc

end Twcos.Heap
