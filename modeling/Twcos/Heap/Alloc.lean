import Twcos.Heap.Slab
import Twcos.Run.Basic

/-!
# Allocating slots

`slab_alloc` and `slab_free` on the slabs of one type, over the pages that `page_heap_alloc` hands out to
slabs and to other users of the heap. `separate_always_iff` says for which element sizes the allocated slots are
always apart from each other and from the headers of their pages: for all but the element size `0` and
those so large that `8 * esize + 2` wraps around.

`page_heap_alloc` maps each new page of the heap to a frame of `page_alloc`. That there is one is taken for granted here
(`Twcos.Page.Heap` is about the frames): the heap ends where the addresses end.
-/

namespace Twcos.Heap
open Twcos.Run

/-- What the heap starts with: the page-aligned `nextalloc` that `bootstrap_finish` leaves, and
    `_bootstrap_nextalloc` below it. There is room for a page. -/
structure Boot where
  base : Nat
  next : Nat
  base_le : base ≤ next
  aligned : next % 4096 = 0
  room : next + 4096 < 2 ^ 32

/-- The heap with the slabs of the type in list order, the free pages, the pages in other use (thread stacks,
    slabs of other types), and the pointers that were returned and not yet freed, each with the page of its
    slab. -/
structure State extends Region where
  heap_cache : List Nat
  others : List Nat
  live : List (Nat × Nat)

/-- `page_heap_alloc`; it fails when there is no address space left, that is before `nextalloc` wraps
    around. -/
def pageHeapAlloc (s : State) : Option (Nat × State) :=
  match s.heap_cache with
  | p :: rest => some (p, { s with heap_cache := rest })
  | [] =>
    if s.nextalloc + 4096 < 2 ^ 32 then some (s.nextalloc, { s with nextalloc := s.nextalloc + 4096 })
    else none

/-- `page_heap_free`. -/
def pageHeapFree (s : State) (p : Nat) : State := { s with heap_cache := p :: s.heap_cache }

/-- `LIST_PREPEND` on the circular list of slabs: the new slab goes in behind the old first one, and the
    list then starts at it. -/
def listPrepend (slab : Slab) : List Slab → List Slab
  | [] => [slab]
  | first :: rest => slab :: (rest ++ [first])

/-- Take the first available slot of a slab, scanning its words in order. -/
def Slab.take (slab : Slab) : Option (Nat × Slab) :=
  ((List.range slab.type.used).find? fun k => slab.available k ≠ 0).map fun k =>
    let i := 32 * k + Bitmap.firstBit (slab.available k)
    (i, { slab with available := slab.available.clear i })

/-- The loop of `slab_alloc` over the slabs: the slab that a slot was taken from, with the slot, and all
    slabs afterwards. -/
def takeFirst : List Slab → Option ((Nat × Slab) × List Slab)
  | [] => none
  | slab :: rest =>
    match slab.take with
    | some (i, slab') => some ((i, slab'), slab' :: rest)
    | none => (takeFirst rest).map fun (r, rest') => (r, slab :: rest')

/-- `slab_alloc`: the address of a slot. -/
def slabAlloc (stype : SlabType) (s : State) : Option (Nat × State) :=
  match takeFirst s.slabs with
  | some ((i, slab), slabs) =>
    some (slab.slot i, { s with slabs := slabs, live := (slab.slot i, slab.page) :: s.live })
  | none => do
    let (page, s) ← pageHeapAlloc s
    let (i, slab) ← (slabNew stype page).take
    return (slab.slot i,
      { s with slabs := listPrepend slab s.slabs, live := (slab.slot i, slab.page) :: s.live })

/-- `slab_free`; a division by an element size of zero traps. -/
def slabFree (s : State) (p : Nat) : Option State :=
  match s.slabGet p with
  | none => some s
  | some slab =>
    if slab.type.esize = 0 then none else
    some { s with
      slabs := updateAvailable s.slabs slab.page fun b => b.set (slab.index p)
      live := s.live.filter fun a => a.1 ≠ p }

/-- A call of the slab allocator, or another user of the heap who takes or gives back a page. -/
inductive Event where
  | alloc
  | free (p : Nat)
  | pageAlloc
  | pageFree (p : Nat)

/-- Only pointers that were returned and not yet freed are freed. -/
def step (stype : SlabType) (s : State) : Event → Option State
  | .alloc => (slabAlloc stype s).map Prod.snd
  | .free p => if p ∈ s.live.map Prod.fst then slabFree s p else none
  | .pageAlloc => (pageHeapAlloc s).map fun (p, s) => { s with others := p :: s.others }
  | .pageFree p =>
    if p ∈ s.others then some { pageHeapFree s p with others := s.others.erase p } else none

/-- No slabs yet. -/
def start (boot : Boot) : State := ⟨⟨boot.base, boot.next, []⟩, [], [], []⟩

/-- The allocated slots are different, their bytes do not overlap, each lies in the page of its slab behind
    the header and the bitmaps, and `slab_get` finds that slab. -/
structure Separate (stype : SlabType) (s : State) : Prop where
  nodup : (s.live.map Prod.fst).Nodup
  disjoint : s.live.Pairwise fun a b =>
    a.1 + stype.esize.toNat ≤ b.1 ∨ b.1 + stype.esize.toNat ≤ a.1
  inside : ∀ a ∈ s.live, a.2 + sizeofSlab + 8 * stype.words ≤ a.1 ∧ a.1 + stype.esize.toNat ≤ a.2 + 4096
  owner : ∀ a ∈ s.live, ∃ slab ∈ s.slabs, s.slabGet a.1 = some slab ∧ slab.page = a.2 ∧ a.2 % 4096 = 0

/-! ### The layout of a slab -/

/-- The number of slots, with the arithmetic of 32 bits. -/
lemma count_eq (stype : SlabType) : stype.count = 32480 / ((8 * stype.esize.toNat + 2) % 2 ^ 32) := by
  have divisor : (8 * stype.esize + 2).toNat = (8 * stype.esize.toNat + 2) % 2 ^ 32 := by
    rw [BitVec.toNat_add, BitVec.toNat_mul]
    simp
  rw [SlabType.count, BitVec.toNat_udiv, divisor]
  rfl

/-- The element sizes for which the slots of a slab fit into its page. -/
def Fits (stype : SlabType) : Prop :=
  0 < stype.esize.toNat ∧ sizeofSlab + 8 * stype.words + stype.esize.toNat * stype.count ≤ 4096

/-- `(8*d - 64) / (8*s + 2)` slots fit, unless the divisor wraps around. -/
lemma fits_of_lt {stype : SlabType} (h0 : 0 < stype.esize.toNat) (h : stype.esize.toNat < 2 ^ 29) :
    Fits stype := by
  have count := count_eq stype
  rw [Nat.mod_eq_of_lt (by omega)] at count
  have mul := Nat.div_mul_le_self 32480 (8 * stype.esize.toNat + 2)
  rw [← count, Nat.mul_add, Nat.mul_comm stype.count, Nat.mul_assoc] at mul
  refine ⟨h0, ?_⟩
  rw [sizeofSlab, SlabType.words]
  omega

section Layout
variable {stype : SlabType} {slab : Slab}

/-- Where the slots start. -/
lemma data_eq (hs : slab.type = stype) : slab.data = slab.page + sizeofSlab + 8 * stype.words := by
  rw [Slab.data, hs]
  omega

/-- No address of a slot wraps around. -/
lemma slot_eq (fits : Fits stype) (hs : slab.type = stype) (hp : slab.page + 4096 ≤ 2 ^ 32) {i : Nat}
    (hi : i < stype.count) :
    slab.slot i = slab.page + sizeofSlab + 8 * stype.words + stype.esize.toNat * i := by
  have le : stype.esize.toNat * i + stype.esize.toNat ≤ stype.esize.toNat * stype.count := by
    rw [← Nat.mul_succ]
    exact Nat.mul_le_mul_left _ hi
  obtain ⟨h0, fits⟩ := fits
  rw [Slab.slot, data_eq hs, hs, Nat.mod_eq_of_lt (by omega), Nat.mod_eq_of_lt (by omega)]

/-- A slot lies in its page, behind the header and the bitmaps. -/
lemma slot_inside (fits : Fits stype) (hs : slab.type = stype) (hp : slab.page + 4096 ≤ 2 ^ 32) {i : Nat}
    (hi : i < stype.count) :
    slab.page + sizeofSlab + 8 * stype.words ≤ slab.slot i ∧
      slab.slot i + stype.esize.toNat ≤ slab.page + 4096 := by
  have le : stype.esize.toNat * i + stype.esize.toNat ≤ stype.esize.toNat * stype.count := by
    rw [← Nat.mul_succ]
    exact Nat.mul_le_mul_left _ hi
  rw [slot_eq fits hs hp hi]
  have := fits.2
  omega

/-- `slab_free` computes the number of the slot back from its address. -/
lemma index_slot (fits : Fits stype) (hs : slab.type = stype) (hp : slab.page + 4096 ≤ 2 ^ 32) {i : Nat}
    (hi : i < stype.count) : slab.index (slab.slot i) = i := by
  rw [Slab.index, slot_eq fits hs hp hi, data_eq hs, hs, Nat.add_sub_cancel_left,
    Nat.mul_div_cancel_left i fits.1]

/-- Slots of a slab with different indexes have different addresses. -/
lemma slot_inj (fits : Fits stype) (hs : slab.type = stype) (hp : slab.page + 4096 ≤ 2 ^ 32) {i j : Nat}
    (hi : i < stype.count) (hj : j < stype.count) (h : slab.slot i = slab.slot j) : i = j := by
  rw [← index_slot fits hs hp hi, h, index_slot fits hs hp hj]

end Layout

/-! ### The invariant -/

/-- All pages of the heap. -/
def State.pages (s : State) : List Nat := s.heap_cache ++ s.others ++ s.slabs.map Slab.page

/-- Every page has one use; the available bits of a slab tell which of its slots are not allocated. -/
structure Inv (stype : SlabType) (s : State) : Prop where
  next : s.nextalloc % 4096 = 0
  top : s.nextalloc < 2 ^ 32
  base : s.base ≤ s.nextalloc
  page : ∀ q ∈ s.pages, q % 4096 = 0 ∧ s.base ≤ q ∧ q + 4096 ≤ s.nextalloc
  pages : s.pages.Nodup
  type : ∀ slab ∈ s.slabs, slab.type = stype ∧ slab.magic = stype.magic
  bits : ∀ slab ∈ s.slabs, ∀ i, slab.available.test i = true ↔
    i < stype.count ∧ (slab.slot i, slab.page) ∉ s.live
  owned : ∀ a ∈ s.live, ∃ slab ∈ s.slabs, slab.page = a.2 ∧ ∃ i < stype.count, slab.slot i = a.1
  live : s.live.Nodup

section Invariant
variable {stype : SlabType} {s : State}

/-- A new heap is in order. -/
lemma inv_start (boot : Boot) : Inv stype (start boot) where
  next := boot.aligned
  top := by
    have := boot.room
    show boot.next < 2 ^ 32
    omega
  base := boot.base_le
  page := nofun
  pages := List.nodup_nil
  type := nofun
  bits := nofun
  owned := nofun
  live := List.nodup_nil

/-- The page of a slab is one of the heap. -/
lemma Inv.slabPage (h : Inv stype s) {slab : Slab} (hs : slab ∈ s.slabs) :
    slab.page % 4096 = 0 ∧ s.base ≤ slab.page ∧ slab.page + 4096 ≤ s.nextalloc :=
  h.page _ (List.mem_append_right _ (List.mem_map_of_mem hs))

/-- Two slabs on one page are the same. -/
lemma Inv.slab_unique (h : Inv stype s) {a b : Slab} (ha : a ∈ s.slabs) (hb : b ∈ s.slabs)
    (e : a.page = b.page) : a = b :=
  List.inj_on_of_nodup_map (List.nodup_append.mp h.pages).2.1 ha hb e

/-- The parts of an allocated slot. -/
lemma Inv.slotOf (h : Inv stype s) (fits : Fits stype) {a : Nat × Nat} (ha : a ∈ s.live) :
    ∃ slab ∈ s.slabs, slab.page = a.2 ∧ ∃ i < stype.count, slab.slot i = a.1 ∧
      a.1 = a.2 + sizeofSlab + 8 * stype.words + stype.esize.toNat * i ∧
      a.2 % 4096 = 0 ∧ s.base ≤ a.2 ∧ a.2 + 4096 ≤ s.nextalloc := by
  obtain ⟨slab, hs, page, i, hi, slot⟩ := h.owned a ha
  obtain ⟨aligned, base, top⟩ := h.slabPage hs
  have top' := h.top
  have eq := slot_eq fits (h.type slab hs).1 (by omega) hi
  rw [slot, page] at eq
  rw [page] at aligned base top
  exact ⟨slab, hs, page, i, hi, slot, eq, aligned, base, top⟩

/-- Different allocated slots do not overlap. -/
lemma slots_disjoint {e c off qa qb i j : Nat} (fits : off + e * c ≤ 4096) (hi : i < c)
    (hj : j < c) (ha : qa % 4096 = 0) (hb : qb % 4096 = 0) (ne : qa ≠ qb ∨ i ≠ j) :
    qa + off + e * i + e ≤ qb + off + e * j ∨ qb + off + e * j + e ≤ qa + off + e * i := by
  have bound : ∀ {k}, k < c → e * k + e ≤ e * c := by
    intro k hk
    rw [← Nat.mul_succ]
    exact Nat.mul_le_mul_left _ hk
  have bi := bound hi
  have bj := bound hj
  rcases Nat.lt_trichotomy qa qb with lt | eq | gt
  · left
    omega
  · have order : ∀ {k l}, k < l → e * k + e ≤ e * l := by
      intro k l hk
      rw [← Nat.mul_succ]
      exact Nat.mul_le_mul_left _ hk
    rcases Nat.lt_trichotomy i j with lt | eq' | gt
    · left
      have := order lt
      omega
    · exact absurd eq' (ne.resolve_left fun h => h eq)
    · right
      have := order gt
      omega
  · right
    omega

/-- Any two live slots are disjoint. -/
lemma Inv.pairwise (h : Inv stype s) (fits : Fits stype) {a b : Nat × Nat} (ha : a ∈ s.live)
    (hb : b ∈ s.live) (ne : a ≠ b) :
    a.1 + stype.esize.toNat ≤ b.1 ∨ b.1 + stype.esize.toNat ≤ a.1 := by
  obtain ⟨sa, hsa, pa, i, hi, sloti, ea, aa, -, -⟩ := h.slotOf fits ha
  obtain ⟨sb, hsb, pb, j, hj, slotj, eb, ab, -, -⟩ := h.slotOf fits hb
  have ne' : a.2 ≠ b.2 ∨ i ≠ j := by
    by_contra same
    simp only [not_or, not_not] at same
    apply ne
    apply Prod.ext
    · rw [ea, eb, same.1, same.2]
    · exact same.1
  have apart := slots_disjoint fits.2 hi hj aa ab ne'
  rw [ea, eb]
  omega

/-- No slot is live twice. -/
lemma Inv.nodup_fst (h : Inv stype s) (fits : Fits stype) : (s.live.map Prod.fst).Nodup := by
  rw [List.nodup_map_iff_inj_on h.live]
  intro a ha b hb e
  by_contra ne
  have := h.pairwise fits ha hb ne
  have := fits.1
  omega

/-- `slab_get` finds the slab of an allocated slot. -/
lemma Inv.slabGet_live (h : Inv stype s) (fits : Fits stype) {a : Nat × Nat} (ha : a ∈ s.live) :
    ∃ slab ∈ s.slabs, s.slabGet a.1 = some slab ∧ slab.page = a.2 := by
  obtain ⟨slab, hs, page, i, hi, slot, eq, aligned, base, top⟩ := h.slotOf fits ha
  have ins := slot_inside fits (h.type slab hs).1 (by have := h.top; have := page; omega) hi
  rw [slot, page] at ins
  have h0 := fits.1
  have owns : slab.owns a.1 = true := by
    rw [Slab.owns, decide_eq_true_iff, data_eq (h.type slab hs).1, (h.type slab hs).1,
      (h.type slab hs).2, page, pageAlign]
    refine ⟨?_, rfl, ins.1⟩
    omega
  refine ⟨slab, hs, ?_, page⟩
  apply Region.slabGet_of_owns (List.nodup_append.mp h.pages).2.1 hs (by omega) _ owns
  rw [page, pageAlign]
  omega

/-- The invariant gives the property. -/
lemma Inv.separate (h : Inv stype s) (fits : Fits stype) : Separate stype s where
  nodup := h.nodup_fst fits
  disjoint := by
    refine h.live.imp_of_mem fun {a b} ha hb ne => ?_
    exact h.pairwise fits ha hb ne
  inside := by
    intro a ha
    obtain ⟨slab, hs, page, i, hi, slot, -, -, -, top⟩ := h.slotOf fits ha
    have ins := slot_inside fits (h.type slab hs).1 (by have := h.top; omega) hi
    rwa [slot, page] at ins
  owner := by
    intro a ha
    obtain ⟨slab, hs, get, page⟩ := h.slabGet_live fits ha
    have aligned := (h.slabPage hs).1
    rw [page] at aligned
    exact ⟨slab, hs, get, page, aligned⟩

end Invariant

/-! ### The calls keep the invariant -/

/-- What is taken of a slab is its first available slot. -/
lemma Slab.take_some {slab slab' : Slab} {i : Nat} (h : slab.take = some (i, slab')) :
    slab.available.test i = true ∧ slab' = { slab with available := slab.available.clear i } := by
  rw [Slab.take, Option.map_eq_some_iff] at h
  obtain ⟨k, hk, e⟩ := h
  have nonzero : slab.available k ≠ 0 := by simpa using List.find?_some hk
  obtain ⟨-, bit⟩ := Bitmap.test_firstBit nonzero
  cases e
  exact ⟨bit, rfl⟩

/-- A slab with an available slot gives one. -/
lemma Slab.take_of_test (slab : Slab) {j : Nat} (hj : j < slab.type.count)
    (bit : slab.available.test j = true) : ∃ i slab', slab.take = some (i, slab') := by
  cases ht : slab.take with
  | some r => exact ⟨r.1, r.2, rfl⟩
  | none =>
    rw [Slab.take, Option.map_eq_none_iff, List.find?_eq_none] at ht
    have zero := ht (j / 32) (List.mem_range.mpr (used_spec hj))
    rw [decide_eq_true_iff, not_not] at zero
    rw [Bitmap.test_eq, zero, BitVec.ofNat_eq_ofNat, BitVec.getLsbD_zero] at bit
    cases bit

/-- Taking from a list of slabs takes from the first that has a slot. -/
lemma takeFirst_some {slabs slabs' : List Slab} {i : Nat} {slab' : Slab}
    (h : takeFirst slabs = some ((i, slab'), slabs')) :
    ∃ front slab back, slabs = front ++ slab :: back ∧ slabs' = front ++ slab' :: back ∧
      slab.available.test i = true ∧ slab' = { slab with available := slab.available.clear i } := by
  induction slabs generalizing slabs' with
  | nil => cases h
  | cons slab rest ih =>
    rw [takeFirst] at h
    cases ht : slab.take with
    | some r =>
      rw [ht] at h
      cases h
      obtain ⟨bit, eq⟩ := Slab.take_some ht
      exact ⟨[], slab, rest, rfl, rfl, bit, eq⟩
    | none =>
      rw [ht] at h
      obtain ⟨⟨r, rest'⟩, hr, e⟩ := Option.map_eq_some_iff.mp h
      cases e
      obtain ⟨front, x, back, rfl, rfl, bit, eq⟩ := ih hr
      exact ⟨slab :: front, x, back, rfl, rfl, bit, eq⟩

section Calls
variable {stype : SlabType} {s s' : State}

/-- Changing the available bits of one slab along with the allocated slots keeps the invariant. -/
lemma Inv.update (h : Inv stype s) {slab : Slab} (hs : slab ∈ s.slabs) {b : Bitmap} {slabs : List Slab}
    {live : List (Nat × Nat)} (pages : slabs.map Slab.page = s.slabs.map Slab.page)
    (mem : ∀ x ∈ slabs, x ∈ s.slabs ∧ x.page ≠ slab.page ∨ x = { slab with available := b })
    (bits : ∀ i, b.test i = true ↔ i < stype.count ∧ (slab.slot i, slab.page) ∉ live)
    (others : ∀ a : Nat × Nat, a.2 ≠ slab.page → (a ∈ live ↔ a ∈ s.live))
    (own : ∀ a ∈ live, a.2 = slab.page → ∃ i < stype.count, slab.slot i = a.1) (nodup : live.Nodup) :
    Inv stype { s with slabs := slabs, live := live } where
  next := h.next
  top := h.top
  base := h.base
  page := by
    show ∀ q ∈ s.heap_cache ++ s.others ++ slabs.map Slab.page, _
    rw [pages]
    exact h.page
  pages := by
    show (s.heap_cache ++ s.others ++ slabs.map Slab.page).Nodup
    rw [pages]
    exact h.pages
  type := by
    intro x hx
    rcases mem x hx with ⟨old, -⟩ | rfl
    · exact h.type x old
    · exact h.type slab hs
  bits := by
    intro x hx i
    rcases mem x hx with ⟨old, ne⟩ | rfl
    · rw [h.bits x old i, others _ ne]
    · exact bits i
  owned := by
    intro a ha
    have find : ∀ {q}, q ∈ s.slabs.map Slab.page → ∃ x ∈ slabs, x.page = q := by
      intro q hq
      rw [← pages] at hq
      exact List.mem_map.mp hq
    by_cases e : a.2 = slab.page
    · obtain ⟨x, hx, page⟩ := find (List.mem_map_of_mem hs)
      obtain ⟨i, hi, slot⟩ := own a ha e
      rcases mem x hx with ⟨-, ne⟩ | rfl
      · exact absurd page ne
      · exact ⟨_, hx, page.trans e.symm, i, hi, slot⟩
    · obtain ⟨y, hy, page, i, hi, slot⟩ := h.owned a ((others a e).mp ha)
      obtain ⟨x, hx, page'⟩ := find (List.mem_map_of_mem hy)
      rcases mem x hx with ⟨old, -⟩ | rfl
      · have same := h.slab_unique old hy page'
        rw [same] at hx
        exact ⟨y, hx, page, i, hi, slot⟩
      · exact absurd (page.symm.trans page'.symm) e
  live := nodup

/-- Taking an available slot of a slab. -/
lemma Inv.take (h : Inv stype s) (fits : Fits stype) (front back : List Slab) {slab : Slab} {i : Nat}
    (hs : s.slabs = front ++ slab :: back) (bit : slab.available.test i = true) :
    Inv stype { s with
      slabs := front ++ { slab with available := slab.available.clear i } :: back
      live := (slab.slot i, slab.page) :: s.live } := by
  have mem : slab ∈ s.slabs := by
    rw [hs]
    exact List.mem_append_right _ List.mem_cons_self
  obtain ⟨hi, fresh⟩ := (h.bits slab mem i).mp bit
  obtain ⟨-, -, top⟩ := h.slabPage mem
  have top' := h.top
  have pages : (front ++ { slab with available := slab.available.clear i } :: back).map Slab.page =
      s.slabs.map Slab.page := by
    rw [hs, List.map_append, List.map_append, List.map_cons, List.map_cons]
  have nodup : ((front ++ slab :: back).map Slab.page).Nodup := by
    rw [← hs]
    exact (List.nodup_append.mp h.pages).2.1
  have apart : ∀ x ∈ front ++ back, x.page ≠ slab.page := by
    intro x hx e
    rw [List.map_append, List.map_cons, List.nodup_middle, List.nodup_cons] at nodup
    apply nodup.1
    rw [← e, ← List.map_append]
    exact List.mem_map_of_mem hx
  apply h.update mem pages
  · intro x hx
    rw [List.mem_append, List.mem_cons] at hx
    have old : x ∈ front ++ back → x ∈ s.slabs ∧ x.page ≠ slab.page := by
      intro hx'
      refine ⟨?_, apart x hx'⟩
      rw [hs]
      rw [List.mem_append] at hx' ⊢
      exact hx'.imp_right (List.mem_cons_of_mem _)
    rcases hx with hx | hx | hx
    · exact .inl (old (List.mem_append_left _ hx))
    · exact .inr hx
    · exact .inl (old (List.mem_append_right _ hx))
  · intro j
    rw [Bitmap.test_clear, Bool.and_eq_true, h.bits slab mem j, List.mem_cons, not_or, Bool.not_eq_true',
      decide_eq_false_iff_not]
    constructor
    · intro ⟨ne, hj, free⟩
      refine ⟨hj, fun e => ne ?_, free⟩
      exact slot_inj fits (h.type slab mem).1 (by omega) hj hi (Prod.ext_iff.mp e).1
    · intro ⟨hj, ne, free⟩
      refine ⟨?_, hj, free⟩
      rintro rfl
      exact ne rfl
  · intro a ne
    rw [List.mem_cons]
    refine ⟨fun ha => ha.resolve_left ?_, .inr⟩
    rintro rfl
    exact ne rfl
  · intro a ha e
    rcases List.mem_cons.mp ha with rfl | ha
    · exact ⟨i, hi, rfl⟩
    · obtain ⟨y, hy, page, j, hj, slot⟩ := h.owned a ha
      rw [h.slab_unique hy mem (page.trans e)] at slot
      exact ⟨j, hj, slot⟩
  · exact List.nodup_cons.mpr ⟨fresh, h.live⟩

/-- `page_heap_alloc` hands out a page that nobody uses. -/
lemma Inv.pageHeapAlloc (h : Inv stype s) {p : Nat} (hp : pageHeapAlloc s = some (p, s')) :
    Inv stype s' ∧ s'.slabs = s.slabs ∧ s'.live = s.live ∧ s'.base = s.base ∧ p ∉ s'.pages ∧ p % 4096 = 0 ∧
      s'.base ≤ p ∧ p + 4096 ≤ s'.nextalloc := by
  rw [Heap.pageHeapAlloc] at hp
  split at hp
  · next q rest cache =>
    cases hp
    have pages : s.pages = p :: (rest ++ s.others ++ s.slabs.map Slab.page) := by
      rw [State.pages, cache]
      rfl
    have nodup := h.pages
    rw [pages, List.nodup_cons] at nodup
    have page := h.page
    rw [pages] at page
    obtain ⟨aligned, base, top⟩ := page p List.mem_cons_self
    refine ⟨?_, rfl, rfl, rfl, nodup.1, aligned, base, top⟩
    exact ⟨h.next, h.top, h.base, fun q hq => page q (List.mem_cons_of_mem _ hq), nodup.2, h.type, h.bits,
      h.owned, h.live⟩
  · next cache =>
    split at hp
    · next room =>
      cases hp
      have fresh : s.nextalloc ∉ s.pages := by
        intro mem
        have := h.page _ mem
        omega
      have next := h.next
      refine ⟨?_, rfl, rfl, rfl, fresh, next, h.base, Nat.le_refl _⟩
      refine ⟨?_, room, ?_, ?_, h.pages, h.type, h.bits, h.owned, h.live⟩
      · show (s.nextalloc + 4096) % 4096 = 0
        omega
      · have := h.base
        show s.base ≤ s.nextalloc + 4096
        omega
      · intro q hq
        obtain ⟨aligned, base, top⟩ := h.page q hq
        refine ⟨aligned, base, ?_⟩
        show q + 4096 ≤ s.nextalloc + 4096
        omega
    · cases hp

/-- The slabs after a new one comes in. -/
lemma mem_listPrepend {slab x : Slab} {slabs : List Slab} :
    x ∈ listPrepend slab slabs ↔ x = slab ∨ x ∈ slabs := by
  cases slabs with
  | nil => simp [listPrepend]
  | cons first rest =>
    simp only [listPrepend, List.mem_cons, List.mem_append, List.not_mem_nil, or_false]
    tauto

/-- A list with a new slab in is a permutation of the slab and the list. -/
lemma listPrepend_perm (slab : Slab) (slabs : List Slab) :
    (listPrepend slab slabs).Perm (slab :: slabs) := by
  cases slabs with
  | nil => exact .refl _
  | cons first rest => exact .cons _ (List.perm_append_singleton first rest)

/-- A page that nobody uses goes into use. -/
lemma Inv.adopt (h : Inv stype s) {p : Nat} {others : List Nat} {slabs : List Slab} (fresh : p ∉ s.pages)
    (hp : p % 4096 = 0 ∧ s.base ≤ p ∧ p + 4096 ≤ s.nextalloc)
    (perm : (State.pages { s with others := others, slabs := slabs }).Perm (p :: s.pages))
    (mem : ∀ x ∈ slabs, x = slabNew stype p ∨ x ∈ s.slabs) (keep : ∀ x ∈ s.slabs, x ∈ slabs) :
    Inv stype { s with others := others, slabs := slabs } where
  next := h.next
  top := h.top
  base := h.base
  page := by
    intro q hq
    rcases List.mem_cons.mp (perm.mem_iff.mp hq) with rfl | hq
    · exact hp
    · exact h.page q hq
  pages := perm.nodup_iff.mpr (List.nodup_cons.mpr ⟨fresh, h.pages⟩)
  type := by
    intro x hx
    rcases mem x hx with rfl | hx
    · exact ⟨rfl, rfl⟩
    · exact h.type x hx
  bits := by
    intro x hx i
    rcases mem x hx with rfl | hx
    · rw [test_slabNew, decide_eq_true_iff]
      refine ⟨fun hi => ⟨hi, fun mem => fresh ?_⟩, And.left⟩
      obtain ⟨y, hy, page, -⟩ := h.owned _ mem
      have := List.mem_map_of_mem (f := Slab.page) hy
      rw [page] at this
      exact List.mem_append_right _ this
    · exact h.bits x hx i
  owned := by
    intro a ha
    obtain ⟨y, hy, rest⟩ := h.owned a ha
    exact ⟨y, keep y hy, rest⟩
  live := h.live

/-- A new slab is put at the front of the list. -/
lemma Inv.slabNew (h : Inv stype s) {p : Nat} (fresh : p ∉ s.pages)
    (hp : p % 4096 = 0 ∧ s.base ≤ p ∧ p + 4096 ≤ s.nextalloc) :
    Inv stype { s with slabs := listPrepend (Heap.slabNew stype p) s.slabs } := by
  apply h.adopt fresh hp
  · refine .trans (.append_left _ ((listPrepend_perm _ _).map Slab.page)) ?_
    exact List.perm_middle
  · intro x hx
    exact mem_listPrepend.mp hx
  · intro x hx
    exact mem_listPrepend.mpr (.inr hx)

/-- An allocation keeps the invariant. -/
lemma Inv.slabAlloc (h : Inv stype s) (fits : Fits stype) {p : Nat}
    (ha : slabAlloc stype s = some (p, s')) : Inv stype s' := by
  rw [Heap.slabAlloc] at ha
  split at ha
  · next i slab' slabs' found =>
    cases ha
    obtain ⟨front, slab, back, hs, rfl, bit, rfl⟩ := takeFirst_some found
    exact h.take fits front back hs bit
  · obtain ⟨⟨page, s1⟩, hp, ha⟩ := Option.bind_eq_some_iff.mp ha
    obtain ⟨⟨i, slab'⟩, ht, ha⟩ := Option.bind_eq_some_iff.mp ha
    cases ha
    obtain ⟨bit, rfl⟩ := Slab.take_some ht
    obtain ⟨h1, -, -, -, fresh, inside⟩ := h.pageHeapAlloc hp
    have h2 := h1.slabNew fresh inside
    -- the list starts at the new slab
    cases slabs : s1.slabs with
    | nil =>
      rw [slabs] at h2
      exact h2.take fits [] [] rfl bit
    | cons first rest =>
      rw [slabs] at h2
      exact h2.take fits [] (rest ++ [first]) rfl bit

/-- Freeing a live slot keeps the invariant. -/
lemma Inv.slabFree (h : Inv stype s) (fits : Fits stype) {p : Nat} (live : p ∈ s.live.map Prod.fst)
    (hf : slabFree s p = some s') : Inv stype s' := by
  obtain ⟨a, ha, rfl⟩ := List.mem_map.mp live
  obtain ⟨slab, hs, get, page⟩ := h.slabGet_live fits ha
  obtain ⟨y, hy, page', i, hi, slot⟩ := h.owned a ha
  rw [h.slab_unique hy hs (page'.trans page.symm)] at slot
  obtain ⟨-, -, top⟩ := h.slabPage hs
  have top' := h.top
  have type := (h.type slab hs).1
  have index : slab.index a.1 = i := by
    rw [← slot]
    exact index_slot fits type (by omega) hi
  have same : ∀ {b}, b ∈ s.live → b.1 = a.1 → b = a := by
    intro b hb e
    exact List.inj_on_of_nodup_map (h.nodup_fst fits) hb ha e
  have nonzero : slab.type.esize ≠ 0 := by
    intro zero
    have := fits.1
    rw [← type, zero] at this
    exact Nat.lt_irrefl 0 this
  rw [Heap.slabFree, get] at hf
  simp only [if_neg nonzero, index] at hf
  cases hf
  apply h.update hs
  · exact map_updateAvailable _ _ _
  · intro x hx
    obtain ⟨y, hy, rfl⟩ := List.mem_map.mp hx
    split
    · next e =>
      rw [h.slab_unique hy hs e]
      exact .inr rfl
    · next ne => exact .inl ⟨hy, ne⟩
  · intro j
    rw [Bitmap.test_set, Bool.or_eq_true, decide_eq_true_iff, h.bits slab hs j, List.mem_filter,
      decide_eq_true_iff, not_and_not_right]
    constructor
    · rintro (rfl | ⟨hj, free⟩)
      · exact ⟨hi, fun _ => slot⟩
      · exact ⟨hj, fun mem => absurd mem free⟩
    · intro ⟨hj, only⟩
      by_cases mem : (slab.slot j, slab.page) ∈ s.live
      · left
        have e := (only mem).trans slot.symm
        exact slot_inj fits type (by omega) hj hi e
      · exact .inr ⟨hj, mem⟩
  · intro b ne
    rw [List.mem_filter, decide_eq_true_iff]
    refine ⟨And.left, fun hb => ⟨hb, fun e => ne ?_⟩⟩
    rw [same hb e, page]
  · intro b hb e
    obtain ⟨z, hz, pz, rest⟩ := h.owned b (List.mem_of_mem_filter hb)
    rw [h.slab_unique hz hs (pz.trans e)] at rest
    exact rest
  · exact h.live.filter _

/-- Freeing a page keeps the invariant. -/
lemma Inv.pageFree (h : Inv stype s) {p : Nat} (hp : p ∈ s.others) :
    Inv stype { pageHeapFree s p with others := s.others.erase p } := by
  have perm : (State.pages { pageHeapFree s p with others := s.others.erase p }).Perm s.pages := by
    apply List.Perm.append_right
    refine .trans List.perm_middle.symm ?_
    exact .append_left _ (List.perm_cons_erase hp).symm
  exact ⟨h.next, h.top, h.base, fun q hq => h.page q (perm.mem_iff.mp hq), perm.nodup_iff.mpr h.pages,
    h.type, h.bits, h.owned, h.live⟩

/-- Every event keeps the invariant. -/
lemma Inv.step (h : Inv stype s) (fits : Fits stype) {e : Event} (hs : step stype s e = some s') :
    Inv stype s' := by
  cases e with
  | alloc =>
    obtain ⟨⟨p, s1⟩, ha, rfl⟩ := Option.map_eq_some_iff.mp hs
    exact h.slabAlloc fits ha
  | free p =>
    rw [Heap.step] at hs
    split at hs
    · next live => exact h.slabFree fits live hs
    · cases hs
  | pageAlloc =>
    obtain ⟨⟨p, s1⟩, hp, rfl⟩ := Option.map_eq_some_iff.mp hs
    obtain ⟨h1, -, -, -, fresh, inside⟩ := h.pageHeapAlloc hp
    apply h1.adopt fresh inside
    · exact .append_right (s1.slabs.map Slab.page) List.perm_middle
    · intro x hx
      exact .inr hx
    · intro x hx
      exact hx
  | pageFree p =>
    rw [Heap.step] at hs
    split at hs
    · next mem =>
      cases hs
      exact h.pageFree mem
    · cases hs

end Calls

/-! ### The element sizes -/

/-- A page from the end of the heap. -/
lemma pageHeapAlloc_grow {s : State} (h : s.heap_cache = []) (room : s.nextalloc + 4096 < 2 ^ 32) :
    pageHeapAlloc s = some (s.nextalloc, { s with nextalloc := s.nextalloc + 4096 }) := by
  rw [pageHeapAlloc, h]
  exact if_pos room

/-- An allocation for which a new slab is needed. -/
lemma slabAlloc_new {stype : SlabType} {s s' : State} {page i : Nat} {slab : Slab}
    (h : takeFirst s.slabs = none) (hp : pageHeapAlloc s = some (page, s'))
    (ht : (slabNew stype page).take = some (i, slab)) :
    slabAlloc stype s = some (slab.slot i, { s' with
      slabs := listPrepend slab s'.slabs, live := (slab.slot i, slab.page) :: s'.live }) := by
  simp only [slabAlloc, h, hp, ht, Option.bind_eq_bind, Option.bind_some]
  rfl

/-- The first call of `slab_alloc` sets up a slab. -/
lemma step_alloc_start (stype : SlabType) (h : 1 ≤ stype.count) (boot : Boot) :
    ∃ i < stype.count, step stype (start boot) .alloc = some
      { start boot with
        nextalloc := boot.next + 4096
        slabs := [{ slabNew stype boot.next with
          available := (slabNew stype boot.next).available.clear i }]
        live := [((slabNew stype boot.next).slot i, boot.next)] } := by
  have first := test_slabNew stype boot.next 0
  rw [decide_eq_true (by omega : 0 < stype.count)] at first
  obtain ⟨i, slab, ht⟩ := Slab.take_of_test (slabNew stype boot.next) h first
  obtain ⟨bit, rfl⟩ := Slab.take_some ht
  rw [test_slabNew, decide_eq_true_iff] at bit
  have page := pageHeapAlloc_grow (s := start boot) rfl boot.room
  have alloc := slabAlloc_new (s := start boot) rfl page ht
  refine ⟨i, bit, ?_⟩
  rw [step, alloc]
  rfl

/-- A slot that is larger than a page does not lie in one. -/
lemma not_always_of_large {stype : SlabType} (h : 1 ≤ stype.count) (large : 2 ^ 29 ≤ stype.esize.toNat)
    (boot : Boot) : ¬Always (step stype) (Separate stype) (start boot) [.alloc] := by
  intro always
  obtain ⟨i, -, hs⟩ := step_alloc_start stype h boot
  have inside := (always.2 _ hs).inside _ List.mem_cons_self
  omega

/-- All slots of no size have the same address. -/
lemma not_always_of_zero {stype : SlabType} (zero : stype.esize.toNat = 0) (boot : Boot) :
    ¬Always (step stype) (Separate stype) (start boot) [.alloc, .alloc] := by
  intro always
  have count : stype.count = 16240 := by
    have eq := count_eq stype
    rw [zero] at eq
    exact eq
  obtain ⟨i, hi, hs⟩ := step_alloc_start stype (by omega) boot
  have always := always.2 _ hs
  -- the other slots of the slab are still available
  obtain ⟨j, hj, ne⟩ : ∃ j < stype.count, j ≠ i := by
    by_cases h0 : i = 0
    · exact ⟨1, by omega, by omega⟩
    · exact ⟨0, by omega, by omega⟩
  have bit : ((slabNew stype boot.next).available.clear i).test j = true := by
    rw [Bitmap.test_clear, test_slabNew, decide_eq_true hj, decide_eq_false ne]
    rfl
  obtain ⟨k, slab, ht⟩ := Slab.take_of_test { slabNew stype boot.next with
    available := (slabNew stype boot.next).available.clear i } hj bit
  have alloc := always.2 { start boot with
    nextalloc := boot.next + 4096
    slabs := [slab]
    live := [(slab.slot k, slab.page), ((slabNew stype boot.next).slot i, boot.next)] } (by
      rw [step, slabAlloc, takeFirst, ht]
      rfl)
  have nodup := alloc.head.nodup
  obtain ⟨-, rfl⟩ := Slab.take_some ht
  have same : (slabNew stype boot.next).slot k = (slabNew stype boot.next).slot i := by
    have type : (slabNew stype boot.next).type = stype := rfl
    rw [Slab.slot, Slab.slot, type, zero, Nat.zero_mul, Nat.zero_mul]
  have ne' := (List.nodup_cons.mp nodup).1
  exact ne' (List.mem_singleton.mpr same)

/-- The allocated slots are separate in every run, exactly for the element sizes that are not zero and for
    which `8 * esize + 2` does not wrap around. -/
theorem separate_always_iff (stype : SlabType) (h : 1 ≤ stype.count) :
    (∀ boot events, Always (step stype) (Separate stype) (start boot) events) ↔
      0 < stype.esize.toNat ∧ stype.esize.toNat < 2 ^ 29 := by
  let boot : Boot := ⟨0, 0, Nat.le_refl 0, rfl, by decide⟩
  constructor
  · intro always
    constructor
    · by_contra zero
      exact not_always_of_zero (by omega) boot (always boot _)
    · by_contra large
      exact not_always_of_large h (by omega) boot (always boot _)
  · intro ⟨h0, small⟩ boot events
    have fits := fits_of_lt h0 small
    have run : Always (step stype) (Inv stype) (start boot) events :=
      always_of_step (fun s e s' inv hs => inv.step fits hs) (inv_start boot) events
    exact run.imp fun s inv => inv.separate fits

/-- A type with slots of eight bytes, such as the first pool of `malloc`. -/
theorem separate_always_eight : 1 ≤ SlabType.count ⟨0x1000, 8⟩ ∧
    ∀ boot events, Always (step ⟨0x1000, 8⟩) (Separate ⟨0x1000, 8⟩) (start boot) events :=
  ⟨by decide, (separate_always_iff ⟨0x1000, 8⟩ (by decide)).mpr ⟨by decide, by decide⟩⟩

/-- With an element size of `2 ^ 29` the divisor is `2`, and a slab is taken to have 16240 slots. -/
theorem large_slots_not_separate : SlabType.count ⟨0x1000, 0x20000000⟩ = 16240 ∧
    ¬Always (step ⟨0x1000, 0x20000000⟩) (Separate ⟨0x1000, 0x20000000⟩)
      (start ⟨0xc0400000, 0xc0400000, Nat.le_refl _, rfl, by decide⟩) [.alloc] :=
  ⟨by decide, not_always_of_large (by decide) (by decide) _⟩

end Twcos.Heap
