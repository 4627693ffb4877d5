import Mathlib.Data.Bool.Basic
import Mathlib.Data.List.Count
import Twcos.Heap.Alloc

/-!
# Finalizing slots

The bookkeeping of a collection of `libk/slab.c` for one type with a finalizer: `slab_gc_begin` copies the
available bits of each slab to its finalize bits and makes all slots available, every call of `slab_gc_mark`
takes the slot it hits, and `slab_gc_end` calls the finalizer where the two bitmaps differ. The runs are
those of `Twcos.Heap.Alloc` with collections in between; the list `marks` of a collection has the pointers
that `slab_gc_mark` is called with, by the roots or by itself. `finalizedOnce_always_iff` says in which of
them the finalizer runs exactly when it should: those where no collection marks a slot that is free.

C → Lean naming: `slab_finalize` → `slabFinalize`, `slab_gc_end` → `slabGcEnd`; the part of `slab_gc_mark` on the bitmap → `slabMark`.
-/

namespace Twcos.Heap
open Twcos.Run

/-- The inner loop of `slab_finalize` from slot `i` on, with `n` shifts of the mask left: the slots to
    finalize, and where it stops. The mask is that of the slot, as it starts with the first of a word. -/
def finalizeBits (finalize : Bitmap) (count : Nat) : Nat → Nat → List Nat × Nat
  | 0, i => ([], i)
  | n + 1, i =>
    if i < count then
      let (slots, j) := finalizeBits finalize count n (i + 1)
      (if finalize.test i then i :: slots else slots, j)
    else ([], i)

/-- The outer loop of `slab_finalize`, with `n` words left. -/
def finalizeWords (finalize : Bitmap) (count : Nat) : Nat → Nat → List Nat
  | 0, _ => []
  | n + 1, i =>
    if i < count then
      if finalize (i / 32) ≠ 0 then
        let (slots, j) := finalizeBits finalize count 32 i
        slots ++ finalizeWords finalize count n j
      else finalizeWords finalize count n (i + 32)
    else []

/-- `slab_finalize`: the pointers the finalizer is called with, and the slab afterwards. -/
def slabFinalize (slab : Slab) : List Nat × Slab :=
  let finalize : Bitmap := fun k =>
    if k < slab.type.used then slab.finalize k ^^^ slab.available k else slab.finalize k
  ((finalizeWords finalize slab.type.count slab.type.used 0).map slab.slot,
    { slab with finalize := finalize })

/-- What `slab_gc_mark` does to the bitmaps; a division by an element size of zero traps. -/
def slabMark (s : State) (p : Nat) : Option State :=
  match s.slabGet p with
  | none => some s
  | some slab =>
    if slab.type.esize = 0 then none
    else if slab.available.test (slab.index p) then
      some { s with slabs := updateAvailable s.slabs slab.page fun b => b.clear (slab.index p) }
    else some s

/-- `slab_gc_end`: the pointers the finalizers are called with. Not every type has one. -/
def Region.slabGcEnd (r : Region) (finalize : SlabType → Bool) : List Nat × Region :=
  (r.slabs.flatMap fun slab => if finalize slab.type then (slabFinalize slab).1 else [],
    { r with slabs := r.slabs.map fun slab => if finalize slab.type then (slabFinalize slab).2 else slab })

/-- Whether an allocated slot is still taken after marking. -/
def kept (s : State) (a : Nat × Nat) : Bool :=
  s.slabs.any fun slab => slab.page = a.2 ∧ slab.available.test (slab.index a.1) = false

/-- A collection. The slots that it finds available are free from then on. -/
def collect (s : State) (marks : List Nat) : Option (List Nat × State) := do
  let s ← marks.foldlM slabMark { s with toRegion := s.slabGcBegin }
  let (finalized, r) := s.slabGcEnd fun _ => true
  return (finalized, { s with toRegion := r, live := s.live.filter (kept s) })

/-- What happened in a collection: the slots allocated before it, the slots that were marked, and the
    calls of the finalizer. -/
structure Collection where
  allocated : List Nat
  marked : List Nat
  finalized : List Nat

/-- The heap, the pointers that `slab_alloc` has returned, the calls of the finalizer, and the
    collections so far. -/
structure GcState where
  heap : State
  allocs : List Nat
  finals : List Nat
  collections : List Collection

/-- An event of the heap, or a collection. -/
inductive GcEvent where
  | alloc
  | free (p : Nat)
  | pageAlloc
  | pageFree (p : Nat)
  | collect (marks : List Nat)

/-- The slots that pointers hit. -/
def slotsOf (s : State) (marks : List Nat) : List Nat :=
  marks.filterMap fun p => (s.slabGet p).map fun slab => slab.slot (slab.index p)

/-- `slab_free` calls the finalizer if it finds the slab. -/
def gcStep (stype : SlabType) (s : GcState) : GcEvent → Option GcState
  | .alloc => (slabAlloc stype s.heap).map fun (p, heap) =>
    { s with heap := heap, allocs := p :: s.allocs }
  | .free p => (step stype s.heap (.free p)).map fun heap =>
    { s with heap := heap, finals := if (s.heap.slabGet p).isSome then p :: s.finals else s.finals }
  | .pageAlloc => (step stype s.heap .pageAlloc).map fun heap => { s with heap := heap }
  | .pageFree p => (step stype s.heap (.pageFree p)).map fun heap => { s with heap := heap }
  | .collect marks => (Heap.collect s.heap marks).map fun (finalized, heap) =>
    { s with
      heap := heap
      finals := finalized ++ s.finals
      collections :=
        ⟨s.heap.live.map Prod.fst, slotsOf s.heap marks, finalized⟩ :: s.collections }

def gcStart (boot : Boot) : GcState := ⟨start boot, [], [], []⟩

/-- The finalizer is called once for each allocated slot that was not marked, and for no other. -/
def Collection.Exact (c : Collection) : Prop :=
  ∀ a, c.finalized.count a = if a ∈ c.allocated ∧ a ∉ c.marked then 1 else 0

/-- Every collection was exact, and no slot was finalized more often than allocated. -/
structure FinalizedOnce (s : GcState) : Prop where
  exact : ∀ c ∈ s.collections, c.Exact
  atMost : ∀ a, s.finals.count a ≤ s.allocs.count a

/-- The pointers hit allocated slots only. -/
def HitsAllocated (s : State) (marks : List Nat) : Prop :=
  ∀ p ∈ marks, ∀ slab, s.slabGet p = some slab → slab.index p < slab.type.count →
    slab.slot (slab.index p) ∈ s.live.map Prod.fst

/-- No collection marks a slot that is free. -/
def MarksAllocated (s : GcState) : GcEvent → Prop
  | .collect marks => HitsAllocated s.heap marks
  | _ => True

/-! ### The loops of `slab_finalize` -/

/-- The slots of a word of the bitmap, up to the last slot of the slab. -/
lemma finalizeBits_eq {f : Bitmap} {c n i : Nat} (h : i ≤ c) :
    finalizeBits f c n i =
      ((List.range' i (min n (c - i))).filter fun j => f.test j, i + min n (c - i)) := by
  induction n generalizing i with
  | zero => simp [finalizeBits]
  | succ n ih =>
    rw [finalizeBits]
    split
    · next lt =>
      have size : min (n + 1) (c - i) = min n (c - (i + 1)) + 1 := by omega
      rw [ih lt, size, List.range'_succ, List.filter_cons]
      simp only [Prod.mk.injEq, true_and]
      omega
    · next ge =>
      have size : min (n + 1) (c - i) = 0 := by omega
      rw [size]
      rfl

/-- The loops find the finalize bits that are set. -/
lemma finalizeWords_eq {f : Bitmap} {c n i : Nat} (hi : i % 32 = 0 ∨ i = c) (hn : c ≤ i + 32 * n) :
    finalizeWords f c n i = (List.range' i (c - i)).filter fun j => f.test j := by
  induction n generalizing i with
  | zero =>
    have size : c - i = 0 := by omega
    rw [size]
    rfl
  | succ n ih =>
    rw [finalizeWords]
    split
    · next lt =>
      split
      · have parts : c - i = min 32 (c - i) + (c - (i + min 32 (c - i))) := by omega
        rw [finalizeBits_eq (by omega)]
        dsimp only
        rw [ih (by omega) (by omega), ← List.filter_append, List.range'_append_1, ← parts]
      · next zero =>
        rw [ne_eq, not_not] at zero
        have parts : c - i = min 32 (c - i) + (c - (i + 32)) := by omega
        have none : (List.range' i (min 32 (c - i))).filter (fun j => f.test j) = [] := by
          rw [List.filter_eq_nil_iff]
          intro j hj
          rw [List.mem_range'_1] at hj
          have word : j / 32 = i / 32 := by omega
          rw [Bitmap.test_eq, word, zero, BitVec.ofNat_eq_ofNat, BitVec.getLsbD_zero]
          exact Bool.false_ne_true
        rw [ih (by omega) (by omega), parts, ← List.range'_append_1, List.filter_append, none,
          List.nil_append]
        rcases Nat.le_total (i + 32) c with le | ge
        · rw [show i + min 32 (c - i) = i + 32 by omega]
        · rw [show c - (i + 32) = 0 by omega]
          rfl
    · next ge =>
      have size : c - i = 0 := by omega
      rw [size]
      rfl

/-- The slots that `slab_finalize` finalizes. -/
lemma mem_slabFinalize {slab : Slab} {a : Nat} :
    a ∈ (slabFinalize slab).1 ↔ ∃ i < slab.type.count,
      (slab.finalize.test i ^^ slab.available.test i) = true ∧ slab.slot i = a := by
  have bit : ∀ {i}, i < slab.type.count → Bitmap.test (fun k => if k < slab.type.used then
      slab.finalize k ^^^ slab.available k else slab.finalize k) i =
      (slab.finalize.test i ^^ slab.available.test i) := by
    intro i hi
    rw [Bitmap.test_eq, if_pos (used_spec hi), ← Bitmap.test_xor, Bitmap.test_eq]
  rw [slabFinalize, finalizeWords_eq (.inl rfl) (by rw [SlabType.used]; omega)]
  simp only [List.mem_map, List.mem_filter, List.mem_range'_1, Nat.sub_zero, Nat.zero_add, Nat.zero_le,
    true_and]
  constructor
  · rintro ⟨i, ⟨hi, test⟩, slot⟩
    rw [bit hi] at test
    exact ⟨i, hi, test, slot⟩
  · rintro ⟨i, hi, test, slot⟩
    refine ⟨i, ⟨hi, ?_⟩, slot⟩
    rw [bit hi]
    exact test

section Marks
variable {stype : SlabType} {s s' : State}

/-- One of the pointers hits the slot. -/
def Hit (s : State) (marks : List Nat) (page i : Nat) : Prop :=
  ∃ p ∈ marks, ∃ slab, s.slabGet p = some slab ∧ slab.page = page ∧ slab.index p = i

/-- A slot is hit by one more pointer. -/
lemma hit_append {marks : List Nat} {p page i : Nat} :
    Hit s (marks ++ [p]) page i ↔ Hit s marks page i ∨
      ∃ slab, s.slabGet p = some slab ∧ slab.page = page ∧ slab.index p = i := by
  constructor
  · rintro ⟨q, hq, slab, get, rest⟩
    rcases List.mem_append.mp hq with hq | hq
    · exact .inl ⟨q, hq, slab, get, rest⟩
    · cases List.mem_singleton.mp hq
      exact .inr ⟨slab, get, rest⟩
  · rintro (⟨q, hq, rest⟩ | rest)
    · exact ⟨q, List.mem_append_left _ hq, rest⟩
    · exact ⟨p, List.mem_append_right _ (List.mem_singleton_self p), rest⟩

/-- A slab in the middle of a collection. -/
def Slab.during (slab : Slab) (available : Bitmap) : Slab :=
  { slabMarkAvailableAll slab with available := available }

/-- Changing one bitmap during a collection. -/
lemma updateAvailable_during (slabs : List Slab) (g : Slab → Bitmap) (page : Nat) (f : Bitmap → Bitmap) :
    updateAvailable (slabs.map fun x => x.during (g x)) page f =
      slabs.map fun x => x.during (if x.page = page then f (g x) else g x) := by
  rw [updateAvailable, List.map_map]
  apply List.map_congr_left
  intro x hx
  show (if x.page = page then _ else _) = _
  split <;> rfl

/-- In the middle of a collection, the available slots are those that were not hit. -/
def Marking (stype : SlabType) (s : State) (marks : List Nat) (s' : State) : Prop :=
  ∃ g : Slab → Bitmap, s' = { s with slabs := s.slabs.map fun x => x.during (g x) } ∧
    ∀ x ∈ s.slabs, ∀ i, (g x).test i = true ↔ i < stype.count ∧ ¬Hit s marks x.page i

/-- No slot is hit when the collection begins. -/
lemma marking_begin (h : Inv stype s) : Marking stype s [] { s with toRegion := s.slabGcBegin } := by
  refine ⟨fun x => allAvailable x.type x.available, rfl, fun x hx i => ?_⟩
  have type := (h.type x hx).1
  have none : ¬Hit s [] x.page i := nofun
  by_cases used : i / 32 < x.type.used
  · rw [test_allAvailable used, decide_eq_true_iff, type]
    exact ⟨fun hi => ⟨hi, none⟩, And.left⟩
  · have word : allAvailable x.type x.available (i / 32) = x.available (i / 32) := if_neg used
    have no : ¬i < stype.count := by
      intro hi
      rw [← type] at hi
      exact used (used_spec hi)
    have same : Bitmap.test (allAvailable x.type x.available) i = x.available.test i := by
      rw [Bitmap.test_eq, word, Bitmap.test_eq]
    rw [same, h.bits x hx]
    exact iff_of_false (fun hi => no hi.1) (fun hi => no hi.1)

/-- Marking a pointer hits its slot. -/
lemma Marking.mark (h : Inv stype s) {marks : List Nat} {s1 : State} (hm : Marking stype s marks s1)
    {p : Nat} (hp : slabMark s1 p = some s') : Marking stype s (marks ++ [p]) s' := by
  obtain ⟨g, rfl, bits⟩ := hm
  have get := s.slabGet_map (g := fun x => x.during (g x)) (fun x => ⟨rfl, rfl, rfl⟩) p
  rw [slabMark, get] at hp
  cases found : s.slabGet p with
  | none =>
    rw [found] at hp
    cases hp
    refine ⟨g, rfl, fun x hx i => ?_⟩
    rw [bits x hx, hit_append]
    simp [found]
  | some slab =>
    rw [found] at hp
    obtain ⟨mem, -⟩ := Region.slabGet_some found
    have hits : ∀ page i, Hit s (marks ++ [p]) page i ↔
        Hit s marks page i ∨ slab.page = page ∧ slab.index p = i := by
      intro page i
      rw [hit_append, found]
      simp
    simp only [Option.map_some] at hp
    split at hp
    · cases hp
    · split at hp
      · next test =>
        cases hp
        refine ⟨fun x => if x.page = slab.page then (g x).clear (slab.index p) else g x, ?_, ?_⟩
        · congr 2
          exact updateAvailable_during _ _ _ _
        · intro x hx i
          dsimp only
          by_cases page : x.page = slab.page
          · rw [if_pos page, Bitmap.test_clear, hits, Bool.and_eq_true, bits x hx]
            simp only [Bool.not_eq_true', decide_eq_false_iff_not]
            have := page.symm
            tauto
          · rw [if_neg page, bits x hx, hits]
            have := Ne.symm page
            tauto
      · next test =>
        cases hp
        refine ⟨g, rfl, fun x hx i => ?_⟩
        rw [bits x hx, hits]
        refine and_congr_right fun hi => not_congr ⟨.inl, fun hit => hit.elim id ?_⟩
        -- a slot that is not available has been hit before
        rintro ⟨page, rfl⟩
        cases h.slab_unique hx mem page.symm
        by_contra unhit
        exact test ((bits slab mem _).mpr ⟨hi, unhit⟩)

/-- Marking a list of pointers. -/
lemma Marking.fold (h : Inv stype s) {marks done : List Nat} {s1 : State} (hm : Marking stype s done s1)
    (hf : marks.foldlM slabMark s1 = some s') : Marking stype s (done ++ marks) s' := by
  induction marks generalizing done s1 with
  | nil =>
    cases hf
    rw [List.append_nil]
    exact hm
  | cons p marks ih =>
    rw [List.foldlM_cons] at hf
    obtain ⟨s2, hp, hf⟩ := Option.bind_eq_some_iff.mp hf
    have done' := ih (hm.mark h hp) hf
    rw [List.append_assoc] at done'
    exact done'

/-! ### Which slots are hit -/

/-- The address of a slot tells its page. -/
lemma Inv.pageAlign_slot (h : Inv stype s) (fits : Fits stype) {slab : Slab} (hs : slab ∈ s.slabs) {i : Nat}
    (hi : i < stype.count) : pageAlign (slab.slot i) = slab.page := by
  obtain ⟨aligned, -, top⟩ := h.slabPage hs
  have top' := h.top
  obtain ⟨lo, hi'⟩ := slot_inside fits (h.type slab hs).1 (by omega) hi
  have h0 := fits.1
  rw [pageAlign]
  omega

/-- An allocated slot with the address of a slot is that slot. -/
lemma Inv.mem_live (h : Inv stype s) (fits : Fits stype) {slab : Slab} (hs : slab ∈ s.slabs) {i : Nat}
    (hi : i < stype.count) : slab.slot i ∈ s.live.map Prod.fst ↔ (slab.slot i, slab.page) ∈ s.live := by
  constructor
  · intro mem
    obtain ⟨a, ha, e⟩ := List.mem_map.mp mem
    obtain ⟨y, hy, page, j, hj, slot⟩ := h.owned a ha
    have page' : a.2 = slab.page := by
      rw [← page, ← h.pageAlign_slot fits hy hj, slot, e, h.pageAlign_slot fits hs hi]
    rw [← e, ← page']
    exact ha
  · intro mem
    exact List.mem_map_of_mem (f := Prod.fst) mem

/-- A pointer hits the slot it lies in. -/
lemma Inv.mem_slotsOf (h : Inv stype s) (fits : Fits stype) {slab : Slab} (hs : slab ∈ s.slabs) {i : Nat}
    (hi : i < stype.count) {marks : List Nat} :
    slab.slot i ∈ slotsOf s marks ↔ Hit s marks slab.page i := by
  rw [slotsOf, List.mem_filterMap]
  constructor
  · rintro ⟨p, hp, e⟩
    obtain ⟨x, get, e⟩ := Option.map_eq_some_iff.mp e
    obtain ⟨hx, page, data, lt⟩ := Region.slabGet_some get
    have type := (h.type x hx).1
    have top := h.top
    obtain ⟨-, -, top'⟩ := h.slabPage hs
    -- the slot starts in the page, at or before the pointer
    have le : stype.esize.toNat * x.index p ≤ p - x.data := by
      rw [Slab.index, type]
      exact Nat.mul_div_le _ _
    have start : x.slot (x.index p) = x.data + stype.esize.toNat * x.index p := by
      rw [Slab.slot, type, Nat.mod_eq_of_lt (by omega), Nat.mod_eq_of_lt (by omega)]
    have align : pageAlign (x.slot (x.index p)) = x.page := by
      have := data_eq type
      rw [pageAlign] at page ⊢
      omega
    have page' : x.page = slab.page := by
      rw [← align, e]
      exact h.pageAlign_slot fits hs hi
    cases h.slab_unique hx hs page'
    refine ⟨p, hp, slab, get, rfl, ?_⟩
    rw [e, slot_eq fits type (by omega) hi, data_eq type] at start
    exact (Nat.eq_of_mul_eq_mul_left fits.1 (Nat.add_left_cancel start)).symm
  · rintro ⟨p, hp, x, get, page, index⟩
    obtain ⟨hx, -⟩ := Region.slabGet_some get
    cases h.slab_unique hx hs page
    refine ⟨p, hp, ?_⟩
    rw [get, Option.map_some, index]

/-! ### A collection -/

/-- What a collection does: the available slots afterwards are those that were not hit, and the finalizer is
    called for each slot that was allocated and not hit, or free and hit. -/
structure Collected (stype : SlabType) (s : State) (marks finalized : List Nat) (s' : State) : Prop where
  nodup : finalized.Nodup
  mem : ∀ slab ∈ s.slabs, ∀ i < stype.count, (slab.slot i ∈ finalized ↔
    ((slab.slot i, slab.page) ∈ s.live ↔ ¬Hit s marks slab.page i))
  slots : ∀ a ∈ finalized, ∃ slab ∈ s.slabs, ∃ i < stype.count, slab.slot i = a
  slabs : ∃ g : Slab → Slab, s' = { s with slabs := s.slabs.map g, live := s'.live } ∧
    ∀ x ∈ s.slabs, (g x).page = x.page ∧ (g x).magic = x.magic ∧ (g x).type = x.type ∧
      ∀ i, (g x).available.test i = true ↔ i < stype.count ∧ ¬Hit s marks x.page i
  live : s'.live.Sublist s.live
  kept : ∀ slab ∈ s.slabs, ∀ i < stype.count, ((slab.slot i, slab.page) ∈ s'.live ↔
    (slab.slot i, slab.page) ∈ s.live ∧ Hit s marks slab.page i)

/-- A slab finalizes no slot twice. -/
lemma slabFinalize_nodup (fits : Fits stype) {slab : Slab} (hs : slab.type = stype)
    (hp : slab.page + 4096 ≤ 2 ^ 32) : (slabFinalize slab).1.Nodup := by
  rw [slabFinalize, finalizeWords_eq (.inl rfl) (by rw [SlabType.used]; omega)]
  apply List.Nodup.map_on
  · intro i hi j hj e
    rw [List.mem_filter, List.mem_range'_1, hs] at hi hj
    exact slot_inj fits hs hp (by omega) (by omega) e
  · exact (List.nodup_range' ..).filter _

/-- The finalizer runs where the available bits before and after marking differ. -/
lemma Inv.mem_slabFinalize (h : Inv stype s) {slab : Slab} (hs : slab ∈ s.slabs) {b : Bitmap}
    {marks : List Nat} (bits : ∀ i, b.test i = true ↔ i < stype.count ∧ ¬Hit s marks slab.page i) {a : Nat} :
    a ∈ (slabFinalize (slab.during b)).1 ↔ ∃ i < stype.count,
      ((slab.slot i, slab.page) ∈ s.live ↔ ¬Hit s marks slab.page i) ∧ slab.slot i = a := by
  have type := (h.type slab hs).1
  rw [Heap.mem_slabFinalize, show (slab.during b).type = stype from type]
  refine exists_congr fun i => and_congr_right fun hi => and_congr_left fun _ => ?_
  have used : i / 32 < slab.type.used := by
    rw [type]
    exact used_spec hi
  -- the finalize bits hold the available bits from before
  have old : (slab.during b).finalize.test i = slab.available.test i := by
    have word : (slab.during b).finalize (i / 32) = slab.available (i / 32) := if_pos used
    rw [Bitmap.test_eq, word, Bitmap.test_eq]
  have before := h.bits slab hs i
  have after := bits i
  simp only [hi, true_and] at before after
  rw [old, show (slab.during b).available = b from rfl, Bool.xor_iff_ne, ne_eq, Bool.eq_iff_iff, before,
    after, not_iff, not_not]

/-- An allocated slot is still taken if it was hit. -/
lemma Inv.kept_iff (h : Inv stype s) (fits : Fits stype) {g : Slab → Bitmap} {marks : List Nat}
    (bits : ∀ x ∈ s.slabs, ∀ i, (g x).test i = true ↔ i < stype.count ∧ ¬Hit s marks x.page i)
    {slab : Slab} (hs : slab ∈ s.slabs) {i : Nat} (hi : i < stype.count) :
    kept { s with slabs := s.slabs.map fun x => x.during (g x) } (slab.slot i, slab.page) = true ↔
      Hit s marks slab.page i := by
  obtain ⟨-, -, top⟩ := h.slabPage hs
  have top' := h.top
  have index := index_slot fits (h.type slab hs).1 (by omega) hi
  have test : (g slab).test i = false ↔ Hit s marks slab.page i := by
    rw [← Bool.not_eq_true, bits slab hs]
    tauto
  rw [kept, List.any_eq_true, ← test]
  constructor
  · rintro ⟨x, hx, hit⟩
    obtain ⟨y, hy, rfl⟩ := List.mem_map.mp hx
    rw [decide_eq_true_iff] at hit
    cases h.slab_unique hy hs hit.1
    have bit : (g slab).test (slab.index (slab.slot i)) = false := hit.2
    rwa [index] at bit
  · intro bit
    refine ⟨slab.during (g slab), List.mem_map_of_mem hs, ?_⟩
    rw [decide_eq_true_iff]
    refine ⟨rfl, ?_⟩
    show (g slab).test (slab.index (slab.slot i)) = false
    rw [index, bit]

/-- The end of a collection, slab by slab. -/
lemma slabGcEnd_during (r : Region) (g : Slab → Bitmap) :
    Region.slabGcEnd { r with slabs := r.slabs.map fun x => x.during (g x) } (fun _ => true) =
      (r.slabs.flatMap fun x => (slabFinalize (x.during (g x))).1,
        { r with slabs := r.slabs.map fun x => (slabFinalize (x.during (g x))).2 }) := by
  simp only [Region.slabGcEnd, if_true, List.flatMap_map, List.map_map]
  rfl

/-- What a collection leaves. -/
lemma collect_spec (h : Inv stype s) (fits : Fits stype) {marks finalized : List Nat}
    (hc : collect s marks = some (finalized, s')) : Collected stype s marks finalized s' := by
  obtain ⟨s1, hf, hc⟩ := Option.bind_eq_some_iff.mp hc
  obtain ⟨g, rfl, bits⟩ := (marking_begin h).fold h hf
  rw [List.nil_append] at bits
  have ends := slabGcEnd_during s.toRegion g
  rw [ends] at hc
  cases hc
  constructor
  · rw [List.nodup_flatMap]
    constructor
    · intro x hx
      obtain ⟨-, -, top⟩ := h.slabPage hx
      have top' := h.top
      exact slabFinalize_nodup fits (h.type x hx).1 (show x.page + 4096 ≤ 2 ^ 32 by omega)
    · have pages := List.pairwise_map.mp (List.nodup_append.mp h.pages).2.1
      refine pages.imp_of_mem fun {x y} hx hy ne => ?_
      intro a ha hb
      obtain ⟨i, hi, -, ei⟩ := (h.mem_slabFinalize hx (bits x hx)).mp ha
      obtain ⟨j, hj, -, ej⟩ := (h.mem_slabFinalize hy (bits y hy)).mp hb
      apply ne
      rw [← h.pageAlign_slot fits hx hi, ei, ← ej, h.pageAlign_slot fits hy hj]
  · intro slab hs i hi
    rw [List.mem_flatMap]
    constructor
    · rintro ⟨x, hx, mem⟩
      obtain ⟨j, hj, called, e⟩ := (h.mem_slabFinalize hx (bits x hx)).mp mem
      have page : x.page = slab.page := by
        rw [← h.pageAlign_slot fits hx hj, e, h.pageAlign_slot fits hs hi]
      cases h.slab_unique hx hs page
      obtain ⟨-, -, top⟩ := h.slabPage hs
      have top' := h.top
      cases slot_inj fits (h.type slab hs).1 (by omega) hj hi e
      exact called
    · intro called
      exact ⟨slab, hs, (h.mem_slabFinalize hs (bits slab hs)).mpr ⟨i, hi, called, rfl⟩⟩
  · intro a ha
    obtain ⟨x, hx, mem⟩ := List.mem_flatMap.mp ha
    obtain ⟨i, hi, -, e⟩ := (h.mem_slabFinalize hx (bits x hx)).mp mem
    exact ⟨x, hx, i, hi, e⟩
  · exact ⟨fun x => (slabFinalize (x.during (g x))).2, rfl, fun x hx => ⟨rfl, rfl, rfl, bits x hx⟩⟩
  · exact List.filter_sublist
  · intro slab hs i hi
    show _ ∈ s.live.filter _ ↔ _
    rw [List.mem_filter, h.kept_iff fits bits hs hi]

/-- A slot that is hit is live if all marked pointers are. -/
lemma HitsAllocated.live (h : Inv stype s) (fits : Fits stype) {marks : List Nat}
    (allocated : HitsAllocated s marks) {slab : Slab} (hs : slab ∈ s.slabs) {i : Nat} (hi : i < stype.count)
    (hit : Hit s marks slab.page i) : (slab.slot i, slab.page) ∈ s.live := by
  obtain ⟨p, hp, x, get, page, rfl⟩ := hit
  obtain ⟨hx, -⟩ := Region.slabGet_some get
  cases h.slab_unique hx hs page
  rw [← h.mem_live fits hs hi]
  apply allocated p hp slab get
  rw [(h.type slab hs).1]
  exact hi

/-- A collection that hits only allocated slots finalizes those that it did not hit. -/
lemma Collected.mem_finalized (h : Inv stype s) (fits : Fits stype) {marks finalized : List Nat}
    (c : Collected stype s marks finalized s') (allocated : HitsAllocated s marks) (a : Nat) :
    a ∈ finalized ↔ a ∈ s.live.map Prod.fst ∧ a ∉ slotsOf s marks := by
  constructor
  · intro ha
    obtain ⟨slab, hs, i, hi, rfl⟩ := c.slots a ha
    rw [h.mem_live fits hs hi, h.mem_slotsOf fits hs hi]
    have called := (c.mem slab hs i hi).mp ha
    have unhit : ¬Hit s marks slab.page i := fun hit => called.mp (allocated.live h fits hs hi hit) hit
    exact ⟨called.mpr unhit, unhit⟩
  · intro ⟨ha, unmarked⟩
    obtain ⟨b, hb, rfl⟩ := List.mem_map.mp ha
    obtain ⟨slab, hs, page, i, hi, slot⟩ := h.owned b hb
    rw [← slot] at ha unmarked ⊢
    rw [h.mem_slotsOf fits hs hi] at unmarked
    rw [h.mem_live fits hs hi] at ha
    exact (c.mem slab hs i hi).mpr (iff_of_true ha unmarked)

/-- The slots that stay allocated. -/
lemma Collected.mem_live (h : Inv stype s) (fits : Fits stype) {marks finalized : List Nat}
    (c : Collected stype s marks finalized s') (a : Nat) :
    a ∈ s'.live.map Prod.fst ↔ a ∈ s.live.map Prod.fst ∧ a ∈ slotsOf s marks := by
  constructor
  · intro ha
    obtain ⟨b, hb, rfl⟩ := List.mem_map.mp ha
    have hb' := c.live.subset hb
    obtain ⟨slab, hs, page, i, hi, slot⟩ := h.owned b hb'
    refine ⟨List.mem_map_of_mem hb', ?_⟩
    have e : b = (slab.slot i, slab.page) := Prod.ext slot.symm page.symm
    rw [e] at hb
    rw [← slot, h.mem_slotsOf fits hs hi]
    exact ((c.kept slab hs i hi).mp hb).2
  · intro ⟨ha, marked⟩
    obtain ⟨b, hb, rfl⟩ := List.mem_map.mp ha
    obtain ⟨slab, hs, page, i, hi, slot⟩ := h.owned b hb
    have e : b = (slab.slot i, slab.page) := Prod.ext slot.symm page.symm
    rw [← slot, h.mem_slotsOf fits hs hi] at marked
    rw [e] at hb ⊢
    exact List.mem_map_of_mem ((c.kept slab hs i hi).mpr ⟨hb, marked⟩)

/-- A collection is exact if and only if it hits allocated slots only. -/
lemma Collected.exact_iff (h : Inv stype s) (fits : Fits stype) {marks finalized : List Nat}
    (c : Collected stype s marks finalized s') :
    Collection.Exact ⟨s.live.map Prod.fst, slotsOf s marks, finalized⟩ ↔ HitsAllocated s marks := by
  constructor
  · intro exact p hp slab get lt
    obtain ⟨hs, -⟩ := Region.slabGet_some get
    have hi : slab.index p < stype.count := by
      rw [← (h.type slab hs).1]
      exact lt
    by_contra free
    have count := exact (slab.slot (slab.index p))
    rw [if_neg fun both => free both.1, List.count_eq_zero] at count
    apply count
    rw [c.mem slab hs _ hi]
    rw [h.mem_live fits hs hi] at free
    exact iff_of_false free (not_not.mpr ⟨p, hp, slab, get, rfl, rfl⟩)
  · intro allocated a
    rw [c.nodup.count]
    simp only [c.mem_finalized h fits allocated a]

/-- A collection that hits allocated slots only keeps the invariant. -/
lemma Collected.inv (h : Inv stype s) (fits : Fits stype) {marks finalized : List Nat}
    (c : Collected stype s marks finalized s') (allocated : HitsAllocated s marks) : Inv stype s' := by
  obtain ⟨g, hs', same⟩ := c.slabs
  have pages : s'.pages = s.pages := by
    rw [hs', State.pages, State.pages, List.map_map]
    congr 1
    apply List.map_congr_left
    intro x hx
    exact (same x hx).1
  have slot : ∀ {x}, x ∈ s.slabs → ∀ i, (g x).slot i = x.slot i := by
    intro x hx i
    obtain ⟨page, -, type, -⟩ := same x hx
    rw [Slab.slot, Slab.slot, Slab.data, Slab.data, page, type]
  have slabs : s'.slabs = s.slabs.map g := by
    rw [hs']
  have next : s'.nextalloc = s.nextalloc := by
    rw [hs']
  have base : s'.base = s.base := by
    rw [hs']
  constructor
  · rw [next]
    exact h.next
  · rw [next]
    exact h.top
  · rw [next, base]
    exact h.base
  · rw [pages, next, base]
    exact h.page
  · rw [pages]
    exact h.pages
  · intro x hx
    rw [slabs] at hx
    obtain ⟨y, hy, rfl⟩ := List.mem_map.mp hx
    obtain ⟨-, magic, type, -⟩ := same y hy
    rw [magic, type]
    exact h.type y hy
  · intro x hx i
    rw [slabs] at hx
    obtain ⟨y, hy, rfl⟩ := List.mem_map.mp hx
    obtain ⟨page, -, -, bits⟩ := same y hy
    rw [bits i, slot hy, page]
    refine and_congr_right fun hi => not_congr ?_
    rw [c.kept y hy i hi]
    exact ⟨fun hit => ⟨allocated.live h fits hy hi hit, hit⟩, And.right⟩
  · intro a ha
    obtain ⟨y, hy, page, i, hi, e⟩ := h.owned a (c.live.subset ha)
    refine ⟨g y, ?_, (same y hy).1.trans page, i, hi, (slot hy i).trans e⟩
    rw [slabs]
    exact List.mem_map_of_mem hy
  · exact h.live.sublist c.live

end Marks

/-! ### Runs -/

section Runs
variable {stype : SlabType} {s s' : GcState}

/-- The allocations of a slot are its finalizations, and one more if it is allocated. -/
structure GcInv (stype : SlabType) (s : GcState) : Prop where
  heap : Inv stype s.heap
  balance : ∀ a, s.allocs.count a = s.finals.count a + (s.heap.live.map Prod.fst).count a

/-- No slot is finalized more often than it was allocated. -/
lemma GcInv.atMost (h : GcInv stype s) (a : Nat) : s.finals.count a ≤ s.allocs.count a := by
  rw [h.balance a]
  exact Nat.le_add_right _ _

/-- A new slot is live. -/
lemma slabAlloc_live {s s' : State} {p : Nat} (h : slabAlloc stype s = some (p, s')) :
    ∃ page, s'.live = (p, page) :: s.live := by
  rw [slabAlloc] at h
  split at h
  · cases h
    exact ⟨_, rfl⟩
  · obtain ⟨⟨page, s1⟩, hp, h⟩ := Option.bind_eq_some_iff.mp h
    obtain ⟨⟨i, slab⟩, ht, h⟩ := Option.bind_eq_some_iff.mp h
    cases h
    rw [pageHeapAlloc] at hp
    split at hp
    · cases hp
      exact ⟨_, rfl⟩
    · split at hp
      · cases hp
        exact ⟨_, rfl⟩
      · cases hp

/-- An allocation keeps the invariant. -/
lemma GcInv.alloc (h : GcInv stype s) (fits : Fits stype) (hs : gcStep stype s .alloc = some s') :
    GcInv stype s' ∧ s'.collections = s.collections := by
  obtain ⟨⟨p, heap⟩, ha, rfl⟩ := Option.map_eq_some_iff.mp hs
  refine ⟨⟨h.heap.slabAlloc fits ha, fun a => ?_⟩, rfl⟩
  obtain ⟨page, live⟩ := slabAlloc_live ha
  have balance := h.balance a
  show (p :: s.allocs).count a = s.finals.count a + (heap.live.map Prod.fst).count a
  rw [live, List.map_cons, List.count_cons, List.count_cons, balance, Nat.add_assoc]

/-- Freeing keeps the invariant. -/
lemma GcInv.free (h : GcInv stype s) (fits : Fits stype) {p : Nat}
    (hs : gcStep stype s (.free p) = some s') :
    GcInv stype s' ∧ s'.collections = s.collections := by
  obtain ⟨heap, hf, rfl⟩ := Option.map_eq_some_iff.mp hs
  refine ⟨⟨h.heap.step fits hf, fun a => ?_⟩, rfl⟩
  rw [step] at hf
  split at hf
  · next live =>
    obtain ⟨b, hb, rfl⟩ := List.mem_map.mp live
    obtain ⟨slab, -, get, -⟩ := h.heap.slabGet_live fits hb
    have live' : heap.live = s.heap.live.filter fun x => x.1 ≠ b.1 := by
      rw [slabFree, get] at hf
      dsimp only at hf
      split at hf
      · cases hf
      · cases hf
        rfl
    have balance := h.balance a
    have nodup := h.heap.nodup_fst fits
    have nodup' : ((s.heap.live.filter fun x => x.1 ≠ b.1).map Prod.fst).Nodup :=
      nodup.sublist (List.filter_sublist.map _)
    rw [nodup.count] at balance
    rw [get, live']
    simp only [Option.isSome_some, if_true]
    rw [nodup'.count, List.count_cons, balance, Nat.add_assoc]
    congr 1
    -- the freed slot has gone, and is finalized
    by_cases e : a = b.1
    · subst e
      have gone : b.1 ∉ (s.heap.live.filter fun x => x.1 ≠ b.1).map Prod.fst := by
        simp
      rw [if_pos live, if_neg gone, beq_self_eq_true, if_pos rfl]
    · have same : a ∈ (s.heap.live.filter fun x => x.1 ≠ b.1).map Prod.fst ↔
          a ∈ s.heap.live.map Prod.fst := by
        simp only [List.mem_map, List.mem_filter, decide_eq_true_eq]
        constructor
        · rintro ⟨x, ⟨hx, -⟩, rfl⟩
          exact ⟨x, hx, rfl⟩
        · rintro ⟨x, hx, rfl⟩
          exact ⟨x, ⟨hx, e⟩, rfl⟩
      have ne : ¬(b.1 == a) = true := by
        rw [beq_iff_eq]
        exact Ne.symm e
      simp only [same, if_neg ne, Nat.zero_add]
  · cases hf

/-- Taking or giving back a page keeps the invariant. -/
lemma GcInv.page (h : GcInv stype s) (fits : Fits stype) {e : Event} {heap : State}
    (hs : step stype s.heap e = some heap) (live : heap.live = s.heap.live) :
    GcInv stype { s with heap := heap } := by
  refine ⟨h.heap.step fits hs, fun a => ?_⟩
  rw [live]
  exact h.balance a

/-- A collection that marks live slots only keeps the invariant. -/
lemma GcInv.collect (h : GcInv stype s) (fits : Fits stype) {marks finalized : List Nat} {heap : State}
    (c : Collected stype s.heap marks finalized heap) (allocated : HitsAllocated s.heap marks)
    (cs : List Collection) : GcInv stype ⟨heap, s.allocs, finalized ++ s.finals, cs⟩ := by
  refine ⟨c.inv h.heap fits allocated, fun a => ?_⟩
  have nodup := h.heap.nodup_fst fits
  have nodup' : (heap.live.map Prod.fst).Nodup := nodup.sublist (c.live.map _)
  have balance := h.balance a
  rw [nodup.count] at balance
  rw [balance, List.count_append, c.nodup.count, nodup'.count]
  simp only [c.mem_finalized h.heap fits allocated, c.mem_live h.heap fits]
  by_cases live : a ∈ s.heap.live.map Prod.fst
  · by_cases marked : a ∈ slotsOf s.heap marks
    · simp [live, marked]
    · simp [live, marked, Nat.add_comm]
  · simp [live]

/-- After a step every slot was finalized at most once exactly if a collection marks live slots only. -/
lemma gcStep_iff (fits : Fits stype) {e : GcEvent} (h : GcInv stype s) (once : FinalizedOnce s)
    (hs : gcStep stype s e = some s') :
    (FinalizedOnce s' ↔ MarksAllocated s e) ∧ (MarksAllocated s e → GcInv stype s') := by
  -- all but a collection keep everything
  have quiet : GcInv stype s' → s'.collections = s.collections → MarksAllocated s e →
      (FinalizedOnce s' ↔ MarksAllocated s e) ∧ (MarksAllocated s e → GcInv stype s') := by
    intro inv cs cond
    refine ⟨iff_of_true ⟨?_, inv.atMost⟩ cond, fun _ => inv⟩
    rw [cs]
    exact once.exact
  cases e with
  | alloc =>
    obtain ⟨inv, cs⟩ := h.alloc fits hs
    exact quiet inv cs trivial
  | free p =>
    obtain ⟨inv, cs⟩ := h.free fits hs
    exact quiet inv cs trivial
  | pageAlloc =>
    obtain ⟨heap, hp, rfl⟩ := Option.map_eq_some_iff.mp hs
    refine quiet (h.page fits hp ?_) rfl trivial
    obtain ⟨⟨p, heap'⟩, ha, rfl⟩ := Option.map_eq_some_iff.mp hp
    exact (h.heap.pageHeapAlloc ha).2.2.1
  | pageFree p =>
    obtain ⟨heap, hp, rfl⟩ := Option.map_eq_some_iff.mp hs
    refine quiet (h.page fits hp ?_) rfl trivial
    rw [step] at hp
    split at hp
    · cases hp
      rfl
    · cases hp
  | collect marks =>
    obtain ⟨⟨finalized, heap⟩, hc, rfl⟩ := Option.map_eq_some_iff.mp hs
    have c := collect_spec h.heap fits hc
    refine ⟨⟨fun once' => ?_, fun allocated => ⟨?_, ?_⟩⟩, fun allocated => ?_⟩
    · exact (c.exact_iff h.heap fits).mp (once'.exact _ List.mem_cons_self)
    · intro x hx
      rcases List.mem_cons.mp hx with rfl | hx
      · exact (c.exact_iff h.heap fits).mpr allocated
      · exact once.exact x hx
    · exact (h.collect fits c allocated []).atMost
    · exact h.collect fits c allocated _

end Runs

/-- For the element sizes that fit, the finalizer runs exactly when it should, throughout a run, if and
    only if no collection of the run marks a slot that is free. -/
theorem finalizedOnce_always_iff (stype : SlabType) (h0 : 0 < stype.esize.toNat)
    (small : stype.esize.toNat < 2 ^ 29) (boot : Boot) (events : List GcEvent) :
    Always (gcStep stype) FinalizedOnce (gcStart boot) events ↔
      Meets (gcStep stype) MarksAllocated (gcStart boot) events := by
  have fits := fits_of_lt h0 small
  apply always_iff_meets (I := GcInv stype)
  · intro s e s' h once hs
    exact (gcStep_iff fits h once hs).1
  · intro s e s' h once hs
    exact (gcStep_iff fits h once hs).2
  · exact ⟨inv_start boot, fun a => rfl⟩
  · exact ⟨nofun, fun a => Nat.le_refl _⟩

/-- Two slots of eight bytes are allocated, and a collection marks none. -/
theorem finalizedOnce_unmarked :
    Always (gcStep ⟨0x1000, 8⟩) FinalizedOnce (gcStart ⟨0xc0400000, 0xc0400000, Nat.le_refl _, rfl, by decide⟩)
      [.alloc, .alloc, .collect []] :=
  (finalizedOnce_always_iff ⟨0x1000, 8⟩ (by decide) (by decide) _ _).mpr
    fun _ _ => ⟨trivial, fun _ _ => ⟨trivial, fun _ _ => ⟨nofun, trivial⟩⟩⟩

/-- A slot is allocated and freed, and a collection finds a stale pointer to it: the finalizer runs twice. -/
theorem stale_pointer_finalized_twice :
    ∃ s, exec (gcStep ⟨0x1000, 8⟩) (gcStart ⟨0xc0400000, 0xc0400000, Nat.le_refl _, rfl, by decide⟩)
        [.alloc, .free 0xc040009c, .collect [0xc040009c]] = some s ∧
      s.allocs = [0xc040009c] ∧ s.finals = [0xc040009c, 0xc040009c] ∧ ¬FinalizedOnce s := by
  have run : (exec (gcStep ⟨0x1000, 8⟩)
      (gcStart ⟨0xc0400000, 0xc0400000, Nat.le_refl _, rfl, by decide⟩)
      [.alloc, .free 0xc040009c, .collect [0xc040009c]]).map (fun s => (s.allocs, s.finals)) =
      some ([0xc040009c], [0xc040009c, 0xc040009c]) := by
    decide +kernel
  obtain ⟨s, hs, e⟩ := Option.map_eq_some_iff.mp run
  obtain ⟨allocs, finals⟩ := Prod.ext_iff.mp e
  refine ⟨s, hs, allocs, finals, fun once => ?_⟩
  have count := once.atMost 0xc040009c
  rw [show s.allocs = _ from allocs, show s.finals = _ from finals] at count
  exact absurd count (by decide)

end Twcos.Heap
