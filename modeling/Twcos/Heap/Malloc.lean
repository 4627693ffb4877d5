import Twcos.Heap.Pools

/-!
# malloc

Model of `malloc` and `realloc` of `libk/slab.c`: a request goes to the first of the `pools` whose elements are larger.
The elements of the last pool do not fit into a page behind the header, so that its slabs have no slots at all;
`malloc_iff` says which requests are served in the states that the kernel can reach.

What is in memory may change in any way between the calls. A collection may be given pointers to anything, and what it
finds taken counts as allocated from then on. Each page of the heap is taken to have a frame, as in `Twcos.Heap.Alloc`.

C → Lean naming: `pools` → `sizes` (the element sizes) and `pools`; the loop of `malloc` over the pools is `poolFor`.
-/

namespace Twcos.Heap
open Twcos.Prog

/-- The element sizes of `pools`. -/
def sizes : List (BitVec 32) :=
  [8, 12, 16, 24, 32, 48, 64, 96, 128, 196, 256, 384, 512, 768, 1024, 1536, (4096 - 2 * 4) / 2, 4096 - 2 * 4]

/-- `pools`, an array at the given address; `sizeof(slab_type_t)` is 32. -/
def pools (addr : BitVec 32) (i : Fin sizes.length) : SlabType := ⟨addr + 32 * BitVec.ofNat 32 i, sizes.get i⟩

/-- The pools with the rest of the heap. -/
abbrev Malloc := Pools sizes.length

/-- The loop of `malloc`. -/
def poolFor (addr size : BitVec 32) : Option (Fin sizes.length) :=
  (List.finRange sizes.length).find? fun i => (pools addr i).esize > size

def malloc (addr size : BitVec 32) : Prog Fault Malloc Nat :=
  match poolFor addr size with
  | some i => Pools.slabAlloc (pools addr) i
  | none => raise .allocationTooBig

/-- The heap with the slabs of all types. -/
def Pools.region {n : Nat} (s : Pools n) : Region := ⟨s.base, s.nextalloc, (List.finRange n).flatMap s.slabs⟩

/-- `memcpy` between blocks that do not overlap. -/
def memcpy (memory : Nat → BitVec 8) (dst src n : Nat) : Nat → BitVec 8 := fun x =>
  if dst ≤ x ∧ x < dst + n then memory (src + (x - dst)) else memory x

def realloc (addr : BitVec 32) (p : Nat) (size : BitVec 32) : Prog Fault Malloc Nat :=
  if p = 0 then malloc addr size else do
    match ← asks fun s => s.region.slabGet p with
    | some slab =>
      if size ≤ slab.type.esize then return p
      else do
        let new ← malloc addr size
        update fun s => { s with memory := memcpy s.memory new p slab.type.esize.toNat }
        return new
    | none => raise .panic

/-! ### The states of the heap -/

/-- The slots of some slabs that are not available. -/
def Taken (stype : SlabType) (slabs : List Slab) (live : List (Nat × Nat)) : Prop :=
  live.Nodup ∧ ∀ a, a ∈ live ↔ ∃ slab ∈ slabs, ∃ k < stype.count, slab.available.test k = false ∧
    a = (slab.slot k, slab.page)

/-- What can happen to the heap: a call, another user who takes or gives back a page, a collection, or any change of
    the bytes in memory. The pools have no finalizers. -/
inductive Step (addr : BitVec 32) : Malloc → Malloc → Prop where
  | malloc {s s' : Malloc} {size : BitVec 32} {p : Nat} :
    Returns (malloc addr size) s p s' →
    Step addr s s'
  | realloc {s s' : Malloc} {size : BitVec 32} {p e q : Nat} :
    p = 0 ∨ s.Holds (pools addr) p e →
    Returns (realloc addr p size) s q s' →
    Step addr s s'
  | free {s : Malloc} {i : Fin sizes.length} {p : Nat} {t : State} :
    p ∈ (s.live i).map Prod.fst →
    slabFree (s.view i) p = some t →
    Step addr s (s.put i t.slabs t.live)
  | pageAlloc {s s' : Malloc} {p : Nat} :
    s.pageHeapAlloc = some (p, s') →
    Step addr s { s' with others := p :: s'.others }
  | pageFree {s : Malloc} {p : Nat} :
    p ∈ s.others →
    Step addr s { s with heap_cache := p :: s.heap_cache, others := s.others.erase p }
  | collect {s : Malloc} {marks : List Nat} {t : Fin sizes.length → State} {live : Fin sizes.length → List (Nat × Nat)} :
    (∀ i, marks.foldlM slabMark { s.view i with toRegion := (s.view i).slabGcBegin } = some (t i)) →
    (∀ i, Taken (pools addr i) (t i).slabs (live i)) →
    Step addr s { s with slabs := fun i => (t i).slabs, live := live }
  | write {s : Malloc} (memory : Nat → BitVec 8) :
    Step addr s { s with memory := memory }

/-- The states of the heap after `bootstrap_finish`. -/
inductive Reached (addr : BitVec 32) (boot : Boot) : Malloc → Prop where
  | start (memory : Nat → BitVec 8) :
    Reached addr boot ⟨boot.base, boot.next, [], [], fun _ => [], fun _ => [], memory⟩
  | step {s s' : Malloc} :
    Reached addr boot s →
    Step addr s s' →
    Reached addr boot s'

/-- What a call of `malloc` returns: a block of the size in one page, apart from all other blocks and from the pages in
    other use, which stay allocated. -/
def Grants (addr size : BitVec 32) (s : Malloc) (p : Nat) (s' : Malloc) : Prop :=
  ∃ e, size.toNat ≤ e ∧ s'.Holds (pools addr) p e ∧ (∃ page, page % 4096 = 0 ∧ page ≤ p ∧ p + e ≤ page + 4096) ∧
    (∀ q d, s.Holds (pools addr) q d → s'.Holds (pools addr) q d ∧ (p + e ≤ q ∨ q + d ≤ p)) ∧
    ∀ q ∈ s.others, q ∈ s'.others ∧ (p + e ≤ q ∨ q + 4096 ≤ p)

/-- The request is served, or it is at least the largest element size and `AllocationTooBigException` is thrown. -/
def Serves (addr size : BitVec 32) (s : Malloc) : Prop :=
  (∃ p s', Returns (malloc addr size) s p s' ∧ Grants addr size s p s') ∨
    Raises (malloc addr size) s .allocationTooBig ∧ 4096 - 2 * 4 ≤ size.toNat

/-- The block at `p` is replaced by one of the size that starts with the same bytes. -/
def Resizes (addr size : BitVec 32) (s : Malloc) (p e : Nat) : Prop :=
  ∃ q s' d, Returns (realloc addr p size) s q s' ∧ s'.Holds (pools addr) q d ∧ size.toNat ≤ d ∧
    ∀ k < min e size.toNat, s'.memory (q + k) = s.memory (p + k)

/-- The pool for the request has an available slot, or the heap has a page. -/
def Pools.HasRoom (addr size : BitVec 32) (s : Malloc) : Prop :=
  (∃ i, poolFor addr size = some i ∧ s.HasSlot (pools addr) i) ∨ s.HasPage

/-! ### The pools -/

section Classes
variable {addr size : BitVec 32}

/-- The sizes of the pools. -/
lemma sizes_range : ∀ i : Fin sizes.length, 8 ≤ (sizes.get i).toNat ∧ (sizes.get i).toNat ≤ 4088 := by
  decide

/-- The two largest element sizes. -/
lemma sizes_last : ∀ i : Fin sizes.length, (sizes.get i).toNat = 4088 ∨
    (sizes.get i).toNat ≤ 2044 ∧ i.val < 17 := by
  decide

/-- In no pool the number of slots wraps around. -/
lemma pools_fits (i : Fin sizes.length) : Fits (pools addr i) := by
  obtain ⟨lo, hi⟩ := sizes_range i
  apply fits_of_lt
  · show 0 < (sizes.get i).toNat
    omega
  · show (sizes.get i).toNat < 2 ^ 29
    omega

/-- Only the elements of the last pool do not fit. -/
lemma pools_count (i : Fin sizes.length) : (pools addr i).count = 0 ↔ (sizes.get i).toNat = 4088 := by
  have count : (pools addr i).count = 32480 / ((8 * (sizes.get i).toNat + 2) % 2 ^ 32) := count_eq _
  obtain ⟨lo, hi⟩ := sizes_range i
  rw [Nat.mod_eq_of_lt (by omega)] at count
  rw [count, Nat.div_eq_zero_iff]
  rcases sizes_last i with e | ⟨le, -⟩
  · omega
  · omega

/-- A pool that is found is the first one with larger elements. -/
lemma poolFor_some {i : Fin sizes.length} (h : poolFor addr size = some i) :
    size.toNat < (sizes.get i).toNat ∧ ∀ j < i, (sizes.get j).toNat ≤ size.toNat := by
  obtain ⟨found, k, hk, e, first⟩ := List.find?_eq_some_iff_getElem.mp h
  rw [List.getElem_finRange] at e
  constructor
  · simpa [BitVec.lt_def, pools] using found
  · intro j hj
    have lt : j.val < k := by
      have := congrArg Fin.val e
      simp only [Fin.val_cast] at this
      omega
    have no := first j lt
    rw [List.getElem_finRange] at no
    simpa [BitVec.lt_def, pools] using no

/-- There is no pool for the largest sizes. -/
lemma poolFor_none (h : poolFor addr size = none) : 4088 ≤ size.toNat := by
  have no := List.find?_eq_none.mp h ⟨17, by decide⟩ (List.mem_finRange _)
  rw [decide_eq_true_iff] at no
  have le := BitVec.le_def.mp (BitVec.not_lt.mp no)
  exact le

end Classes

/-! ### The calls -/

section Calls
variable {addr size : BitVec 32} {s s' : Malloc}

/-- A request for less than the elements of the last pool but one. -/
lemma malloc_small (h : PoolsInv (pools addr) s) (small : size.toNat < 2044) (room : s.HasRoom addr size) :
    ∃ i p s', poolFor addr size = some i ∧ Returns (malloc addr size) s p s' ∧ Allocated (pools addr) i s p s' := by
  cases hp : poolFor addr size with
  | none =>
    have := poolFor_none hp
    omega
  | some i =>
    obtain ⟨larger, first⟩ := poolFor_some hp
    have count : 0 < (pools addr i).count := by
      rw [Nat.pos_iff_ne_zero, Ne, pools_count]
      intro last
      -- the pool before the last one is large enough
      have before : (⟨16, by decide⟩ : Fin sizes.length) < i := by
        rcases sizes_last i with - | ⟨le, -⟩
        · rw [Fin.lt_def]
          by_contra le
          have lt17 : ∀ j : Fin sizes.length, j.val ≤ 16 → (sizes.get j).toNat ≠ 4088 := by decide
          exact lt17 i (Nat.not_lt.mp le) last
        · omega
      have := first _ before
      have e : (sizes.get ⟨16, by decide⟩).toNat = 2044 := by decide
      omega
    have room' : s.HasSlot (pools addr) i ∨ s.HasPage := by
      rcases room with ⟨j, hj, slot⟩ | page
      · cases hp.symm.trans hj
        exact .inl slot
      · exact .inr page
    obtain ⟨p, s', run, a⟩ := slabAlloc_spec h (pools_fits i) count room'
    refine ⟨i, p, s', rfl, ?_, a⟩
    rw [malloc, hp]
    exact run

/-- No page is left, or every page is taken for slabs without slots. -/
lemma malloc_noPage (h : PoolsInv (pools addr) s) (small : size.toNat < 4088)
    (no : 2044 ≤ size.toNat ∨ ¬s.HasRoom addr size) : Raises (malloc addr size) s .noPage := by
  cases hp : poolFor addr size with
  | none =>
    have := poolFor_none hp
    omega
  | some i =>
    obtain ⟨larger, -⟩ := poolFor_some hp
    rw [malloc, hp]
    rcases no with large | full
    · apply slabAlloc_noPage h
      rw [pools_count]
      rcases sizes_last i with e | ⟨le, -⟩
      · exact e
      · omega
    · apply slabAlloc_full h
      · intro slot
        exact full (.inl ⟨i, hp, slot⟩)
      · intro page
        exact full (.inr page)

/-- `malloc` throws for the largest sizes. -/
lemma malloc_large (large : 4088 ≤ size.toNat) : Raises (malloc addr size) s .allocationTooBig := by
  cases hp : poolFor addr size with
  | none =>
    rw [malloc, hp]
    exact ⟨0, fun _ _ => rfl⟩
  | some i =>
    obtain ⟨larger, -⟩ := poolFor_some hp
    have := (sizes_range i).2
    omega

/-- `slab_get` finds the slab of an allocated block. -/
lemma PoolsInv.slabGet (h : PoolsInv (pools addr) s) {i : Fin sizes.length} {a : Nat × Nat} (ha : a ∈ s.live i) :
    ∃ slab, s.region.slabGet a.1 = some slab ∧ slab.type = pools addr i := by
  obtain ⟨slab, hs, get, -⟩ := (h i).slabGet_live (pools_fits i) ha
  refine ⟨slab, ?_, ((h i).type slab hs).1⟩
  rw [Region.slabGet] at get
  split at get
  · next range =>
    have found := List.find?_some get
    rw [decide_eq_true_iff] at found
    have nodup : (s.region.slabs.map Slab.page).Nodup := by
      have pages := (view_pages s i).nodup_iff.mp (h i).pages
      have last := (List.nodup_append.mp pages).2.1
      rwa [Pools.region, List.map_flatMap]
    exact Region.slabGet_of_owns nodup (List.mem_flatMap.mpr ⟨i, List.mem_finRange i, hs⟩) range found.1 found.2
  · cases get

/-- A call of `malloc` that returns. -/
lemma malloc_returns (h : PoolsInv (pools addr) s) {p : Nat} (run : Returns (malloc addr size) s p s') :
    size.toNat < 2044 ∧ s.HasRoom addr size ∧ ∃ i, poolFor addr size = some i ∧ Allocated (pools addr) i s p s' := by
  rcases Nat.lt_or_ge size.toNat 4088 with small | large
  · by_cases ok : size.toNat < 2044 ∧ s.HasRoom addr size
    · obtain ⟨i, q, t, hi, run', a⟩ := malloc_small h ok.1 ok.2
      obtain ⟨rfl, rfl⟩ := run.unique run'
      exact ⟨ok.1, ok.2, i, hi, a⟩
    · have no : 2044 ≤ size.toNat ∨ ¬s.HasRoom addr size := by
        rw [not_and_or, Nat.not_lt] at ok
        exact ok
      exact absurd run (malloc_noPage h small no).not_returns
  · exact absurd run (malloc_large large).not_returns

/-- `malloc` comes to its end. -/
lemma malloc_ends (h : PoolsInv (pools addr) s) :
    (∃ p s', Returns (malloc addr size) s p s' ∧ PoolsInv (pools addr) s') ∨ ∃ e, Raises (malloc addr size) s e := by
  rcases Nat.lt_or_ge size.toNat 4088 with small | large
  · by_cases ok : size.toNat < 2044 ∧ s.HasRoom addr size
    · obtain ⟨i, p, s', -, run, a⟩ := malloc_small h ok.1 ok.2
      exact .inl ⟨p, s', run, a.inv⟩
    · rw [not_and_or, Nat.not_lt] at ok
      exact .inr ⟨_, malloc_noPage h small ok⟩
  · exact .inr ⟨_, malloc_large large⟩

/-- The blocks after an allocation. -/
lemma Allocated.mem_live {types : Fin sizes.length → SlabType} {i j : Fin sizes.length} {p : Nat}
    (a : Allocated types i s p s') {b : Nat × Nat} (hb : b ∈ s.live j) : b ∈ s'.live j := by
  obtain ⟨page, live⟩ := a.live
  rw [live]
  by_cases e : j = i
  · subst e
    rw [Function.update_self]
    exact List.mem_cons_of_mem _ hb
  · rw [Function.update_of_ne e]
    exact hb

/-- A slot of a pool has the bytes that are asked for. -/
lemma Allocated.grants {i : Fin sizes.length} {p : Nat} (a : Allocated (pools addr) i s p s')
    (hi : poolFor addr size = some i) : Grants addr size s p s' := by
  obtain ⟨page, live⟩ := a.live
  have live' : s'.live i = (p, page) :: s.live i := by
    rw [live, Function.update_self]
  have mem : (p, page) ∈ s'.live i := by
    rw [live']
    exact List.mem_cons_self
  have nodup := (a.inv i).live
  have view : (s'.view i).live = (p, page) :: s.live i := live'
  rw [view, List.nodup_cons] at nodup
  obtain ⟨-, aligned, lo, hi'⟩ := a.inv.inside (pools_fits i) mem
  refine ⟨(pools addr i).esize.toNat, ?_, ⟨i, _, mem, rfl, rfl⟩, ⟨page, aligned, Nat.le_of_lt lo, hi'⟩, ?_, ?_⟩
  · exact Nat.le_of_lt (poolFor_some hi).1
  · rintro q d ⟨j, b, hb, rfl, rfl⟩
    refine ⟨⟨j, b, a.mem_live hb, rfl, rfl⟩, ?_⟩
    apply a.inv.apart (pools_fits i) (pools_fits j) mem (a.mem_live hb)
    rintro rfl rfl
    exact nodup.1 hb
  · intro q hq
    rw [← a.others] at hq
    exact ⟨hq, a.inv.apart_others (pools_fits i) mem hq⟩

/-- The block is large enough already. -/
lemma realloc_same (h : PoolsInv (pools addr) s) {i : Fin sizes.length} {a : Nat × Nat} (ha : a ∈ s.live i)
    (le : size.toNat ≤ (pools addr i).esize.toNat) : Returns (realloc addr a.1 size) s a.1 s := by
  obtain ⟨slab, get, type⟩ := h.slabGet ha
  have lt := (h.inside (pools_fits i) ha).2.2.1
  rw [realloc, if_neg (Nat.ne_of_gt (Nat.zero_lt_of_lt lt))]
  apply Returns.bind (.asks _ s)
  rw [get]
  apply Returns.ite_pos _ (.pure _ _)
  rw [type]
  exact BitVec.le_def.mpr le

/-- A block that is too small is copied. -/
lemma realloc_more (h : PoolsInv (pools addr) s) {i : Fin sizes.length} {a : Nat × Nat} (ha : a ∈ s.live i)
    (gt : (pools addr i).esize.toNat < size.toNat) :
    (∀ q s', Returns (malloc addr size) s q s' → Returns (realloc addr a.1 size) s q
      { s' with memory := memcpy s'.memory q a.1 (pools addr i).esize.toNat }) ∧
    ∀ e, Raises (malloc addr size) s e → Raises (realloc addr a.1 size) s e := by
  obtain ⟨slab, get, type⟩ := h.slabGet ha
  have lt := (h.inside (pools_fits i) ha).2.2.1
  have no : ¬size ≤ slab.type.esize := by
    rw [type, BitVec.le_def]
    omega
  rw [realloc, if_neg (Nat.ne_of_gt (Nat.zero_lt_of_lt lt))]
  constructor
  · intro q s' run
    apply Returns.bind (.asks _ s)
    rw [get]
    apply Returns.ite_neg no
    rw [← type]
    exact .bind run (.bind (.update _ s') (.pure _ _))
  · intro e run
    apply Raises.rest (.asks _ s)
    rw [get]
    dsimp only
    rw [if_neg no]
    exact .first run

/-! ### The steps keep the invariant -/

/-- `realloc` keeps the invariant. -/
lemma PoolsInv.realloc (h : PoolsInv (pools addr) s) {p e q : Nat} (held : p = 0 ∨ s.Holds (pools addr) p e)
    (run : Returns (realloc addr p size) s q s') : PoolsInv (pools addr) s' := by
  rcases held with rfl | ⟨i, a, ha, rfl, -⟩
  · rw [Heap.realloc, if_pos rfl] at run
    obtain ⟨-, -, i, -, b⟩ := malloc_returns h run
    exact b.inv
  · rcases Nat.lt_or_ge (pools addr i).esize.toNat size.toNat with gt | le
    · obtain ⟨returns, raises⟩ := realloc_more h ha gt
      rcases @malloc_ends addr size _ h with ⟨q', t, run', inv⟩ | ⟨f, run'⟩
      · obtain ⟨-, rfl⟩ := run.unique (returns q' t run')
        exact inv
      · exact absurd run (raises f run').not_returns
    · obtain ⟨-, rfl⟩ := run.unique (realloc_same h ha le)
      exact h

/-- `free` keeps the invariant. -/
lemma PoolsInv.free (h : PoolsInv (pools addr) s) {i : Fin sizes.length} {p : Nat} {t : State}
    (live : p ∈ (s.live i).map Prod.fst) (hf : slabFree (s.view i) p = some t) :
    PoolsInv (pools addr) (s.put i t.slabs t.live) := by
  have inv := (h i).slabFree (pools_fits i) live hf
  have same : t = { s.view i with slabs := t.slabs, live := t.live } := by
    rw [slabFree] at hf
    split at hf
    · cases hf
      rfl
    · split at hf
      · cases hf
      · cases hf
        rfl
  rw [same] at inv
  exact h.put inv

/-- Taking a page of the heap keeps the invariant. -/
lemma PoolsInv.pageAlloc (h : PoolsInv (pools addr) s) {p : Nat} (hp : s.pageHeapAlloc = some (p, s')) :
    PoolsInv (pools addr) { s' with others := p :: s'.others } := by
  intro i
  apply (h i).step (pools_fits i) (e := .pageAlloc)
  rw [Heap.step, (view_pageHeapAlloc hp i).1]
  rfl

/-- Giving a page back keeps the invariant. -/
lemma PoolsInv.pageFree (h : PoolsInv (pools addr) s) {p : Nat} (hp : p ∈ s.others) :
    PoolsInv (pools addr) { s with heap_cache := p :: s.heap_cache, others := s.others.erase p } := by
  intro i
  have inv := (h i).pageFree (p := p) (List.mem_append_left _ hp)
  have erase : (s.view i).others.erase p = s.others.erase p ++ ((List.finRange sizes.length).erase i).flatMap s.pagesOf :=
    List.erase_append_left _ hp
  rw [erase] at inv
  exact inv

/-- After a collection the slots that are not available are exactly those that count as allocated. -/
lemma Marking.inv {stype : SlabType} {s t : State} {marks : List Nat} (h : Inv stype s) (hm : Marking stype s marks t)
    (fits : Fits stype) {live : List (Nat × Nat)} (taken : Taken stype t.slabs live) :
    Inv stype { s with slabs := t.slabs, live := live } ∧ t.slabs.map Slab.page = s.slabs.map Slab.page := by
  obtain ⟨g, rfl, bits⟩ := hm
  have pages : (s.slabs.map fun x => x.during (g x)).map Slab.page = s.slabs.map Slab.page := by
    rw [List.map_map]
    rfl
  have inside : ∀ {x}, x ∈ s.slabs → ∀ {k}, k < stype.count → pageAlign (x.slot k) = x.page := by
    intro x hx k hk
    exact h.pageAlign_slot fits hx hk
  refine ⟨?_, pages⟩
  constructor
  · exact h.next
  · exact h.top
  · exact h.base
  · show ∀ q ∈ s.heap_cache ++ s.others ++ (s.slabs.map fun x => x.during (g x)).map Slab.page, _
    rw [pages]
    exact h.page
  · show (s.heap_cache ++ s.others ++ (s.slabs.map fun x => x.during (g x)).map Slab.page).Nodup
    rw [pages]
    exact h.pages
  · intro y hy
    obtain ⟨x, hx, rfl⟩ := List.mem_map.mp hy
    exact h.type x hx
  · intro y hy k
    obtain ⟨x, hx, rfl⟩ := List.mem_map.mp hy
    show (g x).test k = true ↔ k < stype.count ∧ (x.slot k, x.page) ∉ live
    constructor
    · intro test
      obtain ⟨hk, -⟩ := (bits x hx k).mp test
      refine ⟨hk, fun mem => ?_⟩
      obtain ⟨z, hz, l, hl, off, e⟩ := (taken.2 _).mp mem
      obtain ⟨w, hw, rfl⟩ := List.mem_map.mp hz
      obtain ⟨slot, page⟩ := Prod.ext_iff.mp e
      cases h.slab_unique hx hw page
      obtain ⟨-, -, top⟩ := h.slabPage hx
      have top' := h.top
      cases slot_inj fits (h.type x hx).1 (by omega) hk hl slot
      cases test.symm.trans off
    · intro ⟨hk, free⟩
      by_contra off
      rw [Bool.not_eq_true] at off
      exact free ((taken.2 _).mpr ⟨_, List.mem_map_of_mem hx, k, hk, off, rfl⟩)
  · intro a ha
    obtain ⟨z, hz, l, hl, -, rfl⟩ := (taken.2 a).mp ha
    exact ⟨z, hz, rfl, l, hl, rfl⟩
  · exact taken.1

/-- A collection keeps the invariant. -/
lemma PoolsInv.collect (h : PoolsInv (pools addr) s) {marks : List Nat} {t : Fin sizes.length → State}
    {live : Fin sizes.length → List (Nat × Nat)}
    (hm : ∀ i, marks.foldlM slabMark { s.view i with toRegion := (s.view i).slabGcBegin } = some (t i))
    (taken : ∀ i, Taken (pools addr i) (t i).slabs (live i)) :
    PoolsInv (pools addr) { s with slabs := fun i => (t i).slabs, live := live } := by
  have inv : ∀ i, Inv (pools addr i) { s.view i with slabs := (t i).slabs, live := live i } ∧
      (t i).slabs.map Slab.page = (s.slabs i).map Slab.page := by
    intro i
    exact ((marking_begin (h i)).fold (h i) (hm i)).inv (h i) (pools_fits i) (taken i)
  intro i
  have pages : Pools.pagesOf { s with slabs := fun i => (t i).slabs, live := live } = s.pagesOf := by
    funext j
    exact (inv j).2
  have inv' := (inv i).1
  rw [Pools.view, pages]
  exact inv'

/-- Every step keeps the invariant. -/
lemma PoolsInv.step (h : PoolsInv (pools addr) s) (hs : Step addr s s') : PoolsInv (pools addr) s' := by
  cases hs with
  | malloc run =>
    obtain ⟨-, -, i, -, a⟩ := malloc_returns h run
    exact a.inv
  | realloc held run => exact h.realloc held run
  | free live hf => exact h.free live hf
  | pageAlloc hp => exact h.pageAlloc hp
  | pageFree hp => exact h.pageFree hp
  | collect hm taken => exact h.collect hm taken
  | write memory => exact h

/-- The invariant holds in every state. -/
lemma Reached.inv {boot : Boot} (h : Reached addr boot s) : PoolsInv (pools addr) s := by
  induction h with
  | start memory =>
    intro i
    have pages : State.pages (Pools.view ⟨boot.base, boot.next, [], [], fun _ => [], fun _ => [], memory⟩ i) = [] := by
      show [] ++ ([] ++ ((List.finRange sizes.length).erase i).flatMap fun _ => []) ++ [] = []
      simp
    have start := @inv_start (pools addr i) boot
    refine ⟨start.next, start.top, start.base, ?_, ?_, start.type, start.bits, start.owned, start.live⟩
    · rw [pages]
      exact start.page
    · rw [pages]
      exact start.pages
  | step _ hs ih => exact ih.step hs

/-! ### Which requests are served -/

/-- A size is served if it is too large or if a pool that works has room. -/
lemma serving_iff (h : PoolsInv (pools addr) s) :
    Serves addr size s ↔ 4088 ≤ size.toNat ∨ size.toNat < 2044 ∧ s.HasRoom addr size := by
  constructor
  · rintro (⟨p, s', run, -⟩ | ⟨-, large⟩)
    · obtain ⟨small, room, -⟩ := malloc_returns h run
      exact .inr ⟨small, room⟩
    · exact .inl large
  · rintro (large | ⟨small, room⟩)
    · exact .inr ⟨malloc_large large, large⟩
    · obtain ⟨i, p, s', hi, run, a⟩ := malloc_small h small room
      exact .inl ⟨p, s', run, a.grants hi⟩

/-- The bytes of an allocated block stay during an allocation. -/
lemma Allocated.bytes (h : PoolsInv (pools addr) s) {i j : Fin sizes.length} {p : Nat}
    (a : Allocated (pools addr) i s p s') {b : Nat × Nat} (hb : b ∈ s.live j) {k : Nat}
    (hk : k < (pools addr j).esize.toNat) : s'.memory (b.1 + k) = s.memory (b.1 + k) := by
  obtain ⟨page, -, lo, hi⟩ := h.inside (pools_fits j) hb
  obtain ⟨slab, hs, e⟩ := List.mem_map.mp page
  apply a.memory j slab hs
  · omega
  · omega

/-- When `realloc` succeeds. -/
lemma resizes_iff (h : PoolsInv (pools addr) s) {p e : Nat} (held : s.Holds (pools addr) p e) :
    Resizes addr size s p e ↔ size.toNat ≤ e ∨ size.toNat < 2044 ∧ s.HasRoom addr size := by
  obtain ⟨i, a, ha, rfl, rfl⟩ := held
  rcases Nat.lt_or_ge (pools addr i).esize.toNat size.toNat with gt | le
  · obtain ⟨returns, raises⟩ := realloc_more h ha gt
    by_cases ok : size.toNat < 2044 ∧ s.HasRoom addr size
    · refine iff_of_true ?_ (.inr ok)
      obtain ⟨j, q, s', hj, run, b⟩ := malloc_small h ok.1 ok.2
      obtain ⟨d, large, held, -⟩ := b.grants hj
      refine ⟨q, _, d, returns q s' run, held, large, fun k hk => ?_⟩
      have hk' : k < (pools addr i).esize.toNat := Nat.lt_of_lt_of_le hk (Nat.min_le_left _ _)
      rw [← b.bytes h ha hk']
      show memcpy s'.memory q a.1 _ (q + k) = _
      rw [memcpy, if_pos (by omega), Nat.add_sub_cancel_left]
    · apply iff_of_false
      · rintro ⟨q, s', d, run, -⟩
        rcases @malloc_ends addr size _ h with ⟨q', t, run', -⟩ | ⟨f, run'⟩
        · obtain ⟨small, room, -⟩ := malloc_returns h run'
          exact ok ⟨small, room⟩
        · exact (raises f run').not_returns run
      · rintro (le | ok')
        · omega
        · exact ok ok'
  · refine iff_of_true ?_ (.inl le)
    exact ⟨a.1, s, _, realloc_same h ha le, ⟨i, a, ha, rfl, rfl⟩, le, fun _ _ => rfl⟩

end Calls

/-- In every state of the heap, `malloc` serves a request or refuses it with `AllocationTooBigException` unless the request
    is for 2044 to 4087 bytes, and `realloc` gives a block of the size that starts with the old bytes unless the old
    block is too small and the new one would take such a request, or a larger one. -/
theorem malloc_iff (addr : BitVec 32) (boot : Boot) {s : Malloc} (h : Reached addr boot s) (size : BitVec 32) :
    (Serves addr size s ↔ 4088 ≤ size.toNat ∨ size.toNat < 2044 ∧ s.HasRoom addr size) ∧
      ∀ p e, s.Holds (pools addr) p e →
        (Resizes addr size s p e ↔ size.toNat ≤ e ∨ size.toNat < 2044 ∧ s.HasRoom addr size) :=
  ⟨serving_iff h.inv, fun _ _ held => resizes_iff h.inv held⟩

/-- The heap when nothing has been allocated. -/
def emptyHeap : Malloc := ⟨0xc0400000, 0xc0400000, [], [], fun _ => [], fun _ => [], fun _ => 0⟩

/-- A heap before its first allocation. -/
lemma emptyHeap_reached :
    Reached 0xc0110000 ⟨0xc0400000, 0xc0400000, Nat.le_refl _, rfl, by decide⟩ emptyHeap :=
  .start fun _ => 0

/-- The first request of the kernel, for a hundred bytes. -/
theorem malloc_hundred : Serves 0xc0110000 100 emptyHeap :=
  ((malloc_iff 0xc0110000 _ emptyHeap_reached 100).1).mpr (.inr ⟨by decide, .inr (.inr (by decide))⟩)

/-- A request for 3000 bytes takes every page of the heap. -/
theorem malloc_3000_takes_all :
    Raises (malloc 0xc0110000 3000) emptyHeap .noPage ∧ ¬Serves 0xc0110000 3000 emptyHeap := by
  constructor
  · exact malloc_noPage emptyHeap_reached.inv (by decide) (.inl (by decide))
  · rw [serving_iff emptyHeap_reached.inv]
    rintro (large | ⟨small, -⟩)
    · exact absurd large (by decide)
    · exact absurd small (by decide)

end Twcos.Heap
