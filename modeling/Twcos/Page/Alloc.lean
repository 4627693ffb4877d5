import Mathlib.Data.Finset.Card
import Twcos.Bitmap.Basic
import Twcos.Run.Basic

/-!
# Physical pages

Model of the page allocator of `kernel/core.c`. Each range of memory has a bitmap of its free pages and counts
them. `page_add_range` makes a range without free pages, `page_free` looks for the range of a page from the
first to the last, `page_alloc` for a range with a free page from the last to the first.

Page numbers are 32-bit words, and so is `count`, which is stored in an `int`: the comparisons of `page_free`
and `page_alloc` are signed. The table has room for 32 ranges.

C → Lean naming: `struct kernel_mmap` → `Mmap`; `page_add_range`, `page_free`, `page_alloc` → `pageAddRange`,
`pageFree`, `pageAlloc`; the loops of `page_alloc` over ranges and over a bitmap are `rangesAlloc` and
`pageScan`.
-/

namespace Twcos.Page
open Twcos.Run

/-- A page number. -/
abbrev PageNo := BitVec 32

/-- `struct kernel_mmap`. -/
structure Mmap where
  base : PageNo
  count : BitVec 32
  free : Nat
  available : Bitmap

/-- `bitmapsize` of `page_add_range`. -/
def bitmapsize (count : BitVec 32) : Nat := ((count + 31) / 32).toNat

/-- `page_add_range`; there must be room in the table. -/
def pageAddRange (mmap : List Mmap) (base : PageNo) (count : BitVec 32) : Option (List Mmap) :=
  if mmap.length < 32 then some (mmap ++ [⟨base, count, 0, fun _ => 0⟩]) else none

/-- `p > 0 && p < mmap[i].count` for `int p = page - mmap[i].base`. -/
def Mmap.Accepts (r : Mmap) (page : PageNo) : Prop :=
  0 < (page - r.base).toInt ∧ (page - r.base).toInt < r.count.toInt

instance (r : Mmap) (page : PageNo) : Decidable (r.Accepts page) := inferInstanceAs (Decidable (_ ∧ _))

/-- Marking a page of a range as free. -/
def Mmap.mark (r : Mmap) (page : PageNo) : Mmap :=
  { r with available := r.available.set (page - r.base).toNat, free := r.free + 1 }

/-- `page_free`: the first range that accepts the page. -/
def pageFree (page : PageNo) : List Mmap → List Mmap
  | [] => []
  | r :: rest => if r.Accepts page then r.mark page :: rest else r :: pageFree page rest

/-- The loop of `page_alloc` over the words of a bitmap, from the bit `p` on. It steps by 32, so that one turn
    for each 32 pages is enough. -/
def pageScan (b : Bitmap) (count : Int) : Nat → Nat → Option Nat
  | 0, _ => none
  | turns + 1, p =>
    if (p : Int) < count then
      if b (p / 32) ≠ 0 then
        let bit := Bitmap.firstBit (b (p / 32))
        -- the inner loop has counted 32 pages if no bit is set
        if bit < 32 then some (p + bit) else pageScan b count turns (p + 32 + 32)
      else pageScan b count turns (p + 32)
    else none

/-- Taking a page of a range. -/
def Mmap.take (r : Mmap) : Option (PageNo × Mmap) :=
  if r.free > 0 then
    (pageScan r.available r.count.toInt (r.count.toNat / 32 + 1) 0).map fun p =>
      (r.base + BitVec.ofNat 32 p, { r with available := r.available.clear p, free := r.free - 1 })
  else none

/-- The loop of `page_alloc` over the ranges, from the last one on. -/
def rangesAlloc : List Mmap → Option (PageNo × List Mmap)
  | [] => none
  | r :: rest =>
    match rangesAlloc rest with
    | some (page, rest) => some (page, r :: rest)
    | none => r.take.map fun (page, r) => (page, r :: rest)

/-- `page_alloc`; the page `0` stands for none. -/
def pageAlloc (mmap : List Mmap) : PageNo × List Mmap :=
  match rangesAlloc mmap with
  | some found => found
  | none => (0, mmap)

/-! ### Runs -/

/-- What is known about a page: it was never freed, it was and is free since, or it was allocated since. -/
inductive Usage where
  | reserved
  | free
  | outstanding
deriving DecidableEq

/-- The ranges, and the history of all pages. -/
structure Pages where
  mmap : List Mmap
  usage : PageNo → Usage

/-- The page is one of the range. -/
def Mmap.Has (r : Mmap) (page : PageNo) : Prop := page - r.base < r.count

instance (r : Mmap) (page : PageNo) : Decidable (r.Has page) := inferInstanceAs (Decidable (_ < _))

inductive Event where
  | free (page : PageNo)
  | alloc

/-- `page_free` is given a page of a range that is not free. -/
def step (s : Pages) : Event → Option Pages
  | .free page =>
    if (∃ r ∈ s.mmap, r.Has page) ∧ s.usage page ≠ .free then
      some ⟨pageFree page s.mmap, Function.update s.usage page .free⟩
    else none
  | .alloc =>
    let (page, mmap) := pageAlloc s.mmap
    some ⟨mmap, if page = 0 then s.usage else Function.update s.usage page .outstanding⟩

/-- Ranges that are registered by `page_add_range`, one after the other. -/
def addRanges (ranges : List (PageNo × BitVec 32)) : Option (List Mmap) :=
  ranges.foldlM (fun mmap range => pageAddRange mmap range.1 range.2) []

/-- No page is in two of the ranges. -/
def Disjoint (mmap : List Mmap) : Prop := mmap.Pairwise fun a b => ∀ page, ¬(a.Has page ∧ b.Has page)

/-- The number of bits of a bitmap, of `n` bits, that are set. -/
def bitCount (b : Bitmap) (n : Nat) : Nat := ((Finset.range n).filter fun i => b.test i = true).card

/-- `page_alloc` gives out free pages only, and ranges count the bits of their bitmaps, which are those of their
    pages. -/
structure Sound (s : Pages) : Prop where
  fresh : (pageAlloc s.mmap).1 ≠ 0 → s.usage (pageAlloc s.mmap).1 = .free
  counted : ∀ r ∈ s.mmap, r.free = bitCount r.available (32 * bitmapsize r.count)
  bounded : ∀ r ∈ s.mmap, ∀ i, r.count.toNat ≤ i → r.available.test i = false

/-- The pages that repeated calls of `page_alloc` return. -/
def drain : Nat → List Mmap → List PageNo
  | 0, _ => []
  | n + 1, mmap =>
    let (page, mmap) := pageAlloc mmap
    if page = 0 then [] else page :: drain n mmap

/-- `page_alloc` returns `0` only if no page is free, and repeated calls return each free page once. -/
structure NoneLost (s : Pages) : Prop where
  empty : (pageAlloc s.mmap).1 = 0 → ∀ page, s.usage page ≠ .free
  drained : ∃ N, ∀ n, N ≤ n → (drain n s.mmap).Nodup ∧
    ∀ page, page ∈ drain n s.mmap ↔ s.usage page = .free

/-- The page is not `0`, and not the first one of its range, which has less than `2 ^ 31` pages. -/
def Kept (s : Pages) : Event → Prop
  | .free page => page ≠ 0 ∧ ∃ r ∈ s.mmap, r.Has page ∧ page ≠ r.base ∧ 0 < r.count.toInt
  | .alloc => True

/-! ### Words and indices -/

/-- An `int` that is positive has the value of its bits. -/
lemma toInt_of_pos {x : BitVec 32} (h : 0 < x.toInt) : x.toInt = x.toNat ∧ x.toNat < 2 ^ 31 := by
  rw [BitVec.toInt_eq_toNat_cond] at h ⊢
  have := x.isLt
  split at h
  · rename_i lt
    rw [if_pos lt]
    exact ⟨rfl, by omega⟩
  · omega

/-- An `int` is at most what its bits are as an unsigned number. -/
lemma toInt_le_toNat (x : BitVec 32) : x.toInt ≤ x.toNat := by
  rw [BitVec.toInt_eq_toNat_cond]
  split <;> omega

/-- The bitmap has room for all pages. -/
lemma lt_bitmapsize {count : BitVec 32} {i : Nat} (h : (i : Int) < count.toInt) :
    i < 32 * bitmapsize count := by
  obtain ⟨e, lt⟩ := toInt_of_pos (x := count) (by omega)
  have sum : (count + 31).toNat = count.toNat + 31 := by
    rw [BitVec.toNat_add]
    show (count.toNat + 31) % 2 ^ 32 = _
    omega
  have size : bitmapsize count = (count.toNat + 31) / 32 := by
    rw [bitmapsize, BitVec.toNat_udiv, sum]
    rfl
  rw [size]
  omega

/-- The index of a page that is some pages behind the base. -/
lemma add_ofNat_sub (base : PageNo) {i : Nat} (h : i < 2 ^ 31) :
    (base + BitVec.ofNat 32 i - base).toNat = i := by
  rw [BitVec.add_comm, BitVec.add_sub_cancel, BitVec.toNat_ofNat]
  omega

/-- A page is as many behind the base as its index says. -/
lemma add_sub_ofNat (base page : PageNo) : base + BitVec.ofNat 32 (page - base).toNat = page := by
  rw [BitVec.ofNat_toNat, BitVec.setWidth_eq, BitVec.add_comm, BitVec.sub_add_cancel]

/-- A page that a bit stands for is one of the range. -/
lemma Mmap.has_of_lt {r : Mmap} {i : Nat} (h : (i : Int) < r.count.toInt) :
    r.Has (r.base + BitVec.ofNat 32 i) := by
  obtain ⟨e, lt⟩ := toInt_of_pos (x := r.count) (by omega)
  rw [Mmap.Has, BitVec.lt_def, add_ofNat_sub r.base (by omega)]
  omega

/-! ### Counting bits -/

/-- Setting a bit that is off makes one more. -/
lemma bitCount_set {b : Bitmap} {n i : Nat} (lt : i < n) (off : b.test i = false) :
    bitCount (b.set i) n = bitCount b n + 1 := by
  have new : (Finset.range n).filter (fun j => (b.set i).test j = true) =
      insert i ((Finset.range n).filter fun j => b.test j = true) := by
    ext j
    simp only [Finset.mem_filter, Finset.mem_range, Finset.mem_insert, Bitmap.test_set,
      Bool.or_eq_true, decide_eq_true_eq]
    constructor
    · rintro ⟨hj, rfl | on⟩
      · exact .inl rfl
      · exact .inr ⟨hj, on⟩
    · rintro (rfl | ⟨hj, on⟩)
      · exact ⟨lt, .inl rfl⟩
      · exact ⟨hj, .inr on⟩
  rw [bitCount, new, Finset.card_insert_of_notMem]
  · rfl
  · rw [Finset.mem_filter, off]
    exact fun h => nomatch h.2

/-- Clearing a bit that is on makes one less. -/
lemma bitCount_clear {b : Bitmap} {n i : Nat} (lt : i < n) (on : b.test i = true) :
    bitCount (b.clear i) n = bitCount b n - 1 := by
  have new : (Finset.range n).filter (fun j => (b.clear i).test j = true) =
      ((Finset.range n).filter fun j => b.test j = true).erase i := by
    ext j
    simp only [Finset.mem_filter, Finset.mem_range, Finset.mem_erase, Bitmap.test_clear,
      Bool.and_eq_true, Bool.not_eq_true', decide_eq_false_iff_not]
    exact ⟨fun h => ⟨h.2.1, h.1, h.2.2⟩, fun h => ⟨h.2.1, h.1, h.2.2⟩⟩
  rw [bitCount, new, Finset.card_erase_of_mem]
  · rfl
  · exact Finset.mem_filter.mpr ⟨Finset.mem_range.mpr lt, on⟩

/-! ### The scan -/

/-- The scan finds a bit that is set. -/
lemma pageScan_some {b : Bitmap} {count : Int} {turns p q : Nat} (aligned : p % 32 = 0)
    (h : pageScan b count turns p = some q) : b.test q = true := by
  induction turns generalizing p with
  | zero => cases h
  | succ turns ih =>
    rw [pageScan] at h
    split at h
    · split at h
      · rename_i word
        obtain ⟨lt, bit⟩ := Bitmap.test_firstBit word
        rw [if_pos lt] at h
        cases h
        rw [show 32 * (p / 32) = p by omega] at bit
        exact bit
      · exact ih (by omega) h
    · cases h

/-- If it finds none, there is none. -/
lemma pageScan_none {b : Bitmap} {count : Int} {turns p : Nat} (aligned : p % 32 = 0)
    (enough : count ≤ p + 32 * turns) (h : pageScan b count turns p = none) {i : Nat} (ge : p ≤ i)
    (lt : (i : Int) < count) : b.test i = false := by
  induction turns generalizing p with
  | zero => omega
  | succ turns ih =>
    rw [pageScan, if_pos (by omega)] at h
    split at h
    · rename_i word
      rw [if_pos (Bitmap.test_firstBit word).1] at h
      cases h
    · rename_i word
      by_cases here : i < p + 32
      · rw [Bitmap.test_eq, show i / 32 = p / 32 by omega, not_not.mp word]
        exact BitVec.getLsbD_zero
      · exact ih (by omega) (by omega) h (by omega)

/-! ### What the functions do to the table -/

/-- `page_free` does nothing, or marks the page in the first range that accepts it. -/
lemma pageFree_cases (page : PageNo) (mmap : List Mmap) :
    ((∀ r ∈ mmap, ¬r.Accepts page) ∧ pageFree page mmap = mmap) ∨
      ∃ (l1 : List Mmap) (r : Mmap) (l2 : List Mmap), mmap = l1 ++ r :: l2 ∧ r.Accepts page ∧
        pageFree page mmap = l1 ++ r.mark page :: l2 := by
  induction mmap with
  | nil => exact .inl ⟨nofun, rfl⟩
  | cons r rest ih =>
    rw [pageFree]
    by_cases h : r.Accepts page
    · rw [if_pos h]
      exact .inr ⟨[], r, rest, rfl, h, rfl⟩
    · rw [if_neg h]
      rcases ih with ⟨none, e⟩ | ⟨l1, r', l2, split, acc, e⟩
      · refine .inl ⟨fun o mem => ?_, by rw [e]⟩
        rcases List.mem_cons.mp mem with rfl | mem
        · exact h
        · exact none o mem
      · rw [e, split]
        exact .inr ⟨r :: l1, r', l2, rfl, acc, rfl⟩

/-- Taking the page of the bit `p`. -/
def Mmap.without (r : Mmap) (p : Nat) : Mmap :=
  { r with available := r.available.clear p, free := r.free - 1 }

/-- What a range gives is the page of a bit that is set. -/
lemma Mmap.take_some {r r' : Mmap} {page : PageNo} (h : r.take = some (page, r')) :
    ∃ p, 0 < r.free ∧ r.available.test p = true ∧ page = r.base + BitVec.ofNat 32 p ∧ r' = r.without p := by
  rw [Mmap.take] at h
  split at h
  · rename_i pos
    obtain ⟨p, scan, e⟩ := Option.map_eq_some_iff.mp h
    cases e
    exact ⟨p, pos, pageScan_some rfl scan, rfl, rfl⟩
  · cases h

/-- A range that gives nothing counts none, or has no bit set. -/
lemma Mmap.take_none {r : Mmap} (h : r.take = none) :
    r.free = 0 ∨ ∀ i : Nat, (i : Int) < r.count.toInt → r.available.test i = false := by
  rw [Mmap.take] at h
  split at h
  · have scan := Option.map_eq_none_iff.mp h
    have := toInt_le_toNat r.count
    exact .inr fun i lt => pageScan_none rfl (by omega) scan (Nat.zero_le i) lt
  · exact .inl (by omega)

/-- What the ranges give comes from one of them. -/
lemma rangesAlloc_some {mmap mmap' : List Mmap} {page : PageNo}
    (h : rangesAlloc mmap = some (page, mmap')) :
    ∃ (l1 : List Mmap) (r : Mmap) (l2 : List Mmap) (p : Nat), mmap = l1 ++ r :: l2 ∧
      mmap' = l1 ++ r.without p :: l2 ∧ 0 < r.free ∧ r.available.test p = true ∧ page = r.base + BitVec.ofNat 32 p := by
  induction mmap generalizing mmap' with
  | nil => cases h
  | cons r rest ih =>
    rw [rangesAlloc] at h
    split at h
    · rename_i found rest' later
      cases h
      obtain ⟨l1, r', l2, p, rfl, rfl, facts⟩ := ih later
      exact ⟨r :: l1, r', l2, p, rfl, rfl, facts⟩
    · obtain ⟨⟨found, r'⟩, take, e⟩ := Option.map_eq_some_iff.mp h
      cases e
      obtain ⟨p, pos, bit, rfl, rfl⟩ := Mmap.take_some take
      exact ⟨[], r, rest, p, rfl, rfl, pos, bit, rfl⟩

/-- No range has anything to give. -/
lemma rangesAlloc_none {mmap : List Mmap} (h : rangesAlloc mmap = none) : ∀ r ∈ mmap, r.take = none := by
  induction mmap with
  | nil => exact nofun
  | cons r rest ih =>
    rw [rangesAlloc] at h
    split at h
    · cases h
    · rename_i later
      intro o mem
      rcases List.mem_cons.mp mem with rfl | mem
      · exact Option.map_eq_none_iff.mp h
      · exact ih later o mem

/-- Replacing a range by one with the same pages keeps the ranges disjoint. -/
lemma Disjoint.replace {l1 l2 : List Mmap} {r r' : Mmap} (h : Disjoint (l1 ++ r :: l2))
    (has : ∀ page, r'.Has page ↔ r.Has page) : Disjoint (l1 ++ r' :: l2) := by
  rw [Disjoint, List.pairwise_append, List.pairwise_cons] at h ⊢
  obtain ⟨h1, ⟨hr, h2⟩, h12⟩ := h
  refine ⟨h1, ⟨fun o mem page => ?_, h2⟩, fun a ha b hb page => ?_⟩
  · rw [has]
    exact hr o mem page
  · rcases List.mem_cons.mp hb with rfl | hb
    · rw [has]
      exact h12 a ha r List.mem_cons_self page
    · exact h12 a ha b (List.mem_cons_of_mem _ hb) page

/-- A page is in no other range. -/
lemma Disjoint.other {l1 l2 : List Mmap} {r o : Mmap} (h : Disjoint (l1 ++ r :: l2)) (mem : o ∈ l1 ++ l2)
    {page : PageNo} (hr : r.Has page) : ¬o.Has page := by
  rw [Disjoint, List.pairwise_append, List.pairwise_cons] at h
  obtain ⟨-, ⟨after, -⟩, before⟩ := h
  intro ho
  rcases List.mem_append.mp mem with mem | mem
  · exact before o mem r List.mem_cons_self page ⟨ho, hr⟩
  · exact after o mem page ⟨hr, ho⟩

/-- A range that is replaced, or one of the others, was in the table. -/
lemma mem_split {mmap l1 l2 : List Mmap} {r : Mmap} (split : mmap = l1 ++ r :: l2) (o : Mmap)
    (h : o = r ∨ o ∈ l1 ++ l2) : o ∈ mmap := by
  rw [List.mem_append] at h
  rw [split, List.mem_append, List.mem_cons]
  tauto

/-- A range of the table is the one that is replaced, or one of the others. -/
lemma mem_replace {l1 l2 : List Mmap} {r o : Mmap} (h : o ∈ l1 ++ r :: l2) : o = r ∨ o ∈ l1 ++ l2 := by
  rw [List.mem_append, List.mem_cons] at h
  rw [List.mem_append]
  tauto

/-! ### The invariant -/

/-- The bits that are set stand for free pages, and ranges count them. -/
structure Inv (s : Pages) : Prop where
  disjoint : Disjoint s.mmap
  bits : ∀ r ∈ s.mmap, ∀ i, r.available.test i = true →
    (i : Int) < r.count.toInt ∧ s.usage (r.base + BitVec.ofNat 32 i) = .free
  counted : ∀ r ∈ s.mmap, r.free = bitCount r.available (32 * bitmapsize r.count)

/-- The index of a bit is small. -/
lemma Inv.small {s : Pages} (inv : Inv s) {r : Mmap} (mem : r ∈ s.mmap) {i : Nat}
    (hi : r.available.test i = true) : i < 2 ^ 31 := by
  have lt := (inv.bits r mem i hi).1
  obtain ⟨e, small⟩ := toInt_of_pos (x := r.count) (by omega)
  omega

/-- The page of a bit is one of the range. -/
lemma Inv.has {s : Pages} (inv : Inv s) {r : Mmap} (mem : r ∈ s.mmap) {i : Nat}
    (hi : r.available.test i = true) : r.Has (r.base + BitVec.ofNat 32 i) :=
  r.has_of_lt (inv.bits r mem i hi).1

/-- The invariant implies the property. -/
lemma Inv.sound {s : Pages} (inv : Inv s) : Sound s where
  fresh := by
    intro nonzero
    rw [pageAlloc] at nonzero ⊢
    cases found : rangesAlloc s.mmap with
    | none =>
      rw [found] at nonzero
      exact absurd rfl nonzero
    | some result =>
      obtain ⟨l1, r, l2, p, split, -, -, bit, e⟩ := rangesAlloc_some found
      show s.usage result.1 = .free
      rw [e]
      exact (inv.bits r (mem_split split r (.inl rfl)) p bit).2
  counted := inv.counted
  bounded := by
    intro r mem i le
    by_contra on
    have lt := (inv.bits r mem i (Bool.not_eq_false _ ▸ on)).1
    have := toInt_le_toNat r.count
    omega

/-- The bits after a page is marked. -/
lemma Mmap.mark_test (r : Mmap) (page : PageNo) (i : Nat) :
    (r.mark page).available.test i = true ↔ i = (page - r.base).toNat ∨ r.available.test i = true := by
  rw [Mmap.mark, Bitmap.test_set, Bool.or_eq_true, decide_eq_true_eq]

/-- The bits after a page is taken. -/
lemma Mmap.without_test (r : Mmap) (p i : Nat) :
    (r.without p).available.test i = true ↔ i ≠ p ∧ r.available.test i = true := by
  rw [Mmap.without, Bitmap.test_clear, Bool.and_eq_true, Bool.not_eq_true', decide_eq_false_iff_not]

/-- Marking a page that is not free. -/
lemma Inv.mark {s : Pages} (inv : Inv s) {page : PageNo} {l1 l2 : List Mmap} {r : Mmap}
    (split : s.mmap = l1 ++ r :: l2) (acc : r.Accepts page) (used : s.usage page ≠ .free) :
    Inv ⟨l1 ++ r.mark page :: l2, Function.update s.usage page .free⟩ := by
  have mem := mem_split split
  obtain ⟨pos, lt⟩ := acc
  obtain ⟨index, -⟩ := toInt_of_pos pos
  have keeps : ∀ q, s.usage q = .free → Function.update s.usage page .free q = .free := by
    intro q hq
    by_cases e : q = page
    · rw [e, Function.update_self]
    · rw [Function.update_of_ne e, hq]
  have off : r.available.test (page - r.base).toNat = false := by
    by_contra on
    have free := (inv.bits r (mem r (.inl rfl)) _ (Bool.not_eq_false _ ▸ on)).2
    rw [add_sub_ofNat] at free
    exact used free
  constructor
  · have disjoint := inv.disjoint
    rw [split] at disjoint
    exact disjoint.replace fun _ => Iff.rfl
  · intro o ho i hi
    rcases mem_replace ho with rfl | ho
    · rcases (r.mark_test page i).mp hi with rfl | hi
      · refine ⟨by show ((page - r.base).toNat : Int) < r.count.toInt; omega, ?_⟩
        show Function.update s.usage page .free (r.base + _) = .free
        rw [add_sub_ofNat, Function.update_self]
      · obtain ⟨lt, free⟩ := inv.bits r (mem r (.inl rfl)) i hi
        exact ⟨lt, keeps _ free⟩
    · obtain ⟨lt, free⟩ := inv.bits o (mem o (.inr ho)) i hi
      exact ⟨lt, keeps _ free⟩
  · intro o ho
    rcases mem_replace ho with rfl | ho
    · show r.free + 1 = bitCount (r.available.set (page - r.base).toNat) (32 * bitmapsize r.count)
      rw [bitCount_set (lt_bitmapsize (by omega)) off, inv.counted r (mem r (.inl rfl))]
    · exact inv.counted o (mem o (.inr ho))

/-- Taking the page of a bit that is set; then the page may count as outstanding, or not. -/
lemma Inv.take {s : Pages} (inv : Inv s) {l1 l2 : List Mmap} {r : Mmap} {p : Nat}
    (split : s.mmap = l1 ++ r :: l2) (bit : r.available.test p = true) {usage : PageNo → Usage}
    (other : ∀ q, q ≠ r.base + BitVec.ofNat 32 p → usage q = s.usage q) :
    Inv ⟨l1 ++ r.without p :: l2, usage⟩ := by
  have mem := mem_split split
  have memr := mem r (.inl rfl)
  have disjoint := inv.disjoint
  rw [split] at disjoint
  constructor
  · exact disjoint.replace fun _ => Iff.rfl
  · intro o ho i hi
    rcases mem_replace ho with rfl | ho
    · obtain ⟨ne, hi⟩ := (r.without_test p i).mp hi
      obtain ⟨lt, free⟩ := inv.bits r memr i hi
      refine ⟨lt, ?_⟩
      show usage (r.base + BitVec.ofNat 32 i) = .free
      rw [other _ ?_, free]
      intro e
      have e := congrArg (fun q => (q - r.base).toNat) e
      simp only [add_ofNat_sub r.base (inv.small memr hi), add_ofNat_sub r.base (inv.small memr bit)] at e
      exact ne e
    · obtain ⟨lt, free⟩ := inv.bits o (mem o (.inr ho)) i hi
      refine ⟨lt, ?_⟩
      show usage (o.base + BitVec.ofNat 32 i) = .free
      rw [other _ ?_, free]
      intro e
      have has := inv.has (mem o (.inr ho)) hi
      rw [e] at has
      exact disjoint.other ho (inv.has memr bit) has
  · intro o ho
    rcases mem_replace ho with rfl | ho
    · show r.free - 1 = bitCount (r.available.clear p) (32 * bitmapsize r.count)
      rw [bitCount_clear (lt_bitmapsize (inv.bits r memr p bit).1) bit, inv.counted r memr]
    · exact inv.counted o (mem o (.inr ho))

/-- What `page_alloc` does: nothing, or it takes the page of a bit that is set. -/
lemma alloc_cases {s s' : Pages} (h : step s .alloc = some s') :
    (rangesAlloc s.mmap = none ∧ (pageAlloc s.mmap).1 = 0 ∧ s' = s) ∨
      ∃ (l1 : List Mmap) (r : Mmap) (l2 : List Mmap) (p : Nat) (usage : PageNo → Usage),
        s.mmap = l1 ++ r :: l2 ∧ 0 < r.free ∧ r.available.test p = true ∧
        (pageAlloc s.mmap).1 = r.base + BitVec.ofNat 32 p ∧ s' = ⟨l1 ++ r.without p :: l2, usage⟩ ∧
        usage = if r.base + BitVec.ofNat 32 p = 0 then s.usage
          else Function.update s.usage (r.base + BitVec.ofNat 32 p) .outstanding := by
  rw [step] at h
  cases found : rangesAlloc s.mmap with
  | none =>
    simp only [pageAlloc, found, if_true] at h ⊢
    cases h
    exact .inl ⟨trivial, trivial, rfl⟩
  | some result =>
    obtain ⟨l1, r, l2, p, split, rest, pos, bit, page⟩ := rangesAlloc_some found
    simp only [pageAlloc, found, page, rest] at h ⊢
    cases h
    exact .inr ⟨l1, r, l2, p, _, split, pos, bit, rfl, rfl, rfl⟩

/-- The history of the other pages stays the same. -/
lemma usage_other {usage : PageNo → Usage} {page q : PageNo} (ne : q ≠ page) :
    (if page = 0 then usage else Function.update usage page .outstanding) q = usage q := by
  split
  · rfl
  · exact Function.update_of_ne ne _ _

/-- A step keeps the invariant. -/
lemma inv_step {s s' : Pages} {e : Event} (inv : Inv s) (h : step s e = some s') : Inv s' := by
  cases e with
  | free page =>
    rw [step] at h
    split at h
    · rename_i cond
      cases h
      rcases pageFree_cases page s.mmap with ⟨-, e⟩ | ⟨l1, r, l2, split, acc, e⟩
      · rw [e]
        refine ⟨inv.disjoint, fun r mem i hi => ?_, inv.counted⟩
        obtain ⟨lt, free⟩ := inv.bits r mem i hi
        refine ⟨lt, ?_⟩
        by_cases same : r.base + BitVec.ofNat 32 i = page
        · rw [same]
          exact Function.update_self _ _ _
        · exact (Function.update_of_ne same _ _).trans free
      · rw [e]
        exact inv.mark split acc cond.2
    · cases h
  | alloc =>
    rcases alloc_cases h with ⟨-, -, rfl⟩ | ⟨l1, r, l2, p, usage, split, -, bit, -, rfl, e⟩
    · exact inv
    · exact inv.take split bit fun q ne => e ▸ usage_other ne

/-- Ranges that were just registered have no free pages. -/
lemma addRanges_eq {ranges : List (PageNo × BitVec 32)} {mmap : List Mmap} (h : addRanges ranges = some mmap) :
    mmap = ranges.map fun range => ⟨range.1, range.2, 0, fun _ => 0⟩ := by
  have general : ∀ {ranges : List (PageNo × BitVec 32)} {before mmap : List Mmap},
      ranges.foldlM (fun mmap range => pageAddRange mmap range.1 range.2) before = some mmap →
        mmap = before ++ ranges.map fun range => ⟨range.1, range.2, 0, fun _ => 0⟩ := by
    intro ranges
    induction ranges with
    | nil =>
      intro before mmap h
      cases h
      exact (List.append_nil _).symm
    | cons range ranges ih =>
      intro before mmap h
      obtain ⟨next, add, h⟩ := Option.bind_eq_some_iff.mp h
      change pageAddRange before range.1 range.2 = some next at add
      rw [pageAddRange] at add
      split at add
      · cases add
        rw [ih h, List.append_assoc]
        rfl
      · cases add
  exact general h

/-- Registering disjoint ranges establishes the invariant. -/
lemma inv_addRanges {ranges : List (PageNo × BitVec 32)} {mmap : List Mmap}
    (h : addRanges ranges = some mmap) (disjoint : Disjoint mmap) : Inv ⟨mmap, fun _ => .reserved⟩ := by
  have empty : ∀ r ∈ mmap, r.free = 0 ∧ r.available = fun _ => 0 := by
    rw [addRanges_eq h]
    intro r mem
    obtain ⟨range, -, rfl⟩ := List.mem_map.mp mem
    exact ⟨rfl, rfl⟩
  have off : ∀ i, Bitmap.test (fun _ => 0) i = false := by
    intro i
    rw [Bitmap.test_eq]
    exact BitVec.getLsbD_zero
  refine ⟨disjoint, fun r mem i hi => ?_, fun r mem => ?_⟩
  · rw [(empty r mem).2, off] at hi
    cases hi
  · rw [(empty r mem).1, (empty r mem).2]
    symm
    rw [bitCount, Finset.card_eq_zero, Finset.filter_eq_empty_iff]
    intro i _
    rw [off]
    exact Bool.false_ne_true

/-- From disjoint ranges on, `page_alloc` only ever gives out free pages, and the ranges always count the bits of
    their bitmaps. -/
theorem sound_always {ranges : List (PageNo × BitVec 32)} {mmap : List Mmap}
    (h : addRanges ranges = some mmap) (disjoint : Disjoint mmap) (es : List Event) :
    Always step Sound ⟨mmap, fun _ => .reserved⟩ es := by
  have inv : Always step Inv ⟨mmap, fun _ => .reserved⟩ es :=
    always_of_step (fun _ _ _ inv h => inv_step inv h) (inv_addRanges h disjoint) es
  exact inv.imp fun _ inv => inv.sound

/-- Two ranges with a gap, and a run that frees and allocates pages of both. -/
theorem sound_two_ranges : (addRanges [(0x10, 2), (0x20, 0x40)]).isSome ∧
    ∀ mmap, addRanges [(0x10, 2), (0x20, 0x40)] = some mmap →
      Always step Sound ⟨mmap, fun _ => .reserved⟩
        [.free 0x11, .free 0x25, .alloc, .free 0x20, .alloc, .alloc, .free 0x11] := by
  refine ⟨rfl, fun mmap h => sound_always h ?_ _⟩
  rw [addRanges_eq h, Disjoint]
  simp only [List.map_cons, List.map_nil, List.pairwise_cons, List.mem_singleton, forall_eq,
    List.not_mem_nil, false_implies, implies_true, List.Pairwise.nil, and_true]
  rintro page ⟨low, high⟩
  rw [Mmap.Has, BitVec.lt_def, BitVec.toNat_sub] at low high
  have := page.isLt
  simp at low high
  omega

/-! ### No page is lost -/

/-- Every free page has its bit set. -/
structure Complete (s : Pages) : Prop extends Inv s where
  nonzero : s.usage 0 ≠ .free
  marked : ∀ page, s.usage page = .free → ∃ r ∈ s.mmap, ∃ i, r.available.test i = true ∧
    page = r.base + BitVec.ofNat 32 i

/-- No page is free if `page_alloc` gives none. -/
lemma Complete.empty {s : Pages} (h : Complete s) (none : (pageAlloc s.mmap).1 = 0) (page : PageNo) :
    s.usage page ≠ .free := by
  intro free
  cases found : rangesAlloc s.mmap with
  | none =>
    obtain ⟨r, mem, i, bit, -⟩ := h.marked page free
    rcases Mmap.take_none (rangesAlloc_none found r mem) with zero | off
    · -- the counter says that there is none
      have count := h.counted r mem
      have lt := lt_bitmapsize (h.bits r mem i bit).1
      have pos : 0 < bitCount r.available (32 * bitmapsize r.count) :=
        Finset.card_pos.mpr ⟨i, Finset.mem_filter.mpr ⟨Finset.mem_range.mpr lt, bit⟩⟩
      omega
    · rw [off i (h.bits r mem i bit).1] at bit
      cases bit
  | some result =>
    obtain ⟨l1, r, l2, p, split, -, -, bit, e⟩ := rangesAlloc_some found
    have zero : result.1 = 0 := by
      rw [pageAlloc, found] at none
      exact none
    have free := (h.bits r (mem_split split r (.inl rfl)) p bit).2
    rw [← e, zero] at free
    exact h.nonzero free

/-- A page that is not the first one of its range is accepted. -/
lemma Mmap.Has.accepts {r : Mmap} {page : PageNo} (h : r.Has page) (ne : page ≠ r.base)
    (pos : 0 < r.count.toInt) : r.Accepts page := by
  obtain ⟨count, small⟩ := toInt_of_pos pos
  have lt := BitVec.lt_def.mp h
  have index : (page - r.base).toInt = (page - r.base).toNat := by
    rw [BitVec.toInt_eq_toNat_of_lt]
    omega
  have nonzero : (page - r.base).toNat ≠ 0 := by
    intro e
    apply ne
    have := add_sub_ofNat r.base page
    rw [e, BitVec.add_zero] at this
    exact this.symm
  refine ⟨?_, ?_⟩
  · omega
  · omega

/-- Freeing a page that a range accepts keeps completeness. -/
lemma Complete.mark {s : Pages} (h : Complete s) {page : PageNo} {l1 l2 : List Mmap} {r : Mmap}
    (split : s.mmap = l1 ++ r :: l2) (acc : r.Accepts page) (nz : page ≠ 0) (used : s.usage page ≠ .free) :
    Complete ⟨l1 ++ r.mark page :: l2, Function.update s.usage page .free⟩ where
  toInv := h.toInv.mark split acc used
  nonzero := by
    show Function.update s.usage page .free 0 ≠ .free
    rw [Function.update_of_ne (Ne.symm nz)]
    exact h.nonzero
  marked := by
    intro q free
    have new : r.mark page ∈ l1 ++ r.mark page :: l2 := List.mem_append_right _ List.mem_cons_self
    by_cases e : q = page
    · refine ⟨r.mark page, new, (page - r.base).toNat, (r.mark_test page _).mpr (.inl rfl), ?_⟩
      rw [e]
      exact (add_sub_ofNat r.base page).symm
    · have free : s.usage q = .free := (Function.update_of_ne e _ _).symm.trans free
      obtain ⟨o, mem, i, bit, eq⟩ := h.marked q free
      rw [split] at mem
      rcases mem_replace mem with rfl | mem
      · exact ⟨_, new, i, (o.mark_test page i).mpr (.inr bit), eq⟩
      · exact ⟨o, mem_split rfl o (.inr mem), i, bit, eq⟩

/-- Taking a page keeps completeness. -/
lemma Complete.take {s : Pages} (h : Complete s) {l1 l2 : List Mmap} {r : Mmap} {p : Nat}
    (split : s.mmap = l1 ++ r :: l2) (bit : r.available.test p = true) :
    Complete ⟨l1 ++ r.without p :: l2,
      Function.update s.usage (r.base + BitVec.ofNat 32 p) .outstanding⟩ where
  toInv := h.toInv.take split bit fun q ne => Function.update_of_ne ne _ _
  nonzero := by
    show Function.update s.usage _ .outstanding 0 ≠ .free
    by_cases e : 0 = r.base + BitVec.ofNat 32 p
    · rw [← e, Function.update_self]
      exact nofun
    · rw [Function.update_of_ne e]
      exact h.nonzero
  marked := by
    intro q free
    have ne : q ≠ r.base + BitVec.ofNat 32 p := by
      rintro rfl
      have free : Function.update s.usage (r.base + BitVec.ofNat 32 p) .outstanding _ = .free := free
      rw [Function.update_self] at free
      cases free
    have free : s.usage q = .free := (Function.update_of_ne ne _ _).symm.trans free
    obtain ⟨o, mem, i, on, eq⟩ := h.marked q free
    rw [split] at mem
    rcases mem_replace mem with rfl | mem
    · have other : i ≠ p := by
        rintro rfl
        exact ne eq
      exact ⟨o.without p, List.mem_append_right _ List.mem_cons_self, i,
        (o.without_test p i).mpr ⟨other, on⟩, eq⟩
    · exact ⟨o, mem_split rfl o (.inr mem), i, on, eq⟩

/-- What `page_alloc` does if no page is lost: nothing, and no page is free, or it takes a free page. -/
lemma Complete.alloc {s s' : Pages} (h : Complete s) (hs : step s .alloc = some s') :
    ((pageAlloc s.mmap).1 = 0 ∧ s' = s) ∨
      ∃ (l1 : List Mmap) (r : Mmap) (l2 : List Mmap) (p : Nat), s.mmap = l1 ++ r :: l2 ∧ 0 < r.free ∧
        r.available.test p = true ∧ (pageAlloc s.mmap).1 = r.base + BitVec.ofNat 32 p ∧
        (pageAlloc s.mmap).1 ≠ 0 ∧ s'.mmap = l1 ++ r.without p :: l2 ∧
        s'.usage = Function.update s.usage (r.base + BitVec.ofNat 32 p) .outstanding := by
  rcases alloc_cases hs with ⟨-, zero, same⟩ | ⟨l1, r, l2, p, usage, split, pos, bit, page, rfl, e⟩
  · exact .inl ⟨zero, same⟩
  · have nz : r.base + BitVec.ofNat 32 p ≠ 0 := by
      intro zero
      have free := (h.bits r (mem_split split r (.inl rfl)) p bit).2
      rw [zero] at free
      exact h.nonzero free
    rw [if_neg nz] at e
    exact .inr ⟨l1, r, l2, p, split, pos, bit, page, page ▸ nz, rfl, e⟩

/-- A step keeps completeness if it is one that loses nothing. -/
lemma complete_step {s s' : Pages} {e : Event} (h : Complete s) (hs : step s e = some s') (kept : Kept s e) :
    Complete s' := by
  cases e with
  | free page =>
    obtain ⟨nz, r, mem, has, ne, pos⟩ := kept
    rw [step] at hs
    split at hs
    · rename_i cond
      cases hs
      rcases pageFree_cases page s.mmap with ⟨none, -⟩ | ⟨l1, r', l2, split, acc, e⟩
      · exact absurd (has.accepts ne pos) (none r mem)
      · rw [e]
        exact h.mark split acc nz cond.2
    · cases hs
  | alloc =>
    obtain ⟨mmap, usage⟩ := s'
    rcases h.alloc hs with ⟨-, e⟩ | ⟨l1, r, l2, p, split, -, bit, -, -, rfl, rfl⟩
    · rw [e]
      exact h
    · exact h.take split bit

/-- The number of pages that the ranges count. -/
def total (mmap : List Mmap) : Nat := (mmap.map Mmap.free).sum

/-- Taking a page makes one less. -/
lemma total_without (l1 l2 : List Mmap) {r : Mmap} (pos : 0 < r.free) (p : Nat) :
    total (l1 ++ r.without p :: l2) + 1 = total (l1 ++ r :: l2) := by
  simp only [total, List.map_append, List.map_cons, List.sum_append, List.sum_cons, Mmap.without]
  omega

/-- Draining the ranges, one page at a time. -/
lemma drain_succ (n : Nat) (mmap : List Mmap) : drain (n + 1) mmap =
    if (pageAlloc mmap).1 = 0 then [] else (pageAlloc mmap).1 :: drain n (pageAlloc mmap).2 := rfl

/-- Repeated calls of `page_alloc` return each free page once. -/
lemma Complete.drained {s : Pages} (h : Complete s) {n : Nat} (enough : total s.mmap < n) :
    (drain n s.mmap).Nodup ∧ ∀ page, page ∈ drain n s.mmap ↔ s.usage page = .free := by
  induction n generalizing s with
  | zero => omega
  | succ n ih =>
    have hs : step s .alloc = some ⟨(pageAlloc s.mmap).2, if (pageAlloc s.mmap).1 = 0 then s.usage
      else Function.update s.usage (pageAlloc s.mmap).1 .outstanding⟩ := rfl
    have next := complete_step h hs trivial
    rw [drain_succ]
    rcases h.alloc hs with ⟨zero, -⟩ | ⟨l1, r, l2, p, split, pos, bit, page, nz, rest, usage⟩
    · rw [if_pos zero]
      refine ⟨List.nodup_nil, fun page => iff_of_false List.not_mem_nil (h.empty zero page)⟩
    · rw [if_neg nz]
      have less : total (pageAlloc s.mmap).2 < n := by
        have rest : (pageAlloc s.mmap).2 = l1 ++ r.without p :: l2 := rest
        have := total_without l1 l2 pos p
        rw [rest]
        rw [split] at enough
        omega
      obtain ⟨nodup, mem⟩ := ih next less
      have after : ∀ q, q ∈ drain n (pageAlloc s.mmap).2 ↔
          Function.update s.usage (pageAlloc s.mmap).1 .outstanding q = .free := by
        intro q
        rw [mem q, if_neg nz]
      have free : s.usage (pageAlloc s.mmap).1 = .free := by
        rw [page]
        exact (h.bits r (mem_split split r (.inl rfl)) p bit).2
      refine ⟨List.nodup_cons.mpr ⟨?_, nodup⟩, fun q => ?_⟩
      · rw [after, Function.update_self]
        exact nofun
      · rw [List.mem_cons, after]
        by_cases e : q = (pageAlloc s.mmap).1
        · rw [e]
          exact iff_of_true (.inl rfl) free
        · rw [Function.update_of_ne e]
          exact ⟨fun h => h.resolve_left e, .inr⟩

/-- No page is lost in a run that frees no first page of a range. -/
theorem noneLost_always {ranges : List (PageNo × BitVec 32)} {mmap : List Mmap}
    (h : addRanges ranges = some mmap) (disjoint : Disjoint mmap) (es : List Event)
    (kept : Meets step Kept ⟨mmap, fun _ => .reserved⟩ es) :
    Always step NoneLost ⟨mmap, fun _ => .reserved⟩ es := by
  have start : Complete ⟨mmap, fun _ => .reserved⟩ :=
    { toInv := inv_addRanges h disjoint, nonzero := nofun, marked := nofun }
  have complete : Always step Complete ⟨mmap, fun _ => .reserved⟩ es :=
    always_of_meets (fun _ _ _ h hs kept => complete_step h hs kept) start kept
  exact complete.imp fun _ h => ⟨h.empty, _, fun _ enough => h.drained enough⟩

/-- One range of 64 pages. -/
def oneRange : List Mmap := [⟨0x20, 0x40, 0, fun _ => 0⟩]

/-- Pages around the border of two words of the bitmap. -/
theorem noneLost_word_boundary : Meets step Kept ⟨oneRange, fun _ => .reserved⟩
      [.free 0x3f, .free 0x40, .alloc, .free 0x5f] ∧
    Always step NoneLost ⟨oneRange, fun _ => .reserved⟩ [.free 0x3f, .free 0x40, .alloc, .free 0x5f] := by
  have kept : Meets step Kept ⟨oneRange, fun _ => .reserved⟩
      [.free 0x3f, .free 0x40, .alloc, .free 0x5f] := by
    rintro _ ⟨⟩
    refine ⟨⟨by decide, _, List.mem_cons_self, by decide, by decide, by decide⟩, ?_⟩
    rintro _ ⟨⟩
    refine ⟨⟨by decide, _, List.mem_cons_self, by decide, by decide, by decide⟩, ?_⟩
    rintro _ ⟨⟩
    refine ⟨trivial, ?_⟩
    rintro _ ⟨⟩
    exact ⟨⟨by decide, _, List.mem_cons_self, by decide, by decide, by decide⟩, trivial⟩
  have added : addRanges [(0x20, 0x40)] = some oneRange := rfl
  exact ⟨kept, noneLost_always added (List.pairwise_singleton _ _) _ kept⟩

/-- The first page of a range is not found again. -/
theorem first_page_lost : addRanges [(0x20, 0x40)] = some oneRange ∧ Disjoint oneRange ∧
    ¬Always step NoneLost ⟨oneRange, fun _ => .reserved⟩ [.free 0x20] := by
  refine ⟨rfl, List.pairwise_singleton _ _, fun always => ?_⟩
  have lost := always.2 _ rfl
  exact lost.empty rfl 0x20 rfl

end Twcos.Page
