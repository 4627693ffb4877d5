import Twcos.Vmap.Basic

/-!
# The windows on the page tables

The upper 32 MiB of every directory are the eight directories themselves. An address in the window `i` is then an entry of
the directory `i`, or of one of its page tables, and so `vmap_set_pte` can be followed through physical memory. `Layout` has
the pages that it uses.
-/

namespace Twcos.Vmap
open Twcos.Prog Function

/-- The entry for a page that only the kernel may use. -/
def kernelEntry (page : Page) : BitVec 32 := pteOf (page.setWidth 32) true false

/-- The pages of the directories, those that `page_alloc` gives, and which regions are for user addresses. -/
structure Layout where
  dir : Fin 8 → Page
  fresh : Nat → Page
  limit : Nat
  user : BitVec 10 → Prop
  dir_ne : ∀ i, dir i ≠ 0
  fresh_inj : ∀ n m, n < limit → m < limit → fresh n = fresh m → n = m
  fresh_ne : ∀ n, n < limit → fresh n ≠ 0
  fresh_dir : ∀ n i, n < limit → fresh n ≠ dir i
  user_low : ∀ k, user k → k.toNat < 0x3f8

/-- The entry of the directories for a window. -/
def window (i : Fin 8) : BitVec 10 := BitVec.ofNat 10 (0x3f8 + i)

/-! ### Addresses -/

/-- The address of an entry in a window. -/
lemma pgtbl_toNat (i : Fin 8) (p : Addr) :
    (pgtbl i (p >>> 12)).toNat = 0xfe000000 + 4194304 * i + p.toNat / 4096 * 4 := by
  have hp := p.isLt
  have hi := i.isLt
  rw [pgtbl, BitVec.toNat_add, BitVec.toNat_add, BitVec.toNat_shiftLeft, BitVec.toNat_shiftLeft, BitVec.toNat_ofNat,
    BitVec.toNat_ofNat, BitVec.toNat_ushiftRight, Nat.shiftRight_eq_div_pow, Nat.shiftLeft_eq, Nat.shiftLeft_eq]
  omega

/-- The region of an address, as a number. -/
lemma region_toNat (p : Addr) : (region p).toNat = p.toNat / 4194304 := by
  have hp := p.isLt
  rw [region, BitVec.extractLsb'_toNat, Nat.shiftRight_eq_div_pow]
  omega

/-- The slot of an address, as a number. -/
lemma slot_toNat (p : Addr) : (slot p).toNat = p.toNat / 4096 % 1024 := by
  rw [slot, BitVec.extractLsb'_toNat, Nat.shiftRight_eq_div_pow]

/-- The word of an address, as a number. -/
lemma word_toNat (p : Addr) : (word p).toNat = p.toNat / 4 % 1024 := by
  rw [word, BitVec.extractLsb'_toNat, Nat.shiftRight_eq_div_pow]

/-- The region of a window, as a number. -/
lemma window_toNat (i : Fin 8) : (window i).toNat = 0x3f8 + i := by
  have hi := i.isLt
  rw [window, BitVec.toNat_ofNat]
  omega

/-- The entry for an address in a window: the window is a region, and the region of the address a page of it. -/
lemma region_pgtbl (i : Fin 8) (p : Addr) : region (pgtbl i (p >>> 12)) = window i := by
  have hp := p.isLt
  apply BitVec.eq_of_toNat_eq
  rw [region_toNat, window_toNat, pgtbl_toNat]
  omega

/-- The address of an entry has the region of the address as its slot. -/
lemma slot_pgtbl (i : Fin 8) (p : Addr) : slot (pgtbl i (p >>> 12)) = region p := by
  have hp := p.isLt
  have hi := i.isLt
  apply BitVec.eq_of_toNat_eq
  rw [slot_toNat, region_toNat, pgtbl_toNat]
  omega

/-- The address of an entry has the slot of the address as its word. -/
lemma word_pgtbl (i : Fin 8) (p : Addr) : word (pgtbl i (p >>> 12)) = slot p := by
  apply BitVec.eq_of_toNat_eq
  rw [word_toNat, slot_toNat, pgtbl_toNat]
  omega

/-- An address is in the same page as another. -/
lemma page_eq_iff (p q : Addr) : p >>> 12 = q >>> 12 ↔ region p = region q ∧ slot p = slot q := by
  rw [← BitVec.toNat_inj, ← BitVec.toNat_inj, ← BitVec.toNat_inj, BitVec.toNat_ushiftRight, BitVec.toNat_ushiftRight,
    Nat.shiftRight_eq_div_pow, Nat.shiftRight_eq_div_pow, region_toNat, region_toNat, slot_toNat, slot_toNat]
  omega

/-! ### Entries -/

/-- The entry of a page table, as a number. -/
lemma kernelEntry_toNat (page : Page) : (kernelEntry page).toNat = 4096 * page.toNat + 3 := by
  have hp := page.isLt
  have low : 2 ^ 12 * page.toNat + 3 = 2 ^ 12 * page.toNat ||| 3 := Nat.two_pow_add_eq_or_of_lt (by decide) _
  have shifted : (page.setWidth 32 <<< 12).toNat = 2 ^ 12 * page.toNat := by
    rw [BitVec.toNat_shiftLeft, BitVec.toNat_setWidth, Nat.shiftLeft_eq]
    omega
  show (page.setWidth 32 <<< 12 ||| 1 ||| 2).toNat = _
  rw [BitVec.toNat_or, BitVec.toNat_or, shifted, Nat.or_assoc]
  exact low.symm

/-- The present bit. -/
lemma and_one (x : BitVec 32) : x &&& 1 = 0 ↔ x.toNat % 2 = 0 := by
  have one : (1 : BitVec 32).toNat = 1 := rfl
  rw [← BitVec.toNat_inj, BitVec.toNat_and, one, Nat.and_one_is_mod]
  rfl

/-- The entry of a page table is present. -/
lemma kernelEntry_present (page : Page) : ¬kernelEntry page &&& 1 = 0 := by
  rw [and_one, kernelEntry_toNat]
  omega

/-- The page of the entry is the table. -/
lemma pageOf_kernelEntry (page : Page) : pageOf (kernelEntry page) = page := by
  have hp := page.isLt
  apply BitVec.eq_of_toNat_eq
  rw [pageOf, BitVec.extractLsb'_toNat, Nat.shiftRight_eq_div_pow, kernelEntry_toNat]
  omega

/-- The entry of a page table shows a page, if that is not zero. -/
lemma shows_kernelEntry {page : Page} (ne : page ≠ 0) : shows (kernelEntry page) ≠ 0 := by
  have pos : page.toNat ≠ 0 := fun zero => ne (BitVec.eq_of_toNat_eq zero)
  rw [shows, if_pos (kernelEntry_present page)]
  intro zero
  have number := congrArg BitVec.toNat zero
  rw [BitVec.toNat_ushiftRight, Nat.shiftRight_eq_div_pow, kernelEntry_toNat] at number
  have none : (0 : BitVec 32).toNat = 0 := rfl
  omega

/-! ### The windows -/

/-- The directory in use shows all directories. -/
structure Windows (L : Layout) (s : Machine) : Prop where
  cr3 : ∃ c, s.cr3 = L.dir c
  windows : ∀ i j, s.mem (L.dir i) (window j) = kernelEntry (L.dir j)

section Window
variable {L : Layout} {s : Machine}

/-- An address in a window is looked up in the directory that the window shows. -/
lemma Windows.translate (h : Windows L s) (i : Fin 8) (p : Addr) :
    translate s.mem s.cr3 (pgtbl i (p >>> 12)) =
      if s.mem (L.dir i) (region p) &&& 1 = 0 then none else some (pageOf (s.mem (L.dir i) (region p)), slot p) := by
  obtain ⟨c, cr3⟩ := h.cr3
  rw [Vmap.translate, region_pgtbl, slot_pgtbl, word_pgtbl, cr3, h.windows, if_neg (kernelEntry_present _),
    pageOf_kernelEntry]

/-- An address whose region has a page table. -/
lemma Windows.translate_table (h : Windows L s) {i : Fin 8} {p : Addr} {page : Page}
    (table : s.mem (L.dir i) (region p) = kernelEntry page) :
    Vmap.translate s.mem s.cr3 (pgtbl i (p >>> 12)) = some (page, slot p) := by
  rw [h.translate, table, if_neg (kernelEntry_present _), pageOf_kernelEntry]

/-- Loading an entry through a window. -/
lemma Windows.load (h : Windows L s) {i : Fin 8} {p : Addr} {page : Page}
    (table : s.mem (L.dir i) (region p) = kernelEntry page) :
    Returns (load (pgtbl i (p >>> 12))) s (s.mem page (slot p)) s := by
  refine .demand ?_
  rw [h.translate_table table]
  rfl

/-- Storing an entry through a window. -/
lemma Windows.store (h : Windows L s) {i : Fin 8} {p : Addr} {page : Page}
    (table : s.mem (L.dir i) (region p) = kernelEntry page) (x : BitVec 32) :
    Returns (store (pgtbl i (p >>> 12)) x) s () (s.set page (slot p) x) :=
  .bind (.demand (h.translate_table table)) (.update _ _)

/-- The windows are not changed by the table of address spaces, and not by user regions. -/
lemma Windows.congr (h : Windows L s) {s' : Machine} (mem : s'.mem = s.mem) (cr3 : s'.cr3 = s.cr3) : Windows L s' := by
  refine ⟨?_, fun i j => ?_⟩
  · rw [cr3]
    exact h.cr3
  · rw [mem]
    exact h.windows i j

/-- The windows are not regions of the user. -/
lemma Layout.user_ne_window (L : Layout) {k : BitVec 10} (user : L.user k) (i : Fin 8) : window i ≠ k := by
  intro same
  have low := L.user_low k user
  rw [← same, window_toNat] at low
  omega

/-! ### Address spaces -/

/-- A slot that is taken for an address space is then the slot of it. -/
lemma Asids.find_taken {a : Asids} {vid : BitVec 32} (missing : a.find vid = none) (j : Fin 8) (seqs : Fin 8 → BitVec 32)
    (seq : BitVec 32) : (Asids.mk (Function.update a.vid j vid) seqs seq).find vid = some j := by
  have none_has : ∀ k, a.vid k ≠ vid := by
    intro k same
    have differs := List.find?_eq_none.mp missing k (List.mem_finRange k)
    exact differs (decide_eq_true same)
  cases found : (Asids.mk (Function.update a.vid j vid) seqs seq).find vid with
  | none =>
    have differs := List.find?_eq_none.mp found j (List.mem_finRange j)
    exact absurd (decide_eq_true (Function.update_self j vid a.vid)) differs
  | some k =>
    have test := List.find?_some (p := fun k => decide (Function.update a.vid j vid k = vid)) found
    have has : Function.update a.vid j vid k = vid := of_decide_eq_true test
    by_cases same : k = j
    · rw [same]
    · rw [Function.update_of_ne same] at has
      exact absurd has (none_has k)

/-- A second call gives the same slot. -/
lemma Asids.get_again {a a' : Asids} {vid : BitVec 32} {i : Fin 8} (h : a.get vid = some (i, a')) :
    a'.get vid = some (i, a') := by
  rw [Asids.get] at h
  split at h
  · next found =>
    cases h
    have again : (Asids.mk a.vid (Function.update a.seqs i a.seq) a.seq).find vid = some i := found
    rw [Asids.get, again]
    simp only [Function.update_idem]
  · next missing =>
    obtain ⟨j, -, rest⟩ := Option.map_eq_some_iff.mp h
    cases rest
    rw [Asids.get, Asids.find_taken missing]
    simp only [Function.update_idem]

/-- `vmap_get_pgtable` for the kernel. -/
lemma vmapGetPgtable_kernel (s : Machine) : Returns (vmapGetPgtable 0) s 0 s := by
  rw [vmapGetPgtable, if_pos rfl]
  exact .pure 0 s

/-- An id that has a window, or gets one. -/
lemma vmapGetPgtable_found {vid : BitVec 32} (ne : vid ≠ 0) {s : Machine} {i : Fin 8} {a : Asids}
    (get : s.asids.get vid = some (i, a)) : Returns (vmapGetPgtable vid) s i { s with asids := a } := by
  rw [vmapGetPgtable, if_neg ne]
  exact .bind (.demand get) (.bind (.update _ _) (.pure _ _))

/-- An id that has a window gets the same one again. -/
lemma vmapGetPgtable_again {vid : BitVec 32} (ne : vid ≠ 0) {s : Machine} {i : Fin 8} {a : Asids}
    (get : s.asids.get vid = some (i, a)) :
    Returns (vmapGetPgtable vid) { s with asids := a } i { s with asids := a } :=
  vmapGetPgtable_found ne (s := { s with asids := a }) (Asids.get_again get)

/-! ### `vmap_set_pte` -/

/-- `vmap_get_page` for an address in the first window gives the page table that the first directory has. -/
lemma Windows.getTable (h : Windows L s) {vid : BitVec 32} {i : Fin 8} (get : Returns (vmapGetPgtable vid) s i s)
    (p : Addr) : Returns (vmapGetPage vid (pgtbl 0 (p >>> 12))) s (shows (s.mem (L.dir 0) (region p))) s := by
  refine .bind get (.bind ?_ (.pure _ _))
  have table : s.mem (L.dir i) (region (pgtbl 0 (p >>> 12))) = kernelEntry (L.dir 0) := by
    rw [region_pgtbl]
    exact h.windows i 0
  have loaded := h.load table
  rw [slot_pgtbl] at loaded
  exact loaded

/-- The calls that the body makes are at the budget it was given. -/
lemma setPteBody_local (fresh : Nat → Page) (c : SetPte) : Local fun f => setPteBody fresh f c := by
  refine .bind (.const _) fun i => .bind (.const _) fun present => .bind (.when ?_) fun _ => .const _
  exact .bind (.const _) fun page => .each (fun j => .self _) _

/-- An entry for an address whose region has a page table. -/
lemma Windows.setPte_table (h : Windows L s) {s' : Machine} {c : SetPte} {i : Fin 8} {table : Page}
    (get : Returns (vmapGetPgtable c.vid) s i s') (again : Returns (vmapGetPgtable c.vid) s' i s')
    (mem : s'.mem = s.mem) (cr3 : s'.cr3 = s.cr3) (ne : table ≠ 0)
    (tables : ∀ j, s.mem (L.dir j) (region c.vaddress) = kernelEntry table) :
    Returns (vmapSetPte L.fresh c) s () (s'.set table (slot c.vaddress) c.pte) := by
  have h' := h.congr mem cr3
  have tables' : ∀ j, s'.mem (L.dir j) (region c.vaddress) = kernelEntry table := by
    rw [mem]
    exact tables
  refine .call (setPteBody_local _ _) (.bind get (.bind (h'.getTable again _) (.bind (.when_neg ?_) ?_)))
  · rw [tables' 0]
    exact shows_kernelEntry ne
  · exact h'.store (tables' i) _

/-- An entry of a directory itself, which is an entry for the kernel in a window. -/
lemma Windows.setPte_dir (h : Windows L s) (j : Fin 8) (p : Addr) (pte : BitVec 32) :
    Returns (vmapSetPte L.fresh ⟨0, pgtbl j (p >>> 12), pte⟩) s () (s.set (L.dir j) (region p) pte) := by
  have get := vmapGetPgtable_kernel s
  have entered := h.setPte_table (c := ⟨0, pgtbl j (p >>> 12), pte⟩) get get rfl rfl (L.dir_ne j)
    (fun i => (congrArg (s.mem (L.dir i)) (region_pgtbl j p)).trans (h.windows i j))
  rw [slot_pgtbl] at entered
  exact entered

/-- Writing a page table keeps the windows. -/
lemma Windows.set (h : Windows L s) {page : Page} {k : BitVec 10} (apart : ∀ i j, L.dir i = page → window j ≠ k)
    (x : BitVec 32) : Windows L (s.set page k x) := by
  refine ⟨h.cr3, fun i j => ?_⟩
  rw [← h.windows i j]
  by_cases same : L.dir i = page
  · exact s.set_mem_word _ _ (apart i j same) x
  · rw [s.set_mem_page same]

/-- Assign the same entry of several directories. -/
def Machine.enter (L : Layout) (k : BitVec 10) (x : BitVec 32) (s : Machine) (js : List (Fin 8)) : Machine :=
  js.foldl (fun s j => s.set (L.dir j) k x) s

variable {k : BitVec 10} {x : BitVec 32} {js : List (Fin 8)}

/-- Entering a page table into all directories keeps the windows. -/
lemma Windows.enter (h : Windows L s) (user : L.user k) : Windows L (s.enter L k x js) := by
  induction js generalizing s with
  | nil => exact h
  | cons j js ih => exact ih (h.set (fun _ j _ => L.user_ne_window user j) x)

/-- The directories that have the entry already keep it. -/
lemma Machine.enter_mem_again {i : Fin 8} (has : s.mem (L.dir i) k = x) : (s.enter L k x js).mem (L.dir i) k = x := by
  induction js generalizing s with
  | nil => exact has
  | cons j js ih =>
    apply ih
    by_cases same : L.dir i = L.dir j
    · rw [same, s.set_mem_self]
    · rw [s.set_mem_page same, has]

/-- The entry is in every directory. -/
lemma Machine.enter_mem {i : Fin 8} (mem : i ∈ js) : (s.enter L k x js).mem (L.dir i) k = x := by
  induction js generalizing s with
  | nil => cases mem
  | cons j js ih =>
    cases mem with
    | head => exact enter_mem_again (s := s.set (L.dir i) k x) (s.set_mem_self _ _ x)
    | tail _ mem => exact ih mem

/-- Entering a page table leaves the other words. -/
lemma Machine.enter_mem_word {page : Page} {w : BitVec 10} (ne : w ≠ k) :
    (s.enter L k x js).mem page w = s.mem page w := by
  induction js generalizing s with
  | nil => rfl
  | cons j js ih => rw [Machine.enter, List.foldl_cons, ← Machine.enter, ih, s.set_mem_word _ _ ne]

/-- Entering a page table leaves the other pages. -/
lemma Machine.enter_mem_page {page : Page} (ne : ∀ i, page ≠ L.dir i) : (s.enter L k x js).mem page = s.mem page := by
  induction js generalizing s with
  | nil => rfl
  | cons j js ih => rw [Machine.enter, List.foldl_cons, ← Machine.enter, ih, s.set_mem_page (ne j)]

/-- Only memory changes. -/
lemma Machine.enter_rest : (s.enter L k x js).asids = s.asids ∧ (s.enter L k x js).allocs = s.allocs := by
  induction js generalizing s with
  | nil => exact ⟨rfl, rfl⟩
  | cons j js ih => exact ih (s := s.set (L.dir j) k x)

/-- A new page table is entered into all directories. -/
lemma Windows.enter_all (h : Windows L s) {p : Addr} (user : L.user (region p)) :
    Returns (each (fun j => vmapSetPte L.fresh ⟨0, pgtbl j (p >>> 12), x⟩) js) s () (s.enter L (region p) x js) := by
  induction js generalizing s with
  | nil => exact .pure () s
  | cons j js ih => exact .bind (h.setPte_dir j p x) (ih (h.set (fun _ j _ => L.user_ne_window user j) x))

/-- The state with a new page table for a region. -/
def Machine.grow (L : Layout) (k : BitVec 10) (s : Machine) : Machine :=
  Machine.enter L k (kernelEntry (L.fresh s.allocs)) { s with allocs := s.allocs + 1 } (List.finRange 8)

/-- An entry for an address whose region has no page table. -/
lemma Windows.setPte_new (h : Windows L s) {s' : Machine} {c : SetPte} {i : Fin 8}
    (get : Returns (vmapGetPgtable c.vid) s i s') (again : Returns (vmapGetPgtable c.vid) s' i s')
    (mem : s'.mem = s.mem) (cr3 : s'.cr3 = s.cr3) (user : L.user (region c.vaddress))
    (absent : s.mem (L.dir 0) (region c.vaddress) &&& 1 = 0) :
    Returns (vmapSetPte L.fresh c) s ()
      ((s'.grow L (region c.vaddress)).set (L.fresh s'.allocs) (slot c.vaddress) c.pte) := by
  have h' := h.congr mem cr3
  have grown : Windows L { s' with allocs := s'.allocs + 1 } := ⟨h'.cr3, h'.windows⟩
  have missing : shows (s'.mem (L.dir 0) (region c.vaddress)) = 0 := by rw [mem, shows, if_neg (not_not_intro absent)]
  have page : Returns (pageAlloc L.fresh) s' ((L.fresh s'.allocs).setWidth 32) { s' with allocs := s'.allocs + 1 } :=
    .bind (.asks _ _) (.bind (.update _ _) (.pure _ _))
  refine .call (setPteBody_local _ _) (.bind get (.bind (h'.getTable again _) ?_))
  refine .bind (.when_pos missing (.bind page (grown.enter_all user))) ?_
  exact (grown.enter user).store (Machine.enter_mem (List.mem_finRange i)) _

end Window

end Twcos.Vmap
