import Twcos.Vmap.Window

/-!
# Address spaces share their page tables

What `vmap_get_page` gives after a sequence of `vmap_map`, `vmap_mapn` and `vmap_unmap` for user addresses. A new page
table is entered into all eight directories, so there is only one for each region of 4 MiB, whatever the address space. It
is not cleared, and where there is none yet, `vmap_get_page` faults. `Alone` says in which cases the result is the page that
was last mapped for the address space itself (`finds_iff`).

Every operation is a sequence of entries, a `Put` each. What is in the tables then follows from the puts alone: `tables` are
the pages that they are in, `left` is the entry for an address, and `slots` is the table of address spaces.
-/

namespace Twcos.Vmap
open Twcos.Prog Function

/-! ### Entries for address spaces -/

/-- A call of `vmap_set_pte` for a user address: the page with `rw` and `user`, or nothing. -/
structure Put where
  vid : BitVec 32
  vaddress : Addr
  entry : Option (BitVec 32 × Bool × Bool)

def Put.pte (p : Put) : BitVec 32 := p.entry.elim 0 fun e => pteOf e.1 e.2.1 e.2.2

/-- The page that is mapped then. -/
def Put.page (p : Put) : BitVec 32 := p.entry.elim 0 Prod.fst

/-- The put is for the page of an address. -/
def Put.covers (p : Put) (v : Addr) : Bool := p.vaddress >>> 12 = v >>> 12

def Put.run (fresh : Nat → Page) (p : Put) : Code Unit := vmapSetPte fresh ⟨p.vid, p.vaddress, p.pte⟩

inductive VmapOp where
  | map (vid : BitVec 32) (vaddress : Addr) (page : BitVec 32) (rw user : Bool)
  | mapn (vid : BitVec 32) (n : Nat) (vaddress : Addr) (page : BitVec 32) (rw user : Bool)
  | unmap (vid : BitVec 32) (vaddress : Addr)

def VmapOp.run (fresh : Nat → Page) : VmapOp → Code Unit
  | map vid vaddress page rw user => vmapMap fresh vid vaddress page rw user
  | mapn vid n vaddress page rw user => vmapMapn fresh vid n vaddress page rw user
  | unmap vid vaddress => vmapUnmap fresh vid vaddress

def VmapOp.puts : VmapOp → List Put
  | map vid vaddress page rw user => [⟨vid, vaddress, some (page, rw, user)⟩]
  | mapn vid n vaddress page rw user => (List.range n).map fun i =>
      ⟨vid, vaddress + BitVec.ofNat 32 (4096 * i), some (page + BitVec.ofNat 32 i, rw, user)⟩
  | unmap vid vaddress => [⟨vid, vaddress, none⟩]

/-- An operation is a list of single entries. -/
lemma VmapOp.run_eq (fresh : Nat → Page) (op : VmapOp) : op.run fresh = each (Put.run fresh) op.puts := by
  cases op with
  | map vid vaddress page rw user => exact (each_singleton _ _).symm
  | mapn vid n vaddress page rw user =>
    rw [VmapOp.puts, each_map]
    rfl
  | unmap vid vaddress => exact (each_singleton _ _).symm

/-! ### What the puts leave -/

/-- The page table of each region, and how many pages were allocated. -/
structure Tables where
  table : BitVec 10 → Option Page
  allocs : Nat

/-- A region gets a page table, if it has none. -/
def Tables.touch (L : Layout) (T : Tables) (k : BitVec 10) : Tables :=
  match T.table k with
  | some _ => T
  | none => ⟨update T.table k (some (L.fresh T.allocs)), T.allocs + 1⟩

def tables (L : Layout) (T : Tables) (puts : List Put) : Tables := puts.foldl (fun T p => T.touch L (region p.vaddress)) T

def slots (a : Asids) (puts : List Put) : Option Asids := puts.foldlM (fun a p => (a.get p.vid).map Prod.snd) a

/-- The last put for an address, by any address space. -/
def lastAt (puts : List Put) (v : Addr) : Option Put := puts.reverse.find? fun p => p.covers v

/-- The entry for an address: that of the last put, or what was in the page of the table at the start. -/
def left (mem : Memory) (table : Page) (puts : List Put) (v : Addr) : BitVec 32 :=
  (lastAt puts v).elim (mem table (slot v)) Put.pte

/-- The page that was last mapped for an address space, and not unmapped since, or `0`. -/
def wanted (puts : List Put) (vid : BitVec 32) (v : Addr) : BitVec 32 :=
  (puts.reverse.find? fun p => p.vid = vid ∧ p.covers v).elim 0 Put.page

section Tables
variable {L : Layout} {T : Tables} {k : BitVec 10} {t : Page}

/-- A region with a page table keeps it. -/
lemma Tables.touch_some (has : T.table k = some t) : T.touch L k = T := by
  rw [Tables.touch, has]

/-- A region without one gets a fresh page. -/
lemma Tables.touch_none (hasNone : T.table k = none) :
    T.touch L k = ⟨update T.table k (some (L.fresh T.allocs)), T.allocs + 1⟩ := by
  rw [Tables.touch, hasNone]

/-- A page table stays. -/
lemma Tables.touch_keeps (has : T.table k = some t) (k' : BitVec 10) : (T.touch L k').table k = some t := by
  cases touched : T.table k' with
  | some t' => rw [Tables.touch_some touched, has]
  | none =>
    have ne : k ≠ k' := by
      intro same
      rw [same, touched] at has
      cases has
    rw [Tables.touch_none touched]
    exact (update_of_ne ne _ _).trans has

/-- Afterwards it has one. -/
lemma Tables.touch_has (T : Tables) (k : BitVec 10) : ∃ t, (T.touch L k).table k = some t := by
  cases touched : T.table k with
  | some t => exact ⟨t, Tables.touch_keeps touched k⟩
  | none =>
    rw [Tables.touch_none touched]
    exact ⟨_, update_self ..⟩

/-- The page tables after a new one. -/
lemma Tables.touch_new (hasNone : T.table k = none) {k' : BitVec 10} (has : (T.touch L k).table k' = some t) :
    k' = k ∧ t = L.fresh T.allocs ∨ k' ≠ k ∧ T.table k' = some t := by
  rw [Tables.touch_none hasNone] at has
  change update T.table k (some (L.fresh T.allocs)) k' = some t at has
  by_cases same : k' = k
  · rw [same, update_self] at has
    exact .inl ⟨same, (Option.some.inj has).symm⟩
  · rw [update_of_ne same] at has
    exact .inr ⟨same, has⟩

/-- The regions that still have none. -/
lemma Tables.touch_still (hasNone : T.table k = none) {k' : BitVec 10} (still : (T.touch L k).table k' = none) :
    k' ≠ k ∧ T.table k' = none := by
  rw [Tables.touch_none hasNone] at still
  change update T.table k (some (L.fresh T.allocs)) k' = none at still
  by_cases same : k' = k
  · rw [same, update_self] at still
    cases still
  · rw [update_of_ne same] at still
    exact ⟨same, still⟩

variable (L T) in
/-- The page tables after one more entry. -/
lemma tables_concat (puts : List Put) (p : Put) : tables L T (puts ++ [p]) = (tables L T puts).touch L (region p.vaddress) :=
  List.foldl_append

/-- A page table stays. -/
lemma tables_keeps (puts : List Put) (has : T.table k = some t) : (tables L T puts).table k = some t := by
  induction puts generalizing T with
  | nil => exact has
  | cons p puts ih => exact ih (Tables.touch_keeps has _)

/-- The region of a put has a page table. -/
lemma tables_has {puts : List Put} {p : Put} (mem : p ∈ puts) :
    ∃ t, (tables L T puts).table (region p.vaddress) = some t := by
  induction puts generalizing T with
  | nil => cases mem
  | cons q puts ih =>
    cases mem with
    | head =>
      obtain ⟨t, has⟩ := Tables.touch_has (L := L) T (region p.vaddress)
      exact ⟨t, tables_keeps puts has⟩
    | tail _ mem => exact ih mem

/-- An entry is written at the place of an address if region and slot are the same. -/
lemma Put.covers_iff (p : Put) (v : Addr) :
    p.covers v = true ↔ region p.vaddress = region v ∧ slot p.vaddress = slot v := by
  rw [← page_eq_iff]
  exact decide_eq_true_iff

/-- There was no put in a region without a page table. -/
lemma lastAt_none {puts : List Put} {v : Addr} (hasNone : (tables L T puts).table (region v) = none) :
    lastAt puts v = none := by
  apply List.find?_eq_none.mpr
  intro p mem covers
  obtain ⟨t, has⟩ := tables_has (L := L) (T := T) (List.mem_reverse.mp mem)
  rw [((p.covers_iff v).mp covers).1, hasNone] at has
  cases has

end Tables

/-- What is left at an address after one more entry. -/
lemma left_concat (mem : Memory) (t : Page) (puts : List Put) (p : Put) (v : Addr) :
    left mem t (puts ++ [p]) v = if p.covers v then p.pte else left mem t puts v := by
  rw [left, lastAt, List.reverse_append, List.reverse_singleton, List.singleton_append, List.find?_cons]
  cases p.covers v with
  | true => rfl
  | false => rfl

/-- The slots after one more entry. -/
lemma slots_concat {a a' : Asids} {puts : List Put} (before : slots a puts = some a') (p : Put) :
    slots a (puts ++ [p]) = (a'.get p.vid).map Prod.snd := by
  rw [slots] at before
  rw [slots, List.foldlM_append, before]
  exact Option.bind_fun_some _

/-- Once there is no slot, none follows. -/
lemma slots_append_none {a : Asids} {puts : List Put} (failed : slots a puts = none) (more : List Put) :
    slots a (puts ++ more) = none := by
  rw [slots] at failed
  rw [slots, List.foldlM_append, failed]
  rfl

/-! ### The tables in memory -/

/-- The directories have the same page tables for user addresses, and enough pages are left for the regions without one. -/
structure Shared (L : Layout) (T : Tables) (s : Machine) : Prop extends Windows L s where
  allocs : s.allocs = T.allocs
  room : ∃ free : List (BitVec 10), (∀ k, L.user k → T.table k = none → k ∈ free) ∧ T.allocs + free.length ≤ L.limit
  absent : ∀ k, L.user k → T.table k = none → ∀ i, s.mem (L.dir i) k &&& 1 = 0
  present : ∀ k t, L.user k → T.table k = some t → ∀ i, s.mem (L.dir i) k = kernelEntry t
  ne : ∀ k t, L.user k → T.table k = some t → t ≠ 0
  dir : ∀ k t, L.user k → T.table k = some t → ∀ i, t ≠ L.dir i
  inj : ∀ k k' t, L.user k → L.user k' → T.table k = some t → T.table k' = some t → k = k'
  later : ∀ k t n, L.user k → T.table k = some t → T.allocs ≤ n → n < L.limit → t ≠ L.fresh n

section Memory
variable {L : Layout} {T : Tables} {s : Machine} {k : BitVec 10} {t : Page}

/-- There is a page left. -/
lemma Shared.more (h : Shared L T s) (user : L.user k) (hasNone : T.table k = none) : T.allocs < L.limit := by
  obtain ⟨free, all, length⟩ := h.room
  have pos := List.length_pos_of_mem (all k user hasNone)
  omega

/-- The table of address spaces is apart from the page tables. -/
lemma Shared.congr (h : Shared L T s) {s' : Machine} (mem : s'.mem = s.mem) (cr3 : s'.cr3 = s.cr3)
    (allocs : s'.allocs = s.allocs) : Shared L T s' where
  toWindows := h.toWindows.congr mem cr3
  allocs := allocs.trans h.allocs
  room := h.room
  absent := mem ▸ h.absent
  present := mem ▸ h.present
  ne := h.ne
  dir := h.dir
  inj := h.inj
  later := h.later

/-- Assign an entry of a page table. -/
lemma Shared.set (h : Shared L T s) (user : L.user k) (has : T.table k = some t) (w : BitVec 10) (x : BitVec 32) :
    Shared L T (s.set t w x) := by
  have same : ∀ i, (s.set t w x).mem (L.dir i) = s.mem (L.dir i) := fun i =>
    s.set_mem_page (h.dir k t user has i).symm w x
  have windows : Windows L (s.set t w x) :=
    h.toWindows.set (fun i _ this => absurd this.symm (h.dir k t user has i)) x
  refine ⟨windows, h.allocs, h.room, ?_, ?_, h.ne, h.dir, h.inj, h.later⟩
  · intro k' user' hasNone i
    rw [same]
    exact h.absent k' user' hasNone i
  · intro k' t' user' has' i
    rw [same]
    exact h.present k' t' user' has' i

/-- A region gets a page table, in all directories. -/
lemma Shared.grow (h : Shared L T s) (user : L.user k) (hasNone : T.table k = none) :
    Shared L (T.touch L k) (s.grow L k) := by
  have more := h.more user hasNone
  have allocs : (T.touch L k).allocs = T.allocs + 1 := by rw [Tables.touch_none hasNone]
  have other : ∀ k', k' ≠ k → ∀ i, (s.grow L k).mem (L.dir i) k' = s.mem (L.dir i) k' := fun k' ne i =>
    Machine.enter_mem_word ne
  have start : Windows L { s with allocs := s.allocs + 1 } := ⟨h.cr3, h.windows⟩
  refine ⟨start.enter user, ?_, ?_, ?_, ?_, ?_, ?_, ?_, ?_⟩
  · rw [allocs, ← h.allocs]
    exact Machine.enter_rest.2
  · obtain ⟨free, all, length⟩ := h.room
    have mem := all k user hasNone
    refine ⟨free.erase k, fun k' user' still => ?_, ?_⟩
    · obtain ⟨ne, hasNone'⟩ := Tables.touch_still hasNone still
      exact (List.mem_erase_of_ne ne).mpr (all k' user' hasNone')
    · have pos := List.length_pos_of_mem mem
      rw [allocs, List.length_erase_of_mem mem]
      omega
  · intro k' user' still i
    obtain ⟨ne, hasNone'⟩ := Tables.touch_still hasNone still
    rw [other k' ne i]
    exact h.absent k' user' hasNone' i
  · intro k' t' user' has i
    rcases Tables.touch_new hasNone has with ⟨rfl, rfl⟩ | ⟨ne, has'⟩
    · rw [← h.allocs]
      exact Machine.enter_mem (List.mem_finRange i)
    · rw [other k' ne i]
      exact h.present k' t' user' has' i
  · intro k' t' user' has
    rcases Tables.touch_new hasNone has with ⟨-, rfl⟩ | ⟨-, has'⟩
    · exact L.fresh_ne _ more
    · exact h.ne k' t' user' has'
  · intro k' t' user' has i
    rcases Tables.touch_new hasNone has with ⟨-, rfl⟩ | ⟨-, has'⟩
    · exact L.fresh_dir _ i more
    · exact h.dir k' t' user' has' i
  · intro k1 k2 t' user1 user2 has1 has2
    rcases Tables.touch_new hasNone has1 with ⟨same1, page1⟩ | ⟨-, has1'⟩
    · rcases Tables.touch_new hasNone has2 with ⟨same2, -⟩ | ⟨-, has2'⟩
      · rw [same1, same2]
      · exact absurd page1 (h.later k2 t' _ user2 has2' (le_refl _) more)
    · rcases Tables.touch_new hasNone has2 with ⟨-, page2⟩ | ⟨-, has2'⟩
      · exact absurd page2 (h.later k1 t' _ user1 has1' (le_refl _) more)
      · exact h.inj k1 k2 t' user1 user2 has1' has2'
  · intro k' t' n user' has le lt
    rw [allocs] at le
    rcases Tables.touch_new hasNone has with ⟨-, rfl⟩ | ⟨-, has'⟩
    · intro same
      have := L.fresh_inj _ _ more lt same
      omega
    · exact h.later k' t' n user' has' (by omega) lt

/-- A put: the region has a page table then, only directories and this entry change. -/
lemma Shared.put (h : Shared L T s) {p : Put} (vid : p.vid ≠ 0) (user : L.user (region p.vaddress)) {i : Fin 8}
    {a : Asids} (get : s.asids.get p.vid = some (i, a)) :
    ∃ t b, (T.touch L (region p.vaddress)).table (region p.vaddress) = some t ∧
      Shared L (T.touch L (region p.vaddress)) b ∧ b.asids = a ∧
      (∀ page, (∀ i, page ≠ L.dir i) → b.mem page = s.mem page) ∧
      Returns (p.run L.fresh) s () (b.set t (slot p.vaddress) p.pte) := by
  have found := vmapGetPgtable_found vid get
  have again := vmapGetPgtable_again vid get
  cases touched : T.table (region p.vaddress) with
  | some t =>
    rw [Tables.touch_some touched]
    refine ⟨t, { s with asids := a }, touched, h.congr rfl rfl rfl, rfl, fun _ _ => rfl, ?_⟩
    exact h.setPte_table (c := ⟨p.vid, p.vaddress, p.pte⟩) found again rfl rfl (h.ne _ t user touched)
      (h.present _ t user touched)
  | none =>
    have h' : Shared L T { s with asids := a } := h.congr rfl rfl rfl
    refine ⟨L.fresh s.allocs, Machine.grow L (region p.vaddress) { s with asids := a }, ?_, h'.grow user touched,
      Machine.enter_rest.1, fun page ne => Machine.enter_mem_page ne, ?_⟩
    · rw [Tables.touch_none touched, h.allocs]
      exact update_self ..
    · exact h.setPte_new (c := ⟨p.vid, p.vaddress, p.pte⟩) found again rfl rfl user (h.absent _ user touched 0)

end Memory

/-! ### Sequences of puts -/

/-- The machine after some puts, with what they leave. -/
structure Holds (L : Layout) (T : Tables) (start : Machine) (puts : List Put) (s : Machine) : Prop where
  shared : Shared L (tables L T puts) s
  asids : slots start.asids puts = some s.asids
  entry : ∀ v t, L.user (region v) → (tables L T puts).table (region v) = some t →
    s.mem t (slot v) = left start.mem t puts v
  spare : ∀ n, (tables L T puts).allocs ≤ n → n < L.limit → s.mem (L.fresh n) = start.mem (L.fresh n)

section Puts
variable {L : Layout} {T : Tables} {start s : Machine} {puts : List Put}

/-- The state at the start. -/
lemma Shared.holds (h : Shared L T s) : Holds L T s [] s :=
  ⟨h, rfl, fun _ _ _ _ => rfl, fun _ _ _ => rfl⟩

/-- What was in memory for an address before its next put. -/
lemma Holds.before (h : Holds L T start puts s) {k : BitVec 10} {v : Addr} {t : Page} (user : L.user (region v))
    (has : ((tables L T puts).touch L k).table (region v) = some t) : s.mem t (slot v) = left start.mem t puts v := by
  cases was : (tables L T puts).table (region v) with
  | some t' =>
    have same := has.symm.trans (Tables.touch_keeps was k)
    cases same
    exact h.entry v t user was
  | none =>
    -- the region gets a page that was not used so far
    have more := h.shared.more user was
    cases touched : (tables L T puts).table k with
    | some t' =>
      rw [Tables.touch_some touched, was] at has
      cases has
    | none =>
      rcases Tables.touch_new touched has with ⟨-, rfl⟩ | ⟨-, has'⟩
      · rw [h.spare _ (le_refl _) more, left, lastAt_none was]
        rfl
      · rw [was] at has'
        cases has'

/-- One more put. -/
lemma Holds.step (h : Holds L T start puts s) {p : Put} (vid : p.vid ≠ 0) (user : L.user (region p.vaddress)) {i : Fin 8}
    {a : Asids} (get : s.asids.get p.vid = some (i, a)) :
    ∃ s', Returns (p.run L.fresh) s () s' ∧ Holds L T start (puts ++ [p]) s' := by
  obtain ⟨t, b, has, shared, asids, same, returns⟩ := h.shared.put vid user get
  have allocs : (tables L T puts).allocs ≤ ((tables L T puts).touch L (region p.vaddress)).allocs := by
    rw [Tables.touch]
    split
    · exact le_refl _
    · exact Nat.le_succ _
  refine ⟨b.set t (slot p.vaddress) p.pte, returns, ?_, ?_, ?_, ?_⟩
  · rw [tables_concat]
    exact shared.set user has _ _
  · rw [slots_concat h.asids, get]
    exact congrArg some asids.symm
  · intro v t' user' has'
    rw [tables_concat] at has'
    rw [left_concat]
    have before := (congrFun (same t' (shared.dir _ t' user' has')) (slot v)).trans (h.before user' has')
    split
    · next covers =>
      obtain ⟨sameRegion, sameSlot⟩ := (p.covers_iff v).mp covers
      rw [← sameRegion, has] at has'
      cases has'
      rw [← sameSlot, Machine.set_mem_self]
    · next apart =>
      rw [← before]
      by_cases sameTable : t' = t
      · -- the same table, so the same region, and another entry of it
        rw [sameTable] at has'
        have sameRegion := shared.inj _ _ t user user' has has'
        have otherSlot : slot v ≠ slot p.vaddress := fun sameSlot =>
          apart ((p.covers_iff v).mpr ⟨sameRegion, sameSlot.symm⟩)
        exact b.set_mem_word _ _ otherSlot _
      · rw [b.set_mem_page sameTable]
  · intro n le lt
    rw [tables_concat] at le
    rw [b.set_mem_page (shared.later _ t n user has le lt).symm, same _ fun i => L.fresh_dir n i lt]
    exact h.spare n (le_trans allocs le) lt

/-- There is no slot for the address space of a put. -/
lemma Put.run_raises {p : Put} (vid : p.vid ≠ 0) (full : s.asids.get p.vid = none) : Raises (p.run L.fresh) s .lowi := by
  refine .call (setPteBody_local _ _) (.first ?_)
  rw [vmapGetPgtable, if_neg vid]
  exact .first (.demand full)

/-- A sequence of puts ends, unless there is no slot for an address space. -/
lemma Holds.run (h : Holds L T start puts s) (more : List Put)
    (users : ∀ p ∈ more, p.vid ≠ 0 ∧ L.user (region p.vaddress)) :
    (∃ s', Returns (each (Put.run L.fresh) more) s () s' ∧ Holds L T start (puts ++ more) s') ∨
      Raises (each (Put.run L.fresh) more) s .lowi ∧ slots start.asids (puts ++ more) = none := by
  induction more generalizing puts s with
  | nil =>
    rw [List.append_nil]
    exact .inl ⟨s, .pure () s, h⟩
  | cons p more ih =>
    obtain ⟨vid, user⟩ := users p List.mem_cons_self
    cases get : s.asids.get p.vid with
    | none =>
      have none := slots_concat h.asids p
      rw [get] at none
      refine .inr ⟨.first (Put.run_raises vid get), ?_⟩
      rw [List.append_cons]
      exact slots_append_none none more
    | some r =>
      obtain ⟨s1, first, h1⟩ := h.step vid user get
      rw [List.append_cons]
      cases ih h1 fun q mem => users q (List.mem_cons_of_mem p mem) with
      | inl done =>
        obtain ⟨s2, rest, h2⟩ := done
        exact .inl ⟨s2, .bind first rest, h2⟩
      | inr failed => exact .inr ⟨.rest first failed.1, failed.2⟩

/-- `vmap_get_page` after some puts: it faults if there is no slot, or no page table. -/
lemma Holds.getPage_lowi {vid : BitVec 32} (ne : vid ≠ 0) (full : s.asids.get vid = none) (v : Addr) :
    Raises (vmapGetPage vid v) s .lowi := by
  refine .first ?_
  rw [vmapGetPgtable, if_neg ne]
  exact .first (.demand full)

/-- Asking for an address without a page table faults in the window. -/
lemma Holds.getPage_page (h : Holds L T start puts s) {vid : BitVec 32} (ne : vid ≠ 0) {i : Fin 8} {a : Asids}
    (get : s.asids.get vid = some (i, a)) {v : Addr} (user : L.user (region v))
    (hasNone : (tables L T puts).table (region v) = none) :
    Raises (vmapGetPage vid v) s (.page (pgtbl i (v >>> 12))) := by
  have windows : Windows L { s with asids := a } := h.shared.toWindows.congr rfl rfl
  refine .rest (vmapGetPgtable_found ne get) (.first (.demand ?_))
  rw [windows.translate, if_pos (h.shared.absent _ user hasNone i)]
  rfl

/-- Asking for an address with one reads its entry. -/
lemma Holds.getPage (h : Holds L T start puts s) {vid : BitVec 32} (ne : vid ≠ 0) {i : Fin 8} {a : Asids}
    (get : s.asids.get vid = some (i, a)) {v : Addr} (user : L.user (region v)) {t : Page}
    (has : (tables L T puts).table (region v) = some t) :
    Returns (vmapGetPage vid v) s (shows (left start.mem t puts v)) { s with asids := a } := by
  have windows : Windows L { s with asids := a } := h.shared.toWindows.congr rfl rfl
  rw [← h.entry v t user has]
  exact .bind (vmapGetPgtable_found ne get) (.bind (windows.load (h.shared.present _ t user has i)) (.pure _ _))

/-- When `vmap_get_page` gives a page. -/
lemma Holds.getPage_iff (h : Holds L T start puts s) {vid : BitVec 32} (ne : vid ≠ 0) {v : Addr} (user : L.user (region v))
    (page : BitVec 32) :
    (∃ s', Returns (vmapGetPage vid v) s page s') ↔
      s.asids.get vid ≠ none ∧ ∃ t, (tables L T puts).table (region v) = some t ∧ shows (left start.mem t puts v) = page := by
  cases get : s.asids.get vid with
  | none =>
    refine ⟨fun ⟨s', returns⟩ => absurd returns (Holds.getPage_lowi ne get v).not_returns, fun slot => ?_⟩
    exact absurd rfl slot.1
  | some r =>
    cases has : (tables L T puts).table (region v) with
    | none =>
      refine ⟨fun ⟨s', returns⟩ => absurd returns (h.getPage_page ne get user has).not_returns, fun slot => ?_⟩
      obtain ⟨-, t, table, -⟩ := slot
      cases table
    | some t =>
      have result := h.getPage ne get user has
      refine ⟨fun ⟨s', returns⟩ => ?_, fun ⟨_, t', table, shown⟩ => ?_⟩
      · exact ⟨Option.some_ne_none r, t, rfl, (result.unique returns).1⟩
      · cases table
        rw [shown] at result
        exact ⟨_, result⟩

end Puts

/-! ### Who finds their own pages -/

/-- The last put for an address is one of the address space itself, for one of the `2 ^ 20` pages, or is for the page that
it has there. If there was no put for the address, the region has a page table, with no entry in its page at the start. -/
def Own (L : Layout) (T : Tables) (start : Machine) (puts : List Put) (vid : BitVec 32) (v : Addr) : Prop :=
  match lastAt puts v with
  | some p => p.vid = vid ∧ p.page.toNat < 2 ^ 20 ∨ p.vid ≠ vid ∧ p.page.toNat % 2 ^ 20 = (wanted puts vid v).toNat
  | none => ∃ t, (tables L T puts).table (region v) = some t ∧ shows (start.mem t (slot v)) = 0

section Own
variable {puts : List Put} {vid : BitVec 32} {v : Addr} {p : Put}

/-- An entry is the page number with flags below it, the lowest of which is set. -/
lemma pteOf_flags (page : BitVec 32) (rw user : Bool) :
    ∃ flags : BitVec 32, pteOf page rw user = page <<< 12 ||| flags ∧ flags >>> 12 = 0 ∧ flags.toNat % 2 = 1 := by
  cases rw with
  | false =>
    cases user with
    | false => exact ⟨1, rfl, rfl, rfl⟩
    | true => exact ⟨1 ||| 4, BitVec.or_assoc _ _ _, rfl, rfl⟩
  | true =>
    cases user with
    | false => exact ⟨1 ||| 2, BitVec.or_assoc _ _ _, rfl, rfl⟩
    | true =>
      refine ⟨1 ||| 2 ||| 4, ?_, rfl, rfl⟩
      rw [← BitVec.or_assoc, ← BitVec.or_assoc]
      rfl

/-- What an entry shows is its page, cut off to 20 bits. -/
lemma shows_pteOf (page : BitVec 32) (rw user : Bool) : shows (pteOf page rw user) = page <<< 12 >>> 12 := by
  obtain ⟨flags, eq, high, odd⟩ := pteOf_flags page rw user
  have present : ¬pteOf page rw user &&& 1 = 0 := by
    rw [and_one, eq, BitVec.toNat_or]
    have set := Nat.or_mod_two_eq_one.mpr (.inr odd : (page <<< 12).toNat % 2 = 1 ∨ _)
    omega
  rw [shows, if_pos present, eq, BitVec.ushiftRight_or_distrib, high]
  exact BitVec.or_zero

/-- `vmap_get_page` has the lower bits of a page number only. -/
lemma shows_pte (p : Put) : (shows p.pte).toNat = p.page.toNat % 2 ^ 20 := by
  rw [Put.pte, Put.page]
  cases p.entry with
  | none => rfl
  | some e =>
    show (shows (pteOf e.1 e.2.1 e.2.2)).toNat = e.1.toNat % 2 ^ 20
    rw [shows_pteOf, BitVec.toNat_ushiftRight, BitVec.toNat_shiftLeft, Nat.shiftRight_eq_div_pow, Nat.shiftLeft_eq]
    omega

/-- The last put for an address is also the last of its own address space. -/
lemma wanted_own (last : lastAt puts v = some p) (own : p.vid = vid) : wanted puts vid v = p.page := by
  obtain ⟨covers, after, before, split, others⟩ := List.find?_eq_some_iff_append.mp last
  have found : puts.reverse.find? (fun p => decide (p.vid = vid ∧ p.covers v = true)) = some p := by
    refine List.find?_eq_some_iff_append.mpr ⟨decide_eq_true ⟨own, covers⟩, after, before, split, fun q mem => ?_⟩
    have other := others q mem
    simp only [Bool.not_eq_true'] at other ⊢
    rw [other]
    exact decide_eq_false fun both => Bool.false_ne_true both.2
  rw [wanted, found]
  rfl

/-- Nothing is wanted where nothing was mapped. -/
lemma wanted_none (none : lastAt puts v = none) : wanted puts vid v = 0 := by
  have found : puts.reverse.find? (fun p => decide (p.vid = vid ∧ p.covers v = true)) = Option.none :=
    List.find?_eq_none.mpr fun p mem both => List.find?_eq_none.mp none p mem (of_decide_eq_true both).2
  rw [wanted, found]
  rfl

/-- The entry is then for the page that the address space has. -/
lemma own_iff {L : Layout} {T : Tables} {start : Machine} : Own L T start puts vid v ↔
    ∃ t, (tables L T puts).table (region v) = some t ∧ shows (left start.mem t puts v) = wanted puts vid v := by
  rw [Own]
  cases last : lastAt puts v with
  | none =>
    simp only [left, last, wanted_none last]
    rfl
  | some p =>
    obtain ⟨t, has⟩ := tables_has (L := L) (T := T) (List.mem_reverse.mp (List.mem_of_find?_eq_some last))
    have covers := List.find?_some (p := fun p : Put => p.covers v) last
    rw [((p.covers_iff v).mp covers).1] at has
    have shown : (∃ t, (tables L T puts).table (region v) = some t ∧ shows (left start.mem t puts v) = wanted puts vid v) ↔
        p.page.toNat % 2 ^ 20 = (wanted puts vid v).toNat := by
      rw [← shows_pte, BitVec.toNat_inj]
      simp only [left, last]
      exact ⟨fun ⟨_, _, same⟩ => same, fun same => ⟨t, has, same⟩⟩
    rw [shown]
    refine ⟨fun cases => ?_, fun same => ?_⟩
    · rcases cases with ⟨own, low⟩ | ⟨-, same⟩
      · rw [wanted_own last own, Nat.mod_eq_of_lt low]
      · exact same
    · by_cases own : p.vid = vid
      · rw [wanted_own last own] at same
        exact .inl ⟨own, by omega⟩
      · exact .inr ⟨own, same⟩

end Own

/-- The address space is alone at an address: there was a slot for all address spaces, and it has the last put. -/
structure Alone (L : Layout) (T : Tables) (start : Machine) (puts : List Put) (vid : BitVec 32) (v : Addr) : Prop where
  slot : ∃ a, slots start.asids puts = some a ∧ a.get vid ≠ none
  own : Own L T start puts vid v

/-- After the operations, `vmap_get_page` gives the page that the address space itself has mapped. -/
def Finds (L : Layout) (start : Machine) (ops : List VmapOp) (vid : BitVec 32) (v : Addr) : Prop :=
  ∃ s s', Returns (each (VmapOp.run L.fresh) ops) start () s ∧
    Returns (vmapGetPage vid v) s (wanted (ops.flatMap VmapOp.puts) vid v) s'

section Finds
variable {L : Layout} {T : Tables} {start : Machine} {ops : List VmapOp} {vid : BitVec 32} {v : Addr}

/-- If the page is found, no other address space is in the way. -/
lemma Finds.alone (found : Finds L start ops vid v) (h : Shared L T start)
    (users : ∀ p ∈ ops.flatMap VmapOp.puts, p.vid ≠ 0 ∧ L.user (region p.vaddress)) (ne : vid ≠ 0)
    (user : L.user (region v)) : Alone L T start (ops.flatMap VmapOp.puts) vid v := by
  obtain ⟨s1, s', run', returns⟩ := found
  rw [each_flatMap (VmapOp.run_eq L.fresh)] at run'
  rcases h.holds.run _ users with ⟨s, run, after⟩ | ⟨failed, -⟩
  · obtain ⟨-, rfl⟩ := run.unique run'
    obtain ⟨slot, own⟩ := (after.getPage_iff ne user _).mp ⟨s', returns⟩
    exact ⟨⟨s.asids, after.asids, slot⟩, own_iff.mpr own⟩
  · exact absurd run' failed.not_returns

/-- If no other address space is in the way, the page is found. -/
lemma Alone.finds (alone : Alone L T start (ops.flatMap VmapOp.puts) vid v) (h : Shared L T start)
    (users : ∀ p ∈ ops.flatMap VmapOp.puts, p.vid ≠ 0 ∧ L.user (region p.vaddress)) (ne : vid ≠ 0)
    (user : L.user (region v)) : Finds L start ops vid v := by
  rw [Finds, each_flatMap (VmapOp.run_eq L.fresh)]
  obtain ⟨a, slots, slot⟩ := alone.slot
  rcases h.holds.run _ users with ⟨s, run, after⟩ | ⟨-, noSlot⟩
  · cases after.asids.symm.trans slots
    obtain ⟨s', returns⟩ := (after.getPage_iff ne user _).mpr ⟨slot, own_iff.mp alone.own⟩
    exact ⟨s, s', run, returns⟩
  · cases noSlot.symm.trans slots

end Finds

/-- Every address space finds its own pages just where it is alone. -/
theorem finds_iff {L : Layout} {T : Tables} {start : Machine} (h : Shared L T start) (ops : List VmapOp)
    (users : ∀ p ∈ ops.flatMap VmapOp.puts, p.vid ≠ 0 ∧ L.user (region p.vaddress)) {vid : BitVec 32} (ne : vid ≠ 0)
    {v : Addr} (user : L.user (region v)) :
    Finds L start ops vid v ↔ Alone L T start (ops.flatMap VmapOp.puts) vid v :=
  ⟨fun found => found.alone h users ne user, fun alone => alone.finds h users ne user⟩

/-! ### A machine after its start -/

/-- Directories at `0x100`, pages from `0x200` on, and the kernel at `0xc0000000`. -/
def bootLayout : Layout where
  dir i := BitVec.ofNat 20 (0x100 + i)
  fresh n := BitVec.ofNat 20 (0x200 + n)
  limit := 0x400
  user k := k.toNat < 0x300
  dir_ne := by decide
  fresh_inj n m hn hm same := by
    have numbers := congrArg BitVec.toNat same
    rw [BitVec.toNat_ofNat, BitVec.toNat_ofNat] at numbers
    omega
  fresh_ne n hn zero := by
    have number := congrArg BitVec.toNat zero
    rw [BitVec.toNat_ofNat] at number
    have none : (0 : Page).toNat = 0 := rfl
    omega
  fresh_dir n i hn same := by
    have numbers := congrArg BitVec.toNat same
    rw [BitVec.toNat_ofNat, BitVec.toNat_ofNat] at numbers
    omega
  user_low k low := by omega

/-- The directories show each other, all other memory is empty, and there are no address spaces yet. -/
def booted : Machine where
  mem page w := if page.toNat / 8 = 0x20 ∧ 0x3f8 ≤ w.toNat then kernelEntry (BitVec.ofNat 20 (w.toNat - 0x2f8)) else 0
  cr3 := 0x100
  asids := ⟨fun _ => 0, fun _ => 0, 0⟩
  allocs := 0

/-- The windows after the start. -/
lemma shared_booted : Shared bootLayout ⟨fun _ => none, 0⟩ booted where
  cr3 := ⟨0, rfl⟩
  windows := by decide +kernel
  allocs := rfl
  room := by
    refine ⟨(List.range 0x300).map (BitVec.ofNat 10), fun k user _ => ?_, by decide +kernel⟩
    exact List.mem_map.mpr ⟨k.toNat, List.mem_range.mpr user, BitVec.ofNat_toNat 10 k⟩
  absent k user _ i := by
    have low := bootLayout.user_low k user
    have empty : booted.mem (bootLayout.dir i) k = 0 := if_neg (by omega)
    rw [empty]
    rfl
  present _ _ _ has := absurd has (Option.some_ne_none _).symm
  ne _ _ _ has := absurd has (Option.some_ne_none _).symm
  dir _ _ _ has := absurd has (Option.some_ne_none _).symm
  inj _ _ _ _ _ has := absurd has (Option.some_ne_none _).symm
  later _ _ _ _ has := absurd has (Option.some_ne_none _).symm

/-- Ten address spaces map a page each, so that slots are taken again. -/
def tenSpaces : List VmapOp :=
  (List.range 10).map fun n => .map (BitVec.ofNat 32 (n + 1)) (BitVec.ofNat 32 (0x400000 + 4096 * n))
    (BitVec.ofNat 32 (n + 5)) true true

/-- The first of them finds its page. -/
theorem finds_tenSpaces : Shared bootLayout ⟨fun _ => none, 0⟩ booted ∧
    wanted (tenSpaces.flatMap VmapOp.puts) 1 0x400123 = 5 ∧ Finds bootLayout booted tenSpaces 1 0x400123 := by
  have users : ∀ p ∈ tenSpaces.flatMap VmapOp.puts, p.vid ≠ 0 ∧ (region p.vaddress).toNat < 0x300 := by decide +kernel
  have low : (region 0x400123).toNat < 0x300 := by decide +kernel
  refine ⟨shared_booted, by decide +kernel, (finds_iff shared_booted tenSpaces users (by decide) low).mpr ⟨?_, ?_⟩⟩
  · have found : ((slots booted.asids (tenSpaces.flatMap VmapOp.puts)).bind fun a => a.get 1).isSome = true := by
      decide +kernel
    obtain ⟨r, got⟩ := Option.isSome_iff_exists.mp found
    obtain ⟨a, slots, get⟩ := Option.bind_eq_some_iff.mp got
    exact ⟨a, slots, Option.ne_none_iff_exists'.mpr ⟨r, get⟩⟩
  · exact own_iff.mpr ⟨0x200, by decide +kernel, by decide +kernel⟩

/-- A second address space finds the page that the first has mapped. -/
theorem finds_other : Shared bootLayout ⟨fun _ => none, 0⟩ booted ∧
    ¬Finds bootLayout booted [.map 1 0x400000 5 true true] 2 0x400000 := by
  refine ⟨shared_booted, fun found => ?_⟩
  have low : (region 0x400000).toNat < 0x300 := by decide +kernel
  have users : ∀ p ∈ [VmapOp.map 1 0x400000 5 true true].flatMap VmapOp.puts,
      p.vid ≠ 0 ∧ (region p.vaddress).toNat < 0x300 := by decide +kernel
  obtain ⟨t, has, shown⟩ := own_iff.mp (found.alone shared_booted users (by decide) low).own
  have table : (tables bootLayout ⟨fun _ => none, 0⟩ ([VmapOp.map 1 0x400000 5 true true].flatMap VmapOp.puts)).table
      (region 0x400000) = some 0x200 := by decide +kernel
  cases has.symm.trans table
  exact absurd shown (by decide +kernel)

end Twcos.Vmap
