import Twcos.Vm.Handle
import Twcos.Vm.Vmpage

/-!
# Usage of pages

The flags that `vm_page_fault` sets in the record of a page, over runs of faults and of `vm_vmpage_resetflags`. The
expression for the flags of a page that was not present binds as `(VMPAGE_ACCESSED | (write)) ? VMPAGE_DIRTY : 0`, so
such a page always becomes dirty and is never marked as accessed. `usage_always_iff` says in which runs the flags are
right all the same.

One page is watched. Beside the memory and the records, the state has what the flags of that page should say: whether
the last event was a fault for it that was handled, and whether a write fault was handled since `VMPAGE_DIRTY` was last
reset.
-/

namespace Twcos.Vm
open Twcos.Run Function

/-- `VMPAGE_PINNED`, `VMPAGE_ACCESSED`, `VMPAGE_DIRTY`. -/
def VMPAGE_PINNED : BitVec 32 := 0x1
@[inherit_doc VMPAGE_PINNED] def VMPAGE_ACCESSED : BitVec 32 := 0x2
@[inherit_doc VMPAGE_PINNED] def VMPAGE_DIRTY : BitVec 32 := 0x4

/-- The flags for a page that was not present, as C reads the expression. -/
def absentFlags (write : Bool) : BitVec 32 :=
  if VMPAGE_ACCESSED ||| (if write then 1 else 0) ≠ 0 then VMPAGE_DIRTY else 0

/-- The flags that a fault sets. -/
def faultFlags (write present : Bool) : BitVec 32 :=
  if present then VMPAGE_ACCESSED ||| VMPAGE_DIRTY else absentFlags write

/-- The flags of a page; one without a record has none. -/
def Vmpages.flags (s : Vmpages) (page : BitVec 32) : BitVec 32 :=
  match s.record page with
  | none => 0
  | some vmpage => vmpage.flags

/-- Memory and records, with what the flags of the page that is watched should say. -/
structure Usage (σ : Type) where
  space : Space σ
  vmpages : Vmpages
  handled : Bool
  written : Bool

inductive UsageEvent where
  | fault (cur : Option Nat) (p : Addr) (write present : Bool)
  | resetflags (page flags : BitVec 32)

section Usage
variable {σ : Type} (getPage : σ → Nat → Offset → Option (Page × σ)) (tbl : Nat → Nat) (ptr : Nat → Addr)
  (realloc : Realloc) (watched : Page)

/-- The end of a fault that is handled: the record of the page. -/
def recordFault (s : Vmpages) (page : Page) (m : Mapping) (write present : Bool) : Option Vmpages := do
  let s ← vmVmpageMap realloc s page m
  vmVmpageSetflags s page (faultFlags write present)

def usageStep (u : Usage σ) : UsageEvent → Option (Usage σ)
  | .fault cur p write present =>
    match handleFault getPage tbl u.space cur p write present with
    | .mapped page as space => do
      let vmpages ← recordFault realloc u.vmpages page ⟨ptr as, archPageAlign p⟩ write present
      return ⟨space, vmpages, page = watched, u.written || (page = watched && write)⟩
    | _ => none
  | .resetflags page flags => do
    let vmpages ← vmVmpageResetflags u.vmpages page flags
    return ⟨u.space, vmpages, false, u.written && !(page = watched && flags &&& VMPAGE_DIRTY ≠ 0)⟩

/-- A page that is handled in a fault is accessed, and a page is dirty if and only if it was written. -/
structure FlagsRight (u : Usage σ) : Prop where
  accessed : u.handled = true → u.vmpages.flags watched &&& VMPAGE_ACCESSED ≠ 0
  dirty : u.vmpages.flags watched &&& VMPAGE_DIRTY ≠ 0 ↔ u.written = true

/-- If the page is not present in a fault, its flags have to be right already. -/
def FlagsReady (u : Usage σ) : UsageEvent → Prop
  | .fault cur p write present =>
    present = false → ∀ as space, handleFault getPage tbl u.space cur p write present = .mapped watched as space →
      u.vmpages.flags watched &&& VMPAGE_ACCESSED ≠ 0 ∧
        (write = true ∨ u.vmpages.flags watched &&& VMPAGE_DIRTY ≠ 0)
  | .resetflags _ _ => True

/-- A new record has no flags. -/
def Zeroes : Prop := ∀ heap n a heap' vmpage, realloc heap none n = some (a, heap') → heap' a = some vmpage →
  vmpage.flags = 0

variable {getPage tbl ptr realloc watched} {s s' : Vmpages} {page q : BitVec 32}

/-! ### What the calls do to the flags -/

/-- The flags depend on the record of the page. -/
lemma Vmpages.flags_congr (h : s'.record q = s.record q) : s'.flags q = s.flags q := by rw [flags, flags, h]

/-- `vm_vmpage_map` leaves flags as they are. -/
lemma vmVmpageMap_flags (preserves : Preserves realloc) (zeroes : Zeroes realloc) (inv : s.Inv) {m : Mapping}
    (run : vmVmpageMap realloc s page m = some s') :
    s'.Inv ∧ (∀ q, s'.flags q = s.flags q) ∧ ∃ v, s'.record page = some v := by
  rcases @vmVmpageMap_effect _ preserves s page m inv with ⟨no, -⟩ | ⟨s1, run1, effect⟩
  · rw [no] at run
    cases run
  · cases run1.symm.trans run
    -- the record of the page itself
    have own : s'.flags page = s.flags page ∧ ∃ v, s'.record page = some v := by
      rw [vmVmpageMap] at run
      cases h : s.vmpages page with
      | none =>
        rw [h] at run
        obtain ⟨a, heap, v, v', hr, ha, record, same⟩ := growMapping_flags run
        refine ⟨?_, v', record⟩
        have none : s.record page = none := by rw [Vmpages.record, h, Option.bind_none]
        rw [Vmpages.flags, record, Vmpages.flags, none]
        exact same.trans (zeroes _ _ _ _ _ hr ha)
      | some b =>
        rw [h] at run
        obtain ⟨old, hb, wf⟩ := inv.block h
        obtain ⟨old', hb', run⟩ := Option.bind_eq_some_iff.mp run
        cases hb.symm.trans hb'
        have record0 : s.record page = some old := (Vmpages.record_eq h).trans hb
        rcases wf.find (m := m) with ⟨found, -⟩ | ⟨i, found, -, -⟩
        · rw [found] at run
          obtain ⟨a, heap, v, v', hr, ha, record, same⟩ := growMapping_flags run
          refine ⟨?_, v', record⟩
          obtain ⟨w, gives, -, flags, -, -⟩ := preserves.kept hb hr
          cases gives.block.symm.trans ha
          rw [Vmpages.flags, record, Vmpages.flags, record0]
          exact same.trans flags
        · rw [found] at run
          cases run
          exact ⟨rfl, old, record0⟩
    refine ⟨effect.inv, fun q => ?_, own.2⟩
    by_cases e : q = page
    · rw [e]
      exact own.1
    · exact Vmpages.flags_congr (effect.others q e)

/-- A change of the flags of one record. -/
lemma withRecord_flags (inv : s.Inv) {g : BitVec 32 → BitVec 32}
    (run : s.withRecord page (fun v => { v with flags := g v.flags }) = some s') :
    s'.Inv ∧ (∀ q, q ≠ page → s'.flags q = s.flags q) ∧
      (∀ v, s.record page = some v → s'.flags page = g v.flags) ∧
      (s.record page = none → s'.flags page = 0) := by
  obtain ⟨s1, run1, inv', others, own⟩ := @Vmpages.Inv.withRecord s page inv
    (fun v => { v with flags := g v.flags }) fun _ => ⟨rfl, rfl⟩
  cases run1.symm.trans run
  refine ⟨inv', fun q ne => Vmpages.flags_congr (others q ne), fun v hv => ?_, fun none => ?_⟩
  · rw [Vmpages.flags, own, hv]
    rfl
  · rw [Vmpages.flags, own, none]
    rfl

/-- The flags after a fault that was handled. -/
lemma recordFault_flags (preserves : Preserves realloc) (zeroes : Zeroes realloc) (inv : s.Inv) {m : Mapping}
    {write present : Bool} (run : recordFault realloc s page m write present = some s') :
    s'.Inv ∧ (∀ q, q ≠ page → s'.flags q = s.flags q) ∧
      s'.flags page = s.flags page ||| faultFlags write present := by
  obtain ⟨s1, h1, run⟩ := Option.bind_eq_some_iff.mp run
  obtain ⟨inv1, same, v, hv⟩ := vmVmpageMap_flags preserves zeroes inv h1
  obtain ⟨inv', others, own, -⟩ := withRecord_flags (g := (· ||| faultFlags write present)) inv1 run
  refine ⟨inv', fun q ne => (others q ne).trans (same q), ?_⟩
  rw [own v hv, ← same page, Vmpages.flags, hv]

/-- The flags after some were reset. -/
lemma vmVmpageResetflags_flags (inv : s.Inv) {flags : BitVec 32} (run : vmVmpageResetflags s page flags = some s') :
    s'.Inv ∧ (∀ q, q ≠ page → s'.flags q = s.flags q) ∧ s'.flags page = s.flags page &&& ~~~flags := by
  obtain ⟨inv', others, own, none⟩ := withRecord_flags (g := (· &&& ~~~flags)) inv run
  refine ⟨inv', others, ?_⟩
  cases record : s.record page with
  | none =>
    rw [none record, Vmpages.flags, record]
    exact (BitVec.zero_and ..).symm
  | some v => rw [own v record, Vmpages.flags, record]

/-! ### Single flags -/

/-- The accessed flag is bit 1. -/
lemma accessed_iff (flags : BitVec 32) : flags &&& VMPAGE_ACCESSED ≠ 0 ↔ flags.getLsbD 1 = true := by
  rw [show VMPAGE_ACCESSED = BitVec.twoPow 32 1 from rfl, BitVec.and_twoPow]
  cases flags.getLsbD 1 <;> decide

/-- The dirty flag is bit 2. -/
lemma dirty_iff (flags : BitVec 32) : flags &&& VMPAGE_DIRTY ≠ 0 ↔ flags.getLsbD 2 = true := by
  rw [show VMPAGE_DIRTY = BitVec.twoPow 32 2 from rfl, BitVec.and_twoPow]
  cases flags.getLsbD 2 <;> decide

/-- A fault always marks the page as dirty, and as accessed if it was present. -/
lemma faultFlags_bits (write present : Bool) :
    (faultFlags write present).getLsbD 1 = present ∧ (faultFlags write present).getLsbD 2 = true := by
  cases write <;> cases present <;> decide

/-! ### Runs -/

/-- A fault for the page that is watched leaves the flags right exactly if they were ready for it. -/
lemma flagsRight_fault {flags flags' : BitVec 32} {write present written : Bool}
    (present_writes : present = true → write = true)
    (dirty : flags.getLsbD 2 = true ↔ written = true) (set : flags' = flags ||| faultFlags write present) :
    (flags'.getLsbD 1 = true ∧ (flags'.getLsbD 2 = true ↔ (written || write) = true)) ↔
      (present = false → flags.getLsbD 1 = true ∧ (write = true ∨ flags.getLsbD 2 = true)) := by
  obtain ⟨bit1, bit2⟩ := faultFlags_bits write present
  rw [set, BitVec.getLsbD_or, BitVec.getLsbD_or, bit1, bit2, Bool.or_true, dirty]
  cases present with
  | true =>
    rw [present_writes rfl]
    simp
  | false => simp [or_comm]

/-- What a handled fault with a present page is: a write. -/
lemma write_of_present {u : Space σ} {cur : Option Nat} {p : Addr} {write : Bool} {page : Page} {as : Nat}
    {space : Space σ} (h : handleFault getPage tbl u cur p write true = .mapped page as space) : write = true := by
  cases write with
  | true => rfl
  | false =>
    rw [handleFault] at h
    cases hr : u.resolve cur p with
    | none =>
      rw [hr] at h
      cases h
    | some r =>
      rw [hr] at h
      simp only [Bool.not_true, Bool.false_eq_true, if_false, Bool.false_and] at h
      split_ifs at h

/-- What a step does: a fault is handled, or flags are reset. -/
lemma usageStep_cases {u u' : Usage σ} {e : UsageEvent}
    (run : usageStep getPage tbl ptr realloc watched u e = some u') :
    (∃ cur p write present page as space vmpages, e = .fault cur p write present ∧
      handleFault getPage tbl u.space cur p write present = .mapped page as space ∧
      recordFault realloc u.vmpages page ⟨ptr as, archPageAlign p⟩ write present = some vmpages ∧
      u' = ⟨space, vmpages, page = watched, u.written || (page = watched && write)⟩) ∨
    ∃ page flags vmpages, e = .resetflags page flags ∧ vmVmpageResetflags u.vmpages page flags = some vmpages ∧
      u' = ⟨u.space, vmpages, false, u.written && !(page = watched && flags &&& VMPAGE_DIRTY ≠ 0)⟩ := by
  cases e with
  | fault cur p write present =>
    rw [usageStep] at run
    cases h : handleFault getPage tbl u.space cur p write present with
    | mapped page as space =>
      rw [h] at run
      obtain ⟨vmpages, hr, run⟩ := Option.bind_eq_some_iff.mp run
      cases run
      exact .inl ⟨cur, p, write, present, page, as, space, vmpages, rfl, h, hr, rfl⟩
    | invalid q =>
      rw [h] at run
      cases run
    | trap =>
      rw [h] at run
      cases run
  | resetflags page flags =>
    obtain ⟨vmpages, hr, run⟩ := Option.bind_eq_some_iff.mp run
    cases run
    exact .inr ⟨page, flags, vmpages, rfl, hr, rfl⟩

/-- The flags are right if each of the two bits is. -/
lemma flagsRight_iff {u : Usage σ} : FlagsRight watched u ↔
    (u.handled = true → (u.vmpages.flags watched).getLsbD 1 = true) ∧
      ((u.vmpages.flags watched).getLsbD 2 = true ↔ u.written = true) := by
  rw [← accessed_iff, ← dirty_iff]
  exact ⟨fun h => ⟨h.accessed, h.dirty⟩, fun h => ⟨h.1, h.2⟩⟩

/-- A fault that is handled for the page that is watched is ready if it is a present one, or else the flags are. -/
lemma flagsReady_fault {u : Usage σ} {cur : Option Nat} {p : Addr} {write present : Bool} {as : Nat} {space : Space σ}
    (h : handleFault getPage tbl u.space cur p write present = .mapped watched as space) :
    FlagsReady getPage tbl watched u (.fault cur p write present) ↔
      (present = false → (u.vmpages.flags watched).getLsbD 1 = true ∧
        (write = true ∨ (u.vmpages.flags watched).getLsbD 2 = true)) := by
  rw [← accessed_iff, ← dirty_iff]
  constructor
  · intro ready absent
    exact ready absent as space h
  · intro ready absent _ _ _
    exact ready absent

/-- Every step keeps the records, and it keeps the flags right exactly if it is ready. -/
lemma usageStep_flags (preserves : Preserves realloc) (zeroes : Zeroes realloc) {u u' : Usage σ} {e : UsageEvent}
    (inv : u.vmpages.Inv) (right : FlagsRight watched u)
    (run : usageStep getPage tbl ptr realloc watched u e = some u') :
    u'.vmpages.Inv ∧ (FlagsRight watched u' ↔ FlagsReady getPage tbl watched u e) := by
  obtain ⟨-, dirty⟩ := flagsRight_iff.mp right
  obtain ⟨cur, p, write, present, page, as, space, vmpages, rfl, h, hr, rfl⟩ |
    ⟨page, flags, vmpages, rfl, hr, rfl⟩ := usageStep_cases run
  · obtain ⟨inv', others, own⟩ := recordFault_flags preserves zeroes inv hr
    refine ⟨inv', ?_⟩
    by_cases e : page = watched
    · subst e
      have writes : present = true → write = true := by
        rintro rfl
        exact write_of_present h
      rw [flagsReady_fault h, ← flagsRight_fault writes dirty own, flagsRight_iff]
      simp only [decide_true, true_imp_iff, Bool.true_and]
    · refine iff_of_true (flagsRight_iff.mpr ⟨fun handled => ?_, ?_⟩) fun _ as' space' h' => ?_
      · exact absurd (of_decide_eq_true handled) e
      · rw [others watched (Ne.symm e), dirty, decide_eq_false e, Bool.false_and, Bool.or_false]
      · rw [h] at h'
        cases h'
        exact absurd rfl e
  · obtain ⟨inv', others, own⟩ := vmVmpageResetflags_flags inv hr
    refine ⟨inv', iff_of_true (flagsRight_iff.mpr ⟨nofun, ?_⟩) trivial⟩
    by_cases e : page = watched
    · subst e
      simp only [own, BitVec.getLsbD_and, BitVec.getLsbD_not, decide_true, Bool.true_and, dirty_iff, Bool.and_eq_true,
        dirty, Nat.reduceLT]
      cases flags.getLsbD 2 <;> simp
    · rw [others watched (Ne.symm e), dirty, decide_eq_false e, Bool.false_and, Bool.not_false, Bool.and_true]

/-- The flags of a page are right throughout a run exactly if whenever the page is not present in a fault, it is marked
    as accessed already, and the fault is a write or the page is marked as dirty already. -/
theorem usage_always_iff (preserves : Preserves realloc) (zeroes : Zeroes realloc) (space : Space σ) (vmpages : Vmpages)
    (inv : vmpages.Inv) (start : vmpages.flags watched = 0) (events : List UsageEvent) :
    Always (usageStep getPage tbl ptr realloc watched) (FlagsRight watched) ⟨space, vmpages, false, false⟩ events ↔
      Meets (usageStep getPage tbl ptr realloc watched) (FlagsReady getPage tbl watched)
        ⟨space, vmpages, false, false⟩ events := by
  refine always_iff_meets (I := fun u => u.vmpages.Inv) ?_ ?_ inv ⟨nofun, ?_⟩
  · intro u e u' hi hp run
    exact (usageStep_flags preserves zeroes hi hp run).2
  · intro u e u' hi hp run _
    exact (usageStep_flags preserves zeroes hi hp run).1
  · show vmpages.flags watched &&& VMPAGE_DIRTY ≠ 0 ↔ false = true
    rw [start]
    decide

end Usage

/-! ### A segment of one page -/

/-- `slab_realloc` gives zeros. -/
lemma slabRealloc_zeroes : Zeroes slabRealloc := by
  intro heap n a heap' vmpage run ha
  obtain ⟨entries, -, run⟩ := Option.bind_eq_some_iff.mp run
  obtain ⟨b, -, run⟩ := Option.bind_eq_some_iff.mp run
  cases run
  rw [update_self] at ha
  cases ha
  rfl

/-- A kernel with an anonymous segment of one page that can be written, and one free page. -/
def onePage : Kernel Unit where
  objects o := if o = 1 then some (.anon (fun _ => 0) none) else none
  fresh := 2
  page_cache _ _ := 0
  contents _ := ()
  pool := [5]
  tables _ _ := none
  kas := [⟨0x1000, 0x1000, SEGMENT_R ||| SEGMENT_W, 1, 0, 0⟩]
  procs := []

/-- The same after a read: the page is the object's, and mapped for reading. -/
def onePageMapped : Space (Kernel Unit) :=
  let s := { onePage with objects := fun o => if o = 1 then some (.anon (fun _ => 5) none) else none, pool := [] }
  Space.vmapMap id s.toSpace 0 0x1000 5 false false

/-- A run of faults in the segment, with page 5 watched. -/
def onePageStep : Usage (Kernel Unit) → UsageEvent → Option (Usage (Kernel Unit)) :=
  usageStep (getPage fun _ _ => ()) id (BitVec.ofNat 32) slabRealloc 5

/-- A write to the mapped page, a read after it was unmapped, and a reset. -/
theorem usage_written :
    Always onePageStep (FlagsRight 5) ⟨onePageMapped, noVmpages fun _ => none, false, false⟩
      [.fault none 0x1000 true true, .fault none 0x1000 false false, .resetflags 5 VMPAGE_DIRTY] := by
  refine (usage_always_iff slabRealloc_preserves slabRealloc_zeroes onePageMapped (noVmpages fun _ => none)
    (noVmpages_tracks _).inv rfl _).mpr ?_
  rintro _ ⟨⟩
  refine ⟨nofun, ?_⟩
  rintro _ ⟨⟩
  refine ⟨fun _ _ _ _ => by decide, ?_⟩
  rintro _ ⟨⟩
  exact ⟨trivial, trivial⟩

/-- Reading a page that was not present makes it dirty, and not accessed. -/
theorem usage_read :
    ¬Always onePageStep (FlagsRight 5) ⟨onePage.toSpace, noVmpages fun _ => none, false, false⟩
      [.fault none 0x1000 false false] := by
  intro h
  have after := (h.2 _ rfl).accessed rfl
  exact absurd after (by decide)

end Twcos.Vm
