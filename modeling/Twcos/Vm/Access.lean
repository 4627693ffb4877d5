import Twcos.Vm.File
import Twcos.Vm.Handle

/-!
# Accesses that fault

What comes of an access that faults: `vm_page_fault` is called with the present flag that the page table shows, and again
if the access still faults. It should end in `vm_invalid_pointer` if the address is in no segment or the segment does not
permit the access, and in an entry that allows it otherwise. The argument `user` of `vm_page_fault` is not looked at, so it
does neither in some cases; `access_correct_iff` has them all. No entry allows more than its segment permits.
-/

namespace Twcos.Vm
open Function

/-- The address is in the segment. -/
def Segment.Covers (seg : Segment) (p : Addr) : Prop :=
  seg.base ≤ p ∧ p.toNat < seg.base.toNat + seg.size.toNat

instance (seg : Segment) (p : Addr) : Decidable (seg.Covers p) := inferInstanceAs (Decidable (_ ∧ _))

/-- One segment lies below another. -/
def Segment.Below (a b : Segment) : Prop := a.base < b.base ∧ a.base.toNat + a.size.toNat ≤ b.base.toNat

instance (a b : Segment) : Decidable (a.Below b) := inferInstanceAs (Decidable (_ ∧ _))

section Access
variable {σ : Type} (getPage : σ → Nat → Offset → Option (Page × σ)) (tbl : Nat → Nat)

/-- The segments of the kernel and of the current process are disjoint, those of the process below those of the
    kernel. -/
structure Arranged (s : Space σ) (cur : Option Nat) : Prop where
  kernel : (s.spaces 0).Pairwise Segment.Below
  process : ∀ as, cur = some as → (s.spaces as).Pairwise Segment.Below
  below : ∀ as, cur = some as → ∀ u ∈ s.spaces as, ∀ k ∈ s.spaces 0, u.Below k

/-- The address is in a segment of an address space. -/
def Located (s : Space σ) (cur : Option Nat) (p : Addr) (as : Nat) (seg : Segment) : Prop :=
  (as = 0 ∨ cur = some as) ∧ seg ∈ s.spaces as ∧ seg.Covers p

/-- The permissions of a segment suffice for the access. -/
def Segment.Permits (seg : Segment) (write user : Bool) : Prop :=
  (write = true → seg.Writable) ∧ (user = true → seg.User = true)

instance (seg : Segment) (write user : Bool) : Decidable (seg.Permits write user) :=
  inferInstanceAs (Decidable (_ ∧ _))

/-- A page table entry allows the access. -/
def Allows (write user : Bool) : Option Pte → Prop
  | none => False
  | some pte => (write = true → pte.rw = true) ∧ (user = true → pte.user = true)

instance (write user : Bool) : (pte : Option Pte) → Decidable (Allows write user pte)
  | none => inferInstanceAs (Decidable False)
  | some _ => inferInstanceAs (Decidable (_ ∧ _))

/-- What comes of an access: an entry that allows it, `vm_invalid_pointer`, a null pointer followed by the handler, or
    yet another fault. -/
inductive Resolution (σ : Type) where
  | resolved (s : Space σ)
  | invalid
  | trap
  | faulting

/-- `vm_page_fault` for an access, again and again while it faults. -/
def access (cur : Option Nat) (p : Addr) (write user : Bool) : Nat → Space σ → Resolution σ
  | 0, _ => .faulting
  | n + 1, s =>
    match handleFault getPage tbl s cur p write (s.shown tbl cur p) with
    | .mapped _ as s' => if Allows write user (s'.pte tbl as p) then .resolved s' else access cur p write user n s'
    | .invalid _ => .invalid
    | .trap => .trap

/-- Some segment permits the access. -/
def Permitted (s : Space σ) (cur : Option Nat) (p : Addr) (write user : Bool) : Prop :=
  ∃ as seg, Located s cur p as seg ∧ seg.Permits write user

/-- What a fault may enter: one entry, for the page of the address, that allows no more than the segment permits. -/
def SoundEntry (s : Space σ) (cur : Option Nat) (p : Addr) (as : Nat) (s' : Space σ) : Prop :=
  ∃ seg pte, Located s cur p as seg ∧ (pte.rw = true → seg.Writable) ∧ (pte.user = true → seg.User = true) ∧
    s'.tables = update s.tables (tbl as) (update (s.tables (tbl as)) (archPageAlign p >>> 12) (some pte))

/-- The access ends as it should after at most two faults, and no fault enters too much. -/
structure AccessCorrect (s : Space σ) (cur : Option Nat) (p : Addr) (write user : Bool) : Prop where
  granted : Permitted s cur p write user → ∃ s', access getPage tbl cur p write user 2 s = .resolved s'
  refused : ¬Permitted s cur p write user → access getPage tbl cur p write user 2 s = .invalid
  sound : ∀ s1 : Space σ, s1.spaces = s.spaces → ∀ write present page as s',
    handleFault getPage tbl s1 cur p write present = .mapped page as s' → SoundEntry tbl s1 cur p as s'

/-- The objects of a segment have a page. -/
def Supplied (objects : σ) (seg : Segment) (offset : Offset) : Prop :=
  ∃ page objects', getPage objects seg.dirty offset = some (page, objects') ∧
    (page = 0 → ∃ r, getPage objects' seg.clean (offset + seg.read_offset) = some r)

/-- An access that is permitted: the address is less than 2 GiB into the segment, and a page that is present is not only
    read. One that is not permitted, if the address is: it does not write to a segment that is writable. In both cases
    there is a page if none is present. -/
def Resolvable (s : Space σ) (cur : Option Nat) (p : Addr) (write user : Bool) : Prop :=
  ∀ as seg, Located s cur p as seg →
    if seg.Permits write user then
      (p - seg.base).toNat < 2 ^ 31 ∧
        match s.pte tbl as p with
        | none => Supplied getPage s.objects seg ((p - seg.base).signExtend 64)
        | some _ => write = true
    else (p - seg.base).toNat < 2 ^ 31 →
      ¬(write = true ∧ seg.Writable) ∧
        (s.pte tbl as p = none → Supplied getPage s.objects seg ((p - seg.base).signExtend 64))

end Access

/-! ### Finding the segment -/

/-- The segment that covers an address is found. -/
lemma getSegment_covers {segments : List Segment} (arranged : segments.Pairwise Segment.Below) {seg : Segment} {p : Addr}
    (mem : seg ∈ segments) (covers : seg.Covers p) : vmGetSegment segments p = some seg := by
  obtain ⟨before, after, rfl⟩ := List.append_of_mem mem
  have above : ∀ b ∈ after, ¬(0 ≤ keySign p b) := by
    intro b hb le
    have below := (List.pairwise_cons.mp (List.pairwise_append.mp arranged).2.1).1 b hb
    have base := keySign_nonneg.mp le
    rw [BitVec.le_def] at base
    exact absurd covers.2 (Nat.not_lt.mpr (Nat.le_trans below.2 base))
  have rest : (after.filter fun a => 0 ≤ keySign p a) = [] := by
    rw [List.filter_eq_nil_iff]
    intro b hb le
    exact above b hb (of_decide_eq_true le)
  have here : decide (0 ≤ keySign p seg) = true := decide_eq_true (keySign_nonneg.mpr covers.1)
  rw [vmGetSegment, Tree.pick, List.filter_append, List.filter_cons, if_pos here, rest, List.getLast?_append]
  rfl

/-- What is found is a segment at or below the address. -/
lemma getSegment_some {segments : List Segment} {seg : Segment} {p : Addr} (h : vmGetSegment segments p = some seg) :
    seg ∈ segments ∧ seg.base ≤ p := by
  have mem := List.mem_of_getLast? h
  rw [List.mem_filter] at mem
  exact ⟨mem.1, keySign_nonneg.mp (of_decide_eq_true mem.2)⟩

section Resolve
variable {σ : Type} {s : Space σ} {cur : Option Nat} {p : Addr} {as : Nat} {seg : Segment} {offset : Offset}

/-- An address in a segment is resolved to it. -/
lemma Arranged.resolve (arranged : Arranged s cur) (h : Located s cur p as seg) :
    s.resolve cur p = some (as, seg, (p - seg.base).signExtend 64) := by
  obtain ⟨space, mem, covers⟩ := h
  rcases space with rfl | rfl
  · rw [Space.resolve, getSegment_covers arranged.kernel mem covers]
  · cases kernel : vmGetSegment (s.spaces 0) p with
    | none =>
      rw [Space.resolve, kernel]
      dsimp only
      rw [Option.bind_some, getSegment_covers (arranged.process as rfl) mem covers]
      rfl
    | some k =>
      obtain ⟨hk, base⟩ := getSegment_some kernel
      have below := (arranged.below as rfl seg mem k hk).2
      rw [BitVec.le_def] at base
      exact absurd covers.2 (Nat.not_lt.mpr (Nat.le_trans below base))

/-- What resolving gives. -/
lemma resolve_some (h : s.resolve cur p = some (as, seg, offset)) :
    (as = 0 ∨ cur = some as) ∧ seg ∈ s.spaces as ∧ seg.base ≤ p ∧ offset = (p - seg.base).signExtend 64 := by
  rw [Space.resolve] at h
  cases kernel : vmGetSegment (s.spaces 0) p with
  | some k =>
    rw [kernel] at h
    cases h
    obtain ⟨mem, base⟩ := getSegment_some kernel
    exact ⟨.inl rfl, mem, base, rfl⟩
  | none =>
    rw [kernel] at h
    obtain ⟨as', process, h⟩ := Option.bind_eq_some_iff.mp h
    obtain ⟨u, found, h⟩ := Option.map_eq_some_iff.mp h
    cases h
    obtain ⟨mem, base⟩ := getSegment_some found
    exact ⟨.inr process, mem, base, rfl⟩

/-- An address is in one segment only. -/
lemma Arranged.unique (arranged : Arranged s cur) (h : Located s cur p as seg) {as' : Nat} {seg' : Segment}
    (h' : Located s cur p as' seg') : as' = as ∧ seg' = seg := by
  cases (arranged.resolve h).symm.trans (arranged.resolve h')
  exact ⟨rfl, rfl⟩

/-- The segments are arranged as long as they are the same. -/
lemma Arranged.congr {s' : Space σ} (arranged : Arranged s cur) (same : s'.spaces = s.spaces) : Arranged s' cur := by
  obtain ⟨kernel, process, below⟩ := arranged
  exact ⟨same ▸ kernel, same ▸ process, same ▸ below⟩

/-- An address is in its segment as long as the segments are the same. -/
lemma Located.congr {s' : Space σ} (h : Located s cur p as seg) (same : s'.spaces = s.spaces) :
    Located s' cur p as seg := by
  rw [Located, same]
  exact h

/-- The check of the offset tells whether the address is in the segment, up to 2 GiB. -/
lemma offset_lt_iff (base : seg.base ≤ p) :
    ((p - seg.base).signExtend 64).toNat < seg.size.toNat ↔ seg.Covers p ∧ (p - seg.base).toNat < 2 ^ 31 := by
  have distance : (p - seg.base).toNat = p.toNat - seg.base.toNat := BitVec.toNat_sub_of_le base
  have size := seg.size.isLt
  rw [Segment.Covers, BitVec.le_def] at *
  rcases Nat.lt_or_ge (p - seg.base).toNat (2 ^ 31) with small | large
  · rw [signExtend_small small, BitVec.toNat_setWidth, Nat.mod_eq_of_lt (by omega)]
    omega
  · have := signExtend_large large
    omega

end Resolve

/-! ### What a fault does -/

section Fault
variable {σ : Type} {getPage : σ → Nat → Offset → Option (Page × σ)} {tbl : Nat → Nat} {s : Space σ} {cur : Option Nat}
  {p : Addr} {as : Nat} {seg : Segment} {write user : Bool}

/-- The entry that was mapped. -/
lemma pte_vmapMap (tbl : Nat → Nat) (s : Space σ) (as : Nat) (p : Addr) (page : Page) (rw user : Bool) :
    (Space.vmapMap tbl s as (archPageAlign p) page rw user).pte tbl as p = some ⟨page, rw, user⟩ := by
  rw [Space.pte, Space.vmapMap]
  dsimp only
  rw [update_self, update_self]

/-- The page of an entry. -/
lemma vmapGetPage_eq {pte : Pte} (entry : s.pte tbl as p = some pte) :
    s.vmapGetPage tbl as (archPageAlign p) = pte.page := by
  rw [Space.pte] at entry
  rw [Space.vmapGetPage, entry]

variable (tbl s as) in
/-- If no page is present: one is entered, which can be written only if this is wanted and permitted. -/
lemma handleAbsent_supplied {offset : Offset} (supplied : Supplied getPage s.objects seg offset) (q : Addr) (write : Bool) :
    ∃ page objects rw, (rw = true → write = true ∧ seg.Writable) ∧ handleAbsent getPage tbl s as seg offset q write =
      .mapped page as (Space.vmapMap tbl { s with objects := objects } as q page rw seg.User) := by
  obtain ⟨page, objects, dirty, clean⟩ := supplied
  rw [handleAbsent, dirty]
  dsimp only
  by_cases zero : page = 0
  · obtain ⟨⟨page', objects'⟩, get⟩ := clean zero
    rw [if_pos zero, get]
    exact ⟨page', objects', false, fun no => absurd no Bool.false_ne_true, rfl⟩
  · rw [if_neg zero]
    refine ⟨page, objects, write && seg.Writable, fun rw => ?_, rfl⟩
    rw [Bool.and_eq_true, decide_eq_true_eq] at rw
    exact rw

/-- A fault for which there is no page traps. -/
lemma handleAbsent_trap {offset : Offset} (none : ¬Supplied getPage s.objects seg offset) (q : Addr) (write : Bool) :
    handleAbsent getPage tbl s as seg offset q write = .trap := by
  rw [handleAbsent]
  cases dirty : getPage s.objects seg.dirty offset with
  | none => rfl
  | some r =>
    obtain ⟨page, objects⟩ := r
    dsimp only
    by_cases zero : page = 0
    · rw [if_pos zero]
      cases clean : getPage objects seg.clean (offset + seg.read_offset) with
      | none => rfl
      | some r => exact absurd ⟨page, objects, dirty, fun _ => ⟨r, clean⟩⟩ none
    · exact absurd ⟨page, objects, dirty, fun e => absurd e zero⟩ none

/-- No entry allows more than the segment permits, whatever the flags say. -/
lemma handleFault_sound {present : Bool} {page : Page} {s' : Space σ}
    (h : handleFault getPage tbl s cur p write present = .mapped page as s') : SoundEntry tbl s cur p as s' := by
  rw [handleFault] at h
  cases found : s.resolve cur p with
  | none =>
    rw [found] at h
    cases h
  | some r =>
    obtain ⟨as', seg, offset⟩ := r
    rw [found] at h
    obtain ⟨space, mem, base, rfl⟩ := resolve_some found
    dsimp only at h
    by_cases inside : ((p - seg.base).signExtend 64).toNat < seg.size.toNat
    · have located : Located s cur p as' seg := ⟨space, mem, ((offset_lt_iff base).mp inside).1⟩
      rw [if_pos inside] at h
      cases present with
      | false =>
        simp only [Bool.not_false, if_true] at h
        by_cases supplied : Supplied getPage s.objects seg ((p - seg.base).signExtend 64)
        · obtain ⟨page', objects, rw, may, made⟩ := handleAbsent_supplied tbl s as' supplied (archPageAlign p) write
          cases made.symm.trans h
          exact ⟨seg, ⟨page, rw, seg.User⟩, located, fun yes => (may yes).2, id, rfl⟩
        · cases (handleAbsent_trap supplied _ _).symm.trans h
      | true =>
        simp only [Bool.not_true, Bool.false_eq_true, if_false] at h
        by_cases writable : (write && decide seg.Writable) = true
        · rw [if_pos writable] at h
          cases h
          rw [Bool.and_eq_true, decide_eq_true_eq] at writable
          exact ⟨seg, ⟨_, _, seg.User⟩, located, fun _ => writable.2, id, rfl⟩
        · rw [if_neg writable] at h
          cases h
    · rw [if_neg inside] at h
      cases h

variable (arranged : Arranged s cur) (located : Located s cur p as seg)
include arranged located

/-- A fault at an address that is in a segment, less than 2 GiB into it. -/
lemma handleFault_located (small : (p - seg.base).toNat < 2 ^ 31) (present : Bool) :
    handleFault getPage tbl s cur p write present =
      if !present then handleAbsent getPage tbl s as seg ((p - seg.base).signExtend 64) (archPageAlign p) write
      else if write && seg.Writable then
        .mapped (s.vmapGetPage tbl as (archPageAlign p)) as (Space.vmapMap tbl s as (archPageAlign p)
          (s.vmapGetPage tbl as (archPageAlign p)) (write && seg.Writable) seg.User)
      else .invalid (archPageAlign p) := by
  rw [handleFault, arranged.resolve located]
  dsimp only
  rw [if_pos ((offset_lt_iff located.2.2.1).mpr ⟨located.2.2, small⟩)]

/-- An address is shown to be located if it has an entry. -/
lemma shown_located : s.shown tbl cur p = (s.pte tbl as p).isSome := by
  rw [Space.shown, arranged.resolve located]

/-- From 2 GiB on, every access is refused. -/
lemma access_large (large : 2 ^ 31 ≤ (p - seg.base).toNat) (n : Nat) :
    access getPage tbl cur p write user (n + 1) s = .invalid := by
  have outside : ¬((p - seg.base).signExtend 64).toNat < seg.size.toNat := by
    rw [offset_lt_iff located.2.2.1]
    omega
  rw [access, handleFault, arranged.resolve located]
  dsimp only
  rw [if_neg outside]

variable (small : (p - seg.base).toNat < 2 ^ 31)
include small

variable (getPage user) in
/-- A page that is present is entered once more, for writing. -/
lemma access_remap {pte : Pte} (entry : s.pte tbl as p = some pte) (writes : write = true) (writable : seg.Writable)
    (n : Nat) : ∃ s', s'.spaces = s.spaces ∧ s'.pte tbl as p = some ⟨pte.page, true, seg.User⟩ ∧
      access getPage tbl cur p write user (n + 1) s =
        if user = true → seg.User = true then .resolved s' else access getPage tbl cur p write user n s' := by
  have both : (write && decide seg.Writable) = true := by
    rw [writes, decide_eq_true writable]
    rfl
  have made := pte_vmapMap tbl s as p pte.page true seg.User
  refine ⟨Space.vmapMap tbl s as (archPageAlign p) pte.page true seg.User, rfl, made, ?_⟩
  rw [access, shown_located arranged located, entry, handleFault_located arranged located small, both,
    vmapGetPage_eq entry]
  simp only [Option.isSome_some, Bool.not_true, Bool.false_eq_true, if_false, if_true, made, Allows, imp_true_iff,
    true_and]

/-- A page that is present is not entered for an access that does not write, or must not. -/
lemma access_refused {pte : Pte} (entry : s.pte tbl as p = some pte) (no : ¬(write = true ∧ seg.Writable)) (n : Nat) :
    access getPage tbl cur p write user (n + 1) s = .invalid := by
  have both : ¬(write && decide seg.Writable) = true := by
    rw [Bool.and_eq_true, decide_eq_true_eq]
    exact no
  rw [access, shown_located arranged located, entry, handleFault_located arranged located small]
  simp only [Option.isSome_some, Bool.not_true, Bool.false_eq_true, if_false, if_neg both]

variable (user) in
/-- A page that is not present is entered, if there is one. -/
lemma access_supplied (absent : s.pte tbl as p = none)
    (supplied : Supplied getPage s.objects seg ((p - seg.base).signExtend 64)) (n : Nat) :
    ∃ s' page rw, (rw = true → write = true ∧ seg.Writable) ∧ s'.spaces = s.spaces ∧
      s'.pte tbl as p = some ⟨page, rw, seg.User⟩ ∧
      access getPage tbl cur p write user (n + 1) s =
        if (write = true → rw = true) ∧ (user = true → seg.User = true) then .resolved s'
        else access getPage tbl cur p write user n s' := by
  obtain ⟨page, objects, rw, may, made⟩ := handleAbsent_supplied tbl s as supplied (archPageAlign p) write
  have entry := pte_vmapMap tbl { s with objects := objects } as p page rw seg.User
  refine ⟨Space.vmapMap tbl { s with objects := objects } as (archPageAlign p) page rw seg.User, page, rw, may, rfl, entry, ?_⟩
  rw [access, shown_located arranged located, absent, handleFault_located arranged located small]
  simp only [Option.isSome_none, Bool.not_false, if_true, made, entry, Allows]

/-- An access to an address without a page traps. -/
lemma access_trap (absent : s.pte tbl as p = none)
    (none : ¬Supplied getPage s.objects seg ((p - seg.base).signExtend 64)) (n : Nat) :
    access getPage tbl cur p write user (n + 1) s = .trap := by
  rw [access, shown_located arranged located, absent, handleFault_located arranged located small]
  simp only [Option.isSome_none, Bool.not_false, if_true, handleAbsent_trap none]

omit small

/-- An access that is permitted. -/
lemma granted_iff (permits : seg.Permits write user) :
    (∃ s', access getPage tbl cur p write user 2 s = .resolved s') ↔
      (p - seg.base).toNat < 2 ^ 31 ∧
        match s.pte tbl as p with
        | none => Supplied getPage s.objects seg ((p - seg.base).signExtend 64)
        | some _ => write = true := by
  obtain ⟨writable, forUser⟩ := permits
  rcases Nat.lt_or_ge (p - seg.base).toNat (2 ^ 31) with small | large
  · refine Iff.trans ?_ (and_iff_right small).symm
    cases entry : s.pte tbl as p with
    | none =>
      by_cases supplied : Supplied getPage s.objects seg ((p - seg.base).signExtend 64)
      · refine ⟨fun _ => supplied, fun _ => ?_⟩
        obtain ⟨s1, page, rw, -, spaces, entry1, first⟩ := access_supplied user arranged located small entry
          supplied 1
        by_cases now : write = true → rw = true
        · rw [if_pos ⟨now, forUser⟩] at first
          exact ⟨s1, first⟩
        · -- the page is clean, and has been entered for reading
          rw [if_neg fun all => now all.1] at first
          have writes : write = true := by
            cases write with
            | true => rfl
            | false => exact absurd nofun now
          obtain ⟨s2, -, -, second⟩ := access_remap getPage user (arranged.congr spaces)
            (located.congr spaces) small entry1 writes (writable writes) 0
          rw [if_pos forUser] at second
          exact ⟨s2, first.trans second⟩
      · refine ⟨fun ⟨s', run⟩ => ?_, fun h => absurd h supplied⟩
        rw [access_trap arranged located small entry supplied] at run
        cases run
    | some pte =>
      refine ⟨fun ⟨s', run⟩ => ?_, fun writes => ?_⟩
      · by_contra no
        rw [access_refused arranged located small entry (fun h => no h.1)] at run
        cases run
      · obtain ⟨s1, -, -, first⟩ := access_remap getPage user arranged located small entry writes
          (writable writes) 1
        rw [if_pos forUser] at first
        exact ⟨s1, first⟩
  · refine ⟨fun ⟨s', run⟩ => ?_, fun h => absurd h.1 (Nat.not_lt.mpr large)⟩
    rw [access_large arranged located large] at run
    cases run

/-- An access that is not permitted. -/
lemma refused_iff (permits : ¬seg.Permits write user) :
    access getPage tbl cur p write user 2 s = .invalid ↔ ((p - seg.base).toNat < 2 ^ 31 →
      ¬(write = true ∧ seg.Writable) ∧
        (s.pte tbl as p = none → Supplied getPage s.objects seg ((p - seg.base).signExtend 64))) := by
  rcases Nat.lt_or_ge (p - seg.base).toNat (2 ^ 31) with small | large
  · refine Iff.trans ?_ (forall_prop_of_true small).symm
    -- a page that is present when the access is not permitted, and may be written
    have again : ∀ {s1 : Space σ} {pte : Pte}, s1.spaces = s.spaces → s1.pte tbl as p = some pte → write = true →
        seg.Writable → ∀ n, access getPage tbl cur p write user n s1 = .faulting := by
      intro s1 pte spaces entry writes writable n
      induction n generalizing s1 pte with
      | zero => rfl
      | succ n ih =>
        have noUser : ¬(user = true → seg.User = true) := fun forUser => permits ⟨fun _ => writable, forUser⟩
        obtain ⟨s2, spaces2, entry2, run⟩ := access_remap getPage user (arranged.congr spaces)
          (located.congr spaces) small entry writes writable n
        rw [if_neg noUser] at run
        exact run.trans (ih (spaces2.trans spaces) entry2)
    cases entry : s.pte tbl as p with
    | none =>
      by_cases supplied : Supplied getPage s.objects seg ((p - seg.base).signExtend 64)
      · obtain ⟨s1, page, rw, may, spaces, entry1, first⟩ := access_supplied user arranged located small entry
          supplied 1
        rw [if_neg fun all => permits ⟨fun writes => (may (all.1 writes)).2, all.2⟩] at first
        rw [first]
        by_cases writes : write = true ∧ seg.Writable
        · rw [again spaces entry1 writes.1 writes.2]
          exact ⟨nofun, fun h => absurd writes h.1⟩
        · rw [access_refused (arranged.congr spaces) (located.congr spaces) small entry1 writes]
          exact ⟨fun _ => ⟨writes, fun _ => supplied⟩, fun _ => rfl⟩
      · rw [access_trap arranged located small entry supplied]
        exact ⟨nofun, fun h => absurd (h.2 rfl) supplied⟩
    | some pte =>
      by_cases writes : write = true ∧ seg.Writable
      · rw [again rfl entry writes.1 writes.2]
        exact ⟨nofun, fun h => absurd writes h.1⟩
      · rw [access_refused arranged located small entry writes]
        exact ⟨fun _ => ⟨writes, nofun⟩, fun _ => rfl⟩
  · rw [access_large arranged located large]
    exact ⟨fun _ small => absurd small (Nat.not_lt.mpr large), fun _ => rfl⟩

omit arranged located

/-- An address in no segment. -/
lemma access_nowhere (nowhere : ∀ as seg, ¬Located s cur p as seg) (n : Nat) :
    access getPage tbl cur p write user (n + 1) s = .invalid := by
  rw [access, handleFault]
  cases found : s.resolve cur p with
  | none => rfl
  | some r =>
    obtain ⟨as, seg, offset⟩ := r
    obtain ⟨space, mem, base, rfl⟩ := resolve_some found
    dsimp only
    rw [if_neg fun inside => nowhere as seg ⟨space, mem, ((offset_lt_iff base).mp inside).1⟩]

end Fault

/-- An access that faults ends as it should if and only if, where the address is in a segment, it is permitted, less than
    2 GiB into the segment and not a read of a page that is present, or it is not permitted, and does not write to a
    segment that is writable; and the objects of the segment have a page if none is present. -/
theorem access_correct_iff {σ : Type} (getPage : σ → Nat → Offset → Option (Page × σ)) (tbl : Nat → Nat) {s : Space σ}
    {cur : Option Nat} {p : Addr} {write user : Bool} (arranged : Arranged s cur) :
    AccessCorrect getPage tbl s cur p write user ↔ Resolvable getPage tbl s cur p write user := by
  constructor
  · intro correct as seg located
    split
    · next permits =>
      exact (granted_iff arranged located permits).mp (correct.granted ⟨as, seg, located, permits⟩)
    · next permits =>
      refine (refused_iff arranged located permits).mp (correct.refused ?_)
      rintro ⟨as', seg', located', permits'⟩
      obtain ⟨-, rfl⟩ := arranged.unique located located'
      exact permits permits'
  · intro resolvable
    refine ⟨?_, ?_, fun s1 spaces write present page as s' run => handleFault_sound run⟩
    · rintro ⟨as, seg, located, permits⟩
      have condition := resolvable as seg located
      rw [if_pos permits] at condition
      exact (granted_iff arranged located permits).mpr condition
    · intro refused
      by_cases somewhere : ∃ as seg, Located s cur p as seg
      · obtain ⟨as, seg, located⟩ := somewhere
        have permits : ¬seg.Permits write user := fun permits => refused ⟨as, seg, located, permits⟩
        have condition := resolvable as seg located
        rw [if_neg permits] at condition
        exact (refused_iff arranged located permits).mpr condition
      · exact access_nowhere (fun as seg located => somewhere ⟨as, seg, located⟩) 1

/-- A segment of one page that the kernel may write, and a process with another one. -/
def twoSegments : Space Unit where
  objects := ()
  tables := fun _ _ => none
  spaces
    | 0 => [⟨0xc0000000, 0x1000, SEGMENT_R ||| SEGMENT_W, 0, 0, 0⟩]
    | _ => [⟨0x8000, 0x1000, SEGMENT_R ||| SEGMENT_W ||| SEGMENT_U, 0, 0, 0⟩]

/-- An object that has the same page everywhere. -/
def samePage (page : Page) : Unit → Nat → Offset → Option (Page × Unit) := fun _ _ _ => some (page, ())

/-- The two segments of the example are arranged. -/
lemma arranged_twoSegments : Arranged twoSegments (some 1) := by
  refine ⟨List.pairwise_singleton _ _, ?_, ?_⟩
  · rintro as ⟨⟩
    exact List.pairwise_singleton _ _
  · rintro as ⟨⟩ u hu k hk
    cases List.mem_singleton.mp hu
    cases List.mem_singleton.mp hk
    decide

/-- The process writes to its own segment. -/
theorem access_process : Arranged twoSegments (some 1) ∧
    AccessCorrect (samePage 5) id twoSegments (some 1) 0x8004 true true := by
  refine ⟨arranged_twoSegments, (access_correct_iff (samePage 5) id arranged_twoSegments).mpr fun as seg located => ?_⟩
  have here : Located twoSegments (some 1) 0x8004 1 ⟨0x8000, 0x1000, SEGMENT_R ||| SEGMENT_W ||| SEGMENT_U, 0, 0, 0⟩ :=
    ⟨.inr rfl, List.mem_singleton_self _, by decide⟩
  obtain ⟨rfl, rfl⟩ := arranged_twoSegments.unique here located
  rw [if_pos (by decide)]
  exact ⟨by decide, 5, (), rfl, nofun⟩

/-- The process writes to the segment of the kernel: it does not permit the access, and `vm_invalid_pointer` is not
    called, however often it faults. -/
theorem access_kernel : Arranged twoSegments (some 1) ∧
    ¬Allows true true (twoSegments.pte id 0 0xc0000004) ∧
    ¬AccessCorrect (samePage 5) id twoSegments (some 1) 0xc0000004 true true := by
  refine ⟨arranged_twoSegments, id, fun correct => ?_⟩
  have here : Located twoSegments (some 1) 0xc0000004 0 ⟨0xc0000000, 0x1000, SEGMENT_R ||| SEGMENT_W, 0, 0, 0⟩ :=
    ⟨.inl rfl, List.mem_singleton_self _, by decide⟩
  have refused : ¬Permitted twoSegments (some 1) 0xc0000004 true true := by
    rintro ⟨as, seg, located, permits⟩
    obtain ⟨-, rfl⟩ := arranged_twoSegments.unique here located
    revert permits
    decide
  have invalid := (refused_iff arranged_twoSegments here (by decide)).mp (correct.refused refused) (by decide)
  exact invalid.1 ⟨rfl, by decide⟩

end Twcos.Vm
