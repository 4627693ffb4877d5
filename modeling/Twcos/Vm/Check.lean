import Twcos.Vm.Segment

/-!
# The user pointer check

Model of `check_user_ptr` of `kernel/check.c`: the walk over contiguous segments from the one at or below
the first page. `checkUserPtr_sound_iff` says for which addresses and lengths a check that passes is to be
trusted: the end of the range, rounded up to a page beyond it, must not wrap around the address space.
-/

namespace Twcos.Vm
open Twcos.Prog

/-- `InvalidPointerException`. -/
inductive CheckException where
  | invalidPointer
deriving DecidableEq

/-- The loop of `check_user_ptr`. -/
def checkSegments (vpend : Addr) (write : Bool) (seg : Option Segment) :
    Prog CheckException (Option AddressSpace) Unit :=
  loop (fun seg =>
    match seg with
    | none => raise .invalidPointer
    | some seg => do
      check (¬(write = true ∧ ¬seg.Writable)) .invalidPointer
      let segend := seg.base + seg.size
      if vpend ≥ segend then
        -- the next contiguous segment, if any
        let next ← asks fun as => as.bind fun as => as.get segend .eq
        return .inl next
      else return .inr ()) seg

/-- `check_user_ptr`; the state is the address space of the current process, if there is one. -/
def checkUserPtr (p : Addr) (len : BitVec 32) (write : Bool) :
    Prog CheckException (Option AddressSpace) Unit := do
  let vpstart := archPageAlign p
  let vpend := archPageAlign (p + (len + ARCH_PAGE_SIZE))
  let seg ← asks fun as => as.bind fun as => as.get vpstart .le
  checkSegments vpend write seg

/-- The range lies in the address space, in segments that may be written if it is to be. -/
structure UserRange (as : AddressSpace) (p : Addr) (len : BitVec 32) (write : Bool) : Prop where
  fits : p.toNat + len.toNat ≤ 2 ^ 32
  covered : ∀ q : Addr, p.toNat ≤ q.toNat → q.toNat < p.toNat + len.toNat →
    ∃ seg ∈ as.segments, seg.Has q
  writable : write = true → ∀ q : Addr, p.toNat ≤ q.toNat → q.toNat < p.toNat + len.toNat →
    ∀ seg ∈ as.segments, seg.Has q → seg.Writable

/-- The addresses of a segment, as numbers. -/
lemma has_of_le {seg : Segment} {q : Addr} (h1 : seg.base.toNat ≤ q.toNat)
    (h2 : q.toNat < seg.base.toNat + seg.size.toNat) : seg.Has q := by
  rw [Segment.Has, BitVec.lt_def, BitVec.toNat_sub]
  omega

/-- The address is in a segment that the check has let pass. -/
def Passed (as : AddressSpace) (write : Bool) (q : Addr) : Prop :=
  ∃ seg ∈ as.segments, seg.Has q ∧ (write = true → seg.Writable)

/-- One turn of the walk: the segment may be used, and either the walk goes on where it ends or the range
    ends in it. -/
lemma checkTurn_result {as : AddressSpace} {vpend : Addr} {write : Bool} {seg : Segment} {n : Nat}
    {r : Option Segment ⊕ Unit} {st : Option AddressSpace}
    (h : (do
      check (¬(write = true ∧ ¬seg.Writable)) .invalidPointer
      let segend := seg.base + seg.size
      if vpend ≥ segend then
        let next ← asks fun as => as.bind fun as => as.get segend .eq
        return .inl next
      else return .inr () : Prog CheckException (Option AddressSpace) _) n (some as) = .ok (r, st)) :
    st = some as ∧ (write = true → seg.Writable) ∧
      (r = .inl (as.get (seg.base + seg.size) .eq) ∧ seg.base + seg.size ≤ vpend ∨
        r = .inr () ∧ vpend < seg.base + seg.size) := by
  obtain ⟨u, st1, hcheck, hrest⟩ := bind_result h
  obtain ⟨hw, rfl⟩ := check_result hcheck
  have writable : write = true → seg.Writable := fun w => by
    by_contra nw
    exact hw ⟨w, nw⟩
  by_cases le : vpend ≥ seg.base + seg.size
  · rw [if_pos le] at hrest
    cases hrest
    exact ⟨rfl, writable, .inl ⟨rfl, le⟩⟩
  · rw [if_neg le] at hrest
    cases hrest
    exact ⟨rfl, writable, .inr ⟨rfl, BitVec.not_le.mp le⟩⟩

/-- The walk over the segments: everything between its start and the segment it is at has passed. -/
lemma checkSegments_result {as : AddressSpace} (vpstart : Addr) {vpend : Addr} {write : Bool}
    {seg : Option Segment} {n : Nat} {st : Option AddressSpace}
    (start : ∀ s, seg = some s → s ∈ as.segments ∧ s.base ≤ vpstart)
    (h : checkSegments vpend write seg n (some as) = .ok ((), st)) :
    ∀ q : Addr, vpstart ≤ q → q < vpend → Passed as write q := by
  let Before : Segment → Prop := fun s => ∀ q, vpstart ≤ q → q < vpend → q < s.base → Passed as write q
  refine loop_result
    (I := fun seg st => st = some as ∧ ∀ s, seg = some s → s ∈ as.segments ∧ Before s)
    (Q := fun _ _ => ∀ q, vpstart ≤ q → q < vpend → Passed as write q) ?_ ?_ ⟨rfl, ?_⟩ h
  · rintro seg st n next st' ⟨rfl, hseg⟩ hb
    cases seg with
    | none => cases hb
    | some seg =>
      obtain ⟨mem, before⟩ := hseg seg rfl
      obtain ⟨rfl, writable, ⟨hr, le⟩ | ⟨hr, -⟩⟩ := checkTurn_result hb
      · cases hr
        refine ⟨rfl, fun s hs => ⟨as.get_mem hs, fun q h1 h2 h3 => ?_⟩⟩
        rw [as.get_eq hs, BitVec.lt_def, BitVec.toNat_add] at h3
        rw [BitVec.lt_def] at h2
        -- a segment that wraps around covers all that lies above its base
        by_cases lo : q < seg.base
        · exact before q h1 h2 lo
        · refine ⟨seg, mem, has_of_le ?_ ?_, writable⟩
          · rw [BitVec.lt_def] at lo
            omega
          · rw [BitVec.lt_def] at lo
            omega
      · cases hr
  · rintro seg st n u st' ⟨rfl, hseg⟩ hb q h1 h2
    cases seg with
    | none => cases hb
    | some seg =>
      obtain ⟨mem, before⟩ := hseg seg rfl
      obtain ⟨rfl, writable, ⟨hr, -⟩ | ⟨-, lt⟩⟩ := checkTurn_result hb
      · cases hr
      · rw [BitVec.lt_def, BitVec.toNat_add] at lt
        by_cases lo : q < seg.base
        · exact before q h1 h2 lo
        · refine ⟨seg, mem, has_of_le ?_ ?_, writable⟩
          · rw [BitVec.lt_def] at lo
            omega
          · rw [BitVec.lt_def] at lo h2
            omega
  · intro s hs
    obtain ⟨mem, le⟩ := start s hs
    refine ⟨mem, fun q h1 _ h3 => ?_⟩
    rw [BitVec.lt_def] at h3
    rw [BitVec.le_def] at h1 le
    omega

/-- A check whose end does not wrap around is sound. -/
lemma checkUserPtr_sound {as : AddressSpace} {p : Addr} {len : BitVec 32} {write : Bool}
    {st : Option AddressSpace} (fits : p.toNat + len.toNat + 4096 < 2 ^ 32)
    (h : Returns (checkUserPtr p len write) (some as) () st) : UserRange as p len write := by
  obtain ⟨n, h⟩ := h.result
  obtain ⟨seg, st1, hseg, hrest⟩ := bind_result h
  cases hseg
  have passed := checkSegments_result (archPageAlign p) (fun s hs => ⟨as.get_mem hs, as.get_le hs⟩) hrest
  have range : ∀ q : Addr, p.toNat ≤ q.toNat → q.toNat < p.toNat + len.toNat → Passed as write q := by
    intro q h1 h2
    refine passed q ?_ ?_
    · rw [BitVec.le_def, archPageAlign_toNat]
      omega
    · rw [BitVec.lt_def, archPageAlign_toNat, BitVec.toNat_add, BitVec.toNat_add,
        show ARCH_PAGE_SIZE.toNat = 4096 from rfl]
      omega
  refine ⟨by omega, fun q h1 h2 => ?_, fun w q h1 h2 seg mem has => ?_⟩
  · obtain ⟨seg, mem, has, -⟩ := range q h1 h2
    exact ⟨seg, mem, has⟩
  · obtain ⟨seg', mem', has', hw⟩ := range q h1 h2
    rw [as.unique mem mem' has has']
    exact hw w

/-- An address space of one writable segment at the bottom. -/
def lowSpace (size : BitVec 32) : AddressSpace where
  segments := [⟨0, size, SEGMENT_W, 0, 0, 0⟩]
  ordered := List.pairwise_singleton _ _
  disjoint := List.pairwise_singleton _ _

/-- The only segment is found for every address. -/
lemma lowSpace_get (size : BitVec 32) (key : Addr) :
    (lowSpace size).get key .le = some ⟨0, size, SEGMENT_W, 0, 0, 0⟩ := by
  have low : 0 ≤ keySign key ⟨0, size, SEGMENT_W, 0, 0, 0⟩ := by
    rw [keySign_nonneg, BitVec.le_def]
    exact Nat.zero_le _
  simp only [AddressSpace.get, Tree.pick, lowSpace, List.filter_cons, low, decide_true, if_true,
    List.filter_nil, List.getLast?_singleton]

/-- The check passes as soon as the rounded end lies below the end of the segment at the bottom. -/
lemma lowSpace_returns {p : Addr} {len size : BitVec 32} {write : Bool}
    (h : archPageAlign (p + (len + ARCH_PAGE_SIZE)) < size) :
    Returns (checkUserPtr p len write) (some (lowSpace size)) () (some (lowSpace size)) := by
  refine .bind (.asks _ _) ?_
  rw [Option.bind_some, lowSpace_get]
  refine .exit (.bind (.check ?_) (.ite_neg ?_ (.pure _ _)))
  · rintro ⟨-, nw⟩
    exact nw (show SEGMENT_W &&& SEGMENT_W ≠ 0 by decide)
  · show ¬_ ≥ 0#32 + size
    rw [BitVec.zero_add]
    exact BitVec.not_le.mpr h

/-- The addresses of the only segment are below its size. -/
lemma lowSpace_has {size : BitVec 32} {seg : Segment} {q : Addr} (mem : seg ∈ (lowSpace size).segments)
    (h : seg.Has q) : q < size := by
  rw [List.mem_singleton.mp mem] at h
  have low : q - 0#32 < size := h
  rwa [BitVec.sub_zero] at low

/-- If the end wraps around, there are address spaces where the check passes and must not. -/
lemma checkUserPtr_unsound {p : Addr} {len : BitVec 32} (h0 : len ≠ 0)
    (wraps : 2 ^ 32 ≤ p.toNat + len.toNat + 4096) :
    ∃ as, Returns (checkUserPtr p len false) (some as) () (some as) ∧ ¬UserRange as p len false := by
  have len0 : 0 < len.toNat := by
    rw [Nat.pos_iff_ne_zero]
    exact fun e => h0 (BitVec.eq_of_toNat_eq e)
  have vpend := archPageAlign_toNat (p + (len + ARCH_PAGE_SIZE))
  rw [BitVec.toNat_add, BitVec.toNat_add, show ARCH_PAGE_SIZE.toNat = 4096 from rfl] at vpend
  by_cases beyond : 2 ^ 32 < p.toNat + len.toNat
  · refine ⟨lowSpace 0xffffffff, lowSpace_returns ?_, fun h => ?_⟩
    · rw [BitVec.lt_def, vpend, show (0xffffffff : BitVec 32).toNat = 2 ^ 32 - 1 from rfl]
      omega
    · have fits := h.fits
      omega
  · refine ⟨lowSpace 8192, lowSpace_returns ?_, fun h => ?_⟩
    · rw [BitVec.lt_def, vpend, show (8192 : BitVec 32).toNat = 8192 from rfl]
      omega
    · -- the last byte of the range is far above the only segment
      have last : (BitVec.ofNat 32 (p.toNat + len.toNat - 1)).toNat = p.toNat + len.toNat - 1 := by
        rw [BitVec.toNat_ofNat]
        omega
      obtain ⟨seg, mem, has⟩ := h.covered (BitVec.ofNat 32 (p.toNat + len.toNat - 1)) (by omega) (by omega)
      have low := lowSpace_has mem has
      rw [BitVec.lt_def, last, show (8192 : BitVec 32).toNat = 8192 from rfl] at low
      omega

/-- A check that passes can be trusted, in every address space and for reading and writing, exactly when
    the range is empty or its end and one more page fit below the top of memory. -/
theorem checkUserPtr_sound_iff (p : Addr) (len : BitVec 32) :
    (∀ (as : AddressSpace) (write : Bool),
      Returns (checkUserPtr p len write) (some as) () (some as) → UserRange as p len write) ↔
      len = 0 ∨ p.toNat + len.toNat + 4096 < 2 ^ 32 := by
  constructor
  · intro sound
    by_contra h
    rw [not_or, Nat.not_lt] at h
    obtain ⟨as, run, bad⟩ := checkUserPtr_unsound h.1 h.2
    exact bad (sound as false run)
  · rintro (rfl | fits) as write run
    · have := p.isLt
      refine ⟨?_, fun q h1 h2 => ?_, fun _ q h1 h2 => ?_⟩
      · rw [show (0 : BitVec 32).toNat = 0 from rfl]
        omega
      · rw [show (0 : BitVec 32).toNat = 0 from rfl] at h2
        omega
      · rw [show (0 : BitVec 32).toNat = 0 from rfl] at h2
        omega
    · exact checkUserPtr_sound fits run

/-- With one segment of two pages at the bottom, 16 bytes at `0xfffff000` pass the check. -/
theorem checkUserPtr_wraps :
    Returns (checkUserPtr 0xfffff000 16 true) (some (lowSpace 8192)) () (some (lowSpace 8192)) ∧
      ¬UserRange (lowSpace 8192) 0xfffff000 16 true := by
  refine ⟨lowSpace_returns (by decide), fun h => ?_⟩
  obtain ⟨seg, mem, has⟩ := h.covered 0xfffff000 (by decide) (by decide)
  exact absurd (lowSpace_has mem has) (by decide)

end Twcos.Vm
