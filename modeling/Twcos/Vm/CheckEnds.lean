import Twcos.Prog.Turns
import Twcos.Vm.Check

/-!
# What the user pointer check lets pass

`checkComplete_iff` says when `check_user_ptr` ends and lets a range pass that lies in segments which permit the access.
It rounds the end of the range up to a page, and beyond that if the range ends with a page; and it goes on to the next
segment if the one it is at ends there. So it wants the segments to go on behind the range, below the top of memory. And
from an empty segment it goes on to the same segment, for ever.
-/

namespace Twcos.Vm
open Twcos.Prog

/-- `vpstart` and `vpend` of `check_user_ptr`. -/
def vpstart (p : Addr) : Addr := archPageAlign p

@[inherit_doc vpstart] def vpend (p : Addr) (len : BitVec 32) : Addr := archPageAlign (p + (len + ARCH_PAGE_SIZE))

/-- The address is in a page that the range overlaps. -/
def Overlapped (p : Addr) (len : BitVec 32) (q : Addr) : Prop :=
  ∃ r, p.toNat ≤ r ∧ r < p.toNat + len.toNat ∧ q.toNat / 4096 = r / 4096

/-- All pages that the range overlaps lie in segments that permit the access. -/
def PagesPass (as : AddressSpace) (p : Addr) (len : BitVec 32) (write : Bool) : Prop :=
  ∀ q, Overlapped p len q → Passed as write q

/-- The check ends, and returns if all pages of the range are in order. -/
structure CheckComplete (as : AddressSpace) (p : Addr) (len : BitVec 32) (write : Bool) : Prop where
  ends : Ends (checkUserPtr p len write) (some as)
  returns : PagesPass as p len write → Returns (checkUserPtr p len write) (some as) () (some as)

/-- The address is between the base and the end of a segment that permits the access. A segment that ends at the top of
    memory, or wraps around, has its end at the bottom. -/
def Between (as : AddressSpace) (write : Bool) (q : Addr) : Prop :=
  ∃ seg ∈ as.segments, seg.base ≤ q ∧ q < seg.base + seg.size ∧ (write = true → seg.Writable)

/-- The last segment at or below the first page is not empty. -/
def StartsFull (as : AddressSpace) (p : Addr) : Prop := ∃ first, as.get (vpstart p) .le = some first ∧ first.size ≠ 0

/-- There is no gap from the first page up to the rounded end, and the byte there is still in a segment. -/
def GoesOn (as : AddressSpace) (p : Addr) (len : BitVec 32) (write : Bool) : Prop :=
  StartsFull as p ∧ ∀ q, vpstart p ≤ q → q ≤ vpend p len → Between as write q

/-- An empty segment that permits the access is the last one at or below the first page, or there is no gap from there
    up to it, and it is not within another segment. -/
def MeetsEmpty (as : AddressSpace) (p : Addr) (len : BitVec 32) (write : Bool) : Prop :=
  ∃ e ∈ as.segments, e.size = 0 ∧ (write = true → e.Writable) ∧
    (as.get (vpstart p) .le = some e ∨
      StartsFull as p ∧ vpstart p < e.base ∧ e.base ≤ vpend p len ∧ (∀ seg ∈ as.segments, ¬seg.Has e.base) ∧
        ∀ q, vpstart p ≤ q → q < e.base → Between as write q)

/-! ### Segments -/

section Segments
variable {as : AddressSpace} {write : Bool} {seg other : Segment} {q : Addr}

/-- The end of a segment that does not wrap around. -/
lemma base_lt_end (h : seg.base < seg.base + seg.size) :
    (seg.base + seg.size).toNat = seg.base.toNat + seg.size.toNat ∧ 0 < seg.size.toNat := by
  have size := seg.size.isLt
  rw [BitVec.lt_def, BitVec.toNat_add] at h
  rw [BitVec.toNat_add]
  omega

/-- An address between base and end belongs to the segment. -/
lemma has_of_between (h1 : seg.base ≤ q) (h2 : q < seg.base + seg.size) : seg.Has q := by
  have lt : seg.base < seg.base + seg.size := by
    rw [BitVec.lt_def] at h2 ⊢
    rw [BitVec.le_def] at h1
    omega
  rw [BitVec.lt_def, (base_lt_end lt).1] at h2
  exact has_of_le h1 h2

/-- An address between base and end is passed by the loop. -/
lemma Between.passed (h : Between as write q) : Passed as write q := by
  obtain ⟨seg, mem, h1, h2, w⟩ := h
  exact ⟨seg, mem, has_of_between h1 h2, w⟩

/-- A segment has the byte behind another one only if it starts there. -/
lemma base_of_has_end (mem : seg ∈ as.segments) (mem' : other ∈ as.segments) (lt : seg.base < seg.base + seg.size)
    (h : other.Has (seg.base + seg.size)) : other.base = seg.base + seg.size := by
  obtain ⟨send, pos⟩ := base_lt_end lt
  by_contra ne
  -- otherwise it has the last byte of that segment, too
  have last : (seg.base + seg.size - 1).toNat = seg.base.toNat + seg.size.toNat - 1 := by
    have := (seg.base + seg.size).isLt
    rw [BitVec.toNat_sub, send, show (1 : BitVec 32).toNat = 1 from rfl]
    omega
  have inSeg : seg.Has (seg.base + seg.size - 1) := has_of_le (by omega) (by omega)
  have inOther : other.Has (seg.base + seg.size - 1) := by
    have ne' : other.base.toNat ≠ (seg.base + seg.size).toNat := fun e => ne (BitVec.eq_of_toNat_eq e)
    have := other.base.isLt
    have := (seg.base + seg.size).isLt
    rw [Segment.Has, BitVec.lt_def, BitVec.toNat_sub] at h ⊢
    omega
  rw [as.unique mem' mem inOther inSeg, Segment.Has, BitVec.lt_def, BitVec.toNat_sub, send] at h
  have := seg.base.isLt
  have := seg.size.isLt
  omega

/-- The segment that has the byte behind another one is the next one. -/
lemma Between.next (h : Between as write (seg.base + seg.size)) (mem : seg ∈ as.segments)
    (lt : seg.base < seg.base + seg.size) :
    ∃ next ∈ as.segments, as.get (seg.base + seg.size) .eq = some next ∧ next.base = seg.base + seg.size ∧
      next.base < next.base + next.size ∧ (write = true → next.Writable) := by
  obtain ⟨next, mem', h1, h2, w⟩ := h
  have base := base_of_has_end mem mem' lt (has_of_between h1 h2)
  refine ⟨next, mem', ?_, base, ?_, w⟩
  · rw [← base]
    exact as.get_base mem'
  · rw [BitVec.lt_def] at h2 ⊢
    rw [base] at h2 ⊢
    exact h2

end Segments

/-! ### The walk -/

/-- The body of the loop of `check_user_ptr`. -/
def checkBody (vpend : Addr) (write : Bool) : Option Segment → Prog CheckException (Option AddressSpace) (Option Segment ⊕ Unit)
  | none => raise .invalidPointer
  | some seg => do
    check (¬(write = true ∧ ¬seg.Writable)) .invalidPointer
    let segend := seg.base + seg.size
    if vpend ≥ segend then
      let next ← asks fun as => as.bind fun as => as.get segend .eq
      return .inl next
    else return .inr ()

/-- The code is its loop. -/
lemma checkSegments_eq (vpend : Addr) (write : Bool) (seg : Option Segment) :
    checkSegments vpend write seg = loop (checkBody vpend write) seg := rfl

section Walk
variable {as : AddressSpace} {vpend : Addr} {write : Bool} {seg : Segment}

/-- A turn that goes on to the next segment. -/
lemma checkBody_turn (w : write = true → seg.Writable) (le : seg.base + seg.size ≤ vpend) :
    Returns (checkBody vpend write (some seg)) (some as) (.inl (as.get (seg.base + seg.size) .eq)) (some as) :=
  .bind (.check fun h => h.2 (w h.1)) (.ite_pos le (.bind (.asks _ _) (.pure _ _)))

/-- The turn that leaves. -/
lemma checkBody_leave (w : write = true → seg.Writable) (lt : vpend < seg.base + seg.size) :
    Returns (checkBody vpend write (some seg)) (some as) (.inr ()) (some as) :=
  .bind (.check fun h => h.2 (w h.1)) (.ite_neg (BitVec.not_le.mpr lt) (.pure _ _))

/-- A turn without a segment throws. -/
lemma checkBody_none : Raises (checkBody vpend write none) (some as) .invalidPointer := ⟨0, fun _ _ => rfl⟩

/-- A turn that finds a segment that may not be written throws. -/
lemma checkBody_readonly (h : ¬(write = true → seg.Writable)) :
    Raises (checkBody vpend write (some seg)) (some as) .invalidPointer :=
  .first (.check fun ok => ok (Classical.not_imp.mp h))

/-- A turn needs no budget. -/
lemma straight_checkBody (seg : Option Segment) : Straight (checkBody vpend write seg) := by
  cases seg with
  | none => exact .raise _
  | some seg => exact .bind (.check _ _) fun _ => .ite (.bind (.asks _) fun _ => .pure _) (.pure _)

/-- The walk does not get beyond an empty segment. -/
lemma checkSegments_empty (mem : seg ∈ as.segments) (size : seg.size = 0) (w : write = true → seg.Writable)
    (le : seg.base ≤ vpend) : Endless (loop (checkBody vpend write) (some seg)) (some as) := by
  have same : seg.base + seg.size = seg.base := by rw [size, BitVec.ofNat_eq_ofNat, BitVec.add_zero]
  have turn := @checkBody_turn as vpend write seg w (by rw [same]; exact le)
  rw [same, as.get_base mem] at turn
  refine loop_forever (I := fun a s => a = some seg ∧ s = some as) ?_ ⟨rfl, rfl⟩
  rintro a s n ⟨rfl, rfl⟩
  exact ⟨some seg, some as, turn.at_budget (straight_checkBody _) n, rfl, rfl⟩

/-- Over segments without a gap the walk comes to one that ends at or behind `x`. -/
lemma reaches_past {x : Nat} (hx : x ≤ vpend.toNat + 1) (mem : seg ∈ as.segments) (lt : seg.base < seg.base + seg.size)
    (w : write = true → seg.Writable) (start : seg.base.toNat < x)
    (cover : ∀ q : Addr, seg.base + seg.size ≤ q → q.toNat < x → Between as write q) :
    ∃ last ∈ as.segments, Reaches (checkBody vpend write) (some seg) (some as) (some last) (some as) ∧
      last.base < last.base + last.size ∧ (write = true → last.Writable) ∧ last.base.toNat < x ∧
      x ≤ (last.base + last.size).toNat := by
  induction left : x - (seg.base + seg.size).toNat using Nat.strong_induction_on generalizing seg with
  | _ left ih =>
    by_cases past : x ≤ (seg.base + seg.size).toNat
    · exact ⟨seg, mem, .refl _ _, lt, w, start, past⟩
    · have between := cover _ (BitVec.le_refl _) (by omega)
      obtain ⟨next, mem', get, base, lt', w'⟩ := between.next mem lt
      have turn := @checkBody_turn as vpend write seg w (by rw [BitVec.le_def]; omega)
      rw [get] at turn
      rw [← base] at past cover left
      have lt'' := lt'
      rw [BitVec.lt_def] at lt''
      obtain ⟨last, hlast, reach, rest⟩ := ih _ (by omega) mem' lt' w' (by omega)
        (fun q h1 h2 => cover q (BitVec.le_trans (BitVec.le_of_lt lt') h1) h2) rfl
      exact ⟨last, hlast, .turn turn reach, rest⟩

end Walk

/-! ### The check -/

section Check
variable {as : AddressSpace} {p : Addr} {len : BitVec 32} {write : Bool}

/-- The first page of a range. -/
lemma vpstart_toNat (p : Addr) : (vpstart p).toNat = p.toNat / 4096 * 4096 := archPageAlign_toNat p

/-- The last address that the loop compares with. -/
lemma vpend_toNat (fits : p.toNat + len.toNat + 4096 < 2 ^ 32) :
    (vpend p len).toNat = (p.toNat + len.toNat) / 4096 * 4096 + 4096 := by
  rw [vpend, archPageAlign_toNat, BitVec.toNat_add, BitVec.toNat_add, show ARCH_PAGE_SIZE.toNat = 4096 from rfl]
  omega

/-- The first page is not behind the last address. -/
lemma vpstart_le (fits : p.toNat + len.toNat + 4096 < 2 ^ 32) : vpstart p ≤ vpend p len := by
  rw [BitVec.le_def, vpstart_toNat, vpend_toNat fits]
  omega

/-- The first segment, if the first byte is between its base and its end. -/
lemma first_between (full : StartsFull as p) (h : Between as write (vpstart p)) :
    ∃ first ∈ as.segments, as.get (vpstart p) .le = some first ∧ first.base ≤ vpstart p ∧
      vpstart p < first.base + first.size ∧ (write = true → first.Writable) := by
  obtain ⟨first, get, size⟩ := full
  obtain ⟨seg, mem, h1, h2, w⟩ := h
  have le := as.get_le get
  have max := as.get_le_max get mem h1
  have pos : 0 < first.size.toNat := Nat.pos_of_ne_zero fun e => size (BitVec.eq_of_toNat_eq e)
  have own : first.Has first.base := has_of_le (Nat.le_refl _) (by omega)
  have same := as.unique (as.get_mem get) mem own (has_of_between max (by
    rw [BitVec.lt_def] at h2 ⊢
    rw [BitVec.le_def] at le
    omega))
  subst same
  exact ⟨first, mem, get, h1, h2, w⟩

/-- What the code returns is what the loop returns. -/
lemma checkUserPtr_eq {as : AddressSpace} {u : Unit} {st : Option AddressSpace} :
    Returns (checkUserPtr p len write) (some as) u st ↔
      Returns (loop (checkBody (vpend p len) write) (as.get (vpstart p) .le)) (some as) u st := by
  rw [← checkSegments_eq]
  exact Iff.rfl

/-- The code ends if the loop does. -/
lemma checkUserPtr_ends : Ends (checkUserPtr p len write) (some as) ↔
    Ends (loop (checkBody (vpend p len) write) (as.get (vpstart p) .le)) (some as) := by
  rw [← checkSegments_eq]
  exact Iff.rfl

/-- The check returns if the segments go on behind the range. -/
lemma GoesOn.returns (fits : p.toNat + len.toNat + 4096 < 2 ^ 32) (h : GoesOn as p len write) :
    Returns (checkUserPtr p len write) (some as) () (some as) := by
  obtain ⟨full, cover⟩ := h
  have le := vpstart_le fits
  obtain ⟨first, mem, get, h1, h2, w⟩ := first_between full (cover _ (BitVec.le_refl _) le)
  have lt : first.base < first.base + first.size := by
    rw [BitVec.lt_def] at h2 ⊢
    rw [BitVec.le_def] at h1
    omega
  rw [BitVec.le_def] at le h1
  obtain ⟨last, -, reach, -, w', -, past⟩ := reaches_past (x := (vpend p len).toNat + 1) (Nat.le_refl _) mem lt w (by omega)
    (fun q hq hx => cover q (by rw [BitVec.lt_def] at h2; rw [BitVec.le_def] at hq ⊢; omega)
      (by rw [BitVec.le_def]; omega))
  rw [checkUserPtr_eq, get]
  exact reach.returns (.exit (checkBody_leave w' (by rw [BitVec.lt_def]; omega)))

/-- If the check returns, then the segments go on behind the range. -/
lemma goesOn_of_returns (fits : p.toNat + len.toNat + 4096 < 2 ^ 32) {st : Option AddressSpace}
    (h : Returns (checkUserPtr p len write) (some as) () st) : GoesOn as p len write := by
  have le := vpstart_le fits
  rw [checkUserPtr_eq] at h
  refine ⟨?_, ?_⟩
  · cases get : as.get (vpstart p) .le with
    | none =>
      rw [get] at h
      exact absurd h checkBody_none.loop.not_returns
    | some first =>
      refine ⟨first, get, fun size => ?_⟩
      rw [get] at h
      by_cases w : write = true → first.Writable
      · have below := BitVec.le_trans (as.get_le get) le
        exact (checkSegments_empty (as.get_mem get) size w below).not_returns h
      · exact (checkBody_readonly w).loop.not_returns h
  · obtain ⟨n, h⟩ := h.result
    refine loop_result
      (I := fun seg st => st = some as ∧ ∀ s, seg = some s →
        s ∈ as.segments ∧ ∀ q, vpstart p ≤ q → q < s.base → Between as write q)
      (Q := fun _ _ => ∀ q, vpstart p ≤ q → q ≤ vpend p len → Between as write q) ?_ ?_ ⟨rfl, ?_⟩ h
    · rintro seg st n next st' ⟨rfl, hseg⟩ hb
      cases seg with
      | none => cases hb
      | some seg =>
        obtain ⟨mem, before⟩ := hseg seg rfl
        obtain ⟨rfl, w, ⟨hr, -⟩ | ⟨hr, -⟩⟩ := checkTurn_result hb
        · cases hr
          refine ⟨rfl, fun s hs => ⟨as.get_mem hs, fun q h1 h2 => ?_⟩⟩
          rw [as.get_eq hs] at h2
          by_cases low : q < seg.base
          · exact before q h1 low
          · exact ⟨seg, mem, BitVec.not_lt.mp low, h2, w⟩
        · cases hr
    · rintro seg st n u st' ⟨rfl, hseg⟩ hb q h1 h2
      cases seg with
      | none => cases hb
      | some seg =>
        obtain ⟨mem, before⟩ := hseg seg rfl
        obtain ⟨rfl, w, ⟨hr, -⟩ | ⟨-, lt⟩⟩ := checkTurn_result hb
        · cases hr
        · by_cases low : q < seg.base
          · exact before q h1 low
          · refine ⟨seg, mem, BitVec.not_lt.mp low, ?_, w⟩
            rw [BitVec.lt_def] at lt ⊢
            rw [BitVec.le_def] at h2
            omega
    · intro s hs
      refine ⟨as.get_mem hs, fun q h1 h2 => ?_⟩
      have := as.get_le hs
      rw [BitVec.lt_def] at h2
      rw [BitVec.le_def] at h1 this
      omega

/-- No segment has the base of an empty segment that starts where another one ends. -/
lemma not_has_empty {seg e other : Segment} (mem : seg ∈ as.segments) (hother : other ∈ as.segments)
    (he : e ∈ as.segments) (lt : seg.base < seg.base + seg.size) (base : e.base = seg.base + seg.size)
    (size : e.size = 0) : ¬other.Has e.base := by
  intro h
  have has := h
  rw [base] at h
  have same := as.base_inj hother he ((base_of_has_end mem hother lt h).trans base.symm)
  rw [same, Segment.Has, size] at has
  exact absurd has (Nat.not_lt_zero _)

/-- A segment that wraps around, or ends at the top of memory, has all that lies above its base. -/
lemma has_of_wraps {seg : Segment} (size : seg.size ≠ 0) (wraps : ¬seg.base < seg.base + seg.size) {q : Addr}
    (h : seg.base ≤ q) : seg.Has q := by
  have pos : 0 < seg.size.toNat := Nat.pos_of_ne_zero fun e => size (BitVec.eq_of_toNat_eq e)
  have := q.isLt
  have := seg.size.isLt
  rw [BitVec.lt_def, BitVec.toNat_add] at wraps
  exact has_of_le h (by omega)

/-- The pages of the range are not below the first page. -/
lemma Overlapped.vpstart_le {q : Addr} (h : Overlapped p len q) : vpstart p ≤ q := by
  obtain ⟨r, h1, h2, same⟩ := h
  rw [BitVec.le_def, vpstart_toNat]
  omega

/-- The walk ends if it meets no empty segment, and the pages of the range do not all lie in segments that permit the
    access: it goes up and does not wrap around. -/
lemma walk_ends {seg : Segment} (fails : ¬PagesPass as p len write) (never : ¬MeetsEmpty as p len write)
    (full : StartsFull as p) (mem : seg ∈ as.segments) (size : seg.size ≠ 0) (le : seg.base ≤ vpend p len)
    (above : as.get (vpstart p) .le = some seg ∨ vpstart p < seg.base)
    (before : ∀ q, vpstart p ≤ q → q < seg.base → Between as write q) :
    Ends (loop (checkBody (vpend p len) write) (some seg)) (some as) := by
  induction left : 2 ^ 32 - seg.base.toNat using Nat.strong_induction_on generalizing seg with
  | _ left ih =>
    by_cases w : write = true → seg.Writable
    · by_cases lt : seg.base < seg.base + seg.size
      · by_cases more : seg.base + seg.size ≤ vpend p len
        · have turn := @checkBody_turn as _ write seg w more
          have upto : ∀ q, vpstart p ≤ q → q < seg.base + seg.size → Between as write q := by
            intro q h1 h2
            by_cases low : q < seg.base
            · exact before q h1 low
            · exact ⟨seg, mem, BitVec.not_lt.mp low, h2, w⟩
          cases get : as.get (seg.base + seg.size) .eq with
          | none =>
            rw [get] at turn
            exact .inr ⟨_, .turn turn checkBody_none.loop⟩
          | some next =>
            rw [get] at turn
            have mem' := as.get_mem get
            have base := as.get_eq get
            rw [← base] at lt more upto
            -- the next segment is not the first one that was looked up
            have above' : vpstart p < next.base := by
              rcases above with first | above
              · by_contra low
                have max := as.get_le_max first mem' (BitVec.not_lt.mp low)
                exact BitVec.not_lt.mpr max lt
              · exact BitVec.lt_trans above lt
            by_cases empty : next.size = 0
            · by_cases w' : write = true → next.Writable
              · refine absurd ⟨next, mem', empty, w', .inr ⟨full, above', more, fun other hother => ?_, upto⟩⟩ never
                exact not_has_empty mem hother mem' (by rw [← base]; exact lt) base empty
              · exact .inr ⟨_, .turn turn (checkBody_readonly w').loop⟩
            · have up := lt
              rw [BitVec.lt_def] at up
              have := next.base.isLt
              rcases ih _ (by omega) mem' empty more (.inr above') upto rfl with ⟨u, st, run⟩ | ⟨e, run⟩
              · exact .inl ⟨u, st, .turn turn run⟩
              · exact .inr ⟨e, .turn turn run⟩
        · exact .inl ⟨(), some as, .exit (checkBody_leave w (BitVec.not_le.mp more))⟩
      · refine absurd (fun q hq => ?_) fails
        by_cases low : q < seg.base
        · exact (before q hq.vpstart_le low).passed
        · exact ⟨seg, mem, has_of_wraps size lt (BitVec.not_lt.mp low), w⟩
    · exact .inr ⟨_, (checkBody_readonly w).loop⟩

/-- The check ends if it meets no empty segment, and the pages of the range do not all permit the access. -/
lemma checkUserPtr_ends_of (fits : p.toNat + len.toNat + 4096 < 2 ^ 32) (fails : ¬PagesPass as p len write)
    (never : ¬MeetsEmpty as p len write) : Ends (checkUserPtr p len write) (some as) := by
  rw [checkUserPtr_ends]
  cases get : as.get (vpstart p) .le with
  | none => exact .inr ⟨_, checkBody_none.loop⟩
  | some first =>
    have mem := as.get_mem get
    have low := as.get_le get
    by_cases size : first.size = 0
    · by_cases w : write = true → first.Writable
      · exact absurd ⟨first, mem, size, w, .inl get⟩ never
      · exact .inr ⟨_, (checkBody_readonly w).loop⟩
    · refine walk_ends fails never ⟨first, get, size⟩ mem size (BitVec.le_trans low (vpstart_le fits)) (.inl get) ?_
      intro q h1 h2
      exact absurd h2 (BitVec.not_lt.mpr (BitVec.le_trans low h1))

/-- A check that meets an empty segment does not end. -/
lemma MeetsEmpty.endless (fits : p.toNat + len.toNat + 4096 < 2 ^ 32) (h : MeetsEmpty as p len write) :
    ¬Ends (checkUserPtr p len write) (some as) := by
  obtain ⟨e, mem, size, w, met⟩ := h
  rw [checkUserPtr_ends]
  rcases met with get | ⟨full, above, le, out, cover⟩
  · rw [get]
    exact (checkSegments_empty mem size w (BitVec.le_trans (as.get_le get) (vpstart_le fits))).not_ends
  · obtain ⟨first, hfirst, get, h1, h2, w1⟩ := first_between full (cover _ (BitVec.le_refl _) above)
    have lt : first.base < first.base + first.size := by
      rw [BitVec.lt_def] at h2 ⊢
      rw [BitVec.le_def] at h1
      omega
    rw [BitVec.le_def] at le
    rw [BitVec.lt_def] at above h2
    rw [BitVec.le_def] at h1
    obtain ⟨last, hlast, reach, lt', w', start, past⟩ := reaches_past
      (show e.base.toNat ≤ (vpend p len).toNat + 1 by omega) hfirst lt w1 (by omega)
      (fun q hq hx => cover q (by rw [BitVec.le_def] at hq ⊢; omega) hx)
    -- the segment ends at the empty one, as it does not have its base
    have ends : e.base = last.base + last.size := by
      apply BitVec.eq_of_toNat_eq
      by_contra ne
      exact out last hlast (has_of_between (by rw [BitVec.le_def]; omega) (by rw [BitVec.lt_def]; omega))
    have turn := @checkBody_turn as (vpend p len) write last w' (by rw [← ends, BitVec.le_def]; exact le)
    rw [← ends, as.get_base mem] at turn
    rw [get]
    exact (reach.endless (.turn turn (checkSegments_empty mem size w le))).not_ends

end Check

/-- The check does what it should exactly in these cases: the pages of the range permit the access, and the segments go on
    behind the range; or they do not, and the check meets no empty segment. -/
theorem checkComplete_iff (as : AddressSpace) (p : Addr) (len : BitVec 32) (write : Bool)
    (fits : p.toNat + len.toNat + 4096 < 2 ^ 32) :
    CheckComplete as p len write ↔
      (PagesPass as p len write → GoesOn as p len write) ∧ (¬PagesPass as p len write → ¬MeetsEmpty as p len write) := by
  constructor
  · rintro ⟨ends, returns⟩
    exact ⟨fun pass => goesOn_of_returns fits (returns pass), fun _ met => met.endless fits ends⟩
  · rintro ⟨goesOn, never⟩
    by_cases pass : PagesPass as p len write
    · have run := (goesOn pass).returns fits
      exact ⟨.inl ⟨_, _, run⟩, fun _ => run⟩
    · exact ⟨checkUserPtr_ends_of fits pass (never pass), fun h => absurd h pass⟩

/-- The last bytes of the first of two pages. -/
theorem checkComplete_first_page : CheckComplete (lowSpace 8192) 0x10 16 true := by
  refine (checkComplete_iff (lowSpace 8192) 0x10 16 true (by decide)).mpr ?_
  have goesOn : GoesOn (lowSpace 8192) 0x10 16 true := by
    refine ⟨⟨_, lowSpace_get 8192 _, by decide⟩, fun q _ h => ⟨_, List.mem_singleton_self _, Nat.zero_le _, ?_, fun _ => ?_⟩⟩
    · rw [BitVec.lt_def]
      rw [BitVec.le_def, vpend_toNat (by decide)] at h
      exact Nat.lt_of_le_of_lt h (by decide)
    · show SEGMENT_W &&& SEGMENT_W ≠ 0
      decide
  refine ⟨fun _ => goesOn, fun fails => absurd (fun q hq => ?_) fails⟩
  obtain ⟨r, h1, h2, same⟩ := id hq
  refine (goesOn.2 q hq.vpstart_le ?_).passed
  have small : (0x10 : BitVec 32).toNat = 16 := rfl
  rw [small] at h2
  rw [BitVec.le_def, vpend_toNat (by decide), small]
  omega

/-- The last bytes of a segment: the check looks for a segment behind it. -/
theorem checkUserPtr_last_page : ¬CheckComplete (lowSpace 8192) 0x1000 16 false := by
  intro h
  have pass : PagesPass (lowSpace 8192) 0x1000 16 false := by
    rintro q ⟨r, h1, h2, same⟩
    refine ⟨_, List.mem_singleton_self _, has_of_le (Nat.zero_le _) ?_, fun w => by cases w⟩
    rw [show (0x1000 : BitVec 32).toNat = 4096 from rfl, show (16 : BitVec 32).toNat = 16 from rfl] at h2
    show q.toNat < 0 + 8192
    omega
  obtain ⟨-, cover⟩ := goesOn_of_returns (by decide) (h.returns pass)
  obtain ⟨seg, mem, -, lt, -⟩ := cover 0x2000 (by decide) (by decide)
  rw [List.mem_singleton.mp mem] at lt
  exact absurd lt (by decide)

end Twcos.Vm
