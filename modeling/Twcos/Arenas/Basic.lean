import Twcos.Run.Basic
import Twcos.Word.Basic

/-!
# Arenas

Model of `libk/arena.c`. An arena is a piece of kernel address space that is handed out from its start; all that was
handed out since `arena_getstate` is taken back at once by `arena_setstate`. Nothing compares the state with the top of
the arena when blocks are handed out, and `check_ptr_bounds` does not let the state of a full arena pass.
`disciplined_always_iff` says in which runs the blocks nevertheless stay apart from each other and in the arena, and all
saved states can be restored.

C → Lean naming: `arena_t` → `Arena`; `arena_alloc` → `arenaAlloc`, `vm_kas_get_aligned` → `vmKasGetAligned` and so on.
All addresses are 32-bit words. A number of pages is read without a sign.
-/

namespace Twcos.Arenas
open Twcos.Run

/-- `arena_t`: the pointers. -/
structure Arena where
  base : BitVec 32
  state : BitVec 32
  top : BitVec 32
deriving DecidableEq

/-- `vm_kas_get_aligned`: the address, and `kas_next` afterwards. -/
def vmKasGetAligned (kas_next size align : BitVec 32) : BitVec 32 × BitVec 32 :=
  let p := (kas_next + (align - 1)) &&& ~~~(align - 1)
  (p, p + size)

/-- `vm_kas_get`; `sizeof(intptr_t)` is 4. -/
def vmKasGet (kas_next size : BitVec 32) : BitVec 32 × BitVec 32 := vmKasGetAligned kas_next size 4

/-- `arena_create`, and `kas_next` afterwards. -/
def arenaCreate (kas_next size : BitVec 32) : Arena × BitVec 32 :=
  let (p, kas_next) := vmKasGet kas_next size
  (⟨p, p, p + size⟩, kas_next)

def arenaAlloc (arena : Arena) (size : BitVec 32) : BitVec 32 × Arena :=
  (arena.state, { arena with state := arena.state + ((size + (4 - 1)) &&& ~~~(4 - 1)) })

/-- `ARCH_PAGE_ALIGN(arena->state+ARCH_PAGE_SIZE-1)`. -/
def nextPage (state : BitVec 32) : BitVec 32 := (state + 4096 - 1) &&& ~~~(4096 - 1)

def arenaPalloc (arena : Arena) (pages : BitVec 32) : BitVec 32 × Arena :=
  (nextPage arena.state, { arena with state := nextPage arena.state + pages * 4096 })

def arenaGetstate (arena : Arena) : BitVec 32 := arena.state

/-- `check_ptr_bounds`; otherwise `PtrBoundsException` is thrown. -/
def checkPtrBounds (p low high : BitVec 32) : Bool := ¬(p < low ∨ high ≤ p)

def arenaSetstate (arena : Arena) (state : BitVec 32) : Option Arena :=
  if checkPtrBounds state arena.base arena.top then some { arena with state := state } else none

/-! ### Runs -/

/-- A block with its size, and what its address is a multiple of. -/
structure Block where
  start : BitVec 32
  size : Nat
  align : Nat
deriving DecidableEq

/-- The arena, the blocks that were not taken back, and the values that `arena_getstate` has returned. -/
structure State where
  arena : Arena
  blocks : List Block
  saved : List (BitVec 32)

inductive Event where
  | alloc (size : BitVec 32)
  | palloc (pages : BitVec 32)
  | getstate
  | setstate (state : BitVec 32)

/-- Only states that were saved are restored, older or newer ones. This takes back all blocks but those that end at or
    below the restored state. -/
def step (s : State) : Event → Option State
  | .alloc size =>
    let (p, arena) := arenaAlloc s.arena size
    some { s with arena := arena, blocks := ⟨p, size.toNat, 4⟩ :: s.blocks }
  | .palloc pages =>
    let (p, arena) := arenaPalloc s.arena pages
    some { s with arena := arena, blocks := ⟨p, 4096 * pages.toNat, 4096⟩ :: s.blocks }
  | .getstate => some { s with saved := arenaGetstate s.arena :: s.saved }
  | .setstate state =>
    if state ∈ s.saved then
      (arenaSetstate s.arena state).map fun arena =>
        { s with arena := arena, blocks := s.blocks.filter fun b => b.start.toNat + b.size ≤ state.toNat }
    else none

/-- A new arena. -/
def start (kas_next size : BitVec 32) : State := ⟨(arenaCreate kas_next size).1, [], []⟩

/-- The blocks do not overlap, are aligned and lie in the arena, and the saved states that are not newer than the current
    one can be restored. -/
structure Disciplined (s : State) : Prop where
  disjoint : s.blocks.Pairwise fun a b =>
    a.start.toNat + a.size ≤ b.start.toNat ∨ b.start.toNat + b.size ≤ a.start.toNat
  aligned : ∀ b ∈ s.blocks, b.start.toNat % b.align = 0
  inside : ∀ b ∈ s.blocks, s.arena.base.toNat ≤ b.start.toNat ∧ b.start.toNat + b.size ≤ s.arena.top.toNat
  restores : ∀ v ∈ s.saved, v ≤ s.arena.state → (arenaSetstate s.arena v).isSome

/-- The block ends at or below the top of the arena, and no state is saved when the arena is full. -/
def Within (s : State) : Event → Prop
  | .alloc size =>
    s.arena.base.toNat ≤ s.arena.state.toNat ∧ s.arena.state.toNat + size.toNat ≤ s.arena.top.toNat
  | .palloc pages =>
    s.arena.base.toNat ≤ s.arena.state.toNat ∧
      (s.arena.state.toNat + 4095) / 4096 * 4096 + 4096 * pages.toNat ≤ s.arena.top.toNat
  | .getstate => s.arena.base.toNat ≤ s.arena.state.toNat ∧ s.arena.state.toNat < s.arena.top.toNat
  | .setstate _ => True

instance Within.decidable (s : State) : ∀ e, Decidable (Within s e)
  | .alloc _ => instDecidableAnd
  | .palloc _ => instDecidableAnd
  | .getstate => instDecidableAnd
  | .setstate _ => isTrue trivial

/-- The state is at the end of the blocks, or has wrapped around; it is word aligned, and what was saved lies in the
    arena. -/
structure Inv (s : State) : Prop where
  base : 0 < s.arena.base.toNat
  word : s.arena.state.toNat % 4 = 0
  below : s.arena.state.toNat = 0 ∨
    s.arena.base.toNat ≤ s.arena.state.toNat ∧ ∀ b ∈ s.blocks, b.start.toNat + b.size ≤ s.arena.state.toNat
  saved : ∀ v ∈ s.saved, v.toNat % 4 = 0 ∧ s.arena.base.toNat ≤ v.toNat ∧ v.toNat < s.arena.top.toNat

/-! ### The calls -/

/-- Rounding up to the next page, with the overflow of 32 bits. -/
lemma nextPage_toNat (state : BitVec 32) : (nextPage state).toNat = (state.toNat + 4095) % 2 ^ 32 / 4096 * 4096 := by
  have sum : state + 4096 - 1 = state + BitVec.ofNat 32 4095 := by
    rw [BitVec.sub_eq_add_neg, BitVec.add_assoc]
    rfl
  have mask : nextPage state = (state + 4096 - 1) &&& ~~~BitVec.ofNat 32 (2 ^ 12 - 1) := rfl
  rw [mask, Word.toNat_and_not, sum, BitVec.toNat_add]
  rfl

/-- `size` rounded up to words. -/
lemma roundUp_toNat (size : BitVec 32) :
    ((size + (4 - 1)) &&& ~~~(4 - 1) : BitVec 32).toNat = (size.toNat + 3) % 2 ^ 32 / 4 * 4 := by
  have mask : ((size + (4 - 1)) &&& ~~~(4 - 1) : BitVec 32) = (size + BitVec.ofNat 32 3) &&& ~~~BitVec.ofNat 32 (2 ^ 2 - 1) :=
    rfl
  rw [mask, Word.toNat_and_not, BitVec.toNat_add]
  rfl

/-- `arena_setstate` takes the states from the base up to below the top. -/
lemma arenaSetstate_isSome {arena : Arena} {v : BitVec 32} :
    (arenaSetstate arena v).isSome ↔ arena.base.toNat ≤ v.toNat ∧ v.toNat < arena.top.toNat := by
  have check : checkPtrBounds v arena.base arena.top = true ↔
      arena.base.toNat ≤ v.toNat ∧ v.toNat < arena.top.toNat := by
    rw [checkPtrBounds, decide_eq_true_iff, not_or, BitVec.not_lt, BitVec.not_le, BitVec.le_def, BitVec.lt_def]
  rw [← check, arenaSetstate]
  split
  · next ok => exact iff_of_true rfl ok
  · next bad => exact iff_of_false Bool.false_ne_true bad

section Steps
variable {s s' : State}

/-- A block that starts where all others end. -/
lemma Disciplined.block (h : Disciplined s) (b : Block) (blocks : s'.blocks = b :: s.blocks) (same : s'.saved = s.saved)
    (base : s'.arena.base = s.arena.base) (top : s'.arena.top = s.arena.top)
    (saved : ∀ v ∈ s.saved, s.arena.base.toNat ≤ v.toNat ∧ v.toNat < s.arena.top.toNat)
    (above : ∀ a ∈ s.blocks, a.start.toNat + a.size ≤ b.start.toNat) (aligned : b.start.toNat % b.align = 0)
    (inside : s.arena.base.toNat ≤ b.start.toNat ∧ b.start.toNat + b.size ≤ s.arena.top.toNat) : Disciplined s' where
  disjoint := by
    rw [blocks]
    exact List.pairwise_cons.mpr ⟨fun a ha => .inr (above a ha), h.disjoint⟩
  aligned := by
    intro a ha
    rw [blocks] at ha
    rcases List.mem_cons.mp ha with rfl | ha
    · exact aligned
    · exact h.aligned a ha
  inside := by
    intro a ha
    rw [blocks] at ha
    rw [base, top]
    rcases List.mem_cons.mp ha with rfl | ha
    · exact inside
    · exact h.inside a ha
  restores := by
    intro v hv le
    rw [same] at hv
    rw [arenaSetstate_isSome, base, top]
    exact saved v hv

/-- All blocks end at or below the state, unless it has wrapped around. -/
lemma Inv.ends (h : Inv s) (base : s.arena.base.toNat ≤ s.arena.state.toNat) {a : Block} (ha : a ∈ s.blocks) :
    a.start.toNat + a.size ≤ s.arena.state.toNat := by
  have pos := h.base
  exact (h.below.resolve_left (by omega)).2 a ha

/-- Of two disciplined states around `arena_alloc`, the second is one exactly if the block ends inside the
    arena. -/
lemma Inv.alloc_iff (h : Inv s) (d : Disciplined s) {size : BitVec 32} (hs : step s (.alloc size) = some s') :
    Disciplined s' ↔ Within s (.alloc size) := by
  cases hs
  constructor
  · intro d'
    exact d'.inside _ List.mem_cons_self
  · intro fits
    refine d.block ⟨s.arena.state, size.toNat, 4⟩ rfl rfl rfl rfl ?_ ?_ ?_ ?_
    · intro v hv
      exact (h.saved v hv).2
    · intro a ha
      exact h.ends fits.1 ha
    · exact h.word
    · exact fits

/-- An allocation that ends inside the arena keeps the invariant. -/
lemma Inv.alloc (h : Inv s) {size : BitVec 32} (hs : step s (.alloc size) = some s') (fits : Within s (.alloc size)) :
    Inv s' := by
  cases hs
  obtain ⟨lo, hi⟩ := fits
  have base := h.base
  have word := h.word
  have top := s.arena.top.isLt
  have round := roundUp_toNat size
  have sum : (arenaAlloc s.arena size).2.state.toNat =
      (s.arena.state.toNat + (size.toNat + 3) % 2 ^ 32 / 4 * 4) % 2 ^ 32 := by
    rw [← round, ← BitVec.toNat_add]
    rfl
  refine ⟨base, ?_, ?_, h.saved⟩
  · show (arenaAlloc s.arena size).2.state.toNat % 4 = 0
    omega
  · show (arenaAlloc s.arena size).2.state.toNat = 0 ∨ s.arena.base.toNat ≤ (arenaAlloc s.arena size).2.state.toNat ∧ _
    -- the end of the address space
    by_cases wrap : (arenaAlloc s.arena size).2.state.toNat = 0
    · exact .inl wrap
    · refine .inr ⟨by omega, ?_⟩
      intro a ha
      show a.start.toNat + a.size ≤ (arenaAlloc s.arena size).2.state.toNat
      rcases List.mem_cons.mp ha with rfl | ha
      · show s.arena.state.toNat + size.toNat ≤ _
        omega
      · have := h.ends lo ha
        omega

/-- The next page starts at or above the state, unless it is behind the end of the address space. -/
lemma nextPage_eq {state : BitVec 32} (h : state.toNat + 4095 < 2 ^ 32) :
    (nextPage state).toNat = (state.toNat + 4095) / 4096 * 4096 := by
  rw [nextPage_toNat, Nat.mod_eq_of_lt h]

/-- Of two disciplined states around an allocation of pages, the second is one exactly if the last page ends
    inside the arena. -/
lemma Inv.palloc_iff (h : Inv s) (d : Disciplined s) {pages : BitVec 32} (hs : step s (.palloc pages) = some s') :
    Disciplined s' ↔ Within s (.palloc pages) := by
  cases hs
  have base := h.base
  have top := s.arena.top.isLt
  constructor
  · intro d'
    obtain ⟨lo, hi⟩ := d'.inside _ List.mem_cons_self
    change s.arena.base.toNat ≤ (nextPage s.arena.state).toNat at lo
    change (nextPage s.arena.state).toNat + 4096 * pages.toNat ≤ s.arena.top.toNat at hi
    -- a page at the start of the address space is below the arena
    have room : s.arena.state.toNat + 4095 < 2 ^ 32 := by
      have page := nextPage_toNat s.arena.state
      have state := s.arena.state.isLt
      omega
    rw [nextPage_eq room] at lo hi
    refine ⟨?_, hi⟩
    rcases h.below with zero | ⟨le, -⟩
    · omega
    · exact le
  · intro fits
    obtain ⟨lo, hi⟩ := fits
    have page : (nextPage s.arena.state).toNat = _ := nextPage_eq (by omega)
    refine d.block ⟨nextPage s.arena.state, 4096 * pages.toNat, 4096⟩ rfl rfl rfl rfl ?_ ?_ ?_ ?_
    · intro v hv
      exact (h.saved v hv).2
    · intro a ha
      have := h.ends lo ha
      show _ ≤ (nextPage s.arena.state).toNat
      omega
    · show (nextPage s.arena.state).toNat % 4096 = 0
      omega
    · show s.arena.base.toNat ≤ (nextPage s.arena.state).toNat ∧ (nextPage s.arena.state).toNat + _ ≤ s.arena.top.toNat
      rw [page]
      exact ⟨by omega, hi⟩

/-- An allocation of pages that end inside the arena keeps the invariant. -/
lemma Inv.palloc (h : Inv s) {pages : BitVec 32} (hs : step s (.palloc pages) = some s')
    (fits : Within s (.palloc pages)) : Inv s' := by
  cases hs
  obtain ⟨lo, hi⟩ := fits
  have base := h.base
  have top := s.arena.top.isLt
  have page : (nextPage s.arena.state).toNat = _ := nextPage_eq (by omega)
  have sum : (arenaPalloc s.arena pages).2.state.toNat = (nextPage s.arena.state).toNat + 4096 * pages.toNat := by
    show (nextPage s.arena.state + pages * 4096).toNat = _
    have product : (pages * 4096).toNat = 4096 * pages.toNat := by
      rw [BitVec.toNat_mul, Nat.mul_comm]
      exact Nat.mod_eq_of_lt (show 4096 * pages.toNat < 2 ^ 32 by omega)
    rw [BitVec.toNat_add, product, Nat.mod_eq_of_lt (by omega)]
  refine ⟨base, ?_, .inr ⟨?_, ?_⟩, h.saved⟩
  · show (arenaPalloc s.arena pages).2.state.toNat % 4 = 0
    omega
  · show s.arena.base.toNat ≤ (arenaPalloc s.arena pages).2.state.toNat
    omega
  · intro a ha
    show a.start.toNat + a.size ≤ (arenaPalloc s.arena pages).2.state.toNat
    rcases List.mem_cons.mp ha with rfl | ha
    · exact Nat.le_of_eq sum.symm
    · have := h.ends lo ha
      omega

/-- Saving the state keeps the discipline exactly if the state is below the top. -/
lemma Disciplined.getstate_iff (d : Disciplined s) (hs : step s .getstate = some s') :
    Disciplined s' ↔ Within s .getstate := by
  cases hs
  constructor
  · intro d'
    exact arenaSetstate_isSome.mp (d'.restores _ List.mem_cons_self (BitVec.le_refl _))
  · intro fits
    refine ⟨d.disjoint, d.aligned, d.inside, ?_⟩
    intro v hv le
    rcases List.mem_cons.mp hv with rfl | hv
    · exact arenaSetstate_isSome.mpr fits
    · exact d.restores v hv le

/-- A state that is below the top may be saved. -/
lemma Inv.getstate (h : Inv s) (hs : step s .getstate = some s') (fits : Within s .getstate) : Inv s' := by
  cases hs
  refine ⟨h.base, h.word, h.below, ?_⟩
  intro v hv
  rcases List.mem_cons.mp hv with rfl | hv
  · exact ⟨h.word, fits⟩
  · exact h.saved v hv

/-- Restoring takes back the blocks above the restored state. -/
lemma Inv.setstate (h : Inv s) (d : Disciplined s) {v : BitVec 32} (hs : step s (.setstate v) = some s') :
    Disciplined s' ∧ Inv s' := by
  rw [step] at hs
  split at hs
  · next mem =>
    obtain ⟨arena, set, rfl⟩ := Option.map_eq_some_iff.mp hs
    rw [arenaSetstate] at set
    split at set
    · cases set
      obtain ⟨word, lo, hi⟩ := h.saved v mem
      constructor
      · refine ⟨d.disjoint.filter _, ?_, ?_, ?_⟩
        · intro a ha
          exact d.aligned a (List.mem_filter.mp ha).1
        · intro a ha
          exact d.inside a (List.mem_filter.mp ha).1
        · intro w hw le
          exact arenaSetstate_isSome.mpr (h.saved w hw).2
      · refine ⟨h.base, word, .inr ⟨lo, ?_⟩, h.saved⟩
        intro a ha
        exact of_decide_eq_true (List.mem_filter.mp ha).2
    · cases set
  · cases hs

end Steps

/-! ### Runs -/

/-- The base of a new arena is the next word. -/
lemma start_base (kas_next size : BitVec 32) :
    (start kas_next size).arena.base.toNat = (kas_next.toNat + 3) % 2 ^ 32 / 4 * 4 :=
  roundUp_toNat kas_next

/-- A new arena is in order if its base does not wrap around. -/
lemma inv_start {kas_next : BitVec 32} (h : 0 < kas_next.toNat ∧ kas_next.toNat + 3 < 2 ^ 32) (size : BitVec 32) :
    Inv (start kas_next size) := by
  have base := start_base kas_next size
  have word : (start kas_next size).arena.state.toNat = (kas_next.toNat + 3) % 2 ^ 32 / 4 * 4 := base
  refine ⟨by omega, by omega, .inr ⟨Nat.le_refl _, ?_⟩, ?_⟩
  · intro a ha
    cases ha
  · intro v hv
    cases hv

/-- A new arena is disciplined: it has no blocks and no saved states yet. -/
lemma disciplined_start (kas_next size : BitVec 32) : Disciplined (start kas_next size) where
  disjoint := .nil
  aligned := by
    intro b hb
    cases hb
  inside := by
    intro b hb
    cases hb
  restores := by
    intro v hv
    cases hv

/-- A step keeps the discipline exactly if what it allocates or saves is within the arena. -/
lemma Inv.step_iff {s s' : State} (h : Inv s) (d : Disciplined s) {e : Event} (hs : step s e = some s') :
    Disciplined s' ↔ Within s e := by
  cases e with
  | alloc size => exact h.alloc_iff d hs
  | palloc pages => exact h.palloc_iff d hs
  | getstate => exact d.getstate_iff hs
  | setstate v => exact iff_of_true (h.setstate d hs).1 trivial

/-- A step within the arena keeps the invariant. -/
lemma Inv.step {s s' : State} (h : Inv s) (d : Disciplined s) {e : Event} (hs : Arenas.step s e = some s')
    (fits : Within s e) : Inv s' := by
  cases e with
  | alloc size => exact h.alloc hs fits
  | palloc pages => exact h.palloc hs fits
  | getstate => exact h.getstate hs fits
  | setstate v => exact (h.setstate d hs).2

/-- An arena in kernel address space that does not start at the very beginning or end of memory keeps its discipline
    throughout exactly the runs in which every block ends at or below the top and no state is saved when the arena is
    full. -/
theorem disciplined_always_iff (kas_next size : BitVec 32) (h : 0 < kas_next.toNat ∧ kas_next.toNat + 3 < 2 ^ 32)
    (events : List Event) :
    Always Arenas.step Disciplined (start kas_next size) events ↔ Meets Arenas.step Within (start kas_next size) events :=
  always_iff_meets (I := Inv) (fun _ _ _ hi hp hs => hi.step_iff hp hs) (fun _ _ _ hi hp hs hc => hi.step hp hs hc)
    (inv_start h size) (disciplined_start kas_next size)

/-- A header and a page for the blocks of a file, as `tarfs` takes them. -/
theorem disciplined_header_page :
    Always Arenas.step Disciplined (start 0xd0000000 0x400000) [.alloc 512, .getstate, .palloc 1, .setstate 0xd0000200] :=
  (disciplined_always_iff 0xd0000000 0x400000 (by decide) _).mpr (by decide)

/-- The state of a full arena cannot be restored, and what is handed out next is the start of the next arena. -/
theorem full_arena_not_disciplined :
    ¬Always Arenas.step Disciplined (start 0xd0000000 0x400000) [.alloc 0x400000, .getstate] ∧
      ¬Always Arenas.step Disciplined (start 0xd0000000 0x400000) [.alloc 0x400000, .alloc 4] ∧
      (arenaAlloc (arenaAlloc (start 0xd0000000 0x400000).arena 0x400000).2 4).1 =
        (arenaCreate (arenaCreate 0xd0000000 0x400000).2 0x400000).1.base := by
  refine ⟨?_, ?_, by decide⟩
  · intro always
    have full := (always.2 _ rfl).2 _ rfl
    have restores := full.restores 0xd0400000 (by decide) (by decide)
    exact absurd restores (by decide)
  · intro always
    have kept := (always.2 _ rfl).2 _ rfl
    have inside := (kept.inside ⟨0xd0400000, 4, 4⟩ (by decide)).2
    exact absurd inside (by decide)

end Twcos.Arenas
