import Twcos.Run.Basic
import Twcos.Context.Thread

/-!
# Switching

What `arch_thread_switch` writes, and what the thread it switches to goes on with.
-/

namespace Twcos.Context
open Twcos.Machine

/-! ### Pages -/

section Pages
variable {p x : BitVec 32}

/-- Rounding down to the page. -/
lemma base_toNat (x : BitVec 32) : (base x).toNat = x.toNat / 4096 * 4096 := Word.toNat_and_not x 12

/-- All addresses of a page have it for their base. -/
lemma base_inside (aligned : base p = p) (inside : Inside p ARCH_PAGE_SIZE x) : base x = p := by
  have e := base_toNat p
  rw [aligned] at e
  rw [Inside, BitVec.toNat_sub, ARCH_PAGE_SIZE] at inside
  apply BitVec.eq_of_toNat_eq
  rw [base_toNat]
  omega

/-- The current thread is the first word of the page of the stack. -/
lemma archGetThread_eq {s : Cpu} (aligned : base p = p) (inside : Inside p ARCH_PAGE_SIZE s.esp) :
    archGetThread s = load s.mem p := by
  rw [archGetThread, base_inside aligned inside]

/-- The fields of a thread. -/
lemma inside_stackAt (h : Inside (stackAt p) 4 x) : Inside p sizeofThread x :=
  Inside.of_add (i := 128) h (by decide) (by decide)

/-- The saved registers are part of the thread. -/
lemma inside_jmpBufAt (h : Inside (jmpBufAt p) 24 x) : Inside p sizeofThread x :=
  Inside.of_add (i := 132) h (by decide) (by decide)

/-- The state is part of the thread. -/
lemma inside_stateAt (h : Inside (stateAt p) 4 x) : Inside p sizeofThread x :=
  Inside.of_add (i := 160) h (by decide) (by decide)

/-- The stack does not overlap the state. -/
lemma stackAt_stateAt (p : BitVec 32) : Apart (stackAt p) 4 (stateAt p) 4 :=
  apart_add (i := 128) (j := 160) (by decide) (by decide) (by decide)

/-- The saved registers do not overlap the state. -/
lemma jmpBufAt_stateAt (p : BitVec 32) : Apart (jmpBufAt p) 24 (stateAt p) 4 :=
  apart_add (i := 132) (j := 160) (by decide) (by decide) (by decide)

/-- The stack does not overlap the saved registers. -/
lemma stackAt_jmpBufAt (p : BitVec 32) : Apart (stackAt p) 4 (jmpBufAt p) 24 :=
  apart_add (i := 128) (j := 132) (by decide) (by decide) (by decide)

/-- The local storage does not overlap the stack. -/
lemma tls_stackAt (p : BitVec 32) : Apart p (4 * TLS_MAX) (stackAt p) 4 := by
  have apart := apart_add (a := p) (i := 0) (n := 4 * TLS_MAX) (j := 128) (k := 4) (by decide) (by decide) (by decide)
  rwa [BitVec.add_zero] at apart

/-- The local storage does not overlap the saved registers. -/
lemma tls_jmpBufAt (p : BitVec 32) : Apart p (4 * TLS_MAX) (jmpBufAt p) 24 := by
  have apart := apart_add (a := p) (i := 0) (n := 4 * TLS_MAX) (j := 132) (k := 24) (by decide) (by decide) (by decide)
  rwa [BitVec.add_zero] at apart

/-- The local storage does not overlap the state. -/
lemma tls_stateAt (p : BitVec 32) : Apart p (4 * TLS_MAX) (stateAt p) 4 := by
  have apart := apart_add (a := p) (i := 0) (n := 4 * TLS_MAX) (j := 160) (k := 4) (by decide) (by decide) (by decide)
  rwa [BitVec.add_zero] at apart

/-- A word of the local storage is inside it. -/
lemma inside_tlsAt {i : Nat} (lt : i < TLS_MAX) (h : Inside (tlsAt p i) 4 x) : Inside p (4 * TLS_MAX) x := by
  rw [TLS_MAX] at lt ⊢
  exact Inside.of_add (i := 4 * i) h (by omega) (by decide)

/-- What lies below `esp` on a stack. -/
lemma inside_below {esp : BitVec 32} {k n : Nat} (inside : Inside p ARCH_PAGE_SIZE esp) (le : n ≤ k ∧ k ≤ (esp - p).toNat)
    (h : Inside (esp - BitVec.ofNat 32 k) n x) : Inside p ARCH_PAGE_SIZE x := by
  rw [sub_eq_add le.2] at h
  rw [Inside] at inside
  exact h.of_add (by omega) (by decide)

/-- What lies from `esp` on. -/
lemma inside_above {esp : BitVec 32} {n : Nat} (le : (esp - p).toNat + n ≤ ARCH_PAGE_SIZE) (h : Inside esp n x) :
    Inside p ARCH_PAGE_SIZE x := by
  have place := sub_eq_add (a := p) (x := esp) (Nat.zero_le _)
  rw [BitVec.sub_zero] at place
  rw [place] at h
  exact h.of_add (by omega) (by decide)

end Pages

/-! ### A switch -/

/-- The bytes that a switch from `c` to `t` writes. -/
def Touches (tss1 : BitVec 32) (c t : Thread) (esp esp' x : BitVec 32) : Prop :=
  Inside (stateAt c.addr) 4 x ∨ Inside (jmpBufAt c.addr) 24 x ∨ Inside (esp - 16) 16 x ∨
    Inside (stateAt t.addr) 4 x ∨ Inside tss1 4 x ∨ Inside esp' 4 x

/-- The `state` of a thread after a switch. -/
def stateAfter (old new state : BitVec 32) : BitVec 32 := if state = old then new else state

/-- What `arch_thread_switch` does to the memory. -/
structure Switched (tss1 back : BitVec 32) (c t : Thread) (f : Frozen) (s : Cpu) (m : Memory) : Prop where
  changes : Changes (Touches tss1 c t s.esp f.jmpBuf.esp) s.mem m
  jmpBuf : Words m (jmpBufAt c.addr) (frozenOf back c s).jmpBuf.words
  esp0 : load m tss1 = t.page + BitVec.ofNat 32 ARCH_PAGE_SIZE
  left : load m (stateAt c.addr) = stateAfter THREAD_RUNNING THREAD_RUNNABLE (load s.mem (stateAt c.addr))
  entered : load m (stateAt t.addr) = stateAfter THREAD_RUNNABLE THREAD_RUNNING (load s.mem (stateAt t.addr))

section Switch
variable {tss1 back : BitVec 32} {c t : Thread} {f : Frozen} {s : Cpu} {m : Memory}

/-- The lines that change a `state`. -/
lemma setState (m : Memory) (a old new : BitVec 32) :
    Changes (Inside a 4) m (if load m a = old then store m a new else m) ∧
      load (if load m a = old then store m a new else m) a = stateAfter old new (load m a) := by
  rw [stateAfter]
  split
  · exact ⟨changes_store m a new, load_store⟩
  · exact ⟨Changes.refl _ m, rfl⟩

/-- The thread goes on as it was left. -/
lemma archThreadSwitch_run (valid : c.Valid tss1) (valid' : t.Valid tss1) (separate : Separate c t) (ne : c.addr ≠ t.addr)
    (get : load s.mem c.page = c.addr) (inside : Inside c.page ARCH_PAGE_SIZE s.esp) (room : 20 ≤ (s.esp - c.page).toNat)
    (stack : load s.mem (stackAt t.addr) = t.page) (h : Holds s.mem t f) : ∃ m,
    archThreadSwitch tss1 back t.addr s = some { s with
      reg := registers f.jmpBuf.edi f.jmpBuf.esi f.jmpBuf.ebp (f.jmpBuf.esp + 4) f.jmpBuf.ebx (s.reg .edx) f.jmpBuf.eip 1
      eip := f.jmpBuf.eip
      mem := m } ∧ Switched tss1 back c t f s m := by
  have current := archGetThread_eq valid.aligned inside
  rw [get] at current
  have low : ∀ x, Inside (s.esp - 8) 8 x → Inside c.page ARCH_PAGE_SIZE x := fun x =>
    inside_below (k := 8) inside ⟨Nat.le_refl 8, by omega⟩
  have lower : ∀ x, Inside (s.esp - 16) 16 x → Inside c.page ARCH_PAGE_SIZE x := fun x =>
    inside_below (k := 16) inside ⟨Nat.le_refl 16, by omega⟩
  have argument : ∀ x, Inside f.jmpBuf.esp 4 x → Inside t.page ARCH_PAGE_SIZE x := fun x =>
    inside_above (by have := h.room; omega)
  -- up to the return of `setjmp`
  obtain ⟨changes1, value1⟩ := setState s.mem (stateAt c.addr) THREAD_RUNNING THREAD_RUNNABLE
  generalize write1 : (if load s.mem (stateAt c.addr) = THREAD_RUNNING then store s.mem (stateAt c.addr) THREAD_RUNNABLE
    else s.mem) = m1 at *
  have apart : Apart (s.esp - 8) 8 (jmpBufAt c.addr) 24 := apart_of (by decide) fun x mem mem' =>
    valid.own.not_inside (inside_jmpBufAt mem') (low x mem)
  obtain ⟨m2, run2, saved, changes2⟩ := setjmp_call noCallee { s with mem := m1 } (jmpBufAt c.addr) back apart
  -- nothing of the other thread was written
  have first : Changes c.Has s.mem m2 := (changes1.mono fun x mem => .inl (inside_stateAt mem)).trans
    (changes2.mono fun x mem => mem.elim (fun mem => .inr (low x mem)) fun mem => .inl (inside_jmpBufAt mem))
  have out : ∀ x, Inside t.addr sizeofThread x → ¬c.Has x := fun x mem mem' =>
    mem'.elim (fun mem' => separate.structs.not_inside mem' mem) fun mem' => separate.right.not_inside mem' mem
  -- up to the call of `longjmp`
  obtain ⟨changes3, value3⟩ := setState m2 (stateAt t.addr) THREAD_RUNNABLE THREAD_RUNNING
  generalize write3 : (if load m2 (stateAt t.addr) = THREAD_RUNNABLE then store m2 (stateAt t.addr) THREAD_RUNNING
    else m2) = m3 at *
  have stack3 : load m3 (stackAt t.addr) = t.page := by
    rw [changes3.load fun x mem => (stackAt_stateAt _).not_inside mem,
      first.load fun x mem => out x (inside_stackAt mem), stack]
  have changes4 := changes_store m3 tss1 (t.page + BitVec.ofNat 32 ARCH_PAGE_SIZE)
  have value4 : load (store m3 tss1 (t.page + BitVec.ofNat 32 ARCH_PAGE_SIZE)) tss1 =
    t.page + BitVec.ofNat 32 ARCH_PAGE_SIZE := load_store
  generalize write4 : store m3 tss1 (t.page + BitVec.ofNat 32 ARCH_PAGE_SIZE) = m4 at *
  have frozen4 : Words m4 (jmpBufAt t.addr) f.jmpBuf.words := by
    refine (changes4.words fun x mem => valid'.struct_tss.not_inside (inside_jmpBufAt mem)).mpr ?_
    refine (changes3.words fun x mem => (jmpBufAt_stateAt _).not_inside mem).mpr ?_
    exact (first.words fun x mem => out x (inside_jmpBufAt mem)).mpr h.jmpBuf
  -- the call of `longjmp`
  have esp4 : s.esp - 4 - 12 = s.esp - 16 := by bv_omega
  let s4 : Cpu := { s with
    reg := registers (s.reg .edi) (s.reg .esi) (s.reg .ebp) (s.esp - 4) (s.reg .ebx) (s.reg .edx) back 0
    eip := back
    mem := m4 }
  have esp4' : s4.esp - 12 = s.esp - 16 := esp4
  have lowest : ∀ x, Inside (s4.esp - 12) 12 x → Inside (s.esp - 16) 16 x := fun x mem => by
    rw [esp4'] at mem
    exact mem.mono (by decide)
  obtain ⟨m5, run5, changes5⟩ := longjmp_call noCallee s4 (jmpBufAt t.addr) frozen4
    (apart_of (by decide) fun x mem mem' => separate.right.not_inside (lower x (lowest x mem)) (inside_jmpBufAt mem'))
  have final : Changes (fun x => Inside (s.esp - 16) 16 x ∨ Inside f.jmpBuf.esp 4 x) m4 m5 :=
    changes5.mono fun x mem => mem.imp_left (lowest x)
  have kept : ∀ {a : BitVec 32}, (∀ x, Inside a 4 x → ¬Inside c.page ARCH_PAGE_SIZE x ∧ ¬Inside t.page ARCH_PAGE_SIZE x) →
      load m5 a = load m4 a := fun out => final.load fun x mem mem' =>
    mem'.elim (fun mem' => (out x mem).1 (lower x mem')) fun mem' => (out x mem).2 (argument x mem')
  refine ⟨m5, ?_, ?_, ?_, ?_, ?_, ?_⟩
  · have returned : registers (s.reg .edi) (s.reg .esi) (s.reg .ebp) (s.esp - 4) (s.reg .ebx) (s.reg .edx) back 0 .eax =
      0 := rfl
    simp only [archThreadSwitch, current, if_neg ne, write1]
    rw [run2, Option.bind_some]
    refine (if_pos returned).trans ?_
    rw [write3, stack3, write4]
    exact run5
  · have word : s.esp - 8 = s.esp - 16 + BitVec.ofNat 32 8 := by bv_omega
    have arguments : ∀ x, Inside (s.esp - 8) 8 x → Inside (s.esp - 16) 16 x := fun x mem => by
      rw [word] at mem
      exact mem.of_add (by decide) (by decide)
    refine (changes1.mono fun x mem => .inl mem).trans ?_
    refine (changes2.mono fun x mem => mem.elim (fun mem => .inr (.inr (.inl (arguments x mem)))) fun mem =>
      .inr (.inl mem)).trans ?_
    refine (changes3.mono fun x mem => .inr (.inr (.inr (.inl mem)))).trans ?_
    refine (changes4.mono fun x mem => .inr (.inr (.inr (.inr (.inl mem))))).trans ?_
    exact final.mono fun x mem => mem.elim (fun mem => .inr (.inr (.inl mem))) fun mem =>
      .inr (.inr (.inr (.inr (.inr mem))))
  · refine (final.words fun x mem mem' => ?_).mpr ?_
    · exact mem'.elim (fun mem' => valid.own.not_inside (inside_jmpBufAt mem) (lower x mem')) fun mem' =>
        separate.left.not_inside (inside_jmpBufAt mem) (argument x mem')
    refine (changes4.words fun x mem => valid.struct_tss.not_inside (inside_jmpBufAt mem)).mpr ?_
    exact (changes3.words fun x mem mem' => separate.structs.not_inside (inside_jmpBufAt mem)
      (inside_stateAt mem')).mpr saved
  · rw [kept fun x mem => ⟨fun mem' => valid.page_tss.not_inside mem' mem,
    fun mem' => valid'.page_tss.not_inside mem' mem⟩,
      value4]
  · rw [kept fun x mem => ⟨valid.own.not_inside (inside_stateAt mem), separate.left.not_inside (inside_stateAt mem)⟩,
      changes4.load fun x mem => valid.struct_tss.not_inside (inside_stateAt mem),
      changes3.load fun x mem mem' => separate.structs.not_inside (inside_stateAt mem) (inside_stateAt mem'),
      changes2.load fun x mem mem' => mem'.elim (fun mem' => valid.own.not_inside (inside_stateAt mem) (low x mem'))
        fun mem' => (jmpBufAt_stateAt _).not_inside mem' mem, value1]
  · rw [kept fun x mem => ⟨fun mem' => separate.right.not_inside mem' (inside_stateAt mem),
        valid'.own.not_inside (inside_stateAt mem)⟩,
      changes4.load fun x mem => valid'.struct_tss.not_inside (inside_stateAt mem), value3,
      first.load fun x mem => out x (inside_stateAt mem)]

end Switch

end Twcos.Context
