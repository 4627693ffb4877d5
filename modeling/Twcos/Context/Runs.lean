import Mathlib.Data.List.Pairwise
import Twcos.Context.Fork

/-!
# Threads over whole runs

Whatever threads do, make and switch to: each one goes on as it was left.
-/

namespace Twcos.Context
open Twcos.Machine Twcos.Run

/-- The invariant of runs. -/
structure Inv (tss1 : BitVec 32) (s : System) : Prop where
  valid : ∀ t ∈ s.threads, t.Valid tss1
  separate : s.threads.Pairwise Separate
  current : s.current ∈ s.threads
  stack : ∀ t ∈ s.threads, load s.cpu.mem (stackAt t.addr) = t.page
  thread : ∀ t ∈ s.threads, load s.cpu.mem t.page = t.addr
  inside : Inside s.current.page ARCH_PAGE_SIZE s.cpu.esp
  holds : ∀ t ∈ s.threads, t.addr ≠ s.current.addr → Holds s.cpu.mem t (s.frozen t.addr)

/-- A thread goes on as it was left: behind its call of `setjmp`, which returns 1, with its registers, stack and TLS. -/
structure Resumed (tss1 : BitVec 32) (t : Thread) (f : Frozen) (before after : Cpu) : Prop where
  eip : after.eip = f.jmpBuf.eip
  eax : after.reg .eax = 1
  esp : after.esp = f.jmpBuf.esp + 4
  regs : after.reg .ebp = f.jmpBuf.ebp ∧ after.reg .ebx = f.jmpBuf.ebx ∧ after.reg .esi = f.jmpBuf.esi ∧
    after.reg .edi = f.jmpBuf.edi
  stack : ∀ i < ARCH_PAGE_SIZE / 4, (f.jmpBuf.esp - t.page).toNat + 8 ≤ 4 * i →
    load after.mem (t.page + BitVec.ofNat 32 (4 * i)) = f.stack i
  tls : ∀ i < TLS_MAX, load after.mem (tlsAt t.addr i) = f.tls i
  thread : archGetThread after = t.addr
  state : load after.mem (stateAt t.addr) = stateAfter THREAD_RUNNABLE THREAD_RUNNING (load before.mem (stateAt t.addr))
  esp0 : load after.mem tss1 = t.page + BitVec.ofNat 32 ARCH_PAGE_SIZE

section Steps
variable {tss1 back : BitVec 32} {s s' : System} {c t u : Thread} {f : Frozen} {m m' : Memory} {cpu : Cpu}

/-- Threads are separate both ways. -/
lemma Separate.symm (h : Separate t u) : Separate u t := ⟨h.structs.symm, h.pages.symm, h.right.symm, h.left.symm⟩

/-- A byte of one thread is not one of the other. -/
lemma Separate.not_has (h : Separate t u) {x : BitVec 32} (mem : t.Has x) : ¬u.Has x := fun mem' =>
  mem.elim (fun mem => mem'.elim (h.structs.not_inside mem) (h.left.not_inside mem))
    fun mem => mem'.elim (h.right.not_inside mem) (h.pages.not_inside mem)

/-- Separate threads have different addresses. -/
lemma Separate.ne (h : Separate t u) : t.addr ≠ u.addr := fun e => by
  have apart := h.structs.1
  rw [e, BitVec.sub_self] at apart
  exact absurd apart (by decide)

/-- Threads are known by their addresses. -/
lemma Inv.eq_or_separate (h : Inv tss1 s) (ht : t ∈ s.threads) (hu : u ∈ s.threads) : t = u ∨ Separate t u := by
  have : Std.Symm Separate := ⟨fun _ _ => Separate.symm⟩
  by_cases e : t = u
  · exact .inl e
  · exact .inr (h.separate.forall ht hu e)

/-- Threads with different addresses are separate. -/
lemma Inv.separate_of_ne (h : Inv tss1 s) (ht : t ∈ s.threads) (hu : u ∈ s.threads) (ne : t.addr ≠ u.addr) :
    Separate t u := (h.eq_or_separate ht hu).resolve_left fun e => ne (congrArg Thread.addr e)

/-- The stack pointer that is saved belongs to the thread. -/
lemma has_stackAt {x : BitVec 32} (h : Inside (stackAt t.addr) 4 x) : t.Has x := .inl (inside_stackAt h)

/-- The first word of its page belongs to the thread. -/
lemma has_page {x : BitVec 32} (h : Inside t.page 4 x) : t.Has x := .inr (h.mono (by decide))

/-- What belongs to a thread stays if nobody writes there. -/
lemma Holds.of_same (h : Holds m t f) (jmpBuf : ∀ x, Inside (jmpBufAt t.addr) 24 x → m' x = m x)
    (stack : ∀ x, ∀ i < ARCH_PAGE_SIZE / 4, (f.jmpBuf.esp - t.page).toNat + 8 ≤ 4 * i →
      Inside (t.page + BitVec.ofNat 32 (4 * i)) 4 x → m' x = m x)
    (tls : ∀ x, Inside t.addr (4 * TLS_MAX) x → m' x = m x) : Holds m' t f := by
  have self : ∀ (a : BitVec 32) (n k : Nat), k < n → Inside a n (a + BitVec.ofNat 32 k) := fun a n k lt => by
    rw [Inside, add_sub_self]
    exact Nat.lt_of_le_of_lt (Nat.mod_le k (2 ^ 32)) lt
  have saved : Words m' (jmpBufAt t.addr) f.jmpBuf.words ↔ Words m (jmpBufAt t.addr) f.jmpBuf.words :=
    words_congr fun k lt => jmpBuf _ (self _ 24 k lt)
  refine ⟨saved.mpr h.jmpBuf, h.room, fun i lt le => ?_, fun i lt => ?_⟩
  · rw [load_congr fun k less => stack _ i lt le (self _ 4 k less), h.stack i lt le]
  · rw [load_congr fun k less => tls _ (inside_tlsAt lt (self _ 4 k less)), h.tls i lt]

/-- The words of a page are inside it. -/
lemma inside_word {p x : BitVec 32} {i : Nat} (lt : i < ARCH_PAGE_SIZE / 4)
    (h : Inside (p + BitVec.ofNat 32 (4 * i)) 4 x) : Inside p ARCH_PAGE_SIZE x := by
  rw [ARCH_PAGE_SIZE] at lt ⊢
  exact h.of_add (by omega) (by decide)

/-- What is saved of a thread holds as long as its bytes are the same. -/
lemma Holds.of_has (h : Holds m t f) (same : ∀ x, t.Has x → m' x = m x) : Holds m' t f :=
  h.of_same (fun x mem => same x (.inl (inside_jmpBufAt mem))) (fun x i lt _ mem => same x (.inr (inside_word lt mem)))
    fun x mem => same x (.inl (mem.mono (by decide)))

/-- The same memory, for what is known about it otherwise. -/
lemma Holds.of_eq {f' : Frozen} (h : Holds m t f) (e : f' = f) : Holds m t f' := e ▸ h

/-- The words that lead from a thread to its stack and back stay. -/
lemma Inv.links (h : Inv tss1 s) {R : BitVec 32 → Prop} (changes : Changes R s.cpu.mem m)
    (out : ∀ u ∈ s.threads, ∀ x, R x → ¬Inside (stackAt u.addr) 4 x ∧ ¬Inside u.page 4 x) :
    (∀ u ∈ s.threads, load m (stackAt u.addr) = u.page) ∧ ∀ u ∈ s.threads, load m u.page = u.addr := by
  refine ⟨fun u mem => ?_, fun u mem => ?_⟩
  · rw [changes.load fun x mem' r => (out u mem x r).1 mem', h.stack u mem]
  · rw [changes.load fun x mem' r => (out u mem x r).2 mem', h.thread u mem]

/-- The code of the running thread. -/
lemma Inv.work (h : Inv tss1 s) {writes : List (BitVec 32 × BitVec 8)} {reg : Reg → BitVec 32} {eip eflags : BitVec 32}
    (run : step tss1 s (.work writes reg eip eflags) = some s') : Inv tss1 s' := by
  obtain ⟨guard, ⟨⟩⟩ := Option.ite_none_right_eq_some.mp run
  rw [Bool.and_eq_true] at guard
  obtain ⟨allowed, inside⟩ := guard
  have written : ∀ (ws : List (BitVec 32 × BitVec 8)) (m : Memory), ws.all (fun w => s.allows w.1) = true →
      Changes (fun x => s.allows x = true) m (ws.foldl (fun m w => Function.update m w.1 w.2) m) := by
    intro ws
    induction ws with
    | nil => exact fun m _ => Changes.refl _ m
    | cons w ws ih =>
      intro m all
      rw [List.all_cons, Bool.and_eq_true] at all
      have first : Changes (fun x => s.allows x = true) m (Function.update m w.1 w.2) := fun x out =>
        Function.update_of_ne (fun e => out (by rw [e]; exact all.1)) ..
      exact first.trans (ih _ all.2)
  have changes := written writes s.cpu.mem allowed
  have out := fun t mem x (all : s.allows x = true) => of_decide_eq_true (List.all_eq_true.mp all t mem)
  obtain ⟨stack, thread⟩ := h.links changes fun u mem x all => ⟨(out u mem x all).1, (out u mem x all).2.1⟩
  refine ⟨h.valid, h.separate, h.current, stack, thread, of_decide_eq_true inside, fun u mem ne => ?_⟩
  have mine := fun x all => ((out u mem x all).2.2).resolve_left ne
  refine (h.holds u mem ne).of_same (fun x mem' => changes x fun all => (mine x all).1 ?_)
    (fun x i lt _ mem' => changes x fun all => (mine x all).2 (inside_word lt mem'))
    fun x mem' => changes x fun all => (mine x all).1 (mem'.mono (by decide))
  exact Inside.of_add (i := 132) mem' (by decide) (by decide)

/-- What a switch writes belongs to one of its two threads, or is `esp0`; the words that lead to stacks and back stay. -/
lemma touches_cases (valid : c.Valid tss1) (valid' : t.Valid tss1) {esp esp' x : BitVec 32}
    (inside : Inside c.page ARCH_PAGE_SIZE esp) (room : 20 ≤ (esp - c.page).toNat)
    (room' : 12 ≤ (esp' - t.page).toNat ∧ (esp' - t.page).toNat + 8 < ARCH_PAGE_SIZE) (h : Touches tss1 c t esp esp' x) :
    c.Has x ∧ ¬Inside (stackAt c.addr) 4 x ∧ ¬Inside c.page 4 x ∨
      t.Has x ∧ ¬Inside (stackAt t.addr) 4 x ∧ ¬Inside t.page 4 x ∨ Inside tss1 4 x := by
  have word : ∀ {p : BitVec 32}, Inside p 4 x → Inside p ARCH_PAGE_SIZE x := fun mem => mem.mono (by decide)
  rcases h with state | buf | args | state | tss | ret
  · exact .inl ⟨.inl (inside_stateAt state), fun mem => (stackAt_stateAt _).not_inside mem state,
      fun mem => valid.own.not_inside (inside_stateAt state) (word mem)⟩
  · exact .inl ⟨.inl (inside_jmpBufAt buf), fun mem => (stackAt_jmpBufAt _).not_inside mem buf,
      fun mem => valid.own.not_inside (inside_jmpBufAt buf) (word mem)⟩
  · have mem := inside_below (k := 16) inside ⟨Nat.le_refl 16, by omega⟩ args
    refine .inl ⟨.inr mem, fun mem' => valid.own.not_inside (inside_stackAt mem') mem, fun first => ?_⟩
    rw [Inside] at args inside first
    rw [ARCH_PAGE_SIZE] at inside
    bv_omega
  · exact .inr (.inl ⟨.inl (inside_stateAt state), fun mem => (stackAt_stateAt _).not_inside mem state,
      fun mem => valid'.own.not_inside (inside_stateAt state) (word mem)⟩)
  · exact .inr (.inr tss)
  · rw [ARCH_PAGE_SIZE] at room'
    have mem : Inside t.page ARCH_PAGE_SIZE x := inside_above (by rw [ARCH_PAGE_SIZE]; omega) ret
    refine .inr (.inl ⟨.inr mem, fun mem' => valid'.own.not_inside (inside_stackAt mem') mem, fun first => ?_⟩)
    rw [Inside] at ret first
    bv_omega

/-- The thread that called `arch_thread_switch` leaves everything as `setjmp` found it. -/
lemma Switched.leaves (h : Switched tss1 back c t f cpu m) (valid : c.Valid tss1) (separate : Separate c t)
    (inside : Inside c.page ARCH_PAGE_SIZE cpu.esp) (room : 20 ≤ (cpu.esp - c.page).toNat)
    (room' : 12 ≤ (f.jmpBuf.esp - t.page).toNat ∧ (f.jmpBuf.esp - t.page).toNat + 8 < ARCH_PAGE_SIZE) :
    Holds m c (frozenOf back c cpu) := by
  have place : ((frozenOf back c cpu).jmpBuf.esp - c.page).toNat = (cpu.esp - c.page).toNat - 8 := by
    rw [show (frozenOf back c cpu).jmpBuf.esp = cpu.esp - 8 from rfl]
    bv_omega
  refine ⟨h.jmpBuf, ?_, fun i lt le => ?_, fun i lt => ?_⟩
  · rw [place, ARCH_PAGE_SIZE]
    rw [Inside, ARCH_PAGE_SIZE] at inside
    omega
  · refine h.changes.load fun x mem touched => ?_
    have own := inside_word lt mem
    rcases touched with state | buf | args | state | tss | ret
    · exact valid.own.not_inside (inside_stateAt state) own
    · exact valid.own.not_inside (inside_jmpBufAt buf) own
    · rw [place] at le
      rw [Inside] at mem args inside
      rw [ARCH_PAGE_SIZE] at inside lt
      bv_omega
    · exact separate.right.not_inside own (inside_stateAt state)
    · exact valid.page_tss.not_inside own tss
    · exact separate.pages.not_inside own (inside_above (by omega) ret)
  · refine h.changes.load fun x mem touched => ?_
    have own := inside_tlsAt lt mem
    have mem := own.mono (k := sizeofThread) (by decide)
    rcases touched with state | buf | args | state | tss | ret
    · exact (tls_stateAt _).not_inside own state
    · exact (tls_jmpBufAt _).not_inside own buf
    · exact valid.own.not_inside mem (inside_below (k := 16) inside ⟨Nat.le_refl 16, by omega⟩ args)
    · exact separate.structs.not_inside mem (inside_stateAt state)
    · exact valid.struct_tss.not_inside mem tss
    · exact separate.left.not_inside mem (inside_above (by omega) ret)

/-- The thread that is switched to finds everything as it left it. -/
lemma Switched.enters (h : Switched tss1 back c t f cpu m) (valid' : t.Valid tss1) (separate : Separate c t)
    (inside : Inside c.page ARCH_PAGE_SIZE cpu.esp) (room : 20 ≤ (cpu.esp - c.page).toNat) (holds : Holds cpu.mem t f) :
    Holds m t f := by
  have room' := holds.room
  -- what a switch writes of this thread
  have written : ∀ x, t.Has x → Touches tss1 c t cpu.esp f.jmpBuf.esp x →
      Inside (stateAt t.addr) 4 x ∨ Inside f.jmpBuf.esp 4 x := by
    intro x mem touched
    rcases touched with state | buf | args | state | tss | ret
    · exact absurd mem (separate.not_has (.inl (inside_stateAt state)))
    · exact absurd mem (separate.not_has (.inl (inside_jmpBufAt buf)))
    · exact absurd mem (separate.not_has (.inr (inside_below (k := 16) inside ⟨Nat.le_refl 16, by omega⟩ args)))
    · exact .inl state
    · exact absurd tss (mem.elim valid'.struct_tss.not_inside valid'.page_tss.not_inside)
    · exact .inr ret
  have ret : ∀ x, Inside f.jmpBuf.esp 4 x → Inside t.page ARCH_PAGE_SIZE x := fun x => inside_above (by omega)
  refine holds.of_same (fun x mem => h.changes x fun touched => ?_) (fun x i lt le mem => h.changes x fun touched => ?_)
    fun x mem => h.changes x fun touched => ?_
  · exact (written x (.inl (inside_jmpBufAt mem)) touched).elim ((jmpBufAt_stateAt _).not_inside mem) fun mem' =>
      valid'.own.not_inside (inside_jmpBufAt mem) (ret x mem')
  · refine (written x (.inr (inside_word lt mem)) touched).elim (fun mem' => ?_) fun mem' => ?_
    · exact valid'.own.not_inside (inside_stateAt mem') (inside_word lt mem)
    · rw [Inside] at mem mem'
      rw [ARCH_PAGE_SIZE] at room' lt
      bv_omega
  · have own := mem.mono (k := sizeofThread) (by decide)
    exact (written x (.inl own) touched).elim ((tls_stateAt _).not_inside mem) fun mem' =>
      valid'.own.not_inside own (ret x mem')

/-- What the invariant says of a switch to another thread. -/
lemma Inv.switched (h : Inv tss1 s) (roomy : s.Roomy) (mem : t ∈ s.threads) (separate : Separate s.current t)
    (back : BitVec 32) : ∃ m, archThreadSwitch tss1 back t.addr s.cpu = some { s.cpu with
      reg := registers (s.frozen t.addr).jmpBuf.edi (s.frozen t.addr).jmpBuf.esi (s.frozen t.addr).jmpBuf.ebp
        ((s.frozen t.addr).jmpBuf.esp + 4) (s.frozen t.addr).jmpBuf.ebx (s.cpu.reg .edx) (s.frozen t.addr).jmpBuf.eip 1
      eip := (s.frozen t.addr).jmpBuf.eip
      mem := m } ∧ Switched tss1 back s.current t (s.frozen t.addr) s.cpu m :=
  archThreadSwitch_run (h.valid _ h.current) (h.valid t mem) separate separate.ne (h.thread _ h.current) h.inside roomy
    (h.stack t mem) (h.holds t mem separate.ne.symm)

/-- What a switch writes is none of a third thread's, and not where stacks lie and lead to. -/
lemma Inv.touches (h : Inv tss1 s) (roomy : s.Roomy) (mem : t ∈ s.threads) (separate : Separate s.current t)
    (mem' : u ∈ s.threads) {x : BitVec 32} (touched : Touches tss1 s.current t s.cpu.esp (s.frozen t.addr).jmpBuf.esp x) :
    (¬Inside (stackAt u.addr) 4 x ∧ ¬Inside u.page 4 x) ∧ (u.addr ≠ s.current.addr → u.addr ≠ t.addr → ¬u.Has x) := by
  have of_not : ¬u.Has x → (¬Inside (stackAt u.addr) 4 x ∧ ¬Inside u.page 4 x) ∧
      (u.addr ≠ s.current.addr → u.addr ≠ t.addr → ¬u.Has x) := fun none =>
    ⟨⟨fun mem => none (has_stackAt mem), fun mem => none (has_page mem)⟩, fun _ _ => none⟩
  have room := (h.holds t mem separate.ne.symm).room
  rcases touches_cases (h.valid _ h.current) (h.valid t mem) h.inside roomy room touched with
    ⟨has, out⟩ | ⟨has, out⟩ | tss
  · rcases h.eq_or_separate h.current mem' with rfl | apart
    · exact ⟨out, fun ne => absurd rfl ne⟩
    · exact of_not (apart.not_has has)
  · rcases h.eq_or_separate mem mem' with rfl | apart
    · exact ⟨out, fun _ ne => absurd rfl ne⟩
    · exact of_not (apart.not_has has)
  · have valid := h.valid u mem'
    exact of_not fun has => has.elim (fun has => valid.struct_tss.not_inside has tss) fun has =>
      valid.page_tss.not_inside has tss

/-- A switch. -/
lemma Inv.switch (h : Inv tss1 s) {i : Nat} (run : step tss1 s (.switch back i) = some s') : Inv tss1 s' := by
  obtain ⟨t, get, run⟩ := Option.bind_eq_some_iff.mp run
  obtain ⟨roomy, run⟩ := Option.ite_none_right_eq_some.mp run
  obtain ⟨cpu, run, ⟨⟩⟩ := Option.map_eq_some_iff.mp run
  have mem := List.mem_of_getElem? get
  rcases h.eq_or_separate h.current mem with rfl | separate
  · -- only the state of the thread is written
    have own := (archGetThread_eq (h.valid _ mem).aligned h.inside).trans (h.thread _ mem)
    rw [archThreadSwitch, own, if_pos rfl] at run
    obtain ⟨⟩ := run
    have changes := changes_store s.cpu.mem (stateAt s.current.addr) THREAD_RUNNING
    have out : ∀ u ∈ s.threads, ∀ x, Inside (stateAt s.current.addr) 4 x →
        ¬Inside (stackAt u.addr) 4 x ∧ ¬Inside u.page 4 x := by
      intro u mem' x state
      have has : s.current.Has x := .inl (inside_stateAt state)
      rcases h.eq_or_separate mem mem' with rfl | apart
      · exact ⟨fun stack => (stackAt_stateAt _).not_inside stack state, fun first =>
          (h.valid _ mem).own.not_inside (inside_stateAt state) (first.mono (by decide))⟩
      · exact ⟨fun stack => apart.not_has has (has_stackAt stack), fun first => apart.not_has has (has_page first)⟩
    obtain ⟨stack, thread⟩ := h.links changes out
    refine ⟨h.valid, h.separate, h.current, stack, thread, h.inside, fun u mem' ne => ?_⟩
    have apart := h.separate_of_ne mem' mem ne
    have kept := (h.holds u mem' ne).of_has fun x has => changes x fun state =>
      apart.not_has has (.inl (inside_stateAt state))
    exact kept.of_eq (Function.update_of_ne ne _ s.frozen)
  · obtain ⟨m, after, switched⟩ := h.switched roomy mem separate back
    rw [after] at run
    obtain ⟨⟩ := run
    have frozen := h.holds t mem separate.ne.symm
    obtain ⟨stack, thread⟩ := h.links switched.changes fun u mem' x touched =>
      (h.touches roomy mem separate mem' touched).1
    refine ⟨h.valid, h.separate, mem, stack, thread, ?_, fun u mem' ne => ?_⟩
    · have room := frozen.room
      change Inside t.page ARCH_PAGE_SIZE ((s.frozen t.addr).jmpBuf.esp + 4)
      rw [ARCH_PAGE_SIZE] at room
      rw [Inside, ARCH_PAGE_SIZE]
      bv_omega
    · rcases h.eq_or_separate h.current mem' with rfl | apart
      · have left := switched.leaves (h.valid _ h.current) separate h.inside roomy frozen.room
        exact left.of_eq (Function.update_self s.current.addr _ s.frozen)
      · have kept := (h.holds u mem' apart.ne.symm).of_has fun x has => switched.changes x fun touched =>
          (h.touches roomy mem separate mem' touched).2 apart.ne.symm ne has
        exact kept.of_eq (Function.update_of_ne apart.ne.symm _ s.frozen)

/-- A new thread. -/
lemma Inv.fork (h : Inv tss1 s) (run : step tss1 s (.fork back t) = some s') : Inv tss1 s' := by
  obtain ⟨⟨roomy, valid, all⟩, run⟩ := Option.ite_none_right_eq_some.mp run
  have apart : ∀ u ∈ s.threads, Separate t u := fun u mem => of_decide_eq_true (List.all_eq_true.mp all u mem)
  obtain ⟨cpu, run, ⟨⟩⟩ := Option.map_eq_some_iff.mp run
  have old := h.valid _ h.current
  obtain ⟨m, after, forked⟩ := archThreadFork_run back old valid (apart _ h.current).symm (h.thread _ h.current)
    h.inside roomy (h.stack _ h.current)
  rw [after] at run
  obtain ⟨⟩ := run
  have low : ∀ x, Inside (s.cpu.esp - 8) 8 x → Inside s.current.page ARCH_PAGE_SIZE x := fun x =>
    inside_below (k := 8) h.inside ⟨Nat.le_refl 8, Nat.le_trans (by decide) roomy⟩
  have out : ∀ u ∈ s.threads, ∀ x, t.Has x ∨ Inside (s.cpu.esp - 8) 8 x →
      (¬Inside (stackAt u.addr) 4 x ∧ ¬Inside u.page 4 x) ∧ (u.addr ≠ s.current.addr → ¬u.Has x) := by
    intro u mem x written
    have of_not : ¬u.Has x → (¬Inside (stackAt u.addr) 4 x ∧ ¬Inside u.page 4 x) ∧
        (u.addr ≠ s.current.addr → ¬u.Has x) := fun none =>
      ⟨⟨fun mem => none (has_stackAt mem), fun mem => none (has_page mem)⟩, fun _ => none⟩
    rcases written with has | args
    · exact of_not ((apart u mem).not_has has)
    · rcases h.eq_or_separate h.current mem with rfl | separate
      · refine ⟨⟨fun stack => old.own.not_inside (inside_stackAt stack) (low x args), fun first => ?_⟩, fun ne =>
          absurd rfl ne⟩
        have inside := h.inside
        rw [Inside, ARCH_PAGE_SIZE] at inside
        rw [System.Roomy] at roomy
        rw [Inside] at args first
        bv_omega
      · exact of_not (separate.not_has (.inr (low x args)))
  obtain ⟨stack, thread⟩ := h.links forked.changes fun u mem x written => (out u mem x written).1
  refine ⟨List.forall_mem_cons.mpr ⟨valid, h.valid⟩, List.pairwise_cons.mpr ⟨apart, h.separate⟩,
    List.mem_cons_of_mem t h.current, List.forall_mem_cons.mpr ⟨forked.stack, stack⟩,
    List.forall_mem_cons.mpr ⟨forked.thread, thread⟩, ?_, List.forall_mem_cons.mpr ⟨fun _ => ?_, fun u mem ne => ?_⟩⟩
  · have inside := h.inside
    change Inside s.current.page ARCH_PAGE_SIZE (s.cpu.esp - 4)
    rw [System.Roomy] at roomy
    rw [Inside, ARCH_PAGE_SIZE] at inside ⊢
    bv_omega
  · exact forked.holds.of_eq (Function.update_self t.addr _ s.frozen)
  · have kept := (h.holds u mem ne).of_has fun x has => forked.changes x fun written => (out u mem x written).2 ne has
    exact kept.of_eq (Function.update_of_ne (apart u mem).ne.symm _ s.frozen)

/-- A step keeps the invariant. -/
lemma Inv.step (h : Inv tss1 s) (e : Event) (run : step tss1 s e = some s') : Inv tss1 s' := by
  cases e with
  | work writes reg eip eflags => exact h.work run
  | switch back i => exact h.switch run
  | fork back t => exact h.fork run

/-- Whoever is switched to goes on as it was left. -/
lemma Inv.resumes (h : Inv tss1 s) (roomy : s.Roomy) (mem : t ∈ s.threads) (ne : t.addr ≠ s.current.addr)
    (back : BitVec 32) : ∃ after, archThreadSwitch tss1 back t.addr s.cpu = some after ∧
      Resumed tss1 t (s.frozen t.addr) s.cpu after := by
  have separate := h.separate_of_ne h.current mem ne.symm
  obtain ⟨m, after, switched⟩ := h.switched roomy mem separate back
  have frozen := h.holds t mem ne
  have same := switched.enters (h.valid t mem) separate h.inside roomy frozen
  have links := (h.links switched.changes fun u mem' x touched => (h.touches roomy mem separate mem' touched).1).2
  refine ⟨_, after, rfl, rfl, rfl, ⟨rfl, rfl, rfl, rfl⟩, same.stack, same.tls, ?_, switched.entered, switched.esp0⟩
  refine (archGetThread_eq (h.valid t mem).aligned ?_).trans (links t mem)
  have room := frozen.room
  change Inside t.page ARCH_PAGE_SIZE ((s.frozen t.addr).jmpBuf.esp + 4)
  rw [ARCH_PAGE_SIZE] at room
  rw [Inside, ARCH_PAGE_SIZE]
  bv_omega

end Steps

/-- From one thread on: whatever the threads write to what is theirs, and however they fork and switch, each one that is
switched to goes on as it was left, on its own stack. -/
theorem threads_resume (tss1 : BitVec 32) (s : System) (one : s.threads = [s.current]) (valid : s.current.Valid tss1)
    (stack : load s.cpu.mem (stackAt s.current.addr) = s.current.page)
    (thread : load s.cpu.mem s.current.page = s.current.addr) (inside : Inside s.current.page ARCH_PAGE_SIZE s.cpu.esp)
    (events : List Event) :
    Always (step tss1) (fun s => archGetThread s.cpu = s.current.addr ∧
      ∀ t ∈ s.threads, t.addr ≠ s.current.addr → s.Roomy → ∀ back, ∃ after,
        archThreadSwitch tss1 back t.addr s.cpu = some after ∧ Resumed tss1 t (s.frozen t.addr) s.cpu after) s events := by
  have only : ∀ t ∈ s.threads, t = s.current := fun t mem => List.mem_singleton.mp (one ▸ mem)
  have start : Inv tss1 s := by
    refine ⟨fun t mem => only t mem ▸ valid, one ▸ List.pairwise_singleton .., one ▸ List.mem_singleton_self _,
      fun t mem => only t mem ▸ stack, fun t mem => only t mem ▸ thread, inside, fun t mem ne => ?_⟩
    exact absurd (congrArg Thread.addr (only t mem)) ne
  have inv := always_of_step (fun s e s' (h : Inv tss1 s) run => h.step e run) start events
  refine inv.imp fun s h => ⟨?_, fun t mem ne roomy back => h.resumes roomy mem ne back⟩
  exact (archGetThread_eq (h.valid _ h.current).aligned h.inside).trans (h.thread _ h.current)

/-- A thread with its stack, and nothing else. -/
def oneThread : System where
  cpu := {
    reg := registers 0 0 0 0x20800 0 0 0 0
    eip := 0x1000
    eflags := 0x202
    cs := 8
    ds := 16
    mem := store (store (fun _ => 0) (stackAt 0x10000) 0x20000) 0x20000 0x10000 }
  threads := [⟨0x10000, 0x20000⟩]
  current := ⟨0x10000, 0x20000⟩
  frozen _ := ⟨⟨0, 0, 0, 0, 0, 0⟩, fun _ => 0, fun _ => 0⟩

/-- A fork and two switches. -/
theorem threads_resume_forked : Always (step 0x30000) (fun s => archGetThread s.cpu = s.current.addr ∧
      ∀ t ∈ s.threads, t.addr ≠ s.current.addr → s.Roomy → ∀ back, ∃ after,
        archThreadSwitch 0x30000 back t.addr s.cpu = some after ∧ Resumed 0x30000 t (s.frozen t.addr) s.cpu after)
    oneThread [.fork 0x1100 ⟨0x11000, 0x21000⟩, .switch 0x1200 0, .switch 0x1200 1] := by
  refine threads_resume 0x30000 oneThread rfl (by decide) ?_ load_store (by decide) _
  exact (load_store_far (by decide) (by decide)).trans load_store

end Twcos.Context
