import Twcos.Context.Switch

/-!
# Forking

What `arch_thread_fork` leaves to the new thread: everything the parent would leave behind at the same place, with the
pointers into its stack moved to the new one.
-/

namespace Twcos.Context
open Twcos.Machine

/-! ### Relocation -/

section Relocation
variable {spage dpage x : BitVec 32}

/-- The base has none of the bits of the offset. -/
lemma base_and_offset (p x : BitVec 32) : base p &&& offset x = 0 := by
  have zero : (0 : BitVec 32) = 0#32 := rfl
  rw [base, offset, zero]
  apply BitVec.eq_of_getLsbD_eq
  intro i hi
  rw [BitVec.getLsbD_and, BitVec.getLsbD_and, BitVec.getLsbD_and, BitVec.getLsbD_not, BitVec.getLsbD_zero]
  cases (BitVec.ofNat 32 (ARCH_PAGE_SIZE - 1)).getLsbD i <;> simp

/-- A page has no bits of an offset. -/
lemma or_offset (aligned : base dpage = dpage) (x : BitVec 32) : dpage ||| offset x = dpage + offset x := by
  have none := base_and_offset dpage x
  rw [aligned] at none
  exact (BitVec.add_eq_or_of_and_eq_zero _ _ none).symm

/-- An address is its base and its offset. -/
lemma base_add_offset (x : BitVec 32) : base x + offset x = x := by
  rw [BitVec.add_eq_or_of_and_eq_zero _ _ (base_and_offset x x), base, offset]
  apply BitVec.eq_of_getLsbD_eq
  intro i hi
  rw [BitVec.getLsbD_or, BitVec.getLsbD_and, BitVec.getLsbD_and, BitVec.getLsbD_not]
  cases (BitVec.ofNat 32 (ARCH_PAGE_SIZE - 1)).getLsbD i <;> simp [hi]

/-- A pointer keeps its place in the stack. -/
lemma relocate_sub (aligned : base dpage = dpage) (h : base x = spage) : relocate spage dpage x - dpage = x - spage := by
  have e := base_add_offset x
  rw [h] at e
  rw [relocate, if_pos h, or_offset aligned, BitVec.add_comm dpage, BitVec.add_sub_cancel]
  rw [← BitVec.add_sub_cancel (offset x) spage, BitVec.add_comm (offset x), e]

end Relocation

/-! ### Copies -/

/-- `memcpy`, between ranges that are apart. -/
lemma memcpy_copies (m : Memory) {dest src : BitVec 32} {n : Nat} (apart : Apart dest n src n) :
    Changes (Inside dest n) m (memcpy m dest src n) ∧
      ∀ i < n, memcpy m dest src n (dest + BitVec.ofNat 32 i) = m (src + BitVec.ofNat 32 i) := by
  have fits := Nat.le_trans apart.1 (Nat.le_of_lt (src - dest).isLt)
  have inside : ∀ (a : BitVec 32) (i : Nat), i < n → Inside a n (a + BitVec.ofNat 32 i) := fun a i lt => by
    rw [Inside, add_sub_self]
    omega
  have part : ∀ k, k ≤ n → Changes (Inside dest n) m (memcpy m dest src k) ∧
      ∀ i < k, memcpy m dest src k (dest + BitVec.ofNat 32 i) = m (src + BitVec.ofNat 32 i) := by
    intro k
    induction k with
    | zero => exact fun _ => ⟨Changes.refl _ m, fun i lt => absurd lt (Nat.not_lt_zero i)⟩
    | succ k ih =>
      intro le
      obtain ⟨changes, copied⟩ := ih (Nat.le_of_succ_le le)
      have turn : memcpy m dest src (k + 1) = Function.update (memcpy m dest src k) (dest + BitVec.ofNat 32 k)
          (memcpy m dest src k (src + BitVec.ofNat 32 k)) := by
        rw [memcpy, List.range_succ, List.foldl_append]
        rfl
      have source := changes _ fun mem => apart.not_inside mem (inside src k le)
      rw [turn, source]
      refine ⟨changes.trans fun x out => Function.update_of_ne (fun e => out ?_) .., fun i lt => ?_⟩
      · rw [e]
        exact inside dest k le
      rcases Nat.lt_succ_iff_lt_or_eq.mp lt with before | rfl
      · have ne : dest + BitVec.ofNat 32 i ≠ dest + BitVec.ofNat 32 k := fun e => by
          have e := congrArg BitVec.toNat (BitVec.add_right_inj dest |>.mp e)
          rw [BitVec.toNat_ofNat, BitVec.toNat_ofNat] at e
          omega
        rw [Function.update_of_ne ne, copied i before]
      · exact Function.update_self ..
  exact part n (Nat.le_refl n)

/-! ### A fork -/

/-- What `arch_thread_fork` leaves in memory. -/
structure Forked (back : BitVec 32) (c t : Thread) (s : Cpu) (m : Memory) : Prop where
  changes : Changes (fun x => t.Has x ∨ Inside (s.esp - 8) 8 x) s.mem m
  stack : load m (stackAt t.addr) = t.page
  thread : load m t.page = t.addr
  holds : Holds m t ((frozenOf back c s).relocate c.page t.page)

section Fork
variable {back : BitVec 32} {c t : Thread} {s : Cpu} {spage dpage a : BitVec 32}

/-- A turn of the copy writes one word. -/
lemma copyTurn_changes (m : Memory) (i : Nat) :
    Changes (Inside (dpage + BitVec.ofNat 32 (4 * i)) 4) m (copyTurn spage dpage m i) := by
  rw [copyTurn]
  split
  · exact changes_store _ _ _
  · exact changes_store _ _ _

/-- The word that it writes. -/
lemma copyTurn_load (aligned : base spage = spage) (m : Memory) (i : Nat) :
    load (copyTurn spage dpage m i) (dpage + BitVec.ofNat 32 (4 * i)) =
      relocate spage dpage (load m (spage + BitVec.ofNat 32 (4 * i))) := by
  rw [copyTurn, relocate, aligned]
  split
  · exact load_store
  · exact load_store

/-- A turn of the second loop writes one word. -/
lemma adjustTurn_changes (m : Memory) (i : Nat) :
    Changes (Inside (a + BitVec.ofNat 32 (4 * i)) 4) m (adjustTurn spage dpage a m i) := by
  rw [adjustTurn]
  split
  · exact changes_store _ _ _
  · exact Changes.refl _ m

/-- The word that it writes. -/
lemma adjustTurn_load (aligned : base spage = spage) (m : Memory) (i : Nat) :
    load (adjustTurn spage dpage a m i) (a + BitVec.ofNat 32 (4 * i)) =
      relocate spage dpage (load m (a + BitVec.ofNat 32 (4 * i))) := by
  rw [adjustTurn, relocate, aligned]
  split
  · exact load_store
  · rfl

/-- The words of a range after the loop that adjusts them. -/
lemma adjust_words (dpage a : BitVec 32) (aligned : base spage = spage) {n : Nat} (fits : 4 * n ≤ 2 ^ 32) (m : Memory) :
    Changes (Inside a (4 * n)) m ((List.range n).foldl (adjustTurn spage dpage a) m) ∧
      ∀ i < n, load ((List.range n).foldl (adjustTurn spage dpage a) m) (a + BitVec.ofNat 32 (4 * i)) =
        relocate spage dpage (load m (a + BitVec.ofNat 32 (4 * i))) := by
  obtain ⟨changes, values, -⟩ := foldl_words (a := a) (r := relocate spage dpage)
    (s := fun i => a + BitVec.ofNat 32 (4 * i)) (n := n) List.nodup_range (fun i => List.mem_range.mp) fits
    (fun m i _ => adjustTurn_changes m i) (fun m i _ => adjustTurn_load aligned m i) (fun i hi j hj ne x mem mem' => by
      have hi := List.mem_range.mp hi
      have hj := List.mem_range.mp hj
      rcases Nat.lt_or_gt_of_ne ne with lt | gt
      · exact (apart_add (a := a) (i := 4 * i) (n := 4) (j := 4 * j) (k := 4) (by omega) (by omega)
          (by omega)).not_inside mem mem'
      · exact (apart_add (a := a) (i := 4 * j) (n := 4) (j := 4 * i) (k := 4) (by omega) (by omega)
          (by omega)).not_inside mem' mem) m
  exact ⟨changes, fun i lt => values i (List.mem_range.mpr lt)⟩

/-- The words of a stack after the loop that copies it. -/
lemma copy_words (aligned : base spage = spage) (apart : Apart spage ARCH_PAGE_SIZE dpage ARCH_PAGE_SIZE) (m : Memory) :
    Changes (Inside dpage ARCH_PAGE_SIZE) m
        ((List.range' 1 (ARCH_PAGE_SIZE / 4 - 1)).foldl (copyTurn spage dpage) m) ∧
      (∀ i < ARCH_PAGE_SIZE / 4, 0 < i →
        load ((List.range' 1 (ARCH_PAGE_SIZE / 4 - 1)).foldl (copyTurn spage dpage) m) (dpage + BitVec.ofNat 32 (4 * i)) =
          relocate spage dpage (load m (spage + BitVec.ofNat 32 (4 * i)))) ∧
      load ((List.range' 1 (ARCH_PAGE_SIZE / 4 - 1)).foldl (copyTurn spage dpage) m) dpage = load m dpage := by
  have mem : ∀ i, i ∈ List.range' 1 (ARCH_PAGE_SIZE / 4 - 1) ↔ 0 < i ∧ i < ARCH_PAGE_SIZE / 4 := fun i => by
    rw [List.mem_range'_1, ARCH_PAGE_SIZE]
    omega
  obtain ⟨changes, values, others⟩ := foldl_words (a := dpage) (r := relocate spage dpage)
    (s := fun i => spage + BitVec.ofNat 32 (4 * i)) (n := ARCH_PAGE_SIZE / 4) List.nodup_range'
    (fun i hi => ((mem i).mp hi).2) (by decide) (fun m i _ => copyTurn_changes m i)
    (fun m i _ => copyTurn_load aligned m i) (fun i hi j hj ne x mem' mem'' => by
      have hi := (mem i).mp hi
      have hj := (mem j).mp hj
      rw [ARCH_PAGE_SIZE] at hi hj
      exact apart.not_inside (mem'.of_add (by rw [ARCH_PAGE_SIZE]; omega) (by decide))
        (mem''.of_add (by rw [ARCH_PAGE_SIZE]; omega) (by decide))) m
  refine ⟨changes, fun i lt pos => values i ((mem i).mpr ⟨pos, lt⟩), ?_⟩
  have first := others 0 (by decide) fun h => absurd ((mem 0).mp h).1 (Nat.lt_irrefl 0)
  rwa [Nat.mul_zero, BitVec.add_zero] at first

/-- The parent goes on behind its call of `setjmp`, the child has got everything at its own place. -/
lemma archThreadFork_run {tss1 : BitVec 32} (back : BitVec 32) (valid : c.Valid tss1) (valid' : t.Valid tss1)
    (separate : Separate c t) (get : load s.mem c.page = c.addr) (inside : Inside c.page ARCH_PAGE_SIZE s.esp)
    (room : 20 ≤ (s.esp - c.page).toNat) (stack : load s.mem (stackAt c.addr) = c.page) : ∃ m,
    archThreadFork back t.addr t.page s = some { s with
      reg := registers (s.reg .edi) (s.reg .esi) (s.reg .ebp) (s.esp - 4) (s.reg .ebx) (s.reg .edx) back 1
      eip := back
      mem := m } ∧ Forked back c t s m := by
  have current := archGetThread_eq valid.aligned inside
  rw [get] at current
  have low : ∀ x, Inside (s.esp - 8) 8 x → Inside c.page ARCH_PAGE_SIZE x := fun x =>
    inside_below (k := 8) inside ⟨Nat.le_refl 8, by omega⟩
  have out : ∀ x, Inside c.page ARCH_PAGE_SIZE x → ¬t.Has x := fun x mem mem' =>
    mem'.elim (separate.right.not_inside mem) (separate.pages.not_inside mem)
  have first : ∀ x, Inside t.page 4 x → Inside t.page ARCH_PAGE_SIZE x := fun x mem => mem.mono (by decide)
  -- the thread, with its stack
  obtain ⟨changes1, copied⟩ := memcpy_copies s.mem separate.structs.symm
  generalize write1 : memcpy s.mem t.addr c.addr sizeofThread = m1 at *
  have changes2 := changes_store m1 (stackAt t.addr) t.page
  have value2 : load (store m1 (stackAt t.addr) t.page) (stackAt t.addr) = t.page := load_store
  generalize write2 : store m1 (stackAt t.addr) t.page = m2 at *
  have source : load m2 (stackAt c.addr) = c.page := by
    rw [changes2.load fun x mem mem' => separate.structs.not_inside (inside_stackAt mem) (inside_stackAt mem'),
      changes1.load fun x mem => separate.structs.not_inside (inside_stackAt mem), stack]
  have changes3 := changes_store m2 t.page t.addr
  have value3 : load (store m2 t.page t.addr) t.page = t.addr := load_store
  generalize write3 : store m2 t.page t.addr = m3 at *
  obtain ⟨changes4, values4, value4⟩ := copy_words valid.aligned separate.pages m3
  obtain ⟨m4, write4⟩ : ∃ m, (List.range' 1 (ARCH_PAGE_SIZE / 4 - 1)).foldl (copyTurn c.page t.page) m3 = m := ⟨_, rfl⟩
  rw [write4] at changes4 values4 value4
  have before : Changes t.Has s.mem m3 := (changes1.mono fun x mem => .inl mem).trans
    ((changes2.mono fun x mem => .inl (inside_stackAt mem)).trans (changes3.mono fun x mem => .inr (first x mem)))
  -- the context
  have apart : Apart (s.esp - 8) 8 (jmpBufAt t.addr) 24 := apart_of (by decide) fun x mem mem' =>
    separate.right.not_inside (low x mem) (inside_jmpBufAt mem')
  obtain ⟨m5, run5, saved, written5⟩ := setjmp_call noCallee { s with mem := m4 } (jmpBufAt t.addr) back apart
  have changes5 : Changes (fun x => Inside (s.esp - 8) 8 x ∨ Inside (jmpBufAt t.addr) 24 x) m4 m5 := written5
  obtain ⟨changes6, values6⟩ := adjust_words t.page (jmpBufAt t.addr) valid.aligned (n := 6) (by decide) m5
  obtain ⟨m6, write6⟩ : ∃ m, (List.range 6).foldl (adjustTurn c.page t.page (jmpBufAt t.addr)) m5 = m := ⟨_, rfl⟩
  rw [write6] at changes6 values6
  obtain ⟨changes7, values7⟩ := adjust_words t.page t.addr valid.aligned (n := TLS_MAX) (by decide) m6
  obtain ⟨m7, write7⟩ : ∃ m, (List.range TLS_MAX).foldl (adjustTurn c.page t.page t.addr) m6 = m := ⟨_, rfl⟩
  rw [write7] at changes7 values7
  -- what was copied stays as it is
  have after : ∀ x, ¬Inside t.addr sizeofThread x → ¬Inside (s.esp - 8) 8 x → m7 x = m4 x := fun x out out' => by
    rw [changes7 x fun mem => out (mem.mono (by decide)), changes6 x fun mem => out (inside_jmpBufAt mem)]
    exact changes5 x fun mem => mem.elim out' fun mem => out (inside_jmpBufAt mem)
  have page : ∀ {a : BitVec 32}, (∀ x, Inside a 4 x → Inside t.page ARCH_PAGE_SIZE x) → load m7 a = load m4 a :=
    fun sub => load_congr fun k lt => by
      have mem : Inside t.page ARCH_PAGE_SIZE _ := sub _ (by
        rw [Inside, add_sub_self]
        omega : Inside _ 4 (_ + BitVec.ofNat 32 k))
      exact after _ (fun mem' => valid'.own.not_inside mem' mem) fun mem' => separate.pages.not_inside (low _ mem') mem
  refine ⟨m7, ?_, ?_, ?_, ?_, ?_, ?_, fun i lt le => ?_, fun i lt => ?_⟩
  · simp only [archThreadFork, current, write1, write2, source, valid.aligned, valid'.aligned, write3, write4]
    rw [run5, Option.map_some, write6, write7]
    simp only [Cpu.set, registers_eax]
    rfl
  · refine (before.mono fun x mem => .inl mem).trans ?_
    refine (changes4.mono fun x mem => .inl (.inr mem)).trans ?_
    refine (changes5.mono fun x mem => mem.elim .inr fun mem => .inl (.inl (inside_jmpBufAt mem))).trans ?_
    refine (changes6.mono fun x mem => .inl (.inl (inside_jmpBufAt mem))).trans ?_
    exact changes7.mono fun x mem => .inl (.inl (mem.mono (by decide)))
  · rw [changes7.load fun x mem mem' => (tls_stackAt _).not_inside mem' mem,
      changes6.load fun x mem => (stackAt_jmpBufAt _).not_inside mem,
      changes5.load fun x mem mem' => mem'.elim (fun mem' => separate.right.not_inside (low x mem') (inside_stackAt mem))
        fun mem' => (stackAt_jmpBufAt _).not_inside mem mem',
      changes4.load fun x mem => valid'.own.not_inside (inside_stackAt mem),
      changes3.load fun x mem mem' => valid'.own.not_inside (inside_stackAt mem) (first x mem'), value2]
  · rw [page first, value4, value3]
  · exact (changes7.words fun x mem mem' => (tls_jmpBufAt _).not_inside mem' mem).mpr (saved.map values6)
  · have own : base (s.esp - 8) = c.page := base_inside valid.aligned (low _ (by
      rw [Inside, BitVec.sub_self]
      decide))
    have place : (relocate c.page t.page (s.esp - 8) - t.page).toNat = (s.esp - c.page).toNat - 8 := by
      rw [relocate_sub valid'.aligned own]
      bv_omega
    refine place ▸ ⟨?_, ?_⟩
    · omega
    · rw [Inside] at inside
      omega
  · have pos : 0 < i := by omega
    have words : ∀ (a : BitVec 32) x, Inside (a + BitVec.ofNat 32 (4 * i)) 4 x → Inside a ARCH_PAGE_SIZE x := by
      intro a x mem
      rw [ARCH_PAGE_SIZE] at lt ⊢
      exact mem.of_add (by omega) (by decide)
    rw [page (words t.page), values4 i lt pos, before.load fun x mem => out x (words c.page x mem)]
    rfl
  · have struct : ∀ x, Inside (tlsAt t.addr i) 4 x → Inside t.addr sizeofThread x := fun x mem =>
      (inside_tlsAt lt mem).mono (by decide)
    have bytes : load m1 (tlsAt t.addr i) = load s.mem (tlsAt c.addr i) := by
      refine load_bytes fun k less => ?_
      have e : ∀ a : BitVec 32, tlsAt a i + BitVec.ofNat 32 k = a + BitVec.ofNat 32 (4 * i + k) := fun a => by
        rw [tlsAt, BitVec.add_assoc, BitVec.ofNat_add]
      rw [e, e]
      rw [TLS_MAX] at lt
      exact copied (4 * i + k) (by rw [sizeofThread]; omega)
    have same : load m6 (tlsAt t.addr i) = load s.mem (tlsAt c.addr i) := by
      rw [changes6.load fun x mem => (tls_jmpBufAt _).not_inside (inside_tlsAt lt mem),
        changes5.load fun x mem mem' => mem'.elim (fun mem' => separate.right.not_inside (low x mem') (struct x mem))
          fun mem' => (tls_jmpBufAt _).not_inside (inside_tlsAt lt mem) mem',
        changes4.load fun x mem => valid'.own.not_inside (struct x mem),
        changes3.load fun x mem mem' => valid'.own.not_inside (struct x mem) (first x mem'),
        changes2.load fun x mem => (tls_stackAt _).not_inside (inside_tlsAt lt mem), bytes]
    exact (values7 i lt).trans (congrArg _ same)

end Fork

end Twcos.Context
