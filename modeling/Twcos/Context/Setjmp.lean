import Twcos.Machine.Frame

/-!
# Saved contexts

Model of `setjmp` and `longjmp` (`arch/i386/setjmp.S`). A `jmp_buf` holds `eip`, `esp`, `ebp`, `ebx`, `esi` and `edi`, in
this order; `esp` is the place of the return address, which `longjmp` writes there again.
-/

namespace Twcos.Context
open Twcos.Machine

/-- `setjmp`. -/
def setjmp : List Instr :=
  [.load 4 .esp .eax, .load 0 .esp .ecx, .store .ecx 0 .eax, .store .esp 4 .eax, .store .ebp 8 .eax, .store .ebx 12 .eax,
    .store .esi 16 .eax, .store .edi 20 .eax, .xor .eax .eax, .ret]

/-- `longjmp`. -/
def longjmp : List Instr :=
  [.load 4 .esp .ecx, .load 8 .esp .eax, .load 4 .ecx .esp, .load 8 .ecx .ebp, .load 12 .ecx .ebx, .load 16 .ecx .esi,
    .load 20 .ecx .edi, .load 0 .ecx .ecx, .store .ecx 0 .esp, .ret]

/-- What a `jmp_buf` holds. -/
structure JmpBuf where
  eip : BitVec 32
  esp : BitVec 32
  ebp : BitVec 32
  ebx : BitVec 32
  esi : BitVec 32
  edi : BitVec 32

def JmpBuf.words (j : JmpBuf) : List (BitVec 32) := [j.eip, j.esp, j.ebp, j.ebx, j.esi, j.edi]

/-- What `setjmp` saves when it is called. -/
def jmpBufOf (s : Cpu) : JmpBuf := ⟨s.word 0, s.esp, s.reg .ebp, s.reg .ebx, s.reg .esi, s.reg .edi⟩

section Calls
variable (callee : Cpu → Option Cpu) (s : Cpu)

/-- The first word is at the address. -/
lemma offset_zero (a : BitVec 32) : a + 0 = a := BitVec.add_zero a

/-- The stores of `setjmp`. -/
lemma storeWords_jmpBuf (m : Memory) (a : BitVec 32) (j : JmpBuf) : storeWords m a j.words =
    store (store (store (store (store (store m (a + 0) j.eip) (a + 4) j.esp) (a + 8) j.ebp) (a + 12) j.ebx)
      (a + 16) j.esi)
      (a + 20) j.edi := by
  have e8 : a + 4 + 4 = a + 8 := BitVec.add_assoc a 4 4
  have e12 : a + 8 + 4 = a + 12 := BitVec.add_assoc a 8 4
  have e16 : a + 12 + 4 = a + 16 := BitVec.add_assoc a 12 4
  have e20 : a + 16 + 4 = a + 20 := BitVec.add_assoc a 16 4
  simp only [JmpBuf.words, storeWords, offset_zero, e8, e12, e16, e20]

/-- `setjmp` returns 0, with the registers saved. -/
lemma setjmp_run (apart : Apart s.esp 4 (s.word 1) 24) : run callee setjmp s = some { s with
    reg := registers (s.reg .edi) (s.reg .esi) (s.reg .ebp) (s.esp + 4) (s.reg .ebx) (s.reg .edx) (s.word 0) 0
    eip := s.word 0
    mem := storeWords s.mem (s.word 1) (jmpBufOf s).words } := by
  -- the return address is not written over
  have back := (changes_storeWords s.mem (s.word 1) (jmpBufOf s).words (Nat.le_of_ble_eq_true rfl)).load fun x =>
    apart.not_inside
  rw [storeWords_jmpBuf] at back ⊢
  obtain ⟨reg, eip, eflags, cs, ds, mem⟩ := s
  rw [← registers_self reg] at back ⊢
  have buf : ∀ a : BitVec 32, a + BitVec.ofNat 32 (4 * 1) = a + 4 := fun _ => rfl
  simp only [jmpBufOf, Cpu.word, Cpu.esp, registers, Nat.mul_zero, BitVec.add_zero, offset_zero, buf] at back
  simp only [setjmp, run, exec, Option.bind_some, Cpu.set, Cpu.word, Cpu.esp, registers_eax, registers_ecx, registers_esp,
    registers, jmpBufOf, BitVec.xor_self, Nat.mul_zero, BitVec.add_zero, offset_zero, buf, back]
  rfl

/-- `longjmp` goes on with the registers that were saved. -/
lemma longjmp_run (j : JmpBuf) (h : Words s.mem (s.word 1) j.words) : run callee longjmp s = some { s with
    reg := registers j.edi j.esi j.ebp (j.esp + 4) j.ebx (s.reg .edx) j.eip (s.word 2)
    eip := j.eip
    mem := store s.mem j.esp j.eip } := by
  obtain ⟨eip, esp, ebp, ebx, esi, edi⟩ := j
  obtain ⟨reg, eip', eflags, cs, ds, mem⟩ := s
  rw [← registers_self reg] at h ⊢
  have saved_eip : load mem (load mem (reg .esp + 4)) = eip := h.1
  have saved_esp : load mem (load mem (reg .esp + 4) + 4) = esp := Words.get (n := 1) h rfl
  have saved_ebp : load mem (load mem (reg .esp + 4) + 8) = ebp := Words.get (n := 2) h rfl
  have saved_ebx : load mem (load mem (reg .esp + 4) + 12) = ebx := Words.get (n := 3) h rfl
  have saved_esi : load mem (load mem (reg .esp + 4) + 16) = esi := Words.get (n := 4) h rfl
  have saved_edi : load mem (load mem (reg .esp + 4) + 20) = edi := Words.get (n := 5) h rfl
  have value : load mem (reg .esp + BitVec.ofNat 32 (4 * 2)) = load mem (reg .esp + 8) := rfl
  simp only [longjmp, run, exec, Option.bind_some, Cpu.set, Cpu.word, Cpu.esp, registers_eax, registers_ecx,
    registers_esp,
    registers_ebp, registers_ebx, registers_esi, registers_edi, registers, saved_eip, saved_esp, saved_ebp, saved_ebx,
    saved_esi, saved_edi, value, Nat.mul_zero, BitVec.add_zero, offset_zero, load_store]

/-- A call of `setjmp`. -/
lemma setjmp_call (buf back : BitVec 32) (apart : Apart (s.esp - 8) 8 buf 24) : ∃ m,
    run callee setjmp ((s.push buf).push back) = some { s with
      reg := registers (s.reg .edi) (s.reg .esi) (s.reg .ebp) (s.esp - 4) (s.reg .ebx) (s.reg .edx) back 0
      eip := back
      mem := m } ∧
    Words m buf (JmpBuf.words ⟨back, s.esp - 8, s.reg .ebp, s.reg .ebx, s.reg .esi, s.reg .edi⟩) ∧
    Changes (fun x => Inside (s.esp - 8) 8 x ∨ Inside buf 24 x) s.mem m := by
  have empty : s.Stack [] := trivial
  have stack := (empty.push (by simp) buf).push (by simp) back
  have uses := (((Cpu.Uses.start s 8).push (by decide) buf).push (by decide) back).changes (by decide)
  have esp : ((s.push buf).push back).esp = s.esp - 8 := by
    rw [Cpu.push_esp, Cpu.push_esp, BitVec.sub_sub]
    rfl
  have ret : s.esp - 8 + 4 = s.esp - 4 := by bv_omega
  have regs : ∀ r, r ≠ .esp → ((s.push buf).push back).reg r = s.reg r := fun r ne => by
    rw [Cpu.push_reg _ _ ne, Cpu.push_reg _ _ ne]
  have returns := setjmp_run callee ((s.push buf).push back) (by
    rw [stack.word (n := 1) rfl, esp]
    exact apart.mono (by decide))
  have saved : jmpBufOf ((s.push buf).push back) =
      ⟨back, s.esp - 8, s.reg .ebp, s.reg .ebx, s.reg .esi, s.reg .edi⟩ := by
    rw [jmpBufOf, stack.word (n := 0) rfl, esp, regs .ebp (by decide), regs .ebx (by decide), regs .esi (by decide),
      regs .edi (by decide)]
  rw [saved, stack.word (n := 0) rfl, stack.word (n := 1) rfl, esp, ret, regs .ebp (by decide), regs .ebx (by decide),
    regs .esi (by decide), regs .edi (by decide), regs .edx (by decide)] at returns
  refine ⟨_, returns, words_storeWords _ _ _ (Nat.le_of_ble_eq_true rfl), ?_⟩
  exact (uses.mono fun x mem => .inl mem).trans
    ((changes_storeWords _ buf _ (Nat.le_of_ble_eq_true rfl)).mono fun x mem => .inr mem)

/-- A call of `longjmp`. -/
lemma longjmp_call (buf : BitVec 32) {j : JmpBuf} (h : Words s.mem buf j.words) (apart : Apart (s.esp - 12) 12 buf 24) :
    ∃ m, run callee longjmp (((s.push 1).push buf).push 0) = some { s with
      reg := registers j.edi j.esi j.ebp (j.esp + 4) j.ebx (s.reg .edx) j.eip 1
      eip := j.eip
      mem := m } ∧
    Changes (fun x => Inside (s.esp - 12) 12 x ∨ Inside j.esp 4 x) s.mem m := by
  have empty : s.Stack [] := trivial
  have stack := ((empty.push (by simp) 1).push (by simp) buf).push (by simp) 0
  have uses := ((((Cpu.Uses.start s 12).push (by decide) 1).push (by decide) buf).push (by decide) 0).changes (by decide)
  have saved : Words (((s.push 1).push buf).push 0).mem buf j.words :=
    (uses.words fun x mem mem' => apart.not_inside mem' mem).mpr h
  have edx : (((s.push 1).push buf).push 0).reg .edx = s.reg .edx := by
    rw [Cpu.push_reg _ _ (by decide), Cpu.push_reg _ _ (by decide), Cpu.push_reg _ _ (by decide)]
  have goes := longjmp_run callee (((s.push 1).push buf).push 0) j (by
    rw [stack.word (n := 1) rfl]
    exact saved)
  rw [stack.word (n := 2) rfl, edx] at goes
  exact ⟨_, goes, (uses.mono fun x mem => .inl mem).trans ((changes_store _ _ _).mono fun x mem => .inr mem)⟩

end Calls

end Twcos.Context
