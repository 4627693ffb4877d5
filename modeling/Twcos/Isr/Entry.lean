import Twcos.Machine.Basic

/-!
# Entries of interrupts

Model of the stubs of `arch/i386/isr.sh`, the table of handlers, `i386_set_idt`, `i386_isr` and `i386_pf` of
`arch/i386/i386.c`, and of what the processor does at an interrupt or exception in the kernel: through the gate in `idt`
to the stub, and back to the interrupted code by `iret`. Interrupts of user mode, which change the stack, are left out.

C → Lean naming: `isr_body`, `errorcode_isr`, `noerrorcode_isr` → `isrBody`, `errorcodeIsr`, `noerrorcodeIsr`;
`i386_set_idt` → `i386SetIdt`; `i386_isr`, `i386_pf` → `i386Isr`, `i386Pf`. The addresses of the stubs (`isr_labels`) and
of the instructions after their calls are parameters. Of a C function the model says which one is called and with which
arguments; what it does on the machine is a parameter.

The stubs take it that the processor pushes an error code for the vectors 8 and 10 to 14, and for no others; newer ones also
push one for 17, 21, 29 and 30. The register `cr2` is the address of the fault still when `i386_pf` reads it: the page fault
has a trap gate, so that interrupts stay enabled, and another page fault before that would change it.
-/

namespace Twcos.Isr
open Twcos.Machine

/-! ### The stubs -/

/-- `isr_body`. -/
def isrBody (back : BitVec 32) (n : Nat) : List Instr :=
  [.pushDs, .pushal, .push .esp, .pushImm (BitVec.ofNat 32 n), .cld, .movw 0x10 .eax, .movDs .eax, .call back,
    .add 8 .esp,
    .popal, .popDs, .mov .ebp .esp, .pop .ebp, .iret]

/-- `errorcode_isr`: the error code and `ebp` change places. -/
def errorcodeIsr (back : BitVec 32) (n : Nat) : List Instr :=
  [.xchg .esp .ebp, .push .esp, .xchg .esp .ebp] ++ isrBody back n

/-- `noerrorcode_isr`. -/
def noerrorcodeIsr (back : BitVec 32) (n : Nat) : List Instr := [.push .ebp, .mov .esp .ebp] ++ isrBody back n

/-- The vectors whose stubs expect an error code. -/
def Errorcode (i : Nat) : Prop := i = 8 ∨ 9 < i ∧ i < 15

instance Errorcode.decidable (i : Nat) : Decidable (Errorcode i) := inferInstanceAs (Decidable (_ ∨ _))

def isr (back : BitVec 32) (i : Nat) : List Instr := if Errorcode i then errorcodeIsr back i else noerrorcodeIsr back i

/-! ### The gates -/

/-- An entry of `idt`. -/
structure Gate where
  low : BitVec 16
  selector : BitVec 16
  flags : BitVec 16
  high : BitVec 16

/-- `i386_set_idt`. -/
def i386SetIdt (i : Nat) (p : BitVec 32) (flags : BitVec 16) (idt : Nat → Gate) : Nat → Gate :=
  Function.update idt i ⟨(p &&& 0xffff).setWidth 16, 0x8, flags, (p >>> 16).setWidth 16⟩

def PIC_IRQ_BASE : Nat := 0x20

/-- The loops of `i386_init`: trap gates for all, interrupt gates for the irqs. -/
def i386Init (labels : Nat → BitVec 32) (idt : Nat → Gate) : Nat → Gate :=
  let idt := (List.range 256).foldl (fun idt i => i386SetIdt i (labels i) 0x8f00 idt) idt
  (List.range' PIC_IRQ_BASE 16).foldl (fun idt i => i386SetIdt i (labels i) 0x8e00 idt) idt

def Gate.offset (g : Gate) : BitVec 32 := g.high ++ g.low

/-- Interrupt gates disable interrupts, trap gates do not. -/
def Gate.IsInterrupt (g : Gate) : Prop := g.flags.extractLsb' 8 4 = 0xe

instance Gate.IsInterrupt.decidable (g : Gate) : Decidable g.IsInterrupt := inferInstanceAs (Decidable (_ = _))

/-- Tracing, nested tasks, resumption and virtual mode end; interrupts may be disabled. -/
def Gate.flagsAfter (g : Gate) (eflags : BitVec 32) : BitVec 32 :=
  if g.IsInterrupt then eflags &&& ~~~0x34300 else eflags &&& ~~~0x34100

/-- What the processor does when an interrupt or an exception comes, with or without an error code. -/
def deliver (g : Gate) (err : Option (BitVec 32)) (s : Cpu) : Cpu :=
  let saved := ((s.push s.eflags).push (s.cs.setWidth 32)).push s.eip
  { err.elim saved saved.push with eip := g.offset, cs := g.selector, eflags := g.flagsAfter s.eflags }

/-! ### The handlers -/

/-- The functions in `itable`. -/
inductive Handler where
  | de | db | nmi | bp | of | br | ud | nm | df | ts | np | ss | gp | pf | mf | ac | mc | xm | ve | sx | irq
deriving DecidableEq

def itable : List (Option Handler) := [
  some .de, some .db, some .nmi, some .bp,
  some .of, some .br, some .ud, some .nm,

  some .df, none, some .ts, some .np,
  some .ss, some .gp, some .pf, none,

  some .mf, some .ac, some .mc, some .xm,
  some .ve, none, none, none,

  none, none, none, none,
  none, none, some .sx, none,

  some .irq, some .irq, some .irq, some .irq,
  some .irq, some .irq, some .irq, some .irq,

  some .irq, some .irq, some .irq, some .irq,
  some .irq, some .irq, some .irq, some .irq]

/-- What is called in the kernel. -/
inductive Call where
  | kernelPanic (num : BitVec 32)
  | kernelPrintk (num : BitVec 32)
  | vmPageFault (p write user present : BitVec 32)
  | i386Irq (num : BitVec 32)

/-- The places in `state` (`ISR_REG_EDI`, …). -/
def isrReg : Reg → Nat
  | .edi => 0
  | .esi => 1
  | .ebp => 2
  | .esp => 3
  | .ebx => 4
  | .edx => 5
  | .ecx => 6
  | .eax => 7

def ISR_REG_DS : Nat := 8

def ISR_ERRORCODE : Nat := 9

/-- `i386_pf`. -/
def i386Pf (cr2 errorcode : BitVec 32) : Call :=
  .vmPageFault cr2 (errorcode &&& 0x2) (errorcode &&& 0x4) (errorcode &&& 0x1)

/-- `i386_isr`, with its arguments on the stack. -/
def i386Isr (cr2 : BitVec 32) (s : Cpu) : Call :=
  let num := s.word 1
  let state := s.word 2
  match itable[num.toNat]?.join with
  | none => .kernelPrintk num
  | some .irq => .i386Irq num
  | some .pf => i386Pf cr2 (load s.mem (state + BitVec.ofNat 32 (4 * ISR_ERRORCODE)))
  | some _ => .kernelPanic num

section Interrupts
variable (code : BitVec 32 → Option (List Instr)) (perform : Call → Cpu → Option Cpu) (cr2 : BitVec 32)

/-- An interrupt: the stub that the gate leads to runs to its end. -/
def interrupt (idt : Nat → Gate) (n : Nat) (err : Option (BitVec 32)) (s : Cpu) : Option Cpu :=
  let s := deliver (idt n) err s
  (code s.eip).bind fun stub => run (fun s => perform (i386Isr cr2 s) s) stub s

end Interrupts

/-- A function that was called has returned, and kept the stack above its two arguments. -/
structure Unwound (top : BitVec 32) (s t : Cpu) : Prop where
  esp : t.esp = s.esp + 4
  mem : ∀ a, (a - (s.esp + 12)).toNat < (top - (s.esp + 12)).toNat → t.mem a = s.mem a

/-! ### What an interrupt is to do -/

/-- What is called for a vector. -/
def request (cr2 : BitVec 32) (n : Nat) (err : Option (BitVec 32)) : Call :=
  if n = 14 then i386Pf cr2 (err.getD 0)
  else if PIC_IRQ_BASE ≤ n ∧ n < PIC_IRQ_BASE + 16 then .i386Irq (BitVec.ofNat 32 n)
  else if n < 21 ∧ n ≠ 9 ∧ n ≠ 15 ∨ n = 30 then .kernelPanic (BitVec.ofNat 32 n)
  else .kernelPrintk (BitVec.ofNat 32 n)

/-- What `i386_isr` is called with: in `state`, the registers of the interrupted code, and where its frame is; in the
    processor, the segments of the kernel, and interrupts disabled for irqs. -/
structure Entry (n : Nat) (err : Option (BitVec 32)) (s entry : Cpu) : Prop where
  num : entry.word 1 = BitVec.ofNat 32 n
  regs : ∀ r, r ≠ .ebp → r ≠ .esp → load entry.mem (entry.word 2 + BitVec.ofNat 32 (4 * isrReg r)) = s.reg r
  ds : load entry.mem (entry.word 2 + BitVec.ofNat 32 (4 * ISR_REG_DS)) = s.ds.setWidth 32
  errorcode : ∀ e, err = some e → load entry.mem (entry.word 2 + BitVec.ofNat 32 (4 * ISR_ERRORCODE)) = e
  frame : Words entry.mem (load entry.mem (entry.word 2 + BitVec.ofNat 32 (4 * isrReg .ebp))) [s.reg .ebp, s.eip]
  segments : entry.cs = 0x8 ∧ entry.ds = 0x10
  direction : entry.eflags.getLsbD 10 = false
  enabled : entry.eflags.getLsbD 9 = (s.eflags.getLsbD 9 && !decide (PIC_IRQ_BASE ≤ n ∧ n < PIC_IRQ_BASE + 16))
  mem : ∀ a, (a - s.esp).toNat < 2 ^ 32 - 68 → entry.mem a = s.mem a

/-! ### Through the gate -/

section Gates
variable {labels : Nat → BitVec 32} {idt : Nat → Gate} {n : Nat}

/-- The two halves of an address. -/
lemma offset_eq (p : BitVec 32) (selector flags : BitVec 16) :
    Gate.offset ⟨(p &&& 0xffff).setWidth 16, selector, flags, (p >>> 16).setWidth 16⟩ = p := by
  have mask : (0xffff : BitVec 32) = BitVec.ofNat 32 (2 ^ 16 - 1) := rfl
  rw [Gate.offset, mask]
  exact Word.halves_append p

/-- Setting gates leaves the others. -/
lemma setIdts_of_notMem {is : List Nat} {flags : BitVec 16} (h : n ∉ is) :
    is.foldl (fun idt i => i386SetIdt i (labels i) flags idt) idt n = idt n := by
  induction is generalizing idt with
  | nil => rfl
  | cons i is ih =>
    rw [List.foldl_cons, ih (List.not_mem_of_not_mem_cons h), i386SetIdt,
      Function.update_of_ne (List.ne_of_not_mem_cons h)]

/-- A gate that is set. -/
lemma setIdts_of_mem {is : List Nat} {flags : BitVec 16} (h : n ∈ is) :
    is.foldl (fun idt i => i386SetIdt i (labels i) flags idt) idt n =
      ⟨(labels n &&& 0xffff).setWidth 16, 0x8, flags, (labels n >>> 16).setWidth 16⟩ := by
  induction is generalizing idt with
  | nil => exact absurd h List.not_mem_nil
  | cons i is ih =>
    rw [List.foldl_cons]
    by_cases later : n ∈ is
    · exact ih later
    · rcases List.mem_cons.mp h with rfl | later'
      · rw [setIdts_of_notMem later, i386SetIdt, Function.update_self]
      · exact absurd later' later

/-- The gates that `i386_init` leaves. -/
lemma i386Init_gate (lt : n < 256) : i386Init labels idt n =
    ⟨(labels n &&& 0xffff).setWidth 16, 0x8, if PIC_IRQ_BASE ≤ n ∧ n < PIC_IRQ_BASE + 16 then 0x8e00 else 0x8f00,
      (labels n >>> 16).setWidth 16⟩ := by
  by_cases irq : PIC_IRQ_BASE ≤ n ∧ n < PIC_IRQ_BASE + 16
  · rw [i386Init, setIdts_of_mem (List.mem_range'_1.mpr irq), if_pos irq]
  · rw [i386Init, setIdts_of_notMem fun mem => irq (List.mem_range'_1.mp mem), setIdts_of_mem (List.mem_range.mpr lt),
      if_neg irq]

/-- Only the gates of the interrupt controller keep further interrupts out. -/
lemma gate_irq (labels : Nat → BitVec 32) (idt : Nat → Gate) (lt : n < 256) :
    (i386Init labels idt n).IsInterrupt ↔ PIC_IRQ_BASE ≤ n ∧ n < PIC_IRQ_BASE + 16 := by
  have interrupts : (0x8e00 : BitVec 16).extractLsb' 8 4 = 0xe := by decide
  have traps : (0x8f00 : BitVec 16).extractLsb' 8 4 ≠ 0xe := by decide
  rw [i386Init_gate lt]
  by_cases irq : PIC_IRQ_BASE ≤ n ∧ n < PIC_IRQ_BASE + 16
  · rw [if_pos irq]
    exact iff_of_true interrupts irq
  · rw [if_neg irq]
    exact iff_of_false traps irq

end Gates

/-! ### Through the stub -/

section Stubs
variable {callee : Cpu → Option Cpu} {back : BitVec 32} {n : Nat} {s t : Cpu}

/-- The part of the body before the call. -/
def enter (n : Nat) : List Instr :=
  [.pushDs, .pushal, .push .esp, .pushImm (BitVec.ofNat 32 n), .cld, .movw 0x10 .eax, .movDs .eax]

/-- The part behind it. -/
def leave : List Instr := [.add 8 .esp, .popal, .popDs, .mov .ebp .esp, .pop .ebp, .iret]

/-- With the arguments on the stack. -/
def withArgs (n : Nat) (s : Cpu) : Cpu :=
  let saved := (s.push (s.ds.setWidth 32)).pushal
  (saved.push saved.esp).push (BitVec.ofNat 32 n)

/-- What the body has done before the call. -/
def entered (n : Nat) (s : Cpu) : Cpu :=
  let eax := ((withArgs n s).reg .eax).extractLsb' 16 16 ++ (0x10 : BitVec 16)
  { (withArgs n s).set .eax eax with eflags := (withArgs n s).eflags &&& ~~~0x400, ds := eax.setWidth 16 }

/-- The common part calls the handler and leaves. -/
lemma isrBody_run : run callee (isrBody back n) s = (callee ((entered n s).push back)).bind (run callee leave) := by
  have body : isrBody back n = enter n ++ .call back :: leave := rfl
  have before : run callee (enter n) s = some (entered n s) := by
    simp only [enter, run, exec, Option.bind_some, entered, withArgs, Cpu.set, Cpu.esp, Function.update_self]
  rw [body, run_append, before, Option.bind_some, run, exec]

/-- The words that the stub leaves on the stack: registers, `ds`, and what it began with. -/
def saved (s : Cpu) (xs : List (BitVec 32)) : List (BitVec 32) :=
  s.reg .edi :: s.reg .esi :: s.reg .ebp :: (s.esp - 4) :: s.reg .ebx :: s.reg .edx :: s.reg .ecx :: s.reg .eax ::
    s.ds.setWidth 32 :: xs

/-- Pushing the arguments takes eleven words of the stack. -/
lemma withArgs_esp : (withArgs n s).esp = s.esp - 44 := by
  simp only [withArgs, Cpu.push_esp, Cpu.pushal_esp, BitVec.sub_sub]
  rfl

/-- Pushing the arguments leaves the rest of the processor as it is. -/
lemma withArgs_others : (withArgs n s).cs = s.cs ∧ (withArgs n s).eflags = s.eflags := by
  simp only [withArgs, Cpu.push_others, Cpu.pushal_others, and_self]

/-- The segments and flags of the kernel. -/
lemma entered_others : (entered n s).cs = s.cs ∧ (entered n s).ds = 0x10 ∧
    (entered n s).eflags = s.eflags &&& ~~~0x400 := by
  have low : ∀ x : BitVec 16, (x ++ (0x10 : BitVec 16)).setWidth 16 = 0x10 := fun x => by
    apply BitVec.eq_of_getLsbD_eq
    intro i hi
    rw [BitVec.getLsbD_setWidth, BitVec.getLsbD_append, decide_eq_true hi, Bool.true_and, if_pos hi]
  refine ⟨?_, low _, ?_⟩
  · simp only [entered, Cpu.set, withArgs_others]
  · simp only [entered, withArgs_others]

/-- What memory has when the handler is entered. -/
lemma entered_mem : (entered n s).mem = (withArgs n s).mem := by
  simp only [entered, Cpu.set]

/-- Where the stack is when the handler is entered. -/
lemma entered_esp : (entered n s).esp = s.esp - 44 := by
  have other : Reg.esp ≠ .eax := by decide
  rw [← withArgs_esp (n := n)]
  simp only [entered, Cpu.esp, Cpu.set, Function.update_of_ne other]

/-- What is on the stack when the handler is entered. -/
lemma entered_stack (n : Nat) (back : BitVec 32) {xs : List (BitVec 32)} (h : s.Stack xs)
    (room : 4 * xs.length + 48 ≤ 2 ^ 32) :
    ((entered n s).push back).Stack (back :: BitVec.ofNat 32 n :: (s.esp - 36) :: saved s xs) := by
  have ds := h.push (by omega) (s.ds.setWidth 32)
  have regs := ds.pushal (by rw [List.length_cons]; omega)
  have keep : ∀ r, r ≠ .esp → (s.push (s.ds.setWidth 32)).reg r = s.reg r := fun r ne => s.push_reg _ ne
  simp only [keep _ (by decide : Reg.edi ≠ .esp), keep _ (by decide : Reg.esi ≠ .esp),
    keep _ (by decide : Reg.ebp ≠ .esp),
    keep _ (by decide : Reg.ebx ≠ .esp), keep _ (by decide : Reg.edx ≠ .esp), keep _ (by decide : Reg.ecx ≠ .esp),
    keep _ (by decide : Reg.eax ≠ .esp), Cpu.push_esp] at regs
  have state : (s.push (s.ds.setWidth 32)).pushal.esp = s.esp - 36 := by
    rw [Cpu.pushal_esp, Cpu.push_esp, BitVec.sub_sub]
    rfl
  have args := (regs.push (by simp only [List.length_cons]; omega) (s.esp - 36)).push
    (by simp only [List.length_cons]; omega) (BitVec.ofNat 32 n)
  rw [← state] at args
  have before : (withArgs n s).Stack _ := args
  rw [state] at before
  have after : (entered n s).Stack _ := before.of_eq (entered_esp.trans withArgs_esp.symm) entered_mem
  exact after.push (by simp only [List.length_cons]; omega) back

/-- Behind the call, with the words on the stack as they were. -/
lemma leave_run {num state edi esi frame esp ebx edx ecx eax ds ebp eip cs eflags : BitVec 32}
    {junk : List (BitVec 32)}
    (h : t.Stack (num :: state :: edi :: esi :: frame :: esp :: ebx :: edx :: ecx :: eax :: ds ::
      (junk ++ [ebp, eip, cs, eflags])))
    (bottom : frame = t.esp + BitVec.ofNat 32 (4 * (11 + junk.length))) :
    run callee leave t = some { t with
      reg := registers edi esi ebp (frame + 16) ebx edx ecx eax
      eip := eip
      eflags := eflags
      cs := cs.setWidth 16
      ds := ds.setWidth 16 } := by
  have args : (t.set .esp (t.esp + 8)).Stack _ := Cpu.Stack.drop [num, state] h rfl (t.set_self ..) rfl
  have regs : exec callee (t.set .esp (t.esp + 8)) .popal = some { t with
      reg := registers edi esi frame (t.esp + 40) ebx edx ecx eax } := by
    have e40 : (t.set .esp (t.esp + 8)).esp + 32 = t.esp + 40 := by
      rw [Cpu.esp, Cpu.set_self, BitVec.add_assoc]
      rfl
    rw [exec, args.word (n := 0) rfl, args.word (n := 1) rfl, args.word (n := 2) rfl, args.word (n := 4) rfl,
      args.word (n := 5) rfl, args.word (n := 6) rfl, args.word (n := 7) rfl, e40]
    simp only [Cpu.set]
  have segment : exec callee { t with reg := registers edi esi frame (t.esp + 40) ebx edx ecx eax } .popDs = some { t with
      reg := registers edi esi frame (t.esp + 44) ebx edx ecx eax
      ds := ds.setWidth 16 } := by
    have stack : Cpu.Stack { t with reg := registers edi esi frame (t.esp + 40) ebx edx ecx eax } _ :=
      Cpu.Stack.drop [num, state, edi, esi, frame, esp, ebx, edx, ecx, eax] h rfl rfl rfl
    have e44 : Cpu.esp { t with reg := registers edi esi frame (t.esp + 40) ebx edx ecx eax } + 4 = t.esp + 44 := by
      show t.esp + 40 + 4 = t.esp + 44
      rw [BitVec.add_assoc]
      rfl
    rw [exec, stack.word (n := 0) rfl, e44]
    simp only [Cpu.set, registers_esp]
  -- from here on the stack is the one that the saved `ebp` lies on
  have below : Cpu.Stack { t with reg := registers edi esi frame frame ebx edx ecx eax, ds := ds.setWidth 16 }
      [ebp, eip, cs, eflags] := by
    refine Cpu.Stack.drop (num :: state :: edi :: esi :: frame :: esp :: ebx :: edx :: ecx :: eax :: ds :: junk) h
      ?_ bottom rfl
    rw [Nat.add_comm 11]
    rfl
  have base : exec callee { t with reg := registers edi esi frame frame ebx edx ecx eax, ds := ds.setWidth 16 }
      (.pop .ebp) = some { t with
        reg := registers edi esi ebp (frame + 4) ebx edx ecx eax
        ds := ds.setWidth 16 } := by
    rw [exec, below.word (n := 0) rfl]
    simp only [Cpu.set, Cpu.esp, registers_esp, registers_ebp, registers]
  have back : exec callee { t with reg := registers edi esi ebp (frame + 4) ebx edx ecx eax, ds := ds.setWidth 16 }
      .iret = some { t with
        reg := registers edi esi ebp (frame + 16) ebx edx ecx eax
        eip := eip
        eflags := eflags
        cs := cs.setWidth 16
        ds := ds.setWidth 16 } := by
    have stack : Cpu.Stack { t with reg := registers edi esi ebp (frame + 4) ebx edx ecx eax, ds := ds.setWidth 16 }
        [eip, cs, eflags] := below.drop [ebp] rfl rfl rfl
    have e16 : frame + 4 + 12 = frame + 16 := by
      rw [BitVec.add_assoc]
      rfl
    rw [exec, stack.word (n := 0) rfl, stack.word (n := 1) rfl, stack.word (n := 2) rfl]
    simp only [Cpu.set, Cpu.esp, registers_esp, registers, e16]
  have move : exec callee { t with reg := registers edi esi frame (t.esp + 44) ebx edx ecx eax, ds := ds.setWidth 16 }
      (.mov .ebp .esp) = some { t with
        reg := registers edi esi frame frame ebx edx ecx eax
        ds := ds.setWidth 16 } := by
    simp only [exec, Cpu.set, registers_esp, registers]
  have drop : exec callee t (.add 8 .esp) = some (t.set .esp (t.esp + 8)) := rfl
  rw [leave, run, drop, Option.bind_some, run, regs, Option.bind_some, run, segment, Option.bind_some, run, move,
    Option.bind_some, run, base, Option.bind_some, run, back, Option.bind_some, run]

/-- The stack after the call. -/
lemma Unwound.stack {top num state : BitVec 32} {xs : List (BitVec 32)} (u : Unwound top s t)
    (h : s.Stack (back :: num :: state :: xs)) (fits : 4 * xs.length ≤ (top - (s.esp + 12)).toNat) :
    t.Stack (t.word 0 :: t.word 1 :: xs) := by
  have arg : t.esp + 4 = t.esp + BitVec.ofNat 32 (4 * 1) := rfl
  have behind : t.esp + 4 + 4 = s.esp + 12 := by
    rw [u.esp, BitVec.add_assoc, BitVec.add_assoc]
    rfl
  have behind' : s.esp + 4 + 4 + 4 = s.esp + 12 := by
    rw [BitVec.add_assoc, BitVec.add_assoc]
    rfl
  refine ⟨congrArg (load t.mem) (BitVec.add_zero t.esp).symm, congrArg (load t.mem) arg, ?_⟩
  have words := h.2.2.2
  rw [behind'] at words
  rw [behind]
  refine (words_congr fun k lt => u.mem _ ?_).mpr words
  rw [add_sub_self]
  omega

/-- The body, from the point on where `ebp` leads to the saved one. -/
lemma isrBody_returns (callee : Cpu → Option Cpu) (n : Nat) (back top : BitVec 32) {junk : List (BitVec 32)}
    {ebp eip cs eflags : BitVec 32}
    (h : s.Stack (junk ++ [ebp, eip, cs, eflags])) (few : junk.length ≤ 1)
    (bottom : s.reg .ebp = s.esp + BitVec.ofNat 32 (4 * junk.length))
    (unwinds : ∀ t, callee ((entered n s).push back) = some t → Unwound top ((entered n s).push back) t)
    (fits : 4 * (junk.length + 13) ≤ (top - (s.esp - 36)).toNat) :
    run callee (isrBody back n) s = (callee ((entered n s).push back)).map fun t => { t with
      reg := registers (s.reg .edi) (s.reg .esi) ebp (s.reg .ebp + 16) (s.reg .ebx) (s.reg .edx) (s.reg .ecx) (s.reg .eax)
      eip := eip
      eflags := eflags
      cs := cs.setWidth 16
      ds := s.ds } := by
  rw [isrBody_run]
  cases called : callee ((entered n s).push back) with
  | none => rfl
  | some t =>
    have u := unwinds t called
    have length : (junk ++ [ebp, eip, cs, eflags]).length = junk.length + 4 := List.length_append
    have stack := entered_stack n back h (by omega)
    have esp : ((entered n s).push back).esp = s.esp - 48 := by
      rw [Cpu.push_esp, entered_esp, BitVec.sub_sub]
      rfl
    have behind : s.esp - 48 + 12 = s.esp - 36 := by bv_omega
    have bottom' : s.reg .ebp = t.esp + BitVec.ofNat 32 (4 * (11 + junk.length)) := by
      rw [bottom, u.esp, esp]
      bv_omega
    have after := u.stack stack (by
      rw [esp, behind, saved, List.length_cons, List.length_cons, List.length_cons, List.length_cons, List.length_cons,
        List.length_cons, List.length_cons, List.length_cons, List.length_cons, length]
      omega)
    have ds : (s.ds.setWidth 32).setWidth 16 = s.ds := by
      rw [BitVec.setWidth_setWidth_of_le _ (by decide), BitVec.setWidth_eq]
    rw [Option.bind_some, Option.map_some, leave_run after bottom', ds]

/-- What a stub that expects no error code does before the body. -/
def noerrorcodeFront (d : Cpu) : Cpu := (d.push (d.reg .ebp)).set .ebp (d.push (d.reg .ebp)).esp

/-- What one that expects an error code does: `ebp` gets under it on the stack. -/
def errorcodeFront (d : Cpu) : Cpu := (((d.poke (d.reg .ebp)).push d.esp).poke (load d.mem d.esp)).set .ebp d.esp

/-- The stub of a vector without an error code. -/
lemma noerrorcodeIsr_run (d : Cpu) :
    run callee (noerrorcodeIsr back n) d = run callee (isrBody back n) (noerrorcodeFront d) := by
  rw [noerrorcodeIsr, run_append, run, exec, Option.bind_some, run, exec, Option.bind_some, run, Option.bind_some]
  rfl

/-- The stub of a vector with one. -/
lemma errorcodeIsr_run (d : Cpu) :
    run callee (errorcodeIsr back n) d = run callee (isrBody back n) (errorcodeFront d) := by
  have other : Reg.esp ≠ .ebp := by decide
  have loaded : ∀ m a x, load (store m a x) a = x := fun m a x => load_store
  rw [errorcodeIsr, run_append, run, exec, Option.bind_some, run, exec, Option.bind_some, run, exec, Option.bind_some,
    run, Option.bind_some]
  simp only [errorcodeFront, Cpu.push, Cpu.poke, Cpu.set, Cpu.esp, Function.update_self, Function.update_of_ne other,
    loaded]
  congr 2
  funext r
  cases r <;> rfl

/-- Before the body: `junk` lies on the stack, and behind it the interrupted `ebp`, to which `ebp` leads. -/
structure Front (a : BitVec 32) (m : Memory) (junk xs : List (BitVec 32)) (d u : Cpu) : Prop where
  uses : Cpu.Uses a 68 m (16 + 4 * junk.length) u
  stack : u.Stack (junk ++ d.reg .ebp :: xs)
  ebp : u.reg .ebp = u.esp + BitVec.ofNat 32 (4 * junk.length)
  regs : ∀ r, r ≠ .ebp → r ≠ .esp → u.reg r = d.reg r
  ds : u.ds = d.ds
  cs : u.cs = d.cs
  eflags : u.eflags = d.eflags

section Fronts
variable {a : BitVec 32} {m : Memory} {xs : List (BitVec 32)} {d : Cpu}

/-- The first instructions of the stub without an error code. -/
lemma noerrorcode_front (stack : d.Stack xs) (few : xs.length ≤ 3) (uses : Cpu.Uses a 68 m 12 d) :
    Front a m [] xs d (noerrorcodeFront d) := by
  have other : Reg.esp ≠ .ebp := by decide
  have esp : (noerrorcodeFront d).esp = (d.push (d.reg .ebp)).esp := Cpu.set_of_ne _ _ other
  refine ⟨(uses.push (by decide) _).of_eq esp rfl, (stack.push (by omega) _).of_eq esp rfl, ?_, fun r ne ne' => ?_,
    rfl, rfl,
    rfl⟩
  · rw [esp, List.length_nil, Nat.mul_zero, BitVec.add_zero]
    exact Cpu.set_self ..
  · exact (Cpu.set_of_ne _ _ ne).trans (d.push_reg _ ne')

/-- The first instructions of the stub with an error code. -/
lemma errorcode_front {e : BitVec 32} (stack : d.Stack (e :: xs)) (few : xs.length ≤ 3) (uses : Cpu.Uses a 68 m 16 d) :
    Front a m [e] xs d (errorcodeFront d) := by
  have other : Reg.esp ≠ .ebp := by decide
  have swap := stack.poke (by omega) (d.reg .ebp)
  have pushed := swap.push (by rw [List.length_cons]; omega) d.esp
  have back := pushed.poke (by rw [List.length_cons]; omega) e
  have used := ((uses.poke (by decide) (d.reg .ebp)).push (by decide) d.esp).poke (by decide) e
  have code : load d.mem d.esp = e := stack.1
  have front : errorcodeFront d = (((d.poke (d.reg .ebp)).push d.esp).poke e).set .ebp d.esp := by
    rw [errorcodeFront, code]
  have esp : (errorcodeFront d).esp = (((d.poke (d.reg .ebp)).push d.esp).poke e).esp := by
    rw [front]
    exact Cpu.set_of_ne _ _ other
  have mem : (errorcodeFront d).mem = (((d.poke (d.reg .ebp)).push d.esp).poke e).mem := by
    rw [front]
    rfl
  refine ⟨used.of_eq esp mem, back.of_eq esp mem, ?_, fun r ne ne' => ?_, rfl, rfl, rfl⟩
  · have four : BitVec.ofNat 32 (4 * [e].length) = 4 := rfl
    have top : (((d.poke (d.reg .ebp)).push d.esp).poke e).esp = d.esp - 4 := Cpu.push_esp (d.poke (d.reg .ebp)) d.esp
    rw [esp, four, top, BitVec.sub_add_cancel]
    exact Cpu.set_self ..
  · exact (Cpu.set_of_ne _ _ ne).trans ((d.poke (d.reg .ebp)).push_reg d.esp ne')

end Fronts

/-- What the processor has pushed. -/
def delivered (s : Cpu) : Cpu := ((s.push s.eflags).push (s.cs.setWidth 32)).push s.eip

/-- What the processor pushes. -/
lemma delivered_stack (s : Cpu) : (delivered s).Stack [s.eip, s.cs.setWidth 32, s.eflags] := by
  have empty : s.Stack [] := trivial
  exact ((empty.push (by simp) _).push (by simp) _).push (by simp) _

/-- What the processor pushes is all that it writes. -/
lemma delivered_uses (s : Cpu) : Cpu.Uses s.esp 68 s.mem 12 (delivered s) :=
  (((Cpu.Uses.start s 68).push (by decide) _).push (by decide) _).push (by decide) _

/-- The delivery of an interrupt changes no register but the stack pointer. -/
lemma delivered_reg (s : Cpu) {r : Reg} (ne : r ≠ .esp) : (delivered s).reg r = s.reg r := by
  rw [delivered, Cpu.push_reg _ _ ne, Cpu.push_reg _ _ ne, Cpu.push_reg _ _ ne]

/-- An interrupt without an error code. -/
lemma deliver_none (g : Gate) (s : Cpu) : deliver g none s =
    { delivered s with eip := g.offset, cs := g.selector, eflags := g.flagsAfter s.eflags } := rfl

/-- An interrupt with one. -/
lemma deliver_some (g : Gate) (e : BitVec 32) (s : Cpu) : deliver g (some e) s =
    { (delivered s).push e with eip := g.offset, cs := g.selector, eflags := g.flagsAfter s.eflags } := rfl

/-- From the gate to the body, for a stub that expects what the processor pushes. -/
lemma isr_front (back : BitVec 32) (g : Gate) (s : Cpu) {err : Option (BitVec 32)} (expects : err.isSome ↔ Errorcode n) :
    ∃ d u, Front s.esp s.mem err.toList [s.eip, s.cs.setWidth 32, s.eflags] d u ∧
      (∀ r, r ≠ .esp → d.reg r = s.reg r) ∧ d.ds = s.ds ∧ d.cs = g.selector ∧ d.eflags = g.flagsAfter s.eflags ∧
      ∀ callee, run callee (isr back n) (deliver g err s) = run callee (isrBody back n) u := by
  cases err with
  | none =>
    have no : ¬Errorcode n := fun h => Bool.false_ne_true (expects.mpr h)
    have stack : Cpu.Stack { delivered s with eip := g.offset, cs := g.selector, eflags := g.flagsAfter s.eflags } _ :=
      delivered_stack s
    refine ⟨_, _, noerrorcode_front stack (by simp) ⟨(delivered_uses s).esp, (delivered_uses s).mem⟩,
      fun r ne => delivered_reg s ne, rfl, rfl, rfl, fun callee => ?_⟩
    rw [isr, if_neg no, deliver_none, noerrorcodeIsr_run]
  | some e =>
    have pushed := (delivered_stack s).push (by simp) e
    have used := (delivered_uses s).push (by decide) e
    have stack : Cpu.Stack { (delivered s).push e with
      eip := g.offset, cs := g.selector, eflags := g.flagsAfter s.eflags } _ := pushed
    refine ⟨_, _, errorcode_front stack (by simp) ⟨used.esp, used.mem⟩,
      fun r ne => ((delivered s).push_reg e ne).trans (delivered_reg s ne), rfl, rfl, rfl, fun callee => ?_⟩
    rw [isr, if_pos (expects.mp rfl), deliver_some, errorcodeIsr_run]

/-- A word that the handler finds behind its arguments. -/
lemma word_state (entry : Cpu) (state : BitVec 32) (k : Nat) (behind : state = entry.esp + 12) :
    load entry.mem (state + BitVec.ofNat 32 (4 * k)) = entry.word (3 + k) := by
  rw [Cpu.word, behind, BitVec.add_assoc, Nat.mul_add, BitVec.ofNat_add]
  rfl

/-- The call from the body. -/
lemma entry_front {g : Gate} {err : Option (BitVec 32)} {d u : Cpu}
    (front : Front s.esp s.mem err.toList [s.eip, s.cs.setWidth 32, s.eflags] d u) (regs : ∀ r, r ≠ .esp →
      d.reg r = s.reg r)
    (ds : d.ds = s.ds) (cs : d.cs = g.selector) (eflags : d.eflags = g.flagsAfter s.eflags) (selector : g.selector = 0x8)
    (irq : g.IsInterrupt ↔ PIC_IRQ_BASE ≤ n ∧ n < PIC_IRQ_BASE + 16) :
    Entry n err s ((entered n u).push back) := by
  have few : err.toList.length ≤ 1 := by cases err <;> simp
  have length : (err.toList ++ d.reg .ebp :: [s.eip, s.cs.setWidth 32, s.eflags]).length = err.toList.length + 4 :=
    List.length_append
  have stack := entered_stack n back front.stack (by omega)
  have esp : ((entered n u).push back).esp = u.esp - 48 := by
    rw [Cpu.push_esp, entered_esp, BitVec.sub_sub]
    rfl
  have state : ((entered n u).push back).word 2 = ((entered n u).push back).esp + 12 := by
    rw [stack.word (n := 2) rfl, esp]
    bv_omega
  have slot := fun k => word_state ((entered n u).push back) _ k state
  obtain ⟨cs', ds', eflags'⟩ := entered_others (n := n) (s := u)
  have saved_regs : ∀ r, r ≠ .ebp → r ≠ .esp → u.reg r = s.reg r := fun r ne ne' =>
    (front.regs r ne ne').trans (regs r ne')
  obtain ⟨push_cs, push_ds, push_eflags⟩ := (entered n u).push_others back
  refine ⟨stack.word (n := 1) rfl, fun r ne ne' => ?_, ?_, fun e is => ?_, ?_, ⟨?_, push_ds.trans ds'⟩, ?_, ?_, ?_⟩
  · rw [slot, ← saved_regs r ne ne']
    cases r with
    | ebp => exact absurd rfl ne
    | esp => exact absurd rfl ne'
    | _ => exact stack.word rfl
  · rw [slot, ← ds, ← front.ds]
    exact stack.word rfl
  · rw [is] at stack
    rw [slot]
    exact stack.word rfl
  · have below := words_drop (back :: BitVec.ofNat 32 n :: (u.esp - 36) :: u.reg .edi :: u.reg .esi :: u.reg .ebp ::
      (u.esp - 4) :: u.reg .ebx :: u.reg .edx :: u.reg .ecx :: u.reg .eax :: u.ds.setWidth 32 :: err.toList) stack
    have ebp : load ((entered n u).push back).mem (((entered n u).push back).word 2 + BitVec.ofNat 32 (4 * isrReg .ebp)) =
        ((entered n u).push back).esp + BitVec.ofNat 32 (4 * (12 + err.toList.length)) := by
      rw [slot, stack.word (n := 3 + isrReg .ebp) rfl, front.ebp, esp]
      bv_omega
    rw [ebp, Nat.add_comm 12, ← regs .ebp (by decide)]
    exact ⟨below.1, below.2.1, trivial⟩
  · exact (push_cs.trans cs').trans (front.cs.trans (cs.trans selector))
  · rw [push_eflags, eflags', BitVec.getLsbD_and]
    exact Bool.and_false _
  · rw [push_eflags, eflags', front.eflags, eflags, Gate.flagsAfter, BitVec.getLsbD_and]
    by_cases is : g.IsInterrupt
    · rw [if_pos is, decide_eq_true (irq.mp is), BitVec.getLsbD_and]
      simp
    · rw [if_neg is, decide_eq_false fun h => is (irq.mpr h), BitVec.getLsbD_and]
      simp
  · have regs' := (front.uses.push (by omega) (u.ds.setWidth 32)).pushal (by omega)
    have args := (regs'.push (by omega) (u.push (u.ds.setWidth 32)).pushal.esp).push (by omega) (BitVec.ofNat 32 n)
    have before : Cpu.Uses s.esp 68 s.mem _ (withArgs n u) := args
    exact ((before.of_eq (entered_esp.trans withArgs_esp.symm) entered_mem).push (by omega) back).mem

/-- The handlers by vector. -/
lemma itable_at : ∀ n < 48, if n = 14 then itable[n]?.join = some .pf else
    if PIC_IRQ_BASE ≤ n then itable[n]?.join = some .irq else
    if n < 21 ∧ n ≠ 9 ∧ n ≠ 15 ∨ n = 30 then
      itable[n]?.join ≠ none ∧ itable[n]?.join ≠ some .irq ∧ itable[n]?.join ≠ some .pf
    else itable[n]?.join = none := by decide

/-- `i386_isr` calls what the vector is there for. -/
lemma i386Isr_request {entry : Cpu} {err : Option (BitVec 32)} (lt : n < 256) (expects : err.isSome ↔ Errorcode n)
    (h : Entry n err s entry) (cr2 : BitVec 32) : i386Isr cr2 entry = request cr2 n err := by
  have num : (BitVec.ofNat 32 n).toNat = n := by
    rw [BitVec.toNat_ofNat]
    omega
  rw [i386Isr, request, h.num, num]
  rcases Nat.lt_or_ge n 48 with low | high
  · have handler := itable_at n low
    by_cases pf : n = 14
    · rw [if_pos pf] at handler ⊢
      obtain ⟨e, is⟩ := Option.isSome_iff_exists.mp (expects.mpr (pf ▸ .inr (by decide)))
      rw [handler, is]
      exact congrArg (i386Pf cr2) (h.errorcode e is)
    · rw [if_neg pf] at handler ⊢
      by_cases irq : PIC_IRQ_BASE ≤ n
      · rw [if_pos irq] at handler
        rw [if_pos ⟨irq, low⟩, handler]
      · rw [if_neg irq] at handler
        rw [if_neg fun both => irq both.1]
        split at handler
        · next exception =>
          rw [if_pos exception]
          split
          · next none => exact absurd none handler.1
          · next irq' => exact absurd irq' handler.2.1
          · next pf' => exact absurd pf' handler.2.2
          · rfl
        · next other => rw [if_neg other, handler]
  · have behind : itable[n]? = none := List.getElem?_eq_none_iff.mpr high
    have neither : ¬(n < 21 ∧ n ≠ 9 ∧ n ≠ 15 ∨ n = 30) := by omega
    rw [if_neg (by omega), if_neg fun both => absurd both.2 (Nat.not_lt.mpr high), if_neg neither, behind]
    rfl

end Stubs

/-- An interrupt or exception in the kernel, whose stub expects an error code just if the processor pushes one, and whose
    handler keeps the stack of its caller: the right function is called, with the state of the interrupted code; and if it
    returns, this goes on with all its registers, flags, segments and stack as they were. -/
theorem interrupt_transparent (code : BitVec 32 → Option (List Instr)) (labels back : Nat → BitVec 32) (idt : Nat → Gate)
    (perform : Call → Cpu → Option Cpu) (placed : ∀ n < 256, code (labels n) = some (isr (back n) n)) (top : BitVec 32)
    (unwinds : ∀ call s t, perform call s = some t → Unwound top s t) (cr2 : BitVec 32) (n : Nat) (lt : n < 256)
    (err : Option (BitVec 32)) (expects : err.isSome ↔ Errorcode n) (s : Cpu) (room : (top - s.esp).toNat + 68 < 2 ^ 32) :
    ∃ entry, Entry n err s entry ∧
      interrupt code perform cr2 (i386Init labels idt) n err s =
        (perform (request cr2 n err) entry).map (fun t => { s with mem := t.mem }) ∧
      ∀ t, perform (request cr2 n err) entry = some t →
        ∀ a, (a - s.esp).toNat < (top - s.esp).toNat → t.mem a = s.mem a := by
  have irq := gate_irq labels idt lt
  have selector : (i386Init labels idt n).selector = 0x8 := congrArg Gate.selector (i386Init_gate lt)
  have offset : (i386Init labels idt n).offset = labels n := (congrArg Gate.offset (i386Init_gate lt)).trans
    (offset_eq ..)
  obtain ⟨d, u, front, regs, ds, cs, eflags, stub⟩ := isr_front (back n) (i386Init labels idt n) s expects
  have entry : Entry n err s ((entered n u).push (back n)) := entry_front front regs ds cs eflags selector irq
  have call := i386Isr_request lt expects entry cr2
  have few : err.toList.length ≤ 1 := by cases err <;> simp
  have esp : ((entered n u).push (back n)).esp + 12 = s.esp - BitVec.ofNat 32 (52 + 4 * err.toList.length) := by
    rw [Cpu.push_esp, entered_esp, front.uses.esp]
    bv_omega
  refine ⟨_, entry, ?_, fun t returns a lt => ?_⟩
  · have body := isrBody_returns (fun s => perform (i386Isr cr2 s) s) n (back n) top front.stack few
      front.ebp (fun t returns => unwinds _ _ t returns) (by
        rw [front.uses.esp]
        bv_omega)
    have saved : ∀ r, r ≠ .ebp → r ≠ .esp → u.reg r = s.reg r := fun r ne ne' => (front.regs r ne ne').trans (regs r ne')
    have same : registers (u.reg .edi) (u.reg .esi) (d.reg .ebp) (u.reg .ebp + 16) (u.reg .ebx) (u.reg .edx) (u.reg .ecx)
        (u.reg .eax) = s.reg := by
      have top : u.reg .ebp + 16 = s.reg .esp := by
        rw [front.ebp, front.uses.esp, Cpu.esp]
        bv_omega
      rw [top, saved .edi (by decide) (by decide), saved .esi (by decide) (by decide), saved .ebx (by decide) (by decide),
        saved .edx (by decide) (by decide), saved .ecx (by decide) (by decide), saved .eax (by decide) (by decide),
        regs .ebp (by decide), registers_self]
    have segment : (s.cs.setWidth 32).setWidth 16 = s.cs := by
      rw [BitVec.setWidth_setWidth_of_le _ (by decide), BitVec.setWidth_eq]
    have eip : (deliver (i386Init labels idt n) err s).eip = labels n := offset
    rw [interrupt, eip, placed n lt, Option.bind_some, stub, body, same, segment, front.ds, ds, call]
  · have kept := (unwinds _ _ t returns).mem a (by
      rw [esp]
      bv_omega)
    exact kept.trans (entry.mem a (by omega))

/-! A page fault, with stubs one behind the other and a handler that returns at once. -/

def label (n : Nat) : BitVec 32 := BitVec.ofNat 32 (0xf0100000 + n)

def stubAt (a : BitVec 32) : Option (List Instr) := some (isr 0xf0100100 (a.toNat - 0xf0100000))

def returnAtOnce (_ : Call) (s : Cpu) : Option Cpu := exec some s .ret

/-- A processor in the kernel. -/
def inKernel : Cpu := ⟨registers 0 0 0xf0121ff8 0xf0121ff0 0 0 0 0, 0xf0101000, 0x202, 0x8, 0x10, fun _ => 0⟩

/-- A handler that returns at once unwinds its frame. -/
lemma returnAtOnce_unwinds (top : BitVec 32) (call : Call) (s t : Cpu) (returns : returnAtOnce call s = some t) :
    Unwound top s t := by
  cases returns
  exact ⟨s.esp_set _, fun _ _ => rfl⟩

/-- A page fault of the kernel. -/
theorem interrupt_transparent_fault : ∃ entry, Entry 14 (some 2) inKernel entry ∧
    interrupt stubAt returnAtOnce 0x8000000 (i386Init label fun _ => ⟨0, 0, 0, 0⟩) 14 (some 2) inKernel =
      (returnAtOnce (.vmPageFault 0x8000000 2 0 0) entry).map (fun t => { inKernel with mem := t.mem }) ∧
    ∀ t, returnAtOnce (.vmPageFault 0x8000000 2 0 0) entry = some t →
      ∀ a, (a - 0xf0121ff0).toNat < 16 → t.mem a = inKernel.mem a := by
  have placed : ∀ n < 256, stubAt (label n) = some (isr 0xf0100100 n) := by
    intro n lt
    have e : (label n).toNat - 0xf0100000 = n := by
      rw [label, BitVec.toNat_ofNat]
      omega
    rw [stubAt, e]
  exact interrupt_transparent stubAt label (fun _ => 0xf0100100) (fun _ => ⟨0, 0, 0, 0⟩) returnAtOnce placed 0xf0122000
    (returnAtOnce_unwinds 0xf0122000) 0x8000000 14 (by decide) (some 2) (by decide) inKernel (by decide)

end Twcos.Isr
