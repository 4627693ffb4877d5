import Mathlib.Algebra.Ring.Nat
import Mathlib.Algebra.Ring.Int.Defs
import Mathlib.Tactic.Common
import Mathlib.Logic.Function.Basic
import Twcos.Word.Basic

/-!
# A 32-bit machine

The registers of an x86 processor in protected mode and a memory of bytes, with the instructions that stubs, context
switches and entries into the kernel are made of. Addresses wrap around; words lie in memory at any address, the low byte
first. Which flags `add` and `xor` leave is not modelled, nor is `eip` within a list of instructions: `call` is told where
it returns to.

`Words` says which words lie in memory from an address on, `Cpu.Stack` which ones lie on the stack.
-/

namespace Twcos.Machine

inductive Reg where
  | eax | ecx | edx | ebx | esp | ebp | esi | edi
deriving DecidableEq

/-- The registers in the order in which they lie on the stack. -/
def registers (edi esi ebp esp ebx edx ecx eax : BitVec 32) : Reg → BitVec 32
  | .edi => edi
  | .esi => esi
  | .ebp => ebp
  | .esp => esp
  | .ebx => ebx
  | .edx => edx
  | .ecx => ecx
  | .eax => eax

abbrev Memory := BitVec 32 → BitVec 8

/-- The word at an address. -/
def load (m : Memory) (a : BitVec 32) : BitVec 32 := m (a + 3) ++ m (a + 2) ++ m (a + 1) ++ m a

/-- The memory with another word at an address. -/
def store (m : Memory) (a x : BitVec 32) : Memory := fun b =>
  if (b - a).toNat < 4 then x.extractLsb' (8 * (b - a).toNat) 8 else m b

structure Cpu where
  reg : Reg → BitVec 32
  eip : BitVec 32
  eflags : BitVec 32
  cs : BitVec 16
  ds : BitVec 16
  mem : Memory

def Cpu.esp (s : Cpu) : BitVec 32 := s.reg .esp

def Cpu.set (s : Cpu) (r : Reg) (x : BitVec 32) : Cpu := { s with reg := Function.update s.reg r x }

def Cpu.push (s : Cpu) (x : BitVec 32) : Cpu := { s.set .esp (s.esp - 4) with mem := store s.mem (s.esp - 4) x }

/-- Writing to the word on top of the stack. -/
def Cpu.poke (s : Cpu) (x : BitVec 32) : Cpu := { s with mem := store s.mem s.esp x }

/-- All registers, `edi` on top. -/
def Cpu.pushal (s : Cpu) : Cpu :=
  (((((((s.push (s.reg .eax)).push (s.reg .ecx)).push (s.reg .edx)).push (s.reg .ebx)).push s.esp).push
    (s.reg .ebp)).push (s.reg .esi)).push (s.reg .edi)

/-- The word that lies `n` words below the top of the stack. -/
def Cpu.word (s : Cpu) (n : Nat) : BitVec 32 := load s.mem (s.esp + BitVec.ofNat 32 (4 * n))

inductive Instr where
  | push (r : Reg)
  | pushImm (n : BitVec 32)
  | pushDs
  | pushal
  | pop (r : Reg)
  | popDs
  | popal
  | mov (source dest : Reg)
  | movw (n : BitVec 16) (dest : Reg)
  | movDs (source : Reg)
  | load (disp : BitVec 32) (base dest : Reg)
  | store (source : Reg) (disp : BitVec 32) (base : Reg)
  | xchg (base r : Reg)
  | add (n : BitVec 32) (r : Reg)
  | xor (source dest : Reg)
  | cld
  | call (back : BitVec 32)
  | ret
  | iret

/-- What an instruction does. What is called is a parameter; it may not return. -/
def exec (callee : Cpu → Option Cpu) (s : Cpu) : Instr → Option Cpu
  | .push r => some (s.push (s.reg r))
  | .pushImm n => some (s.push n)
  | .pushDs => some (s.push (s.ds.setWidth 32))
  | .pushal => some s.pushal
  | .pop r => some ((s.set .esp (s.esp + 4)).set r (s.word 0))
  | .popDs => some { s.set .esp (s.esp + 4) with ds := (s.word 0).setWidth 16 }
  | .popal => some { s with
      -- the word for `esp` is skipped
      reg := registers (s.word 0) (s.word 1) (s.word 2) (s.esp + 32) (s.word 4) (s.word 5) (s.word 6) (s.word 7) }
  | .mov source dest => some (s.set dest (s.reg source))
  | .movw n dest => some (s.set dest ((s.reg dest).extractLsb' 16 16 ++ n))
  | .movDs source => some { s with ds := (s.reg source).setWidth 16 }
  | .load disp base dest => some (s.set dest (Machine.load s.mem (s.reg base + disp)))
  | .store source disp base => some { s with mem := Machine.store s.mem (s.reg base + disp) (s.reg source) }
  | .xchg base r => some { s.set r (Machine.load s.mem (s.reg base)) with
      mem := Machine.store s.mem (s.reg base) (s.reg r) }
  | .add n r => some (s.set r (s.reg r + n))
  | .xor source dest => some (s.set dest (s.reg dest ^^^ s.reg source))
  | .cld => some { s with eflags := s.eflags &&& ~~~0x400 }
  | .call back => callee (s.push back)
  | .ret => some { s.set .esp (s.esp + 4) with eip := s.word 0 }
  | .iret => some { s.set .esp (s.esp + 12) with
      eip := s.word 0
      cs := (s.word 1).setWidth 16
      eflags := s.word 2 }

/-- One instruction after the other. -/
def run (callee : Cpu → Option Cpu) : List Instr → Cpu → Option Cpu
  | [], s => some s
  | i :: is, s => (exec callee s i).bind (run callee is)

/-- Running one piece of code after the other. -/
lemma run_append (callee : Cpu → Option Cpu) (is js : List Instr) (s : Cpu) :
    run callee (is ++ js) s = (run callee is s).bind (run callee js) := by
  induction is generalizing s with
  | nil => rfl
  | cons i is ih =>
    rw [List.cons_append, run, run, Option.bind_assoc]
    exact congrArg _ (funext ih)

/-! ### Memory -/

section Memory
variable {m m' : Memory} {a b x : BitVec 32}

/-- The same bytes are the same word. -/
lemma load_bytes (h : ∀ k < 4, m' (b + BitVec.ofNat 32 k) = m (a + BitVec.ofNat 32 k)) : load m' b = load m a := by
  have h0 := h 0 (by omega)
  rw [BitVec.add_zero, BitVec.add_zero] at h0
  have h1 : m' (b + 1) = m (a + 1) := h 1 (by omega)
  have h2 : m' (b + 2) = m (a + 2) := h 2 (by omega)
  have h3 : m' (b + 3) = m (a + 3) := h 3 (by omega)
  rw [load, load, h0, h1, h2, h3]

/-- A word is read from its four bytes. -/
lemma load_congr (h : ∀ k < 4, m' (a + BitVec.ofNat 32 k) = m (a + BitVec.ofNat 32 k)) : load m' a = load m a :=
  load_bytes h

/-- A store does not change bytes outside the word. -/
lemma store_far (far : 4 ≤ (b - a).toNat) : store m a x b = m b := if_neg (Nat.not_lt.mpr far)

/-- The distance of an address from one before it. -/
lemma add_sub_self (k : Nat) : (a + BitVec.ofNat 32 k - a).toNat = k % 2 ^ 32 := by
  rw [BitVec.add_comm, BitVec.add_sub_cancel, BitVec.toNat_ofNat]

/-- What was stored is loaded. -/
lemma load_store : load (store m a x) a = x := by
  have byte : ∀ k < 4, store m a x (a + BitVec.ofNat 32 k) = x.extractLsb' (8 * k) 8 := by
    intro k lt
    have e : (a + BitVec.ofNat 32 k - a).toNat = k := by
      rw [add_sub_self]
      omega
    rw [store, e, if_pos lt]
  have b0 := byte 0 (by omega)
  rw [BitVec.add_zero] at b0
  have b1 : store m a x (a + 1) = _ := byte 1 (by omega)
  have b2 : store m a x (a + 2) = _ := byte 2 (by omega)
  have b3 : store m a x (a + 3) = _ := byte 3 (by omega)
  rw [load, b0, b1, b2, b3]
  exact Word.bytes_append x

/-- Words that have no byte in common. -/
lemma load_store_far (far : 4 ≤ (b - a).toNat) (far' : 4 ≤ (a - b).toNat) : load (store m a x) b = load m b := by
  refine load_congr fun k lt => store_far ?_
  rw [BitVec.toNat_sub] at *
  rw [BitVec.toNat_add, BitVec.toNat_ofNat]
  omega

end Memory

/-! ### Words on the stack -/

/-- The words that lie in memory from an address on. -/
def Words (m : Memory) : BitVec 32 → List (BitVec 32) → Prop
  | _, [] => True
  | a, x :: xs => load m a = x ∧ Words m (a + 4) xs

section Words
variable {m m' : Memory} {a x : BitVec 32} {xs ys : List (BitVec 32)}

/-- A list of words is read from its bytes. -/
lemma words_congr (h : ∀ k < 4 * xs.length, m' (a + BitVec.ofNat 32 k) = m (a + BitVec.ofNat 32 k)) :
    Words m' a xs ↔ Words m a xs := by
  induction xs generalizing a with
  | nil => exact Iff.rfl
  | cons x xs ih =>
    rw [List.length_cons] at h
    refine and_congr (by rw [load_congr fun k lt => h k (by omega)]) (ih fun k lt => ?_)
    have e : a + 4 + BitVec.ofNat 32 k = a + BitVec.ofNat 32 (k + 4) := by
      rw [BitVec.add_assoc, Nat.add_comm, BitVec.ofNat_add]
      rfl
    rw [e]
    exact h (k + 4) (by omega)

/-- A list of words in two parts. -/
lemma words_append : Words m a (xs ++ ys) ↔ Words m a xs ∧ Words m (a + BitVec.ofNat 32 (4 * xs.length)) ys := by
  induction xs generalizing a with
  | nil =>
    rw [List.length_nil, Nat.mul_zero, BitVec.add_zero]
    exact (and_iff_right trivial).symm
  | cons x xs ih =>
    have e : a + BitVec.ofNat 32 (4 * (x :: xs).length) = a + 4 + BitVec.ofNat 32 (4 * xs.length) := by
      rw [List.length_cons, Nat.mul_succ, Nat.add_comm, BitVec.ofNat_add, BitVec.add_assoc]
      rfl
    rw [e, List.cons_append, Words, ih, Words, and_assoc]

/-- The second part of a list of words. -/
lemma words_drop (xs : List (BitVec 32)) (h : Words m a (xs ++ ys)) :
    Words m (a + BitVec.ofNat 32 (4 * xs.length)) ys := (words_append.mp h).2

/-- A word more below them. -/
lemma Words.store (h : Words m a xs) (room : 4 * xs.length + 4 ≤ 2 ^ 32) (x : BitVec 32) :
    Words (store m (a - 4) x) (a - 4) (x :: xs) := by
  refine ⟨load_store, ?_⟩
  rw [BitVec.sub_add_cancel]
  refine (words_congr fun k lt => store_far ?_).mpr h
  have four : (4 : BitVec 32).toNat = 4 := rfl
  rw [BitVec.toNat_sub, BitVec.toNat_add, BitVec.toNat_sub, BitVec.toNat_ofNat, four]
  omega

/-- A word of a list in memory. -/
lemma Words.get (h : Words m a xs) {n : Nat} (hx : xs[n]? = some x) : load m (a + BitVec.ofNat 32 (4 * n)) = x := by
  induction xs generalizing a n with
  | nil => exact absurd (hx.symm.trans List.getElem?_nil) (Option.some_ne_none x)
  | cons y xs ih =>
    cases n with
    | zero =>
      cases hx
      rw [Nat.mul_zero, BitVec.add_zero]
      exact h.1
    | succ n =>
      have e : a + BitVec.ofNat 32 (4 * (n + 1)) = a + 4 + BitVec.ofNat 32 (4 * n) := by
        rw [Nat.mul_succ, Nat.add_comm, BitVec.ofNat_add, BitVec.add_assoc]
        rfl
      rw [e]
      exact ih h.2 hx

/-- A function applied to all the words. -/
lemma Words.map {r : BitVec 32 → BitVec 32} (h : Words m a xs)
    (value : ∀ i < xs.length, load m' (a + BitVec.ofNat 32 (4 * i)) = r (load m (a + BitVec.ofNat 32 (4 * i)))) :
    Words m' a (xs.map r) := by
  induction xs generalizing a with
  | nil => trivial
  | cons x xs ih =>
    have first := value 0 (Nat.succ_pos _)
    rw [Nat.mul_zero, BitVec.add_zero, h.1] at first
    refine ⟨first, ih h.2 fun i lt => ?_⟩
    have e : a + 4 + BitVec.ofNat 32 (4 * i) = a + BitVec.ofNat 32 (4 * (i + 1)) := by
      rw [Nat.mul_succ, Nat.add_comm, BitVec.ofNat_add, BitVec.add_assoc]
      rfl
    rw [e]
    exact value (i + 1) (Nat.succ_lt_succ lt)

end Words

/-- The words on the stack, the top first. -/
def Cpu.Stack (s : Cpu) (xs : List (BitVec 32)) : Prop := Words s.mem s.esp xs

section Registers
variable {edi esi ebp esp ebx edx ecx eax x : BitVec 32}

/-- Setting a register: `edi`. -/
@[simp] lemma registers_edi : Function.update (registers edi esi ebp esp ebx edx ecx eax) .edi x =
    registers x esi ebp esp ebx edx ecx eax := by
  funext r
  cases r <;> rfl

/-- Setting `esi`. -/
@[simp] lemma registers_esi : Function.update (registers edi esi ebp esp ebx edx ecx eax) .esi x =
    registers edi x ebp esp ebx edx ecx eax := by
  funext r
  cases r <;> rfl

/-- Setting `ebp`. -/
@[simp] lemma registers_ebp : Function.update (registers edi esi ebp esp ebx edx ecx eax) .ebp x =
    registers edi esi x esp ebx edx ecx eax := by
  funext r
  cases r <;> rfl

/-- Setting `esp`. -/
@[simp] lemma registers_esp : Function.update (registers edi esi ebp esp ebx edx ecx eax) .esp x =
    registers edi esi ebp x ebx edx ecx eax := by
  funext r
  cases r <;> rfl

/-- Setting `ebx`. -/
@[simp] lemma registers_ebx : Function.update (registers edi esi ebp esp ebx edx ecx eax) .ebx x =
    registers edi esi ebp esp x edx ecx eax := by
  funext r
  cases r <;> rfl

/-- Setting `ecx`. -/
@[simp] lemma registers_ecx : Function.update (registers edi esi ebp esp ebx edx ecx eax) .ecx x =
    registers edi esi ebp esp ebx edx x eax := by
  funext r
  cases r <;> rfl

/-- Setting `eax`. -/
@[simp] lemma registers_eax : Function.update (registers edi esi ebp esp ebx edx ecx eax) .eax x =
    registers edi esi ebp esp ebx edx ecx x := by
  funext r
  cases r <;> rfl

/-- The registers, one by one. -/
lemma registers_self (f : Reg → BitVec 32) :
    registers (f .edi) (f .esi) (f .ebp) (f .esp) (f .ebx) (f .edx) (f .ecx) (f .eax) = f := by
  funext r
  cases r <;> rfl

end Registers

section Stack
variable {s : Cpu} {x : BitVec 32} {xs : List (BitVec 32)} {r : Reg}

/-- A register that was set has its value. -/
@[simp] lemma Cpu.set_self (s : Cpu) (r : Reg) (x : BitVec 32) : (s.set r x).reg r = x := Function.update_self ..

/-- Setting a register leaves the others. -/
lemma Cpu.set_of_ne (s : Cpu) {r q : Reg} (x : BitVec 32) (ne : q ≠ r) : (s.set r x).reg q = s.reg q :=
  Function.update_of_ne ne ..

/-- Setting the stack pointer. -/
@[simp] lemma Cpu.esp_set (s : Cpu) (x : BitVec 32) : (s.set .esp x).esp = x := s.set_self .esp x

/-- The stack pointer after a push. -/
@[simp] lemma Cpu.push_esp (s : Cpu) (x : BitVec 32) : (s.push x).esp = s.esp - 4 := s.esp_set (s.esp - 4)

/-- Pushing is a matter of `esp` and the memory only. -/
lemma Cpu.push_others (s : Cpu) (x : BitVec 32) :
    (s.push x).cs = s.cs ∧ (s.push x).ds = s.ds ∧ (s.push x).eflags = s.eflags := ⟨rfl, rfl, rfl⟩

/-- `pushal` changes no other registers. -/
lemma Cpu.pushal_others (s : Cpu) : s.pushal.cs = s.cs ∧ s.pushal.ds = s.ds ∧ s.pushal.eflags = s.eflags := by
  simp only [pushal, push_others, and_self]

/-- A push changes the stack pointer only. -/
lemma Cpu.push_reg (s : Cpu) (x : BitVec 32) (ne : r ≠ .esp) : (s.push x).reg r = s.reg r :=
  s.set_of_ne (s.esp - 4) ne

/-- The stack is a matter of `esp` and the memory only. -/
lemma Cpu.Stack.of_eq {t : Cpu} (h : s.Stack xs) (esp : t.esp = s.esp) (mem : t.mem = s.mem) : t.Stack xs := by
  rw [Stack, esp, mem]
  exact h

/-- Words are taken off the stack. -/
lemma Cpu.Stack.drop {t : Cpu} (ys : List (BitVec 32)) {n : BitVec 32} (h : s.Stack (ys ++ xs))
    (size : n = BitVec.ofNat 32 (4 * ys.length)) (esp : t.esp = s.esp + n) (mem : t.mem = s.mem) : t.Stack xs := by
  rw [Stack, esp, mem, size]
  exact words_drop ys h

/-- A push puts a word on the stack. -/
lemma Cpu.Stack.push (h : s.Stack xs) (room : 4 * xs.length + 4 ≤ 2 ^ 32) (x : BitVec 32) : (s.push x).Stack
    (x :: xs) := by
  rw [Stack, push_esp]
  exact Words.store h room x

/-- Another word on top. -/
lemma Cpu.Stack.poke (h : s.Stack (x :: xs)) (room : 4 * xs.length + 4 ≤ 2 ^ 32) (y : BitVec 32) :
    (s.poke y).Stack (y :: xs) := by
  have below := Words.store h.2 room y
  rwa [BitVec.add_sub_cancel] at below

/-- The words that `pushal` puts on the stack. -/
lemma Cpu.Stack.pushal (h : s.Stack xs) (room : 4 * xs.length + 32 ≤ 2 ^ 32) : s.pushal.Stack
    (s.reg .edi :: s.reg .esi :: s.reg .ebp :: s.esp :: s.reg .ebx :: s.reg .edx :: s.reg .ecx :: s.reg .eax :: xs) := by
  refine ((((((((h.push (by omega) _).push ?_ _).push ?_ _).push ?_ _).push ?_ _).push ?_ _).push ?_ _).push ?_ _)
  all_goals
    simp only [List.length_cons]
    omega

/-- The stack pointer after `pushal`. -/
lemma Cpu.pushal_esp (s : Cpu) : s.pushal.esp = s.esp - 32 := by
  simp only [pushal, push_esp, BitVec.sub_sub]
  rfl

/-- `j` bytes lie on the stack below `a`; of the memory `m` only the `k` bytes below `a` may have been written. -/
structure Cpu.Uses (a : BitVec 32) (k : Nat) (m : Memory) (j : Nat) (s : Cpu) : Prop where
  esp : s.esp = a - BitVec.ofNat 32 j
  mem : ∀ b, (b - a).toNat < 2 ^ 32 - k → s.mem b = m b

section Uses
variable {a : BitVec 32} {k j : Nat} {m : Memory}

/-- Before any push nothing is written. -/
lemma Cpu.Uses.start (s : Cpu) (k : Nat) : Uses s.esp k s.mem 0 s :=
  ⟨(BitVec.sub_zero s.esp).symm, fun _ _ => rfl⟩

/-- Writing the top word again. -/
lemma Cpu.Uses.poke (h : Uses a k m j s) (le : 4 ≤ j ∧ j ≤ k ∧ k ≤ 2 ^ 32) (x : BitVec 32) :
    Uses a k m j (s.poke x) := by
  refine ⟨h.esp, fun b lt => (store_far ?_).trans (h.mem b lt)⟩
  rw [h.esp, BitVec.toNat_sub, BitVec.toNat_sub, BitVec.toNat_ofNat]
  rw [BitVec.toNat_sub] at lt
  omega

/-- A push writes one more word. -/
lemma Cpu.Uses.push (h : Uses a k m j s) (le : j + 4 ≤ k ∧ k ≤ 2 ^ 32) (x : BitVec 32) : Uses a k m (j + 4)
    (s.push x) := by
  have below : Uses a k m (j + 4) (s.set .esp (s.esp - 4)) := by
    refine ⟨?_, h.mem⟩
    rw [esp_set, h.esp, BitVec.sub_sub, BitVec.ofNat_add]
    rfl
  have written := below.poke ⟨by omega, le⟩ x
  rw [Cpu.poke, esp_set] at written
  exact written

/-- `pushal` writes eight. -/
lemma Cpu.Uses.pushal (h : Uses a k m j s) (le : j + 32 ≤ k ∧ k ≤ 2 ^ 32) : Uses a k m (j + 32) s.pushal := by
  refine ((((((((h.push ?_ _).push ?_ _).push ?_ _).push ?_ _).push ?_ _).push ?_ _).push ?_ _).push ?_ _)
  all_goals omega

/-- What is written is seen from the stack pointer and memory. -/
lemma Cpu.Uses.of_eq {t : Cpu} (h : Uses a k m j s) (esp : t.esp = s.esp) (mem : t.mem = s.mem) : Uses a k m j t :=
  ⟨esp.trans h.esp, mem ▸ h.mem⟩

end Uses

/-- A word of the stack. -/
lemma Cpu.Stack.word (h : s.Stack xs) {n : Nat} (hx : xs[n]? = some x) : s.word n = x := Words.get h hx

end Stack

end Twcos.Machine
