import Twcos.Word.Basic
import Twcos.Context.Setjmp

/-!
# Threads on their stacks

Model of `arch_get_thread`, `arch_thread_fork` and `arch_thread_switch` (`arch/i386/i386.c`) on the machine: a `thread_t`
lies at its address in memory, its stack is a page whose first word leads back to it.

C → Lean naming: `arch_get_thread`, `arch_thread_fork`, `arch_thread_switch` → `archGetThread`, `archThreadFork`,
`archThreadSwitch`; `ARCH_PTRI_BASE`, `ARCH_PTRI_OFFSET` → `base`, `offset`; the fields `context.stack`, `context.state`
and `state` of a thread lie at `stackAt`, `jmpBufAt` and `stateAt`. `page_heap_alloc` is left to the caller, who gives
the page. How the compiler lays out the frames of these functions is left open: `esp` is the one of the calls of
`setjmp` and `longjmp`, and what runs before and after is taken for code of the thread.
-/

namespace Twcos.Context
open Twcos.Machine

def ARCH_PAGE_SIZE : Nat := 4096

/-- `ARCH_PTRI_BASE`. -/
def base (p : BitVec 32) : BitVec 32 := p &&& ~~~BitVec.ofNat 32 (ARCH_PAGE_SIZE - 1)

/-- `ARCH_PTRI_OFFSET`. -/
def offset (p : BitVec 32) : BitVec 32 := p &&& BitVec.ofNat 32 (ARCH_PAGE_SIZE - 1)

/-! ### `thread_t` -/

def TLS_MAX : Nat := 32

/-- `&thread->tls[i]`. -/
def tlsAt (thread : BitVec 32) (i : Nat) : BitVec 32 := thread + BitVec.ofNat 32 (4 * i)

/-- `&thread->context.stack`. -/
def stackAt (thread : BitVec 32) : BitVec 32 := thread + BitVec.ofNat 32 128

/-- `thread->context.state`. -/
def jmpBufAt (thread : BitVec 32) : BitVec 32 := thread + BitVec.ofNat 32 132

/-- `&thread->state`. -/
def stateAt (thread : BitVec 32) : BitVec 32 := thread + BitVec.ofNat 32 160

/-- `sizeof(thread_t)`. -/
def sizeofThread : Nat := 180

def THREAD_RUNNABLE : BitVec 32 := 1

def THREAD_RUNNING : BitVec 32 := 2

/-! ### The functions -/

/-- `arch_get_thread`, called with room on the stack for its variable. -/
def archGetThread (s : Cpu) : BitVec 32 := load s.mem (base s.esp)

/-- Nothing else is called. -/
def noCallee (_ : Cpu) : Option Cpu := none

/-- `arch_thread_switch`. The call of `setjmp` returns to `back`; `tss1` is the address of `tss[1]`. -/
def archThreadSwitch (tss1 back thread : BitVec 32) (s : Cpu) : Option Cpu :=
  let old := archGetThread s
  if old = thread then some { s with mem := store s.mem (stateAt thread) THREAD_RUNNING }
  else
    let m := if load s.mem (stateAt old) = THREAD_RUNNING then store s.mem (stateAt old) THREAD_RUNNABLE else s.mem
    (run noCallee setjmp ((Cpu.push { s with mem := m } (jmpBufAt old)).push back)).bind fun s =>
      if s.reg .eax = 0 then
        let m := if load s.mem (stateAt thread) = THREAD_RUNNABLE then store s.mem (stateAt thread) THREAD_RUNNING
          else s.mem
        let m := store m tss1 (load m (stackAt thread) + BitVec.ofNat 32 ARCH_PAGE_SIZE)
        run noCallee longjmp (((Cpu.push { s with mem := m } 1).push (jmpBufAt thread)).push 0)
      else some s

/-- `memcpy`. -/
def memcpy (m : Memory) (dest src : BitVec 32) (n : Nat) : Memory :=
  (List.range n).foldl (fun m i => Function.update m (dest + BitVec.ofNat 32 i) (m (src + BitVec.ofNat 32 i))) m

/-- A turn of the loop that copies the stack. -/
def copyTurn (spage dpage : BitVec 32) (m : Memory) (i : Nat) : Memory :=
  let x := load m (spage + BitVec.ofNat 32 (4 * i))
  if base x = base spage then store m (dpage + BitVec.ofNat 32 (4 * i)) (dpage ||| offset x)
  else store m (dpage + BitVec.ofNat 32 (4 * i)) x

/-- A turn of the loops that adjust the context and the TLS. -/
def adjustTurn (spage dpage a : BitVec 32) (m : Memory) (i : Nat) : Memory :=
  let x := load m (a + BitVec.ofNat 32 (4 * i))
  if base x = base spage then store m (a + BitVec.ofNat 32 (4 * i)) (dpage ||| offset x) else m

/-- `arch_thread_fork`, with the page that `page_heap_alloc` gave: what the parent goes on with. -/
def archThreadFork (back dest page : BitVec 32) (s : Cpu) : Option Cpu :=
  let source := archGetThread s
  let m := memcpy s.mem dest source sizeofThread
  let m := store m (stackAt dest) page
  let dpage := base page
  let spage := base (load m (stackAt source))
  let m := store m dpage dest
  let m := (List.range' 1 (ARCH_PAGE_SIZE / 4 - 1)).foldl (copyTurn spage dpage) m
  (run noCallee setjmp ((Cpu.push { s with mem := m } (jmpBufAt dest)).push back)).map fun s =>
    let m := (List.range 6).foldl (adjustTurn spage dpage (jmpBufAt dest)) s.mem
    let m := (List.range TLS_MAX).foldl (adjustTurn spage dpage dest) m
    -- the parent returns 1; the child will return from `setjmp` with another value, and then return 0
    { s with mem := m }.set .eax 1

/-! ### Threads in memory -/

/-- Where a thread and its stack lie. -/
structure Thread where
  addr : BitVec 32
  page : BitVec 32

/-- The bytes of a thread and of its stack. -/
def Thread.Has (t : Thread) (x : BitVec 32) : Prop := Inside t.addr sizeofThread x ∨ Inside t.page ARCH_PAGE_SIZE x

/-- Threads that have no byte in common. -/
structure Separate (t u : Thread) : Prop where
  structs : Apart t.addr sizeofThread u.addr sizeofThread
  pages : Apart t.page ARCH_PAGE_SIZE u.page ARCH_PAGE_SIZE
  left : Apart t.addr sizeofThread u.page ARCH_PAGE_SIZE
  right : Apart t.page ARCH_PAGE_SIZE u.addr sizeofThread

/-- A stack is a page, and neither the thread nor `tss[1]` lies in it. -/
structure Thread.Valid (tss1 : BitVec 32) (t : Thread) : Prop where
  aligned : base t.page = t.page
  own : Apart t.addr sizeofThread t.page ARCH_PAGE_SIZE
  struct_tss : Apart t.addr sizeofThread tss1 4
  page_tss : Apart t.page ARCH_PAGE_SIZE tss1 4

instance Separate.decidable (t u : Thread) : Decidable (Separate t u) :=
  decidable_of_iff (_ ∧ _ ∧ _ ∧ _) ⟨fun h => ⟨h.1, h.2.1, h.2.2.1, h.2.2.2⟩, fun h => ⟨h.structs, h.pages, h.left,
    h.right⟩⟩

instance Thread.Valid.decidable (tss1 : BitVec 32) (t : Thread) : Decidable (t.Valid tss1) :=
  decidable_of_iff (_ ∧ _ ∧ _ ∧ _)
    ⟨fun h => ⟨h.1, h.2.1, h.2.2.1, h.2.2.2⟩, fun h => ⟨h.aligned, h.own, h.struct_tss, h.page_tss⟩⟩

/-- What belongs to a thread while it does not run: its `jmp_buf`, the words of its stack, and its TLS. -/
structure Frozen where
  jmpBuf : JmpBuf
  stack : Nat → BitVec 32
  tls : Nat → BitVec 32

/-- What a thread leaves behind when it calls `setjmp`. -/
def frozenOf (back : BitVec 32) (t : Thread) (s : Cpu) : Frozen where
  jmpBuf := ⟨back, s.esp - 8, s.reg .ebp, s.reg .ebx, s.reg .esi, s.reg .edi⟩
  stack i := load s.mem (t.page + BitVec.ofNat 32 (4 * i))
  tls i := load s.mem (tlsAt t.addr i)

/-- A pointer into one stack becomes one into another. -/
def relocate (spage dpage x : BitVec 32) : BitVec 32 := if base x = spage then dpage ||| offset x else x

/-- Everything moved to another stack. -/
def Frozen.relocate (f : Frozen) (spage dpage : BitVec 32) : Frozen :=
  let r := Context.relocate spage dpage
  ⟨⟨r f.jmpBuf.eip, r f.jmpBuf.esp, r f.jmpBuf.ebp, r f.jmpBuf.ebx, r f.jmpBuf.esi, r f.jmpBuf.edi⟩,
    fun i => r (f.stack i),
    fun i => r (f.tls i)⟩

/-- The memory holds what belongs to the thread; of the stack, the words above the argument of `setjmp`. -/
structure Holds (m : Memory) (t : Thread) (f : Frozen) : Prop where
  jmpBuf : Words m (jmpBufAt t.addr) f.jmpBuf.words
  room : 12 ≤ (f.jmpBuf.esp - t.page).toNat ∧ (f.jmpBuf.esp - t.page).toNat + 8 < ARCH_PAGE_SIZE
  stack : ∀ i < ARCH_PAGE_SIZE / 4, (f.jmpBuf.esp - t.page).toNat + 8 ≤ 4 * i →
    load m (t.page + BitVec.ofNat 32 (4 * i)) = f.stack i
  tls : ∀ i < TLS_MAX, load m (tlsAt t.addr i) = f.tls i

/-! ### Runs -/

/-- The processor, the threads that there are, the one that runs, and for the others what they left behind. -/
structure System where
  cpu : Cpu
  threads : List Thread
  current : Thread
  frozen : BitVec 32 → Frozen

/-- The code of the running thread writes bytes and changes registers; it switches to a thread; it makes another one. -/
inductive Event where
  | work (writes : List (BitVec 32 × BitVec 8)) (reg : Reg → BitVec 32) (eip eflags : BitVec 32)
  | switch (back : BitVec 32) (i : Nat)
  | fork (back : BitVec 32) (t : Thread)

/-- Nobody writes to where stacks lie and lead to, or to what belongs to threads that do not run. -/
def System.allows (s : System) (x : BitVec 32) : Bool := s.threads.all fun t =>
  decide (¬Inside (stackAt t.addr) 4 x ∧ ¬Inside t.page 4 x ∧
    (t.addr = s.current.addr ∨ ¬Inside t.addr 156 x ∧ ¬Inside t.page ARCH_PAGE_SIZE x))

/-- The stack has room for the calls of `setjmp` and `longjmp`. -/
def System.Roomy (s : System) : Prop := 20 ≤ (s.cpu.esp - s.current.page).toNat

instance System.Roomy.decidable (s : System) : Decidable s.Roomy := inferInstanceAs (Decidable (_ ≤ _))

def step (tss1 : BitVec 32) (s : System) : Event → Option System
  | .work writes reg eip eflags =>
    if writes.all (fun w => s.allows w.1) && decide (Inside s.current.page ARCH_PAGE_SIZE (reg .esp)) then
      some { s with cpu := { s.cpu with
        reg := reg
        eip := eip
        eflags := eflags
        mem := writes.foldl (fun m w => Function.update m w.1 w.2) s.cpu.mem } }
    else none
  | .switch back i => (s.threads[i]?).bind fun t =>
    if s.Roomy then
      (archThreadSwitch tss1 back t.addr s.cpu).map fun cpu => { s with
        cpu := cpu
        current := t
        frozen := Function.update s.frozen s.current.addr (frozenOf back s.current s.cpu) }
    else none
  | .fork back t =>
    if s.Roomy ∧ t.Valid tss1 ∧ s.threads.all (fun u => decide (Separate t u)) then
      (archThreadFork back t.addr t.page s.cpu).map fun cpu => { s with
        cpu := cpu
        threads := t :: s.threads
        frozen := Function.update s.frozen t.addr
          ((frozenOf back s.current s.cpu).relocate s.current.page t.page) }
    else none

end Twcos.Context
