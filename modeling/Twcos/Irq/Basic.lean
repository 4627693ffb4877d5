import Twcos.Run.Basic

/-!
# Pending interrupts

Model of `i386_irq` and `wait_irq` (`arch/i386/isa.c`). The handler of an interrupt sets a bit of `irq_flag` and then
calls the function in `irq_table`, which may enable interrupts, so that handlers are nested. `wait_irq` sleeps until there
is a bit, looks for the first one, and clears it with interrupts disabled. A step reads or writes `irq_flag` once, and
interrupts come in between two steps wherever they are enabled. Only the idle thread calls `wait_irq`, with interrupts
enabled; what other threads do between its steps makes no difference here.

C → Lean naming: `i386_irq` → `Handler` with its steps `i386Irq`, `wait_irq` → `Wait` with its steps `waitIrq`. What
happened is in `log`: an interrupt is `raised` when it comes in, and `taken` when `wait_irq` clears its bit, or when it
returns 0 without one.
-/

namespace Twcos.Irq
open Twcos.Run

/-- Where a call of `i386_irq` is; in `body` it is behind the line that sets the bit. -/
inductive Handler where
  | load (irq : Nat)
  | store (irq : Nat) (reg : BitVec 32)
  | body

/-- Where `wait_irq` is; in `out` it is not called. -/
inductive Wait where
  | out
  | check
  | hlt
  | halted
  | test (irq : Nat)
  | cli (irq : Nat)
  | load (irq : Nat)
  | store (irq : Nat) (reg : BitVec 32)
  | sti (irq : Nat)

inductive Entry where
  | raised (irq : Nat)
  | taken (irq : Nat)

/-- The variable, the interrupt flag of the processor, the calls of `i386_irq` with the innermost one first, `wait_irq`,
    and what happened, latest first. -/
structure System where
  flag : BitVec 32
  enabled : Bool
  handlers : List Handler
  wait : Wait
  log : List Entry

/-- `1 << irq`. -/
def mask (irq : Nat) : BitVec 32 := 1#32 <<< irq

/-- A step of `i386_irq`. -/
def i386Irq (flag : BitVec 32) : Handler → BitVec 32 × Handler
  | .load irq => (flag, .store irq (flag ||| mask irq))
  | .store _ reg => (reg, .body)
  | .body => (flag, .body)

/-- A step of `wait_irq`. -/
def waitIrq (s : System) : System :=
  match s.wait with
  | .out => s
  | .check => { s with wait := if s.flag = 0 then .hlt else .test 0 }
  -- what comes in before `hlt` does not wake it up
  | .hlt => { s with wait := .halted }
  | .halted => s
  | .test irq =>
    if irq < 16 then { s with wait := if s.flag &&& mask irq = 0 then .test (irq + 1) else .cli irq }
    else { s with wait := .out, log := .taken 0 :: s.log }
  | .cli irq => { s with enabled := false, wait := .load irq }
  | .load irq => { s with wait := .store irq (s.flag &&& ~~~mask irq) }
  | .store irq reg => { s with flag := reg, wait := .sti irq, log := .taken irq :: s.log }
  | .sti _ => { s with enabled := true, wait := .out }

/-- The bodies of handlers enable and disable interrupts. -/
inductive Event where
  | call
  | tick
  | interrupt (irq : Fin 16)
  | allow (enabled : Bool)
  | iret

def step (s : System) : Event → Option System
  | .call =>
    match s.handlers, s.wait with
    | [], .out => some { s with wait := .check }
    | _, _ => none
  | .tick =>
    match s.handlers with
    | [] => some (waitIrq s)
    | h :: handlers => some { s with flag := (i386Irq s.flag h).1, handlers := (i386Irq s.flag h).2 :: handlers }
  | .interrupt irq =>
    if s.enabled then some { s with
      enabled := false
      handlers := .load irq :: s.handlers
      wait := match s.wait with | .halted => .check | w => w
      log := .raised irq :: s.log }
    else none
  | .allow enabled =>
    match s.handlers with
    | .body :: _ => some { s with enabled := enabled }
    | _ => none
  | .iret =>
    match s.handlers with
    | .body :: handlers => some { s with enabled := true, handlers := handlers }
    | _ => none

/-- Nothing has happened yet. -/
def start : System := ⟨0, true, [], .out, []⟩

/-! ### What is outstanding -/

/-- The interrupt was raised, and not taken since. -/
def owed : List Entry → Nat → Bool
  | [], _ => false
  | .raised m :: log, n => m == n || owed log n
  | .taken m :: log, n => m != n && owed log n

/-- Only what is outstanding was ever taken. -/
def Proper : List Entry → Prop
  | [] => True
  | .raised _ :: log => Proper log
  | .taken n :: log => owed log n = true ∧ Proper log

/-- The call of `i386_irq` is yet to set this bit. -/
def Handler.enters : Handler → Nat → Bool
  | .load m, n => m == n
  | .store m _, n => m == n
  | .body, _ => false

/-- The innermost one of the calls is yet to set this bit. -/
def entering : List Handler → Nat → Bool
  | [], _ => false
  | h :: _, n => h.enters n

/-! ### Bits -/

section Bits
variable {flag : BitVec 32} {m n : Nat}

/-- The mask of a line has one bit. -/
lemma getLsbD_mask (lt : m < 16) (n : Nat) : (mask m).getLsbD n = (m == n) := by
  rw [mask, BitVec.getLsbD_shiftLeft, BitVec.getLsbD_one]
  by_cases e : m = n
  · subst e
    simp
    omega
  · by_cases le : n < m
    · simp [e, le]
    · have ne : n - m ≠ 0 := by omega
      simp [e, ne]

/-- Setting the bit of a line. -/
lemma getLsbD_set (lt : m < 16) (n : Nat) : (flag ||| mask m).getLsbD n = (flag.getLsbD n || m == n) := by
  rw [BitVec.getLsbD_or, getLsbD_mask lt]

/-- Clearing the bit of a line. -/
lemma getLsbD_clear (lt : m < 16) (n : Nat) : (flag &&& ~~~mask m).getLsbD n = (m != n && flag.getLsbD n) := by
  rw [BitVec.getLsbD_and, BitVec.getLsbD_not, getLsbD_mask lt]
  by_cases le : n < 32
  · rw [decide_eq_true le, Bool.true_and, Bool.and_comm]
    rfl
  · rw [BitVec.getLsbD_of_ge flag n (Nat.le_of_not_lt le), Bool.false_and, Bool.and_false]

/-- `irq_flag & mask`. -/
lemma and_mask (lt : m < 16) : flag &&& mask m = 0 ↔ flag.getLsbD m = false := by
  have bit : (flag &&& mask m).getLsbD m = flag.getLsbD m := by
    rw [BitVec.getLsbD_and, getLsbD_mask lt, beq_self_eq_true, Bool.and_true]
  constructor
  · intro zero
    rw [← bit, zero]
    exact BitVec.getLsbD_zero
  · intro off
    apply BitVec.eq_of_getLsbD_eq
    intro i _
    rw [BitVec.getLsbD_and, getLsbD_mask lt]
    by_cases e : m = i
    · rw [← e, off]
      exact BitVec.getLsbD_zero.symm
    · rw [beq_false_of_ne e, Bool.and_false]
      exact BitVec.getLsbD_zero.symm

/-- A word that is not zero has a bit. -/
lemma exists_bit (ne : flag ≠ 0) : ∃ n, flag.getLsbD n = true := by
  by_contra none
  refine ne (BitVec.eq_of_getLsbD_eq fun i _ => ?_)
  have off : flag.getLsbD i = false := eq_false_of_ne_true fun on => none ⟨i, on⟩
  exact off.trans BitVec.getLsbD_zero.symm

end Bits

/-! ### Steps -/

/-- What is known where a handler is. -/
def Handler.Stands (flag : BitVec 32) (enabled : Bool) : Handler → Prop
  | .load _ => enabled = false
  | .store m reg => enabled = false ∧ reg = flag ||| mask m
  | .body => True

/-- What is known where `wait_irq` is. -/
def System.Stands (s : System) : Prop :=
  match s.wait with
  | .test k => ∃ n, k ≤ n ∧ s.flag.getLsbD n = true
  | .cli k => s.flag.getLsbD k = true
  | .load k => s.handlers = [] ∧ s.enabled = false ∧ s.flag.getLsbD k = true
  | .store k reg => s.handlers = [] ∧ s.enabled = false ∧ s.flag.getLsbD k = true ∧ reg = s.flag &&& ~~~mask k
  | .sti _ => s.handlers = [] ∧ s.enabled = false
  | _ => True

/-- The invariant: `irq_flag` has what is outstanding, but for what is just coming in. -/
structure Inv (s : System) : Prop where
  bits : ∀ n, (s.flag.getLsbD n || entering s.handlers n) = owed s.log n
  small : ∀ n, owed s.log n = true → n < 16
  proper : Proper s.log
  inner : ∀ h ∈ s.handlers.head?, h.Stands s.flag s.enabled
  outer : ∀ h ∈ s.handlers.tail, h = .body
  wait : s.Stands

section Steps
variable {s s' : System} {n : Nat} {handlers : List Handler}

/-- No handler is about to be entered if all are in their bodies. -/
lemma entering_bodies (all : ∀ h ∈ handlers, h = .body) (n : Nat) : entering handlers n = false := by
  cases handlers with
  | nil => rfl
  | cons h handlers =>
    rw [all h List.mem_cons_self]
    rfl

/-- A bit stands for an interrupt that is owed. -/
lemma Inv.owed_of_bit (h : Inv s) (bit : s.flag.getLsbD n = true) : owed s.log n = true := by
  rw [← h.bits, bit, Bool.true_or]

/-- The bits are those of the sixteen lines. -/
lemma Inv.small_of_bit (h : Inv s) (bit : s.flag.getLsbD n = true) : n < 16 := h.small n (h.owed_of_bit bit)

/-- While `wait_irq` clears a bit there are no handlers, and interrupts are disabled. -/
lemma System.Stands.during (h : s.Stands) (busy : s.handlers ≠ [] ∨ s.enabled = true) (same : s'.wait = s.wait)
    (more : ∀ n, s.flag.getLsbD n = true → s'.flag.getLsbD n = true) : s'.Stands := by
  have free : ¬(s.handlers = [] ∧ s.enabled = false) := fun both =>
    busy.elim (fun ne => ne both.1) fun on => absurd (on.symm.trans both.2) (by decide)
  rw [Stands] at h ⊢
  rw [same]
  cases wait : s.wait with
  | test k =>
    rw [wait] at h
    obtain ⟨n, le, bit⟩ := h
    exact ⟨n, le, more n bit⟩
  | cli k =>
    rw [wait] at h
    exact more k h
  | load k =>
    rw [wait] at h
    exact absurd ⟨h.1, h.2.1⟩ free
  | store k reg =>
    rw [wait] at h
    exact absurd ⟨h.1, h.2.1⟩ free
  | sti k =>
    rw [wait] at h
    exact absurd h free
  | _ => trivial

/-- Interrupts are disabled while a handler sets its bit. -/
lemma Inv.bodies (h : Inv s) (enabled : s.enabled = true) : ∀ g ∈ s.handlers, g = .body := by
  have inner := h.inner
  have outer := h.outer
  rw [enabled] at inner
  cases handlers : s.handlers with
  | nil => exact fun g mem => absurd mem List.not_mem_nil
  | cons g handlers' =>
    rw [handlers] at inner outer
    refine List.forall_mem_cons.mpr ⟨?_, outer⟩
    have stands := inner g rfl
    cases g with
    | load m => exact absurd (Eq.symm stands) Bool.false_ne_true
    | store m reg => exact absurd stands.1.symm Bool.false_ne_true
    | body => rfl

/-- A step of `wait_irq`. -/
lemma Inv.waitIrq (h : Inv s) (none : s.handlers = []) : Inv (waitIrq s) := by
  obtain ⟨flag, enabled, handlers, wait, log⟩ := s
  subst none
  have bits : ∀ n, flag.getLsbD n = owed log n := fun n => (Bool.or_false _).symm.trans (h.bits n)
  have inner : ∀ {flag enabled}, ∀ g ∈ ([] : List Handler).head?, g.Stands flag enabled := fun g mem =>
    absurd mem (by simp)
  have outer := h.outer
  have stands := h.wait
  cases wait with
  | out => exact h
  | check =>
    refine ⟨h.bits, h.small, h.proper, inner, outer, ?_⟩
    simp only [Irq.waitIrq]
    split
    · trivial
    · next ne =>
      obtain ⟨n, bit⟩ := exists_bit ne
      exact ⟨n, Nat.zero_le n, bit⟩
  | hlt => exact ⟨h.bits, h.small, h.proper, inner, outer, trivial⟩
  | halted => exact h
  | test k =>
    obtain ⟨n, le, bit⟩ := stands
    have lt : k < 16 := Nat.lt_of_le_of_lt le (h.small_of_bit bit)
    simp only [Irq.waitIrq, if_pos lt]
    refine ⟨h.bits, h.small, h.proper, inner, outer, ?_⟩
    split
    · next off =>
      have ne : k ≠ n := fun e => by
        have off := (and_mask lt).mp off
        rw [e, bit] at off
        exact absurd off (by decide)
      exact ⟨n, by omega, bit⟩
    · next on => exact eq_true_of_ne_false fun off => on ((and_mask lt).mpr off)
  | cli k => exact ⟨h.bits, h.small, h.proper, inner, outer, rfl, rfl, stands⟩
  | load k => exact ⟨h.bits, h.small, h.proper, inner, outer, rfl, stands.2.1, stands.2.2, rfl⟩
  | store k reg =>
    obtain ⟨-, off, bit, e⟩ := stands
    have e : reg = flag &&& ~~~mask k := e
    subst e
    have lt : k < 16 := h.small_of_bit bit
    refine ⟨fun n => ?_, fun n owes => ?_, ⟨h.owed_of_bit bit, h.proper⟩, inner, outer, rfl, off⟩
    · simp only [Irq.waitIrq, entering, owed, Bool.or_false]
      rw [getLsbD_clear lt, bits]
    · rw [Irq.waitIrq, owed, Bool.and_eq_true] at owes
      exact h.small n owes.2
  | sti k => exact ⟨h.bits, h.small, h.proper, inner, outer, trivial⟩

/-- A step of a handler. -/
lemma Inv.i386Irq (h : Inv s) {g : Handler} (some : s.handlers = g :: handlers) :
    Inv { s with flag := (i386Irq s.flag g).1, handlers := (i386Irq s.flag g).2 :: handlers } := by
  obtain ⟨flag, enabled, handlers', wait, log⟩ := s
  subst some
  have stands := h.inner g rfl
  have busy : g :: handlers ≠ [] ∨ enabled = true := .inl (List.cons_ne_nil _ _)
  cases g with
  | load m =>
    refine ⟨h.bits, h.small, h.proper, fun g mem => ?_, h.outer, h.wait.during busy rfl fun _ bit => bit⟩
    cases mem
    exact ⟨stands, rfl⟩
  | store m reg =>
    obtain ⟨off, e⟩ := stands
    have e : reg = flag ||| mask m := e
    subst e
    have lt : m < 16 := h.small m (by rw [← h.bits, entering, Handler.enters, beq_self_eq_true, Bool.or_true])
    refine ⟨fun n => ?_, h.small, h.proper, fun g mem => ?_, h.outer, h.wait.during busy rfl fun n bit => ?_⟩
    · rw [← h.bits]
      simp only [Irq.i386Irq, entering, Handler.enters, getLsbD_set lt, Bool.or_false]
    · cases mem
      trivial
    · exact (getLsbD_set lt n).trans (by rw [bit, Bool.true_or])
  | body => exact h

/-- A step keeps the invariant. -/
lemma Inv.step (h : Inv s) (e : Event) (run : step s e = some s') : Inv s' := by
  obtain ⟨flag, enabled, handlers, wait, log⟩ := s
  cases e with
  | call =>
    cases handlers with
    | cons g handlers => cases run
    | nil =>
      cases wait with
      | out =>
        cases run
        exact ⟨h.bits, h.small, h.proper, h.inner, h.outer, trivial⟩
      | _ => cases run
  | tick =>
    cases handlers with
    | nil =>
      cases run
      exact h.waitIrq rfl
    | cons g handlers =>
      cases run
      exact h.i386Irq rfl
  | interrupt irq =>
    obtain ⟨on, ⟨⟩⟩ := Option.ite_none_right_eq_some.mp run
    have bodies := h.bodies on
    have off := entering_bodies bodies
    refine ⟨fun n => ?_, fun n owes => ?_, h.proper, fun g mem => ?_, bodies, ?_⟩
    · have bits := h.bits n
      rw [off, Bool.or_false] at bits
      rw [entering, Handler.enters, owed, ← bits, Bool.or_comm]
    · rw [owed, Bool.or_eq_true] at owes
      rcases owes with e | owes
      · exact eq_of_beq e ▸ irq.isLt
      · exact h.small n owes
    · cases mem
      rfl
    · cases wait with
      | halted => trivial
      | _ => exact h.wait.during (.inr on) rfl fun _ bit => bit
  | allow on =>
    cases handlers with
    | nil => cases run
    | cons g handlers =>
      cases g with
      | body =>
        cases run
        refine ⟨h.bits, h.small, h.proper, fun g mem => ?_, h.outer,
          h.wait.during (.inl (List.cons_ne_nil _ _)) rfl fun _ bit => bit⟩
        cases mem
        trivial
      | _ => cases run
  | iret =>
    cases handlers with
    | nil => cases run
    | cons g handlers =>
      cases g with
      | body =>
        cases run
        have bodies : ∀ g ∈ handlers, g = .body := h.outer
        refine ⟨fun n => ?_, h.small, h.proper, fun g mem => ?_, fun g mem => bodies g (List.mem_of_mem_tail mem),
          h.wait.during (.inl (List.cons_ne_nil _ _)) rfl fun _ bit => bit⟩
        · rw [entering_bodies bodies, ← h.bits]
          rfl
        · rw [bodies g (List.mem_of_mem_head? mem)]
          trivial
      | _ => cases run

/-- The loop over the bits, when nothing comes in. -/
lemma exec_test (enabled : Bool) (log : List Entry) {flag : BitVec 32} {k d : Nat} (lt : k + d < 16)
    (off : ∀ m, k ≤ m → m < k + d → flag.getLsbD m = false) (on : flag.getLsbD (k + d) = true) :
    exec step ⟨flag, enabled, [], .test k, log⟩ (List.replicate (d + 5) .tick) =
      some ⟨flag &&& ~~~mask (k + d), true, [], .out, .taken (k + d) :: log⟩ := by
  induction d generalizing k with
  | zero =>
    rw [Nat.add_zero] at *
    have bit : ¬flag &&& mask k = 0 := fun none => absurd (on.symm.trans ((and_mask lt).mp none)) (by decide)
    have found : Irq.waitIrq ⟨flag, enabled, [], .test k, log⟩ = ⟨flag, enabled, [], .cli k, log⟩ := by
      simp only [Irq.waitIrq, if_pos lt, if_neg bit]
    rw [List.replicate_succ, exec, Irq.step, found, Option.bind_some]
    rfl
  | succ d ih =>
    have less : k < 16 := by omega
    have none : flag &&& mask k = 0 := (and_mask less).mpr (off k (Nat.le_refl k) (by omega))
    have next : Irq.waitIrq ⟨flag, enabled, [], .test k, log⟩ = ⟨flag, enabled, [], .test (k + 1), log⟩ := by
      simp only [Irq.waitIrq, if_pos less, if_pos none]
    have e : k + (d + 1) = k + 1 + d := by omega
    rw [e] at lt off on ⊢
    have rest := ih lt (fun m le => off m (Nat.le_of_succ_le le)) on
    rw [Nat.add_right_comm, List.replicate_succ, exec, Irq.step, next, Option.bind_some, rest]

end Steps

/-- Whatever interrupts come in and wherever: `irq_flag` has those that were raised and not taken since, none is taken
    that is not outstanding, and `wait_irq` does not come to the end of its loop; if nothing else comes in, it takes the
    first one that is outstanding. -/
theorem irqs_taken (events : List Event) : Always step (fun s =>
    Proper s.log ∧ ((∀ h ∈ s.handlers, h = .body) → ∀ n, s.flag.getLsbD n = owed s.log n) ∧ s.wait ≠ .test 16 ∧
      ∀ n, s.handlers = [] → s.wait = .check → owed s.log n = true → (∀ m < n, owed s.log m = false) →
        exec step s (List.replicate (n + 6) .tick) =
          some ⟨s.flag &&& ~~~mask n, true, [], .out, .taken n :: s.log⟩) start events := by
  have initial : Inv start := by
    refine ⟨fun n => ?_, fun n owes => absurd owes Bool.false_ne_true, trivial, fun h mem => absurd mem (by simp [start]),
      fun h mem => absurd mem List.not_mem_nil, trivial⟩
    exact (Bool.or_false _).trans BitVec.getLsbD_zero
  refine (always_of_step (fun s e s' (h : Inv s) run => h.step e run) initial events).imp fun s h => ?_
  refine ⟨h.proper, fun bodies n => ?_, fun e => ?_, fun n none check owes least => ?_⟩
  · rw [← h.bits, entering_bodies bodies, Bool.or_false]
  · have stands := h.wait
    rw [System.Stands, e] at stands
    obtain ⟨n, le, bit⟩ := stands
    exact absurd (h.small_of_bit bit) (Nat.not_lt.mpr le)
  · have bits : ∀ n, s.flag.getLsbD n = owed s.log n := fun n => by
      rw [← h.bits, none]
      exact (Bool.or_false _).symm
    obtain ⟨flag, enabled, handlers, wait, log⟩ := s
    cases none
    cases check
    have lt := h.small n owes
    have some : ¬flag = 0 := fun zero => by
      have bit := (bits n).trans owes
      rw [show flag = 0#32 from zero, BitVec.getLsbD_zero] at bit
      exact absurd bit (by decide)
    have first : waitIrq ⟨flag, enabled, [], .check, log⟩ = ⟨flag, enabled, [], .test 0, log⟩ := by
      simp only [waitIrq, if_neg some]
    have rest := exec_test enabled log (k := 0) (d := n) (by omega)
      (fun m _ less => (bits m).trans (least m (by omega))) (by rw [Nat.zero_add]; exact (bits n).trans owes)
    rw [Nat.zero_add] at rest
    rw [List.replicate_succ, exec, step, first, Option.bind_some, rest]

end Twcos.Irq
