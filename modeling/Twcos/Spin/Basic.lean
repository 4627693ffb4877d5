import Twcos.Run.Basic

/-!
# Spin locks

Model of the spin locks of `arch/i386/i386.c` (which `kernel/sync.c` hands on), of `cli` and `sti` under them, and of
`arch_atomic_postinc`. There is one processor. The functions are lists of single reads and writes of variables, and
wherever interrupts are enabled one may come in between two of them: a handler then runs on top of the interrupted code,
with interrupts disabled until it enables them or returns, and uses the same functions. The current thread may give
the processor to another one when it is in none of the functions. What the code does between its calls makes no difference,
so the calls come in any order.

The code is to keep to a discipline (`Disciplined`): it does not take a lock that it holds, gives back and enables only what it
has taken and disabled, gives everything back before it returns from an interrupt or gives the processor away, and does not
disable interrupts more often than an `int` can count.

C → Lean naming: `cli_level` → `Cpu.level`; `cli`, `sti`, `arch_spin_trylock`, `arch_spin_lock`, `arch_spin_unlock`,
`arch_atomic_postinc` → `cli`, `sti`, `archSpinTrylock`, `archSpinLock`, `archSpinUnlock`, `archAtomicPostinc`, the steps of
the functions. What a frame has disabled interrupts for is `Frame.held`: locks, and `none` for a call of `cli`. It counts
up `cli_level` once for each of them. An `int` wraps around.
-/

namespace Twcos.Spin
open Twcos.Run Function

/-- The variables in memory. -/
inductive Var (L C : Type) where
  | level
  | lock (p : L)
  | counter (p : C)

/-- The steps of the functions. -/
inductive Op (L C : Type) where
  | cli
  | stiIfZero
  | load (a : Var L C)
  | inc
  | dec
  | set (n : BitVec 32)
  | store (a : Var L C)
  | test (p : L) (again : Bool)
  | hold (x : Option L)
  | release (x : Option L)
  | result (p : C)

section Code
variable {L C : Type}

/-- `cli`. -/
def cli : List (Op L C) := [.cli, .load .level, .inc, .store .level]

/-- `sti`. -/
def sti : List (Op L C) := [.load .level, .dec, .store .level, .stiIfZero]

/-- `arch_spin_trylock`, which is called again if it fails or not. -/
def trySpin (p : L) (again : Bool) : List (Op L C) :=
  cli ++ [.load (.lock p), .test p again, .set 1, .store (.lock p), .hold (some p)]

/-- `arch_spin_trylock`. -/
def archSpinTrylock (p : L) : List (Op L C) := trySpin p false

/-- `arch_spin_lock`. -/
def archSpinLock (p : L) : List (Op L C) := trySpin p true

/-- `arch_spin_unlock`. -/
def archSpinUnlock (p : L) : List (Op L C) := [.release (some p), .set 0, .store (.lock p)] ++ sti

/-- `arch_atomic_postinc`. -/
def archAtomicPostinc (p : C) : List (Op L C) :=
  cli ++ [.load (.counter p), .inc, .store (.counter p), .result p] ++ sti

end Code

inductive Call (L C : Type) where
  | trylock (p : L)
  | lock (p : L)
  | unlock (p : L)
  | postinc (p : C)
  | disable
  | enable

def Call.code {L C : Type} : Call L C → List (Op L C)
  | .trylock p => archSpinTrylock p
  | .lock p => archSpinLock p
  | .unlock p => archSpinUnlock p
  | .postinc p => archAtomicPostinc p
  | .disable => cli ++ [.hold none]
  | .enable => .release none :: sti

/-- The interrupt flag of the processor, the variables, and the results of `arch_atomic_postinc` so far, latest first. -/
structure Cpu (L C : Type) where
  enabled : Bool
  level : BitVec 32
  lock : L → BitVec 32
  counter : C → BitVec 32
  results : C → List (BitVec 32)

/-- Code that runs or was interrupted: what is left of the call that it is in, a register, and what it has disabled
    interrupts for. -/
structure Frame (L C : Type) where
  code : List (Op L C)
  reg : BitVec 32
  held : List (Option L)

/-- The frames of the threads: that of the running code, those below it, and those of the other threads. -/
structure System (T L C : Type) where
  cpu : Cpu L C
  top : Frame L C
  below : List (Frame L C)
  current : T
  others : T → Frame L C × List (Frame L C)

section Step
variable {T L C : Type} [DecidableEq T] [DecidableEq L] [DecidableEq C]

/-- Only code that does not hold a lock takes it, and it gives back what it holds. -/
def Call.Fits (held : List (Option L)) : Call L C → Prop
  | .trylock p => some p ∉ held
  | .lock p => some p ∉ held
  | .unlock p => some p ∈ held
  | .postinc _ => True
  | .disable => True
  | .enable => none ∈ held

instance Call.Fits.decidable (held : List (Option L)) : (c : Call L C) → Decidable (c.Fits held)
  | .trylock _ => instDecidableNot
  | .lock _ => instDecidableNot
  | .unlock p => List.instDecidableMemOfLawfulBEq (some p) held
  | .postinc _ => isTrue trivial
  | .disable => isTrue trivial
  | .enable => List.instDecidableMemOfLawfulBEq none held

def Cpu.read (m : Cpu L C) : Var L C → BitVec 32
  | .level => m.level
  | .lock p => m.lock p
  | .counter p => m.counter p

def Cpu.write (m : Cpu L C) (n : BitVec 32) : Var L C → Cpu L C
  | .level => { m with level := n }
  | .lock p => { m with lock := update m.lock p n }
  | .counter p => { m with counter := update m.counter p n }

/-- The step on the variables, the register and what is held. -/
def Op.run (m : Cpu L C) (reg : BitVec 32) (held : List (Option L)) : Op L C → Cpu L C × BitVec 32 × List (Option L)
  | .cli => ({ m with enabled := false }, reg, held)
  | .stiIfZero => (if reg = 0 then { m with enabled := true } else m, reg, held)
  | .load a => (m, m.read a, held)
  | .inc => (m, reg + 1, held)
  | .dec => (m, reg - 1, held)
  | .set n => (m, n, held)
  | .store a => (m.write reg a, reg, held)
  | .test _ _ => (m, reg, held)
  | .hold x => (m, reg, x :: held)
  | .release x => (m, reg, held.erase x)
  | .result p => ({ m with results := update m.results p ((reg - 1) :: m.results p) }, reg, held)

/-- The steps that come next: where the lock is taken, interrupts are enabled and it is tried again. -/
def Op.next (reg : BitVec 32) (rest : List (Op L C)) : Op L C → List (Op L C)
  | .test p again => if reg = 0 then rest else sti ++ if again then archSpinLock p else []
  | _ => rest

inductive Event (T L C : Type) where
  | call (c : Call L C)
  | tick
  | interrupt
  | iret
  | switch (thread : T)

def idle : Frame L C := ⟨[], 0, []⟩

def step (s : System T L C) : Event T L C → Option (System T L C)
  | .call c =>
    if s.top.code.isEmpty then some { s with top := { s.top with code := c.code } } else none
  | .tick =>
    match s.top.code with
    | [] => none
    | op :: rest =>
      let (cpu, reg, held) := op.run s.cpu s.top.reg s.top.held
      some { s with cpu := cpu, top := ⟨op.next s.top.reg rest, reg, held⟩ }
  | .interrupt =>
    -- the processor saves the flag and clears it
    if s.cpu.enabled then some { s with cpu := { s.cpu with enabled := false }, top := idle, below := s.top :: s.below }
    else none
  | .iret =>
    match s.below with
    | [] => none
    | f :: below =>
      if s.top.code.isEmpty then
        some { s with cpu := { s.cpu with enabled := true }, top := f, below := below }
      else none
  | .switch thread =>
    if s.top.code.isEmpty then
      let others := update s.others s.current (s.top, s.below)
      some { s with top := (others thread).1, below := (others thread).2, current := thread, others := others }
    else none

/-- No thread has called one of the functions yet. -/
def start (enabled : Bool) (counter : C → BitVec 32) (thread : T) : System T L C :=
  ⟨⟨enabled, 0, fun _ => 0, counter, fun _ => []⟩, idle, [], thread, fun _ => (idle, [])⟩

/-- Code gives back what it has taken, in time and only that, does not take a lock twice, and does not nest too deep. -/
def Disciplined (s : System T L C) : Event T L C → Prop
  | .call c => c.Fits s.top.held ∧ s.top.held.length < 2 ^ 31 - 1
  | .iret => s.top.held = []
  | .switch _ => s.top.held = []
  | _ => True

/-- Interrupted code and other threads hold nothing, what runs holds locks with interrupts disabled, and whatever lock
    it tries to take is free. -/
structure Protected (s : System T L C) : Prop where
  below : ∀ f ∈ s.below, f.held = []
  others : ∀ t, t ≠ s.current → (s.others t).1.held = [] ∧ ∀ f ∈ (s.others t).2, f.held = []
  masked : s.top.held ≠ [] → s.cpu.enabled = false
  tests : ∀ p again rest, s.top.code = .test p again :: rest → s.top.reg = 0
  words : s.top.code = [] → ∀ p, s.cpu.lock p = 0 ↔ some p ∉ s.top.held

/-- All results of `arch_atomic_postinc` for one counter differ, up to as many as there are values of an `int`. -/
def Distinct (s : System T L C) : Prop := ∀ p, (s.cpu.results p).length ≤ 2 ^ 32 → (s.cpu.results p).Nodup

end Step

/-! ### What a counter has been -/

/-- The values that a counter had before, latest first. -/
def countdown (c : BitVec 32) : Nat → List (BitVec 32)
  | 0 => []
  | n + 1 => (c - 1) :: countdown (c - 1) n

/-- The values of a counter that counts down. -/
lemma mem_countdown {c v : BitVec 32} {n : Nat} (mem : v ∈ countdown c n) : ∃ k < n, v = c - 1 - BitVec.ofNat 32 k := by
  induction n generalizing c with
  | zero => cases mem
  | succ n ih =>
    rcases List.mem_cons.mp mem with rfl | mem
    · exact ⟨0, Nat.succ_pos n, (BitVec.sub_zero _).symm⟩
    · obtain ⟨k, lt, rfl⟩ := ih mem
      refine ⟨k + 1, Nat.succ_lt_succ lt, ?_⟩
      bv_omega

/-- They differ until the counter has come around. -/
lemma nodup_countdown {c : BitVec 32} {n : Nat} (few : n ≤ 2 ^ 32) : (countdown c n).Nodup := by
  induction n generalizing c with
  | zero => exact List.nodup_nil
  | succ n ih =>
    refine List.nodup_cons.mpr ⟨fun mem => ?_, ih (Nat.le_of_succ_le few)⟩
    obtain ⟨k, lt, same⟩ := mem_countdown mem
    bv_omega

/-- There are as many. -/
lemma length_countdown (c : BitVec 32) (n : Nat) : (countdown c n).length = n := by
  induction n generalizing c with
  | zero => rfl
  | succ n ih => rw [countdown, List.length_cons, ih]

/-- Fewer values are those from an earlier one on. -/
lemma suffix_countdown {c : BitVec 32} {n : Nat} {l : List (BitVec 32)} (suffix : l <:+ countdown c n) :
    ∃ c', l = countdown c' l.length := by
  induction n generalizing c with
  | zero =>
    rw [List.suffix_nil.mp suffix]
    exact ⟨c, rfl⟩
  | succ n ih =>
    rcases List.suffix_cons_iff.mp suffix with rfl | suffix
    · exact ⟨c, by rw [show (c - 1) :: countdown (c - 1) n = countdown c (n + 1) from rfl, length_countdown]⟩
    · exact ih suffix

/-! ### Calls run to their end -/

section Safe
variable {L C : Type} [DecidableEq L]

/-- Between calls: interrupts are disabled if anything is held, the variables say what is held, and the results of a counter
    are the values that it had, one after the other. -/
structure Quiet (m : Cpu L C) (held : List (Option L)) : Prop where
  small : held.length < 2 ^ 31
  level : m.level = BitVec.ofNat 32 held.length
  masked : held ≠ [] → m.enabled = false
  words : ∀ p, m.lock p = 0 ↔ some p ∉ held
  once : ∀ p, held.count (some p) ≤ 1
  numbered : ∀ p, m.results p = countdown (m.counter p) (m.results p).length

/-- A lock that is tested is free. -/
def Op.Clear (reg : BitVec 32) : Op L C → Prop
  | .test _ _ => reg = 0
  | _ => True

/-- The call starts with `cli`. -/
def Call.Opens : Call L C → Prop
  | .unlock _ => False
  | .enable => False
  | _ => True

/-- Code that holds nothing, and is in no call or at the start of one. -/
def Waits (f : Frame L C) : Prop := f.held = [] ∧ (f.code = [] ∨ ∃ c : Call L C, c.Opens ∧ f.code = c.code)

variable {m : Cpu L C} {reg : BitVec 32} {held : List (Option L)}

/-- With interrupts enabled nothing is held. -/
lemma Quiet.nothing (h : Quiet m held) (enabled : m.enabled = true) : held = [] := by
  by_contra ne
  rw [h.masked ne] at enabled
  exact Bool.noConfusion enabled

/-- The flag does not matter where nothing is held. -/
lemma Quiet.flag (h : Quiet m []) (enabled : Bool) : Quiet { m with enabled := enabled } [] :=
  { h with masked := fun ne => absurd rfl ne }

/-- One level less is counted, and at the lowest interrupts are enabled. -/
def Cpu.lower (m : Cpu L C) : Cpu L C :=
  { m with level := m.level - 1, enabled := if m.level - 1 = 0 then true else m.enabled }

/-- What is held is given back, and the variables say so. -/
lemma Quiet.release (h : Quiet m held) {x : Option L} (mem : x ∈ held) {lock : L → BitVec 32}
    (words : ∀ q, lock q = 0 ↔ some q ∉ held.erase x) : Quiet { m with lock := lock }.lower (held.erase x) where
  small := lt_of_le_of_lt (List.erase_sublist.length_le) h.small
  level := by
    have pos := List.length_pos_of_mem mem
    have small := h.small
    show m.level - 1 = BitVec.ofNat 32 (held.erase x).length
    rw [List.length_erase_of_mem mem, h.level]
    bv_omega
  masked ne := by
    have pos := List.length_pos_iff.mpr ne
    rw [List.length_erase_of_mem mem] at pos
    have small := h.small
    have off := h.masked (List.ne_nil_of_mem mem)
    have high : m.level - 1 ≠ 0 := by
      rw [h.level]
      bv_omega
    simp only [Cpu.lower, if_neg high, off]
  words := words
  once q := le_trans (List.erase_sublist.count_le (some q)) (h.once q)
  numbered := h.numbered

variable [DecidableEq C]

/-- The steps lead from here to the end of a call, and enable interrupts only there. -/
def Safe : List (Op L C) → Cpu L C → BitVec 32 → List (Option L) → Prop
  | [], m, _, held => Quiet m held
  | op :: rest, m, reg, held => op.Clear reg ∧ ((op.run m reg held).1.enabled = true → rest = []) ∧
    Safe rest (op.run m reg held).1 (op.run m reg held).2.1 (op.run m reg held).2.2

/-- The steps of `cli`: interrupts are disabled, and one more level is counted. -/
lemma safe_cli {rest : List (Op L C)} (ne : rest ≠ [])
    (h : Safe rest { m with enabled := false, level := m.level + 1 } (m.level + 1) held) :
    Safe (cli ++ rest) m reg held := by
  simpa [cli, Safe, Op.Clear, Op.run, Cpu.read, Cpu.write, ne] using h

/-- The steps of `sti`. -/
lemma safe_sti (off : m.enabled = false) (h : Quiet m.lower held) : Safe sti m reg held := by
  have lowest : (if m.level - 1 = 0 then { m with level := m.level - 1, enabled := true } else { m with level := m.level - 1 }) =
      m.lower := by
    rw [Cpu.lower]
    split <;> rfl
  rw [← lowest] at h
  simpa [sti, Safe, Op.Clear, Op.run, Cpu.read, Cpu.write, off] using h

omit [DecidableEq C] in
/-- One more level is counted. -/
lemma Quiet.deeper (h : Quiet m held) (x : Option L) : m.level + 1 = BitVec.ofNat 32 (x :: held).length := by
  rw [h.level, List.length_cons, BitVec.ofNat_add]
  rfl

/-- A lock that is not held is taken. -/
lemma safe_trySpin (h : Quiet m held) (shallow : held.length < 2 ^ 31 - 1) {p : L} (free : some p ∉ held) (again : Bool) :
    Safe (trySpin p again) m reg held := by
  apply safe_cli (List.cons_ne_nil _ _)
  have word : m.lock p = 0 := (h.words p).mpr free
  have taken : Quiet { m with enabled := false, level := m.level + 1, lock := update m.lock p 1 } (some p :: held) :=
    { small := Nat.add_lt_of_lt_sub shallow
      level := h.deeper (some p)
      masked := fun _ => rfl
      words := fun q => by
        rcases eq_or_ne q p with rfl | ne
        · simp
        · have other : some q ≠ some p := fun e => ne (Option.some.inj e)
          show update m.lock p 1 q = 0 ↔ _
          rw [update_of_ne ne, h.words, List.mem_cons, or_iff_right other]
      once := fun q => by
        rcases eq_or_ne q p with rfl | ne
        · simp [List.count_eq_zero_of_not_mem free]
        · simpa [List.count_cons_of_ne, ne.symm] using h.once q
      numbered := h.numbered }
  simpa [Safe, Op.Clear, Op.run, Cpu.read, Cpu.write, word] using taken

/-- A lock that is held is given back. -/
lemma safe_unlock (h : Quiet m held) {p : L} (mem : some p ∈ held) : Safe (archSpinUnlock p) m reg held := by
  have off := h.masked (List.ne_nil_of_mem mem)
  have words : ∀ q, update m.lock p 0 q = 0 ↔ some q ∉ held.erase (some p) := by
    intro q
    rcases eq_or_ne q p with rfl | ne
    · have gone : some q ∉ held.erase (some q) := by
        rw [← List.count_eq_zero, List.count_erase_self]
        exact Nat.sub_eq_zero_of_le (h.once q)
      rw [update_self]
      exact iff_of_true rfl gone
    · have other : some q ≠ some p := fun e => ne (Option.some.inj e)
      rw [update_of_ne ne, h.words, List.mem_erase_of_ne other]
  have freed : Safe sti { m with lock := update m.lock p 0 } 0 (held.erase (some p)) :=
    safe_sti off (h.release mem words)
  simpa [archSpinUnlock, Safe, Op.Clear, Op.run, Cpu.write, off] using freed

/-- Enabling interrupts at the end of a region. -/
lemma safe_enable (h : Quiet m held) (mem : none ∈ held) : Safe (.release none :: sti) m reg held := by
  have off := h.masked (List.ne_nil_of_mem mem)
  have words : ∀ q, m.lock q = 0 ↔ some q ∉ held.erase none := fun q => by
    rw [h.words, List.mem_erase_of_ne (Option.some_ne_none q)]
  have freed : Safe sti m reg (held.erase none) := safe_sti off (h.release mem words)
  simpa [Safe, Op.Clear, Op.run, off] using freed

/-- Raising the level and lowering it again. -/
lemma lower_raise (level : BitVec 32) : level + 1 - 1 = level := by bv_omega

/-- The counter goes up by one, and its value before is a result that no call has had. -/
lemma Quiet.count (h : Quiet m held) (p : C) : Quiet { m with
    enabled := false, level := m.level + 1, counter := update m.counter p (m.counter p + 1),
    results := update m.results p (m.counter p :: m.results p) }.lower held where
  small := h.small
  level := (lower_raise m.level).trans h.level
  masked ne := by
    have pos := List.length_pos_iff.mpr ne
    have small := h.small
    have high : m.level + 1 - 1 ≠ 0 := by
      rw [lower_raise, h.level]
      bv_omega
    simp only [Cpu.lower, if_neg high]
  words := h.words
  once := h.once
  numbered q := by
    rcases eq_or_ne q p with rfl | ne
    · simp only [Cpu.lower, update_self, List.length_cons, countdown, BitVec.add_sub_cancel]
      rw [← h.numbered q]
    · simp only [Cpu.lower, update_of_ne ne]
      exact h.numbered q

/-- The code of `arch_atomic_postinc` is safe. -/
lemma safe_postinc (h : Quiet m held) (p : C) : Safe (archAtomicPostinc p) m reg held := by
  rw [archAtomicPostinc, List.append_assoc]
  apply safe_cli (List.cons_ne_nil _ _)
  have counted : Safe sti { m with
      enabled := false, level := m.level + 1, counter := update m.counter p (m.counter p + 1),
      results := update m.results p (m.counter p :: m.results p) } (m.counter p + 1) held :=
    safe_sti rfl (h.count p)
  have ne : (sti : List (Op L C)) ≠ [] := List.cons_ne_nil _ _
  simpa [Safe, Op.Clear, Op.run, Cpu.read, Cpu.write, ne, BitVec.add_sub_cancel] using counted

/-- Every call runs to its end. -/
lemma Call.safe (h : Quiet m held) {c : Call L C} (fits : c.Fits held) (shallow : held.length < 2 ^ 31 - 1) :
    Safe c.code m reg held := by
  cases c with
  | trylock p => exact safe_trySpin h shallow fits false
  | lock p => exact safe_trySpin h shallow fits true
  | unlock p => exact safe_unlock h fits
  | postinc p => exact safe_postinc h p
  | enable => exact safe_enable h fits
  | disable =>
    apply safe_cli (List.cons_ne_nil _ _)
    refine ⟨trivial, fun flag => Bool.noConfusion flag, ?_⟩
    exact { small := Nat.add_lt_of_lt_sub shallow
            level := h.deeper none
            masked := fun _ => rfl
            words := fun q => (h.words q).trans (by simp [Op.run])
            once := fun q => by simpa [Op.run] using h.once q
            numbered := h.numbered }

/-- Results are only added. -/
lemma Op.run_results (op : Op L C) (m : Cpu L C) (reg : BitVec 32) (held : List (Option L)) (p : C) :
    m.results p <:+ (op.run m reg held).1.results p := by
  cases op with
  | result q =>
    rcases eq_or_ne p q with rfl | ne
    · simp only [Op.run, update_self]
      exact List.suffix_cons _ _
    · simp only [Op.run, update_of_ne ne]
      exact List.suffix_refl _
  | store a => cases a <;> exact List.suffix_refl _
  | stiIfZero =>
    simp only [Op.run]
    split <;> exact List.suffix_refl _
  | _ => exact List.suffix_refl _

/-- Within a call, too, the results of a counter are values that it had one after the other. -/
lemma Safe.numbered {code : List (Op L C)} (h : Safe code m reg held) (p : C) :
    ∃ c, m.results p = countdown c (m.results p).length := by
  have final : ∃ c n, m.results p <:+ countdown c n := by
    induction code generalizing m reg held with
    | nil =>
      exact ⟨m.counter p, (m.results p).length, h.numbered p ▸ List.suffix_refl _⟩
    | cons op rest ih =>
      obtain ⟨c, n, suffix⟩ := ih h.2.2
      exact ⟨c, n, (op.run_results m reg held p).trans suffix⟩
  obtain ⟨c, n, suffix⟩ := final
  exact suffix_countdown suffix

end Safe

/-! ### Runs -/

section Runs
variable {T L C : Type} [DecidableEq T] [DecidableEq L] [DecidableEq C]

/-- The running code comes to the end of its call, all other code waits, and interrupts are enabled only where the
    running code could wait as well. -/
structure Inv (s : System T L C) : Prop where
  safe : Safe s.top.code s.cpu s.top.reg s.top.held
  outside : s.cpu.enabled = true → Quiet s.cpu s.top.held ∧ Waits s.top
  below : ∀ f ∈ s.below, Waits f
  others : ∀ t, t ≠ s.current → Waits (s.others t).1 ∧ ∀ f ∈ (s.others t).2, Waits f

variable {s s' : System T L C}

omit [DecidableEq T] [DecidableEq L] [DecidableEq C] in
/-- A thread that has no call waits. -/
lemma waits_idle : Waits (idle : Frame L C) := ⟨rfl, .inl rfl⟩

omit [DecidableEq L] [DecidableEq C] in
/-- A call that starts with `cli` fits where nothing is held. -/
lemma Call.Opens.fits {c : Call L C} (h : c.Opens) : c.Fits [] := by
  cases c with
  | unlock => exact h.elim
  | enable => exact h.elim
  | trylock => exact List.not_mem_nil
  | lock => exact List.not_mem_nil
  | _ => trivial

omit [DecidableEq L] [DecidableEq C] in
/-- A thread that holds nothing begins with a region. -/
lemma Call.Fits.opens {c : Call L C} (h : c.Fits []) : c.Opens := by
  cases c with
  | unlock => exact List.not_mem_nil h
  | enable => exact List.not_mem_nil h
  | _ => trivial

/-- What waits can go on wherever nothing is held. -/
lemma Waits.safe {f : Frame L C} (h : Waits f) {m : Cpu L C} (quiet : Quiet m []) : Safe f.code m f.reg f.held := by
  obtain ⟨held, code | ⟨c, opens, code⟩⟩ := h
  · rw [code, held]
    exact quiet
  · rw [code, held]
    have shallow : ([] : List (Option L)).length < 2 ^ 31 - 1 := Nat.zero_lt_succ _
    exact c.safe quiet opens.fits shallow

omit [DecidableEq T] in
/-- Between calls the processor agrees with what the thread holds. -/
lemma Inv.quiet (h : Inv s) (code : s.top.code = []) : Quiet s.cpu s.top.held := by
  have safe := h.safe
  rwa [code] at safe

omit [DecidableEq T] in
/-- An operation of a call keeps the invariant. -/
lemma Inv.tick (h : Inv s) {op : Op L C} {rest : List (Op L C)} (code : s.top.code = op :: rest) :
    Inv { s with cpu := (op.run s.cpu s.top.reg s.top.held).1
                 top := ⟨op.next s.top.reg rest, (op.run s.cpu s.top.reg s.top.held).2.1,
                   (op.run s.cpu s.top.reg s.top.held).2.2⟩ } := by
  have safe := h.safe
  rw [code] at safe
  obtain ⟨clear, last, safe⟩ := safe
  have same : op.next s.top.reg rest = rest := by
    cases op with
    | test p again => exact if_pos clear
    | _ => rfl
  refine ⟨by rwa [same], fun enabled => ?_, h.below, h.others⟩
  have nil := last enabled
  rw [nil] at safe
  exact ⟨safe, safe.nothing enabled, .inl (same.trans nil)⟩

/-- The current thread, with nothing held and no code to go on with, is put aside with the others. -/
lemma Inv.aside (h : Inv s) (code : s.top.code = []) (held : s.top.held = []) (t : T) :
    Waits (update s.others s.current (s.top, s.below) t).1 ∧
      ∀ f ∈ (update s.others s.current (s.top, s.below) t).2, Waits f := by
  rcases eq_or_ne t s.current with rfl | ne
  · rw [update_self]
    exact ⟨⟨held, .inl code⟩, h.below⟩
  · rw [update_of_ne ne]
    exact h.others t ne

/-- A step of a disciplined run keeps the invariant. -/
lemma Inv.step (h : Inv s) {e : Event T L C} (run : step s e = some s') (disciplined : Disciplined s e) : Inv s' := by
  cases e with
  | call c =>
    obtain ⟨code, ⟨⟩⟩ := Option.ite_none_right_eq_some.mp run
    obtain ⟨fits, shallow⟩ := disciplined
    have quiet := h.quiet (List.isEmpty_iff.mp code)
    refine ⟨c.safe quiet fits shallow, fun enabled => ?_, h.below, h.others⟩
    have nothing := quiet.nothing enabled
    rw [nothing] at fits
    exact ⟨quiet, nothing, .inr ⟨c, fits.opens, rfl⟩⟩
  | tick =>
    simp only [Spin.step] at run
    split at run
    · cases run
    · next op rest code =>
      cases run
      exact h.tick code
  | interrupt =>
    obtain ⟨enabled, ⟨⟩⟩ := Option.ite_none_right_eq_some.mp run
    obtain ⟨quiet, waits⟩ := h.outside enabled
    rw [waits.1] at quiet
    exact ⟨quiet.flag false, fun flag => Bool.noConfusion flag, List.forall_mem_cons.mpr ⟨waits, h.below⟩, h.others⟩
  | iret =>
    simp only [Spin.step] at run
    split at run
    · cases run
    · next f below frames =>
      obtain ⟨code, ⟨⟩⟩ := Option.ite_none_right_eq_some.mp run
      have quiet := h.quiet (List.isEmpty_iff.mp code)
      have held : s.top.held = [] := disciplined
      rw [held] at quiet
      have waits := h.below
      rw [frames] at waits
      obtain ⟨first, rest⟩ := List.forall_mem_cons.mp waits
      refine ⟨first.safe (quiet.flag true), fun _ => ⟨?_, first⟩, rest, h.others⟩
      rw [first.1]
      exact quiet.flag true
  | switch thread =>
    obtain ⟨code, ⟨⟩⟩ := Option.ite_none_right_eq_some.mp run
    have quiet := h.quiet (List.isEmpty_iff.mp code)
    have held : s.top.held = [] := disciplined
    rw [held] at quiet
    have all := h.aside (List.isEmpty_iff.mp code) held
    obtain ⟨first, rest⟩ := all thread
    refine ⟨first.safe quiet, fun _ => ⟨?_, first⟩, rest, fun t _ => all t⟩
    rw [first.1]
    exact quiet

omit [DecidableEq T] in
/-- The invariant implies the property. -/
lemma Inv.isProtected (h : Inv s) : Protected s where
  below f mem := (h.below f mem).1
  others t ne := ⟨(h.others t ne).1.1, fun f mem => ((h.others t ne).2 f mem).1⟩
  masked ne := by
    by_contra enabled
    rw [Bool.not_eq_false] at enabled
    exact ne ((h.outside enabled).1.nothing enabled)
  tests p again rest code := by
    have safe := h.safe
    rw [code] at safe
    exact safe.1
  words code := (h.quiet code).words

omit [DecidableEq T] in
/-- The start is in order. -/
lemma inv_start (enabled : Bool) (counter : C → BitVec 32) (thread : T) :
    Inv (start enabled counter thread : System T L C) := by
  have quiet : Quiet (⟨enabled, 0, fun _ => 0, counter, fun _ => []⟩ : Cpu L C) [] :=
    ⟨Nat.two_pow_pos 31, rfl, fun ne => absurd rfl ne, fun _ => iff_of_true rfl List.not_mem_nil, fun _ => Nat.zero_le _, fun _ => rfl⟩
  exact ⟨quiet, fun _ => ⟨quiet, waits_idle⟩, fun f mem => absurd mem List.not_mem_nil,
    fun _ _ => ⟨waits_idle, fun f mem => absurd mem List.not_mem_nil⟩⟩

/-- In a run that keeps to the discipline. -/
lemma inv_always (enabled : Bool) (counter : C → BitVec 32) (thread : T) {events : List (Event T L C)}
    (disciplined : Meets step Disciplined (start enabled counter thread) events) :
    Always step Inv (start enabled counter thread) events :=
  always_of_meets (fun _ _ _ h run disciplined => h.step run disciplined) (inv_start enabled counter thread) disciplined

/-- However threads and interrupts come in between each other, as long as the code keeps to the discipline: only the running
    code holds locks, no interrupt comes in while it holds one, and it never finds a lock taken. -/
theorem protected_always (enabled : Bool) (counter : C → BitVec 32) (thread : T) {events : List (Event T L C)}
    (disciplined : Meets step Disciplined (start enabled counter thread) events) :
    Always step Protected (start enabled counter thread) events :=
  (inv_always enabled counter thread disciplined).imp fun _ h => h.isProtected

/-- No two of up to `2 ^ 32` calls of `arch_atomic_postinc` for one counter have the same result. -/
theorem results_distinct (enabled : Bool) (counter : C → BitVec 32) (thread : T) {events : List (Event T L C)}
    (disciplined : Meets step Disciplined (start enabled counter thread) events) :
    Always step Distinct (start enabled counter thread) events := by
  refine (inv_always enabled counter thread disciplined).imp fun s h p few => ?_
  obtain ⟨c, numbered⟩ := h.safe.numbered p
  rw [numbered]
  exact nodup_countdown few

end Runs

/-! ### A run -/

/-- A call that is made, with its steps. -/
def made (c : Call Nat Nat) (ticks : Nat) : List (Event Nat Nat Nat) := .call c :: List.replicate ticks .tick

/-- Thread 0 takes a lock and gives it back, and takes it again; before the first read of that call an interrupt comes in, whose
    handler takes the same lock and counts. -/
def nested : List (Event Nat Nat Nat) :=
  List.flatten [made (.lock 0) 9, made (.unlock 0) 7, [.call (.lock 0), .interrupt], made (.lock 0) 9, made (.postinc 0) 12,
    made (.unlock 0) 7, .iret :: List.replicate 9 .tick, made (.postinc 0) 12]

instance (s : System Nat Nat Nat) : (e : Event Nat Nat Nat) → Decidable (Disciplined s e)
  | .call _ => inferInstanceAs (Decidable (_ ∧ _))
  | .iret => inferInstanceAs (Decidable (_ = _))
  | .switch _ => inferInstanceAs (Decidable (_ = _))
  | .tick => isTrue trivial
  | .interrupt => isTrue trivial

/-- A run with nested regions and an interrupt is disciplined. -/
lemma nested_disciplined : Meets step Disciplined (start true (fun _ => 1) 0) nested := by decide +kernel

/-- In this run all that is held stays protected. -/
theorem protected_nested : Meets step Disciplined (start true (fun _ => 1) 0) nested ∧
    (exec step (start true (fun _ => 1) 0) nested).isSome ∧ Always step Protected (start true (fun _ => 1) 0) nested :=
  ⟨nested_disciplined, by decide +kernel, protected_always true (fun _ => 1) 0 nested_disciplined⟩

/-- In this run the results are distinct. -/
theorem results_nested : Meets step Disciplined (start true (fun _ => 1) 0) nested ∧
    ((exec step (start true (fun _ => 1) 0) nested).map fun s => s.cpu.results 0) = some [2, 1] ∧
    Always step Distinct (start true (fun _ => 1) 0) nested :=
  ⟨nested_disciplined, by decide +kernel, results_distinct true (fun _ => 1) 0 nested_disciplined⟩

end Twcos.Spin
