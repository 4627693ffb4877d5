import Mathlib.Tactic.Common
import Mathlib.Algebra.Order.Ring.Int
import Mathlib.Tactic.Ring
import Mathlib.Algebra.BigOperators.Group.List.Basic

/-!
# The timer queue

Model of `kernel/timer.c`: a queue of events, each with the delay after the one before it, and a hardware timer
that counts down the delay of the first. The hardware is described by what it was set to and how long it has
run since; `timer_clear` returns the remaining time, as `pit_timer_clear` of `arch/i386/isa.c` does.

Delays are `int64_t`. All of them are non-negative here, and the code only takes differences of delays, so that
nothing overflows, and the model has integers.

C → Lean naming: `timer_event_t` → `TimerEvent`, `timer_t` → `Timers`; `timer_add` → `timerAdd`, its loop →
`timerInsert`.
-/

namespace Twcos.Timer

/-- `timer_event_t` without the link; `cb` stands for the callback and its argument. -/
structure TimerEvent (C : Type) where
  usec : Int
  cb : C
deriving DecidableEq

/-- The hardware timer: what it was set to, and the time it has run since. -/
structure Countdown where
  usec : Int
  elapsed : Int
deriving DecidableEq

/-- `timer_t`. -/
structure Timers (C : Type) where
  queue : List (TimerEvent C)
  hardware : Countdown

variable {C : Type}

/-- `timer_set`. -/
def timerSet (usec : Int) : Countdown := ⟨usec, 0⟩

/-- What `timer_clear` returns: the remaining time. -/
def timerClear (hardware : Countdown) : Int := hardware.usec - hardware.elapsed

/-- `next->usec -= timers->ops->timer_clear()`, if there is a first event. -/
def timerCancel (t : Timers C) : List (TimerEvent C) :=
  match t.queue with
  | [] => []
  | next :: rest => { next with usec := next.usec - timerClear t.hardware } :: rest

/-- The loop of `timer_add`, and putting the event into the queue where it stops. -/
def timerInsert (timer : TimerEvent C) : List (TimerEvent C) → List (TimerEvent C)
  | [] => [timer]
  | next :: rest =>
    if timer.usec < next.usec then timer :: { next with usec := next.usec - timer.usec } :: rest
    else next :: timerInsert { timer with usec := timer.usec - next.usec } rest

/-- `timer_add`. -/
def timerAdd (t : Timers C) (usec : Int) (cb : C) : Timers C :=
  let queue := timerInsert ⟨usec, cb⟩ (timerCancel t)
  { queue := queue
    hardware := match queue with
      | [] => t.hardware
      | head :: _ => timerSet head.usec }

/-! ### Deadlines -/

/-- When the events of a queue expire, with the time when its first delay starts. -/
def deadlines (start : Int) : List (TimerEvent C) → List (Int × C)
  | [] => []
  | event :: rest => (start + event.usec, event.cb) :: deadlines (start + event.usec) rest

/-- No delay is negative. -/
def NonNeg (queue : List (TimerEvent C)) : Prop := ∀ event ∈ queue, 0 ≤ event.usec

/-- The hardware counts down the delay of the first event. -/
structure Pending (t : Timers C) : Prop where
  nonneg : NonNeg t.queue
  started : ∀ head ∈ t.queue.head?, t.hardware.usec = head.usec
  elapsed : 0 ≤ t.hardware.elapsed
  remaining : ∀ head ∈ t.queue.head?, t.hardware.elapsed ≤ head.usec

/-- The deadlines of `t'`, from now on, are those of `t` and the new one, which comes after those that are not
    later, and the hardware is set to the first delay. -/
def Added (t t' : Timers C) (usec : Int) (cb : C) : Prop :=
  NonNeg t'.queue ∧ (∃ head ∈ t'.queue.head?, t'.hardware = timerSet head.usec) ∧
    ∃ before after, deadlines (-t.hardware.elapsed) t.queue = before ++ after ∧
      deadlines 0 t'.queue = before ++ (usec, cb) :: after ∧
      (∀ d ∈ before, d.1 ≤ usec) ∧ ∀ d ∈ after, usec < d.1

/-- With no negative delay, deadlines are not before the start. -/
lemma le_deadlines {queue : List (TimerEvent C)} {start : Int} (h : NonNeg queue) {d : Int × C}
    (hd : d ∈ deadlines start queue) : start ≤ d.1 := by
  induction queue generalizing start with
  | nil => cases hd
  | cons event rest ih =>
    have first := h event List.mem_cons_self
    rcases List.mem_cons.mp hd with rfl | hd
    · show start ≤ start + event.usec
      omega
    · have := ih (fun e he => h e (List.mem_cons_of_mem _ he)) hd
      omega

/-- Inserting a timer keeps the times from being negative. -/
lemma timerInsert_nonNeg {queue : List (TimerEvent C)} {timer : TimerEvent C} (h : NonNeg queue)
    (nonneg : 0 ≤ timer.usec) : NonNeg (timerInsert timer queue) := by
  induction queue generalizing timer with
  | nil =>
    intro event mem
    cases List.mem_singleton.mp mem
    exact nonneg
  | cons next rest ih =>
    have hrest : NonNeg rest := fun e he => h e (List.mem_cons_of_mem _ he)
    rw [timerInsert]
    split
    · intro event mem
      rcases List.mem_cons.mp mem with rfl | mem
      · exact nonneg
      · rcases List.mem_cons.mp mem with rfl | mem
        · show 0 ≤ next.usec - timer.usec
          omega
        · exact hrest event mem
    · intro event mem
      rcases List.mem_cons.mp mem with rfl | mem
      · exact h event List.mem_cons_self
      · refine ih hrest ?_ event mem
        show 0 ≤ timer.usec - next.usec
        omega

/-- The loop puts the event after those that are not later, and moves no deadline. -/
lemma deadlines_timerInsert {queue : List (TimerEvent C)} (h : NonNeg queue) (timer : TimerEvent C)
    (start : Int) : ∃ before after, deadlines start queue = before ++ after ∧
      deadlines start (timerInsert timer queue) = before ++ (start + timer.usec, timer.cb) :: after ∧
      (∀ d ∈ before, d.1 ≤ start + timer.usec) ∧ ∀ d ∈ after, start + timer.usec < d.1 := by
  induction queue generalizing timer start with
  | nil => exact ⟨[], [], rfl, rfl, nofun, nofun⟩
  | cons next rest ih =>
    have hrest : NonNeg rest := fun e he => h e (List.mem_cons_of_mem _ he)
    rw [timerInsert]
    split
    · rename_i lt
      have later : start + timer.usec + (next.usec - timer.usec) = start + next.usec := by ring
      refine ⟨[], deadlines start (next :: rest), rfl, ?_, nofun, ?_⟩
      · simp only [deadlines, later, List.nil_append]
      · intro d hd
        rcases List.mem_cons.mp hd with rfl | hd
        · show start + timer.usec < start + next.usec
          omega
        · have := le_deadlines hrest hd
          omega
    · rename_i ge
      obtain ⟨before, after, old, new, le, lt⟩ :=
        ih hrest { timer with usec := timer.usec - next.usec } (start + next.usec)
      have same : start + next.usec + (timer.usec - next.usec) = start + timer.usec := by ring
      rw [same] at new le lt
      refine ⟨(start + next.usec, next.cb) :: before, after, ?_, ?_, ?_, lt⟩
      · rw [deadlines, old, List.cons_append]
      · rw [deadlines, new, List.cons_append]
      · intro d hd
        rcases List.mem_cons.mp hd with rfl | hd
        · show start + next.usec ≤ start + timer.usec
          omega
        · exact le d hd

/-- Starting later moves every deadline. -/
lemma sum_deadlines (start : Int) (queue : List (TimerEvent C)) :
    ((deadlines start queue).map Prod.fst).sum =
      queue.length * start + ((deadlines 0 queue).map Prod.fst).sum := by
  induction queue generalizing start with
  | nil => simp [deadlines]
  | cons event rest ih =>
    simp only [deadlines, List.map_cons, List.sum_cons, List.length_cons, Nat.cast_add, Nat.cast_one]
    rw [ih (start + event.usec), ih (0 + event.usec)]
    ring

/-! ### Adding an event -/

/-- Cancelling the timer leaves the first event the time that has run already. -/
lemma timerCancel_nonNeg {t : Timers C} (pending : Pending t) : NonNeg (timerCancel t) := by
  obtain ⟨queue, hardware⟩ := t
  cases queue with
  | nil => exact nofun
  | cons head rest =>
    have started : hardware.usec = head.usec := pending.started head rfl
    have elapsed : 0 ≤ hardware.elapsed := pending.elapsed
    intro event mem
    rcases List.mem_cons.mp mem with rfl | mem
    · show 0 ≤ head.usec - (hardware.usec - hardware.elapsed)
      omega
    · exact pending.nonneg event (List.mem_cons_of_mem _ mem)

/-- Cancelling the timer moves all events as if the first delay had started the remaining time ago. -/
lemma deadlines_timerCancel (t : Timers C) :
    deadlines 0 (timerCancel t) = deadlines (-timerClear t.hardware) t.queue := by
  obtain ⟨queue, hardware⟩ := t
  cases queue with
  | nil => rfl
  | cons head rest =>
    have same : 0 + (head.usec - timerClear hardware) = -timerClear hardware + head.usec := by ring
    simp only [timerCancel, deadlines, same]

/-- `timer_add` sets the hardware for the first event. -/
lemma timerAdd_hardware (t : Timers C) (usec : Int) (cb : C) :
    ∃ head ∈ (timerAdd t usec cb).queue.head?, (timerAdd t usec cb).hardware = timerSet head.usec := by
  have some : ∃ head rest, timerInsert ⟨usec, cb⟩ (timerCancel t) = head :: rest := by
    cases timerCancel t with
    | nil => exact ⟨_, _, rfl⟩
    | cons next rest =>
      rw [timerInsert]
      split
      · exact ⟨_, _, rfl⟩
      · exact ⟨_, _, rfl⟩
  obtain ⟨head, rest, e⟩ := some
  refine ⟨head, ?_, ?_⟩
  · simp only [timerAdd, e, List.head?_cons, Option.mem_some_iff]
  · simp only [timerAdd, e]

/-- `timer_add` keeps the deadlines exactly if no event is pending, or half of the first delay has run: then
    the time that has run, which is what it leaves the first event, is the remaining time. -/
theorem timerAdd_iff (t : Timers C) (usec : Int) (cb : C) (pending : Pending t) (nonneg : 0 ≤ usec) :
    Added t (timerAdd t usec cb) usec cb ↔
      ∀ head ∈ t.queue.head?, 2 * t.hardware.elapsed = head.usec := by
  obtain ⟨before, after, old, new, le, lt⟩ :=
    deadlines_timerInsert (timerCancel_nonNeg pending) ⟨usec, cb⟩ 0
  rw [deadlines_timerCancel] at old
  rw [zero_add] at new le lt
  constructor
  · rintro ⟨-, -, before', after', old', new', -, -⟩ head mem
    have started := pending.started head mem
    -- both ways the sum of all deadlines is the same
    have sums := congrArg (fun l => (l.map Prod.fst).sum) (new.symm.trans new')
    have sum := congrArg (fun l => (l.map Prod.fst).sum) old
    have sum' := congrArg (fun l => (l.map Prod.fst).sum) old'
    simp only [List.map_append, List.map_cons, List.sum_append, List.sum_cons] at sums sum sum'
    rw [sum_deadlines] at sum sum'
    have pos : 0 < (t.queue.length : Int) := by
      cases hq : t.queue with
      | nil =>
        rw [hq] at mem
        cases mem
      | cons first rest =>
        rw [List.length_cons]
        omega
    have same : (t.queue.length : Int) * -timerClear t.hardware =
        t.queue.length * -t.hardware.elapsed := by omega
    have same := mul_left_cancel₀ pos.ne' same
    rw [timerClear] at same
    omega
  · intro half
    refine ⟨timerInsert_nonNeg (timerCancel_nonNeg pending) nonneg, timerAdd_hardware t usec cb,
      before, after, ?_, new, le, lt⟩
    rw [← old]
    cases hq : t.queue with
    | nil => rfl
    | cons head rest =>
      have mem : head ∈ t.queue.head? := by
        rw [hq]
        rfl
      have := half head mem
      have := pending.started head mem
      have same : timerClear t.hardware = t.hardware.elapsed := by
        rw [timerClear]
        omega
      rw [same]

/-- A third timer, when half of the time is over. -/
theorem timerAdd_half : Pending (⟨[⟨10, 0⟩, ⟨3, 1⟩], ⟨10, 5⟩⟩ : Timers Nat) ∧
    Added ⟨[⟨10, 0⟩, ⟨3, 1⟩], ⟨10, 5⟩⟩ (timerAdd ⟨[⟨10, 0⟩, ⟨3, 1⟩], ⟨10, 5⟩⟩ 6 2) 6 2 := by
  have pending : Pending (⟨[⟨10, 0⟩, ⟨3, 1⟩], ⟨10, 5⟩⟩ : Timers Nat) := by
    refine ⟨by simp [NonNeg], ?_, by decide, ?_⟩
    · rintro head ⟨⟩
      rfl
    · rintro head ⟨⟩
      decide
  refine ⟨pending, (timerAdd_iff _ 6 2 pending (by decide)).mpr ?_⟩
  rintro head ⟨⟩
  rfl

/-- An event that has 8 of 10 microseconds left expires after 2 when another one is added. -/
theorem timerAdd_moves_deadline :
    Pending (⟨[⟨10, 0⟩], ⟨10, 2⟩⟩ : Timers Nat) ∧
      ¬Added ⟨[⟨10, 0⟩], ⟨10, 2⟩⟩ (timerAdd ⟨[⟨10, 0⟩], ⟨10, 2⟩⟩ 20 1) 20 1 := by
  refine ⟨⟨by simp [NonNeg], ?_, by decide, ?_⟩, ?_⟩
  · rintro head ⟨⟩
    rfl
  · rintro head ⟨⟩
    decide
  · rintro ⟨-, -, before, after, old, new, -, -⟩
    have old : [((8 : Int), 0)] = before ++ after := old
    have new : [((2 : Int), 0), (20, 1)] = before ++ (20, 1) :: after := new
    rcases List.append_eq_singleton_iff.mp old.symm with ⟨rfl, rfl⟩ | ⟨rfl, rfl⟩
    · cases new
    · cases new

end Twcos.Timer
