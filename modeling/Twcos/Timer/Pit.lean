import Mathlib.Algebra.Order.Ring.Int
import Mathlib.Data.BitVec
import Mathlib.Logic.Function.Iterate
import Mathlib.Tactic.Common

/-!
# The programmable interval timer

Model of the timer of `arch/i386/isa.c`, which counts down a delay of any length with a counter of 16 bits: `ticks` is
what is left of the delay when the counter is loaded, and the interrupt handler loads it again until nothing is left.

The i8254 is described by what the code uses of it. A control word of `0x30` is followed by the two bytes of a count, from
which it counts down, with an interrupt when it comes to zero; a count of zero is as good as `65536`. A control word of `0`
latches the count for reading. The functions run under a lock with interrupts off, so that no tick falls into one of
them. `pit_expire` is only recorded here: what the callback does is the timer queue's.

C → Lean naming: `pit_timer_set` → `pitTimerSet` and so on; `timerspec_t` and `tickspec_t` are integers that `int64` brings
into range.
-/

namespace Twcos.Timer

/-- Counter 0 of the i8254, in mode 0. -/
structure I8254 where
  low : Option (BitVec 8)
  latched : List (BitVec 8)
  count : BitVec 16
  armed : Bool
deriving DecidableEq

def I8254.outb (d : I8254) (port : BitVec 16) (v : BitVec 8) : I8254 :=
  if port = 0x43 then
    if v = 0x30 then { d with low := none, latched := [], armed := false }
    else if v = 0 then { d with latched := [d.count.setWidth 8, (d.count >>> 8).setWidth 8] }
    else d
  else if port = 0x40 then
    match d.low with
    | none => { d with low := some v }
    | some low => { d with low := none, count := BitVec.ofNat 16 (low.toNat + 256 * v.toNat), armed := true }
  else d

/-- `inb(0x40)`. -/
def I8254.inb (d : I8254) : BitVec 8 × I8254 :=
  match d.latched with
  | [] => (d.count.setWidth 8, d)
  | v :: latched => (v, { d with latched := latched })

/-- A tick of the counter, and whether it interrupts. -/
def I8254.tick (d : I8254) : Bool × I8254 :=
  if d.armed ∧ d.count = 1 then (true, { d with count := 0, armed := false })
  else (false, { d with count := d.count - 1 })

/-- The variables of the driver, the device, and the calls of `pit_expire` so far. -/
structure Pit (C : Type) where
  ticks : Int
  pit_expire : Option C
  device : I8254
  calls : List C
deriving DecidableEq

variable {C : Type}

/-- The value in an `int64_t`. -/
def int64 (x : Int) : Int := x.bmod (2 ^ 64)

/-- `pit_set`. -/
def pitSet (s : Pit C) : Pit C :=
  if s.ticks > 65535 then { s with device := ((s.device.outb 0x43 0x30).outb 0x40 0xff).outb 0x40 0xff }
  else
    -- `ticks & 0xff` and `ticks >> 8`
    let device := s.device.outb 0x43 0x30
    { s with device := (device.outb 0x40 (.ofInt 8 (s.ticks % 256))).outb 0x40 (.ofInt 8 (s.ticks / 256)) }

/-- `pit_get`. -/
def pitGet (s : Pit C) : Int × Pit C :=
  let (low, device) := (s.device.outb 0x43 0).inb
  let (high, device) := device.inb
  (low.toNat + high.toNat * 256, { s with device := device })

/-- `pit_timer_int`. -/
def pitTimerInt (s : Pit C) : Pit C :=
  if s.ticks > 65535 then pitSet { s with ticks := s.ticks - 65535 }
  else { s with ticks := 0, calls := s.calls ++ s.pit_expire.toList }

/-- `1193180 * usec / 1000000`. -/
def toTicks (usec : Int) : Int := (int64 (1193180 * usec)).tdiv 1000000

/-- `remaining * 1000000 / 1193180`. -/
def toUsec (ticks : Int) : Int := (int64 (ticks * 1000000)).tdiv 1193180

/-- `pit_timer_set`. -/
def pitTimerSet (expire : C) (usec : Int) (s : Pit C) : Pit C :=
  pitSet { s with pit_expire := some expire, ticks := toTicks usec }

/-- `pit_timer_clear`. -/
def pitTimerClear (s : Pit C) : Int × Pit C :=
  let (count, s) := pitGet s
  let remaining := if s.ticks > 65535 then s.ticks - 65535 + count else count
  (toUsec remaining, { s with ticks := 0, pit_expire := none })

/-- A tick of the device, with the interrupt handler if there is an interrupt. -/
def tick (s : Pit C) : Pit C :=
  let (interrupt, device) := s.device.tick
  if interrupt then pitTimerInt { s with device := device } else { s with device := device }

/-- `T = 1193180 * usec / 1000000` ticks. -/
def delayTicks (usec : Int) : Nat := (1193180 * usec / 1000000).toNat

/-- After the delay is set, `pit_expire` is called once, when all ticks of the delay have passed, and before that the timer
    can be cleared, which gives what is left of the delay. -/
structure CountsDown (expire : C) (usec : Int) (s : Pit C) : Prop where
  calls : ∀ n, (tick^[n] (pitTimerSet expire usec s)).calls =
    s.calls ++ if delayTicks usec ≤ n then [expire] else []
  clear : ∀ n < delayTicks usec, (pitTimerClear (tick^[n] (pitTimerSet expire usec s))).1 =
    (delayTicks usec - n) * 1000000 / 1193180

/-! ### Loading and reading the counter -/

/-- The two bytes that are written are the count. -/
lemma count_bytes {t : Int} (pos : 0 ≤ t) (small : t ≤ 65535) :
    BitVec.ofNat 16 ((BitVec.ofInt 8 (t % 256)).toNat + 256 * (BitVec.ofInt 8 (t / 256)).toNat) =
      BitVec.ofNat 16 t.toNat := by
  rw [BitVec.toNat_ofInt, BitVec.toNat_ofInt]
  congr 1
  omega

/-- The counter is loaded with what is left, as far as it fits. -/
lemma pitSet_eq {s : Pit C} (pos : 0 ≤ s.ticks) :
    pitSet s = { s with device := ⟨none, [], BitVec.ofNat 16 (min s.ticks.toNat 65535), true⟩ } := by
  rw [pitSet]
  split
  · rw [Nat.min_eq_right (by omega)]
    rfl
  · rw [Nat.min_eq_left (by omega), ← count_bytes pos (by omega)]
    rfl

/-- The count that is read is the count. -/
lemma pitGet_fst (s : Pit C) : (pitGet s).1 = s.device.count.toNat := by
  have low : (s.device.count.setWidth 8).toNat = s.device.count.toNat % 256 := BitVec.toNat_setWidth ..
  have high : ((s.device.count >>> 8).setWidth 8).toNat = s.device.count.toNat / 256 := by
    have := s.device.count.isLt
    rw [BitVec.toNat_setWidth, BitVec.toNat_ushiftRight, Nat.shiftRight_eq_div_pow]
    omega
  show ((s.device.count.setWidth 8).toNat : Int) + ((s.device.count >>> 8).setWidth 8).toNat * 256 = _
  rw [low, high]
  omega

/-! ### Counting down -/

/-- The timer is going, with so many ticks left until `pit_expire` is called. -/
structure Counting (s : Pit C) (expire : C) (left : Nat) : Prop where
  expire : s.pit_expire = some expire
  armed : s.device.armed = true
  count : 0 < s.device.count.toNat
  left : (left : Int) = s.device.count.toNat + max (s.ticks - 65535) 0

/-- The timer is not going. -/
def Idle (s : Pit C) : Prop := s.device.armed = false

/-- A tick without a count does nothing. -/
lemma idle_tick {s : Pit C} (h : Idle s) : Idle (tick s) ∧ (tick s).calls = s.calls := by
  have off : s.device.tick = (false, { s.device with count := s.device.count - 1 }) := by
    rw [I8254.tick, if_neg]
    rw [show s.device.armed = false from h]
    simp
  rw [tick, off]
  exact ⟨h, rfl⟩

/-- Many ticks without a count do nothing. -/
lemma idle_ticks {s : Pit C} (h : Idle s) (n : Nat) : (tick^[n] s).calls = s.calls := by
  induction n generalizing s with
  | zero => rfl
  | succ n ih =>
    rw [Function.iterate_succ_apply, ih (idle_tick h).1, (idle_tick h).2]

/-- One tick less is left, or it was the last one. -/
lemma counting_tick {s : Pit C} {expire : C} {left : Nat} (h : Counting s expire (left + 1)) :
    if left = 0 then Idle (tick s) ∧ (tick s).calls = s.calls ++ [expire]
    else Counting (tick s) expire left ∧ (tick s).calls = s.calls := by
  obtain ⟨hexpire, armed, count, hleft⟩ := h
  by_cases one : s.device.count = 1
  · -- the counter comes to zero
    have irq : s.device.tick = (true, { s.device with count := 0, armed := false }) := if_pos ⟨armed, one⟩
    rw [one, show ((1 : BitVec 16).toNat : Int) = 1 from rfl] at hleft
    rw [tick, irq]
    dsimp only
    rw [if_pos rfl, pitTimerInt]
    by_cases more : s.ticks > 65535
    · rw [if_pos more, if_neg (by omega), pitSet_eq (by show 0 ≤ s.ticks - 65535; omega)]
      refine ⟨⟨hexpire, rfl, ?_, ?_⟩, rfl⟩
      · show 0 < (BitVec.ofNat 16 (min (s.ticks - 65535).toNat 65535)).toNat
        rw [BitVec.toNat_ofNat]
        omega
      · show _ = ((BitVec.ofNat 16 (min (s.ticks - 65535).toNat 65535)).toNat : Int) + max (s.ticks - 65535 - 65535) 0
        rw [BitVec.toNat_ofNat]
        omega
    · rw [if_neg more, if_pos (by omega)]
      refine ⟨rfl, ?_⟩
      show s.calls ++ s.pit_expire.toList = _
      rw [hexpire]
      rfl
  · have ne : s.device.count.toNat ≠ 1 := fun e => one (BitVec.eq_of_toNat_eq e)
    have less : (s.device.count - 1).toNat = s.device.count.toNat - 1 := by
      have := s.device.count.isLt
      rw [BitVec.toNat_sub, show (1 : BitVec 16).toNat = 1 from rfl]
      omega
    have on : s.device.tick = (false, { s.device with count := s.device.count - 1 }) := if_neg fun h => one h.2
    rw [if_neg (by omega), tick, on]
    refine ⟨⟨hexpire, armed, ?_, ?_⟩, rfl⟩
    · show 0 < (s.device.count - 1).toNat
      omega
    · show _ = ((s.device.count - 1).toNat : Int) + max (s.ticks - 65535) 0
      rw [less]
      omega

/-- The ticks before the last one. -/
lemma counting_ticks {s : Pit C} {expire : C} {left n : Nat} (h : Counting s expire left) (lt : n < left) :
    Counting (tick^[n] s) expire (left - n) ∧ (tick^[n] s).calls = s.calls := by
  induction n with
  | zero => exact ⟨h, rfl⟩
  | succ n ih =>
    obtain ⟨counting, calls⟩ := ih (by omega)
    rw [show left - n = left - (n + 1) + 1 by omega] at counting
    have next := counting_tick counting
    rw [if_neg (by omega)] at next
    rw [Function.iterate_succ_apply', ← calls]
    exact next

/-- The calls of `pit_expire` as the ticks go on. -/
lemma counting_calls {s : Pit C} {expire : C} {left : Nat} (h : Counting s expire left) (n : Nat) :
    (tick^[n] s).calls = s.calls ++ if left ≤ n then [expire] else [] := by
  by_cases before : n < left
  · rw [if_neg (by omega), List.append_nil]
    exact (counting_ticks h before).2
  · have pos : 0 < left := by
      have := h.count
      have := h.left
      omega
    obtain ⟨counting, calls⟩ := counting_ticks h (n := left - 1) (by omega)
    rw [show left - (left - 1) = 0 + 1 by omega] at counting
    have last := counting_tick counting
    rw [if_pos rfl, calls] at last
    have split : n = (n - left) + 1 + (left - 1) := by omega
    rw [if_pos (by omega), split, Function.iterate_add_apply, Function.iterate_succ_apply, idle_ticks last.1, last.2]

/-- Clearing the timer while it is going. -/
lemma counting_clear {s : Pit C} {expire : C} {left : Nat} (h : Counting s expire left) :
    (pitTimerClear s).1 = toUsec left := by
  have left := h.left
  show toUsec (if s.ticks > 65535 then s.ticks - 65535 + (pitGet s).1 else (pitGet s).1) = _
  rw [pitGet_fst]
  congr 1
  split <;> omega

/-! ### Setting the timer -/

/-- A number that fits into 64 bits. -/
lemma int64_eq {x : Int} (low : 0 ≤ x) (high : x < 2 ^ 63) : int64 x = x := by
  rw [int64, Int.bmod_def]
  omega

/-- The ticks of a delay, without overflow. -/
lemma toTicks_eq {usec : Int} (nonneg : 0 ≤ usec) (fits : 1193180 * usec < 2 ^ 63) :
    toTicks usec = delayTicks usec := by
  rw [toTicks, int64_eq (by omega) fits, Int.tdiv_eq_ediv_of_nonneg (by omega), delayTicks]
  omega

/-- The ticks of a delay are turned back without an overflow. -/
lemma toUsec_eq {usec : Int} (nonneg : 0 ≤ usec) (fits : 1193180 * usec < 2 ^ 63) {left : Nat}
    (le : left ≤ delayTicks usec) : toUsec left = left * 1000000 / 1193180 := by
  rw [delayTicks] at le
  rw [toUsec, int64_eq (by omega) (by omega), Int.tdiv_eq_ediv_of_nonneg (by omega)]

/-- After `pit_timer_set` the counter counts the delay. -/
lemma counting_set (expire : C) {usec : Int} (s : Pit C) (pos : 0 < usec) (fits : 1193180 * usec < 2 ^ 63) :
    Counting (pitTimerSet expire usec s) expire (delayTicks usec) := by
  have ticks := toTicks_eq pos.le fits
  have one : 0 < delayTicks usec := by
    rw [delayTicks]
    omega
  rw [pitTimerSet, pitSet_eq (by show 0 ≤ toTicks usec; omega)]
  refine ⟨rfl, rfl, ?_, ?_⟩
  · show 0 < (BitVec.ofNat 16 (min (toTicks usec).toNat 65535)).toNat
    rw [BitVec.toNat_ofNat]
    omega
  · show _ = ((BitVec.ofNat 16 (min (toTicks usec).toNat 65535)).toNat : Int) + max (toTicks usec - 65535) 0
    rw [BitVec.toNat_ofNat]
    omega

/-- `pit_timer_set` calls nothing itself. -/
lemma pitTimerSet_calls (expire : C) (usec : Int) (s : Pit C) : (pitTimerSet expire usec s).calls = s.calls := by
  rw [pitTimerSet, pitSet]
  split <;> rfl

/-- Every delay is counted down as it should be, except that of no time: a count of zero takes `65536` ticks. -/
theorem pitTimerSet_countsDown_iff (expire : C) (usec : Int) (s : Pit C) (nonneg : 0 ≤ usec)
    (fits : 1193180 * usec < 2 ^ 63) : CountsDown expire usec s ↔ usec ≠ 0 := by
  constructor
  · rintro ⟨calls, -⟩ rfl
    have now : (pitTimerSet expire 0 s).calls = s.calls ++ [expire] := calls 0
    rw [pitTimerSet_calls] at now
    have length := congrArg List.length now
    rw [List.length_append] at length
    exact absurd length (by simp)
  · intro ne
    have counting := counting_set expire s (by omega) fits
    refine ⟨fun n => ?_, fun n lt => ?_⟩
    · rw [counting_calls counting, pitTimerSet_calls]
    · rw [counting_clear (counting_ticks counting lt).1, toUsec_eq nonneg fits (Nat.sub_le _ _)]
      congr 2
      omega

/-- A driver that has not been used, with the device as it happens to be. -/
def pitStart (device : I8254) : Pit Unit := ⟨0, none, device, []⟩

/-- A delay of one second, which takes 19 rounds of the counter. -/
theorem pitTimerSet_second : CountsDown () 1000000 (pitStart ⟨none, [], 0, false⟩) :=
  (pitTimerSet_countsDown_iff () 1000000 _ (by decide) (by decide)).mpr (by decide)

/-- For a delay of no time, the count is zero and nothing is called at once. -/
theorem pitTimerSet_zero : ¬CountsDown () 0 (pitStart ⟨none, [], 0, false⟩) := by
  intro h
  have now := h.calls 0
  exact absurd now (by decide)

end Twcos.Timer
