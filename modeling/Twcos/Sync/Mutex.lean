import Mathlib.Logic.Function.Basic
import Mathlib.Data.Int.Init
import Twcos.Run.Basic

/-!
# The mutex

Model of `mutex_t` in `kernel/sync.c`, used by any number of threads. Each region between
`spin_lock(&lock->spin)` and `spin_unlock(&lock->spin)` is one event; the contended path of `mutex_lock`
gives the spin lock up inside `thread_lock_wait`, so it is cut there: a thread that finds the mutex taken
goes to sleep, and once resumed tests the owner again in an event of its own.

C → Lean naming: `mutex_lock` → `mutexLock` up to its first `thread_schedule`, `mutexRetry` from there on;
`mutex_unlock` → `mutexUnlock`; `thread_lock_wait`, `thread_lock_signal` → `threadLockWait`,
`threadLockSignal`. `count` is an `int`, which wraps around after
`2 ^ 31 - 1`.
-/

namespace Twcos.Sync
open Twcos.Run

variable {T : Type} [DecidableEq T]

/-- `mutex_t` without the spin lock. -/
structure Mutex (T : Type) where
  owner : Option T
  count : BitVec 32
  waiting : List T

/-- Where a thread is: outside `mutex_lock`, asleep on `waiting`, or resumed and about to test the owner
    again. -/
inductive Phase where
  | outside
  | sleeping
  | resumed
deriving DecidableEq

/-- The mutex, the threads, and for each thread the number of calls of `mutex_lock` that have returned to
    it less the calls of `mutex_unlock` it has made. -/
structure State (T : Type) where
  lock : Mutex T
  phase : T → Phase
  held : T → Nat

/-- `thread_lock_signal`. -/
def threadLockSignal (s : State T) : State T :=
  match s.lock.waiting with
  | [] => s
  | resume :: rest =>
    { s with
      lock := { s.lock with waiting := rest }
      phase := Function.update s.phase resume .resumed }

/-- `thread_lock_wait`, up to `thread_schedule`. -/
def threadLockWait (s : State T) (thread : T) : State T :=
  threadLockSignal
    { s with
      lock := { s.lock with waiting := s.lock.waiting ++ [thread] }
      phase := Function.update s.phase thread .sleeping }

/-- The end of `mutex_lock`: `lock->count++`, and return. -/
def mutexLocked (s : State T) (thread : T) : State T :=
  { lock := { s.lock with count := s.lock.count + 1 }
    phase := Function.update s.phase thread .outside
    held := Function.update s.held thread (s.held thread + 1) }

/-- `mutex_lock`, from the call to its return or its first `thread_schedule`. -/
def mutexLock (s : State T) (thread : T) : State T :=
  match s.lock.owner with
  | none => mutexLocked { s with lock := { s.lock with owner := some thread } } thread
  | some owner => if thread ≠ owner then threadLockWait s thread else mutexLocked s thread

/-- `mutex_lock`, from a return of `thread_schedule` to its return or the next `thread_schedule`: the loop
    `while (0 != lock->owner) thread_lock_wait(lock)`. -/
def mutexRetry (s : State T) (thread : T) : State T :=
  if s.lock.owner ≠ none then threadLockWait s thread else mutexLocked s thread

/-- `lock->count--`, and `lock->owner = 0` at zero. -/
def Mutex.release (lock : Mutex T) : Mutex T :=
  let count := lock.count - 1
  { lock with count := count, owner := if count = 0 then none else lock.owner }

/-- `mutex_unlock`. -/
def mutexUnlock (s : State T) (thread : T) : State T :=
  { s with
    lock := if some thread = s.lock.owner then s.lock.release else s.lock
    held := Function.update s.held thread (s.held thread - 1) }

/-- A region under the spin lock, and the thread that runs it. -/
inductive Event (T : Type) where
  | lock (thread : T)
  | retry (thread : T)
  | unlock (thread : T)

/-- A thread calls `mutex_lock` and `mutex_unlock` when it is outside, unlocks only what it holds, and
    tests the owner again after it was resumed. -/
def step (s : State T) : Event T → Option (State T)
  | .lock thread => if s.phase thread = .outside then some (mutexLock s thread) else none
  | .retry thread => if s.phase thread = .resumed then some (mutexRetry s thread) else none
  | .unlock thread =>
    if s.phase thread = .outside ∧ 0 < s.held thread then some (mutexUnlock s thread) else none

/-- A free mutex. -/
def start : State T := ⟨⟨none, 0, []⟩, fun _ => .outside, fun _ => 0⟩

/-- At most one thread holds the mutex, and `owner` and `count` tell which one and how often. -/
structure Exclusive (s : State T) : Prop where
  one : ∀ t u, 0 < s.held t → 0 < s.held u → t = u
  holder : ∀ t, 0 < s.held t → s.lock.owner = some t ∧ s.lock.count.toInt = s.held t
  free : (∀ t, s.held t = 0) → s.lock.owner = none ∧ s.lock.count = 0

/-- The step is not a resumed thread that finds the mutex free, and not a call that takes `count` beyond
    the largest `int`. -/
def Sound (s : State T) : Event T → Prop
  | .lock thread => s.lock.owner = some thread → s.lock.count.toInt < 2 ^ 31 - 1
  | .retry _ => s.lock.owner ≠ none
  | .unlock _ => True

/-- The count as a number, one up. -/
lemma count_succ {c : BitVec 32} {n : Nat} (h : c.toInt = n) (hn : n < 2 ^ 31 - 1) :
    (c + 1).toInt = (n + 1 : Nat) := by
  rw [BitVec.toInt_add, h, show (1 : BitVec 32).toInt = 1 from rfl]
  rw [Int.bmod_eq_of_le] <;> omega

/-- The count as a number, one down. -/
lemma count_pred {c : BitVec 32} {n : Nat} (h : c.toInt = n) (hn : 0 < n) :
    (c - 1).toInt = (n - 1 : Nat) := by
  have lt := BitVec.toInt_lt (x := c)
  rw [BitVec.toInt_sub, h, show (1 : BitVec 32).toInt = 1 from rfl]
  rw [Int.bmod_eq_of_le] <;> omega

/-- The count is zero as a number. -/
lemma count_eq_zero {c : BitVec 32} : c = 0 ↔ c.toInt = 0 := by
  constructor
  · rintro rfl
    rfl
  · intro h
    apply BitVec.eq_of_toInt_eq
    rw [h]
    rfl

/-- Waiting for the lock leaves its owner. -/
@[simp] lemma threadLockWait_owner (s : State T) (thread : T) :
    (threadLockWait s thread).lock.owner = s.lock.owner := by
  unfold threadLockWait threadLockSignal
  split <;> rfl

/-- Waiting for the lock leaves its count. -/
@[simp] lemma threadLockWait_count (s : State T) (thread : T) :
    (threadLockWait s thread).lock.count = s.lock.count := by
  unfold threadLockWait threadLockSignal
  split <;> rfl

/-- Waiting for the lock leaves what the threads hold. -/
@[simp] lemma threadLockWait_held (s : State T) (thread : T) :
    (threadLockWait s thread).held = s.held := by
  unfold threadLockWait threadLockSignal
  split <;> rfl

/-- Going to sleep changes nothing that matters. -/
lemma Exclusive.wait {s : State T} (h : Exclusive s) (thread : T) :
    Exclusive (threadLockWait s thread) := by
  constructor
  · simpa only [threadLockWait_held] using h.one
  · simpa only [threadLockWait_held, threadLockWait_owner, threadLockWait_count] using h.holder
  · simpa only [threadLockWait_held, threadLockWait_owner, threadLockWait_count] using h.free

omit [DecidableEq T] in
/-- With no owner nobody holds the mutex. -/
lemma Exclusive.nobody {s : State T} (h : Exclusive s) (ho : s.lock.owner = none) (t : T) :
    s.held t = 0 := by
  by_contra e
  have := (h.holder t (Nat.pos_of_ne_zero e)).1
  rw [ho] at this
  cases this

omit [DecidableEq T] in
/-- The owner holds the mutex, and nobody else does. -/
lemma Exclusive.owner {s : State T} (h : Exclusive s) {t : T} (ho : s.lock.owner = some t) :
    0 < s.held t ∧ ∀ u, u ≠ t → s.held u = 0 := by
  have held : 0 < s.held t := by
    by_contra e
    have none_held : ∀ u, s.held u = 0 := by
      intro u
      by_contra eu
      have hu := (h.holder u (Nat.pos_of_ne_zero eu)).1
      rw [ho] at hu
      cases hu
      omega
    have free := (h.free none_held).1
    rw [ho] at free
    cases free
  refine ⟨held, fun u hu => ?_⟩
  by_contra eu
  exact hu (h.one u t (Nat.pos_of_ne_zero eu) held)

omit [DecidableEq T] in
/-- A state where only `t` holds, and `owner` and `count` say so. -/
lemma exclusive_of_holder {s : State T} {t : T} (ho : s.lock.owner = some t) (ht : 0 < s.held t)
    (hc : s.lock.count.toInt = s.held t) (rest : ∀ u, u ≠ t → s.held u = 0) : Exclusive s := by
  have only : ∀ u, 0 < s.held u → u = t := by
    intro u hu
    by_contra e
    rw [rest u e] at hu
    cases hu
  constructor
  · intro u v hu hv
    rw [only u hu, only v hv]
  · intro u hu
    rw [only u hu]
    exact ⟨ho, hc⟩
  · intro h
    rw [h t] at ht
    cases ht

/-- `mutex_lock` keeps exclusion exactly under the condition. -/
lemma exclusive_lock {s : State T} (h : Exclusive s) (t : T) :
    Exclusive (mutexLock s t) ↔ Sound s (.lock t) := by
  unfold mutexLock
  cases ho : s.lock.owner with
  | none =>
    have nobody := h.nobody ho
    have count := (h.free nobody).2
    refine iff_of_true (exclusive_of_holder (t := t) rfl ?_ ?_ ?_) fun e => ?_
    · simp [mutexLocked]
    · simp [mutexLocked, count, nobody t]
    · intro u hu
      simp [mutexLocked, hu, nobody u]
    · rw [ho] at e
      cases e
  | some o =>
    by_cases hto : t = o
    · subst hto
      obtain ⟨held, rest⟩ := h.owner ho
      have count := (h.holder t held).2
      have hheld : (mutexLocked s t).held t = s.held t + 1 := by simp [mutexLocked]
      simp only [ne_eq, not_true_eq_false, if_false, Sound, ho, forall_const]
      constructor
      · intro he
        have hc := (he.holder t (by omega)).2
        rw [hheld] at hc
        have lt := BitVec.toInt_lt (x := (mutexLocked s t).lock.count)
        omega
      · intro hlt
        refine exclusive_of_holder (t := t) ho (by omega) ?_ ?_
        · rw [hheld]
          exact count_succ count (by omega)
        · intro u hu
          simp [mutexLocked, hu, rest u hu]
    · refine iff_of_true ?_ fun e => ?_
      · simp only [ne_eq, hto, not_false_eq_true, if_true]
        exact h.wait t
      · rw [ho] at e
        cases e
        exact absurd rfl hto

/-- The retry of a thread that waited keeps exclusion exactly under the condition. -/
lemma exclusive_retry {s : State T} (h : Exclusive s) (t : T) :
    Exclusive (mutexRetry s t) ↔ Sound s (.retry t) := by
  unfold mutexRetry
  by_cases ho : s.lock.owner = none
  · -- the waiter returns, but nobody has made it the owner
    refine iff_of_false (fun he => ?_) fun e => e ho
    simp only [ne_eq, ho, not_true_eq_false, if_false] at he
    have held : 0 < (mutexLocked s t).held t := by simp [mutexLocked]
    have owner : s.lock.owner = some t := (he.holder t held).1
    rw [ho] at owner
    cases owner
  · simp only [ne_eq, ho, not_false_eq_true, if_true]
    exact iff_of_true (h.wait t) ho

/-- `mutex_unlock` keeps exclusion. -/
lemma exclusive_unlock {s : State T} (h : Exclusive s) {t : T} (ht : 0 < s.held t) :
    Exclusive (mutexUnlock s t) := by
  obtain ⟨ho, count⟩ := h.holder t ht
  obtain ⟨-, rest⟩ := h.owner ho
  have hheld : (mutexUnlock s t).held t = s.held t - 1 := by simp [mutexUnlock]
  have hrest : ∀ u, u ≠ t → (mutexUnlock s t).held u = 0 := by
    intro u hu
    simp [mutexUnlock, hu, rest u hu]
  have hlock : (mutexUnlock s t).lock = s.lock.release := by simp [mutexUnlock, ho]
  have pred := count_pred count ht
  by_cases last : s.held t = 1
  · have zero : s.lock.count - 1 = 0 := count_eq_zero.mpr (by omega)
    have none_held : ∀ u, (mutexUnlock s t).held u = 0 := by
      intro u
      by_cases hu : u = t
      · rw [hu, hheld, last]
      · exact hrest u hu
    constructor
    · intro u v hu
      rw [none_held u] at hu
      cases hu
    · intro u hu
      rw [none_held u] at hu
      cases hu
    · intro _
      rw [hlock]
      exact ⟨if_pos zero, zero⟩
  · have nonzero : s.lock.count - 1 ≠ 0 := fun e => by
      have := count_eq_zero.mp e
      omega
    refine exclusive_of_holder (t := t) ?_ (by omega) ?_ hrest
    · rw [hlock]
      exact (if_neg nonzero).trans ho
    · rw [hlock, hheld]
      exact pred

/-- Exactly the sound steps keep the mutex exclusive. -/
lemma exclusive_step {s s' : State T} {e : Event T} (h : Exclusive s) (hs : step s e = some s') :
    Exclusive s' ↔ Sound s e := by
  cases e with
  | lock t =>
    rw [step] at hs
    split at hs
    · cases hs
      exact exclusive_lock h t
    · cases hs
  | retry t =>
    rw [step] at hs
    split at hs
    · cases hs
      exact exclusive_retry h t
    · cases hs
  | unlock t =>
    rw [step] at hs
    split at hs
    · next en =>
      cases hs
      exact iff_of_true (exclusive_unlock h en.2) trivial
    · cases hs

omit [DecidableEq T] in
/-- At first nobody holds the lock. -/
lemma exclusive_start : Exclusive (start : State T) :=
  ⟨nofun, nofun, fun _ => ⟨rfl, rfl⟩⟩

/-- The mutex is exclusive in every state of a run exactly when the run has no step where a resumed waiter
    finds it free, and none where `count` wraps around. -/
theorem exclusive_always_iff (es : List (Event T)) :
    Always step Exclusive (start : State T) es ↔ Meets step Sound (start : State T) es :=
  always_iff_meets (I := fun _ => True) (fun _ _ _ _ h hs => exclusive_step h hs)
    (fun _ _ _ _ _ _ _ => trivial) trivial exclusive_start

/-- Thread 1 waits for thread 0, is resumed after the unlock, and returns from `mutex_lock` with no owner
    recorded; thread 0 can then lock the mutex as well. -/
theorem contended_lock_not_exclusive :
    ∃ s : State Nat, exec step start [.lock 0, .lock 1, .unlock 0, .retry 1, .lock 0] = some s ∧
      s.held 0 = 1 ∧ s.held 1 = 1 ∧ ¬Exclusive s := by
  refine ⟨_, rfl, rfl, rfl, fun h => ?_⟩
  have same := h.one 0 1 (by decide) (by decide)
  cases same

end Twcos.Sync
