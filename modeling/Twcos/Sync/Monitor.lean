import Twcos.Sync.Mutex

/-!
# The monitor

Model of `monitor_t` in `kernel/sync.c` on top of the mutex. `monitor_wait` is cut at each point where other
threads may run: it puts the thread on the list of the monitor and saves `count`, unlocks the mutex, sleeps
until it is resumed, locks the mutex again, which may take several turns, and restores `count`.

C → Lean naming: `monitor_wait` → `monitorWait` up to `mutex_unlock`, `monitorSleep` from there to
`thread_schedule`, `monitorWake` from its return, `monitorRestore` for the rest; `monitor_signal` →
`monitorSignal`. `monitor_enter` and `monitor_leave` are `mutexLock` and `mutexUnlock`.
-/

namespace Twcos.Sync
open Twcos.Run Function

variable {T : Type} [DecidableEq T]

/-- Where a thread is in `monitor_wait`, with the `count` that it saved: not in it, about to unlock, asleep or
    resumed, in `mutex_lock`, about to restore `count`, about to return. -/
inductive Stage where
  | outside
  | queued (count : BitVec 32)
  | asleep (count : BitVec 32)
  | relocking (count : BitVec 32)
  | relocked (count : BitVec 32)
  | returned (count : BitVec 32)
deriving DecidableEq

/-- `monitor_t`, and where the threads are. -/
structure Monitor (T : Type) where
  mutex : State T
  waiting : List T
  stage : T → Stage

/-- `monitor_wait`, up to `mutex_unlock`. -/
def monitorWait (s : Monitor T) (thread : T) : Monitor T :=
  { s with
    waiting := s.waiting ++ [thread]
    stage := update s.stage thread (.queued s.mutex.lock.count) }

/-- `monitor_wait`, from `mutex_unlock` to `thread_schedule`. -/
def monitorSleep (s : Monitor T) (thread : T) (count : BitVec 32) : Monitor T :=
  { s with
    mutex := mutexUnlock s.mutex thread
    stage := update s.stage thread (.asleep count) }

/-- The stage of a thread that `mutex_lock` has left in a phase. -/
def relock (phase : Phase) (count : BitVec 32) : Stage :=
  if phase = .outside then .relocked count else .relocking count

/-- `monitor_wait`, from the return of `thread_schedule` into `mutex_lock`. -/
def monitorWake (s : Monitor T) (thread : T) (count : BitVec 32) : Monitor T :=
  let mutex := mutexLock s.mutex thread
  { s with mutex := mutex, stage := update s.stage thread (relock (mutex.phase thread) count) }

/-- Another turn of the loop of `mutex_lock`, which a thread may be in because of `monitor_wait`. -/
def monitorRetry (s : Monitor T) (thread : T) : Monitor T :=
  let mutex := mutexRetry s.mutex thread
  match s.stage thread with
  | .relocking count =>
    { s with mutex := mutex, stage := update s.stage thread (relock (mutex.phase thread) count) }
  | _ => { s with mutex := mutex }

/-- The rest of `monitor_wait`: `monitor->lock->count = count`. -/
def monitorRestore (s : Monitor T) (thread : T) (count : BitVec 32) : Monitor T :=
  { s with
    mutex := { s.mutex with lock := { s.mutex.lock with count := count } }
    stage := update s.stage thread (.returned count) }

/-- `monitor_signal`; there is somebody waiting. -/
def monitorSignal (s : Monitor T) : Option (Monitor T) :=
  match s.waiting with
  | [] => none
  | _ :: rest => some { s with waiting := rest }

/-- What a thread does next. -/
inductive MonitorEvent (T : Type) where
  | enter (thread : T)
  | leave (thread : T)
  | retry (thread : T)
  | wait (thread : T)
  | sleep (thread : T)
  | signal
  | wake (thread : T)
  | restore (thread : T)
  | return (thread : T)

/-- The thread runs code outside of `mutex_lock` and `monitor_wait`. -/
def Outside (s : Monitor T) (thread : T) : Prop :=
  s.mutex.phase thread = .outside ∧ s.stage thread = .outside

instance (s : Monitor T) (thread : T) : Decidable (Outside s thread) := inferInstanceAs (Decidable (_ ∧ _))

/-- `monitor_wait` is called by a thread that has entered the monitor, on whatever path of `mutex_lock`. -/
def Entered (s : Monitor T) (thread : T) : Prop := 0 < s.mutex.held thread

instance (s : Monitor T) (thread : T) : Decidable (Entered s thread) := inferInstanceAs (Decidable (_ < _))

def monitorStep (s : Monitor T) : MonitorEvent T → Option (Monitor T)
  | .enter thread => if Outside s thread then some { s with mutex := mutexLock s.mutex thread } else none
  | .leave thread => if Outside s thread then some { s with mutex := mutexUnlock s.mutex thread } else none
  | .retry thread => if s.mutex.phase thread = .resumed then some (monitorRetry s thread) else none
  | .wait thread => if Outside s thread ∧ Entered s thread then some (monitorWait s thread) else none
  | .sleep thread =>
    match s.stage thread with
    | .queued count => some (monitorSleep s thread count)
    | _ => none
  | .signal => monitorSignal s
  | .wake thread =>
    match s.stage thread with
    | .asleep count => if thread ∉ s.waiting then some (monitorWake s thread count) else none
    | _ => none
  | .restore thread =>
    match s.stage thread with
    | .relocked count => some (monitorRestore s thread count)
    | _ => none
  | .return thread =>
    match s.stage thread with
    | .returned _ => some { s with stage := update s.stage thread .outside }
    | _ => none

/-- A free monitor. -/
def monitorStart : Monitor T := ⟨start, [], fun _ => .outside⟩

/-- The thread leaves the lock completely free for other threads: it does not hold it, `owner` and `count` are those of a
    thread that does, and if there is none, the lock has no owner and its count is 0. -/
structure LeavesFree (s : Monitor T) (t : T) : Prop where
  away : s.mutex.held t = 0 ∧ s.mutex.lock.owner ≠ some t
  free : (∀ u, s.mutex.held u = 0) → s.mutex.lock.owner = none ∧ s.mutex.lock.count = 0
  taken : ∀ u, 0 < s.mutex.held u → s.mutex.lock.owner = some u ∧ s.mutex.lock.count.toInt = s.mutex.held u

/-- A thread that is descheduled in `monitor_wait` leaves the lock free for others, and is the owner again, with the count
    that it had, when it returns. -/
def Released (s : Monitor T) : Prop :=
  ∀ t count, (s.stage t = .asleep count → LeavesFree s t) ∧
    (s.stage t = .returned count → s.mutex.lock.owner = some t ∧ s.mutex.lock.count = count)

/-- `monitor_wait` is called with the lock held once, no thread that has had to wait for the lock finds it free, and no call
    takes `count` beyond the largest `int`. -/
def Once (s : Monitor T) : MonitorEvent T → Prop
  | .wait _ => s.mutex.lock.count = 1
  | .enter thread => Sound s.mutex (.lock thread)
  | .retry thread => Sound s.mutex (.retry thread)
  | _ => True

/-! ### What the mutex does -/

/-- A thread that has to wait is not outside of `mutex_lock`. -/
lemma threadLockWait_phase (s : State T) (thread : T) :
    (threadLockWait s thread).phase thread ≠ .outside := by
  unfold threadLockWait threadLockSignal
  split
  · simp
  · rename_i resume rest waiting
    by_cases e : thread = resume
    · subst e
      simp
    · simp [update_of_ne e]

/-- `mutex_lock` by a thread that does not hold the lock takes it once, or leaves everything as it is but for the waiting
    list. -/
lemma mutexLock_held {s : State T} (exclusive : Exclusive s) {thread : T} (away : s.held thread = 0) :
    (mutexLock s thread).phase thread = .outside ∧ (mutexLock s thread).held = update s.held thread 1 ∨
      (mutexLock s thread).phase thread ≠ .outside ∧ (mutexLock s thread).held = s.held := by
  unfold mutexLock
  cases ho : s.lock.owner with
  | none =>
    left
    refine ⟨update_self _ _ _, ?_⟩
    show update s.held thread (s.held thread + 1) = update s.held thread 1
    rw [away]
  | some owner =>
    have ne : thread ≠ owner := by
      rintro rfl
      have held := (exclusive.owner ho).1
      omega
    right
    show (if thread ≠ owner then _ else _ : State T).phase thread ≠ _ ∧ (if thread ≠ owner then _ else _ : State T).held = _
    rw [if_pos ne]
    exact ⟨threadLockWait_phase s thread, threadLockWait_held s thread⟩

/-- `mutex_lock` does not change what other threads hold. -/
lemma mutexLock_others (s : State T) {thread t : T} (ne : t ≠ thread) : (mutexLock s thread).held t = s.held t := by
  unfold mutexLock
  split
  · exact update_of_ne ne _ _
  · split
    · rw [threadLockWait_held]
    · exact update_of_ne ne _ _

/-- `mutex_unlock` by a thread that does not hold the lock does nothing. -/
lemma mutexUnlock_away {s : State T} (exclusive : Exclusive s) {thread : T} (away : s.held thread = 0) :
    mutexUnlock s thread = s := by
  have other : some thread ≠ s.lock.owner := by
    intro owner
    have held := (exclusive.owner owner.symm).1
    omega
  have less : s.held thread - 1 = s.held thread := by omega
  rw [mutexUnlock, if_neg other, less, update_eq_self]

/-- `mutex_unlock` keeps the mutex exclusive, whoever calls it. -/
lemma Exclusive.unlock {s : State T} (exclusive : Exclusive s) (thread : T) : Exclusive (mutexUnlock s thread) := by
  rcases Nat.eq_zero_or_pos (s.held thread) with away | held
  · rw [mutexUnlock_away exclusive away]
    exact exclusive
  · exact exclusive_unlock exclusive held

/-! ### The invariant -/

/-- How often a thread holds the lock in a stage of `monitor_wait` that it has entered with the lock held once, and the count
    that it has saved. -/
def Stage.Holds (held : Nat) : Stage → Prop
  | .outside => True
  | .queued count | .relocked count | .returned count => held = 1 ∧ count = 1
  | .asleep count | .relocking count => held = 0 ∧ count = 1

/-- The mutex is exclusive. A thread in `monitor_wait` has the lock once before it sleeps, has given it up while it sleeps,
    and has it again before it returns. -/
structure Waits (s : Monitor T) : Prop where
  exclusive : Exclusive s.mutex
  holds : ∀ t, (s.stage t).Holds (s.mutex.held t)

omit [DecidableEq T] in
/-- What the invariant says of threads that are asleep or about to return. -/
lemma Waits.released {s : Monitor T} (h : Waits s) : Released s := by
  intro t count
  have holds := h.holds t
  refine ⟨fun stage => ?_, fun stage => ?_⟩
  · rw [stage] at holds
    refine ⟨⟨holds.1, fun owner => ?_⟩, h.exclusive.free, h.exclusive.holder⟩
    have held := (h.exclusive.owner owner).1
    have := holds.1
    omega
  · rw [stage] at holds
    obtain ⟨once, rfl⟩ := holds
    obtain ⟨owner, counted⟩ := h.exclusive.holder t (by omega)
    refine ⟨owner, BitVec.eq_of_toInt_eq ?_⟩
    rw [counted, once]
    rfl

/-- A step of one thread: it goes to a stage that fits what it holds then, and all others hold what they held. -/
lemma Waits.move {s : Monitor T} (h : Waits s) (thread : T) {mutex : State T} {st : Stage} (exclusive : Exclusive mutex)
    (holds : st.Holds (mutex.held thread)) (others : ∀ t, t ≠ thread → mutex.held t = s.mutex.held t) :
    Waits { s with mutex := mutex, stage := update s.stage thread st } where
  exclusive := exclusive
  holds := (forall_update_iff s.stage fun t st => st.Holds (mutex.held t)).mpr
    ⟨holds, fun t ne => (others t ne).symm ▸ h.holds t⟩

/-- A step of a thread that stays in its stage. -/
lemma Waits.stay {s : Monitor T} (h : Waits s) (thread : T) {mutex : State T} (exclusive : Exclusive mutex)
    (holds : (s.stage thread).Holds (mutex.held thread)) (others : ∀ t, t ≠ thread → mutex.held t = s.mutex.held t) :
    Waits { s with mutex := mutex } := by
  have moved := h.move thread exclusive holds others
  rwa [update_eq_self] at moved

/-- The thread saves the count, and it has taken the lock once. -/
lemma Waits.wait {s : Monitor T} (h : Waits s) {thread : T} (held : 0 < s.mutex.held thread)
    (once : s.mutex.lock.count = 1) : Waits (monitorWait s thread) := by
  have counted := (h.exclusive.holder thread held).2
  have taken : s.mutex.held thread = 1 := by
    rw [once, show (1 : BitVec 32).toInt = 1 from rfl] at counted
    omega
  have holds : (Stage.queued s.mutex.lock.count).Holds (s.mutex.held thread) := ⟨taken, once⟩
  have moved := h.move thread h.exclusive holds fun _ _ => rfl
  exact ⟨moved.exclusive, moved.holds⟩

/-- The thread gives the lock up. -/
lemma Waits.sleep {s : Monitor T} (h : Waits s) {thread : T} {count : BitVec 32}
    (stage : s.stage thread = .queued count) : Waits (monitorSleep s thread count) := by
  have holds := h.holds thread
  rw [stage] at holds
  refine h.move thread (h.exclusive.unlock thread) ⟨?_, holds.2⟩ fun t ne => update_of_ne ne _ _
  show update s.mutex.held thread (s.mutex.held thread - 1) thread = 0
  rw [update_self, holds.1]

/-- The thread calls `mutex_lock` again. -/
lemma Waits.wake {s : Monitor T} (h : Waits s) {thread : T} {count : BitVec 32}
    (stage : s.stage thread = .asleep count) : Waits (monitorWake s thread count) := by
  have holds := h.holds thread
  rw [stage] at holds
  obtain ⟨away, one⟩ := holds
  have exclusive : Exclusive (mutexLock s.mutex thread) := by
    refine (exclusive_lock h.exclusive thread).mpr fun owner => ?_
    have held := (h.exclusive.owner owner).1
    omega
  refine h.move thread exclusive ?_ fun t ne => mutexLock_others s.mutex ne
  rcases mutexLock_held h.exclusive away with ⟨phase, held⟩ | ⟨phase, held⟩
  · rw [relock, if_pos phase, held, update_self]
    exact ⟨rfl, one⟩
  · rw [relock, if_neg phase, held]
    exact ⟨away, one⟩

/-- The lock is not free, so that the thread waits again, in `monitor_wait` or not. -/
lemma Waits.retry {s : Monitor T} (h : Waits s) {thread : T} (taken : s.mutex.lock.owner ≠ none) :
    Waits (monitorRetry s thread) := by
  have again : mutexRetry s.mutex thread = threadLockWait s.mutex thread := if_pos taken
  have exclusive := h.exclusive.wait thread
  unfold monitorRetry
  rw [again]
  have holds := h.holds thread
  split
  · rename_i count stage
    rw [stage] at holds
    refine h.move thread exclusive ?_ fun t _ => by rw [threadLockWait_held]
    rw [relock, if_neg (threadLockWait_phase s.mutex thread), threadLockWait_held]
    exact holds
  · refine h.stay thread exclusive ?_ fun t _ => by rw [threadLockWait_held]
    rw [threadLockWait_held]
    exact holds

/-- The count that the thread restores is the one that is there. -/
lemma Waits.restore {s : Monitor T} (h : Waits s) {thread : T} {count : BitVec 32}
    (stage : s.stage thread = .relocked count) : Waits (monitorRestore s thread count) := by
  have holds := h.holds thread
  rw [stage] at holds
  have counted := (h.exclusive.holder thread (by have := holds.1; omega)).2
  have same : s.mutex.lock.count = count := by
    apply BitVec.eq_of_toInt_eq
    rw [counted, holds.1, holds.2]
    rfl
  subst same
  exact h.move thread h.exclusive holds fun _ _ => rfl

/-- A step that meets the condition keeps the invariant. -/
lemma waits_step {s s' : Monitor T} {e : MonitorEvent T} (h : Waits s) (run : monitorStep s e = some s')
    (once : Once s e) : Waits s' := by
  cases e with
  | enter thread =>
    rw [monitorStep] at run
    split at run
    · next out =>
      cases run
      refine h.stay thread ((exclusive_lock h.exclusive thread).mpr once) ?_ fun t ne => mutexLock_others s.mutex ne
      rw [out.2]
      trivial
    · cases run
  | leave thread =>
    rw [monitorStep] at run
    split at run
    · next out =>
      cases run
      refine h.stay thread (h.exclusive.unlock thread) ?_ fun t ne => update_of_ne ne _ _
      rw [out.2]
      trivial
    · cases run
  | retry thread =>
    rw [monitorStep] at run
    split at run
    · cases run
      exact h.retry once
    · cases run
  | wait thread =>
    rw [monitorStep] at run
    split at run
    · next entered =>
      cases run
      exact h.wait entered.2 once
    · cases run
  | sleep thread =>
    rw [monitorStep] at run
    split at run
    · next count stage =>
      cases run
      exact h.sleep stage
    · cases run
  | signal =>
    rw [monitorStep, monitorSignal] at run
    split at run
    · cases run
    · cases run
      exact ⟨h.exclusive, h.holds⟩
  | wake thread =>
    rw [monitorStep] at run
    split at run
    · next count stage =>
      split at run
      · cases run
        exact h.wake stage
      · cases run
    · cases run
  | restore thread =>
    rw [monitorStep] at run
    split at run
    · next count stage =>
      cases run
      exact h.restore stage
    · cases run
  | «return» thread =>
    rw [monitorStep] at run
    split at run
    · cases run
      have holds : Stage.outside.Holds (s.mutex.held thread) := trivial
      exact h.move thread h.exclusive holds fun _ _ => rfl
    · cases run

/-- In a run where `monitor_wait` is only called with the lock held once, and no thread that has had to wait for the lock
    finds it free, every thread that is descheduled in `monitor_wait` leaves the lock free, and returns as its owner. -/
theorem released_always (es : List (MonitorEvent T))
    (once : Meets monitorStep Once (monitorStart : Monitor T) es) :
    Always monitorStep Released (monitorStart : Monitor T) es := by
  have start : Waits (monitorStart : Monitor T) := ⟨exclusive_start, fun _ => trivial⟩
  have waits : Always monitorStep Waits (monitorStart : Monitor T) es :=
    always_of_meets (fun _ _ _ h hs hc => waits_step h hs hc) start once
  exact waits.imp fun _ h => h.released

/-- Thread 0 waits, thread 1 takes the lock, wakes it up and leaves; thread 0 takes the lock again. -/
def handover : List (MonitorEvent Nat) :=
  [.enter 0, .wait 0, .sleep 0, .enter 1, .signal, .leave 1, .wake 0, .restore 0, .return 0]

instance (s : State T) : (e : Event T) → Decidable (Sound s e)
  | .lock thread => inferInstanceAs (Decidable (s.lock.owner = some thread → s.lock.count.toInt < 2 ^ 31 - 1))
  | .retry _ => inferInstanceAs (Decidable (s.lock.owner ≠ none))
  | .unlock _ => isTrue trivial

instance (s : Monitor T) : (e : MonitorEvent T) → Decidable (Once s e)
  | .wait _ => inferInstanceAs (Decidable (s.mutex.lock.count = 1))
  | .enter thread => inferInstanceAs (Decidable (Sound s.mutex (.lock thread)))
  | .retry thread => inferInstanceAs (Decidable (Sound s.mutex (.retry thread)))
  | .leave _ | .sleep _ | .signal | .wake _ | .restore _ | .return _ => isTrue trivial

/-- A thread that waits, and one that wakes it. -/
theorem released_handover : Meets monitorStep Once (monitorStart : Monitor Nat) handover ∧
    (exec monitorStep monitorStart handover).isSome ∧
    Always monitorStep Released (monitorStart : Monitor Nat) handover := by
  have once : Meets monitorStep Once (monitorStart : Monitor Nat) handover := by decide
  exact ⟨once, by decide, released_always handover once⟩

/-- A thread that holds the lock twice keeps it while it sleeps. -/
theorem nested_wait_keeps_lock :
    ∃ s, exec monitorStep (monitorStart : Monitor Nat) [.enter 0, .enter 0, .wait 0, .sleep 0] = some s ∧
      s.stage 0 = .asleep 2 ∧ s.mutex.lock.owner = some 0 ∧ ¬Released s := by
  refine ⟨_, rfl, rfl, rfl, fun h => ?_⟩
  exact ((h 0 2).1 rfl).away.2 rfl

end Twcos.Sync
