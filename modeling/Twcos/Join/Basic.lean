import Twcos.Sched.Queue

/-!
# Join and exit

Model of `thread_exit` and `thread_join` of `kernel/thread.c` together with the locks and monitors of `kernel/sync.c`
and the scheduler under them. A thread that is in one of these functions has a list of the steps that are left of it.
There is one processor; it may be taken away from the current thread between any two steps, by `thread_yield` or
`thread_preempt`, and within a step only where that calls `thread_schedule`. Whatever else threads do is a sequence of
calls of the functions of `kernel/sync.c`, for any object. The table of the monitors is left out but for its lock:
the monitor of an object is always the same.

C → Lean naming: `thread_exit` → `threadExit`, `thread_lock` → `threadLock` and so on, for the steps of the functions.
`mutex_lock` is `.acquire`, and `.retry` after `thread_lock_wait`; `mutex_unlock` is `.release`. The part of
`monitor_wait` up to its `thread_schedule` is `.wait`, and its rest `.acquire` and `.restore`.
-/

namespace Twcos.Join
open Twcos.Ring Twcos.Run Twcos.Sched Function

/-- The objects that have a monitor. -/
inductive Key (T O : Type) where
  | thread (thread : T)
  | object (p : O)
deriving DecidableEq

/-- `locktablelock` and the locks of the monitors. -/
inductive Lock (T O : Type) where
  | table
  | monitor (k : Key T O)
deriving DecidableEq

/-- The steps of the functions. -/
inductive Op (T O R : Type) where
  | acquire (l : Lock T O)
  | retry (l : Lock T O)
  | release (l : Lock T O)
  | wait (k : Key T O)
  | restore (k : Key T O) (count : BitVec 32)
  | signal (k : Key T O)
  | broadcast (k : Key T O)
  | terminate (retval : R)
  | schedule
  | test (thread : T)
  | fetch (thread : T)
  | joined (thread : T) (retval : Option R)
deriving DecidableEq

section Code
variable {T O R : Type}

/-- `thread_monitor_get`. -/
def threadMonitorGet : List (Op T O R) := [.acquire .table, .release .table]

/-- `thread_lock`. -/
def threadLock (p : Key T O) : List (Op T O R) := threadMonitorGet ++ [.acquire (.monitor p)]

/-- `thread_unlock`. -/
def threadUnlock (p : Key T O) : List (Op T O R) := threadMonitorGet ++ [.release (.monitor p)]

/-- `thread_signal`. -/
def threadSignal (p : Key T O) : List (Op T O R) := threadMonitorGet ++ [.signal p]

/-- `thread_broadcast`. -/
def threadBroadcast (p : Key T O) : List (Op T O R) := threadMonitorGet ++ [.broadcast p]

/-- `thread_wait`. -/
def threadWait (p : Key T O) : List (Op T O R) := threadMonitorGet ++ [.wait p]

/-- `thread_exit`, once the state is set. -/
def threadExited (this : T) : List (Op T O R) :=
  threadLock (.thread this) ++ threadBroadcast (.thread this) ++ threadUnlock (.thread this) ++ [.schedule]

/-- `thread_exit`. -/
def threadExit (this : T) (retval : R) : List (Op T O R) := .terminate retval :: threadExited this

/-- `thread_join`, up to the loop. -/
def threadJoin (thread : T) : List (Op T O R) := threadLock (.thread thread) ++ [.test thread]

/-- The functions that a thread may call. -/
inductive Call (T O R : Type) where
  | lock (p : Key T O)
  | unlock (p : Key T O)
  | signal (p : Key T O)
  | broadcast (p : Key T O)
  | wait (p : Key T O)
  | exit (retval : R)
  | join (thread : T)

def Call.code (this : T) : Call T O R → List (Op T O R)
  | .lock p => threadLock p
  | .unlock p => threadUnlock p
  | .signal p => threadSignal p
  | .broadcast p => threadBroadcast p
  | .wait p => threadWait p
  | .exit retval => threadExit this retval
  | .join thread => threadJoin thread

/-- `mutex_t` without its list. -/
structure Mutex (T : Type) where
  owner : Option T
  count : BitVec 32

/-- The scheduler, the mutexes, the values passed to `thread_exit`, and where the threads are. -/
structure System (T O R : Type) where
  kernel : Kernel T (Lock T O) (Key T O)
  mutex : Lock T O → Mutex T
  retval : T → Option R
  code : T → List (Op T O R)

variable [DecidableEq T] [DecidableEq O]

/-- The current thread goes on here. -/
def System.goto (s : System T O R) (code : List (Op T O R)) : System T O R :=
  { s with code := update s.code s.kernel.current code }

def System.setMutex (s : System T O R) (l : Lock T O) (m : Mutex T) : System T O R :=
  { s with mutex := update s.mutex l m }

/-- A step of the scheduler. -/
def System.event (s : System T O R) (e : Event T (Lock T O) (Key T O)) : Option (System T O R) :=
  (Sched.step s.kernel e).map fun kernel => { s with kernel := kernel }

/-- `lock->count--` and what follows in `mutex_unlock`. -/
def mutexUnlock (lock : Mutex T) (thread : T) : Mutex T :=
  if lock.owner = some thread then
    let count := lock.count - 1
    ⟨if count = 0 then none else lock.owner, count⟩
  else lock

/-- A step of the current thread. -/
def run (s : System T O R) (rest : List (Op T O R)) : Op T O R → Option (System T O R)
  | .acquire l =>
    match (s.mutex l).owner with
    | none => some ((s.setMutex l ⟨some s.kernel.current, (s.mutex l).count + 1⟩).goto rest)
    | some owner =>
      if s.kernel.current ≠ owner then (s.goto (.retry l :: rest)).event (.lockWait l)
      else some ((s.setMutex l ⟨some owner, (s.mutex l).count + 1⟩).goto rest)
  | .retry l =>
    if (s.mutex l).owner ≠ none then (s.goto (.retry l :: rest)).event (.lockWait l)
    else some ((s.setMutex l ⟨none, (s.mutex l).count + 1⟩).goto rest)
  | .release l => some ((s.setMutex l (mutexUnlock (s.mutex l) s.kernel.current)).goto rest)
  | .wait p =>
    let lock := s.mutex (.monitor p)
    ((s.setMutex (.monitor p) (mutexUnlock lock s.kernel.current)).goto
      (.acquire (.monitor p) :: .restore p lock.count :: rest)).event (.monitorWait p)
  | .restore p count => some ((s.setMutex (.monitor p) { s.mutex (.monitor p) with count := count }).goto rest)
  | .signal p => (s.goto rest).event (.monitorSignal p)
  | .broadcast p =>
    if s.kernel.heads (.monitor p) = none then some (s.goto rest)
    else (s.goto (.broadcast p :: rest)).event (.monitorSignal p)
  | .terminate retval =>
    ({ s with retval := update s.retval s.kernel.current (some retval) }.goto rest).event .terminate
  | .schedule => (s.goto rest).event .schedule
  | .test thread =>
    if s.kernel.state thread ≠ .terminated then some (s.goto (threadWait (.thread thread) ++ .test thread :: rest))
    else some (s.goto (.fetch thread :: rest))
  | .fetch thread => some (s.goto (threadUnlock (.thread thread) ++ .joined thread (s.retval thread) :: rest))
  | .joined _ _ => some (s.goto rest)

/-- What happens next: the current thread makes a step of the function that it is in, calls a function, forks a
    thread, or loses the processor. -/
inductive Input (T O R : Type) where
  | run
  | call (c : Call T O R)
  | fork (thread : T)
  | yield
  | preempt

/-- It is a step of the function that the current thread is in. -/
def Input.runs : Input T O R → Bool
  | .run => true
  | _ => false

def step (s : System T O R) : Input T O R → Option (System T O R)
  | .run =>
    match s.code s.kernel.current with
    | [] => none
    | op :: rest => run s rest op
  | .call c =>
    match s.code s.kernel.current with
    | [] => some (s.goto (c.code s.kernel.current))
    | _ :: _ => none
  | .fork thread =>
    match s.code s.kernel.current with
    | [] => s.event (.fork thread)
    | _ :: _ => none
  | .yield => s.event .yield
  | .preempt => s.event .preempt

/-- One thread, and all mutexes free. -/
def start (links : Links T) (thread : T) (priority : T → Tpriority) : System T O R :=
  ⟨boot links thread priority, fun _ => ⟨none, 0⟩, fun _ => none, fun _ => []⟩

end Code

/-! ### What a join is to do -/

section Spec
variable {T O R : Type}

/-- The thread has called `thread_exit`, and its broadcast is over. -/
def Announced (s : System T O R) (u : T) : Prop := s.retval u ≠ none ∧ .broadcast (.thread u) ∉ s.code u

/-- These are steps of a `thread_join`. -/
def Joining (u : T) (code : List (Op T O R)) : Prop :=
  .test u ∈ code ∨ .fetch u ∈ code ∨ ∃ v, .joined u v ∈ code

/-- The thread sleeps in the waiting loop of `thread_join`, until somebody signals the monitor. -/
def Asleep (s : System T O R) (t u : T) : Prop :=
  s.kernel.state t = .sleeping ∧
    ∃ count rest, s.code t = .acquire (.monitor (.thread u)) :: .restore (.thread u) count :: rest ∧ .test u ∈ rest

/-- The step is one of those that only `thread_join` has. -/
def Op.joins : Op T O R → Bool
  | .test _ | .fetch _ | .joined _ _ => true
  | _ => false

variable [DecidableEq T] [DecidableEq O]

/-- The next step of the current thread waits for a lock. -/
def waits (s : System T O R) : Bool :=
  match s.code s.kernel.current with
  | .acquire l :: _ => (s.mutex l).owner ≠ none ∧ (s.mutex l).owner ≠ some s.kernel.current
  | .retry l :: _ => (s.mutex l).owner ≠ none
  | _ => false

/-- The thread whose monitor the current thread has waited for and now tries to lock again. -/
def retries (s : System T O R) : Option T :=
  match s.code s.kernel.current with
  | .retry (.monitor (.thread u)) :: _ => some u
  | _ => none

instance [DecidableEq R] (s : System T O R) (u : T) : Decidable (Announced s u) := inferInstanceAs (Decidable (_ ∧ _))

/-- `u` has called `thread_exit` with `r`. It is terminated. After its broadcast nobody sleeps in a `thread_join` on it,
    and the current thread, if it is in one, can go on. A `thread_join` on it returns `r`. -/
structure Joined (u : T) (r : R) (s : System T O R) : Prop where
  state : s.kernel.state u = .terminated
  retval : s.retval u = some r
  awake : Announced s u → ∀ t, Joining u (s.code t) → s.kernel.state t ≠ .sleeping
  proceeds : Announced s u → Joining u (s.code s.kernel.current) → (step s .run).isSome
  returns : ∀ t v, .joined u v ∈ s.code t → v = some r

/-- How many steps of its own a thread makes in a run. -/
def turns (t : T) : System T O R → List (Input T O R) → Nat
  | _, [] => 0
  | s, i :: es =>
    match step s i with
    | none => 0
    | some s' => (if i.runs ∧ s.kernel.current = t then 1 else 0) + turns t s' es

/-- In the run the thread comes to the end of a `thread_join` on `u`, and returns `r` from it. -/
def Returns (t u : T) (r : R) (s : System T O R) (es : List (Input T O R)) : Prop :=
  ∃ es1 es2 s', es = es1 ++ .run :: es2 ∧ exec step s es1 = some s' ∧ s'.kernel.current = t ∧
    s'.code t = [.joined u (some r)]

/-- A terminated thread does not lose the processor, neither to others nor because it has to wait for a lock; a thread in
    `thread_join` does not have to wait for a lock; and nobody who has waited for the lock of a thread's monitor gets it
    before the broadcast of that thread. -/
def Unhindered (s : System T O R) : Input T O R → Prop
  | .run =>
    (s.kernel.state s.kernel.current = .terminated ∨ (s.code s.kernel.current).any Op.joins = true → waits s = false) ∧
      ∀ u ∈ retries s, waits s = true ∨ Announced s u
  | .yield => s.kernel.state s.kernel.current ≠ .terminated
  | .preempt => s.kernel.state s.kernel.current ≠ .terminated
  | _ => True

instance [DecidableEq R] (s : System T O R) : (i : Input T O R) → Decidable (Unhindered s i)
  | .run => inferInstanceAs (Decidable (_ ∧ _))
  | .yield => inferInstanceAs (Decidable (_ ≠ _))
  | .preempt => inferInstanceAs (Decidable (_ ≠ _))
  | .call _ => isTrue trivial
  | .fork _ => isTrue trivial

end Spec

end Twcos.Join
