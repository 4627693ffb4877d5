import Twcos.Run.Basic
import Twcos.Sched.List

/-!
# The queues of threads

Model of the scheduler of `kernel/thread.c` and of the waiting lists of `kernel/sync.c`. All of them use the same two
links of a thread. There is one processor, so the steps of a run are those of the current thread, each up to its call of
`arch_thread_switch`. Whether a lock is free plays no part here: `thread_lock_wait` may be called at any time.

C → Lean naming: `thread_queue` → `threadQueue`, `thread_lock_wait` → `threadLockWait` and so on; `arch_thread_switch`
is the one of `arch/i386/i386.c`. `thread_exit` first sets the state of the thread (`threadTerminate`), then signals
those who wait for it, and then calls `thread_schedule`.
-/

namespace Twcos.Sched
open Twcos.Ring Twcos.Run Function

/-- `enum tstate`. -/
inductive Tstate where
  | new
  | runnable
  | running
  | sleeping
  | terminated
deriving DecidableEq

/-- `enum tpriority`. -/
inductive Tpriority where
  | interrupt
  | normal
  | idle
deriving DecidableEq

/-- The lists: the run queues, and the waiting lists of mutexes `M` and monitors `C`. -/
inductive Queue (M C : Type) where
  | run (priority : Tpriority)
  | lock (m : M)
  | monitor (c : C)
deriving DecidableEq

/-- The threads `T` and their lists. -/
structure Kernel (T M C : Type) where
  links : Links T
  heads : Queue M C → Option T
  state : T → Tstate
  priority : T → Tpriority
  current : T
  forked : T → Bool

section Code
variable {T M C : Type} [DecidableEq T] [DecidableEq M] [DecidableEq C]

/-- Assign a list and the links. -/
def Kernel.setList (s : Kernel T M C) (q : Queue M C) (r : Links T × Option T) : Kernel T M C :=
  { s with links := r.1, heads := update s.heads q r.2 }

/-- `thread->state = state`. -/
def Kernel.setState (s : Kernel T M C) (thread : T) (state : Tstate) : Kernel T M C :=
  { s with state := update s.state thread state }

/-- `q = thread_queue(q, thread, state)`. -/
def threadQueue (s : Kernel T M C) (q : Queue M C) (thread : T) (state : Tstate) : Kernel T M C :=
  (s.setState thread state).setList q (listAppend s.links (s.heads q) thread)

/-- `q = thread_prequeue(q, thread, state)`. -/
def threadPrequeue (s : Kernel T M C) (q : Queue M C) (thread : T) (state : Tstate) : Kernel T M C :=
  (s.setState thread state).setList q (listPrepend s.links (s.heads q) thread)

/-- `thread_resume`. -/
def threadResume (s : Kernel T M C) (thread : T) : Kernel T M C :=
  threadQueue s (.run (s.priority thread)) thread .runnable

/-- `arch_thread_switch`. -/
def archThreadSwitch (s : Kernel T M C) (thread : T) : Kernel T M C :=
  if s.current = thread then s.setState thread .running
  else
    let s := if s.state s.current = .running then s.setState s.current .runnable else s
    let s := if s.state thread = .runnable then s.setState thread .running else s
    { s with current := thread }

/-- `LIST_DELETE(q, thread)`. -/
def Kernel.delete (s : Kernel T M C) (q : Queue M C) (thread : T) : Kernel T M C :=
  s.setList q (listDelete s.links (s.heads q) thread)

/-- The loop of `thread_schedule` over the priorities from a list of them. It panics if all queues are empty. -/
def scheduleFrom (s : Kernel T M C) : List Tpriority → Option (Kernel T M C)
  | [] => none
  | p :: ps =>
    match s.heads (.run p) with
    | none => scheduleFrom s ps
    | some next => some (archThreadSwitch (s.delete (.run p) next) next)

/-- `thread_schedule`. -/
def threadSchedule (s : Kernel T M C) : Option (Kernel T M C) := scheduleFrom s [.interrupt, .normal, .idle]

/-- `thread_preempt`. -/
def threadPreempt (s : Kernel T M C) : Option (Kernel T M C) :=
  threadSchedule (threadPrequeue s (.run (s.priority s.current)) s.current .runnable)

/-- `thread_yield`. -/
def threadYield (s : Kernel T M C) : Option (Kernel T M C) :=
  threadSchedule (threadQueue s (.run (s.priority s.current)) s.current .runnable)

/-- `thread_lock_signal`. -/
def threadLockSignal (s : Kernel T M C) (m : M) : Kernel T M C :=
  match s.heads (.lock m) with
  | none => s
  | some resume => threadResume (s.delete (.lock m) resume) resume

/-- `thread_lock_wait`. -/
def threadLockWait (s : Kernel T M C) (m : M) : Option (Kernel T M C) :=
  threadSchedule (threadLockSignal (threadQueue s (.lock m) s.current .sleeping) m)

/-- `monitor_wait`, up to where the thread goes on. -/
def monitorWait (s : Kernel T M C) (c : C) : Option (Kernel T M C) :=
  threadSchedule (threadQueue s (.monitor c) s.current .sleeping)

/-- `monitor_signal`, which needs a waiter. -/
def monitorSignal (s : Kernel T M C) (c : C) : Option (Kernel T M C) :=
  (s.heads (.monitor c)).map fun resume => threadResume (s.delete (.monitor c) resume) resume

/-- `thread_fork`: the new thread has the priority of this one. -/
def threadFork (s : Kernel T M C) (thread : T) : Kernel T M C :=
  threadResume { s with
    priority := update s.priority thread (s.priority s.current)
    forked := update s.forked thread true } thread

/-- `thread_exit`, up to where it takes the lock. -/
def threadTerminate (s : Kernel T M C) : Kernel T M C := s.setState s.current .terminated

/-- The steps of the current thread. -/
inductive Event (T M C : Type) where
  | yield
  | preempt
  | schedule
  | fork (thread : T)
  | lockWait (m : M)
  | lockSignal (m : M)
  | monitorWait (c : C)
  | monitorSignal (c : C)
  | terminate

/-- The state after a step. A new thread is one that has not been forked before. -/
def step (s : Kernel T M C) : Event T M C → Option (Kernel T M C)
  | .yield => threadYield s
  | .preempt => threadPreempt s
  | .schedule => threadSchedule s
  | .fork thread => if s.forked thread = false then some (threadFork s thread) else none
  | .lockWait m => threadLockWait s m
  | .lockSignal m => some (threadLockSignal s m)
  | .monitorWait c => monitorWait s c
  | .monitorSignal c => monitorSignal s c
  | .terminate => some (threadTerminate s)

/-- Only the first thread, and empty lists. -/
def boot (links : Links T) (thread : T) (priority : T → Tpriority) : Kernel T M C :=
  ⟨links, fun _ => none, update (fun _ => .new) thread .running, priority, thread, update (fun _ => false) thread true⟩

end Code

/-! ### What holds of the lists -/

section Invariant
variable {T M C : Type}

/-- A thread that is to be in some list. -/
def Waiting (s : Kernel T M C) (t : T) : Prop := s.forked t = true ∧ (s.state t = .runnable ∨ s.state t = .sleeping)

/-- All lists are circular lists without duplicates, no thread is in two of them, the current thread is in none, and
    no runnable or sleeping thread is missing. -/
def Queued (s : Kernel T M C) : Prop :=
  ∃ lists : Queue M C → List T, (∀ q, IsList s.links (s.heads q) (lists q)) ∧
    (∀ q q' t, t ∈ lists q → t ∈ lists q' → q = q') ∧ (∀ q, s.current ∉ lists q) ∧
    ∀ t, Waiting s t → ∃ q, t ∈ lists q

/-- `thread_schedule` is called on its own by terminated threads only: at the end of a `thread_exit` that has not had to wait
    and has not lost the processor. -/
def Scheduled (s : Kernel T M C) : Event T M C → Prop
  | .schedule => s.state s.current = .terminated
  | _ => True

/-- The state of the threads in a list. -/
def Queue.state : Queue M C → Tstate
  | .run _ => .runnable
  | .lock _ => .sleeping
  | .monitor _ => .sleeping

/-- The state of the lists while a function runs. The threads of `out` are in no list. -/
structure Linked (s : Kernel T M C) (lists : Queue M C → List T) (out : T → Prop) : Prop where
  list : ∀ q, IsList s.links (s.heads q) (lists q)
  apart : ∀ q q' t, t ∈ lists q → t ∈ lists q' → q = q'
  ready : ∀ q t, t ∈ lists q → s.state t = q.state
  forked : ∀ q t, t ∈ lists q → s.forked t = true
  outside : ∀ q t, t ∈ lists q → ¬out t
  found : ∀ t, ¬out t → Waiting s t → ∃ q, t ∈ lists q

/-- The state of the lists between two steps. The current thread is in none. -/
structure Ordered (s : Kernel T M C) (lists : Queue M C → List T) : Prop where
  linked : Linked s lists (· = s.current)
  known : s.forked s.current = true
  stands : s.state s.current = .running ∨ s.state s.current = .terminated

/-- Threads have been resumed, or started to run. None of them was terminated. -/
structure Resumes (s s' : Kernel T M C) (lists lists' : Queue M C → List T) : Prop where
  moved : ∀ q t, t ∈ lists' q → t ∈ lists q ∨ ∃ p, q = .run p
  states : ∀ t, s'.state t = s.state t ∨
    s.state t ≠ .terminated ∧ (s'.state t = .runnable ∨ s'.state t = .running)
  forked : s'.forked = s.forked

/-- The list that the current thread enters with the step, if it is not a run queue. -/
def Enters : Event T M C → Queue M C → Prop
  | .lockWait m, .lock m' => m = m'
  | .monitorWait c, .monitor c' => c = c'
  | _, _ => False

/-- The state of the thread that was the current one, before and after the step. -/
def Leaves : Event T M C → Tstate → Tstate → Prop
  | .yield, _, now => now = .runnable ∨ now = .running
  | .preempt, _, now => now = .runnable ∨ now = .running
  | .lockWait _, _, now => now ≠ .terminated
  | .monitorWait _, _, now => now ≠ .terminated
  | .terminate, _, now => now = .terminated
  | _, old, now => now = old

/-- What a step does to the threads. -/
structure Effect (s s' : Kernel T M C) (e : Event T M C) (lists lists' : Queue M C → List T) : Prop where
  moved : ∀ q t, t ∈ lists' q → t ∈ lists q ∨ (∃ p, q = .run p) ∨ t = s.current ∧ Enters e q
  others : ∀ t, t ≠ s.current → s'.state t = s.state t ∨
    (s.forked t = true → s.state t ≠ .terminated) ∧ (s'.state t = .runnable ∨ s'.state t = .running)
  this : Leaves e (s.state s.current) (s'.state s.current)
  forked : ∀ t, s.forked t = true → s'.forked t = true
  current : e ≠ .schedule ∧ s'.current = s.current ∨ s'.state s'.current = .running

/-- A thread in a queue is not terminated. -/
lemma Queue.state_ne_terminated (q : Queue M C) : q.state ≠ .terminated := by
  cases q <;> nofun

/-- A thread in a queue is not running. -/
lemma Queue.state_ne_running (q : Queue M C) : q.state ≠ .running := by
  cases q <;> nofun

/-- Lists that are in order have the property. -/
lemma Ordered.queued {s : Kernel T M C} {lists : Queue M C → List T} (h : Ordered s lists) : Queued s := by
  have h' := h.linked
  refine ⟨lists, h'.list, h'.apart, fun q hq => h'.outside q _ hq rfl, fun t waiting => h'.found t ?_ waiting⟩
  rintro rfl
  obtain ⟨-, waits⟩ := waiting
  rcases h.stands with e | e <;> rw [e] at waits <;> rcases waits with w | w <;> cases w

/-- Two resumptions, one after the other. -/
lemma Resumes.trans {s1 s2 s3 : Kernel T M C} {l1 l2 l3 : Queue M C → List T} (h : Resumes s1 s2 l1 l2)
    (h' : Resumes s2 s3 l2 l3) : Resumes s1 s3 l1 l3 := by
  refine ⟨fun q t ht => ?_, fun t => ?_, h'.forked.trans h.forked⟩
  · rcases h'.moved q t ht with ht | run
    · exact h.moved q t ht
    · exact .inr run
  · rcases h'.states t with e' | ⟨ne, new⟩
    · rw [e']
      exact h.states t
    · rcases h.states t with e | ⟨ne', -⟩
      · exact .inr ⟨e ▸ ne, new⟩
      · exact .inr ⟨ne', new⟩

section Lists
variable [DecidableEq T] [DecidableEq M] [DecidableEq C] {s : Kernel T M C} {lists : Queue M C → List T} {out : T → Prop}
  {q : Queue M C} {t : T}

omit [DecidableEq T] [DecidableEq M] [DecidableEq C] in
/-- A thread that need not be in a list may stay where it is. -/
lemma Linked.shrink (h : Linked s lists out) {out' : T → Prop} (sub : ∀ x, out' x → out x)
    (quiet : ∀ x, out x → ¬out' x → ¬Waiting s x) : Linked s lists out' := by
  refine ⟨h.list, h.apart, h.ready, h.forked, fun q x hx => mt (sub x) (h.outside q x hx), ?_⟩
  intro x hx waiting
  by_cases hout : out x
  · exact absurd waiting (quiet x hout hx)
  · exact h.found x hout waiting

omit [DecidableEq T] [DecidableEq M] [DecidableEq C] in
/-- Another name for the threads outside the lists. -/
lemma Linked.out_congr (h : Linked s lists out) {out' : T → Prop} (same : ∀ x, out' x ↔ out x) :
    Linked s lists out' :=
  h.shrink (fun x => (same x).mp) fun x hx hx' => absurd ((same x).mpr hx) hx'

omit [DecidableEq M] [DecidableEq C] in
/-- The state of a thread that is in no list. -/
lemma Linked.setState (h : Linked s lists out) (ht : out t) (state : Tstate) :
    Linked (s.setState t state) lists out := by
  have other : ∀ x, ¬out x → (s.setState t state).state x = s.state x := by
    intro x hx
    have ne : x ≠ t := fun e => hx (e ▸ ht)
    exact update_of_ne ne _ _
  refine ⟨h.list, h.apart, fun q x hx => ?_, h.forked, h.outside, fun x hx waiting => ?_⟩
  · rw [other x (h.outside _ x hx)]
    exact h.ready q x hx
  · refine h.found x hx ⟨waiting.1, ?_⟩
    rw [← other x hx]
    exact waiting.2

/-- A thread has been put into a list, at its end or its start. -/
lemma Linked.enqueue (h : Linked s lists out) (ht : out t) (forked : s.forked t = true) (state : s.state t = q.state)
    {r : Links T × Option T} {l : List T} (list : IsList r.1 r.2 l) (touches : Touches s.links r.1 (t :: lists q))
    (mem : ∀ x, x ∈ l ↔ x = t ∨ x ∈ lists q) :
    Linked (s.setList q r) (update lists q l) fun x => out x ∧ x ≠ t := by
  have new : ∀ q, t ∉ lists q := fun q hq => h.outside q t hq ht
  have members : ∀ q' x, x ∈ update lists q l q' ↔ (q' = q ∧ x = t) ∨ x ∈ lists q' := by
    intro q' x
    by_cases e : q' = q
    · subst e
      rw [update_self, mem]
      simp only [true_and]
    · rw [update_of_ne e]
      simp only [e, false_and, false_or]
  refine ⟨fun q' => ?_, fun q1 q2 x h1 h2 => ?_, fun q' x hx => ?_, fun q' x hx => ?_, fun q' x hx => ?_, ?_⟩
  · by_cases e : q' = q
    · subst e
      rw [update_self]
      show IsList r.1 (update s.heads q' r.2 q') l
      rw [update_self]
      exact list
    · rw [update_of_ne e]
      show IsList r.1 (update s.heads q r.2 q') (lists q')
      rw [update_of_ne e]
      refine (h.list q').congr touches fun x hx hx' => ?_
      rcases List.mem_cons.mp hx' with rfl | hx'
      · exact new q' hx
      · exact e (h.apart q' q x hx hx')
  · rcases (members q1 x).mp h1 with ⟨e1, rfl⟩ | h1
    · rcases (members q2 x).mp h2 with ⟨e2, -⟩ | h2
      · exact e1.trans e2.symm
      · exact absurd h2 (new q2)
    · rcases (members q2 x).mp h2 with ⟨-, rfl⟩ | h2
      · exact absurd h1 (new q1)
      · exact h.apart q1 q2 x h1 h2
  · rcases (members q' x).mp hx with ⟨rfl, rfl⟩ | hx
    · exact state
    · exact h.ready q' x hx
  · rcases (members q' x).mp hx with ⟨-, rfl⟩ | hx
    · exact forked
    · exact h.forked q' x hx
  · rintro ⟨hout, ne⟩
    rcases (members q' x).mp hx with ⟨-, rfl⟩ | hx
    · exact ne rfl
    · exact h.outside q' x hx hout
  · intro x hx waiting
    by_cases e : x = t
    · exact ⟨q, (members q x).mpr (.inl ⟨rfl, e⟩)⟩
    · obtain ⟨q', hq⟩ := h.found x (fun hout => hx ⟨hout, e⟩) waiting
      exact ⟨q', (members q' x).mpr (.inr hq)⟩

/-- The first thread of a list has been taken out. -/
lemma Linked.dequeue (h : Linked s lists out) {l : List T} (first : lists q = t :: l) :
    Linked (s.delete q t) (update lists q l) fun x => out x ∨ x = t := by
  have list := h.list q
  rw [first] at list
  obtain ⟨deleted, touches⟩ := list.delete
  have gone : t ∉ l := (List.nodup_cons.mp list.nodup).1
  have members : ∀ q' x, x ∈ update lists q l q' ↔ x ∈ lists q' ∧ x ≠ t := by
    intro q' x
    by_cases e : q' = q
    · subst e
      rw [update_self, first, List.mem_cons]
      constructor
      · intro hx
        exact ⟨.inr hx, fun e => gone (e ▸ hx)⟩
      · rintro ⟨rfl | hx, ne⟩
        · exact absurd rfl ne
        · exact hx
    · rw [update_of_ne e]
      refine ⟨fun hx => ⟨hx, ?_⟩, And.left⟩
      rintro rfl
      exact e (h.apart q' q x hx (first ▸ List.mem_cons_self))
  refine ⟨fun q' => ?_, fun q1 q2 x h1 h2 => ?_, fun q' x hx => ?_, fun q' x hx => ?_, fun q' x hx => ?_, ?_⟩
  · by_cases e : q' = q
    · subst e
      rw [update_self]
      show IsList _ (update s.heads q' _ q') l
      rw [update_self]
      exact deleted
    · rw [update_of_ne e]
      show IsList _ (update s.heads q _ q') (lists q')
      rw [update_of_ne e]
      refine (h.list q').congr touches fun x hx hx' => ?_
      exact e (h.apart q' q x hx (first ▸ hx'))
  · exact h.apart q1 q2 x ((members q1 x).mp h1).1 ((members q2 x).mp h2).1
  · exact h.ready q' x ((members _ x).mp hx).1
  · exact h.forked q' x ((members q' x).mp hx).1
  · obtain ⟨hx, ne⟩ := (members q' x).mp hx
    rintro (hout | e)
    · exact h.outside q' x hx hout
    · exact ne e
  · intro x hx waiting
    obtain ⟨q', hq⟩ := h.found x (fun hout => hx (.inl hout)) waiting
    exact ⟨q', (members q' x).mpr ⟨hq, fun e => hx (.inr e)⟩⟩

/-- `thread_queue`. -/
lemma Linked.queue (h : Linked s lists out) (ht : out t) (forked : s.forked t = true) :
    Linked (threadQueue s q t q.state) (update lists q (lists q ++ [t])) fun x => out x ∧ x ≠ t := by
  have new : t ∉ lists q := fun hq => h.outside q t hq ht
  obtain ⟨list, touches⟩ := (h.list q).append new
  refine (h.setState ht q.state).enqueue ht forked (update_self _ _ _) list touches fun x => ?_
  rw [List.mem_append, List.mem_singleton, or_comm]

/-- `thread_prequeue`. -/
lemma Linked.prequeue (h : Linked s lists out) (ht : out t) (forked : s.forked t = true) :
    ∃ l, Linked (threadPrequeue s q t q.state) (update lists q l) fun x => out x ∧ x ≠ t := by
  have new : t ∉ lists q := fun hq => h.outside q t hq ht
  obtain ⟨list, touches⟩ := (h.list q).prepend new
  refine ⟨_, (h.setState ht q.state).enqueue ht forked (update_self _ _ _) list touches fun x => ?_⟩
  cases lists q with
  | nil => simp
  | cons a l => simp [or_comm]

omit [DecidableEq T] [DecidableEq M] [DecidableEq C] in
/-- The list behind a pointer that is not null. -/
lemma Linked.first (h : Linked s lists out) (head : s.heads q = some t) : ∃ l, lists q = t :: l := by
  have list := (h.list q).head
  rw [head] at list
  cases hl : lists q with
  | nil =>
    rw [hl] at list
    cases list
  | cons a l =>
    rw [hl] at list
    cases list
    exact ⟨l, rfl⟩

/-- The first thread of a list goes to the end of the run queue of its priority. -/
lemma Linked.resume (h : Linked s lists out) {l : List T} (first : lists q = t :: l) :
    Linked (threadResume (s.delete q t) t) (update (update lists q l) (.run (s.priority t))
      (update lists q l (.run (s.priority t)) ++ [t])) out := by
  have mem : t ∈ lists q := first ▸ List.mem_cons_self
  have queued := (h.dequeue first).queue (q := .run (s.priority t)) (.inr rfl) (h.forked q t mem)
  refine queued.out_congr fun x => ?_
  constructor
  · intro hx
    refine ⟨.inl hx, ?_⟩
    rintro rfl
    exact h.outside q x mem hx
  · rintro ⟨hx | e, ne⟩
    · exact hx
    · exact absurd e ne

/-- The first thread of a waiting list is resumed. -/
lemma Linked.signal (h : Linked s lists out) (head : s.heads q = some t) :
    ∃ lists', Linked (threadResume (s.delete q t) t) lists' out ∧
      Resumes s (threadResume (s.delete q t) t) lists lists' := by
  obtain ⟨l, first⟩ := h.first head
  have mem : t ∈ lists q := first ▸ List.mem_cons_self
  refine ⟨_, h.resume first, fun q' x hx => ?_, fun x => ?_, rfl⟩
  · by_cases run : q' = .run (s.priority t)
    · exact .inr ⟨_, run⟩
    · rw [update_of_ne run] at hx
      by_cases e : q' = q
      · subst e
        rw [update_self] at hx
        exact .inl (first ▸ List.mem_cons_of_mem t hx)
      · rw [update_of_ne e] at hx
        exact .inl hx
  · by_cases e : x = t
    · subst e
      refine .inr ⟨?_, .inl (update_self _ _ _)⟩
      rw [h.ready q x mem]
      exact q.state_ne_terminated
    · exact .inl (update_of_ne e _ _)

end Lists

section Steps
variable [DecidableEq T] [DecidableEq M] [DecidableEq C] {s s' : Kernel T M C} {lists : Queue M C → List T}
  {out : T → Prop} {t : T}

omit [DecidableEq M] [DecidableEq C] in
/-- `arch_thread_switch`, from a thread that is not running to one that is runnable. -/
lemma archThreadSwitch_eq {next : T} (stopped : s.state s.current ≠ .running) (ready : s.state next = .runnable) :
    archThreadSwitch s next = { s.setState next .running with current := next } := by
  rw [archThreadSwitch]
  split
  · next same =>
    subst same
    rfl
  · simp only [if_pos ready]

/-- The first thread of a run queue is taken out and runs. -/
lemma Linked.switch (h : Linked s lists out) {p : Tpriority} {next : T} (head : s.heads (.run p) = some next)
    (idle : ∀ x, out x → x = s.current ∧ s.state x = .terminated) (stopped : s.state s.current ≠ .running)
    (run : archThreadSwitch (s.delete (.run p) next) next = s') :
    ∃ lists', Ordered s' lists' ∧ Resumes s s' lists lists' ∧ s'.state s'.current = .running := by
  obtain ⟨l, first⟩ := h.first head
  have mem : next ∈ lists (.run p) := first ▸ List.mem_cons_self
  have ready : s.state next = .runnable := h.ready _ next mem
  rw [archThreadSwitch_eq (s := s.delete (.run p) next) stopped ready] at run
  subst run
  have taken := (h.dequeue first).setState (.inr rfl) .running
  have runs : update s.state next .running next = .running := update_self _ _ _
  have alone : Linked _ _ (· = next) := taken.shrink (fun x => .inr) fun x hx ne waiting => by
    have hx := idle x (hx.resolve_right ne)
    have same : ((s.delete (.run p) next).setState next .running).state x = s.state x := update_of_ne ne _ _
    rw [Waiting, same, hx.2] at waiting
    rcases waiting.2 with w | w <;> cases w
  refine ⟨update lists (.run p) l, ⟨?_, h.forked _ next mem, .inl runs⟩, ⟨fun q x hx => ?_, fun x => ?_, rfl⟩, runs⟩
  · exact ⟨alone.list, alone.apart, alone.ready, alone.forked, alone.outside, alone.found⟩
  · by_cases e : q = .run p
    · exact .inr ⟨p, e⟩
    · rw [update_of_ne e] at hx
      exact .inl hx
  · by_cases e : x = next
    · subst e
      refine .inr ⟨?_, .inr runs⟩
      rw [ready]
      nofun
    · exact .inl (update_of_ne e _ _)

/-- `thread_schedule`, once the current thread is in a list or has terminated. -/
lemma Linked.schedule (h : Linked s lists out) (idle : ∀ x, out x → x = s.current ∧ s.state x = .terminated)
    (stopped : s.state s.current ≠ .running) (run : threadSchedule s = some s') :
    ∃ lists', Ordered s' lists' ∧ Resumes s s' lists lists' ∧ s'.state s'.current = .running := by
  have rest : ∀ ps, scheduleFrom s ps = some s' →
      ∃ lists', Ordered s' lists' ∧ Resumes s s' lists lists' ∧ s'.state s'.current = .running := by
    intro ps
    induction ps with
    | nil => nofun
    | cons p ps ih =>
      rw [scheduleFrom]
      cases head : s.heads (.run p) with
      | none => exact ih
      | some next =>
        intro run
        exact h.switch head idle stopped (Option.some.inj run)
  exact rest _ run

/-- `thread_schedule`, once the current thread is in a list. -/
lemma Linked.leave (h : Linked s lists fun x => x = t ∧ x ≠ t) (stopped : s.state s.current ≠ .running)
    (run : threadSchedule s = some s') :
    ∃ lists', Ordered s' lists' ∧ Resumes s s' lists lists' ∧ s'.state s'.current = .running :=
  h.schedule (fun _ hx => absurd hx.1 hx.2) stopped run

omit [DecidableEq M] [DecidableEq C] in
/-- The current thread was put into a list, and then others were resumed. -/
lemma Resumes.effect {e : Event T M C} {q : Queue M C} {s₀ : Kernel T M C} {lists₀ lists' : Queue M C → List T}
    (h : Resumes s₀ s' lists₀ lists')
    (mem : ∀ q' x, x ∈ lists₀ q' → x ∈ lists q' ∨ (∃ p, q' = .run p) ∨ x = s.current ∧ Enters e q')
    (state : s₀.state = update s.state s.current q.state) (forked : s₀.forked = s.forked)
    (leaves : ∀ now, now = q.state ∨ now = .runnable ∨ now = .running → Leaves e (s.state s.current) now)
    (runs : s'.state s'.current = .running) : Effect s s' e lists lists' := by
  refine ⟨fun q' x hx => ?_, fun x ne => ?_, leaves _ ?_, fun x hx => ?_, .inr runs⟩
  · rcases h.moved q' x hx with hx | run
    · exact mem q' x hx
    · exact .inr (.inl run)
  · have same : s₀.state x = s.state x := by
      rw [state]
      exact update_of_ne ne _ _
    rw [← same]
    rcases h.states x with e | ⟨ne', now⟩
    · exact .inl e
    · exact .inr ⟨fun _ => ne', now⟩
  · have put : s₀.state s.current = q.state := by
      rw [state]
      exact update_self _ _ _
    rw [← put]
    rcases h.states s.current with e | ⟨-, now⟩
    · exact .inl e
    · exact .inr now
  · rw [h.forked, forked]
    exact hx

omit [DecidableEq T] in
/-- An element of a list that was changed, or of another. -/
lemma mem_update {l : List T} {q q' : Queue M C} {x : T} (hx : x ∈ update lists q l q') :
    q' = q ∧ x ∈ l ∨ x ∈ lists q' := by
  by_cases e : q' = q
  · subst e
    rw [update_self] at hx
    exact .inl ⟨rfl, hx⟩
  · rw [update_of_ne e] at hx
    exact .inr hx

/-- The current thread puts itself at the end of a list and calls `thread_schedule`. -/
lemma Ordered.leave (h : Ordered s lists) {e : Event T M C} {q : Queue M C} (enters : (∃ p, q = .run p) ∨ Enters e q)
    (leaves : ∀ now, now = q.state ∨ now = .runnable ∨ now = .running → Leaves e (s.state s.current) now)
    (run : threadSchedule (threadQueue s q s.current q.state) = some s') :
    ∃ lists', Ordered s' lists' ∧ Effect s s' e lists lists' := by
  have put : (threadQueue s q s.current q.state).state s.current = q.state := update_self _ _ _
  obtain ⟨lists', ordered, resumes, runs⟩ := (h.linked.queue rfl h.known).leave (put.symm ▸ q.state_ne_running) run
  refine ⟨lists', ordered, resumes.effect (q := q) (fun q' x hx => ?_) rfl rfl leaves runs⟩
  rcases mem_update hx with ⟨rfl, hx⟩ | hx
  · rcases List.mem_append.mp hx with hx | hx
    · exact .inl hx
    · exact .inr (enters.imp_right fun enters => ⟨List.mem_singleton.mp hx, enters⟩)
  · exact .inl hx

/-- `thread_preempt` keeps the lists in order. -/
lemma Ordered.preempt (h : Ordered s lists) (run : threadPreempt s = some s') :
    ∃ lists', Ordered s' lists' ∧ Effect s s' .preempt lists lists' := by
  obtain ⟨l, queued⟩ := h.linked.prequeue (q := .run (s.priority s.current)) rfl h.known
  have put : (threadPrequeue s (.run (s.priority s.current)) s.current .runnable).state s.current = .runnable :=
    update_self _ _ _
  obtain ⟨lists', ordered, resumes, runs⟩ := queued.leave (put.symm ▸ nofun) run
  refine ⟨lists', ordered, resumes.effect (q := .run (s.priority s.current)) (fun q' x hx => ?_) rfl rfl ?_ runs⟩
  · rcases mem_update hx with ⟨rfl, -⟩ | hx
    · exact .inr (.inl ⟨_, rfl⟩)
    · exact .inl hx
  · rintro now (e | e | e)
    · exact .inl e
    · exact .inl e
    · exact .inr e

/-- `thread_lock_signal`, which resumes a waiter if there is one. -/
lemma Linked.lockSignal (h : Linked s lists out) (m : M) :
    ∃ lists', Linked (threadLockSignal s m) lists' out ∧ Resumes s (threadLockSignal s m) lists lists' := by
  rw [threadLockSignal]
  cases head : s.heads (.lock m) with
  | none => exact ⟨lists, h, fun q t ht => .inl ht, fun t => .inl rfl, rfl⟩
  | some resume => exact h.signal head

/-- Signalling a lock does not switch. -/
lemma threadLockSignal_current (s : Kernel T M C) (m : M) : (threadLockSignal s m).current = s.current := by
  rw [threadLockSignal]
  cases s.heads (.lock m) <;> rfl

/-- Signalling a lock creates no thread. -/
lemma threadLockSignal_forked (s : Kernel T M C) (m : M) : (threadLockSignal s m).forked = s.forked := by
  rw [threadLockSignal]
  cases s.heads (.lock m) <;> rfl

/-- A signal makes threads runnable only. -/
lemma threadLockSignal_state (s : Kernel T M C) (m : M) (x : T) :
    (threadLockSignal s m).state x = s.state x ∨ (threadLockSignal s m).state x = .runnable := by
  rw [threadLockSignal]
  cases s.heads (.lock m) with
  | none => exact .inl rfl
  | some resume =>
    by_cases e : x = resume
    · subst e
      exact .inr (update_self _ _ _)
    · exact .inl (update_of_ne e _ _)

/-- A thread that waits for a lock is not running any more when it calls `thread_schedule`. -/
lemma lockWait_stopped (s : Kernel T M C) (m : M) :
    (threadLockSignal (threadQueue s (.lock m) s.current .sleeping) m).state
      (threadLockSignal (threadQueue s (.lock m) s.current .sleeping) m).current ≠ .running := by
  have put : (threadQueue s (.lock m) s.current .sleeping).state s.current = .sleeping := update_self _ _ _
  have this : (threadQueue s (.lock m) s.current .sleeping).current = s.current := rfl
  rw [threadLockSignal_current, this]
  rcases threadLockSignal_state (threadQueue s (.lock m) s.current .sleeping) m s.current with e | e
  · rw [e, put]
    nofun
  · rw [e]
    nofun

/-- `thread_schedule` finds a thread if there is one in a run queue. -/
lemma scheduleFrom_isSome {ps : List Tpriority} :
    (scheduleFrom s ps).isSome ↔ ∃ p ∈ ps, (s.heads (.run p)).isSome := by
  induction ps with
  | nil => exact iff_of_false Bool.false_ne_true fun ⟨p, mem, _⟩ => absurd mem List.not_mem_nil
  | cons p ps ih =>
    rw [scheduleFrom, List.exists_mem_cons_iff]
    cases head : s.heads (.run p) with
    | none =>
      refine ih.trans ⟨.inr, ?_⟩
      rintro (some | rest)
      · cases some
      · exact rest
    | some t => exact iff_of_true rfl (.inl rfl)

/-- It looks at all priorities. -/
lemma mem_priorities (p : Tpriority) : p ∈ [Tpriority.interrupt, .normal, .idle] := by
  cases p <;> simp

/-- `thread_schedule` does not panic after a thread has been put into a queue. -/
lemma threadSchedule_setList {r : Links T × Option T} (some : r.2.isSome) :
    (threadSchedule (s.setList (.run p) r)).isSome := by
  refine scheduleFrom_isSome.mpr ⟨p, mem_priorities p, ?_⟩
  show (update s.heads (.run p) r.2 (.run p)).isSome
  rwa [update_self]

/-- A list with a new thread is not empty. -/
lemma listAppend_isSome (k : Links T) (list : Option T) (t : T) : (listAppend k list t).2.isSome := by
  cases list <;> rfl

/-- A thread that waits for a lock resumes one, so that `thread_schedule` does not panic. -/
lemma threadLockWait_isSome (s : Kernel T M C) (m : M) : (threadLockWait s m).isSome := by
  have waiting : (threadQueue s (.lock m) s.current .sleeping).heads (.lock m) =
      (listAppend s.links (s.heads (.lock m)) s.current).2 := update_self _ _ _
  obtain ⟨resume, some⟩ := Option.isSome_iff_exists.mp (listAppend_isSome s.links (s.heads (.lock m)) s.current)
  rw [threadLockWait, threadLockSignal, waiting, some]
  exact threadSchedule_setList (listAppend_isSome _ _ _)

/-- Waiting for a lock keeps the lists in order. -/
lemma Ordered.lockWait (h : Ordered s lists) {m : M} (run : threadLockWait s m = some s') :
    ∃ lists', Ordered s' lists' ∧ Effect s s' (.lockWait m) lists lists' := by
  obtain ⟨lists₁, signalled, first⟩ := (h.linked.queue (q := .lock m) rfl h.known).lockSignal m
  obtain ⟨lists', ordered, resumes, runs⟩ := signalled.leave (lockWait_stopped s m) run
  refine ⟨lists', ordered, (first.trans resumes).effect (q := .lock m) (fun q' x hx => ?_) rfl rfl ?_ runs⟩
  · rcases mem_update hx with ⟨rfl, hl⟩ | hx
    · rcases List.mem_append.mp hl with hl | hl
      · exact .inl hl
      · exact .inr (.inr ⟨List.mem_singleton.mp hl, rfl⟩)
    · exact .inl hx
  · rintro now (rfl | rfl | rfl) <;> nofun

/-- A waiter is resumed, and the current thread goes on. -/
lemma Ordered.signal (h : Ordered s lists) {e : Event T M C} {q : Queue M C} {resume : T}
    (head : s.heads q = some resume) (leaves : Leaves e (s.state s.current) (s.state s.current)) (ne' : e ≠ .schedule) :
    ∃ lists', Ordered (threadResume (s.delete q resume) resume) lists' ∧
      Effect s (threadResume (s.delete q resume) resume) e lists lists' := by
  obtain ⟨l, first⟩ := h.linked.first head
  have ne : s.current ≠ resume := fun e => h.linked.outside q resume (first ▸ List.mem_cons_self) e.symm
  have same : (threadResume (s.delete q resume) resume).state s.current = s.state s.current := update_of_ne ne _ _
  obtain ⟨lists', linked, resumes⟩ := h.linked.signal head
  refine ⟨lists', ⟨linked, h.known, same.symm ▸ h.stands⟩, fun q x hx => ?_, fun x _ => ?_, ?_, fun x hx => hx,
    .inl ⟨ne', rfl⟩⟩
  · rcases resumes.moved q x hx with hx | run
    · exact .inl hx
    · exact .inr (.inl run)
  · rcases resumes.states x with e | ⟨ne', now⟩
    · exact .inl e
    · exact .inr ⟨fun _ => ne', now⟩
  · rw [same]
    exact leaves

omit [DecidableEq M] [DecidableEq C] in
/-- A new thread, before it is put into a list. -/
lemma Linked.opened (h : Linked s lists out) (fresh : s.forked t = false) (p : Tpriority) :
    Linked { s with priority := update s.priority t p, forked := update s.forked t true } lists
      fun x => out x ∨ x = t := by
  have absent : ∀ q x, x ∈ lists q → x ≠ t := by
    rintro q x hx rfl
    rw [h.forked q x hx] at fresh
    cases fresh
  have others : ∀ x, x ≠ t → update s.forked t true x = s.forked x := fun x hx => update_of_ne hx _ _
  refine ⟨h.list, h.apart, h.ready, fun q x hx => ?_, fun q x hx => ?_, fun x hx waiting => ?_⟩
  · exact (others x (absent q x hx)).trans (h.forked q x hx)
  · rintro (e | e)
    · exact h.outside q x hx e
    · exact absent q x hx e
  · refine h.found x (fun e => hx (.inl e)) ⟨?_, waiting.2⟩
    rw [← others x fun e => hx (.inr e)]
    exact waiting.1

/-- Creating a thread keeps the lists in order. -/
lemma Ordered.fork (h : Ordered s lists) {thread : T} (fresh : s.forked thread = false) :
    ∃ lists', Ordered (threadFork s thread) lists' ∧ Effect s (threadFork s thread) (.fork thread) lists lists' := by
  have ne : thread ≠ s.current := by
    rintro rfl
    rw [h.known] at fresh
    cases fresh
  have known : ∀ x, x ≠ thread → update s.forked thread true x = s.forked x := fun x hx => update_of_ne hx _ _
  have opened := h.linked.opened fresh (s.priority s.current)
  have resumed := opened.queue (q := .run (update s.priority thread (s.priority s.current) thread)) (.inr rfl)
    (update_self _ _ _)
  have same : (threadFork s thread).state s.current = s.state s.current := update_of_ne ne.symm _ _
  refine ⟨_, ⟨resumed.out_congr fun x => ?_, (known _ ne.symm).trans h.known, same.symm ▸ h.stands⟩,
    fun q x hx => ?_, fun x _ => ?_, same, fun x hx => ?_, .inl ⟨nofun, rfl⟩⟩
  · constructor
    · rintro rfl
      exact ⟨.inl rfl, ne.symm⟩
    · rintro ⟨e | e, hx⟩
      · exact e
      · exact absurd e hx
  · rcases mem_update hx with ⟨rfl, -⟩ | hx
    · exact .inr (.inl ⟨_, rfl⟩)
    · exact .inl hx
  · by_cases e : x = thread
    · subst e
      refine .inr ⟨fun known => ?_, .inl (update_self _ _ _)⟩
      rw [known] at fresh
      cases fresh
    · exact .inl (update_of_ne e _ _)
  · by_cases e : x = thread
    · subst e
      exact update_self _ _ _
    · exact (known x e).trans hx

/-- What a step does to the threads; it leaves the lists in order. -/
lemma Ordered.step (h : Ordered s lists) {e : Event T M C} (run : step s e = some s') (hc : Scheduled s e) :
    ∃ lists', Ordered s' lists' ∧ Effect s s' e lists lists' := by
  cases e with
  | yield =>
    refine h.leave (q := .run (s.priority s.current)) (.inl ⟨_, rfl⟩) ?_ run
    rintro now (e | e | e)
    · exact .inl e
    · exact .inl e
    · exact .inr e
  | preempt => exact h.preempt run
  | schedule =>
    have ended : s.state s.current = .terminated := hc
    obtain ⟨lists', ordered, resumes, runs⟩ :=
      h.linked.schedule (fun x hx => ⟨hx, hx ▸ ended⟩) (by rw [ended]; nofun) run
    refine ⟨lists', ordered, fun q x hx => ?_, fun x _ => ?_, ?_, fun x hx => ?_, .inr runs⟩
    · exact (resumes.moved q x hx).imp_right .inl
    · exact (resumes.states x).imp_right fun now => ⟨fun _ => now.1, now.2⟩
    · rcases resumes.states s.current with e | ⟨ne, -⟩
      · exact e
      · exact absurd ended ne
    · rw [resumes.forked]
      exact hx
  | fork thread =>
    rw [Sched.step] at run
    split at run
    · next fresh =>
      cases run
      exact h.fork fresh
    · cases run
  | lockWait m => exact h.lockWait run
  | lockSignal m =>
    cases run
    rw [threadLockSignal]
    cases head : s.heads (.lock m) with
    | none => exact ⟨lists, h, fun q x hx => .inl hx, fun x _ => .inl rfl, rfl, fun x hx => hx, .inl ⟨nofun, rfl⟩⟩
    | some resume => exact h.signal head rfl nofun
  | monitorWait c =>
    refine h.leave (q := .monitor c) (.inr rfl) ?_ run
    rintro now (rfl | rfl | rfl) <;> nofun
  | monitorSignal c =>
    obtain ⟨resume, head, rfl⟩ := Option.map_eq_some_iff.mp run
    exact h.signal head rfl nofun
  | terminate =>
    cases run
    have ended : (threadTerminate s).state s.current = .terminated := update_self _ _ _
    refine ⟨lists, ⟨h.linked.setState rfl .terminated, h.known, .inr ended⟩, fun q x hx => .inl hx, fun x ne => ?_,
      ended, fun x hx => hx, .inl ⟨nofun, rfl⟩⟩
    exact .inl (update_of_ne ne _ _)

omit [DecidableEq M] [DecidableEq C] in
/-- At boot the lists are in order. -/
lemma ordered_boot (links : Links T) (thread : T) (priority : T → Tpriority) :
    Ordered (boot links thread priority : Kernel T M C) fun _ => [] := by
  refine ⟨⟨fun q => ?_, nofun, nofun, nofun, nofun, fun x hx waiting => ?_⟩, ?_, .inl ?_⟩
  · exact ⟨rfl, trivial, List.nodup_nil⟩
  · have ne : x ≠ thread := hx
    have known : update (fun _ => false) thread true x = true := waiting.1
    rw [update_of_ne ne] at known
    cases known
  · exact update_self thread true fun _ => false
  · exact update_self thread Tstate.running (fun _ => Tstate.new)

end Steps

/-- Throughout every run in which `thread_schedule` is called on its own by terminated threads only, the lists of
    threads are circular lists without common threads, the current thread is in none of them, and every runnable or
    sleeping thread is in one. -/
theorem queued_always [DecidableEq T] [DecidableEq M] [DecidableEq C] (links : Links T) (thread : T)
    (priority : T → Tpriority) {es : List (Event T M C)} (h : Meets step Scheduled (boot links thread priority) es) :
    Always step Queued (boot links thread priority) es := by
  have ordered : Always step (fun s => ∃ lists, Ordered s lists) (boot links thread priority) es := by
    apply always_of_meets _ ⟨_, ordered_boot links thread priority⟩ h
    rintro s e s' ⟨lists, hs⟩ run hc
    obtain ⟨lists', hs', -⟩ := hs.step run hc
    exact ⟨lists', hs'⟩
  exact ordered.imp fun s hs => hs.choose_spec.queued

/-- Thread 0, and all others linked to themselves. -/
def oneThread : Kernel Nat Nat Nat := boot ⟨id, id⟩ 0 fun _ => .normal

/-- Thread 0 forks thread 1 and waits for a lock, which wakes it again; thread 1 exits. -/
theorem queued_until_exit : Meets step Scheduled oneThread [.fork 1, .lockWait 7, .terminate, .schedule] ∧
    Always step Queued oneThread [.fork 1, .lockWait 7, .terminate, .schedule] := by
  have scheduled : Meets step Scheduled oneThread [.fork 1, .lockWait 7, .terminate, .schedule] := by
    rintro _ ⟨⟩
    refine ⟨trivial, ?_⟩
    rintro _ ⟨⟩
    refine ⟨trivial, ?_⟩
    rintro _ ⟨⟩
    refine ⟨trivial, ?_⟩
    rintro _ ⟨⟩
    exact ⟨rfl, trivial⟩
  exact ⟨scheduled, queued_always ⟨id, id⟩ 0 (fun _ => .normal) scheduled⟩

/-- Thread 0 forks thread 1 and yields. Thread 1 is in `thread_exit` and has to wait for the lock of its monitor; when it
    comes to the last call of `thread_schedule`, it is runnable, and in no list. -/
theorem exiting_thread_lost :
    ∃ s, exec step oneThread [.fork 1, .yield, .terminate, .lockWait 7, .yield, .schedule] = some s ∧
      Waiting s 1 ∧ s.current = 0 ∧ (∀ p, s.heads (.run p) = none) ∧
      ¬Always step Queued oneThread [.fork 1, .yield, .terminate, .lockWait 7, .yield, .schedule] := by
  refine ⟨_, rfl, ⟨rfl, .inl rfl⟩, rfl, fun p => by cases p <;> rfl, fun h => ?_⟩
  obtain ⟨lists, list, -, -, found⟩ := h.last rfl
  obtain ⟨q, mem⟩ := found 1 ⟨rfl, .inl rfl⟩
  have head := (list q).head
  have empty : lists q = [] := by
    cases q with
    | run p => cases p <;> exact List.head?_eq_none_iff.mp head.symm
    | lock m =>
      by_cases e : m = 7
      · subst e
        exact List.head?_eq_none_iff.mp head.symm
      · have other : (Queue.lock m : Queue Nat Nat) ≠ .lock 7 := fun same => e (Queue.lock.inj same)
        refine List.head?_eq_none_iff.mp (head.symm.trans ?_)
        exact (update_of_ne other _ _).trans (update_of_ne other _ _)
    | monitor c => exact List.head?_eq_none_iff.mp head.symm
  rw [empty] at mem
  cases mem

end Invariant

end Twcos.Sched
