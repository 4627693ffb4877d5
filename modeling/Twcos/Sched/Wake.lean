import Twcos.Sched.Queue

/-!
# Waking up the waiters of a monitor

`monitor_wait`, `monitor_signal` and `monitor_broadcast` of `kernel/sync.c`, between all other steps of the scheduler. A
log beside the kernel tells, for each monitor, which threads began to wait and which were woken up, in order. `Correct`
says that the first is always the second followed by those who wait now, and what each call does to the lists.

`monitor_signal` takes the first waiter without a look whether there is one, as `thread_lock_signal` and the loop of
`monitor_broadcast` have it. So a run is correct if and only if each of its signals finds a waiter (`wakes_iff`).
-/

namespace Twcos.Sched
open Twcos.Ring Function

variable {T M C : Type}

/-- The threads that began to wait for a monitor, and those that it woke up. -/
structure Log (T C : Type) where
  began : C → List T
  woken : C → List T

structure World (T M C : Type) where
  kernel : Kernel T M C
  log : Log T C

/-- The steps of the scheduler, and `monitor_broadcast`. -/
inductive Call (T M C : Type) where
  | event (e : Event T M C)
  | monitorBroadcast (c : C)

section Code
variable [DecidableEq T] [DecidableEq M] [DecidableEq C]

/-- The log of a step: the current thread begins to wait, or the first waiter is woken up. -/
def logged (s : Kernel T M C) (log : Log T C) : Event T M C → Log T C
  | .monitorWait c => { log with began := update log.began c (log.began c ++ [s.current]) }
  | .monitorSignal c => { log with woken := update log.woken c (log.woken c ++ (s.heads (.monitor c)).toList) }
  | _ => log

def World.step (w : World T M C) (e : Event T M C) : Option (World T M C) :=
  (Sched.step w.kernel e).map fun s => ⟨s, logged w.kernel w.log e⟩

/-- `monitor_broadcast`, with a bound for the turns of its loop. -/
def monitorBroadcast : Nat → World T M C → C → Option (World T M C)
  | 0, _, _ => none
  | n + 1, w, c =>
    match w.kernel.heads (.monitor c) with
    | none => some w
    | some _ => (w.step (.monitorSignal c)).bind fun w => monitorBroadcast n w c

/-- The call returns, in this state. -/
def Returns (w : World T M C) : Call T M C → World T M C → Prop
  | .event e, w' => w.step e = some w'
  | .monitorBroadcast c, w' => ∃ n, monitorBroadcast n w c = some w'

/-- Nobody waits, and nobody did. -/
def World.boot (links : Links T) (thread : T) (priority : T → Tpriority) : World T M C :=
  ⟨Sched.boot links thread priority, ⟨fun _ => [], fun _ => []⟩⟩

/-! ### What the calls are for -/

/-- The lists have these threads, none in two of them. All that began to wait for a monitor were woken up, in order, or
    wait for it now. -/
structure Holds (w : World T M C) (lists : Queue M C → List T) : Prop where
  list : ∀ q, IsList w.kernel.links (w.kernel.heads q) (lists q)
  apart : ∀ q q' t, t ∈ lists q → t ∈ lists q' → q = q'
  tally : ∀ c, w.log.began c = w.log.woken c ++ lists (.monitor c)

/-- The lists when a thread has been resumed, with its priority. -/
def resumed (lists : Queue M C → List T) (p : Tpriority) (t : T) : Queue M C → List T :=
  update lists (.run p) (lists (.run p) ++ [t])

/-- The lists when all waiters of a monitor have been resumed. -/
def broadcasted (s : Kernel T M C) (lists : Queue M C → List T) (c : C) : Queue M C → List T
  | .run p => lists (.run p) ++ (lists (.monitor c)).filter fun t => s.priority t = p
  | q => if q = .monitor c then [] else lists q

/-- What a call has to do: a thread that waits comes last, a signal moves the first waiter to the end of its run queue
    and does nothing if there is none, a broadcast moves all of them, and no other step moves a waiter. -/
def Wakes (w : World T M C) (lists : Queue M C → List T) : Call T M C → Prop
  | .event (.monitorWait c) => ∀ w', Returns w (.event (.monitorWait c)) w' → ∃ lists', Holds w' lists' ∧
      (∀ c', lists' (.monitor c') = update (fun c => lists (.monitor c)) c (lists (.monitor c) ++ [w.kernel.current]) c')
  | .event (.monitorSignal c) =>
    match lists (.monitor c) with
    | [] => Returns w (.event (.monitorSignal c)) w
    | t :: l => ∃ w', Returns w (.event (.monitorSignal c)) w' ∧ w'.kernel.state t = .runnable ∧
        Holds w' (resumed (update lists (.monitor c) l) (w.kernel.priority t) t)
  | .monitorBroadcast c => ∃ w', Returns w (.monitorBroadcast c) w' ∧
      (∀ t ∈ lists (.monitor c), w'.kernel.state t = .runnable) ∧ Holds w' (broadcasted w.kernel lists c)
  | .event e => ∀ w', Returns w (.event e) w' → ∃ lists', Holds w' lists' ∧
      ∀ c, lists' (.monitor c) = lists (.monitor c)

/-- Every call of the run does what it has to. -/
def Correct : World T M C → List (Call T M C) → Prop
  | w, [] => ∃ lists, Holds w lists
  | w, call :: calls => (∃ lists, Holds w lists ∧ Wakes w lists call) ∧ ∀ w', Returns w call w' → Correct w' calls

/-- A `monitor_signal` has somebody to wake up. -/
def HasWaiter (s : Kernel T M C) : Call T M C → Prop
  | .event (.monitorSignal c) => s.heads (.monitor c) ≠ none
  | _ => True

/-- Every `monitor_signal` of the run has somebody to wake up. -/
def Waited : World T M C → List (Call T M C) → Prop
  | _, [] => True
  | w, call :: calls => HasWaiter w.kernel call ∧ ∀ w', Returns w call w' → Waited w' calls

end Code

/-! ### What the steps do to the lists -/

/-- The lists of the kernel, with threads in none of them. The current thread is one. -/
structure Held (s : Kernel T M C) (lists : Queue M C → List T) : Prop where
  known : s.forked s.current = true
  linked : ∃ out : T → Prop, out s.current ∧ Linked s lists out

/-- The lists of the monitors are the same. -/
def SameMonitors (lists lists' : Queue M C → List T) : Prop := ∀ c, lists' (.monitor c) = lists (.monitor c)

section Steps
variable [DecidableEq T] [DecidableEq M] [DecidableEq C] {s s' : Kernel T M C} {lists : Queue M C → List T}
  {out : T → Prop} {t : T} {q : Queue M C}

omit [DecidableEq T] in
/-- A run queue is no list of a monitor. -/
lemma sameMonitors_update {p : Tpriority} {l : List T} : SameMonitors lists (update lists (.run p) l) := by
  intro c
  have ne : Queue.monitor c ≠ .run (M := M) p := nofun
  exact update_of_ne ne _ _

omit [DecidableEq M] [DecidableEq C] in
/-- `arch_thread_switch` changes the states of threads that are in no list. -/
lemma Linked.switchTo (h : Linked s lists out) (this : s.state s.current = .running → out s.current) (next : out t) :
    Linked (archThreadSwitch s t) lists out := by
  have current : ∀ {s : Kernel T M C}, Linked s lists out → Linked { s with current := t } lists out := fun h =>
    ⟨h.list, h.apart, h.ready, h.forked, h.outside, h.found⟩
  have assigned : ∀ {s : Kernel T M C} {x : T} {b : Prop} [Decidable b] (state : Tstate), (b → out x) →
      Linked s lists out → Linked (if b then s.setState x state else s) lists out := by
    intro s x b _ state hx h
    split_ifs with hb
    · exact h.setState (hx hb) state
    · exact h
  rw [archThreadSwitch]
  split
  · exact h.setState next .running
  · exact current (assigned _ (fun _ => next) (assigned _ this h))

omit [DecidableEq M] [DecidableEq C] in
/-- The thread that is switched to is the current one. -/
lemma archThreadSwitch_current (s : Kernel T M C) (t : T) : (archThreadSwitch s t).current = t := by
  rw [archThreadSwitch]
  split
  · next same => exact same
  · rfl

omit [DecidableEq M] [DecidableEq C] in
/-- Switching creates no thread. -/
lemma archThreadSwitch_forked (s : Kernel T M C) (t : T) : (archThreadSwitch s t).forked = s.forked := by
  have assigned : ∀ {s : Kernel T M C} {x : T} (b : Prop) [Decidable b] (state : Tstate),
      (if b then s.setState x state else s).forked = s.forked := by
    intro s x b _ state
    split_ifs <;> rfl
  rw [archThreadSwitch]
  split
  · rfl
  · exact (assigned _ _).trans (assigned _ _)

/-- `thread_schedule` takes a thread from a run queue. -/
lemma Linked.scheduled (h : Linked s lists out) (this : s.state s.current = .running → out s.current)
    (run : threadSchedule s = some s') :
    ∃ lists', Held s' lists' ∧ SameMonitors lists lists' := by
  have rest : ∀ ps, scheduleFrom s ps = some s' → ∃ lists', Held s' lists' ∧ SameMonitors lists lists' := by
    intro ps
    induction ps with
    | nil => nofun
    | cons p ps ih =>
      rw [scheduleFrom]
      cases head : s.heads (.run p) with
      | none => exact ih
      | some next =>
        intro run
        cases run
        obtain ⟨l, first⟩ := h.first head
        have forked := h.forked (.run p) next (first ▸ List.mem_cons_self)
        have switched := (h.dequeue first).switchTo (fun running => .inl (this running)) (.inr rfl)
        refine ⟨_, ⟨?_, _, ?_, switched⟩, sameMonitors_update⟩
        · rw [archThreadSwitch_current, archThreadSwitch_forked]
          exact forked
        · rw [archThreadSwitch_current]
          exact .inr rfl
  exact rest _ run

/-- The current thread puts itself at the end of a list and calls `thread_schedule`. -/
lemma Held.leave (h : Held s lists) (run : threadSchedule (threadQueue s q s.current q.state) = some s') :
    ∃ lists', Held s' lists' ∧ SameMonitors (update lists q (lists q ++ [s.current])) lists' := by
  obtain ⟨known, out, this, linked⟩ := h
  refine (linked.queue this known).scheduled (fun running => ?_) run
  have put : (threadQueue s q s.current q.state).state s.current = q.state := update_self _ _ _
  exact absurd (put.symm.trans running) q.state_ne_running

/-- Waking the first waiter. -/
lemma Held.wake (h : Held s lists) {l : List T} (first : lists q = t :: l) :
    Held (threadResume (s.delete q t) t) (resumed (update lists q l) (s.priority t) t) := by
  obtain ⟨known, out, this, linked⟩ := h
  exact ⟨known, out, this, linked.resume first⟩

/-- `thread_lock_signal` leaves the waiters of monitors where they are. -/
lemma Linked.lockSignalled (h : Linked s lists out) (m : M) :
    ∃ lists', Linked (threadLockSignal s m) lists' out ∧ SameMonitors lists lists' := by
  rw [threadLockSignal]
  cases head : s.heads (.lock m) with
  | none => exact ⟨lists, h, fun _ => rfl⟩
  | some resume =>
    obtain ⟨l, first⟩ := h.first head
    refine ⟨_, h.resume first, fun c => ?_⟩
    have ne : Queue.monitor c ≠ .lock m := fun same => by cases same
    exact (sameMonitors_update c).trans (update_of_ne ne _ _)

/-- Waiting for a lock leaves the monitors. -/
lemma Held.lockWait (h : Held s lists) {m : M} (run : threadLockWait s m = some s') :
    ∃ lists', Held s' lists' ∧ SameMonitors lists lists' := by
  obtain ⟨known, out, this, linked⟩ := h
  obtain ⟨lists1, signalled, same1⟩ := (linked.queue (q := .lock m) this known).lockSignalled m
  obtain ⟨lists', held, same'⟩ := signalled.scheduled (fun running => absurd running (lockWait_stopped s m)) run
  refine ⟨lists', held, fun c => ?_⟩
  have ne : Queue.monitor c ≠ .lock m := nofun
  rw [same' c, same1 c]
  exact update_of_ne ne _ _

/-- Creating a thread leaves the monitors. -/
lemma Held.fork (h : Held s lists) {thread : T} (fresh : s.forked thread = false) :
    ∃ lists', Held (threadFork s thread) lists' ∧ SameMonitors lists lists' := by
  obtain ⟨known, out, this, linked⟩ := h
  have ne : s.current ≠ thread := by
    rintro rfl
    rw [known] at fresh
    cases fresh
  have queued := (linked.opened fresh (s.priority s.current)).queue
    (q := .run (update s.priority thread (s.priority s.current) thread)) (.inr rfl) (update_self _ _ _)
  have forked : update s.forked thread true s.current = s.forked s.current := update_of_ne ne _ _
  exact ⟨_, ⟨forked.trans known, _, ⟨.inl this, ne⟩, queued⟩, sameMonitors_update⟩

/-- What a step does to the lists of the monitors. -/
lemma Held.step (h : Held s lists) {e : Event T M C} (run : Sched.step s e = some s') :
    (∃ lists', Held s' lists' ∧ SameMonitors lists lists') ∨
      (∃ c, e = .monitorWait c ∧
        ∃ lists', Held s' lists' ∧ SameMonitors (update lists (.monitor c) (lists (.monitor c) ++ [s.current])) lists') ∨
      ∃ c t l, e = .monitorSignal c ∧ lists (.monitor c) = t :: l ∧
        Held s' (resumed (update lists (.monitor c) l) (s.priority t) t) := by
  cases e with
  | yield =>
    have yields : threadSchedule (threadQueue s (.run (s.priority s.current)) s.current .runnable) = some s' := run
    obtain ⟨lists', held, same⟩ := h.leave (q := .run (s.priority s.current)) yields
    exact .inl ⟨lists', held, fun c => (same c).trans (sameMonitors_update c)⟩
  | preempt =>
    obtain ⟨known, out, this, linked⟩ := h
    obtain ⟨l, queued⟩ := linked.prequeue (q := .run (s.priority s.current)) this known
    have put : (threadPrequeue s (.run (s.priority s.current)) s.current .runnable).state s.current = .runnable :=
      update_self _ _ _
    obtain ⟨lists', held, same⟩ := queued.scheduled (fun running => nomatch put.symm.trans running) run
    exact .inl ⟨lists', held, fun c => (same c).trans (sameMonitors_update c)⟩
  | schedule =>
    obtain ⟨-, out, this, linked⟩ := h
    exact .inl (linked.scheduled (fun _ => this) run)
  | fork thread =>
    rw [Sched.step] at run
    split at run
    · next fresh =>
      cases run
      exact .inl (h.fork fresh)
    · cases run
  | lockWait m => exact .inl (h.lockWait run)
  | lockSignal m =>
    cases run
    obtain ⟨known, out, this, linked⟩ := h
    obtain ⟨lists', linked, same⟩ := linked.lockSignalled m
    refine .inl ⟨lists', ⟨?_, out, ?_, linked⟩, same⟩
    · rw [threadLockSignal_current, threadLockSignal_forked]
      exact known
    · rw [threadLockSignal_current]
      exact this
  | monitorWait c => exact .inr (.inl ⟨c, rfl, h.leave (q := .monitor c) run⟩)
  | monitorSignal c =>
    obtain ⟨resume, head, rfl⟩ := Option.map_eq_some_iff.mp run
    obtain ⟨-, out, -, linked⟩ := id h
    obtain ⟨l, first⟩ := linked.first head
    exact .inr (.inr ⟨c, resume, l, rfl, first, h.wake first⟩)
  | terminate =>
    cases run
    obtain ⟨known, out, this, linked⟩ := h
    exact .inl ⟨lists, ⟨known, out, this, linked.setState this .terminated⟩, fun _ => rfl⟩

end Steps

/-! ### Runs -/

/-- The lists of a state, and its log. -/
structure Inv (w : World T M C) (lists : Queue M C → List T) : Prop where
  held : Held w.kernel lists
  tally : ∀ c, w.log.began c = w.log.woken c ++ lists (.monitor c)

section Runs
variable [DecidableEq T] [DecidableEq M] [DecidableEq C] {w w' : World T M C} {lists : Queue M C → List T} {c : C}

omit [DecidableEq T] [DecidableEq M] [DecidableEq C] in
/-- The invariant, seen from the lists. -/
lemma Inv.holds (h : Inv w lists) : Holds w lists := by
  obtain ⟨⟨-, out, -, linked⟩, tally⟩ := h
  exact ⟨linked.list, linked.apart, tally⟩

omit [DecidableEq T] [DecidableEq M] [DecidableEq C] in
/-- The pointer to the waiters of a monitor. -/
lemma Holds.heads (h : Holds w lists) (c : C) : w.kernel.heads (.monitor c) = (lists (.monitor c)).head? :=
  (h.list (.monitor c)).head

/-- The state after a signal. -/
lemma Inv.signal (h : Inv w lists) {t : T} {l : List T} (first : lists (.monitor c) = t :: l) :
    ∃ w', w.step (.monitorSignal c) = some w' ∧ w'.kernel.priority = w.kernel.priority ∧
      Inv w' (resumed (update lists (.monitor c) l) (w.kernel.priority t) t) := by
  have head : w.kernel.heads (.monitor c) = some t := by
    rw [h.holds.heads, first]
    rfl
  have step : w.step (.monitorSignal c) =
      some ⟨threadResume (w.kernel.delete (.monitor c) t) t, logged w.kernel w.log (.monitorSignal c)⟩ := by
    rw [World.step, Sched.step, monitorSignal, head]
    rfl
  refine ⟨_, step, rfl, h.held.wake first, fun c' => ?_⟩
  have waiters : resumed (update lists (.monitor c) l) (w.kernel.priority t) t (.monitor c') =
      update lists (.monitor c) l (.monitor c') := sameMonitors_update c'
  have log : (logged w.kernel w.log (.monitorSignal c)).woken = update w.log.woken c (w.log.woken c ++ [t]) := by
    rw [logged, head]
    rfl
  dsimp only
  rw [waiters, log]
  have before := h.tally c'
  by_cases e : c' = c
  · subst e
    rw [first] at before
    rw [update_self, update_self, List.append_assoc]
    exact before
  · have ne : Queue.monitor c' ≠ .monitor (M := M) c := fun same => e (Queue.monitor.inj same)
    rw [update_of_ne e, update_of_ne ne]
    exact before

omit [DecidableEq T] in
/-- Nobody wakes on a monitor without waiters. -/
lemma broadcasted_nil (s : Kernel T M C) (empty : lists (.monitor c) = []) : broadcasted s lists c = lists := by
  funext q
  cases q with
  | run p => rw [broadcasted, empty, List.filter_nil, List.append_nil]
  | lock m =>
    have ne : Queue.lock m ≠ .monitor c := nofun
    rw [broadcasted, if_neg ne]
    exact nofun
  | monitor c' =>
    rw [broadcasted]
    split_ifs with e
    · rw [e, empty]
    · rfl
    · exact nofun

omit [DecidableEq T] in
/-- The first turn of the loop of a broadcast. -/
lemma broadcasted_cons {s s' : Kernel T M C} {t : T} {l : List T} (first : lists (.monitor c) = t :: l)
    (same : s'.priority = s.priority) :
    broadcasted s' (resumed (update lists (.monitor c) l) (s.priority t) t) c = broadcasted s lists c := by
  have rest : resumed (update lists (.monitor c) l) (s.priority t) t (.monitor c) = l :=
    (sameMonitors_update c).trans (update_self _ _ _)
  funext q
  cases q with
  | run p =>
    have ne : Queue.run p ≠ .monitor (M := M) c := nofun
    rw [broadcasted, broadcasted, rest, first, same, resumed]
    by_cases e : s.priority t = p
    · subst e
      rw [update_self, update_of_ne ne, List.filter_cons_of_pos (by simp), List.append_assoc]
      rfl
    · have ne' : Queue.run p ≠ .run (M := M) (C := C) (s.priority t) := fun h => e (Queue.run.inj h).symm
      rw [update_of_ne ne', update_of_ne ne, List.filter_cons_of_neg (by simpa using e)]
  | lock m =>
    have ne : Queue.lock m ≠ .monitor c := nofun
    have ne' : Queue.lock m ≠ .run (C := C) (s.priority t) := nofun
    rw [broadcasted, broadcasted, if_neg ne, if_neg ne, resumed, update_of_ne ne', update_of_ne ne]
    · exact nofun
    · exact nofun
  | monitor c' =>
    rw [broadcasted, broadcasted]
    split_ifs with e
    · rfl
    · exact (sameMonitors_update c').trans (update_of_ne e _ _)
    · exact nofun
    · exact nofun

/-- The loop of `monitor_broadcast` ends when all have been woken up. -/
lemma Inv.broadcast (h : Inv w lists) :
    ∃ w', monitorBroadcast ((lists (.monitor c)).length + 1) w c = some w' ∧ Inv w' (broadcasted w.kernel lists c) := by
  generalize waiters : lists (.monitor c) = l
  induction l generalizing w lists with
  | nil =>
    have head : w.kernel.heads (.monitor c) = none := by
      rw [h.holds.heads, waiters]
      rfl
    refine ⟨w, ?_, ?_⟩
    · rw [monitorBroadcast, head]
    · rw [broadcasted_nil w.kernel waiters]
      exact h
  | cons t l ih =>
    have head : w.kernel.heads (.monitor c) = some t := by
      rw [h.holds.heads, waiters]
      rfl
    obtain ⟨w1, step, same, inv⟩ := h.signal waiters
    obtain ⟨w', run, inv'⟩ := ih inv ((sameMonitors_update c).trans (update_self _ _ _))
    rw [broadcasted_cons waiters same] at inv'
    refine ⟨w', ?_, inv'⟩
    rw [List.length_cons, monitorBroadcast, head]
    dsimp only
    rw [step]
    exact run

/-- The bound for the loop does not matter, if it is large enough. -/
lemma monitorBroadcast_unique {n m : Nat} {w1 w2 : World T M C} (h1 : monitorBroadcast n w c = some w1)
    (h2 : monitorBroadcast m w c = some w2) : w1 = w2 := by
  induction n generalizing w m with
  | zero => cases h1
  | succ n ih =>
    cases m with
    | zero => cases h2
    | succ m =>
      rw [monitorBroadcast] at h1 h2
      cases head : w.kernel.heads (.monitor c) with
      | none =>
        rw [head] at h1 h2
        exact Option.some.inj (h1.symm.trans h2)
      | some t =>
        rw [head] at h1 h2
        obtain ⟨w', step, h1⟩ := Option.bind_eq_some_iff.mp h1
        obtain ⟨w'', step', h2⟩ := Option.bind_eq_some_iff.mp h2
        cases step.symm.trans step'
        exact ih h1 h2

/-- A step that neither begins to wait nor signals. -/
lemma Inv.other (h : Inv w lists) {e : Event T M C} (same : logged w.kernel w.log e = w.log)
    (quiet : (∀ c, e ≠ .monitorWait c) ∧ ∀ c, e ≠ .monitorSignal c) (run : w.step e = some w') :
    ∃ lists', Inv w' lists' ∧ SameMonitors lists lists' := by
  obtain ⟨s', step, rfl⟩ := Option.map_eq_some_iff.mp run
  rcases h.held.step step with ⟨lists', held, monitors⟩ | ⟨c, wait, -⟩ | ⟨c, t, l, signal, -⟩
  · refine ⟨lists', ⟨held, fun c => ?_⟩, monitors⟩
    dsimp only
    rw [same, monitors c]
    exact h.tally c
  · exact absurd wait (quiet.1 c)
  · exact absurd signal (quiet.2 c)

/-- Waiting on a monitor puts the thread at the end of its list. -/
lemma Inv.wait (h : Inv w lists) (run : w.step (.monitorWait c) = some w') :
    ∃ lists', Inv w' lists' ∧ ∀ c', lists' (.monitor c') =
      update (fun c => lists (.monitor c)) c (lists (.monitor c) ++ [w.kernel.current]) c' := by
  obtain ⟨s', step, rfl⟩ := Option.map_eq_some_iff.mp run
  obtain ⟨lists', held, same⟩ := h.held.leave (q := .monitor c) step
  have waiters : ∀ c', lists' (.monitor c') =
      update (fun c => lists (.monitor c)) c (lists (.monitor c) ++ [w.kernel.current]) c' := by
    intro c'
    rw [same c']
    by_cases e : c' = c
    · subst e
      rw [update_self, update_self]
    · have ne : Queue.monitor c' ≠ .monitor (M := M) c := fun same => e (Queue.monitor.inj same)
      rw [update_of_ne e, update_of_ne ne]
  refine ⟨lists', ⟨held, fun c' => ?_⟩, waiters⟩
  dsimp only [logged]
  rw [waiters c']
  by_cases e : c' = c
  · subst e
    rw [update_self, update_self, h.tally c', List.append_assoc]
  · rw [update_of_ne e, update_of_ne e]
    exact h.tally c'

/-- A broadcast wakes all waiters. -/
lemma Inv.wakes_broadcast (h : Inv w lists) (c : C) :
    Wakes w lists (.monitorBroadcast c) ∧ ∀ w', Returns w (.monitorBroadcast c) w' → ∃ lists', Inv w' lists' := by
  obtain ⟨w', run, inv⟩ := h.broadcast (c := c)
  refine ⟨⟨w', ⟨_, run⟩, fun t ht => ?_, inv.holds⟩, ?_⟩
  · obtain ⟨⟨-, out, -, linked⟩, -⟩ := inv
    refine linked.ready (.run (w.kernel.priority t)) t (List.mem_append_right _ ?_)
    rw [List.mem_filter]
    exact ⟨ht, by simp⟩
  · rintro w'' ⟨n, run'⟩
    cases monitorBroadcast_unique run run'
    exact ⟨_, inv⟩

/-- A signal wakes a waiter, if there is one. -/
lemma Inv.wakes_signal (h : Inv w lists) {c : C} {t : T} {l : List T} (waiters : lists (.monitor c) = t :: l) :
    Wakes w lists (.event (.monitorSignal c)) ∧
      ∀ w', Returns w (.event (.monitorSignal c)) w' → ∃ lists', Inv w' lists' := by
  obtain ⟨w', run, -, inv⟩ := h.signal waiters
  refine ⟨?_, fun w'' run' => ?_⟩
  · rw [Wakes, waiters]
    refine ⟨w', run, ?_, inv.holds⟩
    obtain ⟨⟨-, out, -, linked⟩, -⟩ := inv
    refine linked.ready (.run (w.kernel.priority t)) t ?_
    rw [resumed, update_self]
    exact List.mem_append_right _ List.mem_cons_self
  · cases run.symm.trans run'
    exact ⟨_, inv⟩

/-- A call with somebody to wake up does what it has to. -/
lemma Inv.wakes (h : Inv w lists) {call : Call T M C} (waiter : HasWaiter w.kernel call) :
    Wakes w lists call ∧ ∀ w', Returns w call w' → ∃ lists', Inv w' lists' := by
  have other : ∀ e : Event T M C, logged w.kernel w.log e = w.log →
      (∀ c, e ≠ .monitorWait c) ∧ (∀ c, e ≠ .monitorSignal c) →
      (∀ w', Returns w (.event e) w' → ∃ lists', Holds w' lists' ∧ SameMonitors lists lists') ∧
        ∀ w', Returns w (.event e) w' → ∃ lists', Inv w' lists' := by
    intro e same quiet
    refine ⟨fun w' run => ?_, fun w' run => ?_⟩
    · obtain ⟨lists', inv, monitors⟩ := h.other same quiet run
      exact ⟨lists', inv.holds, monitors⟩
    · obtain ⟨lists', inv, -⟩ := h.other same quiet run
      exact ⟨lists', inv⟩
  cases call with
  | monitorBroadcast c => exact h.wakes_broadcast c
  | event e =>
    cases e with
    | monitorWait c =>
      refine ⟨fun w' run => ?_, fun w' run => ?_⟩
      · obtain ⟨lists', inv, waiters⟩ := h.wait run
        exact ⟨lists', inv.holds, waiters⟩
      · obtain ⟨lists', inv, -⟩ := h.wait run
        exact ⟨lists', inv⟩
    | monitorSignal c =>
      cases waiters : lists (.monitor c) with
      | nil =>
        refine absurd ?_ waiter
        rw [h.holds.heads, waiters]
        rfl
      | cons t l => exact h.wakes_signal waiters
    | yield => exact other _ rfl ⟨nofun, nofun⟩
    | preempt => exact other _ rfl ⟨nofun, nofun⟩
    | schedule => exact other _ rfl ⟨nofun, nofun⟩
    | fork thread => exact other _ rfl ⟨nofun, nofun⟩
    | lockWait m => exact other _ rfl ⟨nofun, nofun⟩
    | lockSignal m => exact other _ rfl ⟨nofun, nofun⟩
    | terminate => exact other _ rfl ⟨nofun, nofun⟩

/-- A signal without a waiter does not even return. -/
lemma Wakes.hasWaiter {call : Call T M C} (holds : Holds w lists) (h : Wakes w lists call) :
    HasWaiter w.kernel call := by
  cases call with
  | monitorBroadcast c => trivial
  | event e =>
    cases e with
    | monitorSignal c =>
      intro none
      have waiters : lists (.monitor c) = [] := by
        rw [holds.heads] at none
        exact List.head?_eq_none_iff.mp none
      rw [Wakes, waiters] at h
      have run : w.step (.monitorSignal c) = some w := h
      rw [World.step, Sched.step, monitorSignal, none] at run
      cases run
    | yield => trivial
    | preempt => trivial
    | schedule => trivial
    | fork thread => trivial
    | lockWait m => trivial
    | lockSignal m => trivial
    | monitorWait c => trivial
    | terminate => trivial

omit [DecidableEq M] [DecidableEq C] in
/-- At boot nobody waits. -/
lemma inv_boot (links : Links T) (thread : T) (priority : T → Tpriority) :
    Inv (World.boot links thread priority : World T M C) fun _ => [] := by
  obtain ⟨linked, known, -⟩ := ordered_boot (M := M) (C := C) links thread priority
  exact ⟨⟨known, (· = thread), rfl, linked⟩, fun _ => rfl⟩

/-- A run of waits, signals, broadcasts and other steps is correct if and only if every `monitor_signal` finds a
    waiter. -/
theorem wakes_iff (links : Links T) (thread : T) (priority : T → Tpriority) (calls : List (Call T M C)) :
    Correct (World.boot links thread priority) calls ↔ Waited (World.boot links thread priority) calls := by
  have every : ∀ w : World T M C, (∃ lists, Inv w lists) → (Correct w calls ↔ Waited w calls) := by
    induction calls with
    | nil =>
      rintro w ⟨lists, inv⟩
      exact ⟨fun _ => trivial, fun _ => ⟨lists, inv.holds⟩⟩
    | cons call calls ih =>
      rintro w ⟨lists, inv⟩
      constructor
      · rintro ⟨⟨lists', holds, wakes⟩, rest⟩
        have waiter := wakes.hasWaiter holds
        exact ⟨waiter, fun w' run => (ih w' ((inv.wakes waiter).2 w' run)).mp (rest w' run)⟩
      · rintro ⟨waiter, rest⟩
        obtain ⟨wakes, next⟩ := inv.wakes waiter
        exact ⟨⟨lists, inv.holds, wakes⟩, fun w' run => (ih w' (next w' run)).mpr (rest w' run)⟩
  exact every _ ⟨_, inv_boot links thread priority⟩

end Runs

/-- A signal for a monitor that nobody waits for. -/
theorem signal_nobody :
    ¬Correct (World.boot ⟨id, id⟩ 0 fun _ => .normal : World Nat Nat Nat) [.event (.monitorSignal 0)] := by
  rintro ⟨⟨lists, holds, wakes⟩, -⟩
  exact wakes.hasWaiter holds rfl

end Twcos.Sched
