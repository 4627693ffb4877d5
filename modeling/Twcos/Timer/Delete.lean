import Twcos.Chain.Basic
import Twcos.Prog.Basic
import Twcos.Timer.Queue

/-!
# Deleting a timer

Model of `timer_delete` of `kernel/timer.c`, over events in memory with their links. `pprev` of the source points at
`timers->queue` all the way through the loop, so what it stores goes there wherever the event was found.

`Waiting m as` says that the events of the queue are those of `as`, and that the hardware counts down the delay of the
first. Their deadlines are those of `Timer.Queue`, with the events as labels. Deleting adds a delay to the next one, which
together were one delay before.

C → Lean naming: `timer_event_t` → `Event`, `timer_t` → `Memory`; `timer_delete` → `timerDelete`, its loop → `deleteBody`.
-/

namespace Twcos.Timer
open Twcos.Prog

/-- `timer_event_t`; `cb` stands for the callback and its argument. -/
structure Event (A C : Type) where
  usec : Int
  cb : Option C
  next : Option A
deriving DecidableEq

/-- The events, the queue of `timers` and the hardware. -/
structure Memory (A C : Type) where
  events : A → Event A C
  queue : Option A
  hardware : Countdown

variable {A C : Type} [DecidableEq A]

/-- Store a delay. -/
def setUsec (events : A → Event A C) (a : A) (usec : Int) : A → Event A C :=
  Function.update events a { events a with usec := usec }

/-- Cancel the current outstanding timer. -/
def cancel (m : Memory A C) : Memory A C :=
  match m.queue with
  | none => m
  | some next =>
    { m with
      events := setUsec m.events next ((m.events next).usec - timerClear m.hardware)
      hardware := ⟨0, 0⟩ }

/-- What `timer_delete` does when it has found the event. -/
def unlink (timer : A) (m : Memory A C) : Memory A C :=
  let event := m.events timer
  let events := match event.next with
    | none => m.events
    | some next => setUsec m.events next ((m.events next).usec + event.usec)
  { m with
    events := Function.update events timer { events timer with next := none, cb := none }
    queue := event.next }

def deleteBody (timer : A) : Option A → Prog Empty (Memory A C) (Option A ⊕ Unit)
  | none => pure (.inr ())
  | some next =>
    if next = timer then do
      update (unlink timer)
      pure (.inr ())
    else do
      let next ← asks fun m => (m.events next).next
      pure (.inl next)

/-- Set the timer, if there is an event. -/
def arm (m : Memory A C) : Memory A C :=
  match m.queue with
  | none => m
  | some head => { m with hardware := timerSet (m.events head).usec }

def timerDelete (timer : A) : Prog Empty (Memory A C) Unit := do
  let next ← asks fun m => m.queue
  update cancel
  loop (deleteBody timer) next
  update arm

/-! ### The queue in memory -/

/-- The delays of events, each with the event and its callback. -/
def queued (m : Memory A C) (as : List A) : List (TimerEvent (A × Option C)) :=
  as.map fun a => ⟨(m.events a).usec, a, (m.events a).cb⟩

def Linked (m : Memory A C) (as : List A) : Prop := Chain (fun a => (m.events a).next) m.queue as none

structure Waiting (m : Memory A C) (as : List A) : Prop where
  linked : Linked m as
  nodup : as.Nodup
  pending : Pending ⟨queued m as, m.hardware⟩

/-- The queue of `m'` is that of `m` without the event, every other event expires when it did, and the hardware is set to
    the first delay. -/
structure Deleted (m m' : Memory A C) (timer : A) (as : List A) : Prop where
  linked : Linked m' (as.erase timer)
  deadlines : deadlines 0 (queued m' (as.erase timer)) =
    (deadlines (-m.hardware.elapsed) (queued m as)).filter fun d => d.2.1 ≠ timer
  armed : ∀ head ∈ m'.queue, m'.hardware = timerSet (m'.events head).usec

/-- The event is not behind another one, and nothing is left in the queue or half of the first delay has run. -/
def Deletable (m : Memory A C) (timer : A) (as : List A) : Prop :=
  timer ∉ as.tail ∧ (as.erase timer = [] ∨ ∀ head ∈ as.head?, 2 * m.hardware.elapsed = (m.events head).usec)

omit [DecidableEq A] in
/-- The queue depends on the times and callbacks of its events. -/
lemma queued_congr {m m' : Memory A C} {as : List A} (h : ∀ a ∈ as, (m'.events a).usec = (m.events a).usec ∧
    (m'.events a).cb = (m.events a).cb) : queued m' as = queued m as := by
  apply List.map_congr_left
  intro a mem
  rw [(h a mem).1, (h a mem).2]

/-- The deadlines tell the start, unless there are none. -/
lemma deadlines_inj {C : Type} {start start' : Int} {queue : List (TimerEvent C)} :
    deadlines start queue = deadlines start' queue ↔ queue = [] ∨ start = start' := by
  cases queue with
  | nil => exact iff_of_true rfl (.inl rfl)
  | cons event rest =>
    constructor
    · intro h
      have first := congrArg Prod.fst (List.cons.inj h).1
      exact .inr (add_right_cancel first)
    · rintro (h | rfl)
      · cases h
      · rfl

omit [DecidableEq A] in
/-- A deadline is one of an event in the queue. -/
lemma mem_deadlines {m : Memory A C} {as : List A} {start : Int} {d : Int × A × Option C}
    (h : d ∈ deadlines start (queued m as)) : d.2.1 ∈ as := by
  induction as generalizing start with
  | nil => cases h
  | cons a as ih =>
    rcases List.mem_cons.mp h with rfl | h
    · exact List.mem_cons_self
    · exact List.mem_cons_of_mem a (ih h)

/-- Without an event that is not there. -/
lemma filter_deadlines {m : Memory A C} {as : List A} {timer : A} (h : timer ∉ as) (start : Int) :
    (deadlines start (queued m as)).filter (fun d => d.2.1 ≠ timer) = deadlines start (queued m as) := by
  rw [List.filter_eq_self]
  intro d mem
  refine decide_eq_true fun e => h ?_
  rw [← e]
  exact mem_deadlines mem

/-! ### The run -/

section
variable {events : A → Event A C} {a b : A} {usec : Int}

/-- Setting a time leaves the links. -/
@[simp] lemma setUsec_next : (setUsec events a usec b).next = (events b).next := by
  by_cases e : b = a
  · subst e
    rw [setUsec, Function.update_self]
  · rw [setUsec, Function.update_of_ne e]

/-- Setting a time leaves the callbacks. -/
@[simp] lemma setUsec_cb : (setUsec events a usec b).cb = (events b).cb := by
  by_cases e : b = a
  · subst e
    rw [setUsec, Function.update_self]
  · rw [setUsec, Function.update_of_ne e]

/-- The event whose time was set. -/
@[simp] lemma setUsec_self : (setUsec events a usec a).usec = usec := by
  rw [setUsec, Function.update_self]

/-- Setting a time leaves the other events. -/
lemma setUsec_of_ne (h : b ≠ a) : setUsec events a usec b = events b := by
  rw [setUsec, Function.update_of_ne h]

end

variable {m : Memory A C} {as : List A} {timer : A}

/-- Taking the elapsed time leaves the links. -/
lemma cancel_next (a : A) : ((cancel m).events a).next = (m.events a).next := by
  rw [cancel]
  split
  · rfl
  · exact setUsec_next

/-- The loop looks through the queue and stops at the event. -/
lemma deleteLoop_returns {next : Option A} (h : Chain (fun a => (m.events a).next) next as none) :
    Returns (loop (deleteBody timer) next) m () (if timer ∈ as then unlink timer m else m) := by
  induction as generalizing next with
  | nil =>
    cases h
    exact .exit (.pure _ _)
  | cons a as ih =>
    obtain ⟨rfl, rest⟩ := h
    by_cases e : a = timer
    · subst e
      rw [if_pos List.mem_cons_self]
      refine .exit ?_
      rw [deleteBody, if_pos rfl]
      exact .bind (.update _ _) (.pure _ _)
    · have mem : timer ∈ a :: as ↔ timer ∈ as := List.mem_cons.trans (or_iff_right fun h => e h.symm)
      simp only [mem]
      refine .turn ?_ (ih rest)
      rw [deleteBody, if_neg e]
      exact .bind (.asks _ _) (.pure _ _)

/-- `timer_delete` takes the elapsed time, and the timer out of the queue if it is there. -/
lemma timerDelete_returns (h : Linked m as) (timer : A) :
    Returns (timerDelete timer) m () (arm (if timer ∈ as then unlink timer (cancel m) else cancel m)) := by
  have chain : Chain (fun a => ((cancel m).events a).next) m.queue as none := Chain.congr h fun a _ => cancel_next a
  exact .bind (.asks _ _) (.bind (.update _ _) (.bind (deleteLoop_returns chain) (.update _ _)))

omit [DecidableEq A] in
/-- Arming the hardware leaves the queue. -/
lemma arm_cases (m : Memory A C) : (arm m).events = m.events ∧ (arm m).queue = m.queue ∧
    ∀ head ∈ m.queue, (arm m).hardware = timerSet (m.events head).usec := by
  rw [arm]
  split
  · next h => exact ⟨rfl, rfl, fun head mem => by cases h.symm.trans mem⟩
  · next h => exact ⟨rfl, rfl, fun head mem => by cases h.symm.trans mem; rfl⟩

/-- Setting the timer matters for the hardware only. -/
lemma deleted_arm {m' : Memory A C} : Deleted m (arm m') timer as ↔ Linked m' (as.erase timer) ∧
    deadlines 0 (queued m' (as.erase timer)) =
      (deadlines (-m.hardware.elapsed) (queued m as)).filter fun d => d.2.1 ≠ timer := by
  obtain ⟨events, queue, armed⟩ := arm_cases m'
  have linked : Linked (arm m') = Linked m' := by
    funext as
    rw [Linked, Linked, events, queue]
  have same : queued (arm m') = queued m' := by
    funext as
    rw [queued, queued, events]
  constructor
  · intro h
    rw [← linked, ← same]
    exact ⟨h.linked, h.deadlines⟩
  · intro h
    rw [← linked, ← same] at h
    refine ⟨h.1, h.2, fun head mem => ?_⟩
    rw [queue] at mem
    rw [events]
    exact armed head mem

/-- The queue is linked after the elapsed time was taken. -/
lemma linked_cancel (h : Linked m as) : Linked (cancel m) as := by
  have queue : (cancel m).queue = m.queue := by
    rw [cancel]
    split
    · rfl
    · rfl
  rw [Linked, queue]
  exact Chain.congr h fun a _ => cancel_next a

/-- The first event has the time that has run, and the others are as they were. -/
lemma cancel_cons {head : A} {rest : List A} (h : Linked m (head :: rest)) :
    (cancel m).events = setUsec m.events head ((m.events head).usec - timerClear m.hardware) := by
  rw [cancel, h.1]

/-- The queue after the elapsed time was taken is that of the list model. -/
lemma queued_cancel (h : Linked m as) (nodup : as.Nodup) :
    queued (cancel m) as = timerCancel ⟨queued m as, m.hardware⟩ := by
  cases as with
  | nil => rfl
  | cons head rest =>
    have others : queued (cancel m) rest = queued m rest := by
      refine queued_congr fun a mem => ?_
      rw [cancel_cons h, setUsec_of_ne (ne_of_mem_of_not_mem mem (List.nodup_cons.mp nodup).1)]
      exact ⟨rfl, rfl⟩
    have first : (cancel m).events head = { m.events head with usec := (m.events head).usec - timerClear m.hardware } := by
      rw [cancel_cons h, setUsec, Function.update_self]
    simp only [queued, List.map_cons, timerCancel] at others ⊢
    rw [others, first]

omit [DecidableEq A] in
/-- The remaining time is the time that has run at the half of the first delay. -/
lemma Waiting.half {head : A} {rest : List A} (h : Waiting m (head :: rest)) :
    timerClear m.hardware = m.hardware.elapsed ↔ 2 * m.hardware.elapsed = (m.events head).usec := by
  have started : m.hardware.usec = (m.events head).usec := h.pending.started _ rfl
  rw [timerClear, started]
  omega

/-- An event that is not in the queue. -/
lemma deleted_other (h : Waiting m as) (absent : timer ∉ as) :
    Deleted m (arm (cancel m)) timer as ↔ Deletable m timer as := by
  have erase : as.erase timer = as := List.erase_of_not_mem absent
  have front : timer ∉ as.tail := fun mem => absent (List.mem_of_mem_tail mem)
  rw [deleted_arm, Deletable, erase, filter_deadlines absent, queued_cancel h.linked h.nodup, deadlines_timerCancel,
    deadlines_inj, neg_inj, and_iff_right (linked_cancel h.linked), and_iff_right front]
  cases as with
  | nil => exact iff_of_true (.inl rfl) (.inl rfl)
  | cons head rest =>
    simp only [queued, List.map_cons, reduceCtorEq, false_or, h.half, List.head?_cons, Option.mem_some_iff, forall_eq']

/-- Behind the first event the chain goes on. -/
lemma linked_unlink {rest : List A} (h : Linked m (timer :: rest)) (nodup : (timer :: rest).Nodup) :
    Linked (unlink timer m) rest := by
  refine Chain.congr h.2 fun a mem => ?_
  have ne := ne_of_mem_of_not_mem mem (List.nodup_cons.mp nodup).1
  simp only [unlink, Function.update_of_ne ne]
  cases (m.events timer).next with
  | none => rfl
  | some next => exact setUsec_next

/-- The next event has the delay of the first one added to its own. -/
lemma deadlines_unlink {rest : List A} (h : Linked m (timer :: rest)) (nodup : (timer :: rest).Nodup) :
    deadlines 0 (queued (unlink timer m) rest) = deadlines (m.events timer).usec (queued m rest) := by
  have away {a : A} (mem : a ∈ rest) : a ≠ timer := ne_of_mem_of_not_mem mem (List.nodup_cons.mp nodup).1
  cases rest with
  | nil => rfl
  | cons next rest =>
    have link : (m.events timer).next = some next := h.2.1
    have events {a : A} (mem : a ∈ next :: rest) : (unlink timer m).events a =
        setUsec m.events next ((m.events next).usec + (m.events timer).usec) a := by
      show Function.update _ timer _ a = _
      rw [Function.update_of_ne (away mem), link]
    have others : queued (unlink timer m) rest = queued m rest := by
      refine queued_congr fun a mem => ?_
      rw [events (List.mem_cons_of_mem next mem), setUsec_of_ne]
      · exact ⟨rfl, rfl⟩
      · exact ne_of_mem_of_not_mem mem (List.nodup_cons.mp (List.nodup_cons.mp nodup).2).1
    have first := events List.mem_cons_self
    have later : 0 + ((m.events next).usec + (m.events timer).usec) = (m.events timer).usec + (m.events next).usec := by
      ring
    simp only [queued, List.map_cons, deadlines] at others ⊢
    rw [others, first, setUsec_self, setUsec_cb, later]

/-- The first event. -/
lemma deleted_first {rest : List A} (h : Waiting m (timer :: rest)) :
    Deleted m (arm (unlink timer (cancel m))) timer (timer :: rest) ↔ Deletable m timer (timer :: rest) := by
  have absent : timer ∉ rest := (List.nodup_cons.mp h.nodup).1
  have erase : (timer :: rest).erase timer = rest := List.erase_cons_head ..
  have linked := linked_cancel h.linked
  have others : queued (cancel m) rest = queued m rest := by
    refine queued_congr fun a mem => ?_
    rw [cancel_cons h.linked, setUsec_of_ne (ne_of_mem_of_not_mem mem absent)]
    exact ⟨rfl, rfl⟩
  have usec : ((cancel m).events timer).usec = (m.events timer).usec - timerClear m.hardware := by
    rw [cancel_cons h.linked, setUsec_self]
  have filtered : (deadlines (-m.hardware.elapsed) (queued m (timer :: rest))).filter (fun d => d.2.1 ≠ timer) =
      deadlines (-m.hardware.elapsed + (m.events timer).usec) (queued m rest) := by
    rw [← filter_deadlines absent]
    exact List.filter_cons_of_neg (by simp)
  have same : (m.events timer).usec - timerClear m.hardware = -m.hardware.elapsed + (m.events timer).usec ↔
      timerClear m.hardware = m.hardware.elapsed := by omega
  rw [deleted_arm, Deletable, erase, filtered, deadlines_unlink linked h.nodup, usec, others, deadlines_inj, same, h.half,
    and_iff_right (linked_unlink linked h.nodup), List.tail_cons, and_iff_right absent]
  simp only [queued, List.map_eq_nil_iff, List.head?_cons, Option.mem_some_iff, forall_eq']

/-- An event behind another one: the one before it is gone. -/
lemma not_deleted_behind {head : A} {rest : List A} (h : Waiting m (head :: rest)) (behind : timer ∈ rest) :
    ¬Deleted m (arm (unlink timer (cancel m))) timer (head :: rest) := by
  rw [deleted_arm]
  intro deleted
  have ne : head ≠ timer := fun e => (List.nodup_cons.mp h.nodup).1 (e ▸ behind)
  have first := deleted.1
  rw [List.erase_cons_tail (by simpa using ne)] at first
  have queue : ((cancel m).events timer).next = some head := first.1
  rw [cancel_next] at queue
  -- but what comes after the event is behind the first
  obtain ⟨l1, l2, rfl⟩ := List.append_of_mem behind
  obtain ⟨b, -, -, rest⟩ := chain_append.mp h.linked.2
  have rest : Chain (fun a => (m.events a).next) (some head) l2 none := queue ▸ rest
  cases l2 with
  | nil => cases rest
  | cons next l2 =>
    cases rest.1
    exact (List.nodup_cons.mp h.nodup).1 (by simp)

/-- `timer_delete` deletes the event, and nothing else, exactly if it is not behind another one, and nothing is left in the
    queue or half of the first delay has run. -/
theorem timerDelete_iff (m : Memory A C) (as : List A) (timer : A) (h : Waiting m as) :
    ∃ m', Returns (timerDelete timer) m () m' ∧ (Deleted m m' timer as ↔ Deletable m timer as) := by
  refine ⟨_, timerDelete_returns h.linked timer, ?_⟩
  by_cases mem : timer ∈ as
  · rw [if_pos mem]
    cases as with
    | nil => cases mem
    | cons head rest =>
      rcases List.mem_cons.mp mem with rfl | behind
      · exact deleted_first h
      · exact iff_of_false (not_deleted_behind h behind) fun d => d.1 behind
  · rw [if_neg mem]
    exact deleted_other h mem

/-- Two events, the first after `first` and the second after `second` more, of which `elapsed` have run. -/
def twoEvents (first second elapsed : Int) : Memory Nat Nat where
  events a := if a = 0 then ⟨first, some 7, some 1⟩ else ⟨second, some 8, none⟩
  queue := some 0
  hardware := ⟨first, elapsed⟩

/-- A queue of two events. -/
lemma waiting_twoEvents : Waiting (twoEvents 10 5 5) [0, 1] where
  linked := ⟨rfl, rfl, rfl⟩
  nodup := by decide
  pending := by
    refine ⟨by simp [NonNeg, queued, twoEvents], ?_, by decide, ?_⟩
    · rintro head ⟨⟩
      rfl
    · rintro head ⟨⟩
      decide

/-- Deleting the first of them. -/
theorem timerDelete_twoEvents : Waiting (twoEvents 10 5 5) [0, 1] ∧
    ∃ m', Returns (timerDelete 0) (twoEvents 10 5 5) () m' ∧ Deleted (twoEvents 10 5 5) m' 0 [0, 1] := by
  obtain ⟨m', run, iff⟩ := timerDelete_iff (twoEvents 10 5 5) [0, 1] 0 waiting_twoEvents
  refine ⟨waiting_twoEvents, m', run, iff.mpr ⟨by decide, .inr ?_⟩⟩
  rintro head ⟨⟩
  rfl

/-- Deleting the second of two events loses the first. -/
theorem timerDelete_loses_first : Waiting (twoEvents 10 5 5) [0, 1] ∧
    ∃ m', Returns (timerDelete 1) (twoEvents 10 5 5) () m' ∧ m'.queue = none ∧
      ¬Deleted (twoEvents 10 5 5) m' 1 [0, 1] := by
  have run := timerDelete_returns waiting_twoEvents.linked 1
  rw [if_pos (by decide)] at run
  exact ⟨waiting_twoEvents, _, run, rfl, not_deleted_behind waiting_twoEvents (by decide)⟩

end Twcos.Timer
