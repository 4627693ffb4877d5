import Twcos.Sched.Queue

/-!
# The order of the run queues

The run queues of `kernel/thread.c` as double-ended queues: `thread_resume` and `thread_yield` put a thread at the back,
`thread_preempt` puts the current thread at the front, and `thread_schedule` takes the first thread of the first queue
that is not empty. `LIST_PREPEND` puts the thread behind the first one and makes it the first one, so that the one that
was first is the last one afterwards; `deques_iff` says that the queues keep their order as long as this makes no
difference.

A thread that is put into a queue is in none before: it is new, or has been taken out of a waiting list, or runs.
-/

namespace Twcos.Sched
open Twcos.Ring Twcos.Run Function

/-- The calls. -/
inductive QueueCall (T : Type) where
  | resume (thread : T)
  | yield
  | preempt
  | schedule

/-- The run queues as lists, and the current thread. -/
structure Deques (T : Type) where
  queue : Tpriority → List T
  current : T

section Code
variable {T M C : Type} [DecidableEq T] [DecidableEq M] [DecidableEq C]

/-- The state after a call, if it does not panic. -/
def Kernel.call (s : Kernel T M C) : QueueCall T → Option (Kernel T M C)
  | .resume thread => some (threadResume s thread)
  | .yield => threadYield s
  | .preempt => threadPreempt s
  | .schedule => threadSchedule s

def Deques.set (d : Deques T) (p : Tpriority) (l : List T) : Deques T := { d with queue := update d.queue p l }

/-- The first thread of the first of these queues that is not empty. -/
def Deques.take (d : Deques T) : List Tpriority → Option (Deques T)
  | [] => none
  | p :: ps =>
    match d.queue p with
    | [] => d.take ps
    | next :: rest => some { d.set p rest with current := next }

def Deques.schedule (d : Deques T) : Option (Deques T) := d.take [.interrupt, .normal, .idle]

def Deques.pushBack (d : Deques T) (p : Tpriority) (thread : T) : Deques T := d.set p (d.queue p ++ [thread])

def Deques.pushFront (d : Deques T) (p : Tpriority) (thread : T) : Deques T := d.set p (thread :: d.queue p)

/-- What a call is to do. -/
def Deques.call (priority : T → Tpriority) (d : Deques T) : QueueCall T → Option (Deques T)
  | .resume thread => some (d.pushBack (priority thread) thread)
  | .yield => (d.pushBack (priority d.current) d.current).schedule
  | .preempt => (d.pushFront (priority d.current) d.current).schedule
  | .schedule => d.schedule

/-- A call, and what it is to do. -/
def callBoth (x : Kernel T M C × Deques T) (c : QueueCall T) : Option (Kernel T M C × Deques T) :=
  (x.1.call c).bind fun s => (x.2.call x.1.priority c).map fun d => (s, d)

end Code

section Order
variable {T M C : Type}

/-- The run queues have these threads, in this order, and each thread is in one queue at most. -/
structure Represents (s : Kernel T M C) (d : Deques T) : Prop where
  list : ∀ p, IsList s.links (s.heads (.run p)) (d.queue p)
  apart : ∀ p p' t, t ∈ d.queue p → t ∈ d.queue p' → p = p'
  current : s.current = d.current

/-- The run queues are the double-ended queues, and the same calls panic. -/
def Agrees [DecidableEq T] [DecidableEq M] [DecidableEq C] (x : Kernel T M C × Deques T) : Prop :=
  Represents x.1 x.2 ∧ ∀ c, (x.1.call c).isSome = (x.2.call x.1.priority c).isSome

/-- The thread that a call puts into a queue is in none. -/
def Unqueued (x : Kernel T M C × Deques T) : QueueCall T → Prop
  | .resume thread => ∀ p, thread ∉ x.2.queue p
  | .yield => ∀ p, x.2.current ∉ x.2.queue p
  | .preempt => ∀ p, x.2.current ∉ x.2.queue p
  | .schedule => True

/-- A thread is preempted only if at most one thread of its priority is waiting. -/
def PreemptFits (x : Kernel T M C × Deques T) : QueueCall T → Prop
  | .preempt => (x.2.queue (x.1.priority x.2.current)).length ≤ 1
  | _ => True

/-! ### Taking the first thread -/

section Take
variable [DecidableEq T] [DecidableEq M] [DecidableEq C] {s : Kernel T M C} {d e : Deques T} {p : Tpriority} {t : T}
  {l l' : List T}

omit [DecidableEq T] [DecidableEq M] [DecidableEq C] in
/-- The head of a run queue. -/
lemma Represents.head (h : Represents s d) (p : Tpriority) : s.heads (.run p) = (d.queue p).head? := (h.list p).head

omit [DecidableEq T] in
/-- Another list of threads in one of the queues. -/
lemma Represents.setList (h : Represents s d) {r : Links T × Option T} (list : IsList r.1 r.2 l)
    (touches : Touches s.links r.1 l') (own : ∀ p', p' ≠ p → ∀ x ∈ d.queue p', x ∉ l ∧ x ∉ l') :
    Represents (s.setList (.run p) r) (d.set p l) := by
  refine ⟨fun p' => ?_, fun p1 p2 x h1 h2 => ?_, h.current⟩
  · show IsList r.1 (update s.heads (.run p) r.2 (.run p')) (update d.queue p l p')
    by_cases e : p' = p
    · subst e
      rw [update_self, update_self]
      exact list
    · rw [update_of_ne e, update_of_ne fun run => e (Queue.run.inj run)]
      exact (h.list p').congr touches fun x hx => (own p' e x hx).2
  · have other {p' : Tpriority} (hx : x ∈ (d.set p l).queue p') : p' = p ∧ x ∈ l ∨ p' ≠ p ∧ x ∈ d.queue p' := by
      have hx : x ∈ update d.queue p l p' := hx
      by_cases e : p' = p
      · subst e
        rw [update_self] at hx
        exact .inl ⟨rfl, hx⟩
      · rw [update_of_ne e] at hx
        exact .inr ⟨e, hx⟩
    rcases other h1 with ⟨e1, h1⟩ | ⟨e1, h1⟩
    · rcases other h2 with ⟨e2, -⟩ | ⟨e2, h2⟩
      · exact e1.trans e2.symm
      · exact absurd h1 (own p2 e2 x h2).1
    · rcases other h2 with ⟨-, h2⟩ | ⟨-, h2⟩
      · exact absurd h2 (own p1 e1 x h1).1
      · exact h.apart p1 p2 x h1 h2

omit [DecidableEq M] [DecidableEq C] in
/-- Switching to a thread leaves the lists. -/
lemma archThreadSwitch_lists (s : Kernel T M C) (t : T) : (archThreadSwitch s t).links = s.links ∧
    (archThreadSwitch s t).heads = s.heads ∧ (archThreadSwitch s t).current = t := by
  rw [archThreadSwitch]
  split
  · next same => exact ⟨rfl, rfl, same⟩
  · dsimp only
    split <;> split <;> exact ⟨rfl, rfl, rfl⟩

/-- The first thread of a queue is taken out and runs. -/
lemma Represents.switch (h : Represents s d) (first : d.queue p = t :: l) :
    Represents (archThreadSwitch (s.delete (.run p) t) t) { d.set p l with current := t } := by
  have list := h.list p
  rw [first] at list
  obtain ⟨deleted, touches⟩ := list.delete
  have taken : Represents (s.delete (.run p) t) (d.set p l) := by
    apply h.setList deleted touches
    intro p' ne x hx
    have out : x ∉ t :: l := by
      intro mem
      exact ne (h.apart p' p x hx (first ▸ mem))
    exact ⟨fun mem => out (List.mem_cons_of_mem t mem), out⟩
  obtain ⟨links, heads, current⟩ := archThreadSwitch_lists (s.delete (.run p) t) t
  refine ⟨fun p' => ?_, taken.apart, current⟩
  rw [links, heads]
  exact taken.list p'

/-- Taking the first thread of the first queue that has one. -/
lemma Represents.take (h : Represents s d) (ps : List Tpriority) :
    (scheduleFrom s ps = none ∧ d.take ps = none) ∨
      ∃ s' d', scheduleFrom s ps = some s' ∧ d.take ps = some d' ∧ Represents s' d' := by
  induction ps with
  | nil => exact .inl ⟨rfl, rfl⟩
  | cons p ps ih =>
    have head := h.head p
    rw [scheduleFrom, Deques.take, head]
    cases first : d.queue p with
    | nil => exact ih
    | cons t l => exact .inr ⟨_, _, rfl, rfl, h.switch first⟩

/-- `thread_schedule` takes out what it is to take out. -/
lemma Represents.schedule (h : Represents s d) : (threadSchedule s = none ∧ d.schedule = none) ∨
    ∃ s' d', threadSchedule s = some s' ∧ d.schedule = some d' ∧ Represents s' d' := h.take _

/-! ### Putting a thread into a queue -/

omit [DecidableEq M] [DecidableEq C] in
/-- The state of a thread is no matter of the queues. -/
lemma Represents.setState (h : Represents s d) (t : T) (state : Tstate) : Represents (s.setState t state) d :=
  ⟨h.list, h.apart, h.current⟩

omit [DecidableEq T] [DecidableEq M] [DecidableEq C] in
/-- The lists of the other queues have nothing to do with a thread that was in none, or in this queue. -/
lemma Represents.own (h : Represents s d) (new : ∀ p, t ∉ d.queue p) {p' : Tpriority} (ne : p' ≠ p) {x : T}
    (hx : x ∈ d.queue p') : x ∉ t :: d.queue p := by
  intro mem
  rcases List.mem_cons.mp mem with rfl | mem
  · exact new p' hx
  · exact ne (h.apart p' p x hx mem)

/-- Putting a thread at the back of a queue. -/
lemma Represents.pushBack (h : Represents s d) (new : ∀ p, t ∉ d.queue p) (p : Tpriority) (state : Tstate) :
    Represents (threadQueue s (.run p) t state) (d.pushBack p t) := by
  obtain ⟨list, touches⟩ := (h.list p).append (new p)
  apply (h.setState t state).setList list touches
  intro p' ne x hx
  have out := h.own new ne hx
  refine ⟨fun mem => out ?_, out⟩
  rw [List.mem_append, List.mem_singleton] at mem
  exact List.mem_cons.mpr mem.symm

/-- The thread that was the first one is the last one afterwards. -/
lemma Represents.prequeue (h : Represents s d) (new : ∀ p, t ∉ d.queue p) (p : Tpriority) (state : Tstate) :
    Represents (threadPrequeue s (.run p) t state) (d.set p (t :: ((d.queue p).tail ++ (d.queue p).take 1))) := by
  obtain ⟨list, touches⟩ := (h.list p).prepend (new p)
  apply (h.setState t state).setList list touches
  intro p' ne x hx
  have out := h.own new ne hx
  refine ⟨fun mem => out ?_, out⟩
  rcases List.mem_cons.mp mem with rfl | mem
  · exact List.mem_cons_self
  · apply List.mem_cons_of_mem
    rcases List.mem_append.mp mem with mem | mem
    · exact List.mem_of_mem_tail mem
    · exact List.mem_of_mem_take mem

/-! ### Panics -/

omit [DecidableEq T] in
/-- A thread can be taken if some queue has one. -/
lemma take_isSome {ps : List Tpriority} : (d.take ps).isSome ↔ ∃ p ∈ ps, (d.queue p).head?.isSome := by
  induction ps with
  | nil => exact iff_of_false Bool.false_ne_true fun ⟨p, mem, _⟩ => absurd mem List.not_mem_nil
  | cons p ps ih =>
    rw [Deques.take, List.exists_mem_cons_iff]
    cases first : d.queue p with
    | nil =>
      refine ih.trans ⟨.inr, ?_⟩
      rintro (some | rest)
      · cases some
      · exact rest
    | cons t l => exact iff_of_true rfl (.inl rfl)

omit [DecidableEq T] in
/-- There is a thread to run if some queue has one. -/
lemma schedule_set (ne : l ≠ []) : (d.set p l).schedule.isSome := by
  refine take_isSome.mpr ⟨p, mem_priorities p, ?_⟩
  show (update d.queue p l p).head?.isSome
  rw [update_self]
  exact List.isSome_head?.mpr ne

/-- A list has an element after one is put in. -/
lemma listPrepend_isSome (k : Links T) (list : Option T) (t : T) : (listPrepend k list t).2.isSome := by
  cases list <;> rfl

/-- The same calls panic if the queues are the same. -/
lemma Represents.agrees (h : Represents s d) : Agrees (s, d) := by
  refine ⟨h, fun c => ?_⟩
  cases c with
  | resume t => rfl
  | yield =>
    have code : (threadYield s).isSome := threadSchedule_setList (listAppend_isSome _ _ _)
    exact code.trans (schedule_set (List.append_ne_nil_of_right_ne_nil _ (List.cons_ne_nil _ _))).symm
  | preempt =>
    have code : (threadPreempt s).isSome := threadSchedule_setList (listPrepend_isSome _ _ _)
    exact code.trans (schedule_set (List.cons_ne_nil _ _)).symm
  | schedule =>
    show (threadSchedule s).isSome = d.schedule.isSome
    rcases h.schedule with ⟨code, deques⟩ | ⟨s', d', code, deques, -⟩
    · rw [code, deques]
      rfl
    · rw [code, deques]
      rfl

end Take

/-! ### Calls -/

section Calls
variable [DecidableEq T] [DecidableEq M] [DecidableEq C] {s s' : Kernel T M C} {d e e' : Deques T} {p : Tpriority} {t : T}
  {l l' : List T}

omit [DecidableEq T] [DecidableEq M] [DecidableEq C] in
/-- The queues that the lists represent are determined. -/
lemma Represents.queue_unique (h : Represents s d) (h' : Represents s e) : d.queue = e.queue :=
  funext fun p => (h.list p).unique (h'.list p)

omit [DecidableEq T] in
/-- Different lists with the same first thread leave different queues behind. -/
lemma take_set_queue {ps : List Tpriority} (h : (d.set p (t :: l)).take ps = some e)
    (h' : (d.set p (t :: l')).take ps = some e') (same : e.queue = e'.queue) : l = l' := by
  induction ps with
  | nil => cases h
  | cons p0 ps ih =>
    have here (l : List T) : (d.set p (t :: l)).queue p = t :: l := update_self _ _ _
    rw [Deques.take] at h h'
    by_cases e : p0 = p
    · subst e
      rw [here] at h h'
      cases h
      cases h'
      have at_p := congrFun same p0
      simp only [Deques.set, update_self] at at_p
      exact at_p
    · have other (l : List T) : (d.set p (t :: l)).queue p0 = d.queue p0 := update_of_ne e _ _
      rw [other] at h h'
      cases first : d.queue p0 with
      | nil =>
        rw [first] at h h'
        exact ih h h'
      | cons next rest =>
        rw [first] at h h'
        cases h
        cases h'
        have at_p := congrFun same p
        simp only [Deques.set, update_of_ne (Ne.symm e), update_self] at at_p
        exact (List.cons.inj at_p).2

omit [DecidableEq T] in
/-- The first thread of a list can become the last one if there is at most one. -/
lemma rotate_eq_iff (nodup : l.Nodup) : l.tail ++ l.take 1 = l ↔ l.length ≤ 1 := by
  cases l with
  | nil => exact iff_of_true rfl (Nat.zero_le 1)
  | cons a l =>
    cases l with
    | nil => exact iff_of_true rfl (le_refl 1)
    | cons b l =>
      refine iff_of_false (fun same => ?_) (Nat.not_le.mpr (Nat.succ_lt_succ (Nat.succ_pos l.length)))
      have first : b = a := (List.cons.inj same).1
      exact (List.nodup_cons.mp nodup).1 (first ▸ List.mem_cons_self)

/-- A call of the code and of the deques. -/
lemma callBoth_some {c : QueueCall T} (run : callBoth (s, d) c = some (s', e)) :
    s.call c = some s' ∧ d.call s.priority c = some e := by
  obtain ⟨s1, code, rest⟩ := Option.bind_eq_some_iff.mp run
  obtain ⟨d1, deques, pair⟩ := Option.map_eq_some_iff.mp rest
  cases pair
  exact ⟨code, deques⟩

/-- `thread_schedule` and the deques agree. -/
lemma Represents.schedule_some (h : Represents s d) (code : threadSchedule s = some s') (deques : d.schedule = some e) :
    Represents s' e := by
  rcases h.schedule with ⟨none, -⟩ | ⟨s1, d1, code', deques', h'⟩
  · cases none.symm.trans code
  · cases code.symm.trans code'
    cases deques.symm.trans deques'
    exact h'

/-- A preemption keeps the order if at most one thread of the priority is waiting. -/
lemma Represents.preempt (h : Represents s d) (new : ∀ p, d.current ∉ d.queue p) (code : threadPreempt s = some s')
    (deques : (d.pushFront (s.priority d.current) d.current).schedule = some e) :
    Represents s' e ↔ (d.queue (s.priority d.current)).length ≤ 1 := by
  rw [← rotate_eq_iff (h.list _).nodup]
  have turned := h.prequeue new (s.priority d.current) .runnable
  rw [threadPreempt, h.current] at code
  rcases turned.schedule with ⟨none, -⟩ | ⟨s1, d1, code', deques', h'⟩
  · cases none.symm.trans code
  · cases code.symm.trans code'
    constructor
    · intro same
      exact take_set_queue deques' deques (h'.queue_unique same)
    · intro same
      rw [same] at deques'
      cases deques.symm.trans deques'
      exact h'

/-- The queues stay the same in exactly the calls that are not such preemptions. -/
lemma Represents.call (h : Represents s d) {c : QueueCall T} (new : Unqueued (s, d) c)
    (run : callBoth (s, d) c = some (s', e)) : Represents s' e ↔ PreemptFits (s, d) c := by
  obtain ⟨code, deques⟩ := callBoth_some run
  cases c with
  | resume t =>
    cases code
    cases deques
    exact iff_of_true (h.pushBack new _ _) trivial
  | yield =>
    refine iff_of_true ?_ trivial
    have code : threadYield s = some s' := code
    rw [threadYield, h.current] at code
    exact (h.pushBack new (s.priority d.current) .runnable).schedule_some code deques
  | preempt => exact h.preempt new code deques
  | schedule => exact iff_of_true (h.schedule_some code deques) trivial

end Calls

/-! ### The order -/

/-- The thread that a call puts into a queue. -/
def Deques.puts (d : Deques T) : QueueCall T → Option T
  | .resume thread => some thread
  | .yield => some d.current
  | .preempt => some d.current
  | .schedule => none

/-- The threads of a list but one. -/
def others [DecidableEq T] (put : Option T) (l : List T) : List T := l.filter fun t => decide (put ≠ some t)

section Others
variable [DecidableEq T] {d e : Deques T} {put : Option T}

/-- Taking a thread leaves a suffix of the other threads. -/
lemma others_suffix_of_take {ps : List Tpriority} (h : d.take ps = some e) (p : Tpriority) :
    others put (e.queue p) <:+ others put (d.queue p) := by
  induction ps with
  | nil => cases h
  | cons p0 ps ih =>
    rw [Deques.take] at h
    cases first : d.queue p0 with
    | nil =>
      rw [first] at h
      exact ih h
    | cons next rest =>
      rw [first] at h
      cases h
      show others put (update d.queue p0 rest p) <:+ _
      by_cases here : p = p0
      · subst here
        rw [update_self, first]
        exact (List.suffix_cons next rest).filter _
      · have same : update d.queue p0 rest p = d.queue p := update_of_ne here _ _
        exact same ▸ List.suffix_refl _

/-- Replacing a queue by one with the same other threads. -/
lemma others_set {t : T} {p : Tpriority} {l : List T} (same : others (some t) l = others (some t) (d.queue p))
    (p' : Tpriority) : others (some t) ((d.set p l).queue p') = others (some t) (d.queue p') := by
  show others (some t) (update d.queue p l p') = _
  by_cases here : p' = p
  · subst here
    rw [update_self, same]
  · rw [update_of_ne here]

/-- Putting a thread back leaves the other threads. -/
lemma others_pushBack (t : T) (p p' : Tpriority) :
    others (some t) ((d.pushBack p t).queue p') = others (some t) (d.queue p') := by
  apply others_set
  rw [others, List.filter_append]
  simp [others]

/-- Putting it in front leaves them too. -/
lemma others_pushFront (t : T) (p p' : Tpriority) :
    others (some t) ((d.pushFront p t).queue p') = others (some t) (d.queue p') := by
  apply others_set
  simp [others]

/-- No call changes the order of the other threads; it may take the first one of a queue. -/
lemma Deques.call_order {priority : T → Tpriority} {c : QueueCall T} (run : d.call priority c = some e)
    (p : Tpriority) : others (d.puts c) (e.queue p) <:+ others (d.puts c) (d.queue p) := by
  cases c with
  | resume t =>
    cases run
    show others (some t) _ <:+ others (some t) _
    have same := @others_pushBack T _ d t (priority t) p
    exact same ▸ List.suffix_refl _
  | yield =>
    show others (some d.current) _ <:+ others (some d.current) _
    rw [← @others_pushBack T _ d d.current (priority d.current) p]
    exact others_suffix_of_take run p
  | preempt =>
    show others (some d.current) _ <:+ others (some d.current) _
    rw [← @others_pushFront T _ d d.current (priority d.current) p]
    exact others_suffix_of_take run p
  | schedule => exact others_suffix_of_take run p

end Others

/-- When the run queues are the double-ended queues, in every state of a run. -/
theorem deques_iff [DecidableEq T] [DecidableEq M] [DecidableEq C] {s : Kernel T M C} {d : Deques T} (h : Represents s d)
    {cs : List (QueueCall T)} (new : Meets callBoth Unqueued (s, d) cs) :
    Always callBoth Agrees (s, d) cs ↔ Meets callBoth PreemptFits (s, d) cs := by
  apply always_iff_meets_of _ h.agrees new
  rintro ⟨s, d⟩ c ⟨s', e⟩ ⟨h, -⟩ new run
  rw [← h.call new run]
  exact ⟨And.left, Represents.agrees⟩

/-- Empty queues. -/
def noDeques (thread : T) : Deques T := ⟨fun _ => [], thread⟩

/-- At boot all queues are empty. -/
lemma represents_boot [DecidableEq T] (links : Links T) (thread : T) (priority : T → Tpriority) :
    Represents (boot links thread priority : Kernel T M C) (noDeques thread) :=
  ⟨fun _ => ⟨rfl, trivial, List.nodup_nil⟩, fun _ _ _ mem => absurd mem List.not_mem_nil, rfl⟩

/-- Thread 0 resumes thread 1 and yields, and thread 1 is preempted. -/
theorem deques_alternate : Always callBoth Agrees (oneThread, noDeques 0) [.resume 1, .yield, .preempt] := by
  apply (deques_iff (represents_boot ⟨id, id⟩ 0 fun _ => .normal) ?_).mpr
  · rintro _ ⟨⟩
    refine ⟨trivial, ?_⟩
    rintro _ ⟨⟩
    refine ⟨trivial, ?_⟩
    rintro _ ⟨⟩
    exact ⟨le_refl 1, trivial⟩
  · rintro _ ⟨⟩
    refine ⟨fun p => List.not_mem_nil, ?_⟩
    rintro _ ⟨⟩
    refine ⟨fun p => by cases p <;> decide, ?_⟩
    rintro _ ⟨⟩
    exact ⟨fun p => by cases p <;> decide, trivial⟩

/-- Threads 1 and 2 are waiting when thread 0 is preempted. Thread 2 is before thread 1 then. -/
theorem preemption_reorders : ¬Always callBoth Agrees (oneThread, noDeques 0) [.resume 1, .resume 2, .preempt] := by
  intro h
  have agrees := (h.last rfl).1
  have order := (agrees.list .normal).head
  cases order

end Order

end Twcos.Sched
