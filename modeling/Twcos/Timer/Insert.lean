import Twcos.Timer.Delete

/-!
# Inserting a timer

The loop of `timer_add` of `kernel/timer.c`, over events in memory with their links, from the fields of the new event to
where it is put. `pprev` is the event whose link is changed, or nothing for the queue itself.

`timerEnqueue_returns` says that this is `timerInsert` of `Timer.Queue` on the queue in memory, from which follows what
becomes of the deadlines: the delays that were walked over are taken off the new event, and what is left of it is taken
off the event behind it.
-/

namespace Twcos.Timer
open Twcos.Prog Function

variable {A C : Type} [DecidableEq A]

/-- A turn of the loop, with `next` and `pprev`; it returns `pprev`. -/
def insertBody (timer : A) : Option A × Option A → Prog Empty (Memory A C) (Option A × Option A ⊕ Option A)
  | (none, pprev) => pure (.inr pprev)
  | (some next, pprev) => do
    let usec ← asks fun m => (m.events timer).usec
    let delay ← asks fun m => (m.events next).usec
    if usec < delay then do
      update fun m => { m with events := setUsec m.events next (delay - usec) }
      pure (.inr pprev)
    else do
      update fun m => { m with events := setUsec m.events timer (usec - delay) }
      let further ← asks fun m => (m.events next).next
      pure (.inl (further, some next))

/-- `*pprev`. -/
def linkAt (m : Memory A C) : Option A → Option A
  | none => m.queue
  | some a => (m.events a).next

/-- `timer->next = *pprev; *pprev = timer`. -/
def putTimer (timer : A) (pprev : Option A) (m : Memory A C) : Memory A C :=
  let events := Function.update m.events timer { m.events timer with next := linkAt m pprev }
  match pprev with
  | none => { m with events := events, queue := some timer }
  | some a => { m with events := Function.update events a { events a with next := some timer } }

/-- `timer_add`, from the fields of the new event to its place in the queue. -/
def timerEnqueue (timer : A) (usec : Int) (cb : C) : Prog Empty (Memory A C) Unit := do
  let next ← asks fun m => m.queue
  update fun m => { m with events := Function.update m.events timer ⟨usec, some cb, none⟩ }
  let pprev ← loop (insertBody timer) (next, none)
  update (putTimer timer pprev)

/-! ### The loop -/

section Loop
variable {m : Memory A C} {rest passed after as : List A} {timer a : A}

/-- The event with its label. -/
def labelled (m : Memory A C) (a : A) : TimerEvent (A × Option C) := ⟨(m.events a).usec, a, (m.events a).cb⟩

/-- Setting the delay of an event that is not in the list. -/
lemma queued_setUsec (h : a ∉ as) (usec : Int) : queued { m with events := setUsec m.events a usec } as = queued m as :=
  queued_congr fun b mem => by
    have ne : b ≠ a := ne_of_mem_of_not_mem mem h
    simp only [setUsec_of_ne ne, and_self]

/-- Where the loop stops: at an event that is later, which waits for what is left after the new one. -/
def stopped (m : Memory A C) (timer a : A) : Memory A C :=
  { m with events := setUsec m.events a ((m.events a).usec - (m.events timer).usec) }

/-- The delay of an event that is not later is taken off the new one. -/
def lessened (m : Memory A C) (timer a : A) : Memory A C :=
  { m with events := setUsec m.events timer ((m.events timer).usec - (m.events a).usec) }

/-- The turn that stops before a later event. -/
lemma insertBody_stops (lt : (m.events timer).usec < (m.events a).usec) (pprev : Option A) :
    Returns (insertBody timer (some a, pprev)) m (.inr pprev) (stopped m timer a) := by
  refine .bind (.asks _ m) (.bind (.asks _ m) (.ite_pos lt ?_))
  exact .bind (.update _ m) (.pure _ _)

/-- A turn that passes an earlier one. -/
lemma insertBody_passes (le : ¬(m.events timer).usec < (m.events a).usec) (pprev : Option A) :
    Returns (insertBody timer (some a, pprev)) m (.inl (((lessened m timer a).events a).next, some a)) (lessened m timer a) := by
  refine .bind (.asks _ m) (.bind (.asks _ m) (.ite_neg le ?_))
  exact .bind (.update _ m) (.bind (.asks _ (lessened m timer a)) (.pure _ _))

/-- The queue with the timer before a later event. -/
lemma queued_stopped (ne : timer ≠ a) (fresh : a ∉ rest) (lt : (m.events timer).usec < (m.events a).usec) :
    queued (stopped m timer a) (timer :: a :: rest) = timerInsert (labelled m timer) (queued m (a :: rest)) := by
  have others : queued (stopped m timer a) rest = queued m rest := queued_setUsec fresh _
  have here : (stopped m timer a).events timer = m.events timer := setUsec_of_ne ne
  have stop : (stopped m timer a).events a = { m.events a with usec := (m.events a).usec - (m.events timer).usec } :=
    Function.update_self _ _ _
  simp only [queued, List.map_cons, timerInsert, labelled, if_pos lt] at others ⊢
  rw [others, here, stop]

/-- Passing an event takes its time from the timer. -/
lemma labelled_lessened : labelled (lessened m timer a) timer =
    { labelled m timer with usec := (m.events timer).usec - (m.events a).usec } := by
  simp only [labelled, lessened, setUsec_self, setUsec_cb]

/-- The events that are passed stay before the new one, wherever that is put. -/
lemma timerInsert_passes (le : ¬(m.events timer).usec < (m.events a).usec) (new : timer ∉ as) :
    timerInsert (labelled m timer) (queued m (a :: as)) =
      labelled m a :: timerInsert (labelled (lessened m timer a) timer) (queued (lessened m timer a) as) := by
  have others : queued (lessened m timer a) as = queued m as := queued_setUsec new _
  rw [others, labelled_lessened]
  show timerInsert (labelled m timer) (labelled m a :: queued m as) = _
  rw [timerInsert]
  exact if_neg le

/-- The loop passes the events that are not later, and changes only the new event and the one that it stops at. -/
lemma insertLoop_returns (next pprev : Option A) (chain : Chain (fun a => (m.events a).next) next rest none)
    (nodup : rest.Nodup) (new : timer ∉ rest) : ∃ passed after m', rest = passed ++ after ∧
      Returns (loop (insertBody timer) (next, pprev)) m (passed.getLast?.or pprev) m' ∧ m'.queue = m.queue ∧
      (∀ a, (m'.events a).next = (m.events a).next) ∧ (∀ a, a ∉ timer :: after → m'.events a = m.events a) ∧
      queued m' (passed ++ timer :: after) = timerInsert (labelled m timer) (queued m rest) := by
  induction rest generalizing next pprev m with
  | nil =>
    cases chain
    exact ⟨[], [], m, rfl, .exit (.pure _ _), rfl, fun _ => rfl, fun _ _ => rfl, rfl⟩
  | cons a rest ih =>
    obtain ⟨rfl, chain⟩ := chain
    obtain ⟨fresh, nodup⟩ := List.nodup_cons.mp nodup
    have ne : timer ≠ a := fun e => new (e ▸ List.mem_cons_self)
    have new : timer ∉ rest := fun mem => new (List.mem_cons_of_mem a mem)
    by_cases lt : (m.events timer).usec < (m.events a).usec
    · refine ⟨[], a :: rest, stopped m timer a, rfl, .exit (insertBody_stops lt pprev), rfl, fun b => setUsec_next,
        fun b other => setUsec_of_ne ?_, queued_stopped ne fresh lt⟩
      exact fun e => other (e ▸ List.mem_cons_of_mem timer List.mem_cons_self)
    · have links (b : A) : ((lessened m timer a).events b).next = (m.events b).next := setUsec_next
      have chain1 : Chain (fun b => ((lessened m timer a).events b).next) ((lessened m timer a).events a).next rest none := by
        simp only [links]
        exact chain
      obtain ⟨passed, after, m', rfl, run, queue, links', same, inserted⟩ := ih _ (some a) chain1 nodup new
      have end_ : passed.getLast?.or (some a) = (a :: passed).getLast?.or pprev := by
        rw [List.getLast?_cons]
        cases passed.getLast? <;> rfl
      rw [end_] at run
      have away : a ∉ timer :: after := by
        rintro (_ | ⟨_, mem⟩)
        · exact ne rfl
        · exact fresh (List.mem_append_right _ mem)
      have here : m'.events a = m.events a := (same a away).trans (setUsec_of_ne ne.symm)
      refine ⟨a :: passed, after, m', rfl, .turn (insertBody_passes lt pprev) run, queue,
        fun b => (links' b).trans (links b), fun b other => ?_, ?_⟩
      · refine (same b other).trans (setUsec_of_ne ?_)
        exact fun e => other (e ▸ List.mem_cons_self)
      · have first : labelled m' a = labelled m a := by rw [labelled, labelled, here]
        show labelled m' a :: queued m' (passed ++ timer :: after) =
          timerInsert (labelled m timer) (queued m (a :: (passed ++ after)))
        rw [inserted, first, timerInsert_passes lt new]

/-- Changing one event, seen from the links. -/
lemma update_next (events : A → Event A C) (a : A) (e : Event A C) :
    (fun b => (Function.update events a e b).next) = Function.update (fun b => (events b).next) a e.next := by
  funext b
  by_cases same : b = a
  · subst same
    rw [Function.update_self, Function.update_self]
  · rw [Function.update_of_ne same, Function.update_of_ne same]

/-- The new event is linked in where the loop has stopped. -/
lemma linked_putTimer (linked : Linked m (passed ++ after)) (nodup : (passed ++ after).Nodup) (new : timer ∉ passed ++ after) :
    Linked (putTimer timer passed.getLast? m) (passed ++ timer :: after) := by
  obtain ⟨b, first, rest⟩ := chain_append.mp linked
  rw [List.mem_append, not_or] at new
  rw [Linked, chain_append]
  rcases List.eq_nil_or_concat passed with rfl | ⟨l, x, rfl⟩
  · cases first
    refine ⟨some timer, rfl, rfl, ?_⟩
    simp only [List.getLast?_nil, putTimer, update_next, Function.update_self]
    exact rest.update new.2 m.queue
  · rw [List.concat_eq_append] at *
    obtain ⟨d, -, rfl, link⟩ := chain_append.mp first
    have link : (m.events x).next = b := link
    have apart := List.nodup_append.mp nodup
    have last : x ∉ l := fun mem => (List.nodup_append.mp apart.1).2.2 x mem x List.mem_cons_self rfl
    have other : x ∉ after := fun mem => apart.2.2 x (List.mem_append_right l List.mem_cons_self) x mem rfl
    have ne : timer ≠ x := fun e => new.1 (e ▸ List.mem_append_right l List.mem_cons_self)
    simp only [List.getLast?_concat, putTimer, linkAt, update_next, link]
    refine ⟨some timer, (first.update new.1 b).relink last _, rfl, ?_⟩
    rw [Function.update_of_ne ne, Function.update_self]
    exact (rest.update new.2 b).update other _

/-- Writing a link leaves the times. -/
lemma queued_putTimer (pprev : Option A) : queued (putTimer timer pprev m) as = queued m as := by
  have same (events : A → Event A C) (a b : A) (link : Option A) :
      (Function.update events a { events a with next := link } b).usec = (events b).usec ∧
        (Function.update events a { events a with next := link } b).cb = (events b).cb := by
    by_cases e : b = a
    · subst e
      rw [Function.update_self]
      exact ⟨rfl, rfl⟩
    · rw [Function.update_of_ne e]
      exact ⟨rfl, rfl⟩
  refine queued_congr fun b _ => ?_
  cases pprev with
  | none => exact same m.events timer b _
  | some a =>
    have first := same m.events timer b (linkAt m (some a))
    have second := same (Function.update m.events timer { m.events timer with next := linkAt m (some a) }) a b (some timer)
    exact ⟨second.1.trans first.1, second.2.trans first.2⟩

/-- The code does in memory what `timerInsert` does to the queue. -/
lemma timerEnqueue_returns (linked : Linked m as) (nodup : as.Nodup) (new : timer ∉ as) (usec : Int) (cb : C) :
    ∃ passed after m', as = passed ++ after ∧ Returns (timerEnqueue timer usec cb) m () m' ∧
      Linked m' (passed ++ timer :: after) ∧
      queued m' (passed ++ timer :: after) = timerInsert ⟨usec, timer, some cb⟩ (queued m as) := by
  let m1 : Memory A C := { m with events := Function.update m.events timer ⟨usec, some cb, none⟩ }
  have others {a : A} (mem : a ∈ as) : m1.events a = m.events a :=
    Function.update_of_ne (ne_of_mem_of_not_mem mem new) _ _
  have linked1 : Linked m1 as := Chain.congr linked fun a mem => by rw [others mem]
  obtain ⟨passed, after, m2, rfl, run, queue, links, -, inserted⟩ :=
    insertLoop_returns m.queue none linked1 nodup new
  have linked2 : Linked m2 (passed ++ after) := by
    rw [Linked, queue]
    simp only [links]
    exact linked1
  rw [Option.or_none] at run
  refine ⟨passed, after, putTimer timer passed.getLast? m2, rfl, ?_, linked_putTimer linked2 nodup new, ?_⟩
  · exact .bind (.asks _ m) (.bind (.update _ m) (.bind run (.update _ m2)))
  · have same : queued m1 (passed ++ after) = queued m (passed ++ after) :=
      queued_congr fun a mem => by rw [others mem]; exact ⟨rfl, rfl⟩
    have label : labelled m1 timer = ⟨usec, timer, some cb⟩ := by
      simp only [labelled, m1, Function.update_self]
    rw [queued_putTimer, inserted, same, label]

end Loop

/-- The loop of `timer_add` puts an event into the queue, of which no delay is negative, so that the other events expire
    when they did and the new one after its delay: behind those that are not later, and before those that are. No delay
    becomes negative. -/
theorem timerEnqueue_deadlines (m : Memory A C) (as : List A) (linked : Linked m as) (nodup : as.Nodup)
    (nonneg : NonNeg (queued m as)) (timer : A) (new : timer ∉ as) (usec : Int) (le : 0 ≤ usec) (cb : C) :
    ∃ passed after m' early late, as = passed ++ after ∧ Returns (timerEnqueue timer usec cb) m () m' ∧
      Linked m' (passed ++ timer :: after) ∧ NonNeg (queued m' (passed ++ timer :: after)) ∧
      deadlines 0 (queued m as) = early ++ late ∧
      deadlines 0 (queued m' (passed ++ timer :: after)) = early ++ (usec, timer, some cb) :: late ∧
      (∀ d ∈ early, d.1 ≤ usec) ∧ ∀ d ∈ late, usec < d.1 := by
  obtain ⟨passed, after, m', split, run, linked', inserted⟩ := timerEnqueue_returns linked nodup new usec cb
  obtain ⟨early, late, before, behind, low, high⟩ := deadlines_timerInsert nonneg ⟨usec, timer, some cb⟩ 0
  rw [zero_add] at behind low high
  refine ⟨passed, after, m', early, late, split, run, linked', ?_, before, ?_, low, high⟩
  · rw [inserted]
    exact timerInsert_nonNeg nonneg le
  · rw [inserted]
    exact behind

/-- An event after 10, between one after 10 and one after 15. -/
theorem timerEnqueue_twoEvents : Waiting (twoEvents 10 5 5) [0, 1] ∧ ∃ m' early late,
    Returns (timerEnqueue 2 10 7) (twoEvents 10 5 5) () m' ∧
      deadlines 0 (queued (twoEvents 10 5 5) [0, 1]) = early ++ late ∧
      (∀ d ∈ early, d.1 ≤ 10) ∧ ∀ d ∈ late, 10 < d.1 := by
  have waiting := waiting_twoEvents
  obtain ⟨-, -, m', early, late, -, run, -, -, before, -, low, high⟩ :=
    timerEnqueue_deadlines _ _ waiting.linked waiting.nodup waiting.pending.nonneg 2 (by decide) 10 (by decide) 7
  exact ⟨waiting, m', early, late, run, before, low, high⟩

end Twcos.Timer
