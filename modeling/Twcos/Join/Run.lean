import Twcos.Join.Turns

/-!
# Runs of join and exit

Every step keeps the invariant. After a `thread_exit` the threads that join return its value.
-/

namespace Twcos.Join
open Twcos.Ring Twcos.Run Twcos.Sched Function

section Steps
variable {T O R : Type} [DecidableEq T] [DecidableEq O] {s s' : System T O R}
  {lists : Queue (Lock T O) (Key T O) → List T} {rest : List (Op T O R)} {op : Op T O R} {u : T}

/-- A step of the function that the current thread is in. -/
lemma Inv.run (h : Inv s lists) (hc : s.code s.kernel.current = op :: rest) (run : run s rest op = some s')
    (free : Unhindered s .run) : ∃ lists', Inv s' lists' := by
  -- a thread that waits for a lock has not called `thread_exit`
  have alive : waits s = true → s.retval s.kernel.current = none := by
    intro waits
    by_contra exited
    rw [free.1 (.inl (h.exited _ exited).1)] at waits
    cases waits
  cases op with
  | acquire l =>
    rw [Join.run] at run
    split at run
    · next owner =>
      cases run
      exact ⟨lists, h.take hc (.inl owner) _⟩
    · next o owner =>
      split at run
      · next ne =>
        refine h.lockWait (.inl hc) (alive ?_) run
        simp [waits, hc, owner, ne.symm]
      · next same =>
        cases run
        cases not_not.mp same
        exact ⟨lists, h.take hc (.inr owner) _⟩
  | retry l =>
    rw [Join.run] at run
    split at run
    · next taken =>
      refine h.lockWait (.inr hc) (alive ?_) run
      simp [waits, hc, taken]
    · next owner =>
      cases run
      refine ⟨lists, h.pass hc (not_not.mp owner) _ ?_⟩
      rintro u rfl
      rcases free.2 u (by simp [retries, hc]) with waits | announced
      · simp [Join.waits, hc, not_not.mp owner] at waits
      · exact announced
  | release l =>
    cases run
    exact ⟨lists, h.release hc⟩
  | wait p => exact h.monitorWait hc _ run
  | restore p count =>
    cases run
    exact ⟨lists, h.restore hc⟩
  | signal p => exact h.signal hc run
  | broadcast p => exact h.broadcast hc run
  | terminate r => exact ⟨lists, (h.terminate hc run).2⟩
  | schedule => exact h.schedule hc run
  | test u => exact h.test hc run
  | fetch u =>
    cases run
    exact ⟨lists, h.fetch hc⟩
  | joined u v =>
    cases run
    exact ⟨lists, h.joins hc⟩

/-- A step keeps the invariant. -/
lemma Inv.step (h : Inv s lists) {i : Input T O R} (run : step s i = some s') (free : Unhindered s i) :
    ∃ lists', Inv s' lists' := by
  cases i with
  | run =>
    rw [Join.step] at run
    split at run
    · cases run
    · next op rest hc => exact h.run hc run free
  | call c =>
    rw [Join.step] at run
    split at run
    · next hc =>
      cases run
      exact ⟨lists, h.call hc c⟩
    · cases run
  | fork thread =>
    rw [Join.step] at run
    split at run
    · exact h.stay run trivial (fun q hq => by cases hq) (fun exited => ⟨fun _ _ => id, h.busy (h.exited _ exited).1⟩)
        (fun _ => Eq.symm) fun _ => Eq.symm
    · cases run
  | yield =>
    refine h.stay run trivial (fun q hq => by cases hq) (fun exited => absurd (h.exited _ exited).1 free) ?_ ?_
    · rintro _ (e | e) <;> cases e
    · rintro _ (e | e) <;> cases e
  | preempt =>
    refine h.stay run trivial (fun q hq => by cases hq) (fun exited => absurd (h.exited _ exited).1 free) ?_ ?_
    · rintro _ (e | e) <;> cases e
    · rintro _ (e | e) <;> cases e

omit [DecidableEq O] in
/-- The start is in order. -/
lemma inv_start (links : Links T) (thread : T) (priority : T → Tpriority) :
    Inv (start links thread priority : System T O R) fun _ => [] where
  ordered := ordered_boot links thread priority
  fits := nofun
  proper := fun t => ⟨List.Pairwise.nil, nofun, nofun, nofun, nofun, nofun⟩
  exited := fun u e => absurd rfl e
  ended := by
    intro u state
    by_cases this : u = thread
    · subst this
      have runs : update (fun _ => Tstate.new) u .running u = .terminated := state
      rw [update_self] at runs
      cases runs
    · have runs : update (fun _ => Tstate.new) thread .running u = .terminated := state
      rw [update_of_ne this] at runs
      cases runs
  known := fun t e => absurd rfl e
  busy := by
    intro state
    have runs : update (fun _ => Tstate.new) thread .running thread = .terminated := state
    rw [update_self] at runs
    cases runs
  held := fun u t _ holding => by
    rcases holding.1 with mem | ⟨-, -, mem⟩ <;> cases mem
  awake := fun u t announced => absurd rfl announced.1

/-- No other step than the one of `thread_exit` sets the value. -/
lemma run_retval (run : run s rest op = some s') (ne : ∀ r, op ≠ .terminate r) : s'.retval = s.retval := by
  cases op with
  | acquire l =>
    rw [Join.run] at run
    split at run
    · cases run
      rfl
    · split at run
      · have same := event_retval run
        exact same
      · cases run
        rfl
  | retry l =>
    rw [Join.run] at run
    split at run
    · have same := event_retval run
      exact same
    · cases run
      rfl
  | wait p =>
    have same := event_retval run
    exact same
  | signal p =>
    have same := event_retval run
    exact same
  | broadcast p =>
    rw [Join.run] at run
    split at run
    · cases run
      rfl
    · have same := event_retval run
      exact same
  | terminate r => exact absurd rfl (ne r)
  | schedule =>
    have same := event_retval run
    exact same
  | test u =>
    rw [Join.run] at run
    split at run <;> cases run <;> rfl
  | release _ | restore _ _ | fetch _ | joined _ _ =>
    cases run
    rfl

/-- The value passed to `thread_exit` stays. -/
lemma Inv.retval_stays (h : Inv s lists) {i : Input T O R} (run : Join.step s i = some s') {r : R}
    (value : s.retval u = some r) : s'.retval u = some r := by
  cases i with
  | run =>
    rw [Join.step] at run
    split at run
    · cases run
    · next op rest hc =>
      by_cases ends : ∃ r, op = .terminate r
      · obtain ⟨r', rfl⟩ := ends
        have exits := (h.terminate hc run).1
        rw [exits.retval_of_some (value ▸ Option.some_ne_none r)]
        exact value
      · rw [run_retval run fun r e => ends ⟨r, e⟩]
        exact value
  | call c =>
    rw [Join.step] at run
    split at run
    · cases run
      exact value
    · cases run
  | fork thread =>
    rw [Join.step] at run
    split at run
    · rw [event_retval run]
      exact value
    · cases run
  | yield =>
    rw [event_retval run]
    exact value
  | preempt =>
    rw [event_retval run]
    exact value

/-- A broadcast that is over stays so. -/
lemma Inv.announced_stays (h : Inv s lists) {i : Input T O R} (run : Join.step s i = some s')
    (announced : Announced s u) : Announced s' u := by
  obtain ⟨r, value⟩ := Option.ne_none_iff_exists'.mp announced.1
  refine ⟨(h.retval_stays run value).symm ▸ Option.some_ne_none r, ?_⟩
  have before := announced.2
  rcases step_goes run with ⟨op, rest, code, rfl, hc, goes, how⟩ | ⟨c, rfl, hc, goes⟩ | ⟨-, same⟩
  · by_cases this : u = s.kernel.current
    · subst this
      rw [hc] at before
      rw [goes, update_self]
      intro mem
      refine before ?_
      cases how with
      | past _ _ => exact List.mem_cons_of_mem _ mem
      | retry _ _ => exact List.mem_cons_of_mem _ ((List.mem_cons.mp mem).resolve_left nofun)
      | sleep _ _ | loop _ _ | leave _ | fetch _ => simpa [threadWait, threadUnlock, threadMonitorGet] using mem
      | more p => exact mem
    · rw [goes, update_of_ne this]
      exact before
  · have this : u ≠ s.kernel.current := by
      rintro rfl
      exact h.busy (h.exited _ announced.1).1 hc
    rw [goes, update_of_ne this]
    exact before
  · rw [same]
    exact before

/-- A step of a `thread_join` on a thread that has exited leads on to its return, or is its return. -/
lemma Inv.leads (h : Inv s lists) (shaped : Shaped s) (announced : Announced s u)
    (joining : Joining u (s.code s.kernel.current)) (run : Join.step s .run = some s') (free : Unhindered s .run) :
    Joining u (s'.code s.kernel.current) ∧ left (s'.code s.kernel.current) < left (s.code s.kernel.current) ∨
      s.code s.kernel.current = [.joined u (s.retval u)] := by
  have proper := h.proper s.kernel.current
  have shape := shaped _ u joining
  have unhindered := free.1 (.inr joining.any)
  rcases step_goes run with ⟨op, rest, code, -, hc, goes, how⟩ | ⟨c, e, -⟩ | ⟨e, -⟩
  · rw [hc] at joining shape proper ⊢
    rw [goes, update_self]
    by_cases ended : Joining u code
    · refine .inl ⟨ended, how.left_lt unhindered (fun v test => ?_) fun p broadcast => ?_⟩
      · subst test
        have same : v = u := by simpa using shape.mem List.mem_cons_self
        exact same ▸ (h.exited u announced.1).1
      · subst broadcast
        simpa using shape.mem List.mem_cons_self
    · right
      obtain ⟨v, rfl, rfl⟩ := how.returns shape unhindered joining ended
      rw [(proper.values u v List.mem_cons_self).1]
  · cases e
  · cases e

/-- Other steps leave a `thread_join` where it is. -/
lemma code_stays {i : Input T O R} (run : Join.step s i = some s') {t : T} (busy : s.code t ≠ [])
    (other : ¬(i.runs ∧ s.kernel.current = t)) : s'.code t = s.code t := by
  rcases step_goes run with ⟨op, rest, code, rfl, hc, goes, -⟩ | ⟨c, rfl, hc, goes⟩ | ⟨-, same⟩
  · rw [goes]
    exact update_of_ne (fun this => other ⟨rfl, this.symm⟩) _ _
  · rw [goes]
    refine update_of_ne (fun this => ?_) _ _
    subst this
    exact busy hc
  · rw [same]

/-- The first step of a run counts if it is one of the thread's own. -/
lemma turns_cons {i : Input T O R} (run : Join.step s i = some s') (t : T) (es : List (Input T O R)) :
    turns t s (i :: es) = (if i.runs ∧ s.kernel.current = t then 1 else 0) + turns t s' es := by
  rw [turns, run]

/-- A `thread_join` on a thread that has exited returns after as many steps as are left of it. The induction is on the run;
    each step of the thread itself takes it nearer to its return, and the others leave it where it is. -/
lemma returns_of_turns {r : R} {t : T} {es : List (Input T O R)} (h : Inv s lists) (shaped : Shaped s)
    (free : Meets Join.step Unhindered s es) (value : s.retval u = some r) (announced : Announced s u)
    (joining : Joining u (s.code t)) (enough : left (s.code t) ≤ turns t s es) : Returns t u r s es := by
  induction es generalizing s lists with
  | nil => exact absurd joining.left_pos (Nat.not_lt_of_le enough)
  | cons i es ih =>
    cases run : Join.step s i with
    | none =>
      rw [turns, run] at enough
      exact absurd joining.left_pos (Nat.not_lt_of_le enough)
    | some s' =>
      rw [turns_cons run] at enough
      obtain ⟨unhindered, rest⟩ := free s' run
      obtain ⟨lists', inv⟩ := h.step run unhindered
      have later : Joining u (s'.code t) → left (s'.code t) ≤ turns t s' es → Returns t u r s (i :: es) := by
        intro joining' enough'
        obtain ⟨es1, es2, s1, rfl, reached, there⟩ := ih inv (shaped.step run unhindered) rest (h.retval_stays run value)
          (h.announced_stays run announced) joining' enough'
        refine ⟨i :: es1, es2, s1, rfl, ?_, there⟩
        rw [exec, run]
        exact reached
      by_cases own : i.runs ∧ s.kernel.current = t
      · obtain ⟨runs, rfl⟩ := own
        cases i with
        | run =>
          rcases h.leads shaped announced joining run unhindered with ⟨joining', less⟩ | hc
          · refine later joining' ?_
            rw [if_pos ⟨runs, rfl⟩] at enough
            omega
          · exact ⟨[], es, s, rfl, rfl, rfl, value ▸ hc⟩
        | _ => cases runs
      · have same := code_stays run joining.ne_nil own
        refine later (same ▸ joining) ?_
        rw [if_neg own, Nat.zero_add] at enough
        exact same ▸ enough

/-- What the invariant says of those who join. -/
lemma Inv.joined (h : Inv s lists) (shaped : Shaped s) {r : R} (value : s.retval u = some r) : Joined u r s where
  state := (h.exited u (value ▸ Option.some_ne_none r)).1
  retval := value
  awake := fun announced _ => h.not_asleep shaped announced
  proceeds := fun announced => h.proceeds shaped announced
  returns := fun t v mem => ((h.proper t).values u v mem).1.trans value

end Steps

/-- In every run in which no terminated thread loses the processor or waits for a lock, no `thread_join` waits for a lock, and
    nobody who has waited for the lock of a thread's monitor gets it before the broadcast of that thread: once a thread has
    called `thread_exit`, it stays terminated, after its broadcast nobody sleeps in a `thread_join` on it, and each of
    these returns the value that it passed, at the latest with its eleventh step. -/
theorem joined_always {T O R : Type} [DecidableEq T] [DecidableEq O] (links : Links T) (thread : T) (priority : T → Tpriority)
    {es es' : List (Input T O R)} (h : Meets step Unhindered (start links thread priority) (es ++ es'))
    {s : System T O R} (run : exec step (start links thread priority) es = some s) {u : T} {r : R}
    (exited : s.retval u = some r) :
    Always step (Joined u r) s es' ∧ ∀ es1 es2 s', es' = es1 ++ es2 → exec step s es1 = some s' → Announced s' u →
      ∀ t, Joining u (s'.code t) → 11 ≤ turns t s' es2 → Returns t u r s' es2 := by
  obtain ⟨before, after⟩ := h.append run
  have keep : ∀ (s : System T O R) i s', (∃ lists, Inv s lists) ∧ Shaped s → step s i = some s' → Unhindered s i →
      (∃ lists, Inv s' lists) ∧ Shaped s' := by
    rintro s i s' ⟨⟨lists, inv⟩, shaped⟩ run free
    exact ⟨inv.step run free, shaped.step run free⟩
  have reached := (always_of_meets keep ⟨⟨_, inv_start links thread priority⟩, shaped_start links thread priority⟩ before).last run
  have both : Always step (fun s => ((∃ lists, Inv s lists) ∧ Shaped s) ∧ s.retval u = some r) s es' := by
    apply always_of_meets _ ⟨reached, exited⟩ after
    rintro s i s' ⟨inv, value⟩ run free
    obtain ⟨⟨lists, inv'⟩, -⟩ := id inv
    exact ⟨keep s i s' inv run free, inv'.retval_stays run value⟩
  refine ⟨both.imp fun s ⟨⟨⟨lists, inv⟩, shaped⟩, value⟩ => inv.joined shaped value, ?_⟩
  rintro es1 es2 s' rfl there announced t joining enough
  obtain ⟨⟨⟨lists, inv⟩, shaped⟩, value⟩ := both.left there
  exact returns_of_turns inv shaped (after.append there).2 value announced joining
    (Nat.le_trans (shaped t u joining).left_le enough)

/-- Thread 0 alone. -/
def oneThread : System Nat Nat Nat := start ⟨id, id⟩ 0 fun _ => .normal

/-- Thread 0 joins thread 1 and sleeps, and thread 1 calls `thread_exit`. -/
def asleep : List (Input Nat Nat Nat) :=
  .fork 1 :: .call (.join 1) :: (List.replicate 7 .run ++ [.call (.exit 42), .run])

/-- Thread 1 comes to the end of its broadcast. -/
def wakes : List (Input Nat Nat Nat) := List.replicate 7 .run

def slept : System Nat Nat Nat := (exec step oneThread asleep).get (by decide +kernel)

def woken : System Nat Nat Nat := (exec step slept wakes).get (by decide +kernel)

/-- Thread 1 ends, and thread 0 returns from `thread_join` and locks an object. -/
def awake : List (Input Nat Nat Nat) := List.replicate 12 .run ++ [.call (.lock (.object 5)), .run, .run, .run]

/-- Thread 0 joins thread 1 and sleeps, thread 1 exits with 42, and thread 0 returns it. -/
theorem joined_asleep :
    Meets step Unhindered oneThread (asleep ++ (wakes ++ awake)) ∧
    ∃ s s', exec step oneThread asleep = some s ∧ exec step s wakes = some s' ∧
      Always step (Joined 1 42) s (wakes ++ awake) ∧ Returns 0 1 42 s' awake := by
  have free : Meets step Unhindered oneThread (asleep ++ (wakes ++ awake)) := by decide +kernel
  have exited : slept.retval 1 = some 42 := by decide +kernel
  have announced : Announced woken 1 := by decide +kernel
  have joining : .test 1 ∈ woken.code 0 := by decide +kernel
  have enough : 11 ≤ turns 0 woken awake := by decide +kernel
  have first : exec step oneThread asleep = some slept := (Option.some_get _).symm
  have second : exec step slept wakes = some woken := (Option.some_get _).symm
  obtain ⟨always, returns⟩ := joined_always ⟨id, id⟩ 0 (fun _ => .normal) free first exited
  exact ⟨free, slept, woken, first, second, always, returns wakes awake woken rfl second announced 0 (.inl joining) enough⟩

/-- Thread 0 has locked the monitor of thread 1 and yields. Thread 1 exits, has to wait for the lock, and is not
    terminated any more. -/
theorem exit_undone :
    ∃ s, exec step oneThread [.fork 1, .call (.lock (.thread 1)), .run, .run, .run, .yield, .call (.exit 42), .run] =
      some s ∧ s.retval 1 = some 42 ∧ s.kernel.state 1 = .terminated ∧
      ¬Always step (Joined 1 42) s [.run, .run, .run] := by
  refine ⟨_, rfl, rfl, rfl, fun h => ?_⟩
  have state := (h.last rfl).state
  cases state

end Twcos.Join
