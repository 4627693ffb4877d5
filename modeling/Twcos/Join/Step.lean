import Twcos.Join.Inv

/-!
# Steps of join and exit

One lemma for each kind of step: it keeps the invariant.
-/

namespace Twcos.Join
open Twcos.Ring Twcos.Run Twcos.Sched Function

variable {T O R : Type} [DecidableEq T] [DecidableEq O] {s s' : System T O R}
  {lists lists' : Queue (Lock T O) (Key T O) → List T} {code rest : List (Op T O R)} {op : Op T O R} {u t : T}

omit [DecidableEq T] [DecidableEq O] in
/-- A step that the scheduler takes no part in has the effect of a signal that nobody waits for. -/
lemma effect_same (k : Kernel T (Lock T O) (Key T O)) : Effect k k (.lockSignal .table) lists lists :=
  ⟨fun _ _ => .inl, fun _ _ => .inl rfl, rfl, fun _ => id, .inl ⟨nofun, rfl⟩⟩

omit [DecidableEq T] [DecidableEq O] in
/-- The current thread is not asleep. -/
lemma Inv.not_sleeping (h : Inv s lists) : s.kernel.state s.kernel.current ≠ .sleeping := by
  rcases h.ordered.stands with e | e <;> rw [e] <;> nofun

variable {m : Lock T O → Mutex T}

omit [DecidableEq O] in
/-- A step of the current thread that the scheduler takes no part in. -/
lemma Inv.goto (h : Inv s lists)
    (owner : ∀ l t, t ≠ s.kernel.current → (s.mutex l).owner = some t → (m l).owner = some t)
    (proper : Proper s s.kernel.current code)
    (exited : s.retval s.kernel.current ≠ none → code <:+ s.code s.kernel.current ∧ code ≠ [])
    (silent : .broadcast (.thread s.kernel.current) ∈ s.code s.kernel.current →
      .broadcast (.thread s.kernel.current) ∉ code → s.kernel.heads (.monitor (.thread s.kernel.current)) = none ∧
        .acquire (.monitor (.thread s.kernel.current)) ∉ s.code s.kernel.current)
    (held : ∀ u, ¬Announced s u → Holding s s.kernel.current u code →
      (m (.monitor (.thread u))).owner = some s.kernel.current) :
    Inv ({ s with mutex := m }.goto code) lists := by
  have n : Next s ({ s with mutex := m }.goto code) lists lists (.lockSignal .table) code :=
    { ordered := h.ordered
      effect := effect_same s.kernel
      goes := rfl
      retval := rfl
      owner := owner
      proper := proper
      enters := nofun
      exited := fun e => ⟨(h.exited _ e).1, (exited e).1, fun _ => (exited e).2⟩
      lives := id
      silent := silent
      held := held
      awake := fun u _ asleep => h.not_sleeping asleep.1 }
  exact h.next n

/-- A step of the scheduler that is not the one of `thread_exit`, with what the current thread does before. -/
lemma Inv.event (h : Inv s lists) {e : Event T (Lock T O) (Key T O)}
    (run : ({ s with mutex := m }.goto code).event e = some s') (scheduled : Scheduled s.kernel e)
    (owner : ∀ l t, t ≠ s.kernel.current → (s.mutex l).owner = some t → (m l).owner = some t)
    (proper : Proper s s.kernel.current code) (enters : ∀ q, Enters e q → Fits q code)
    (exited : s.retval s.kernel.current ≠ none → (∀ old now, Leaves e old now → now = old) ∧
      code <:+ s.code s.kernel.current ∧ (e = .schedule ∨ code ≠ []))
    (lives : ∀ old, Leaves e old .terminated → old = .terminated)
    (silent : .broadcast (.thread s.kernel.current) ∈ s.code s.kernel.current →
      .broadcast (.thread s.kernel.current) ∈ code)
    (held : ∀ u, ¬Announced s u → Holding s s.kernel.current u code →
      (m (.monitor (.thread u))).owner = some s.kernel.current)
    (awake : ∀ u count rest, Announced s u →
      code = .acquire (.monitor (.thread u)) :: .restore (.thread u) count :: rest → .test u ∈ rest →
      ∀ old, Leaves e old .sleeping → old = .sleeping) :
    ∃ lists', Inv s' lists' := by
  obtain ⟨kernel, hk, hs⟩ := Option.map_eq_some_iff.mp run
  obtain ⟨lists', ordered, effect⟩ := h.ordered.step hk scheduled
  suffices n : Next s s' lists lists' e code from ⟨lists', h.next n⟩
  subst hs
  refine
    { ordered := ordered
      effect := effect
      goes := rfl
      retval := rfl
      owner := owner
      proper := proper
      enters := enters
      exited := fun hx => ?_
      lives := fun state => lives _ (state ▸ effect.this)
      silent := fun before after => absurd (silent before) after
      held := held
      awake := ?_ }
  · obtain ⟨remains, suffix, last⟩ := exited hx
    refine ⟨(remains _ _ effect.this).trans (h.exited _ hx).1, suffix, fun same => ?_⟩
    rcases last with rfl | nonempty
    · rcases effect.current with ⟨ne, -⟩ | runs
      · exact absurd rfl ne
      · have state := (remains _ _ effect.this).trans (h.exited _ hx).1
        have same' : kernel.current = s.kernel.current := same
        rw [← same', runs] at state
        cases state
    · exact nonempty
  · rintro u announced ⟨sleeps, count, rest, hc, test⟩
    have goes : update s.code s.kernel.current code s.kernel.current = code := update_self _ _ _
    have this := effect.this
    have sleeps' : kernel.state s.kernel.current = .sleeping := sleeps
    rw [sleeps'] at this
    exact h.not_sleeping (awake u count rest announced (goes.symm.trans hc) test _ this)

omit [DecidableEq T] [DecidableEq O] in
/-- The rest of the code is in shape, unless a thread exits. -/
lemma Proper.pop (h : Proper s t (op :: rest)) (ne : ∀ r, op ≠ .terminate r) : Proper s t rest where
  order := (List.pairwise_cons.mp h.order).2
  ending := fun r mem => absurd (List.cons.inj (h.ending r (List.mem_cons_of_mem _ mem))).1 (ne r)
  last := by
    intro mem
    rcases h.last (List.mem_cons_of_mem _ mem) with exited | ⟨r, mem⟩
    · exact .inl exited
    · rcases List.mem_cons.mp mem with e | mem
      · exact absurd e.symm (ne r)
      · exact .inr ⟨r, mem⟩
  past := fun u announced test wait => h.past u announced (List.mem_cons_of_mem _ test) (List.mem_cons_of_mem _ wait)
  fetched := fun u mem => h.fetched u (List.mem_cons_of_mem _ mem)
  values := fun u v mem => h.values u v (List.mem_cons_of_mem _ mem)

omit [DecidableEq T] [DecidableEq O] in
/-- Another first step, which is not the one that takes the lock. -/
lemma Holding.cons (h : Holding s t u rest) (acquire : op ≠ .acquire (.monitor (.thread u)))
    (retry : op ≠ .retry (.monitor (.thread u))) : Holding s t u (op :: rest) := by
  obtain ⟨needs, no_acquire, no_retry⟩ := h
  refine ⟨?_, fun mem => ?_, fun mem => ?_⟩
  · rcases needs with test | ⟨this, exited, broadcast⟩
    · exact .inl (List.mem_cons_of_mem _ test)
    · exact .inr ⟨this, exited, List.mem_cons_of_mem _ broadcast⟩
  · exact (List.mem_cons.mp mem).elim (fun e => acquire e.symm) no_acquire
  · exact (List.mem_cons.mp mem).elim (fun e => retry e.symm) no_retry

omit [DecidableEq T] [DecidableEq O] in
/-- Who holds a lock for the rest of its code. -/
lemma Holding.tail (h : Holding s t u (op :: rest)) (test : ∀ v, op ≠ .test v) (broadcast : ∀ p, op ≠ .broadcast p) :
    Holding s t u rest := by
  obtain ⟨needs, no_acquire, no_retry⟩ := h
  refine ⟨?_, fun mem => no_acquire (List.mem_cons_of_mem _ mem), fun mem => no_retry (List.mem_cons_of_mem _ mem)⟩
  rcases needs with mem | ⟨this, exited, mem⟩
  · rcases List.mem_cons.mp mem with e | mem
    · exact absurd e.symm (test u)
    · exact .inl mem
  · rcases List.mem_cons.mp mem with e | mem
    · exact absurd e.symm (broadcast _)
    · exact .inr ⟨this, exited, mem⟩

/-- The current thread makes a step and goes on with the next. -/
lemma Inv.pop (h : Inv s lists) (hc : s.code s.kernel.current = op :: rest) (ne : ∀ r, op ≠ .terminate r)
    (last : op ≠ .schedule)
    (owner : ∀ l t, t ≠ s.kernel.current → (s.mutex l).owner = some t → (m l).owner = some t)
    (silent : op = .broadcast (.thread s.kernel.current) →
      s.kernel.heads (.monitor (.thread s.kernel.current)) = none)
    (taken : ∀ u, ¬Announced s u → op = .acquire (.monitor (.thread u)) ∨ op = .retry (.monitor (.thread u)) →
      (m (.monitor (.thread u))).owner = some s.kernel.current)
    (kept : ∀ u, Holding s s.kernel.current u rest → (s.mutex (.monitor (.thread u))).owner = some s.kernel.current →
      (m (.monitor (.thread u))).owner = some s.kernel.current) :
    Inv ({ s with mutex := m }.goto rest) lists := by
  have proper := h.proper s.kernel.current
  have held := fun u => h.held u s.kernel.current
  rw [hc] at proper held
  refine h.goto owner (proper.pop ne) (fun exited => ?_) (fun before after => ?_) fun u early holding => ?_
  · rw [hc]
    refine ⟨List.suffix_cons _ _, ?_⟩
    rintro rfl
    have suffix := (h.exited _ exited).2.2
    rw [hc] at suffix
    exact last (last_threadExited suffix)
  · rw [hc] at before ⊢
    rcases List.mem_cons.mp before with e | before
    · refine ⟨silent e.symm, fun acquire => ?_⟩
      subst e
      rcases List.mem_cons.mp acquire with e | acquire
      · cases e
      · exact (List.pairwise_cons.mp proper.order).1 _ acquire
    · exact absurd before after
  · by_cases acquire : op = .acquire (.monitor (.thread u))
    · exact taken u early (.inl acquire)
    by_cases retry : op = .retry (.monitor (.thread u))
    · exact taken u early (.inr retry)
    · exact kept u holding (held u early (holding.cons acquire retry))

omit [DecidableEq O] in
/-- `mutex_unlock` takes the lock away from nobody else. -/
lemma mutexUnlock_owner {m : Mutex T} {this : T} (ne : t ≠ this) (owner : m.owner = some t) :
    (mutexUnlock m this).owner = some t := by
  have other : m.owner ≠ some this := by
    rw [owner]
    exact fun e => ne (Option.some.inj e)
  rw [mutexUnlock, if_neg other]
  exact owner

/-- One mutex has changed, and was not taken away from another thread. -/
lemma owner_update {this : T} {l : Lock T O} {new : Mutex T}
    (keep : ∀ t, t ≠ this → (s.mutex l).owner = some t → new.owner = some t) (l' : Lock T O) (t : T) (ne : t ≠ this)
    (owner : (s.mutex l').owner = some t) : (update s.mutex l new l').owner = some t := by
  by_cases e : l' = l
  · subst e
    rw [update_self]
    exact keep t ne owner
  · rw [update_of_ne e]
    exact owner

/-- The steps that `Proper` says nothing about. -/
def Plain : Op T O R → Prop
  | .terminate _ => False
  | .schedule => False
  | .wait _ => False
  | .test _ => False
  | .fetch _ => False
  | .joined _ _ => False
  | _ => True

omit [DecidableEq T] [DecidableEq O] in
/-- Of plain steps and waits, only the order is asked. -/
lemma Proper.of_plain (order : code.Pairwise Before) (plain : ∀ x ∈ code, Plain x ∨ ∃ p, x = .wait p) :
    Proper s t code := by
  have absent : ∀ x, ¬Plain x → (∀ p, x ≠ .wait p) → x ∉ code := by
    intro x special other mem
    rcases plain x mem with h | ⟨p, h⟩
    · exact special h
    · exact other p h
  refine ⟨order, fun r mem => ?_, fun mem => ?_, fun u _ mem => ?_, fun u mem => ?_, fun u v mem => ?_⟩
  all_goals exact absurd mem (absent _ id fun p e => by cases e)

omit [DecidableEq T] [DecidableEq O] in
/-- Plain steps in the place of the first. -/
lemma Proper.replace (h : Proper s t (op :: rest)) (ne : ∀ r, op ≠ .terminate r) (pre : List (Op T O R))
    (order : (pre ++ rest).Pairwise Before) (plain : ∀ x ∈ pre, Plain x) : Proper s t (pre ++ rest) := by
  have old : ∀ x, ¬Plain x → x ∈ pre ++ rest → x ∈ rest := by
    intro x special mem
    rcases List.mem_append.mp mem with mem | mem
    · exact absurd (plain x mem) special
    · exact mem
  have tail := h.pop ne
  refine ⟨order, fun r mem => ?_, fun mem => ?_, fun u announced test wait => ?_, fun u mem => ?_, fun u v mem => ?_⟩
  · have head := h.ending r (List.mem_cons_of_mem _ (old _ id mem))
    exact absurd (List.cons.inj head).1 (ne r)
  · rcases tail.last (old _ id mem) with exited | ⟨r, mem⟩
    · exact .inl exited
    · exact .inr ⟨r, List.mem_append_right _ mem⟩
  · exact tail.past u announced (old _ id test) (old _ id wait)
  · exact tail.fetched u (old _ id mem)
  · exact tail.values u v (old _ id mem)

omit [DecidableEq T] [DecidableEq O] in
/-- The last steps of a `thread_join` have none after them. -/
lemma Proper.last_step (h : Proper s t (op :: rest)) (last : ∀ x, ¬Before op x) : rest = [] := by
  cases rest with
  | nil => rfl
  | cons x rest => exact absurd ((List.pairwise_cons.mp h.order).1 x List.mem_cons_self) (last x)

omit [DecidableEq T] [DecidableEq O] in
/-- A thread that makes a step which is none of those of `thread_exit` has not called it. -/
lemma Inv.alive (h : Inv s lists) (hc : s.code s.kernel.current = op :: rest) (acquire : ∀ l, op ≠ .acquire l)
    (release : ∀ l, op ≠ .release l) (broadcast : ∀ p, op ≠ .broadcast p) (schedule : op ≠ .schedule) :
    s.retval s.kernel.current = none := by
  by_contra exited
  have suffix := (h.exited _ exited).2.2
  rw [hc] at suffix
  rcases mem_threadExited (suffix.subset List.mem_cons_self) with ⟨l, e⟩ | ⟨l, e⟩ | e | e
  · exact acquire l e
  · exact release l e
  · exact broadcast _ e
  · exact schedule e

/-- The current thread gets a lock that is free, or that it holds. -/
lemma Inv.take (h : Inv s lists) {l : Lock T O} (hc : s.code s.kernel.current = .acquire l :: rest)
    (free : (s.mutex l).owner = none ∨ (s.mutex l).owner = some s.kernel.current) (count : BitVec 32) :
    Inv ((s.setMutex l ⟨some s.kernel.current, count⟩).goto rest) lists := by
  refine h.pop hc nofun nofun (owner_update fun t ne owner => ?_) nofun (fun u early takes => ?_) fun u _ owner => ?_
  · rw [owner] at free
    rcases free with e | e
    · cases e
    · exact absurd (Option.some.inj e) ne
  · rcases takes with e | e
    · cases e
      rw [update_self]
    · cases e
  · by_cases e : .monitor (.thread u) = l
    · rw [e, update_self]
    · rw [update_of_ne e]
      exact owner

/-- The current thread waits for a lock. -/
lemma Inv.lockWait (h : Inv s lists) {l : Lock T O}
    (hc : s.code s.kernel.current = .acquire l :: rest ∨ s.code s.kernel.current = .retry l :: rest)
    (alive : s.retval s.kernel.current = none)
    (run : (s.goto (.retry l :: rest)).event (.lockWait l) = some s') : ∃ lists', Inv s' lists' := by
  have proper := h.proper s.kernel.current
  have kept := fun u => h.held u s.kernel.current
  refine h.event (m := s.mutex) run trivial (fun _ _ _ => id) ?_ (fun q enters => ?_) (fun e => absurd alive e)
    (fun _ e => absurd rfl e) (fun mem => ?_) (fun u early holding => ?_) nofun
  · rcases hc with hc | hc
    · rw [hc] at proper
      refine proper.replace nofun [.retry l] ?_ (fun x mem => ?_)
      · obtain ⟨first, tail⟩ := List.pairwise_cons.mp proper.order
        refine List.pairwise_cons.mpr ⟨fun x mem => ?_, tail⟩
        have before := first x mem
        cases l <;> cases x <;> exact before
      · rw [List.mem_singleton.mp mem]
        trivial
    · rw [hc] at proper
      exact proper
  · cases q with
    | lock m =>
      cases enters
      exact ⟨rest, rfl⟩
    | run p => cases enters
    | monitor p => cases enters
  · rcases hc with hc | hc <;> rw [hc] at mem
    · rcases List.mem_cons.mp mem with e | mem
      · cases e
      · exact List.mem_cons_of_mem _ mem
    · exact mem
  · have other : l ≠ .monitor (.thread u) := by
      rintro rfl
      exact holding.2.2 List.mem_cons_self
    refine kept u early ?_
    rcases hc with hc | hc
    · rw [hc]
      refine (holding.tail nofun nofun).cons (fun e => ?_) nofun
      cases e
      exact other rfl
    · rw [hc]
      exact holding

/-- The current thread waits on a monitor. -/
lemma Inv.monitorWait (h : Inv s lists) {p : Key T O} (hc : s.code s.kernel.current = .wait p :: rest)
    (count : BitVec 32) (run : ((s.setMutex (.monitor p) (mutexUnlock (s.mutex (.monitor p)) s.kernel.current)).goto
      (.acquire (.monitor p) :: .restore p count :: rest)).event (.monitorWait p) = some s') :
    ∃ lists', Inv s' lists' := by
  have proper := h.proper s.kernel.current
  have kept := fun u => h.held u s.kernel.current
  rw [hc] at proper kept
  have alive := h.alive hc nofun nofun nofun nofun
  refine h.event run trivial (owner_update fun t ne owner => mutexUnlock_owner ne owner) ?_ (fun q enters => ?_)
    (fun e => absurd alive e) (fun _ e => absurd rfl e) (fun mem => ?_) (fun u early holding => ?_)
    fun u count' rest' announced e test => ?_
  · refine proper.replace nofun [.acquire (.monitor p), .restore p count] ?_ fun x mem => ?_
    · obtain ⟨first, tail⟩ := List.pairwise_cons.mp proper.order
      refine List.pairwise_cons.mpr ⟨fun x mem => ?_, List.pairwise_cons.mpr ⟨fun x _ => ?_, tail⟩⟩
      · rcases List.mem_cons.mp mem with rfl | mem
        · trivial
        · have before := first x mem
          cases x with
          | wait k => exact before
          | _ => trivial
      · trivial
    · simp only [List.mem_cons, List.not_mem_nil, or_false] at mem
      rcases mem with rfl | rfl <;> trivial
  · cases q with
    | monitor c =>
      cases enters
      exact ⟨count, rest, rfl⟩
    | run p => cases enters
    | lock l => cases enters
  · rw [hc] at mem
    rcases List.mem_cons.mp mem with e | mem
    · cases e
    · exact List.mem_cons_of_mem _ (List.mem_cons_of_mem _ mem)
  · have other : .monitor (.thread u) ≠ Lock.monitor p := by
      intro e
      refine holding.2.1 ?_
      rw [e]
      exact List.mem_cons_self
    rw [update_of_ne other]
    exact kept u early (((holding.tail nofun nofun).tail nofun nofun).cons nofun nofun)
  · -- nobody waits for a thread after its broadcast
    cases e
    exact absurd List.mem_cons_self (proper.past u announced (List.mem_cons_of_mem _ test))

/-- The current thread has waited for a lock and finds it free. It does not become its owner. -/
lemma Inv.pass (h : Inv s lists) {l : Lock T O} (hc : s.code s.kernel.current = .retry l :: rest)
    (free : (s.mutex l).owner = none) (count : BitVec 32)
    (late : ∀ u, l = .monitor (.thread u) → Announced s u) :
    Inv ((s.setMutex l ⟨none, count⟩).goto rest) lists := by
  refine h.pop hc nofun nofun (owner_update fun t _ owner => ?_) nofun (fun u early passes => ?_) fun u _ owner => ?_
  · rw [owner] at free
    cases free
  · rcases passes with e | e
    · cases e
    · cases e
      exact absurd (late u rfl) early
  · have other : .monitor (.thread u) ≠ l := by
      rintro rfl
      rw [owner] at free
      cases free
    rw [update_of_ne other]
    exact owner

/-- Releasing a lock keeps the invariant. -/
lemma Inv.release (h : Inv s lists) {l : Lock T O} (hc : s.code s.kernel.current = .release l :: rest) :
    Inv ((s.setMutex l (mutexUnlock (s.mutex l) s.kernel.current)).goto rest) lists := by
  refine h.pop hc nofun nofun (owner_update fun t ne owner => mutexUnlock_owner ne owner) nofun
    (fun _ _ takes => takes.elim nofun nofun) fun u holding owner => ?_
  have other : .monitor (.thread u) ≠ l := by
    rintro rfl
    have order := (h.proper s.kernel.current).order
    rw [hc] at order
    have first := (List.pairwise_cons.mp order).1
    rcases holding.1 with test | ⟨-, -, broadcast⟩
    · exact first _ test
    · exact first _ broadcast
  rw [update_of_ne other]
  exact owner

/-- Setting the count of a lock again keeps the invariant. -/
lemma Inv.restore (h : Inv s lists) {p : Key T O} {count : BitVec 32}
    (hc : s.code s.kernel.current = .restore p count :: rest) :
    Inv ((s.setMutex (.monitor p) { s.mutex (.monitor p) with count := count }).goto rest) lists := by
  have same : ∀ l, (update s.mutex (.monitor p) { s.mutex (.monitor p) with count := count } l).owner =
      (s.mutex l).owner := by
    intro l
    by_cases e : l = .monitor p
    · subst e
      rw [update_self]
    · rw [update_of_ne e]
  exact h.pop hc nofun nofun (fun l t _ owner => (same l).trans owner) nofun (fun _ _ takes => takes.elim nofun nofun)
    fun u _ owner => (same _).trans owner

/-- Steps that leave the locks alone. -/
lemma Inv.skip (h : Inv s lists) (hc : s.code s.kernel.current = op :: rest) (ne : ∀ r, op ≠ .terminate r)
    (last : op ≠ .schedule) (acquire : ∀ l, op ≠ .acquire l) (retry : ∀ l, op ≠ .retry l)
    (silent : op = .broadcast (.thread s.kernel.current) →
      s.kernel.heads (.monitor (.thread s.kernel.current)) = none) : Inv (s.goto rest) lists :=
  h.pop (m := s.mutex) hc ne last (fun _ _ _ => id) silent
    (fun _ _ takes => takes.elim (fun e => absurd e (acquire _)) fun e => absurd e (retry _)) fun _ _ => id

/-- A step of the scheduler that leaves the current thread where it is. -/
lemma Inv.stay (h : Inv s lists) {e : Event T (Lock T O) (Key T O)} (run : s.event e = some s')
    (scheduled : Scheduled s.kernel e) (enters : ∀ q, ¬Enters e q)
    (exited : s.retval s.kernel.current ≠ none →
      (∀ old now, Leaves e old now → now = old) ∧ s.code s.kernel.current ≠ [])
    (lives : ∀ old, Leaves e old .terminated → old = .terminated)
    (awake : ∀ old, Leaves e old .sleeping → old = .sleeping) : ∃ lists', Inv s' lists' := by
  have same : { s with mutex := s.mutex }.goto (s.code s.kernel.current) = s := by
    rw [System.goto, update_eq_self]
  refine h.event (m := s.mutex) (same.symm ▸ run) scheduled (fun _ _ _ => id) (h.proper _)
    (fun q hq => absurd hq (enters q)) (fun hx => ?_) lives id (fun u => h.held u _) fun _ _ _ _ _ _ => awake
  exact ⟨(exited hx).1, List.suffix_rfl, .inr (exited hx).2⟩

/-- A signal keeps the invariant. -/
lemma Inv.signal (h : Inv s lists) {p : Key T O} (hc : s.code s.kernel.current = .signal p :: rest)
    (run : (s.goto rest).event (.monitorSignal p) = some s') : ∃ lists', Inv s' lists' := by
  have alive := h.alive hc nofun nofun nofun nofun
  have next := h.skip hc nofun nofun nofun nofun nofun
  exact next.stay run trivial (fun q hq => nomatch hq) (fun e => absurd alive e) (fun _ => Eq.symm) fun _ => Eq.symm

/-- A broadcast keeps the invariant. -/
lemma Inv.broadcast (h : Inv s lists) {p : Key T O} (hc : s.code s.kernel.current = .broadcast p :: rest)
    (run : run s rest (.broadcast p) = some s') : ∃ lists', Inv s' lists' := by
  rw [Join.run] at run
  split at run
  · next empty =>
    cases run
    refine ⟨lists, h.skip hc nofun nofun nofun nofun fun e => ?_⟩
    cases e
    exact empty
  · have same : s.goto (.broadcast p :: rest) = s := by
      rw [System.goto, ← hc, update_eq_self]
    rw [same] at run
    refine h.stay run trivial (fun q hq => nomatch hq) (fun _ => ⟨fun _ _ => id, ?_⟩) (fun _ => Eq.symm) fun _ => Eq.symm
    rw [hc]
    exact List.cons_ne_nil _ _

/-- The end of `thread_exit`. -/
lemma Inv.schedule (h : Inv s lists) (hc : s.code s.kernel.current = .schedule :: rest)
    (run : (s.goto rest).event .schedule = some s') : ∃ lists', Inv s' lists' := by
  have proper := h.proper s.kernel.current
  have kept := fun u => h.held u s.kernel.current
  rw [hc] at proper kept
  have exited : s.retval s.kernel.current ≠ none := by
    rcases proper.last List.mem_cons_self with exited | ⟨r, mem⟩
    · exact exited
    · have first := proper.ending r mem
      cases first
  refine h.event (m := s.mutex) run (h.exited _ exited).1 (fun _ _ _ => id) (proper.pop nofun) (fun q hq => nomatch hq)
    (fun _ => ⟨fun _ _ => id, ?_, .inl rfl⟩) (fun _ => Eq.symm) (fun mem => ?_)
    (fun u early holding => kept u early (holding.cons nofun nofun)) fun _ _ _ _ _ _ _ => Eq.symm
  · rw [hc]
    exact List.suffix_cons _ _
  · rw [hc] at mem
    rcases List.mem_cons.mp mem with e | mem
    · cases e
    · exact mem

omit [DecidableEq O] in
/-- The current thread goes on in `thread_join`. -/
lemma Inv.join (h : Inv s lists) (alive : s.retval s.kernel.current = none)
    (proper : Proper s s.kernel.current code)
    (broadcast : .broadcast (.thread s.kernel.current) ∉ s.code s.kernel.current)
    (held : ∀ u, Holding s s.kernel.current u code → Holding s s.kernel.current u (s.code s.kernel.current)) :
    Inv (s.goto code) lists :=
  h.goto (m := s.mutex) (fun _ _ _ => id) proper (fun e => absurd alive e) (fun mem => absurd mem broadcast)
    fun u early holding => h.held u _ early (held u holding)

omit [DecidableEq T] [DecidableEq O] in
/-- The steps of a wait need nothing themselves. -/
lemma Holding.after_wait {t : T} {p : Key T O} {code : List (Op T O R)} (h : Holding s t u (threadWait p ++ code)) :
    Holding s t u code :=
  ((h.tail nofun nofun).tail nofun nofun).tail nofun nofun

/-- A `thread_join` is done. -/
lemma Inv.joins {v : Option R} (h : Inv s lists) (hc : s.code s.kernel.current = .joined u v :: rest) :
    Inv (s.goto rest) lists :=
  h.skip hc nofun nofun nofun nofun nofun

/-- The condition of the loop in `thread_join`. -/
lemma Inv.test (h : Inv s lists) (hc : s.code s.kernel.current = .test u :: rest)
    (run : run s rest (.test u) = some s') : ∃ lists', Inv s' lists' := by
  have proper := h.proper s.kernel.current
  rw [hc] at proper
  have empty : rest = [] := proper.last_step fun _ => id
  subst empty
  have alive := h.alive hc nofun nofun nofun nofun
  have broadcast : .broadcast (.thread s.kernel.current) ∉ s.code s.kernel.current := by
    rw [hc]
    simp
  rw [Join.run] at run
  split at run
  · next state =>
    cases run
    refine ⟨lists, h.join alive ?_ broadcast fun v holding => ?_⟩
    · refine ⟨?_, ?_, ?_, fun v announced test => ?_, ?_, ?_⟩
      · simp [threadWait, threadMonitorGet, Before]
      · simp [threadWait, threadMonitorGet]
      · simp [threadWait, threadMonitorGet]
      · simp only [threadWait, threadMonitorGet, List.cons_append, List.nil_append, List.mem_cons, List.not_mem_nil,
          reduceCtorEq, false_or, or_false, Op.test.injEq] at test
        subst test
        exact absurd (h.exited v announced.1).1 state
      · simp [threadWait, threadMonitorGet]
      · simp [threadWait, threadMonitorGet]
    · rw [hc]
      exact holding.after_wait
  · next state =>
    cases run
    have exited := h.ended u (not_not.mp state)
    refine ⟨lists, h.join alive ?_ broadcast fun v holding => ?_⟩
    · refine ⟨by simp, by simp, by simp, by simp, fun v mem => ?_, by simp⟩
      cases List.mem_singleton.mp mem
      exact exited
    · rcases holding.1 with mem | ⟨-, -, mem⟩ <;> cases List.mem_singleton.mp mem

omit [DecidableEq O] in
/-- The end of `thread_join`. -/
lemma Inv.fetch (h : Inv s lists) (hc : s.code s.kernel.current = .fetch u :: rest) :
    Inv (s.goto (threadUnlock (.thread u) ++ .joined u (s.retval u) :: rest)) lists := by
  have proper := h.proper s.kernel.current
  rw [hc] at proper
  have empty : rest = [] := proper.last_step fun _ => id
  subst empty
  have exited := proper.fetched u List.mem_cons_self
  have alive := h.alive hc nofun nofun nofun nofun
  refine h.join alive ?_ ?_ fun v holding => ?_
  · refine ⟨?_, ?_, ?_, ?_, ?_, fun v w mem => ?_⟩
    · simp [threadUnlock, threadMonitorGet, Before]
    · simp [threadUnlock, threadMonitorGet]
    · simp [threadUnlock, threadMonitorGet]
    · simp [threadUnlock, threadMonitorGet]
    · simp [threadUnlock, threadMonitorGet]
    · simp only [threadUnlock, threadMonitorGet, List.cons_append, List.nil_append, List.mem_cons, List.not_mem_nil,
        reduceCtorEq, false_or, or_false, Op.joined.injEq] at mem
      obtain ⟨rfl, rfl⟩ := mem
      exact ⟨rfl, exited⟩
  · rw [hc]
    simp
  · have needs := holding.1
    simp [threadUnlock, threadMonitorGet] at needs

omit [DecidableEq T] [DecidableEq O] in
/-- The order of the operations of `thread_exit`. -/
lemma pairwise_threadExited (t : T) : (threadExited t : List (Op T O R)).Pairwise Before := by
  simp only [threadExited, threadLock, threadBroadcast, threadUnlock, threadMonitorGet, List.cons_append, List.nil_append,
    List.pairwise_cons, List.mem_cons, List.not_mem_nil, or_false, forall_eq_or_imp, forall_eq, Before, and_self,
    IsEmpty.forall_iff, implies_true, List.Pairwise.nil]

omit [DecidableEq T] [DecidableEq O] in
/-- The code that is left of `thread_exit` is in shape. -/
lemma proper_threadExited (exited : s.retval t ≠ none) : Proper s t (threadExited t) := by
  have none_of : ∀ x ∈ (threadExited t : List (Op T O R)), (∃ l, x = .acquire l) ∨ (∃ l, x = .release l) ∨
    x = .broadcast (.thread t) ∨ x = .schedule := fun x => mem_threadExited
  refine ⟨pairwise_threadExited t, fun r mem => ?_, fun _ => .inl exited, fun u _ mem => ?_, fun u mem => ?_,
    fun u v mem => ?_⟩
  all_goals rcases none_of _ mem with ⟨l, e⟩ | ⟨l, e⟩ | e | e <;> cases e

omit [DecidableEq T] [DecidableEq O] in
/-- The code of `thread_exit` is in shape. -/
lemma proper_threadExit (r : R) : Proper s t (threadExit t r) := by
  have none_of : ∀ x ∈ (threadExit t r : List (Op T O R)), x = .terminate r ∨ (∃ l, x = .acquire l) ∨ (∃ l, x = .release l) ∨
      x = .broadcast (.thread t) ∨ x = .schedule := fun x mem =>
    (List.mem_cons.mp mem).imp id mem_threadExited
  refine ⟨.cons (fun _ _ => trivial) (pairwise_threadExited t), fun r' mem => ?_,
    fun _ => .inr ⟨r, List.mem_cons_self⟩, fun u _ mem => ?_, fun u mem => ?_, fun u v mem => ?_⟩
  · rcases none_of _ mem with e | ⟨l, e⟩ | ⟨l, e⟩ | e | e <;> cases e
    rfl
  all_goals rcases none_of _ mem with e | ⟨l, e⟩ | ⟨l, e⟩ | e | e <;> cases e

omit [DecidableEq T] [DecidableEq O] in
/-- The code of `thread_join` is in shape. -/
lemma proper_threadJoin (u : T) : Proper s t (threadJoin u) := by
  constructor <;> simp [threadJoin, threadLock, threadMonitorGet, Before]

/-- What has changed when `thread_exit` has set the state and the value. -/
structure Exits (s s' : System T O R) (r : R) : Prop where
  alive : s.retval s.kernel.current = none
  kernel : s'.kernel = threadTerminate s.kernel
  mutex : s'.mutex = s.mutex
  retval : s'.retval = update s.retval s.kernel.current (some r)
  code : s'.code = update s.code s.kernel.current (threadExited s.kernel.current)

section Exits
omit [DecidableEq O]
variable {r : R} (x : Exits s s' r)
include x

/-- The code that a thread has left when it exits. -/
lemma Exits.code_self : s'.code s.kernel.current = threadExited s.kernel.current := by
  rw [x.code]
  exact update_self _ _ _

/-- An exit leaves the code of the others. -/
lemma Exits.code_of_ne (ne : t ≠ s.kernel.current) : s'.code t = s.code t := by
  rw [x.code]
  exact update_of_ne ne _ _

/-- The return value of a thread that exits. -/
lemma Exits.retval_self : s'.retval s.kernel.current = some r := by
  rw [x.retval]
  exact update_self _ _ _

/-- An exit leaves the return values of the others. -/
lemma Exits.retval_of_ne (ne : t ≠ s.kernel.current) : s'.retval t = s.retval t := by
  rw [x.retval]
  exact update_of_ne ne _ _

/-- A value that is there stays. -/
lemma Exits.retval_of_some (h : s.retval u ≠ none) : s'.retval u = s.retval u := by
  apply x.retval_of_ne
  rintro rfl
  exact h x.alive

/-- The state of a thread that exits. -/
lemma Exits.state_self : s'.kernel.state s.kernel.current = .terminated := by
  rw [x.kernel]
  exact update_self _ _ _

/-- An exit leaves the states of the others. -/
lemma Exits.state_of_ne (ne : t ≠ s.kernel.current) : s'.kernel.state t = s.kernel.state t := by
  rw [x.kernel]
  exact update_of_ne ne _ _

/-- The broadcast is still to come. -/
lemma Exits.announced_iff : Announced s' u ↔ Announced s u := by
  by_cases this : u = s.kernel.current
  · subst this
    refine iff_of_false (fun h => h.2 ?_) fun h => h.1 x.alive
    rw [x.code_self]
    simp [threadExited, threadBroadcast]
  · rw [Announced, Announced, x.retval_of_ne this, x.code_of_ne this]

/-- A thread that exits keeps the code of every thread in shape. -/
lemma Inv.proper_exits (h : Inv s lists) (t : T) : Proper s' t (s'.code t) := by
  by_cases this : t = s.kernel.current
  · subst this
    rw [x.code_self]
    apply proper_threadExited
    rw [x.retval_self]
    exact Option.some_ne_none r
  · have p := h.proper t
    rw [x.code_of_ne this]
    refine ⟨p.order, p.ending, ?_, fun u a => p.past u (x.announced_iff.mp a), fun u mem => ?_, fun u v mem => ?_⟩
    · rw [x.retval_of_ne this]
      exact p.last
    · have exited := p.fetched u mem
      rw [x.retval_of_some exited]
      exact exited
    · have exited := p.values u v mem
      rw [x.retval_of_some exited.2]
      exact exited

/-- A thread that exits keeps the invariant. -/
lemma Inv.exits (h : Inv s lists) (ordered : Ordered s'.kernel lists)  : Inv s' lists where
  ordered := ordered
  fits := by
    intro q t mem
    rw [x.code_of_ne (h.ordered.linked.outside q t mem)]
    exact h.fits q t mem
  proper := h.proper_exits x
  exited := by
    intro u exited
    by_cases this : u = s.kernel.current
    · subst this
      rw [x.state_self, x.code_self, x.kernel]
      exact ⟨rfl, h.ordered.known, List.suffix_rfl⟩
    · rw [x.retval_of_ne this] at exited
      rw [x.state_of_ne this, x.code_of_ne this, x.kernel]
      exact h.exited u exited
  ended := by
    intro u state
    by_cases this : u = s.kernel.current
    · subst this
      rw [x.retval_self]
      exact Option.some_ne_none r
    · rw [x.state_of_ne this] at state
      rw [x.retval_of_ne this]
      exact h.ended u state
  known := by
    intro t nonempty
    rw [x.kernel]
    by_cases this : t = s.kernel.current
    · subst this
      exact h.ordered.known
    · rw [x.code_of_ne this] at nonempty
      exact h.known t nonempty
  busy := by
    intro _
    rw [x.kernel]
    show s'.code s.kernel.current ≠ []
    rw [x.code_self]
    exact List.cons_ne_nil _ _
  held := by
    intro u t early holding
    rw [x.mutex]
    by_cases this : t = s.kernel.current
    · subst this
      rw [x.code_self] at holding
      rcases holding with ⟨test | ⟨rfl, -⟩, acquire, -⟩
      · exact absurd test (not_test_threadExited List.suffix_rfl u)
      · exact absurd (by simp [threadExited, threadLock]) acquire
    · rw [x.code_of_ne this] at holding
      refine h.held u t (fun a => early (x.announced_iff.mpr a)) ⟨?_, holding.2⟩
      rcases holding.1 with test | ⟨rfl, exited, broadcast⟩
      · exact .inl test
      · rw [x.retval_of_ne this] at exited
        exact .inr ⟨rfl, exited, broadcast⟩
  awake := by
    rintro u t announced ⟨sleeps, hc⟩
    by_cases this : t = s.kernel.current
    · subst this
      rw [x.state_self] at sleeps
      cases sleeps
    · rw [x.code_of_ne this] at hc
      rw [x.state_of_ne this] at sleeps
      exact h.awake u t (x.announced_iff.mp announced) ⟨sleeps, hc⟩

end Exits

/-- `thread_exit` sets the state and the value. -/
lemma Inv.terminate (h : Inv s lists) {r : R} (hc : s.code s.kernel.current = .terminate r :: rest)
    (run : ({ s with retval := update s.retval s.kernel.current (some r) }.goto rest).event .terminate = some s') :
    Exits s s' r ∧ Inv s' lists := by
  have proper := h.proper s.kernel.current
  rw [hc] at proper
  have tail : rest = threadExited s.kernel.current := (List.cons.inj (proper.ending r List.mem_cons_self)).2
  subst tail
  have x : Exits s s' r := by
    cases run
    exact ⟨h.alive hc nofun nofun nofun nofun, rfl, rfl, rfl, rfl⟩
  have ended : (threadTerminate s.kernel).state s.kernel.current = .terminated := update_self _ _ _
  refine ⟨x, h.exits x ?_⟩
  rw [x.kernel]
  exact ⟨h.ordered.linked.setState rfl .terminated, h.ordered.known, .inr ended⟩

omit [DecidableEq O] in
/-- The current thread calls a function. -/
lemma Inv.call (h : Inv s lists) (hc : s.code s.kernel.current = []) (c : Call T O R) :
    Inv (s.goto (c.code s.kernel.current)) lists := by
  have alive : s.retval s.kernel.current = none := by
    by_contra exited
    exact h.busy (h.exited _ exited).1 hc
  refine h.join alive ?_ ?_ fun u holding => ?_
  · cases c with
    | exit r => exact proper_threadExit r
    | join u => exact proper_threadJoin u
    | _ =>
      refine .of_plain ?_ ?_ <;>
        simp [Call.code, threadLock, threadUnlock, threadSignal, threadBroadcast, threadWait, threadMonitorGet, Before, Plain]
  · rw [hc]
    exact List.not_mem_nil
  · exfalso
    rcases holding with ⟨test | ⟨rfl, exited, -⟩, acquire, -⟩
    · cases c with
      | join v =>
        simp only [Call.code, threadJoin, threadLock, threadMonitorGet, List.cons_append, List.nil_append, List.mem_cons,
          List.not_mem_nil, reduceCtorEq, false_or, or_false, Op.test.injEq] at test
        subst test
        exact acquire (by simp [Call.code, threadJoin, threadLock])
      | _ =>
        simp [Call.code, threadLock, threadUnlock, threadSignal, threadBroadcast, threadWait, threadExit, threadExited,
          threadMonitorGet] at test
    · exact exited alive

end Twcos.Join
