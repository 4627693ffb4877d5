import Mathlib.Data.List.Pairwise
import Twcos.Join.Basic

/-!
# The invariant of join and exit

What relates the lists of threads, the owners of the locks and the steps that the threads have left. `Next` says what
a step of the current thread has to respect, and `Inv.next` that the invariant holds after it.
-/

namespace Twcos.Join
open Twcos.Sched Function

variable {T O R : Type}

/-- The order of steps: what may stand before what among the steps that are left. -/
def Before : Op T O R → Op T O R → Prop
  | .test _, _ => False
  | .fetch _, _ => False
  | .joined _ _, _ => False
  | .release (.monitor _), .test _ => False
  | .release (.monitor _), .broadcast _ => False
  | .broadcast _, .test _ => False
  | .broadcast _, .fetch _ => False
  | .broadcast _, .joined _ _ => False
  | .broadcast _, .acquire (.monitor _) => False
  | .acquire (.monitor _), .wait _ => False
  | .retry (.monitor _), .wait _ => False
  | .wait _, .acquire (.monitor _) => False
  | .wait _, .retry _ => False
  | .wait _, .wait _ => False
  | _, _ => True

/-- The steps of a thread in a list. -/
def Fits : Queue (Lock T O) (Key T O) → List (Op T O R) → Prop
  | .run _, _ => True
  | .lock l, code => ∃ rest, code = .retry l :: rest
  | .monitor p, code => ∃ count rest, code = .acquire (.monitor p) :: .restore p count :: rest

/-- The thread has to hold the lock of the monitor of `u`: it is in `thread_join`, between the lock and the wait or
    unlock, or it is `u` in `thread_exit`, between the lock and the end of the broadcast. -/
def Holding (s : System T O R) (t u : T) (code : List (Op T O R)) : Prop :=
  (.test u ∈ code ∨ t = u ∧ s.retval u ≠ none ∧ .broadcast (.thread u) ∈ code) ∧
    .acquire (.monitor (.thread u)) ∉ code ∧ .retry (.monitor (.thread u)) ∉ code

/-- What holds of the steps that are left of a thread. -/
structure Proper (s : System T O R) (t : T) (code : List (Op T O R)) : Prop where
  order : code.Pairwise Before
  ending : ∀ r, .terminate r ∈ code → code = threadExit t r
  last : .schedule ∈ code → s.retval t ≠ none ∨ ∃ r, .terminate r ∈ code
  past : ∀ u, Announced s u → .test u ∈ code → .wait (.thread u) ∉ code
  fetched : ∀ u, .fetch u ∈ code → s.retval u ≠ none
  values : ∀ u v, .joined u v ∈ code → v = s.retval u ∧ s.retval u ≠ none

/-- The invariant of the system. -/
structure Inv (s : System T O R) (lists : Queue (Lock T O) (Key T O) → List T) : Prop where
  ordered : Ordered s.kernel lists
  fits : ∀ q t, t ∈ lists q → Fits q (s.code t)
  proper : ∀ t, Proper s t (s.code t)
  exited : ∀ u, s.retval u ≠ none →
    s.kernel.state u = .terminated ∧ s.kernel.forked u = true ∧ s.code u <:+ threadExited u
  ended : ∀ u, s.kernel.state u = .terminated → s.retval u ≠ none
  known : ∀ t, s.code t ≠ [] → s.kernel.forked t = true
  busy : s.kernel.state s.kernel.current = .terminated → s.code s.kernel.current ≠ []
  held : ∀ u t, ¬Announced s u → Holding s t u (s.code t) → (s.mutex (.monitor (.thread u))).owner = some t
  awake : ∀ u t, Announced s u → ¬Asleep s t u

variable {s s' : System T O R} {lists lists' : Queue (Lock T O) (Key T O) → List T} {code rest : List (Op T O R)}
  {op : Op T O R} {u t : T}

/-- The steps of `thread_exit` once the state is set. -/
lemma mem_threadExited (h : op ∈ (threadExited u : List (Op T O R))) :
    (∃ l, op = .acquire l) ∨ (∃ l, op = .release l) ∨ op = .broadcast (.thread u) ∨ op = .schedule := by
  simp only [threadExited, threadLock, threadBroadcast, threadUnlock, threadMonitorGet, List.cons_append, List.nil_append,
    List.mem_cons, List.not_mem_nil, or_false] at h
  rcases h with h | h | h | h | h | h | h | h | h | h <;> simp [h]

/-- Only `thread_schedule` is the last step. -/
lemma last_threadExited (h : [op] <:+ (threadExited u : List (Op T O R))) : op = .schedule := by
  obtain ⟨pre, h⟩ := h
  exact (List.cons.inj (List.append_inj' h rfl).2).1

/-- `thread_exit` does not test a thread. -/
lemma not_test_threadExited (h : code <:+ threadExited u) (v : T) : .test v ∉ code := by
  intro hv
  rcases mem_threadExited (h.subset hv) with ⟨l, e⟩ | ⟨l, e⟩ | e | e <;> cases e

/-- Two steps of which neither may stand before the other are not both left. -/
lemma Proper.not_both (h : Proper s t code) {a b : Op T O R} (ne : a ≠ b) (ab : ¬Before a b) (ba : ¬Before b a)
    (ha : a ∈ code) (hb : b ∈ code) : False := by
  have either : code.Pairwise fun x y => Before x y ∨ Before y x := h.order.imp .inl
  have : Std.Symm fun x y : Op T O R => Before x y ∨ Before y x := ⟨fun _ _ => Or.symm⟩
  rcases either.forall ha hb ne with h | h
  · exact ab h
  · exact ba h

/-- A thread that is about to wait for `u` has to hold the lock. -/
lemma Proper.holding (h : Proper s t code) (test : .test u ∈ code) (wait : .wait (.thread u) ∈ code) :
    Holding s t u code := by
  refine ⟨.inl test, fun acquire => ?_, fun retry => ?_⟩
  · exact h.not_both (by nofun) id id wait acquire
  · exact h.not_both (by nofun) id id wait retry

/-- A thread that sleeps in the loop of `thread_join` is in the list of the monitor. -/
lemma Inv.listed (h : Inv s lists) (asleep : Asleep s t u) : t ∈ lists (.monitor (.thread u)) := by
  obtain ⟨sleeps, count, rest, code, -⟩ := asleep
  have other : ¬t = s.kernel.current := by
    rintro rfl
    rcases h.ordered.stands with e | e <;> rw [e] at sleeps <;> cases sleeps
  have known : s.kernel.forked t = true := by
    apply h.known
    rw [code]
    exact List.cons_ne_nil _ _
  obtain ⟨q, mem⟩ := h.ordered.linked.found t other ⟨known, .inr sleeps⟩
  have fits := h.fits q t mem
  rw [code] at fits
  cases q with
  | run p =>
    have ready := h.ordered.linked.ready _ t mem
    rw [sleeps] at ready
    cases ready
  | lock l =>
    obtain ⟨_, e⟩ := fits
    cases e
  | monitor p =>
    obtain ⟨_, _, e⟩ := fits
    cases e
    exact mem

section Next
variable [DecidableEq T]

/-- A step after which the current thread goes on with other steps, and no thread has called `thread_exit`. -/
structure Next (s s' : System T O R) (lists lists' : Queue (Lock T O) (Key T O) → List T)
    (e : Event T (Lock T O) (Key T O)) (code : List (Op T O R)) : Prop where
  ordered : Ordered s'.kernel lists'
  effect : Effect s.kernel s'.kernel e lists lists'
  goes : s'.code = update s.code s.kernel.current code
  retval : s'.retval = s.retval
  owner : ∀ l t, t ≠ s.kernel.current → (s.mutex l).owner = some t → (s'.mutex l).owner = some t
  proper : Proper s s.kernel.current code
  enters : ∀ q, Enters e q → Fits q code
  exited : s.retval s.kernel.current ≠ none → s'.kernel.state s.kernel.current = .terminated ∧
    code <:+ s.code s.kernel.current ∧ (s'.kernel.current = s.kernel.current → code ≠ [])
  lives : s'.kernel.state s.kernel.current = .terminated → s.kernel.state s.kernel.current = .terminated
  silent : .broadcast (.thread s.kernel.current) ∈ s.code s.kernel.current →
    .broadcast (.thread s.kernel.current) ∉ code → s.kernel.heads (.monitor (.thread s.kernel.current)) = none ∧
      .acquire (.monitor (.thread s.kernel.current)) ∉ s.code s.kernel.current
  held : ∀ u, ¬Announced s u → Holding s s.kernel.current u code →
    (s'.mutex (.monitor (.thread u))).owner = some s.kernel.current
  awake : ∀ u, Announced s u → ¬Asleep s' s.kernel.current u

variable {e : Event T (Lock T O) (Key T O)}

/-- The code that the current thread has left. -/
lemma Next.code_self (n : Next s s' lists lists' e code) : s'.code s.kernel.current = code := by
  rw [n.goes]
  exact update_self _ _ _

/-- The code of the others is the same. -/
lemma Next.code_of_ne (n : Next s s' lists lists' e code) (ne : t ≠ s.kernel.current) : s'.code t = s.code t := by
  rw [n.goes]
  exact update_of_ne ne _ _

/-- The current thread is in `thread_exit`, and its broadcast ends with the step. -/
structure Ends (s : System T O R) (code : List (Op T O R)) : Prop where
  exited : s.retval s.kernel.current ≠ none
  before : .broadcast (.thread s.kernel.current) ∈ s.code s.kernel.current
  after : .broadcast (.thread s.kernel.current) ∉ code

/-- A thread is announced after a step if it was before, or if the step was its broadcast. -/
lemma Next.announced_cases (n : Next s s' lists lists' e code) (h : Announced s' u) :
    Announced s u ∨ u = s.kernel.current ∧ Ends s code := by
  obtain ⟨exited, done⟩ := h
  rw [n.retval] at exited
  by_cases this : u = s.kernel.current
  · subst this
    rw [n.code_self] at done
    by_cases before : .broadcast (.thread s.kernel.current) ∈ s.code s.kernel.current
    · exact .inr ⟨rfl, exited, before, done⟩
    · exact .inl ⟨exited, before⟩
  · rw [n.code_of_ne this] at done
    exact .inl ⟨exited, done⟩

/-- An announced thread stays announced. -/
lemma Next.announced (n : Next s s' lists lists' e code) (h : Announced s u) : Announced s' u := by
  obtain ⟨exited, done⟩ := h
  refine ⟨n.retval ▸ exited, ?_⟩
  by_cases this : u = s.kernel.current
  · subst this
    rw [n.code_self]
    exact fun mem => done ((n.exited exited).2.1.subset mem)
  · rw [n.code_of_ne this]
    exact done

/-- Nobody is between the test and the wait when a thread ends its broadcast. -/
lemma Inv.nobody_waits (h : Inv s lists) (n : Next s s' lists lists' e code) (ends : Ends s code)
    (test : .test s.kernel.current ∈ s.code t) : .wait (.thread s.kernel.current) ∉ s.code t := by
  intro wait
  have early : ¬Announced s s.kernel.current := fun a => a.2 ends.before
  have theirs := h.held _ t early ((h.proper t).holding test wait)
  obtain ⟨-, -, suffix⟩ := h.exited _ ends.exited
  have no_retry : .retry (.monitor (.thread s.kernel.current)) ∉ s.code s.kernel.current := by
    intro mem
    rcases mem_threadExited (suffix.subset mem) with ⟨l, e⟩ | ⟨l, e⟩ | e | e <;> cases e
  have acquired := (n.silent ends.before ends.after).2
  have ours := h.held _ s.kernel.current early ⟨.inr ⟨rfl, ends.exited, ends.before⟩, acquired, no_retry⟩
  rw [theirs] at ours
  cases ours
  exact not_test_threadExited suffix _ test

/-- A step that is not `thread_exit` keeps the code of every thread in shape. -/
lemma Inv.proper_next (h : Inv s lists) (n : Next s s' lists lists' e code) (t : T) : Proper s' t (s'.code t) := by
  by_cases this : t = s.kernel.current
  · subst this
    have p := n.proper
    rw [n.code_self]
    refine ⟨p.order, p.ending, n.retval ▸ p.last, fun u announced test => ?_, n.retval ▸ p.fetched,
      n.retval ▸ p.values⟩
    rcases n.announced_cases announced with announced | ⟨rfl, ends⟩
    · exact p.past u announced test
    · have suffix := (n.exited ends.exited).2.1.trans (h.exited _ ends.exited).2.2
      exact absurd test (not_test_threadExited suffix _)
  · have p := h.proper t
    rw [n.code_of_ne this]
    refine ⟨p.order, p.ending, n.retval ▸ p.last, fun u announced test => ?_, n.retval ▸ p.fetched,
      n.retval ▸ p.values⟩
    rcases n.announced_cases announced with announced | ⟨rfl, ends⟩
    · exact p.past u announced test
    · exact h.nobody_waits n ends test

/-- Nobody sleeps on an announced thread after it. -/
lemma Inv.awake_next (h : Inv s lists) (n : Next s s' lists lists' e code) (announced : Announced s' u) :
    ¬Asleep s' t u := by
  intro asleep
  by_cases this : t = s.kernel.current
  · subst this
    rcases n.announced_cases announced with announced | ⟨rfl, ends⟩
    · exact n.awake u announced asleep
    · obtain ⟨-, count, rest, hc, test⟩ := asleep
      rw [n.code_self] at hc
      have suffix := (n.exited ends.exited).2.1.trans (h.exited _ ends.exited).2.2
      refine not_test_threadExited suffix s.kernel.current ?_
      rw [hc]
      exact List.mem_cons_of_mem _ (List.mem_cons_of_mem _ test)
  · -- the thread was asleep before
    obtain ⟨sleeps, hc⟩ := asleep
    rw [n.code_of_ne this] at hc
    have before : Asleep s t u := by
      refine ⟨?_, hc⟩
      rcases n.effect.others t this with same | ⟨-, e | e⟩
      · exact same ▸ sleeps
      · rw [e] at sleeps
        cases sleeps
      · rw [e] at sleeps
        cases sleeps
    rcases n.announced_cases announced with announced | ⟨rfl, ends⟩
    · exact h.awake u t announced before
    · -- but then the list of the monitor was not empty
      have mem := h.listed before
      have head := (h.ordered.linked.list (.monitor (.thread s.kernel.current))).head
      rw [(n.silent ends.before ends.after).1] at head
      rw [List.head?_eq_none_iff.mp head.symm] at mem
      cases mem

/-- A step keeps the invariant. -/
lemma Inv.next (h : Inv s lists) (n : Next s s' lists lists' e code) : Inv s' lists' where
  ordered := n.ordered
  fits := by
    intro q t mem
    rcases n.effect.moved q t mem with mem | ⟨p, rfl⟩ | ⟨rfl, enters⟩
    · have ne : t ≠ s.kernel.current := h.ordered.linked.outside q t mem
      rw [n.code_of_ne ne]
      exact h.fits q t mem
    · trivial
    · rw [n.code_self]
      exact n.enters q enters
  proper := h.proper_next n
  exited := by
    intro u exited
    rw [n.retval] at exited
    obtain ⟨state, forked, suffix⟩ := h.exited u exited
    by_cases this : u = s.kernel.current
    · subst this
      obtain ⟨state', suffix', -⟩ := n.exited exited
      rw [n.code_self]
      exact ⟨state', n.effect.forked _ forked, suffix'.trans suffix⟩
    · rw [n.code_of_ne this]
      refine ⟨?_, n.effect.forked _ forked, suffix⟩
      rcases n.effect.others u this with same | ⟨ne, -⟩
      · exact same.trans state
      · exact absurd state (ne forked)
  ended := by
    intro u state
    rw [n.retval]
    by_cases this : u = s.kernel.current
    · subst this
      exact h.ended _ (n.lives state)
    · rcases n.effect.others u this with same | ⟨-, e | e⟩
      · exact h.ended u (same ▸ state)
      · rw [e] at state
        cases state
      · rw [e] at state
        cases state
  known := by
    intro t nonempty
    by_cases this : t = s.kernel.current
    · subst this
      exact n.effect.forked _ h.ordered.known
    · rw [n.code_of_ne this] at nonempty
      exact n.effect.forked _ (h.known t nonempty)
  busy := by
    intro state
    rcases n.effect.current with ⟨-, same⟩ | runs
    · rw [same] at state ⊢
      rw [n.code_self]
      exact (n.exited (h.ended _ (n.lives state))).2.2 same
    · rw [runs] at state
      cases state
  held := by
    intro u t early holding
    have early' : ¬Announced s u := fun a => early (n.announced a)
    rw [Holding, n.retval] at holding
    by_cases this : t = s.kernel.current
    · subst this
      rw [n.code_self] at holding
      exact n.held u early' holding
    · rw [n.code_of_ne this] at holding
      exact n.owner _ t this (h.held u t early' holding)
  awake := fun _ _ announced => h.awake_next n announced

end Next

end Twcos.Join
