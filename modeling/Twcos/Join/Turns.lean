import Twcos.Join.Step

/-!
# The turns of a join

What the steps of a `thread_join` are, as long as it does not have to wait for a lock, and that each of them leads on to its
return once the thread that it waits for has exited.
-/

namespace Twcos.Join
open Twcos.Ring Twcos.Run Twcos.Sched Function

/-- What is left of a `thread_join` on `u` that has not had to wait for a lock. -/
inductive Joins {T O R : Type} (u : T) : List (Op T O R) → Prop
  | start {code} (h : code <:+ threadJoin u) : Joins u code
  | again {code} (h : code <:+ threadWait (.thread u) ++ [.test u]) : Joins u code
  | woken {code} (count : BitVec 32)
      (h : code <:+ [.acquire (.monitor (.thread u)), .restore (.thread u) count, .test u]) : Joins u code
  | found {code} (h : code <:+ [.fetch u]) : Joins u code
  | done {code} (v : Option R) (h : code <:+ threadUnlock (.thread u) ++ [.joined u v]) : Joins u code

section Shape
variable {T O R : Type} {u : T} {code rest : List (Op T O R)} {op : Op T O R}

/-- The steps of a `thread_join`. -/
lemma Joins.mem (h : Joins u code) (mem : op ∈ code) :
    (∃ l, op = .acquire l) ∨ (∃ l, op = .release l) ∨ op = .wait (.thread u) ∨ (∃ c, op = .restore (.thread u) c) ∨
      op = .test u ∨ op = .fetch u ∨ ∃ v, op = .joined u v := by
  cases h with
  | start h | again h | woken _ h | found h | done _ h =>
    have mem := h.subset mem
    simp only [threadJoin, threadLock, threadWait, threadUnlock, threadMonitorGet, List.cons_append, List.nil_append,
      List.mem_cons, List.not_mem_nil, or_false] at mem
    rcases mem with rfl | mem
    all_goals grind

/-- The steps after the first are those of the same `thread_join`. -/
lemma Joins.tail (h : Joins u (op :: rest)) : Joins u rest := by
  cases h with
  | start h => exact .start ((List.suffix_cons _ _).trans h)
  | again h => exact .again ((List.suffix_cons _ _).trans h)
  | woken count h => exact .woken count ((List.suffix_cons _ _).trans h)
  | found h => exact .found ((List.suffix_cons _ _).trans h)
  | done v h => exact .done v ((List.suffix_cons _ _).trans h)

/-- After the wait comes the test. -/
lemma Joins.after_wait {p : Key T O} (h : Joins u (.wait p :: rest)) : p = .thread u ∧ rest = [.test u] := by
  cases h with
  | start h | again h | woken _ h | found h | done _ h =>
    simp only [threadJoin, threadLock, threadWait, threadUnlock, threadMonitorGet, List.cons_append, List.nil_append,
      List.suffix_cons_iff, List.suffix_nil, List.cons.injEq, reduceCtorEq, false_and, or_false, false_or, Op.wait.injEq] at h
    try exact h

/-- A thread that is woken up in the loop has the test before it. -/
lemma Joins.after_wake {p : Key T O} {count : BitVec 32} (h : Joins u (.acquire (.monitor p) :: .restore p count :: rest)) :
    p = .thread u ∧ rest = [.test u] := by
  cases h with
  | start h | again h | woken _ h | found h | done _ h =>
    simp only [threadJoin, threadLock, threadWait, threadUnlock, threadMonitorGet, List.cons_append, List.nil_append,
      List.suffix_cons_iff, List.suffix_nil, List.cons.injEq, reduceCtorEq, false_and, and_false, or_false,
      Op.acquire.injEq, Lock.monitor.injEq, Op.restore.injEq] at h
    try exact ⟨h.1, h.2.2⟩

/-- Only `thread_join` itself has its last steps, and nothing comes after them. -/
lemma Joins.last (h : Joins u (op :: rest)) (joins : op.joins = true) : rest = [] := by
  cases h with
  | start h | again h | woken _ h | found h | done _ h =>
    simp only [threadJoin, threadLock, threadWait, threadUnlock, threadMonitorGet, List.cons_append, List.nil_append,
      List.suffix_cons_iff, List.suffix_nil, List.cons.injEq, reduceCtorEq, or_false] at h
    grind [Op.joins]

/-- The thread is in `thread_join`. -/
lemma Joining.any (h : Joining u code) : code.any Op.joins = true := by
  rw [List.any_eq_true]
  rcases h with mem | mem | ⟨v, mem⟩
  · exact ⟨_, mem, rfl⟩
  · exact ⟨_, mem, rfl⟩
  · exact ⟨_, mem, rfl⟩

/-- Steps of a `thread_join` may come after others. -/
lemma Joining.subset {code' : List (Op T O R)} (h : Joining u code) (sub : ∀ op ∈ code, op.joins = true → op ∈ code') :
    Joining u code' := by
  rcases h with mem | mem | ⟨v, mem⟩
  · exact .inl (sub _ mem rfl)
  · exact .inr (.inl (sub _ mem rfl))
  · exact .inr (.inr ⟨v, sub _ mem rfl⟩)

/-- A step that other functions have as well is not the last one of a `thread_join`. -/
lemma Joining.later (h : Joining u (op :: rest)) (plain : op.joins = false) : Joining u rest := by
  refine h.subset fun x mem joins => (List.mem_cons.mp mem).resolve_left ?_
  rintro rfl
  rw [plain] at joins
  cases joins

/-- A step more. -/
lemma Joining.cons (h : Joining u rest) : Joining u (op :: rest) :=
  h.subset fun _ mem _ => List.mem_cons_of_mem _ mem

/-- A thread in `thread_join` has steps left. -/
lemma Joining.ne_nil (h : Joining u code) : code ≠ [] := by
  rintro rfl
  rcases h with mem | mem | ⟨v, mem⟩ <;> cases mem

/-- How far it is to the end, if no test sends the thread back. -/
def Op.cost : Op T O R → Nat
  | .test _ => 6
  | .fetch _ => 5
  | .wait _ => 3
  | _ => 1

def left (code : List (Op T O R)) : Nat := (code.map Op.cost).sum

/-- Every operation costs a turn. -/
lemma Op.cost_pos (op : Op T O R) : 0 < op.cost := by
  cases op <;> exact Nat.succ_pos _

/-- What is left of code, by its first operation. -/
@[simp] lemma left_cons (op : Op T O R) (rest : List (Op T O R)) : left (op :: rest) = op.cost + left rest := by
  rw [left, List.map_cons, List.sum_cons, left]

/-- Code that is done has nothing left. -/
@[simp] lemma left_nil : left ([] : List (Op T O R)) = 0 := rfl

/-- A thread in `thread_join` is not at the end of it. -/
lemma Joining.left_pos (h : Joining u code) : 0 < left code := by
  obtain ⟨op, rest, rfl⟩ := List.exists_cons_of_ne_nil h.ne_nil
  rw [left_cons]
  exact Nat.lt_of_lt_of_le op.cost_pos (Nat.le_add_right _ _)

/-- What is left of code in two parts. -/
lemma left_append (pre code : List (Op T O R)) : left (pre ++ code) = left pre + left code := by
  rw [left, List.map_append, List.sum_append, left, left]

/-- A `thread_join` has at most eleven steps left. -/
lemma Joins.left_le (h : Joins u code) : left code ≤ 11 := by
  have le : ∀ {all : List (Op T O R)}, code <:+ all → left code ≤ left all := by
    rintro _ ⟨pre, rfl⟩
    rw [left_append]
    exact Nat.le_add_left _ _
  cases h with
  | start h | again h | woken _ h | found h | done _ h =>
    exact Nat.le_trans (le h) (by simp [threadJoin, threadLock, threadWait, threadUnlock, threadMonitorGet, Op.cost])

end Shape

section Code
variable {T O R : Type} [DecidableEq T] [DecidableEq O] {s s' : System T O R}
  {lists : Queue (Lock T O) (Key T O) → List T} {code rest : List (Op T O R)} {op : Op T O R} {u t : T}

/-- An event of the scheduler leaves the code of the threads. -/
lemma event_code {e : Event T (Lock T O) (Key T O)} (run : s.event e = some s') : s'.code = s.code := by
  obtain ⟨kernel, -, rfl⟩ := Option.map_eq_some_iff.mp run
  rfl

/-- The scheduler does not touch the values. -/
lemma event_retval {e : Event T (Lock T O) (Key T O)} (run : s.event e = some s') : s'.retval = s.retval := by
  obtain ⟨kernel, -, rfl⟩ := Option.map_eq_some_iff.mp run
  rfl

/-- What the current thread goes on with after a step. -/
inductive Goes (s : System T O R) : Op T O R → List (Op T O R) → List (Op T O R) → Prop
  | past {op : Op T O R} {rest : List (Op T O R)} (test : ∀ v, op ≠ .test v) (fetch : ∀ v, op ≠ .fetch v) : Goes s op rest rest
  | retry {op : Op T O R} {rest : List (Op T O R)} (l : Lock T O) (waits : waits s = true) : Goes s op rest (.retry l :: rest)
  | sleep {rest : List (Op T O R)} (p : Key T O) (count : BitVec 32) :
      Goes s (.wait p) rest (.acquire (.monitor p) :: .restore p count :: rest)
  | more {rest : List (Op T O R)} (p : Key T O) : Goes s (.broadcast p) rest (.broadcast p :: rest)
  | loop {rest : List (Op T O R)} (v : T) (state : s.kernel.state v ≠ .terminated) :
      Goes s (.test v) rest (threadWait (.thread v) ++ .test v :: rest)
  | leave {rest : List (Op T O R)} (v : T) : Goes s (.test v) rest (.fetch v :: rest)
  | fetch {rest : List (Op T O R)} (v : T) :
      Goes s (.fetch v) rest (threadUnlock (.thread v) ++ .joined v (s.retval v) :: rest)

/-- Where the current thread goes. -/
lemma run_goes (hc : s.code s.kernel.current = op :: rest) (run : run s rest op = some s') :
    ∃ code, s'.code = update s.code s.kernel.current code ∧ Goes s op rest code := by
  cases op with
  | acquire l =>
    rw [Join.run] at run
    split at run
    · cases run
      exact ⟨rest, rfl, .past (by simp) (by simp)⟩
    · next o owner =>
      split at run
      · next ne =>
        refine ⟨_, event_code run, .retry l ?_⟩
        simp [waits, hc, owner, ne.symm]
      · cases run
        exact ⟨rest, rfl, .past (by simp) (by simp)⟩
  | retry l =>
    rw [Join.run] at run
    split at run
    · next taken =>
      refine ⟨_, event_code run, .retry l ?_⟩
      simp [waits, hc, taken]
    · cases run
      exact ⟨rest, rfl, .past (by simp) (by simp)⟩
  | wait p => exact ⟨_, event_code run, .sleep p _⟩
  | signal p => exact ⟨rest, event_code run, .past (by simp) (by simp)⟩
  | broadcast p =>
    rw [Join.run] at run
    split at run
    · cases run
      exact ⟨rest, rfl, .past (by simp) (by simp)⟩
    · exact ⟨_, event_code run, .more p⟩
  | terminate r => exact ⟨rest, event_code run, .past (by simp) (by simp)⟩
  | schedule => exact ⟨rest, event_code run, .past (by simp) (by simp)⟩
  | test v =>
    rw [Join.run] at run
    split at run
    · next state =>
      cases run
      exact ⟨_, rfl, .loop v state⟩
    · cases run
      exact ⟨_, rfl, .leave v⟩
  | fetch v =>
    cases run
    exact ⟨_, rfl, .fetch v⟩
  | release _ | restore _ _ | joined _ _ =>
    cases run
    exact ⟨rest, rfl, .past (by simp) (by simp)⟩

/-- Where the threads go with any step: the current thread makes its next step, or calls a function, and no other thread
    moves. -/
lemma step_goes {i : Input T O R} (run : step s i = some s') :
    (∃ op rest code, i = .run ∧ s.code s.kernel.current = op :: rest ∧ s'.code = update s.code s.kernel.current code ∧
        Goes s op rest code) ∨
      (∃ c, i = .call c ∧ s.code s.kernel.current = [] ∧
        s'.code = update s.code s.kernel.current (c.code s.kernel.current)) ∨
      i.runs = false ∧ s'.code = s.code := by
  cases i with
  | run =>
    rw [Join.step] at run
    split at run
    · cases run
    · next op rest hc =>
      obtain ⟨code, goes, how⟩ := run_goes hc run
      exact .inl ⟨op, rest, code, rfl, hc, goes, how⟩
  | call c =>
    rw [Join.step] at run
    split at run
    · next hc =>
      cases run
      exact .inr (.inl ⟨c, rfl, hc, rfl⟩)
    · cases run
  | fork thread =>
    rw [Join.step] at run
    split at run
    · exact .inr (.inr ⟨rfl, event_code run⟩)
    · cases run
  | yield => exact .inr (.inr ⟨rfl, event_code run⟩)
  | preempt => exact .inr (.inr ⟨rfl, event_code run⟩)

omit [DecidableEq O] in
/-- What a `thread_join` goes on with is the rest of the same `thread_join`. -/
lemma Goes.joins (goes : Goes s op rest code) (shape : ∀ v, Joining v (op :: rest) → Joins v (op :: rest))
    (free : (op :: rest).any Op.joins = true → waits s = false) (joining : Joining u code) : Joins u code := by
  cases goes with
  | past test fetch => exact (shape u joining.cons).tail
  | retry l waits =>
    have inside : Joining u (op :: rest) := (joining.later rfl).cons
    rw [free inside.any] at waits
    cases waits
  | sleep p count =>
    have inside : Joining u rest := (joining.later rfl).later rfl
    obtain ⟨rfl, rfl⟩ := (shape u inside.cons).after_wait
    exact .woken count List.suffix_rfl
  | more p => exact shape u joining
  | loop v state =>
    have empty : rest = [] := (shape v (.inl List.mem_cons_self)).last rfl
    subst empty
    have same : u = v := by
      rcases ((joining.later rfl).later rfl).later rfl with mem | mem | ⟨w, mem⟩ <;> cases List.mem_singleton.mp mem
      rfl
    subst same
    exact .again List.suffix_rfl
  | leave v =>
    have empty : rest = [] := (shape v (.inl List.mem_cons_self)).last rfl
    subst empty
    have same : u = v := by
      rcases joining with mem | mem | ⟨w, mem⟩ <;> cases List.mem_singleton.mp mem
      rfl
    subst same
    exact .found List.suffix_rfl
  | fetch v =>
    have empty : rest = [] := (shape v (.inr (.inl List.mem_cons_self))).last rfl
    subst empty
    have same : u = v := by
      rcases ((joining.later rfl).later rfl).later rfl with mem | mem | ⟨w, mem⟩ <;> cases List.mem_singleton.mp mem
      rfl
    subst same
    exact .done _ List.suffix_rfl

omit [DecidableEq O] in
/-- A step of a `thread_join` leads on to its return, if it does not wait for a lock and the thread has exited. -/
lemma Goes.left_lt (goes : Goes s op rest code) (free : waits s = false)
    (test : ∀ v, op = .test v → s.kernel.state v = .terminated) (broadcast : ∀ p, op ≠ .broadcast p) :
    left code < left (op :: rest) := by
  cases goes with
  | past _ _ =>
    have pos := op.cost_pos
    rw [left_cons]
    omega
  | retry l waits =>
    rw [free] at waits
    cases waits
  | sleep p count =>
    simp only [left_cons, Op.cost]
    omega
  | more p => exact absurd rfl (broadcast p)
  | loop v state => exact absurd (test v rfl) state
  | leave v =>
    simp only [left_cons, Op.cost]
    omega
  | fetch v =>
    simp only [threadUnlock, threadMonitorGet, List.cons_append, List.nil_append, left_cons, Op.cost]
    omega

omit [DecidableEq O] in
/-- The step after which a `thread_join` is ended is its return. -/
lemma Goes.returns (goes : Goes s op rest code) (shape : Joins u (op :: rest)) (free : waits s = false)
    (joining : Joining u (op :: rest)) (ended : ¬Joining u code) : ∃ v, op = .joined u v ∧ rest = [] := by
  cases goes with
  | past test fetch =>
    have last : op.joins = true := by
      by_contra plain
      exact ended (joining.later (Bool.not_eq_true _ ▸ plain))
    cases op with
    | test v => exact absurd rfl (test v)
    | fetch v => exact absurd rfl (fetch v)
    | joined w v =>
      have same : w = u := by simpa using shape.mem List.mem_cons_self
      subst same
      exact ⟨v, rfl, shape.last rfl⟩
    | _ => cases last
  | retry l waits =>
    rw [free] at waits
    cases waits
  | sleep p count => exact absurd (joining.later rfl).cons.cons ended
  | more p => exact absurd joining ended
  | loop v state =>
    have same : v = u := by simpa using shape.mem List.mem_cons_self
    subst same
    exact absurd (.inl (by simp)) ended
  | leave v =>
    have same : v = u := by simpa using shape.mem List.mem_cons_self
    subst same
    exact absurd (.inr (.inl List.mem_cons_self)) ended
  | fetch v =>
    have same : v = u := by simpa using shape.mem List.mem_cons_self
    subst same
    exact absurd (.inr (.inr ⟨s.retval v, by simp⟩)) ended

/-- Every `thread_join` is one that has not had to wait for a lock. -/
def Shaped (s : System T O R) : Prop := ∀ t u, Joining u (s.code t) → Joins u (s.code t)

/-- A step keeps them so. -/
lemma Shaped.step (h : Shaped s) {i : Input T O R} (run : Join.step s i = some s') (free : Unhindered s i) : Shaped s' := by
  rcases step_goes run with ⟨op, rest, code, rfl, hc, goes, how⟩ | ⟨c, rfl, -, goes⟩ | ⟨-, same⟩
  · intro t u joining
    by_cases this : t = s.kernel.current
    · subst this
      have shape := h s.kernel.current
      have unhindered := free.1
      rw [hc] at shape unhindered
      rw [goes, update_self] at joining ⊢
      exact how.joins shape (fun any => unhindered (.inr any)) joining
    · rw [goes, update_of_ne this] at joining ⊢
      exact h t u joining
  · intro t u joining
    by_cases this : t = s.kernel.current
    · subst this
      rw [goes, update_self] at joining ⊢
      cases c with
      | join v =>
        have same : u = v := by
          rcases ((joining.later rfl).later rfl).later rfl with mem | mem | ⟨w, mem⟩ <;> cases List.mem_singleton.mp mem
          rfl
        subst same
        exact .start List.suffix_rfl
      | _ =>
        exfalso
        simp [Joining, Call.code, threadLock, threadUnlock, threadSignal, threadBroadcast, threadWait, threadExit, threadExited,
          threadMonitorGet] at joining
    · rw [goes, update_of_ne this] at joining ⊢
      exact h t u joining
  · rw [Shaped, same]
    exact h

omit [DecidableEq O] in
/-- No thread is in `thread_join` at the start. -/
lemma shaped_start (links : Links T) (thread : T) (priority : T → Tpriority) :
    Shaped (start links thread priority : System T O R) :=
  fun _ _ joining => absurd rfl joining.ne_nil

omit [DecidableEq T] [DecidableEq O] in
/-- After the broadcast nobody sleeps in a `thread_join`. -/
lemma Inv.not_asleep (h : Inv s lists) (shaped : Shaped s) (announced : Announced s u) (joining : Joining u (s.code t)) :
    s.kernel.state t ≠ .sleeping := by
  intro sleeps
  have shape := shaped t u joining
  have other : ¬t = s.kernel.current := by
    rintro rfl
    exact h.not_sleeping sleeps
  have known : s.kernel.forked t = true := h.known t joining.ne_nil
  obtain ⟨q, mem⟩ := h.ordered.linked.found t other ⟨known, .inr sleeps⟩
  have fits := h.fits q t mem
  cases q with
  | run p =>
    have ready := h.ordered.linked.ready _ t mem
    rw [sleeps] at ready
    cases ready
  | lock l =>
    obtain ⟨rest, hc⟩ := fits
    rw [hc] at shape
    simpa using shape.mem List.mem_cons_self
  | monitor p =>
    obtain ⟨count, rest, hc⟩ := fits
    rw [hc] at shape
    obtain ⟨rfl, rfl⟩ := shape.after_wake
    exact h.awake u t announced ⟨sleeps, count, _, hc, List.mem_cons_self⟩

/-- A thread that waits for a lock is not the last one that can run. -/
lemma lockWait_isSome (s : System T O R) (l : Lock T O) : (s.event (.lockWait l)).isSome := by
  rw [System.event, Option.isSome_map]
  exact threadLockWait_isSome _ _

/-- After the broadcast a `thread_join` can always go on. -/
lemma Inv.proceeds (h : Inv s lists) (shaped : Shaped s) (announced : Announced s u)
    (joining : Joining u (s.code s.kernel.current)) : (step s .run).isSome := by
  have proper := h.proper s.kernel.current
  have shape := shaped _ u joining
  rw [Join.step]
  cases hc : s.code s.kernel.current with
  | nil => exact absurd hc joining.ne_nil
  | cons op rest =>
    rw [hc] at proper shape joining
    show (run s rest op).isSome
    rcases shape.mem List.mem_cons_self with ⟨l, rfl⟩ | ⟨l, rfl⟩ | rfl | ⟨c, rfl⟩ | rfl | rfl | ⟨v, rfl⟩
    · rw [run]
      split
      · rfl
      · split
        · exact lockWait_isSome _ l
        · rfl
    · rfl
    · -- nobody is about to wait
      obtain ⟨-, rfl⟩ := shape.after_wait
      exact absurd List.mem_cons_self (proper.past u announced (List.mem_cons_of_mem _ List.mem_cons_self))
    · rfl
    · rw [run]
      split <;> rfl
    · rfl
    · rfl

end Code
end Twcos.Join
