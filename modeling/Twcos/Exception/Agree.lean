import Twcos.Exception.Structured

/-!
# The frames and the blocks

The machine of `libk/exception.c` does what the interpreter does in its second mode (`follows_eval`), and so it agrees
with structured exceptions exactly for the programs in which no block that has caught an exception is to be left with
another one (`agrees_iff`).
-/

namespace Twcos.Exception
open Twcos.Run

variable {A F D : Type} [DecidableEq D] (code : F → Stmt A F D)

/-- From the state `s` the machine does what the result says, and then goes on with `todo` and the frames `fs`. If the
    result is cut off, at least `n` steps have been made. -/
def Follows (n : Nat) (s : State A F D) (todo : List (Item A F D)) (fs : List (Frame A F D))
    (trace : List (Event A D)) (r : Result A D) : Prop :=
  match r.out with
  | .normal => ∃ j, Steps (step code) j s (.run ⟨todo, fs, r.dtors, trace ++ r.trace⟩)
  | .thrown cause => ∃ j, Steps (step code) j s (exceptionThrowCause cause fs r.dtors (trace ++ r.trace))
  | .cut => ∃ j t, n ≤ j ∧ Steps (step code) j s (.run t) ∧ t.trace = trace ++ r.trace

/-- The machine agrees with structured exceptions on a program. -/
def Agrees (p : Stmt A F D) : Prop := ∀ n, Follows code n (start p) [] [] [] (eval false code n p [])

section Follows
variable {code} {n : Nat} {s s1 : State A F D} {todo todo' : List (Item A F D)} {fs fs' : List (Frame A F D)}
  {trace trace' : List (Event A D)} {r : Result A D}

/-- Steps before. -/
lemma Follows.cons {j : Nat} (h : Steps (step code) j s s1) (hf : Follows code n s1 todo fs trace r) :
    Follows code n s todo fs trace r := by
  unfold Follows at hf ⊢
  split at hf
  · obtain ⟨i, hs⟩ := hf
    exact ⟨j + i, h.trans hs⟩
  · obtain ⟨i, hs⟩ := hf
    exact ⟨j + i, h.trans hs⟩
  · obtain ⟨i, t, le, hs, e⟩ := hf
    exact ⟨j + i, t, by omega, h.trans hs, e⟩

/-- One step before counts. -/
lemma Follows.next (h : step code s = some s1) (hf : Follows code n s1 todo fs trace r) :
    Follows code (n + 1) s todo fs trace r := by
  unfold Follows at hf ⊢
  split at hf
  · obtain ⟨i, hs⟩ := hf
    exact ⟨i + 1, .cons h hs⟩
  · obtain ⟨i, hs⟩ := hf
    exact ⟨i + 1, .cons h hs⟩
  · obtain ⟨i, t, le, hs, e⟩ := hf
    exact ⟨i + 1, t, by omega, .cons h hs, e⟩

/-- Events before. -/
lemma Follows.after (h : Follows code n s todo fs (trace ++ trace') r) :
    Follows code n s todo fs trace (r.after trace') := by
  unfold Follows at h ⊢
  rw [List.append_assoc] at h
  exact h

/-- One part after the other. -/
lemma Follows.andThen {f : List (Option D) → Result A D} {g : Cause → List (Option D) → Result A D}
    (h : Follows code n s todo fs trace r)
    (hf : ∀ dtors trace, Follows code n (.run ⟨todo, fs, dtors, trace⟩) todo' fs' trace (f dtors))
    (hg : ∀ cause dtors trace, Follows code n (exceptionThrowCause cause fs dtors trace) todo' fs' trace (g cause dtors)) :
    Follows code n s todo' fs' trace (r.andThen f g) := by
  cases hout : r.out with
  | normal =>
    simp only [Follows, hout] at h
    obtain ⟨j, hs⟩ := h
    simp only [Result.andThen, hout]
    exact .after (.cons hs (hf r.dtors (trace ++ r.trace)))
  | thrown cause =>
    simp only [Follows, hout] at h
    obtain ⟨j, hs⟩ := h
    simp only [Result.andThen, hout]
    exact .after (.cons hs (hg cause r.dtors (trace ++ r.trace)))
  | cut =>
    simp only [Result.andThen, hout]
    unfold Follows at h ⊢
    simp only [hout] at h ⊢
    exact h

/-- A program that ends at once. -/
lemma Follows.normal {dtors : List (Option D)} {events : List (Event A D)}
    (h : step code s = some (.run ⟨todo, fs, dtors, trace ++ events⟩)) :
    Follows code n s todo fs trace ⟨events, dtors, .normal⟩ :=
  ⟨1, .single h⟩

end Follows

/-! ### Blocks -/

/-- The frame of a block. -/
def frameOf (b : Block (Stmt A F D)) (todo : List (Item A F D)) (bottom : Nat) (state : Estate) (caught : Bool)
    (cause : Option Cause) : Frame A F D :=
  ⟨b.site, state, caught, .loop b :: todo, bottom, cause⟩

/-- A cause is matched by its type or one that this descends from. -/
lemma matchType_eq (m type : ExceptionDef) : matchType m type = decide (m.name ∈ type.ancestors) := by
  induction type with
  | top name => simp only [matchType, ExceptionDef.ancestors, List.mem_singleton, eq_comm]
  | sub name parent ih =>
    simp only [matchType, ih, ExceptionDef.ancestors, List.mem_cons, eq_comm (a := m.name)]
    by_cases e : name = m.name
    · simp only [e, if_true, true_or, decide_true]
    · simp only [e, if_false, false_or]

section Block
variable (b : Block (Stmt A F D)) (todo : List (Item A F D)) (bottom : Nat) (fs : List (Frame A F D))

omit [DecidableEq D] in
/-- The catch clauses while an exception is being caught. -/
lemma catchChain_catching (cause : Cause) (catches : List (ExceptionDef × Stmt A F D)) (i : Nat) :
    catchChain (frameOf b todo bottom .catching false (some cause)) catches i =
      match handlerFor cause.type catches i with
      | some (j, p) => (frameOf b todo bottom .catching true (some cause), some (.handler j, p))
      | none => (frameOf b todo bottom .catching false (some cause), none) := by
  induction catches generalizing i with
  | nil => rfl
  | cons c rest ih =>
    by_cases h : c.1.name ∈ cause.type.ancestors
    · simp only [catchChain, exceptionMatch, frameOf, matchType_eq, h, decide_true, if_true, handlerFor]
    · simp only [catchChain, exceptionMatch, frameOf, matchType_eq, h, decide_false, if_true, handlerFor, if_false,
        Bool.false_eq_true]
      exact ih (i + 1)

omit [DecidableEq D] in
/-- The catch clauses otherwise. -/
lemma catchChain_other {f : Frame A F D} (h : f.state ≠ .catching) (catches : List (ExceptionDef × Stmt A F D))
    (i : Nat) : catchChain f catches i = (f, none) := by
  induction catches generalizing i with
  | nil => rfl
  | cons c rest ih =>
    simp only [catchChain, exceptionMatch, if_neg h, Bool.false_eq_true, if_false]
    exact ih (i + 1)

/-- The turn in which a block is left. -/
lemma leave_follows (n : Nat) (caught : Bool) (pending cause : Option Cause) (dtors : List (Option D))
    (trace : List (Event A D)) (same : pending = cause ∨ caught = true) :
    Follows code n (.run ⟨.loop b :: todo, frameOf b todo bottom .finishing caught cause :: fs, dtors, trace⟩) todo fs
      trace (leaveBlock true b bottom caught pending dtors) := by
  cases caught with
  | true =>
    refine .normal (congrArg some ?_)
    cases cause with
    | none => simp [blockLoop, exceptionFinished, frameOf, outOf]
    | some cause => simp [blockLoop, exceptionFinished, frameOf, outOf]
  | false =>
    obtain rfl : pending = cause := same.resolve_right (by decide)
    cases pending with
    | none =>
      refine .normal (congrArg some ?_)
      simp [blockLoop, exceptionFinished, frameOf, outOf]
    | some cause =>
      refine ⟨1, .single (congrArg some ?_)⟩
      simp [blockLoop, exceptionFinished, frameOf, leaveBlock, outOf]

variable {n : Nat} (ih : ∀ p todo fs dtors trace,
  Follows code n (.run ⟨.stmt p :: todo, fs, dtors, trace⟩) todo fs trace (eval true code n p dtors))
include ih

/-- From the turn that reaches the finally clause on. -/
lemma finish_follows {f : Frame A F D} (caught : Bool) (pending cause : Option Cause) (dtors : List (Option D))
    (trace : List (Event A D)) (same : pending = cause ∨ caught = true)
    (turn : exceptionFinished b.site (f :: fs) = .no (frameOf b todo bottom .finishing caught cause :: fs)) :
    Follows code n (.run ⟨.loop b :: todo, f :: fs, dtors, trace⟩) todo fs trace
      (finishBlock true (eval true code n) b bottom caught pending dtors) := by
  have other : catchChain (frameOf b todo bottom .finishing caught cause) b.catches 0 =
      (frameOf b todo bottom .finishing caught cause, none) := catchChain_other (by simp [frameOf]) _ _
  have notTry : exceptionTry (frameOf b todo bottom .finishing caught cause) = false := rfl
  have isFinally : exceptionFinally (frameOf b todo bottom .finishing caught cause) = true := rfl
  rw [finishBlock]
  split
  · rename_i none
    have hs : step code (.run ⟨.loop b :: todo, f :: fs, dtors, trace⟩) =
        some (.run ⟨.loop b :: todo, frameOf b todo bottom .finishing caught cause :: fs, dtors, trace⟩) := by
      simp only [step, blockLoop, turn, chain, notTry, other, none, Bool.false_eq_true, if_false]
    exact .cons (.single hs) (leave_follows code b todo bottom fs n caught pending cause dtors trace same)
  · rename_i p fin
    have hs : step code (.run ⟨.loop b :: todo, f :: fs, dtors, trace⟩) =
        some (.run ⟨.stmt p :: .loop b :: todo, frameOf b todo bottom .finishing caught cause :: fs, dtors,
          trace ++ [Event.enter b.site .finally]⟩) := by
      simp only [step, blockLoop, turn, chain, notTry, other, fin, isFinally, Bool.false_eq_true, if_false, if_true]
    refine .after (.cons (.single hs) (.andThen (ih p _ _ dtors _) ?_ ?_))
    · exact fun dtors trace => leave_follows code b todo bottom fs n caught pending cause dtors trace same
    · exact fun thrown dtors trace =>
        leave_follows code b todo bottom fs n caught (some thrown) (some thrown) dtors trace (.inl rfl)

/-- From an exception in the body on. -/
lemma handle_follows (cause : Cause) (dtors : List (Option D)) (trace : List (Event A D)) :
    Follows code n (.run ⟨.loop b :: todo, frameOf b todo bottom .trying false (some cause) :: fs, dtors, trace⟩)
      todo fs trace (handleBlock true (eval true code n) b bottom cause dtors) := by
  have turn : exceptionFinished b.site (frameOf b todo bottom .trying false (some cause) :: fs) =
      .no (frameOf b todo bottom .catching false (some cause) :: fs) := by
    simp [exceptionFinished, frameOf]
  have notTry : exceptionTry (frameOf b todo bottom .catching false (some cause)) = false := rfl
  have notFinally : exceptionFinally (frameOf b todo bottom .catching false (some cause)) = false := rfl
  have catches := catchChain_catching b todo bottom cause b.catches 0
  have finishing : ∀ caught cause, exceptionFinished b.site (frameOf b todo bottom .catching caught cause :: fs) =
      .no (frameOf b todo bottom .finishing caught cause :: fs) := by
    intro caught cause
    simp [exceptionFinished, frameOf]
  rw [handleBlock]
  cases found : handlerFor cause.type b.catches 0 with
  | none =>
    rw [found] at catches
    have hs : step code (.run ⟨.loop b :: todo, frameOf b todo bottom .trying false (some cause) :: fs, dtors, trace⟩) =
        some (.run ⟨.loop b :: todo, frameOf b todo bottom .catching false (some cause) :: fs, dtors, trace⟩) := by
      simp only [step, blockLoop, turn, chain, notTry, catches, notFinally, Bool.false_eq_true, if_false]
      split <;> rename_i h <;> cases h' : b.finally? <;> rw [h'] at h <;> cases h <;> rfl
    exact .cons (.single hs) (finish_follows code b todo bottom fs ih false (some cause) (some cause) dtors trace
      (.inl rfl) (finishing false (some cause)))
  | some handler =>
    obtain ⟨i, p⟩ := handler
    rw [found] at catches
    have hs : step code (.run ⟨.loop b :: todo, frameOf b todo bottom .trying false (some cause) :: fs, dtors, trace⟩) =
        some (.run ⟨.stmt p :: .loop b :: todo, frameOf b todo bottom .catching true (some cause) :: fs, dtors,
          trace ++ [Event.enter b.site (.handler i)]⟩) := by
      simp only [step, blockLoop, turn, chain, notTry, catches, Bool.false_eq_true, if_false]
    refine .after (.cons (.single hs) (.andThen (ih p _ _ dtors _) ?_ ?_))
    · exact fun dtors trace => finish_follows code b todo bottom fs ih true none (some cause) dtors trace (.inr rfl)
        (finishing true (some cause))
    · exact fun thrown dtors trace => finish_follows code b todo bottom fs ih true (some thrown) (some thrown) dtors
        trace (.inl rfl) (finishing true (some thrown))

/-- A whole block. -/
lemma block_follows (dtors : List (Option D)) (trace : List (Event A D)) :
    Follows code (n + 1) (.run ⟨.stmt (.ktry b) :: todo, fs, dtors, trace⟩) todo fs trace
      (evalBlock true (eval true code n) b dtors) := by
  have push : step code (.run ⟨.stmt (.ktry b) :: todo, fs, dtors, trace⟩) =
      some (.run ⟨.loop b :: todo, frameOf b todo dtors.length .new false none :: fs, dtors, trace⟩) := rfl
  have turn : exceptionFinished b.site (frameOf b todo dtors.length .new false none :: fs) =
      .no (frameOf b todo dtors.length .trying false none :: fs) := by
    simp [exceptionFinished, frameOf]
  have isTry : exceptionTry (frameOf b todo dtors.length .trying false none) = true := rfl
  have enter : step code (.run ⟨.loop b :: todo, frameOf b todo dtors.length .new false none :: fs, dtors, trace⟩) =
      some (.run ⟨.stmt b.body :: .loop b :: todo, frameOf b todo dtors.length .trying false none :: fs, dtors,
        trace ++ [Event.enter b.site .body]⟩) := by
    simp only [step, blockLoop, turn, chain, isTry, if_true]
  have finishing : exceptionFinished b.site (frameOf b todo dtors.length .trying false none :: fs) =
      .no (frameOf b todo dtors.length .finishing false none :: fs) := by
    simp [exceptionFinished, frameOf]
  refine .next push (.cons (.single enter) (.after (.andThen (ih b.body _ _ dtors _) ?_ ?_)))
  · exact fun dtors' trace => finish_follows code b todo dtors.length fs ih false none none dtors' trace (.inl rfl)
      finishing
  · exact fun cause dtors' trace => handle_follows code b todo dtors.length fs ih cause dtors' trace

end Block

/-- The machine does what the interpreter does in its second mode. -/
lemma follows_eval (n : Nat) (p : Stmt A F D) (todo : List (Item A F D)) (fs : List (Frame A F D))
    (dtors : List (Option D)) (trace : List (Event A D)) :
    Follows code n (.run ⟨.stmt p :: todo, fs, dtors, trace⟩) todo fs trace (eval true code n p dtors) := by
  induction n generalizing p todo fs dtors trace with
  | zero => exact ⟨0, _, Nat.le_refl 0, .refl _, (List.append_nil trace).symm⟩
  | succ n ih =>
    cases p with
    | skip => exact .normal (by rw [List.append_nil]; rfl)
    | act a => exact .normal rfl
    | seq p q =>
      have hs : step code (.run ⟨.stmt (.seq p q) :: todo, fs, dtors, trace⟩) =
          some (.run ⟨.stmt p :: .stmt q :: todo, fs, dtors, trace⟩) := rfl
      refine .next hs (.andThen (ih p _ fs dtors trace) (fun dtors trace => ih q todo fs dtors trace) ?_)
      exact fun cause dtors trace => ⟨0, by rw [List.append_nil]; exact .refl _⟩
    | call f =>
      have hs : step code (.run ⟨.stmt (.call f) :: todo, fs, dtors, trace⟩) =
          some (.run ⟨.stmt (code f) :: todo, fs, dtors, trace⟩) := rfl
      exact .next hs (ih (code f) todo fs dtors trace)
    | throw type site message =>
      refine ⟨1, .single ?_⟩
      simp only [eval, List.append_nil]
      rfl
    | dtorPush d => exact .normal (by rw [List.append_nil]; rfl)
    | dtorRemove d => exact .normal (by rw [List.append_nil]; rfl)
    | ktry b => exact block_follows code b todo fs ih dtors trace

/-! ### Agreement -/

/-- What has happened up to a state. -/
def State.trace : State A F D → List (Event A D)
  | .run t => t.trace
  | .unhandled _ _ trace => trace
  | .panic trace => trace

omit [DecidableEq D] in
/-- Throwing adds nothing to the trace. -/
lemma trace_throwCause (cause : Cause) (fs : List (Frame A F D)) (dtors : List (Option D)) (trace : List (Event A D)) :
    (exceptionThrowCause cause fs dtors trace).trace = trace := by
  cases fs with
  | nil => rfl
  | cons f fs => rfl

omit [DecidableEq D] in
/-- A turn of a block only adds to the trace. -/
lemma trace_blockLoop (b : Block (Stmt A F D)) (todo : List (Item A F D)) (t : Thread A F D) :
    t.trace <+: (blockLoop b todo t).trace := by
  unfold blockLoop
  split
  · exact List.prefix_refl _
  · exact List.prefix_refl _
  · split
    · exact List.prefix_append _ _
    · exact List.prefix_refl _
  · rw [List.append_assoc]
    exact List.prefix_append _ _
  · rw [trace_throwCause, List.append_assoc]
    exact List.prefix_append _ _

/-- What has happened stays. -/
lemma trace_step {s s' : State A F D} (h : step code s = some s') : s.trace <+: s'.trace := by
  cases s with
  | unhandled cause dtors trace => cases h
  | panic trace => cases h
  | run t =>
    obtain ⟨todo, fs, dtors, trace⟩ := t
    cases todo with
    | nil => cases h
    | cons item todo =>
      cases item with
      | loop b =>
        cases h
        exact trace_blockLoop b todo _
      | stmt p =>
        cases p with
        | act a =>
          cases h
          exact List.prefix_append _ _
        | throw type site message =>
          cases h
          rw [exceptionThrow, trace_throwCause]
          exact List.prefix_refl _
        | skip | seq | call | dtorPush | dtorRemove | ktry =>
          cases h
          exact List.prefix_refl _

/-- Any number of steps only add to the trace. -/
lemma trace_steps {n : Nat} {s s' : State A F D} (h : Steps (step code) n s s') : s.trace <+: s'.trace :=
  h.keep (R := fun s s' => s.trace <+: s'.trace) (fun _ => List.prefix_refl _) (fun _ _ _ => List.IsPrefix.trans)
    fun _ _ => trace_step code

/-- The machine gets to the trace of the result. -/
lemma Follows.reaches {n : Nat} {s : State A F D} {todo : List (Item A F D)} {fs : List (Frame A F D)}
    {trace : List (Event A D)} {r : Result A D} (h : Follows code n s todo fs trace r) :
    ∃ j s', Steps (step code) j s s' ∧ s'.trace = trace ++ r.trace := by
  unfold Follows at h
  split at h
  · obtain ⟨j, hs⟩ := h
    exact ⟨j, _, hs, rfl⟩
  · obtain ⟨j, hs⟩ := h
    exact ⟨j, _, hs, trace_throwCause _ _ _ _⟩
  · obtain ⟨j, t, -, hs, e⟩ := h
    exact ⟨j, _, hs, e⟩

omit [DecidableEq D] in
/-- Lists that differ at a place are not prefixes of each other. -/
lemma differs {good l l' : List (Event A D)} {e e' : Event A D} (ne : e ≠ e') :
    ¬good ++ e :: l <+: good ++ e' :: l' := by
  intro h
  rw [List.prefix_append_right_inj, List.cons_prefix_cons] at h
  exact ne h.1

/-- Where an exception gets lost, the run would have two traces that differ. -/
lemma Agrees.notLost {p : Stmt A F D} (agrees : Agrees code p) (n : Nat) :
    ∀ e ∈ (eval false code n p []).trace, ¬e.Lost := by
  rcases meet_eval code n p [] with ⟨-, clean⟩ | ⟨good, site, cause, rest, rest', e', e⟩
  · exact clean
  · obtain ⟨i, s, hs, ht⟩ := (agrees n).reaches
    obtain ⟨j, s', hs', ht'⟩ := (follows_eval code n p [] [] [] []).reaches
    rw [e', List.nil_append] at ht
    rw [e, List.nil_append] at ht'
    rcases hs.total hs' with ⟨k, h⟩ | ⟨k, h⟩
    · have pre := trace_steps code h
      rw [ht, ht'] at pre
      exact absurd pre (differs (by simp))
    · have pre := trace_steps code h
      rw [ht, ht'] at pre
      exact absurd pre (differs (by simp))

/-- The machine agrees with structured exceptions exactly on the programs in which no block that has caught an exception
    is left with another one. -/
theorem agrees_iff (p : Stmt A F D) :
    Agrees code p ↔ ∀ n, ∀ e ∈ (eval false code n p []).trace, ¬e.Lost := by
  constructor
  · exact fun agrees => agrees.notLost code
  · intro clean n
    have follows := follows_eval code n p [] [] [] []
    rcases meet_eval code n p [] with ⟨same, -⟩ | ⟨good, site, cause, rest, rest', e', -⟩
    · rw [same] at follows
      exact follows
    · exact absurd trivial (clean n (.leave site true (some cause)) (by rw [e']; simp))

/-- `Throwable` and `Exception`. -/
def throwable : ExceptionDef := .top "Throwable"

def exception : ExceptionDef := .sub "Exception" throwable

/-- A catch clause that throws another exception, inside of a block that would catch it. -/
def rethrowing : Stmt Nat Empty Empty :=
  .ktry ⟨⟨"file.c", 1⟩,
    .ktry ⟨⟨"file.c", 2⟩, .throw exception ⟨"file.c", 3⟩ "first",
      [(exception, .throw exception ⟨"file.c", 5⟩ "second")], none⟩,
    [(throwable, .act 1)], none⟩

/-- The second exception gets lost. -/
theorem rethrow_lost : ¬Agrees (nofun : Empty → Stmt Nat Empty Empty) rethrowing := by
  intro agrees
  exact agrees.notLost _ 5 (.leave ⟨"file.c", 2⟩ true (some ⟨exception, ⟨"file.c", 5⟩, "second"⟩)) (by decide) trivial

end Twcos.Exception
