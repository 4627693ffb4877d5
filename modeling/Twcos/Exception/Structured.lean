import Twcos.Exception.Basic

/-!
# Structured exceptions

What a `KTRY` block means, as a definitional interpreter: the body runs; an exception that it throws goes to the first
clause for an ancestor of its type; the finally clause runs in any case; destructors that were pushed in the block run
when it is left; and an exception that was not caught, or that a catch or finally clause has thrown, leaves the block.

The interpreter has a second mode, which tells what the code makes of that: a block that has caught an exception never
lets another one out. `meet_eval` compares the two.
-/

namespace Twcos.Exception

variable {A F D : Type} [DecidableEq D]

/-- How a program ends. `cut` is a program that is not at its end yet. -/
inductive Outcome where
  | normal
  | thrown (cause : Cause)
  | cut

/-- What has happened in a program, its destructors and how it ends. -/
structure Result (A D : Type) where
  trace : List (Event A D)
  dtors : List (Option D)
  out : Outcome

/-- The result, with something that happened before. -/
def Result.after (trace : List (Event A D)) (r : Result A D) : Result A D := { r with trace := trace ++ r.trace }

/-- Go on after a result: `f` if it is normal, `g` if an exception was thrown. -/
def Result.andThen (r : Result A D) (f : List (Option D) → Result A D)
    (g : Cause → List (Option D) → Result A D) : Result A D :=
  match r.out with
  | .normal => (f r.dtors).after r.trace
  | .thrown cause => (g cause r.dtors).after r.trace
  | .cut => r

section Block
variable (swallow : Bool) (run : Stmt A F D → List (Option D) → Result A D) (b : Block (Stmt A F D)) (bottom : Nat)

/-- The first clause for an ancestor of the type, counted from `i`. -/
def handlerFor (type : ExceptionDef) : List (ExceptionDef × Stmt A F D) → Nat → Option (Nat × Stmt A F D)
  | [], _ => none
  | (m, p) :: rest, i => if m.name ∈ type.ancestors then some (i, p) else handlerFor type rest (i + 1)

/-- What leaves the block, if it is to be left with `pending`. -/
def outOf (caught : Bool) (pending : Option Cause) : Option Cause :=
  if swallow = true ∧ caught = true then none else pending

/-- Leave a block. -/
def leaveBlock (caught : Bool) (pending : Option Cause) (dtors : List (Option D)) : Result A D :=
  ⟨(popped bottom dtors).map .dtor ++ [.leave b.site caught (outOf swallow caught pending)], kept bottom dtors,
    match outOf swallow caught pending with
    | none => .normal
    | some cause => .thrown cause⟩

/-- The finally clause, before the block is left. -/
def finishBlock (caught : Bool) (pending : Option Cause) (dtors : List (Option D)) : Result A D :=
  match b.finally? with
  | none => leaveBlock swallow b bottom caught pending dtors
  | some p => ((run p dtors).andThen (leaveBlock swallow b bottom caught pending)
      (fun cause => leaveBlock swallow b bottom caught (some cause))).after [.enter b.site .finally]

/-- An exception thrown by the body. -/
def handleBlock (cause : Cause) (dtors : List (Option D)) : Result A D :=
  match handlerFor cause.type b.catches 0 with
  | none => finishBlock swallow run b bottom false (some cause) dtors
  | some (i, p) => ((run p dtors).andThen (finishBlock swallow run b bottom true none)
      (fun cause => finishBlock swallow run b bottom true (some cause))).after [.enter b.site (.handler i)]

/-- A block. -/
def evalBlock (dtors : List (Option D)) : Result A D :=
  ((run b.body dtors).andThen (finishBlock swallow run b dtors.length false none)
    (handleBlock swallow run b dtors.length)).after [.enter b.site .body]

end Block

variable (swallow : Bool) (code : F → Stmt A F D)

/-- Run a program, to a depth of `n`. -/
def eval : Nat → Stmt A F D → List (Option D) → Result A D
  | 0, _, dtors => ⟨[], dtors, .cut⟩
  | _ + 1, .skip, dtors => ⟨[], dtors, .normal⟩
  | _ + 1, .act a, dtors => ⟨[.act a], dtors, .normal⟩
  | n + 1, .seq p q, dtors =>
    (eval n p dtors).andThen (eval n q) (fun cause dtors => ⟨[], dtors, .thrown cause⟩)
  | n + 1, .call f, dtors => eval n (code f) dtors
  | _ + 1, .throw type site message, dtors => ⟨[], dtors, .thrown (causeOf type site message)⟩
  | _ + 1, .dtorPush d, dtors => ⟨[], some d :: dtors, .normal⟩
  | _ + 1, .dtorRemove d, dtors => ⟨[], dtorRemove d dtors, .normal⟩
  | n + 1, .ktry b, dtors => evalBlock swallow (eval n) b dtors

/-! ### Exceptions that get lost -/

/-- A block that has caught an exception is left with another one. -/
def Event.Lost : Event A D → Prop
  | .leave _ true (some _) => True
  | _ => False

/-- The two results are the same, without an exception that gets lost, or they are the same up to the place where one
    gets lost. -/
def Meet (r r' : Result A D) : Prop :=
  (r = r' ∧ ∀ e ∈ r'.trace, ¬e.Lost) ∨
  ∃ good site cause rest rest', r'.trace = good ++ .leave site true (some cause) :: rest' ∧
    r.trace = good ++ .leave site true none :: rest

omit [DecidableEq D] in
/-- A result without a lost exception meets itself. -/
lemma Meet.same {r : Result A D} (h : ∀ e ∈ r.trace, ¬e.Lost) : Meet r r := .inl ⟨rfl, h⟩

omit [DecidableEq D] in
/-- What comes before two results does not matter if it loses nothing. -/
lemma Meet.after {r r' : Result A D} {trace : List (Event A D)} (h : Meet r r') (ht : ∀ e ∈ trace, ¬e.Lost) :
    Meet (r.after trace) (r'.after trace) := by
  rcases h with ⟨rfl, clean⟩ | ⟨good, site, cause, rest, rest', e', e⟩
  · refine .same fun e he => ?_
    rcases List.mem_append.mp he with he | he
    · exact ht e he
    · exact clean e he
  · refine .inr ⟨trace ++ good, site, cause, rest, rest', ?_, ?_⟩
    · rw [Result.after, e', List.append_assoc]
    · rw [Result.after, e, List.append_assoc]

omit [DecidableEq D] in
/-- Two results that meet, and what comes after them. -/
lemma Meet.andThen {r r' : Result A D} {f f' : List (Option D) → Result A D}
    {g g' : Cause → List (Option D) → Result A D} (h : Meet r r') (hf : ∀ dtors, Meet (f dtors) (f' dtors))
    (hg : ∀ cause dtors, Meet (g cause dtors) (g' cause dtors)) : Meet (r.andThen f g) (r'.andThen f' g') := by
  rcases h with ⟨rfl, clean⟩ | ⟨good, site, cause, rest, rest', e', e⟩
  · cases hout : r.out with
    | normal =>
      simp only [Result.andThen, hout]
      exact (hf _).after clean
    | thrown cause =>
      simp only [Result.andThen, hout]
      exact (hg _ _).after clean
    | cut =>
      simp only [Result.andThen, hout]
      exact .same clean
  · -- whatever comes after it, the difference stays
    have longer : ∀ (r : Result A D) f g, ∃ t, (r.andThen f g).trace = r.trace ++ t := by
      intro r f g
      cases hout : r.out with
      | normal =>
        simp only [Result.andThen, hout]
        exact ⟨_, rfl⟩
      | thrown cause =>
        simp only [Result.andThen, hout]
        exact ⟨_, rfl⟩
      | cut =>
        simp only [Result.andThen, hout]
        exact ⟨[], (List.append_nil _).symm⟩
    obtain ⟨t, ht⟩ := longer r f g
    obtain ⟨t', ht'⟩ := longer r' f' g'
    refine .inr ⟨good, site, cause, rest ++ t, rest' ++ t', ?_, ?_⟩
    · rw [ht', e', List.append_assoc, List.cons_append]
    · rw [ht, e, List.append_assoc, List.cons_append]

omit [DecidableEq D] in
/-- Entering a clause loses nothing. -/
lemma not_lost_enter {site : Site} {clause : Clause} : ∀ e ∈ [(.enter site clause : Event A D)], ¬e.Lost := by
  intro e he
  cases List.mem_singleton.mp he
  exact id

section Block
variable {run run' : Stmt A F D → List (Option D) → Result A D} (b : Block (Stmt A F D)) (bottom : Nat)

omit [DecidableEq D] in
/-- The ways to leave a block meet. -/
lemma meet_leaveBlock (caught : Bool) (pending : Option Cause) (dtors : List (Option D)) :
    Meet (leaveBlock true b bottom caught pending dtors : Result A D) (leaveBlock false b bottom caught pending dtors) := by
  -- leaving the block as it was found loses nothing
  have left : ∀ (caught : Bool) (out : Option Cause), ¬(Event.leave b.site caught out : Event A D).Lost →
      ∀ e ∈ (popped bottom dtors).map (Event.dtor : D → Event A D) ++ [Event.leave b.site caught out], ¬e.Lost := by
    intro caught out kept e he
    rcases List.mem_append.mp he with he | he
    · obtain ⟨d, -, rfl⟩ := List.mem_map.mp he
      exact id
    · cases List.mem_singleton.mp he
      exact kept
  cases caught with
  | false => exact .same (left false _ id)
  | true =>
    cases pending with
    | none => exact .same (left true none id)
    | some cause => exact .inr ⟨_, b.site, cause, [], [], rfl, rfl⟩

variable (hrun : ∀ p dtors, Meet (run p dtors) (run' p dtors))
include hrun

omit [DecidableEq D] in
/-- The ends of two blocks meet, with their `finally`. -/
lemma meet_finishBlock (caught : Bool) (pending : Option Cause) (dtors : List (Option D)) :
    Meet (finishBlock true run b bottom caught pending dtors)
      (finishBlock false run' b bottom caught pending dtors) := by
  rw [finishBlock, finishBlock]
  split
  · exact meet_leaveBlock b bottom caught pending dtors
  · exact ((hrun _ dtors).andThen (meet_leaveBlock b bottom caught pending)
      fun cause => meet_leaveBlock b bottom caught (some cause)).after not_lost_enter

omit [DecidableEq D] in
/-- Two blocks with an exception on the way meet. -/
lemma meet_handleBlock (cause : Cause) (dtors : List (Option D)) :
    Meet (handleBlock true run b bottom cause dtors) (handleBlock false run' b bottom cause dtors) := by
  rw [handleBlock, handleBlock]
  split
  · exact meet_finishBlock b bottom hrun false (some cause) dtors
  · exact ((hrun _ dtors).andThen (meet_finishBlock b bottom hrun true none)
      fun cause => meet_finishBlock b bottom hrun true (some cause)).after not_lost_enter

omit [DecidableEq D] in
/-- Two blocks meet. -/
lemma meet_evalBlock (dtors : List (Option D)) :
    Meet (evalBlock true run b dtors) (evalBlock false run' b dtors) :=
  ((hrun _ dtors).andThen (meet_finishBlock b dtors.length hrun false none)
    (meet_handleBlock b dtors.length hrun)).after not_lost_enter

end Block

/-- The two modes of the interpreter. -/
lemma meet_eval (n : Nat) (p : Stmt A F D) (dtors : List (Option D)) :
    Meet (eval true code n p dtors) (eval false code n p dtors) := by
  induction n generalizing p dtors with
  | zero => exact .same nofun
  | succ n ih =>
    cases p with
    | skip => exact .same nofun
    | act a =>
      refine .same fun e he => ?_
      cases List.mem_singleton.mp he
      exact id
    | seq p q => exact (ih p dtors).andThen (ih q) fun cause dtors => .same nofun
    | call f => exact ih (code f) dtors
    | throw type site message => exact .same nofun
    | dtorPush d => exact .same nofun
    | dtorRemove d => exact .same nofun
    | ktry b => exact meet_evalBlock b ih dtors

end Twcos.Exception
