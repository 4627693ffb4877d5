import Twcos.Exception.Basic
import Mathlib.Data.List.Nodup

/-!
# A ledger of destructors

A thread tells its destructors apart only by what they are. Here each one is known by the number of its push, and the
ledger of a thread says which are on the stack, which were removed, and which were run, in which order. The ledger is
kept beside the machine (`joint`) and does not change what it does.

`Ledger.Inv` says that every destructor that was pushed is on the stack, or was removed, or was run, and none is run
twice. When one is run, all those pushed after it were run or removed before.
-/

namespace Twcos.Exception

/-- A destructor on the stack, with the number of its push. -/
structure Pushed (D : Type) where
  id : Nat
  dtor : Option D

/-- A destructor that was run, with the number of pushes up to then. -/
structure Ran (D : Type) where
  id : Nat
  dtor : D
  pushes : Nat
deriving DecidableEq

structure Ledger (D : Type) where
  pushes : Nat
  stack : List (Pushed D)
  removed : List Nat
  ran : List (Ran D)

section Ledger
variable {A F D : Type} [DecidableEq D]

/-- The newest entry of a destructor loses it: what is left, and which one it was. -/
def removeFrom (d : D) : List (Pushed D) → List (Pushed D) × List Nat
  | [] => ([], [])
  | e :: es =>
    if e.dtor = some d then (⟨e.id, none⟩ :: es, [e.id])
    else (e :: (removeFrom d es).1, (removeFrom d es).2)

namespace Ledger

def push (d : D) (g : Ledger D) : Ledger D :=
  { g with pushes := g.pushes + 1, stack := ⟨g.pushes, some d⟩ :: g.stack }

def remove (d : D) (g : Ledger D) : Ledger D :=
  { g with stack := (removeFrom d g.stack).1, removed := g.removed ++ (removeFrom d g.stack).2 }

/-- The newest entry goes, and is run unless it was removed. -/
def popOne (g : Ledger D) : Ledger D :=
  match g.stack with
  | [] => g
  | e :: es => { g with stack := es, ran := g.ran ++ (e.dtor.map fun d => ⟨e.id, d, g.pushes⟩).toList }

def pop : Nat → Ledger D → Ledger D
  | 0, g => g
  | k + 1, g => pop k g.popOne

/-- The ledger of a thread after its next step. -/
def next (t : Thread A F D) (g : Ledger D) : Ledger D :=
  match t.todo with
  | .stmt (.dtorPush d) :: _ => g.push d
  | .stmt (.dtorRemove d) :: _ => g.remove d
  | .loop b :: _ =>
    match exceptionFinished b.site t.frames with
    | .yes f _ => g.pop (popCount f.dtorFrame t.dtors)
    | .rethrow _ f _ => g.pop (popCount f.dtorFrame t.dtors)
    | _ => g
  | _ => g

/-- The ledger of a thread that has not started its program. -/
def empty : Ledger D := ⟨0, [], [], []⟩

end Ledger

/-- A step of the machine, with the ledger beside it. -/
def joint (code : F → Stmt A F D) (s : State A F D × Ledger D) : Option (State A F D × Ledger D) :=
  (step code s.1).map fun s' =>
    (s', match s.1 with
      | .run t => Ledger.next t s.2
      | _ => s.2)

/-! ### What the ledger says -/

/-- The numbers of the destructors that were run. -/
def ranIds (ran : List (Ran D)) : List Nat := ran.map Ran.id

namespace Ledger

/-- When a destructor is run, those pushed after it were removed or run before. -/
def Lifo (removed : List Nat) (ran : List (Ran D)) : Prop :=
  ∀ before r after, ran = before ++ r :: after → ∀ j, r.id < j → j < r.pushes → j ∈ removed ∨ j ∈ ranIds before

/-- The numbers of the destructors on the stack. -/
def ids (g : Ledger D) : List Nat := g.stack.map Pushed.id

structure Inv (g : Ledger D) : Prop where
  ordered : g.ids.Pairwise (· > ·)
  bound : ∀ i ∈ g.ids, i < g.pushes
  account : ∀ i, i < g.pushes → i ∈ g.ids ∨ i ∈ g.removed ∨ i ∈ ranIds g.ran
  dead : ∀ e ∈ g.stack, e.dtor = none → e.id ∈ g.removed
  waiting : ∀ i ∈ g.ids, i ∉ ranIds g.ran
  past : ∀ i ∈ ranIds g.ran, i < g.pushes
  once : (ranIds g.ran).Nodup
  lifo : Lifo g.removed g.ran

variable {g : Ledger D}

omit [DecidableEq D]

/-- The empty ledger is in order. -/
lemma Inv.empty : (empty : Ledger D).Inv := by
  refine ⟨.nil, nofun, nofun, nofun, nofun, nofun, .nil, ?_⟩
  intro before r after h
  cases before <;> cases h

/-- The ledger is in order after a push. -/
lemma Inv.push (inv : g.Inv) (d : D) : (g.push d).Inv := by
  refine ⟨.cons inv.bound inv.ordered, fun i hi => ?_, fun i lt => ?_, fun e he none => ?_, fun i hi => ?_,
    fun i hi => Nat.lt_succ_of_lt (inv.past i hi), inv.once, inv.lifo⟩
  · rcases List.mem_cons.mp hi with rfl | hi
    · exact Nat.lt_succ_self _
    · exact Nat.lt_succ_of_lt (inv.bound i hi)
  · rcases Nat.lt_succ_iff_lt_or_eq.mp lt with lt | rfl
    · exact (inv.account i lt).imp_left (List.mem_cons_of_mem _)
    · exact .inl List.mem_cons_self
  · rcases List.mem_cons.mp he with rfl | he
    · cases none
    · exact inv.dead e he none
  · rcases List.mem_cons.mp hi with rfl | hi
    · exact fun old => Nat.lt_irrefl _ (inv.past _ old)
    · exact inv.waiting i hi

/-- One more destructor is run, and all that were pushed after it have been run or removed. -/
lemma Lifo.concat {removed : List Nat} {ran : List (Ran D)} (lifo : Lifo removed ran) {r : Ran D}
    (later : ∀ i, r.id < i → i < r.pushes → i ∈ removed ∨ i ∈ ranIds ran) : Lifo removed (ran ++ [r]) := by
  intro before r' after h
  rcases List.eq_nil_or_concat after with rfl | ⟨after, last, rfl⟩
  · obtain ⟨rfl, last⟩ := List.append_inj' h rfl
    cases last
    exact later
  · rw [List.concat_eq_append, ← List.cons_append, ← List.append_assoc] at h
    obtain ⟨old, -⟩ := List.append_inj' h rfl
    exact lifo before r' after old

/-- The newest entry goes: it was removed, or it is run now. -/
lemma Inv.popOne (inv : g.Inv) : g.popOne.Inv := by
  obtain ⟨pushes, stack, removed, ran⟩ := g
  cases stack with
  | nil => exact inv
  | cons e es =>
    obtain ⟨below, ordered⟩ := List.pairwise_cons.mp inv.ordered
    -- what is known of all others
    have others : ∀ i, i < pushes → i ≠ e.id → i ∈ es.map Pushed.id ∨ i ∈ removed ∨ i ∈ ranIds ran := by
      intro i lt ne
      exact (inv.account i lt).imp_left fun hi => (List.mem_cons.mp hi).resolve_left ne
    cases hd : e.dtor with
    | none =>
      have gone : Ledger.popOne ⟨pushes, e :: es, removed, ran⟩ = ⟨pushes, es, removed, ran⟩ := by
        simp only [Ledger.popOne, hd, Option.map_none, Option.toList_none, List.append_nil]
      rw [gone]
      refine ⟨ordered, fun i hi => inv.bound i (List.mem_cons_of_mem _ hi), fun i lt => ?_,
        fun e' he => inv.dead e' (List.mem_cons_of_mem _ he), fun i hi => inv.waiting i (List.mem_cons_of_mem _ hi),
        inv.past, inv.once, inv.lifo⟩
      by_cases eq : i = e.id
      · rw [eq]
        exact .inr (.inl (inv.dead e List.mem_cons_self hd))
      · exact others i lt eq
    | some d =>
      have run : Ledger.popOne ⟨pushes, e :: es, removed, ran⟩ =
          ⟨pushes, es, removed, ran ++ [⟨e.id, d, pushes⟩]⟩ := by
        simp only [Ledger.popOne, hd, Option.map_some, Option.toList_some]
      have ids : ranIds (ran ++ [⟨e.id, d, pushes⟩]) = ranIds ran ++ [e.id] := List.map_append
      rw [run]
      refine ⟨ordered, fun i hi => inv.bound i (List.mem_cons_of_mem _ hi), fun i lt => ?_,
        fun e' he => inv.dead e' (List.mem_cons_of_mem _ he), fun i hi => ?_, fun i hi => ?_, ?_, ?_⟩
      · dsimp only
        rw [ids, List.mem_append, List.mem_singleton]
        by_cases eq : i = e.id
        · exact .inr (.inr (.inr eq))
        · exact (others i lt eq).imp_right fun h => h.imp_right .inl
      · dsimp only
        rw [ids, List.mem_append, List.mem_singleton, not_or]
        exact ⟨inv.waiting i (List.mem_cons_of_mem _ hi), Nat.ne_of_lt (below i hi)⟩
      · dsimp only at hi
        rw [ids, List.mem_append, List.mem_singleton] at hi
        rcases hi with hi | rfl
        · exact inv.past i hi
        · exact inv.bound _ List.mem_cons_self
      · dsimp only
        rw [ids, ← List.concat_eq_append]
        exact .concat (inv.waiting _ List.mem_cons_self) inv.once
      · -- those pushed later are not on the stack any more
        refine inv.lifo.concat fun i gt lt => (inv.account i lt).resolve_left fun hi => ?_
        rcases List.mem_cons.mp hi with rfl | hi
        · exact Nat.lt_irrefl _ gt
        · exact Nat.lt_asymm gt (below i hi)

/-- The ledger is in order after any number of pops. -/
lemma Inv.pop (inv : g.Inv) (k : Nat) : (g.pop k).Inv := by
  induction k generalizing g with
  | zero => exact inv
  | succ k ih => exact ih inv.popOne

section Remove
variable [DecidableEq D] (d : D)

/-- Removing keeps the numbers of the entries. -/
lemma removeFrom_ids (es : List (Pushed D)) : (removeFrom d es).1.map Pushed.id = es.map Pushed.id := by
  induction es with
  | nil => rfl
  | cons x es ih =>
    rw [removeFrom]
    split_ifs
    · rfl
    · rw [List.map_cons, List.map_cons, ih]

/-- Removing a destructor, as the machine does it. -/
lemma removeFrom_dtors (es : List (Pushed D)) :
    (removeFrom d es).1.map Pushed.dtor = dtorRemove d (es.map Pushed.dtor) := by
  induction es with
  | nil => rfl
  | cons x es ih =>
    rw [removeFrom, List.map_cons, dtorRemove]
    split_ifs
    · rfl
    · rw [List.map_cons, ih]

/-- An entry without a destructor had none before, or lost it now. -/
lemma dead_removeFrom {es : List (Pushed D)} {e : Pushed D} (h : e ∈ (removeFrom d es).1) :
    e ∈ es ∨ e.id ∈ (removeFrom d es).2 := by
  induction es with
  | nil => cases h
  | cons x es ih =>
    rw [removeFrom] at h ⊢
    by_cases eq : x.dtor = some d
    · rw [if_pos eq] at h ⊢
      rcases List.mem_cons.mp h with rfl | h
      · exact .inr List.mem_cons_self
      · exact .inl (List.mem_cons_of_mem x h)
    · rw [if_neg eq] at h ⊢
      rcases List.mem_cons.mp h with rfl | h
      · exact .inl List.mem_cons_self
      · exact (ih h).imp_left (List.mem_cons_of_mem x)

/-- The ledger is in order after a removal. -/
lemma Inv.remove (inv : g.Inv) : (g.remove d).Inv := by
  have ids : (g.remove d).ids = g.ids := removeFrom_ids d g.stack
  refine ⟨?_, ?_, fun i lt => ?_, fun e he none => ?_, ?_, inv.past, inv.once, fun before r after h j gt lt => ?_⟩
  · rw [ids]
    exact inv.ordered
  · rw [ids]
    exact inv.bound
  · rw [ids]
    exact (inv.account i lt).imp_right fun h => h.imp_left (List.mem_append_left _)
  · rcases dead_removeFrom d he with he | he
    · exact List.mem_append_left _ (inv.dead e he none)
    · exact List.mem_append_right _ he
  · rw [ids]
    exact inv.waiting
  · exact (inv.lifo before r after h j gt lt).imp_left (List.mem_append_left _)

end Remove

/-! ### What a pop leaves -/

/-- What a pop leaves of the stack. -/
lemma popOne_stack (g : Ledger D) : g.popOne.stack = g.stack.drop 1 := by
  rw [Ledger.popOne]
  cases h : g.stack with
  | nil => rw [h]; rfl
  | cons e es => rfl

/-- What many pops leave of the stack. -/
lemma pop_stack (g : Ledger D) (k : Nat) : (g.pop k).stack = g.stack.drop k := by
  induction k generalizing g with
  | zero => rfl
  | succ k ih => rw [Ledger.pop, ih, popOne_stack, List.drop_drop, Nat.add_comm]

/-- The destructors that a pop runs. -/
lemma pop_ran (g : Ledger D) (k : Nat) :
    (g.pop k).ran.map Ran.dtor = g.ran.map Ran.dtor ++ ((g.stack.map Pushed.dtor).take k).filterMap id := by
  induction k generalizing g with
  | zero => rw [List.take_zero, List.filterMap_nil, List.append_nil]; rfl
  | succ k ih =>
    obtain ⟨pushes, stack, removed, ran⟩ := g
    rw [Ledger.pop, ih]
    cases stack with
    | nil => simp only [Ledger.popOne, List.map_nil, List.take_nil]
    | cons e es =>
      rw [List.map_cons, List.take_succ_cons, List.filterMap_cons]
      cases hd : e.dtor with
      | none => simp only [Ledger.popOne, hd, Option.map_none, Option.toList_none, List.append_nil, id]
      | some d => simp [Ledger.popOne, hd]

end Ledger

end Ledger

end Twcos.Exception
