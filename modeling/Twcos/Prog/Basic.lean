import Mathlib.Algebra.Ring.Nat
import Mathlib.Algebra.Ring.Int.Defs
import Mathlib.Tactic.Common
import Mathlib.Order.Lattice

/-!
# Programs with loops

A shallow embedding of imperative code: `Prog ε σ α` is code that works on a state `σ`, may stop with
a fault of type `ε` and returns an `α`. Loops and recursive calls take their steps from a budget, so
every program is an executable function; the budget is handed down unchanged by sequencing and
decreases by one at each turn of a loop.

A statement about a program never mentions the budget. `Returns p s a s'` says that `p` started in
`s` *terminates* and returns `a` in state `s'`: every large enough budget gives that result.
`Raises p s e` is the same for a fault. The rules below (`Returns.bind`, `Returns.turn`,
`Returns.exit`, …) follow the control flow of a program one statement at a time.
-/

namespace Twcos

/-- Why a run ends without a result: the budget is used up, or the code faults. -/
inductive Stop (ε : Type) where
  | budget
  | fault (e : ε)
deriving DecidableEq, Repr

/-- Code over a state `σ` with faults `ε`, given a budget of loop turns. -/
def Prog (ε σ α : Type) : Type := Nat → σ → Except (Stop ε) (α × σ)

namespace Prog

variable {ε σ α β γ : Type}

/-- Return a value, leaving the state alone. -/
protected def pure (a : α) : Prog ε σ α := fun _ s => .ok (a, s)

/-- Sequencing: both parts get the whole budget. -/
protected def bind (p : Prog ε σ α) (f : α → Prog ε σ β) : Prog ε σ β := fun n s =>
  match p n s with
  | .ok (a, s') => f a n s'
  | .error e => .error e

instance : Monad (Prog ε σ) where
  pure := Prog.pure
  bind := Prog.bind

/-- Read a component of the state. -/
def asks (f : σ → α) : Prog ε σ α := fun _ s => .ok (f s, s)

/-- Update the state. -/
def update (f : σ → σ) : Prog ε σ Unit := fun _ s => .ok ((), f s)

/-- Stop with a fault. -/
def raise (e : ε) : Prog ε σ α := fun _ _ => .error (.fault e)

/-- Read a component of the state that may be missing. -/
def demand (f : σ → Option α) (e : ε) : Prog ε σ α := fun _ s =>
  match f s with
  | some a => .ok (a, s)
  | none => .error (.fault e)

/-- Stop with a fault unless the condition holds. -/
def check (c : Bool) (e : ε) : Prog ε σ Unit :=
  if c then Prog.pure () else raise e

/-- A statement guarded by a condition, with no `else`. -/
def when (c : Bool) (p : Prog ε σ Unit) : Prog ε σ Unit :=
  if c then p else Prog.pure ()

/-- A loop whose body either goes round again with new locals or leaves with a result. -/
def loop (body : α → Prog ε σ (α ⊕ β)) : α → Prog ε σ β
  | _, 0, _ => .error .budget
  | a, n + 1, s =>
    match body a n s with
    | .ok (.inl a', s') => loop body a' n s'
    | .ok (.inr b, s') => .ok (b, s')
    | .error e => .error e

/-- `while (c) b`. -/
def whileDo (c : Prog ε σ Bool) (b : Prog ε σ Unit) : Prog ε σ Unit :=
  loop (fun _ => c >>= fun t => if t then b >>= fun _ => pure (.inl ()) else pure (.inr ())) ()

/-- `p && q`: the second operand runs only if the first one is true. -/
def both (p q : Prog ε σ Bool) : Prog ε σ Bool :=
  p >>= fun t => if t then q else pure false

/-- A recursive function: a call made by the body has one step less of the budget. -/
def recur (body : (α → Prog ε σ β) → α → Prog ε σ β) : α → Prog ε σ β
  | _, 0, _ => .error .budget
  | a, n + 1, s => body (fun a' _ s' => recur body a' n s') a n s

/-- A statement for each element of a list, in order. -/
def each (p : α → Prog ε σ Unit) : List α → Prog ε σ Unit
  | [] => Prog.pure ()
  | a :: as => p a >>= fun _ => each p as

/-- `p` started in `s` terminates and returns `a` in state `s'`. -/
def Returns (p : Prog ε σ α) (s : σ) (a : α) (s' : σ) : Prop :=
  ∃ N, ∀ n, N ≤ n → p n s = .ok (a, s')

/-- `p` started in `s` terminates by raising the fault `e`. -/
def Raises (p : Prog ε σ α) (s : σ) (e : ε) : Prop :=
  ∃ N, ∀ n, N ≤ n → p n s = .error (.fault e)

/-! ### Outcomes

The budget is only dealt with here. Results and faults are cases of `Finally`. -/

/-- What the code comes to with every large enough budget. -/
def Finally (p : Prog ε σ α) (s : σ) (o : Except (Stop ε) (α × σ)) : Prop := ∃ N, ∀ n, N ≤ n → p n s = o

section Finally
variable {body : α → Prog ε σ (α ⊕ β)} {p : Prog ε σ α} {f : α → Prog ε σ β} {s s1 : σ} {a a' : α}
  {o : Except (Stop ε) (β × σ)} {e : Stop ε}

/-- A program ends in one way only. -/
lemma Finally.unique {o o' : Except (Stop ε) (α × σ)} (h : Finally p s o) (h' : Finally p s o') : o = o' := by
  obtain ⟨N, h⟩ := h
  obtain ⟨N', h'⟩ := h'
  exact (h (max N N') (le_max_left _ _)).symm.trans (h' (max N N') (le_max_right _ _))

/-- The outcome of a sequence is that of its second part, if the first one returns. -/
lemma Finally.rest (hp : Finally p s (.ok (a, s1))) (hf : Finally (f a) s1 o) : Finally (p >>= f) s o := by
  obtain ⟨N1, hp⟩ := hp
  obtain ⟨N2, hf⟩ := hf
  refine ⟨max N1 N2, fun n hn => ?_⟩
  show Prog.bind p f n s = _
  simp only [Prog.bind, hp n (le_trans (le_max_left _ _) hn)]
  exact hf n (le_trans (le_max_right _ _) hn)

/-- An error at first is the end. -/
lemma Finally.first (hp : Finally p s (.error e)) : Finally (p >>= f) s (.error e) := by
  obtain ⟨N, hp⟩ := hp
  refine ⟨N, fun n hn => ?_⟩
  show Prog.bind p f n s = _
  rw [Prog.bind, hp n hn]

/-- Code that takes one step of the budget. -/
lemma Finally.step {p q : Prog ε σ β} (next : ∀ n, p (n + 1) s = q n s) (hq : Finally q s o) : Finally p s o := by
  obtain ⟨N, hq⟩ := hq
  refine ⟨N + 1, fun n hn => ?_⟩
  obtain ⟨k, rfl⟩ := Nat.exists_eq_succ_of_ne_zero (Nat.ne_of_gt (Nat.lt_of_lt_of_le (Nat.succ_pos _) hn))
  exact (next k).trans (hq k (Nat.le_of_succ_le_succ hn))

/-- What follows a turn of a loop. -/
def again (body : α → Prog ε σ (α ⊕ β)) : α ⊕ β → Prog ε σ β
  | .inl a => loop body a
  | .inr b => Prog.pure b

/-- A loop is a turn and what follows it. -/
lemma Finally.loop (h : Finally (body a >>= again body) s o) : Finally (loop body a) s o := by
  refine h.step fun n => ?_
  show Prog.loop body a (n + 1) s = Prog.bind (body a) (again body) n s
  rw [Prog.loop, Prog.bind]
  cases body a n s with
  | error e => rfl
  | ok r =>
    obtain ⟨a' | b, s'⟩ := r
    · rfl
    · rfl

end Finally

/-- A program has at most one result. -/
lemma Returns.unique {p : Prog ε σ α} {s s1 s2 : σ} {a1 a2 : α}
    (h1 : Returns p s a1 s1) (h2 : Returns p s a2 s2) : a1 = a2 ∧ s1 = s2 := by
  cases Finally.unique h1 h2
  exact ⟨rfl, rfl⟩

/-- A program whose result does not depend on the budget. -/
lemma Returns.of_eq {p : Prog ε σ α} {s s' : σ} {a : α}
    (h : ∀ n, p n s = .ok (a, s')) : Returns p s a s' :=
  ⟨0, fun n _ => h n⟩

/-- A program whose result is the same with `N` steps and any number more. -/
lemma Returns.of_add {p : Prog ε σ α} {s s' : σ} {a : α} (N : Nat) (h : ∀ n, p (n + N) s = .ok (a, s')) :
    Returns p s a s' := by
  refine ⟨N, fun n le => ?_⟩
  obtain ⟨k, rfl⟩ := Nat.exists_eq_add_of_le' le
  exact h k

/-- Returning a value. -/
lemma Returns.pure (a : α) (s : σ) : Returns (Pure.pure a : Prog ε σ α) s a s :=
  .of_eq fun _ => rfl

/-- Sequencing. -/
lemma Returns.bind {p : Prog ε σ α} {f : α → Prog ε σ β} {s s1 s2 : σ} {a : α} {b : β}
    (hp : Returns p s a s1) (hf : Returns (f a) s1 b s2) : Returns (p >>= f) s b s2 :=
  Finally.rest hp hf

/-- Reading a component. -/
lemma Returns.asks (f : σ → α) (s : σ) : Returns (asks f : Prog ε σ α) s (f s) s :=
  .of_eq fun _ => rfl

/-- Updating the state. -/
lemma Returns.update (f : σ → σ) (s : σ) : Returns (update f : Prog ε σ Unit) s () (f s) :=
  .of_eq fun _ => rfl

/-- Reading a component that is there. -/
lemma Returns.demand {f : σ → Option α} {e : ε} {s : σ} {a : α} (h : f s = some a) :
    Returns (demand f e) s a s :=
  .of_eq fun _ => by simp only [Prog.demand, h]

/-- A check that succeeds. -/
lemma Returns.check {c : Prop} [Decidable c] {e : ε} {s : σ} (h : c) :
    Returns (check (decide c) e : Prog ε σ Unit) s () s := by
  rw [Prog.check, if_pos (decide_eq_true h)]
  exact .pure () s

/-- A guarded statement whose condition holds. -/
lemma Returns.when_pos {c : Prop} [Decidable c] {p : Prog ε σ Unit} {s s' : σ} (h : c)
    (hp : Returns p s () s') : Returns (when (decide c) p) s () s' := by
  rwa [Prog.when, if_pos (decide_eq_true h)]

/-- A guarded statement whose condition fails. -/
lemma Returns.when_neg {c : Prop} [Decidable c] {p : Prog ε σ Unit} {s : σ} (h : ¬c) :
    Returns (when (decide c) p) s () s := by
  rw [Prog.when, if_neg fun e => h (of_decide_eq_true e)]
  exact .pure () s

/-- A conditional whose condition holds. -/
lemma Returns.ite_pos {c : Prop} [Decidable c] {p q : Prog ε σ α} {s s' : σ} {a : α} (h : c)
    (hp : Returns p s a s') : Returns (if c then p else q) s a s' := by
  rwa [if_pos h]

/-- A conditional whose condition fails. -/
lemma Returns.ite_neg {c : Prop} [Decidable c] {p q : Prog ε σ α} {s s' : σ} {a : α} (h : ¬c)
    (hq : Returns q s a s') : Returns (if c then p else q) s a s' := by
  rwa [if_neg h]

/-- Reading a value that does not depend on the state is not needed. -/
lemma each_asks (p : α → Prog ε σ Unit) (as : List α) :
    each (fun f => asks f >>= p) (as.map fun a _ => a) = each p as := by
  induction as with
  | nil => rfl
  | cons a as ih =>
    rw [List.map_cons, each, each, ih]
    rfl

/-- One more turn of a loop. -/
lemma Returns.turn {body : α → Prog ε σ (α ⊕ β)} {s s1 s2 : σ} {a a' : α} {b : β}
    (hb : Returns (body a) s (.inl a') s1) (hl : Returns (loop body a') s1 b s2) :
    Returns (loop body a) s b s2 :=
  Finally.loop (.rest hb hl)

/-- Leaving a loop. -/
lemma Returns.exit {body : α → Prog ε σ (α ⊕ β)} {s s1 : σ} {a : α} {b : β}
    (hb : Returns (body a) s (.inr b) s1) : Returns (loop body a) s b s1 :=
  Finally.loop (.rest hb (Returns.pure b s1))

/-- One more turn of `while`. -/
lemma Returns.whileTurn {c : Prog ε σ Bool} {b : Prog ε σ Unit} {s s1 s2 s3 : σ}
    (hc : Returns c s true s1) (hb : Returns b s1 () s2) (hl : Returns (whileDo c b) s2 () s3) :
    Returns (whileDo c b) s () s3 := by
  refine @Returns.turn _ _ _ _ _ s s2 s3 () () () ?_ hl
  exact .bind hc (.bind hb (.pure _ _))

/-- Leaving `while`. -/
lemma Returns.whileExit {c : Prog ε σ Bool} {b : Prog ε σ Unit} {s s1 : σ}
    (hc : Returns c s false s1) : Returns (whileDo c b) s () s1 :=
  .exit (.bind hc (.pure _ _))

/-- A conjunction whose first operand is true. -/
lemma Returns.both_true {p q : Prog ε σ Bool} {s s1 s2 : σ} {t : Bool}
    (hp : Returns p s true s1) (hq : Returns q s1 t s2) : Returns (both p q) s t s2 :=
  .bind hp hq

/-- A conjunction whose first operand is false. -/
lemma Returns.both_false {p q : Prog ε σ Bool} {s s1 : σ}
    (hp : Returns p s false s1) : Returns (both p q) s false s1 :=
  .bind hp (.pure _ _)

/-- Code that makes the calls of `f` at the budget it was given. -/
def Local (F : (α → Prog ε σ β) → Prog ε σ γ) : Prop :=
  ∀ f n s, F (fun a _ => f a n) n s = F f n s

/-- Code without calls. -/
lemma Local.const (p : Prog ε σ γ) : Local (fun _ : α → Prog ε σ β => p) := fun _ _ _ => rfl

/-- The call itself. -/
lemma Local.self (a : α) : Local (fun f : α → Prog ε σ β => f a) := fun _ _ _ => rfl

/-- Sequences depend on a function at the calls only if their parts do. -/
lemma Local.bind {δ : Type} {F : (α → Prog ε σ β) → Prog ε σ γ}
    {G : γ → (α → Prog ε σ β) → Prog ε σ δ} (hF : Local F) (hG : ∀ c, Local (G c)) :
    Local (fun f => F f >>= fun c => G c f) := by
  intro f n s
  show Prog.bind _ _ n s = Prog.bind _ _ n s
  simp only [Prog.bind, hF f n s]
  cases F f n s with
  | error e => rfl
  | ok r => exact hG r.1 f n r.2

/-- Branches depend on a function at the calls only if both sides do. -/
lemma Local.ite {c : Prop} [Decidable c] {F G : (α → Prog ε σ β) → Prog ε σ γ} (hF : Local F)
    (hG : Local G) : Local (fun f => if c then F f else G f) := by
  intro f n s
  by_cases h : c
  · simpa only [if_pos h] using hF f n s
  · simpa only [if_neg h] using hG f n s

/-- Conditions depend on a function at the calls only if the code under them does. -/
lemma Local.when {c : Bool} {F : (α → Prog ε σ β) → Prog ε σ Unit} (hF : Local F) :
    Local (fun f => when c (F f)) :=
  .ite hF (.const _)

/-- Loops over lists depend on a function at the calls only if their turns do. -/
lemma Local.each {δ : Type} {F : δ → (α → Prog ε σ β) → Prog ε σ Unit} (hF : ∀ d, Local (F d))
    (ds : List δ) : Local (fun f => each (fun d => F d f) ds) := by
  induction ds with
  | nil => exact .const _
  | cons d ds ih => exact .bind (hF d) fun _ => ih

/-- A recursive call: the body runs with the function itself for its calls. -/
lemma Finally.call {body : (α → Prog ε σ β) → α → Prog ε σ β} {s : σ} {a : α} {o : Except (Stop ε) (β × σ)}
    (hlocal : Local fun f => body f a) (hb : Finally (body (recur body) a) s o) : Finally (recur body a) s o := by
  refine hb.step fun n => ?_
  rw [recur]
  exact hlocal (recur body) n s

/-- A call returns what its body returns. -/
lemma Returns.call {body : (α → Prog ε σ β) → α → Prog ε σ β} {s s' : σ} {a : α} {b : β}
    (hlocal : Local fun f => body f a) (hb : Returns (body (recur body) a) s b s') :
    Returns (recur body a) s b s' :=
  Finally.call hlocal hb

/-! ### What a result tells

The rules backwards: from the result of a program to the results of its parts. -/

/-- What a program returns, it returns with some budget. -/
lemma Returns.result {p : Prog ε σ α} {s s' : σ} {a : α} (h : Returns p s a s') :
    ∃ n, p n s = .ok (a, s') := by
  obtain ⟨N, h⟩ := h
  exact ⟨N, h N (le_refl N)⟩

/-- The result of a sequence comes from both parts. -/
lemma bind_result {p : Prog ε σ α} {f : α → Prog ε σ β} {n : Nat} {s s2 : σ} {b : β}
    (h : (p >>= f) n s = .ok (b, s2)) : ∃ a s1, p n s = .ok (a, s1) ∧ f a n s1 = .ok (b, s2) := by
  change Prog.bind p f n s = _ at h
  rw [Prog.bind] at h
  cases hp : p n s with
  | error e =>
    rw [hp] at h
    cases h
  | ok r =>
    rw [hp] at h
    exact ⟨r.1, r.2, rfl, h⟩

/-- The result of a check. -/
lemma check_result {c : Prop} [Decidable c] {e : ε} {n : Nat} {s s' : σ} {u : Unit}
    (h : (check (decide c) e : Prog ε σ Unit) n s = .ok (u, s')) : c ∧ s' = s := by
  rw [Prog.check] at h
  split at h
  · next hc =>
    cases h
    exact ⟨of_decide_eq_true hc, rfl⟩
  · cases h

/-- The invariant rule: what every turn of a loop keeps, and what leaving it gives. -/
lemma loop_result {body : α → Prog ε σ (α ⊕ β)} {I : α → σ → Prop} {Q : β → σ → Prop}
    (turn : ∀ a s n a' s', I a s → body a n s = .ok (.inl a', s') → I a' s')
    (leave : ∀ a s n b s', I a s → body a n s = .ok (.inr b, s') → Q b s')
    {a : α} {n : Nat} {s s' : σ} {b : β} (h : I a s) (hr : loop body a n s = .ok (b, s')) : Q b s' := by
  induction n generalizing a s with
  | zero => cases hr
  | succ n ih =>
    rw [loop] at hr
    split at hr
    · next a' s1 hb => exact ih (turn a s n a' s1 h hb) hr
    · next b' s1 hb =>
      cases hr
      exact leave a s n b s' h hb
    · cases hr

end Prog

end Twcos
