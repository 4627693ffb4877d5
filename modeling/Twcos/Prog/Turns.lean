import Twcos.Prog.Basic

/-!
# The turns of a loop

`Reaches body a s a' s'` says that a loop that starts with the locals `a` in state `s` comes to its head with `a'` in
state `s'`, and `Visits body a s as b s'` that it comes to its head with the locals `as`, one after the other, and then
leaves with `b`. `Straight p` says that `p` takes nothing from the budget, so that its result can be taken apart.
-/

namespace Twcos.Prog

variable {ε σ α β : Type} {body : α → Prog ε σ (α ⊕ β)}

inductive Reaches (body : α → Prog ε σ (α ⊕ β)) : α → σ → α → σ → Prop where
  | refl (a : α) (s : σ) : Reaches body a s a s
  | turn {a a1 a2 : α} {s s1 s2 : σ} : Returns (body a) s (.inl a1) s1 → Reaches body a1 s1 a2 s2 →
      Reaches body a s a2 s2

/-- A loop reaches what one more turn gives. -/
lemma Reaches.step {a a1 a2 : α} {s s1 s2 : σ} (h : Reaches body a s a1 s1)
    (next : Returns (body a1) s1 (.inl a2) s2) : Reaches body a s a2 s2 := by
  induction h with
  | refl => exact .turn next (.refl _ _)
  | turn first _ ih => exact .turn first (ih next)

/-- The loop ends as it does from where it has come to. -/
lemma Reaches.returns {a a1 : α} {b : β} {s s1 s2 : σ} (h : Reaches body a s a1 s1) (run : Returns (loop body a1) s1 b s2) :
    Returns (loop body a) s b s2 := by
  induction h with
  | refl => exact run
  | turn first _ ih => exact .turn first (ih run)

inductive Visits (body : α → Prog ε σ (α ⊕ β)) : α → σ → List α → β → σ → Prop where
  | leave {a : α} {s s' : σ} {b : β} : Returns (body a) s (.inr b) s' → Visits body a s [a] b s'
  | turn {a a1 : α} {s s1 s2 : σ} {as : List α} {b : β} : Returns (body a) s (.inl a1) s1 →
      Visits body a1 s1 as b s2 → Visits body a s (a :: as) b s2

/-- The loop returns what its last turn does. -/
lemma Visits.returns {a : α} {s s' : σ} {as : List α} {b : β} (h : Visits body a s as b s') :
    Returns (loop body a) s b s' := by
  induction h with
  | leave last => exact .exit last
  | turn first _ ih => exact .turn first ih

/-- The first turn. -/
lemma Visits.head {a : α} {s s' : σ} {as : List α} {b : β} (h : Visits body a s as b s') : as.head? = some a := by
  cases h with
  | leave _ => rfl
  | turn _ _ => rfl

/-! ### Code without an end -/

/-- The code runs out of every budget. -/
def Endless (p : Prog ε σ α) (s : σ) : Prop := ∃ N, ∀ n, N ≤ n → p n s = .error .budget

/-- What does not end does not return. -/
lemma Endless.not_returns {p : Prog ε σ α} {s s' : σ} {a : α} (h : Endless p s) : ¬Returns p s a s' := by
  intro run
  cases Finally.unique h run

/-- A sequence whose first part does not end does not end. -/
lemma Endless.first {p : Prog ε σ α} {f : α → Prog ε σ β} {s : σ} (h : Endless p s) : Endless (p >>= f) s :=
  Finally.first h

/-- A sequence whose second part does not end does not end. -/
lemma Endless.rest {p : Prog ε σ α} {f : α → Prog ε σ β} {s s1 : σ} {a : α} (hp : Returns p s a s1)
    (hf : Endless (f a) s1) : Endless (p >>= f) s :=
  Finally.rest hp hf

/-- A loop that goes on without an end. -/
lemma Endless.turn {a a1 : α} {s s1 : σ} (hb : Returns (body a) s (.inl a1) s1) (hl : Endless (loop body a1) s1) :
    Endless (loop body a) s :=
  Finally.loop (.rest hb hl)

/-- A loop that comes to a turn from which it goes on without an end. -/
lemma Reaches.endless {a a1 : α} {s s1 : σ} (h : Reaches body a s a1 s1) (run : Endless (loop body a1) s1) :
    Endless (loop body a) s := by
  induction h with
  | refl => exact run
  | turn first _ ih => exact .turn first (ih run)

/-- The code comes to an end, with a result or a fault. -/
def Ends (p : Prog ε σ α) (s : σ) : Prop := (∃ a s', Returns p s a s') ∨ ∃ e, Raises p s e

/-- What does not end does not fail either. -/
lemma Endless.not_ends {p : Prog ε σ α} {s : σ} (h : Endless p s) : ¬Ends p s := by
  rintro (⟨a, s', run⟩ | ⟨e, run⟩)
  · exact h.not_returns run
  · cases Finally.unique h run

/-- A loop that always goes round again. -/
lemma loop_forever {I : α → σ → Prop} (h : ∀ a s n, I a s → ∃ a' s', body a n s = .ok (.inl a', s') ∧ I a' s') {a : α}
    {s : σ} (start : I a s) : Endless (loop body a) s := by
  refine ⟨0, fun n _ => ?_⟩
  induction n generalizing a s with
  | zero => rfl
  | succ n ih =>
    obtain ⟨a1, s1, turn, next⟩ := h a s n start
    rw [loop, turn]
    exact ih next (Nat.zero_le n)

/-- Loops whose bodies are the same wherever they come to. -/
lemma loop_congr {body' : α → Prog ε σ (α ⊕ β)} {I : α → Prop} (same : ∀ a, I a → body a = body' a)
    (next : ∀ a n s a' s', I a → body a n s = .ok (.inl a', s') → I a') {a : α} (start : I a) :
    loop body a = loop body' a := by
  funext n s
  induction n generalizing a s with
  | zero => rfl
  | succ n ih =>
    rw [loop, loop, ← same a start]
    cases turn : body a n s with
    | error e => rfl
    | ok r =>
      obtain ⟨a' | b, s'⟩ := r
      · exact ih (next a n s a' s' start turn) s'
      · rfl

/-! ### Faults in a loop -/

/-- A sequence whose first part fails fails. -/
lemma Raises.first {p : Prog ε σ α} {f : α → Prog ε σ β} {s : σ} {e : ε} (h : Raises p s e) : Raises (p >>= f) s e :=
  Finally.first h

/-- What fails does not return. -/
lemma Raises.not_returns {p : Prog ε σ α} {s s' : σ} {e : ε} {a : α} (h : Raises p s e) : ¬Returns p s a s' := by
  intro run
  cases Finally.unique h run

/-- A loop whose first turn fails fails. -/
lemma Raises.loop {a : α} {s : σ} {e : ε} (h : Raises (body a) s e) : Raises (loop body a) s e :=
  Finally.loop (.first h)

/-- A loop whose later turn fails fails. -/
lemma Raises.turn {a a' : α} {s s1 : σ} {e : ε} (hb : Returns (body a) s (.inl a') s1)
    (hl : Raises (Prog.loop body a') s1 e) : Raises (Prog.loop body a) s e :=
  Finally.loop (.rest hb hl)

/-! ### Faults in code without loops -/

/-- Reading what has to be there fails if it is not. -/
lemma Raises.demand {f : σ → Option α} {e : ε} {s : σ} (h : f s = none) : Raises (demand f e) s e :=
  ⟨0, fun _ _ => by simp only [Prog.demand, h]⟩

/-- The second part of a sequence. -/
lemma Raises.rest {p : Prog ε σ α} {f : α → Prog ε σ β} {s s1 : σ} {a : α} {e : ε} (hp : Returns p s a s1)
    (hf : Raises (f a) s1 e) : Raises (p >>= f) s e :=
  Finally.rest hp hf

/-- A call fails if its body does. -/
lemma Raises.call {body : (α → Prog ε σ β) → α → Prog ε σ β} {s : σ} {a : α} {e : ε}
    (hlocal : Local fun f => body f a) (hb : Raises (body (recur body) a) s e) : Raises (recur body a) s e :=
  Finally.call hlocal hb

/-- A check that fails. -/
lemma Raises.check {c : Prop} [Decidable c] {e : ε} {s : σ} (h : ¬c) : Raises (check (decide c) e : Prog ε σ Unit) s e := by
  rw [Prog.check, if_neg fun t => h (of_decide_eq_true t)]
  exact ⟨0, fun _ _ => rfl⟩

/-! ### Statements for each element of a list -/

/-- A loop over a list in two parts. -/
lemma each_append (p : α → Prog ε σ Unit) (as bs : List α) : each p (as ++ bs) = (each p as >>= fun _ => each p bs) := by
  induction as with
  | nil => rfl
  | cons a as ih =>
    funext n s
    rw [List.cons_append, each, ih, each]
    show Prog.bind _ _ n s = Prog.bind (Prog.bind _ _) _ n s
    simp only [Prog.bind]
    cases p a n s with
    | error e => rfl
    | ok r => rfl

/-- A statement that is itself made of statements for each element of a list. -/
lemma each_flatMap {p : α → Prog ε σ Unit} {q : β → Prog ε σ Unit} {f : β → List α} (h : ∀ b, q b = each p (f b))
    (bs : List β) : each q bs = each p (bs.flatMap f) := by
  induction bs with
  | nil => rfl
  | cons b bs ih => rw [each, List.flatMap_cons, each_append, h, ih]

/-- A loop over the images of a list. -/
lemma each_map (p : α → Prog ε σ Unit) (f : β → α) (bs : List β) : each p (bs.map f) = each (fun b => p (f b)) bs := by
  induction bs with
  | nil => rfl
  | cons b bs ih => rw [List.map_cons, each, each, ih]

/-- A loop over one element. -/
lemma each_singleton (p : α → Prog ε σ Unit) (a : α) : each p [a] = p a := by
  funext n s
  show Prog.bind (p a) _ n s = p a n s
  rw [Prog.bind]
  cases p a n s with
  | error e => rfl
  | ok r => rfl

/-! ### Code without loops -/

def Straight (p : Prog ε σ α) : Prop := ∀ n s, p n s = p 0 s

/-- A value needs no budget. -/
lemma Straight.pure (a : α) : Straight (Pure.pure a : Prog ε σ α) := fun _ _ => rfl

/-- Reading needs no budget. -/
lemma Straight.asks (f : σ → α) : Straight (asks f : Prog ε σ α) := fun _ _ => rfl

/-- Reading what has to be there needs no budget. -/
lemma Straight.demand (f : σ → Option α) (e : ε) : Straight (demand f e) := fun _ _ => rfl

/-- A change needs no budget. -/
lemma Straight.update (f : σ → σ) : Straight (update f : Prog ε σ Unit) := fun _ _ => rfl

/-- A check needs no budget. -/
lemma Straight.check (c : Bool) (e : ε) : Straight (check c e : Prog ε σ Unit) := by
  intro n s
  cases c with
  | true => rfl
  | false => rfl

/-- A fault needs no budget. -/
lemma Straight.raise (e : ε) : Straight (raise e : Prog ε σ α) := fun _ _ => rfl

/-- A sequence needs no budget if its parts need none. -/
lemma Straight.bind {p : Prog ε σ α} {f : α → Prog ε σ β} (hp : Straight p) (hf : ∀ a, Straight (f a)) :
    Straight (p >>= f) := by
  intro n s
  show Prog.bind p f n s = Prog.bind p f 0 s
  rw [Prog.bind, Prog.bind, hp n s]
  cases p 0 s with
  | error e => rfl
  | ok r => exact hf r.1 n r.2

/-- Code under a condition needs no budget if the code needs none. -/
lemma Straight.when {c : Bool} {p : Prog ε σ Unit} (hp : Straight p) : Straight (when c p) := by
  rw [Prog.when]
  split
  · exact hp
  · exact .pure ()

/-- A branch needs no budget if its sides need none. -/
lemma Straight.ite {c : Prop} [Decidable c] {p q : Prog ε σ α} (hp : Straight p) (hq : Straight q) :
    Straight (if c then p else q) := by
  split
  · exact hp
  · exact hq

/-- What straight code gives with one budget it returns. -/
lemma Straight.returns {p : Prog ε σ α} (hp : Straight p) {n : Nat} {s s' : σ} {a : α} (h : p n s = .ok (a, s')) :
    Returns p s a s' := by
  refine .of_eq fun m => ?_
  rw [hp m s, ← hp n s]
  exact h

/-- The result is the same with every budget. -/
lemma Returns.at_budget {p : Prog ε σ α} {s s' : σ} {a : α} (h : Returns p s a s') (hp : Straight p) (n : Nat) :
    p n s = .ok (a, s') := by
  obtain ⟨N, h⟩ := h
  rw [hp n s, ← hp N s]
  exact h N (le_refl N)

/-- A fault of straight code with one budget is its fault. -/
lemma Straight.raises {p : Prog ε σ α} (hp : Straight p) {n : Nat} {s : σ} {e : ε} (h : p n s = .error (.fault e)) :
    Raises p s e := by
  refine ⟨0, fun m _ => ?_⟩
  rw [hp m s, ← hp n s]
  exact h

/-- The two parts of a sequence. -/
lemma Straight.bind_returns {p : Prog ε σ α} {f : α → Prog ε σ β} (hp : Straight p) {s s2 : σ} {b : β}
    (h : Returns (p >>= f) s b s2) : ∃ a s1, Returns p s a s1 ∧ Returns (f a) s1 b s2 := by
  obtain ⟨N, h⟩ := h
  obtain ⟨a, s1, first, -⟩ := bind_result (h N (le_refl N))
  have first := hp.returns first
  refine ⟨a, s1, first, ?_⟩
  obtain ⟨M, result⟩ := id first
  refine ⟨max N M, fun n hn => ?_⟩
  obtain ⟨a', s1', first', rest⟩ := bind_result (h n (le_trans (le_max_left _ _) hn))
  cases (result n (le_trans (le_max_right _ _) hn)).symm.trans first'
  exact rest

/-! ### Locals -/

/-- Code that works on locals, made from the state and given up for it at the end. -/
def enclose {τ : Type} (enter : σ → τ) (leave : τ → σ) (p : Prog ε τ α) : Prog ε σ α := fun n s =>
  match p n (enter s) with
  | .ok (a, t) => .ok (a, leave t)
  | .error e => .error e

/-- Code on a part of the state. -/
lemma Returns.enclose {τ : Type} {enter : σ → τ} {leave : τ → σ} {p : Prog ε τ α} {s : σ} {t : τ} {a : α}
    (h : Returns p (enter s) a t) : Returns (enclose enter leave p) s a (leave t) := by
  obtain ⟨N, h⟩ := h
  refine ⟨N, fun n hn => ?_⟩
  simp only [Prog.enclose, h n hn]

/-- The result of code on a part of the state. -/
lemma enclose_result {τ : Type} {enter : σ → τ} {leave : τ → σ} {p : Prog ε τ α} {n : Nat} {s s' : σ} {a : α}
    (h : enclose enter leave p n s = .ok (a, s')) : ∃ t, p n (enter s) = .ok (a, t) ∧ s' = leave t := by
  rw [enclose] at h
  split at h
  · next a' t run =>
    cases h
    exact ⟨t, run, rfl⟩
  · cases h

/-- A loop that has a result has a first turn. -/
lemma loop_first {a : α} {b : β} {n : Nat} {s s' : σ} (h : loop body a n s = .ok (b, s')) : ∃ m, n = m + 1 ∧
    ((∃ a' s1, body a m s = .ok (.inl a', s1) ∧ loop body a' m s1 = .ok (b, s')) ∨ body a m s = .ok (.inr b, s')) := by
  cases n with
  | zero => cases h
  | succ m =>
    refine ⟨m, rfl, ?_⟩
    rw [loop] at h
    split at h
    · next a' s1 first => exact .inl ⟨a', s1, first, h⟩
    · next b' s1 first =>
      cases h
      exact .inr first
    · cases h

/-- The only way in which the code stops without a result is this fault. -/
def Faults (e : ε) (p : Prog ε σ α) : Prop := ∀ n s stop, p n s = .error stop → stop = .fault e

section Faults
variable {e : ε}

/-- A value has no faults. -/
lemma Faults.pure (a : α) : Faults e (Pure.pure a : Prog ε σ α) := by
  intro n s stop run
  cases run

/-- Reading has no faults. -/
lemma Faults.asks (f : σ → α) : Faults e (asks f : Prog ε σ α) := by
  intro n s stop run
  cases run

/-- A change has no faults. -/
lemma Faults.update (f : σ → σ) : Faults e (update f : Prog ε σ Unit) := by
  intro n s stop run
  cases run

/-- A fault of the kind that is named. -/
lemma Faults.raise (e : ε) : Faults e (raise e : Prog ε σ α) := by
  intro n s stop run
  cases run
  rfl

/-- A sequence has only the faults of its parts. -/
lemma Faults.bind {p : Prog ε σ α} {f : α → Prog ε σ β} (hp : Faults e p) (hf : ∀ a, Faults e (f a)) :
    Faults e (p >>= f) := by
  intro n s stop run
  have parts : Prog.bind p f n s = .error stop := run
  rw [Prog.bind] at parts
  cases first : p n s with
  | ok r =>
    rw [first] at parts
    exact hf r.1 n r.2 stop parts
  | error stop =>
    rw [first] at parts
    cases parts
    exact hp n s stop first

/-- Code under a condition has only its own faults. -/
lemma Faults.when {c : Bool} {p : Prog ε σ Unit} (hp : Faults e p) : Faults e (when c p) := by
  rw [Prog.when]
  split
  · exact hp
  · exact .pure ()

/-- A branch has only the faults of its sides. -/
lemma Faults.ite {c : Prop} [Decidable c] {p q : Prog ε σ α} (hp : Faults e p) (hq : Faults e q) :
    Faults e (if c then p else q) := by
  split
  · exact hp
  · exact hq

/-- Code without loops returns if it does not fault. -/
lemma Faults.returns_iff {p : Prog ε σ α} (hf : Faults e p) (hp : Straight p) (s : σ) :
    (∃ a s', Returns p s a s') ↔ ¬Raises p s e := by
  constructor
  · rintro ⟨a, s', run⟩ raises
    exact raises.not_returns run
  · intro fine
    cases run : p 0 s with
    | ok r => exact ⟨r.1, r.2, hp.returns run⟩
    | error stop =>
      cases hf 0 s stop run
      exact absurd (hp.raises run) fine

end Faults

end Twcos.Prog
