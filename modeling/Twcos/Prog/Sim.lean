import Twcos.Prog.Emits

/-!
# Simulation

`Sim R A p q` says that whatever `p` does from a state, `q` does from a state that `R` relates to it, with a budget that
is not smaller: it returns a value related by `A` in a state related by `R`. The rules follow the control flow, so that
code is related to itself statement by statement. Related by equality, this says that a larger budget changes nothing,
which is what `Sim.returns` needs to carry a result over.
-/

namespace Twcos.Prog

variable {ε σ α β γ : Type} {R : σ → σ → Prop} {A : α → α → Prop} {B : β → β → Prop}

def Sim (R : σ → σ → Prop) (A : α → α → Prop) (p q : Prog ε σ α) : Prop :=
  ∀ n m s t a s', n ≤ m → R s t → p n s = .ok (a, s') → ∃ b t', q m t = .ok (b, t') ∧ A a b ∧ R s' t'

/-- Values that are related simulate each other. -/
lemma Sim.pure {a b : α} (h : A a b) : Sim R A (Pure.pure a : Prog ε σ α) (Pure.pure b) := by
  intro n m s t a' s' _ hR run
  cases run
  exact ⟨b, t, rfl, h, hR⟩

/-- A fault is simulated by anything. -/
lemma Sim.raise (e : ε) (q : Prog ε σ α) : Sim R A (raise e) q := by
  intro n m s t a s' _ _ run
  cases run

/-- Reading simulates reading, if the values are related. -/
lemma Sim.asks {f g : σ → α} (h : ∀ s t, R s t → A (f s) (g t)) : Sim R A (asks f : Prog ε σ α) (asks g) := by
  intro n m s t a s' _ hR run
  cases run
  exact ⟨_, t, rfl, h s t hR, hR⟩

/-- A change simulates a change that keeps states related. -/
lemma Sim.update {f g : σ → σ} (h : ∀ s t, R s t → R (f s) (g t)) :
    Sim R Eq (update f : Prog ε σ Unit) (update g) := by
  intro n m s t a s' _ hR run
  cases run
  exact ⟨_, _, rfl, rfl, h s t hR⟩

/-- Reading what has to be there simulates the same in a related state. -/
lemma Sim.demand {f g : σ → Option α} {e : ε} (h : ∀ s t a, R s t → f s = some a → ∃ b, g t = some b ∧ A a b) :
    Sim R A (demand f e) (demand g e) := by
  intro n m s t a s' _ hR run
  rw [Prog.demand] at run
  split at run
  · next a' found =>
    cases run
    obtain ⟨b, found', related⟩ := h s t a hR found
    refine ⟨b, t, ?_, related, hR⟩
    rw [Prog.demand, found']
  · cases run

/-- A sequence simulates a sequence, part by part. -/
lemma Sim.bind {p q : Prog ε σ α} {f g : α → Prog ε σ β} (hp : Sim R A p q) (hf : ∀ a b, A a b → Sim R B (f a) (g b)) :
    Sim R B (p >>= f) (q >>= g) := by
  intro n m s t b s2 le hR run
  obtain ⟨a, s1, first, rest⟩ := bind_result run
  obtain ⟨a', t1, first', related, hR1⟩ := hp n m s t a s1 le hR first
  obtain ⟨b', t2, rest', related', hR2⟩ := hf a a' related n m s1 t1 b s2 le hR1 rest
  refine ⟨b', t2, ?_, related', hR2⟩
  show Prog.bind q g m t = _
  rw [Prog.bind, first']
  exact rest'

/-- Sequencing, where the first part returns the same value. -/
lemma Sim.andThen {p q : Prog ε σ α} {f g : α → Prog ε σ β} (hp : Sim R Eq p q) (hf : ∀ a, Sim R B (f a) (g a)) :
    Sim R B (p >>= f) (q >>= g) :=
  .bind hp fun a b e => by
    subst e
    exact hf a

/-- A check simulates itself. -/
lemma Sim.check (c : Bool) (e : ε) : Sim R Eq (check c e : Prog ε σ Unit) (check c e) := by
  rw [Prog.check]
  split
  · exact .pure rfl
  · exact .raise e _

/-- A branch simulates a branch with the same condition. -/
lemma Sim.ite {c : Prop} [Decidable c] {p q p' q' : Prog ε σ α} (hp : Sim R A p p') (hq : Sim R A q q') :
    Sim R A (if c then p else q) (if c then p' else q') := by
  by_cases h : c
  · rw [if_pos h, if_pos h]
    exact hp
  · rw [if_neg h, if_neg h]
    exact hq

/-- Code under a condition simulates code under the same condition. -/
lemma Sim.when {c : Bool} {p q : Prog ε σ Unit} (hp : Sim R Eq p q) : Sim R Eq (when c p) (when c q) :=
  .ite hp (.pure rfl)

/-- Both go round with related locals, or both leave with related results. -/
inductive Branch (A : α → α → Prop) (B : β → β → Prop) : α ⊕ β → α ⊕ β → Prop where
  | inl {a a' : α} : A a a' → Branch A B (.inl a) (.inl a')
  | inr {b b' : β} : B b b' → Branch A B (.inr b) (.inr b')

/-- A loop simulates a loop whose turns are related. -/
lemma Sim.loop {body body' : α → Prog ε σ (α ⊕ β)}
    (h : ∀ a a', A a a' → Sim R (Branch A B) (body a) (body' a')) {a a' : α} (start : A a a') :
    Sim R B (loop body a) (loop body' a') := by
  intro n
  induction n generalizing a a' with
  | zero =>
    intro m s t b s' _ _ run
    cases run
  | succ n ih =>
    intro m s t b s2 le hR run
    obtain ⟨m, rfl⟩ := Nat.exists_eq_succ_of_ne_zero (Nat.ne_of_gt (Nat.lt_of_lt_of_le (Nat.succ_pos n) le))
    have le := Nat.le_of_succ_le_succ le
    rw [Prog.loop] at run
    split at run
    · next a1 s1 turn =>
      obtain ⟨c, t1, turn', both, hR1⟩ := h a a' start n m s t _ s1 le hR turn
      cases both with
      | @inl _ a1' next =>
        obtain ⟨b', t2, rest, related, hR2⟩ := ih next m s1 t1 b s2 le hR1 run
        refine ⟨b', t2, ?_, related, hR2⟩
        rw [Prog.loop, turn']
        exact rest
    · next b1 s1 leave =>
      obtain ⟨c, t1, leave', both, hR1⟩ := h a a' start n m s t _ s1 le hR leave
      cases run
      cases both with
      | @inr _ b' related =>
        refine ⟨b', t1, ?_, related, hR1⟩
        rw [Prog.loop, leave']
    · cases run

/-- A `while` loop simulates a `while` loop, part by part. -/
lemma Sim.whileDo {c d : Prog ε σ Bool} {p q : Prog ε σ Unit} (hc : Sim R Eq c d) (hp : Sim R Eq p q) :
    Sim R Eq (whileDo c p) (whileDo d q) := by
  unfold Prog.whileDo
  refine .loop (A := Eq) (fun _ _ _ => ?_) rfl
  refine .andThen hc fun t => .ite ?_ (.pure (.inr rfl))
  exact .andThen hp fun _ => .pure (.inl rfl)

/-- A result is carried over, if the code on the other side does not depend on a budget that is large enough. -/
lemma Sim.returns {p q : Prog ε σ α} (h : Sim R Eq p q) (steady : Sim Eq Eq q q) {s t s' : σ} {a : α}
    (run : Returns p s a s') (hR : R s t) : ∃ t', Returns q t a t' ∧ R s' t' := by
  obtain ⟨N, run⟩ := run
  obtain ⟨b, t', run', rfl, hR'⟩ := h N N s t a s' (le_refl N) hR (run N (le_refl N))
  refine ⟨t', ⟨N, fun n le => ?_⟩, hR'⟩
  obtain ⟨b, t2, run2, rfl, rfl⟩ := steady N n t t a t' le rfl run'
  exact run2

end Twcos.Prog
