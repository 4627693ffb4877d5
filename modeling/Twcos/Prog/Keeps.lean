import Twcos.Prog.Basic

/-!
# Invariants of programs

`Keeps I p` says that a program that is started in a state with the property `I` and returns leaves a state with it. The
rules follow the control flow of a program.
-/

namespace Twcos.Prog

variable {ε σ α β : Type} {I : σ → Prop}

def Keeps (I : σ → Prop) (p : Prog ε σ α) : Prop := ∀ n s a s', I s → p n s = .ok (a, s') → I s'

/-- What is kept holds after a result. -/
lemma Keeps.returns {p : Prog ε σ α} {s s' : σ} {a : α} (h : Keeps I p) (hr : Returns p s a s') (hs : I s) :
    I s' := by
  obtain ⟨n, hr⟩ := hr.result
  exact h n s a s' hs hr

/-- A value keeps every invariant. -/
lemma Keeps.pure (a : α) : Keeps I (Pure.pure a : Prog ε σ α) := by
  intro n s b s' hs hr
  cases hr
  exact hs

/-- A fault keeps every invariant. -/
lemma Keeps.raise (e : ε) : Keeps I (raise e : Prog ε σ α) := by
  intro n s b s' hs hr
  cases hr

/-- Reading keeps every invariant. -/
lemma Keeps.asks (f : σ → α) : Keeps I (asks f : Prog ε σ α) := by
  intro n s b s' hs hr
  cases hr
  exact hs

/-- Reading what has to be there keeps every invariant. -/
lemma Keeps.demand (f : σ → Option α) (e : ε) : Keeps I (demand f e) := by
  intro n s b s' hs hr
  rw [Prog.demand] at hr
  split at hr
  · cases hr
    exact hs
  · cases hr

/-- A change keeps an invariant that it respects. -/
lemma Keeps.update {f : σ → σ} (h : ∀ s, I s → I (f s)) : Keeps I (update f : Prog ε σ Unit) := by
  intro n s b s' hs hr
  cases hr
  exact h s hs

/-- A sequence keeps an invariant if its parts do. -/
lemma Keeps.bind {p : Prog ε σ α} {f : α → Prog ε σ β} (hp : Keeps I p) (hf : ∀ a, Keeps I (f a)) :
    Keeps I (p >>= f) := by
  intro n s b s' hs hr
  obtain ⟨a, s1, h1, h2⟩ := bind_result hr
  exact hf a n s1 b s' (hp n s a s1 hs h1) h2

/-- Sequencing, where something is known about what the first part returns. -/
lemma Keeps.bind_of {p : Prog ε σ α} {f : α → Prog ε σ β} {P : α → Prop} (hp : Keeps I p)
    (known : ∀ n s a s', p n s = .ok (a, s') → P a) (hf : ∀ a, P a → Keeps I (f a)) : Keeps I (p >>= f) := by
  intro n s b s' hs hr
  obtain ⟨a, s1, h1, h2⟩ := bind_result hr
  exact hf a (known n s a s1 h1) n s1 b s' (hp n s a s1 hs h1) h2

/-- A branch keeps an invariant if both sides do. -/
lemma Keeps.ite {c : Prop} [Decidable c] {p q : Prog ε σ α} (hp : Keeps I p) (hq : Keeps I q) :
    Keeps I (if c then p else q) := by
  split
  · exact hp
  · exact hq

/-- A condition keeps an invariant if the code under it does. -/
lemma Keeps.when {c : Bool} {p : Prog ε σ Unit} (hp : Keeps I p) : Keeps I (when c p) := by
  rw [Prog.when]
  split
  · exact hp
  · exact .pure ()

/-- A loop keeps an invariant if its turns do. -/
lemma Keeps.loop {body : α → Prog ε σ (α ⊕ β)} (h : ∀ a, Keeps I (body a)) (a : α) : Keeps I (loop body a) := by
  intro n s b s' hs hr
  exact loop_result (I := fun _ s => I s) (Q := fun _ s => I s) (fun a s n a' s' hs hr => h a n s _ s' hs hr)
    (fun a s n b s' hs hr => h a n s _ s' hs hr) hs hr

/-- A recursion keeps an invariant if its body does, for calls that keep it. -/
lemma Keeps.recur {body : (α → Prog ε σ β) → α → Prog ε σ β}
    (h : ∀ f, (∀ a, Keeps I (f a)) → ∀ a, Keeps I (body f a)) (a : α) : Keeps I (recur body a) := by
  intro n
  induction n generalizing a with
  | zero =>
    intro s b s' hs hr
    cases hr
  | succ n ih =>
    intro s b s' hs hr
    rw [Prog.recur] at hr
    exact h _ (fun a _ s b s' => ih a s b s') a n s b s' hs hr

end Twcos.Prog
