import Mathlib.Tactic.Common

/-!
# Steps of a deterministic machine

A machine whose step function takes no input: `step s` is the next state, or `none` if the machine has stopped.
`Steps step n s s'` says that it gets from `s` to `s'` in `n` steps, and `StepsWhile step P s s'` that it gets there
through states that have the property `P`.
-/

namespace Twcos.Run

variable {σ : Type}

inductive Steps (step : σ → Option σ) : Nat → σ → σ → Prop where
  | refl (s : σ) : Steps step 0 s s
  | cons {n : Nat} {s s1 s2 : σ} : step s = some s1 → Steps step n s1 s2 → Steps step (n + 1) s s2

variable {step : σ → Option σ} {m n : Nat} {s s1 s2 : σ}

/-- A single step. -/
lemma Steps.single (h : step s = some s1) : Steps step 1 s s1 := .cons h (.refl s1)

/-- Steps after steps. -/
lemma Steps.trans (h1 : Steps step m s s1) (h2 : Steps step n s1 s2) : Steps step (m + n) s s2 := by
  induction h1 with
  | refl =>
    rw [Nat.zero_add]
    exact h2
  | cons hs _ ih =>
    rw [Nat.add_right_comm]
    exact .cons hs (ih h2)

/-- Of two states of a run one comes first. -/
lemma Steps.total (h1 : Steps step m s s1) (h2 : Steps step n s s2) :
    (∃ k, Steps step k s1 s2) ∨ ∃ k, Steps step k s2 s1 := by
  induction h1 generalizing n with
  | refl => exact .inl ⟨n, h2⟩
  | cons hs h1 ih =>
    cases h2 with
    | refl => exact .inr ⟨_, .cons hs h1⟩
    | cons hs' h2 =>
      cases hs.symm.trans hs'
      exact ih h2

/-- What every step keeps, relative to the state before it. -/
lemma Steps.keep {R : σ → σ → Prop} (refl : ∀ s, R s s) (trans : ∀ s s1 s2, R s s1 → R s1 s2 → R s s2)
    (keep : ∀ s s1, step s = some s1 → R s s1) (h : Steps step n s s1) : R s s1 := by
  induction h with
  | refl s => exact refl s
  | cons hs _ ih => exact trans _ _ _ (keep _ _ hs) ih

/-- What every step keeps holds of the states that are reached. -/
lemma Steps.invariant {I : σ → Prop} (keep : ∀ s s1, I s → step s = some s1 → I s1) (h : Steps step n s s1) (hi : I s) :
    I s1 := by
  induction h with
  | refl s => exact hi
  | cons hs _ ih => exact ih (keep _ _ hi hs)

inductive StepsWhile (step : σ → Option σ) (P : σ → Prop) : σ → σ → Prop where
  | refl (s : σ) : StepsWhile step P s s
  | cons {s s1 s2 : σ} : P s → step s = some s1 → StepsWhile step P s1 s2 → StepsWhile step P s s2

/-- The first state without the property: it is reached by a step from an invariant that only holds where the property
    does. -/
lemma StepsWhile.leaves {P I Q : σ → Prop} (inside : ∀ s, I s → P s)
    (keep : ∀ s s1, I s → step s = some s1 → I s1 ∨ Q s1 ∧ ¬P s1) (h : StepsWhile step P s s1) (hi : I s)
    (left : ¬P s1) : Q s1 := by
  induction h with
  | refl s => exact absurd (inside s hi) left
  | @cons s s1 s2 _ hs rest ih =>
    rcases keep s s1 hi hs with hi' | ⟨hq, out⟩
    · exact ih hi' left
    · cases rest with
      | refl => exact hq
      | cons hp _ _ => exact absurd hp out

end Twcos.Run
