import Twcos.Prog.Basic

/-!
# What code adds to a log

`Logs I g n p l` says that in every state with the property `I`, the program `p` adds `l` to the list `g` if it returns
with the budget `n`, and keeps `I`. The rules follow the control flow. Where a call of a recursive function adds
`step L a` if the calls that it makes add what `L` says, `iterate step n a` is what it adds with the budget `n`.
-/

namespace Twcos.Prog

variable {ε σ α β γ : Type} {I : σ → Prop} {g : σ → List γ} {n : Nat} {l l' : List γ}

def Logs (I : σ → Prop) (g : σ → List γ) (n : Nat) (p : Prog ε σ α) (l : List γ) : Prop :=
  ∀ s a s', I s → p n s = .ok (a, s') → I s' ∧ g s' = g s ++ l

/-- A log that is equal to another. -/
lemma Logs.of_eq {p : Prog ε σ α} (h : Logs I g n p l) (e : l = l') : Logs I g n p l' := e ▸ h

/-- A value adds nothing to the log. -/
lemma Logs.pure (a : α) : Logs I g n (Pure.pure a : Prog ε σ α) [] := by
  intro s b s' hs run
  cases run
  exact ⟨hs, (List.append_nil _).symm⟩

/-- The log of a change that adds to it. -/
lemma Logs.update {f : σ → σ} (h : ∀ s, I s → I (f s) ∧ g (f s) = g s ++ l) :
    Logs I g n (update f : Prog ε σ Unit) l := by
  intro s b s' hs run
  cases run
  exact h s hs

/-- The log of a sequence. -/
lemma Logs.bind {p : Prog ε σ α} {f : α → Prog ε σ β} (hp : Logs I g n p l) (hf : ∀ a, Logs I g n (f a) l') :
    Logs I g n (p >>= f) (l ++ l') := by
  intro s b s2 hs run
  obtain ⟨a, s1, first, rest⟩ := bind_result run
  obtain ⟨hs1, e1⟩ := hp s a s1 hs first
  obtain ⟨hs2, e2⟩ := hf a s1 b s2 hs1 rest
  exact ⟨hs2, by rw [e2, e1, List.append_assoc]⟩

/-- A value that is the same in all states with the property. -/
lemma Logs.asks {q : σ → α} {a : α} {f : α → Prog ε σ β} (h : ∀ s, I s → q s = a) (hf : Logs I g n (f a) l) :
    Logs I g n (asks q >>= f) l := by
  intro s b s' hs run
  change f (q s) n s = _ at run
  rw [h s hs] at run
  exact hf s b s' hs run

/-- The log of code under a condition. -/
lemma Logs.when {c : Prop} [Decidable c] {p : Prog ε σ Unit} (hp : Logs I g n p l) :
    Logs I g n (when (decide c) p) (if c then l else []) := by
  rw [Prog.when]
  by_cases h : c
  · rw [if_pos (decide_eq_true h), if_pos h]
    exact hp
  · rw [if_neg fun e => h (of_decide_eq_true e), if_neg h]
    exact .pure ()

/-- The log of a loop over a list. -/
lemma Logs.each {p : α → Prog ε σ Unit} {f : α → List γ} {as : List α} (h : ∀ a ∈ as, Logs I g n (p a) (f a)) :
    Logs I g n (each p as) (as.flatMap f) := by
  induction as with
  | nil => exact .pure ()
  | cons a as ih => exact .bind (h a List.mem_cons_self) fun _ => ih fun b mem => h b (List.mem_cons_of_mem a mem)

def iterate (step : (α → List γ) → α → List γ) : Nat → α → List γ
  | 0, _ => []
  | n + 1, a => step (iterate step n) a

/-- The log of a recursion, by the depth of its calls. -/
lemma logs_recur {body : (α → Prog ε σ β) → α → Prog ε σ β} {step : (α → List γ) → α → List γ}
    (hlocal : ∀ a, Local fun f => body f a)
    (h : ∀ (f : α → Prog ε σ β) (n : Nat) (L : α → List γ) (a : α), (∀ b, Logs I g n (f b) (L b)) →
      Logs I g n (body f a) (step L a)) (n : Nat) (a : α) :
    Logs I g n (recur body a) (iterate step n a) := by
  induction n generalizing a with
  | zero =>
    intro s b s' hs run
    cases run
  | succ n ih =>
    intro s b s' hs run
    have call : recur body a (n + 1) s = body (recur body) a n s := hlocal a (recur body) n s
    exact h (recur body) n (iterate step n) a ih s b s' hs (call.symm.trans run)

end Twcos.Prog
