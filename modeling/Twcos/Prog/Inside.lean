import Twcos.Prog.Emits

/-!
# Code on a part of the state

`inside` runs code on a state of its own, which is a part of the state of the caller or one that it has just made, and
returns the state after it; the faults of the code are renamed. `collect` runs code that calls a function and returns the
calls, for a callback that the code itself cannot observe.
-/

namespace Twcos.Prog

variable {ε ε' σ τ γ α β : Type}

/-- Run `p` in the state `t`. -/
def inside (fault : ε → ε') (p : Prog ε τ α) (t : τ) : Prog ε' σ (α × τ) := fun n s =>
  match p n t with
  | .ok (a, t') => .ok ((a, t'), s)
  | .error .budget => .error .budget
  | .error (.fault e) => .error (.fault (fault e))

/-- Run `p` and return the calls that it makes. -/
def collect (p : Prog ε (σ × List γ) Unit) : Prog ε σ (List γ) := fun n s =>
  match p n (s, []) with
  | .ok ((), s', calls) => .ok (calls, s')
  | .error e => .error e

/-- A program inside another one. -/
lemma Returns.inside {fault : ε → ε'} {p : Prog ε τ α} {t t' : τ} {a : α} (h : Returns p t a t') (s : σ) :
    Returns (inside fault p t : Prog ε' σ (α × τ)) s (a, t') s := by
  obtain ⟨N, h⟩ := h
  refine ⟨N, fun n hn => ?_⟩
  simp only [Prog.inside, h n hn]

/-- The output of a program, collected. -/
lemma Emits.collect {p : Prog ε (σ × List γ) Unit} {s s' : σ} {calls : List γ} (h : Emits p s () calls s') :
    Returns (collect p) s calls s' := by
  obtain ⟨N, h⟩ := h []
  refine ⟨N, fun n hn => ?_⟩
  simp only [Prog.collect, h n hn, List.nil_append]

end Twcos.Prog
